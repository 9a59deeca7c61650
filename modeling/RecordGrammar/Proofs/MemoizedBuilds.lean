import RecordGrammar.Proofs.RepeatedCompilation

/-! # Memoized fragments, built once and for ever

A memoized fragment is found from then on in whatever becomes of its table, and its build is not run
again. A build that fails may have committed rules by then; they stand behind the rules that were
there before, each in the scope of the fragment or of one that its build has asked for. -/

namespace RecordGrammar

section Builds

variable {α β : Type}

/-- The stems of memoized fragments that a run asks for, by the session it starts from. -/
abbrev Asked := Session → List String

namespace Asked

def none : Asked := fun _ => []

/-- A fragment that is not there is built, and its build may ask for further ones. -/
def fragment (stem : String) (asked : Asked) : Asked := fun s =>
  if s.table.defined (Scope.idOf ⟨stem⟩ "decl") then [stem] else stem :: asked s

def andThen (m : Build α) (asked : Asked) (next : α → Asked) : Asked := fun s =>
  match m s with
  | .ok a s' => asked s ++ next a s'
  | .error _ _ => asked s

def orElse (m : Build α) (asked : Asked) (next : RuleError → Asked) : Asked := fun s =>
  match m s with
  | .ok _ _ => asked s
  | .error e s' => asked s ++ next e s'

end Asked

/-- What can be built in a scope: rules of the scope, repetitions, and further memoized fragments,
to any depth. What is built may depend on what has been built before, and failures may be recovered
from. -/
inductive FragmentBuild : Scope → {α : Type} → Build α → Asked → Prop
  | look {scope : Scope} : FragmentBuild scope (get : Build Session) .none
  | note {scope : Scope} (event : Event) : FragmentBuild scope (note event) .none
  | define {scope : Scope} (production : String) :
    FragmentBuild scope (scope.define production) .none
  | defineNamed {scope : Scope} (name production : String) :
    FragmentBuild scope (scope.defineNamed name production) .none
  | oneOrMore {scope : Scope} (element : String) :
    FragmentBuild scope (scope.oneOrMore element) .none
  | memoized {scope : Scope} (stem : String) {build : Scope → Build String} {asked : Asked}
      (h : FragmentBuild ⟨stem⟩ (build ⟨stem⟩) asked) :
    FragmentBuild scope (memoized stem build) (.fragment stem asked)
  | pure {scope : Scope} {α : Type} (a : α) : FragmentBuild scope (pure a : Build α) .none
  | throw {scope : Scope} {α : Type} (e : RuleError) :
    FragmentBuild scope (throw e : Build α) .none
  | bind {scope : Scope} {α β : Type} {m : Build α} {f : α → Build β} {asked : Asked}
      {next : α → Asked} (hm : FragmentBuild scope m asked)
      (hf : ∀ a, FragmentBuild scope (f a) (next a)) :
    FragmentBuild scope (m >>= f) (.andThen m asked next)
  | recover {scope : Scope} {α : Type} {m : Build α} {handler : RuleError → Build α}
      {asked : Asked} {next : RuleError → Asked} (hm : FragmentBuild scope m asked)
      (hh : ∀ e, FragmentBuild scope (handler e) (next e)) :
    FragmentBuild scope (tryCatch m handler) (.orElse m asked next)

/-- Rules of some scopes have been added behind those that were there. -/
def RuleTable.GrowsIn (stems : List String) (t t' : RuleTable) : Prop :=
  ∃ added, t'.rules.toList = t.rules.toList ++ added ∧
    ∀ rule ∈ added, ∃ stem ∈ stems, ∃ name, rule.id = stem ++ "_" ++ name

namespace RuleTable.GrowsIn

variable {stems stems' : List String} {t t' t'' : RuleTable}

theorem of_rules (h : t'.rules = t.rules) : GrowsIn stems t t' :=
  ⟨[], by rw [h, List.append_nil], fun _ hr => absurd hr List.not_mem_nil⟩

theorem refl (t : RuleTable) : GrowsIn stems t t := of_rules rfl

theorem mono (h : GrowsIn stems t t') (hsub : stems ⊆ stems') : GrowsIn stems' t t' := by
  obtain ⟨added, hrules, hids⟩ := h
  refine ⟨added, hrules, fun rule hr => ?_⟩
  obtain ⟨stem, hstem, hname⟩ := hids rule hr
  exact ⟨stem, hsub hstem, hname⟩

theorem trans (h : GrowsIn stems t t') (h' : GrowsIn stems t' t'') : GrowsIn stems t t'' := by
  obtain ⟨added, hrules, hids⟩ := h
  obtain ⟨added', hrules', hids'⟩ := h'
  refine ⟨added ++ added', by rw [hrules', hrules, List.append_assoc], fun rule hr => ?_⟩
  exact (List.mem_append.1 hr).elim (hids rule) (hids' rule)

theorem after {stem : String} {asked asked' : List String}
    (h : GrowsIn (stem :: asked) t t') (h' : GrowsIn (stem :: asked') t' t'') :
    GrowsIn (stem :: (asked ++ asked')) t t'' := by
  have hleft : stem :: asked ⊆ stem :: (asked ++ asked') :=
    List.cons_subset_cons _ (List.subset_append_left _ _)
  have hright : stem :: asked' ⊆ stem :: (asked ++ asked') :=
    List.cons_subset_cons _ (List.subset_append_right _ _)
  exact (h.mono hleft).trans (h'.mono hright)

theorem push {stem : String} (hrules : t'.rules = t.rules) (hstem : stem ∈ stems)
    (name production : String) : GrowsIn stems t (t'.push (Scope.idOf ⟨stem⟩ name) production) := by
  refine ⟨[⟨Scope.idOf ⟨stem⟩ name, production⟩], by rw [toList_rules_push, hrules], ?_⟩
  intro rule hr
  rw [List.mem_singleton.1 hr]
  exact ⟨stem, hstem, name, rfl⟩

/-- An insertion adds the rule or nothing. -/
theorem insert {a : α} {stem : String} {s : Session} (hrules : s.table.rules = t.rules)
    (hstem : stem ∈ stems) (name production : String) :
    GrowsIn stems t (finalState ((do
      edit (·.insert (Scope.idOf ⟨stem⟩ name) production); return a : Build α) s)).table := by
  rcases edit_cases (·.insert (Scope.idOf ⟨stem⟩ name) production) s with
    ⟨t', ht, hedit⟩ | ⟨e, hedit⟩
  · obtain ⟨-, -, rfl⟩ := eq_of_insert ht
    rw [bind_of_ok hedit]
    exact push hrules hstem name production
  · rw [bind_of_error hedit]
    exact of_rules hrules

end RuleTable.GrowsIn

/-- A memoized fragment gains the rules of its build, and its own. -/
theorem memoized_growsIn {stem : String} {build : Scope → Build String} {asked : Asked}
    {s : Session}
    (h : s.table.GrowsIn (stem :: asked s) (finalState (build ⟨stem⟩ s)).table) :
    s.table.GrowsIn (Asked.fragment stem asked s) (finalState (memoized stem build s)).table := by
  rw [Asked.fragment, memoized, get_bind]
  by_cases hd : s.table.defined (Scope.idOf ⟨stem⟩ "decl") = true
  · rw [if_pos hd, if_pos hd]
    exact .refl _
  · rw [if_neg hd, if_neg hd]
    cases hbuild : build ⟨stem⟩ s with
    | ok production u =>
      rw [hbuild] at h
      rw [bind_of_ok hbuild]
      exact h.trans (.insert rfl List.mem_cons_self _ _)
    | error e u =>
      rw [hbuild] at h
      rw [bind_of_error hbuild]
      exact h

theorem FragmentBuild.program {scope : Scope} {m : Build α} {asked : Asked}
    (h : FragmentBuild scope m asked) : TableProgram m := by
  induction h with
  | look => exact .step .look
  | note event => exact .step (.note event)
  | @define scope production => exact .define scope production
  | @defineNamed scope name production => exact .defineNamed scope name production
  | @oneOrMore scope element => exact .oneOrMore scope element
  | memoized stem _ ih => exact .memoizedAt stem ih
  | pure a => exact .pure a
  | throw e => exact .throw e
  | bind _ _ ihm ihf => exact ihm.bind ihf
  | recover _ _ ihm ihh => exact ihm.recover ihh

/-- Whether a build goes through or not, it has added rules of its scope and of the memoized
fragments that it has asked for, and no others. -/
theorem FragmentBuild.growsIn {scope : Scope} {m : Build α} {asked : Asked}
    (h : FragmentBuild scope m asked) (s : Session) :
    s.table.GrowsIn (scope.stem :: asked s) (finalState (m s)).table := by
  induction h generalizing s with
  | look => exact .refl _
  | note event => exact .refl _
  | pure a => exact .refl _
  | throw e => exact .refl _
  | @define scope production =>
    rw [Scope.define_eq]
    exact .insert (s := { s with table := _ }) rfl List.mem_cons_self _ _
  | defineNamed name production => exact .insert rfl List.mem_cons_self name production
  | @oneOrMore scope element =>
    rw [Scope.oneOrMore_eq]
    exact .push rfl List.mem_cons_self _ _
  | memoized stem _ ih => exact (memoized_growsIn (ih s)).mono (List.subset_cons_self _ _)
  | @bind scope _ _ m f asked next _ _ ihm ihf =>
    have hfirst := ihm s
    rw [Asked.andThen]
    cases hrun : m s with
    | ok a u =>
      rw [hrun] at hfirst
      rw [bind_of_ok hrun]
      exact hfirst.after (ihf a u)
    | error e u =>
      rw [hrun] at hfirst
      rw [bind_of_error hrun]
      exact hfirst
  | @recover scope _ m handler asked next _ _ ihm ihh =>
    have hfirst := ihm s
    rw [Asked.orElse]
    cases hrun : m s with
    | ok a u =>
      rw [hrun] at hfirst
      rw [tryCatch_of_ok hrun]
      exact hfirst
    | error e u =>
      rw [hrun] at hfirst
      rw [tryCatch_of_error hrun]
      exact hfirst.after (ihh e u)

end Builds

section OnceAndForEver

variable {bench bench' : Workbench} {side : Side} {α : Type} {m : Build α}

theorem onSide_eq_ok {a : α} (h : onSide side m bench = .ok a bench') :
    ∃ s, m (bench.session side) = .ok a s ∧ bench' = bench.withSession s side := by
  unfold onSide at h
  cases hm : m (bench.session side) with
  | ok b s =>
    rw [hm] at h
    cases h
    exact ⟨s, rfl, rfl⟩
  | error e s =>
    rw [hm] at h
    cases h

theorem onSide_eq_error {e : RuleError} (h : onSide side m bench = .error e bench') :
    ∃ s, m (bench.session side) = .error e s ∧ bench' = bench.withSession s side := by
  unfold onSide at h
  cases hm : m (bench.session side) with
  | ok b s =>
    rw [hm] at h
    cases h
  | error e' s =>
    rw [hm] at h
    cases h
    exact ⟨s, rfl, rfl⟩

/-- A fragment that is there is found, whatever it would have been built from. -/
theorem memoizedOn_of_defined {stem : String} (build : Scope → Client String)
    (h : (bench.table side).defined (Scope.idOf ⟨stem⟩ "decl") = true) :
    memoizedOn side stem build bench = .ok ⟨Scope.idOf ⟨stem⟩ "decl"⟩ bench := by
  rw [memoizedOn, get_bind]
  exact congrFun (if_pos h) bench

/-- A memoized fragment is built at most once. Wherever a run stands: if the fragment goes through,
its rule is committed and found for ever, with no build run and no table changed; and if it is not
there and fails, as it does when its build fails, what has been added is its own. -/
theorem Workbench.memoized_once (hreach : Workbench.Later {} bench) (side : Side) (stem : String)
    {build : Scope → Build String} {asked : Asked}
    (hbuild : FragmentBuild ⟨stem⟩ (build ⟨stem⟩) asked) :
    (∀ r done, onSide side (memoized stem build) bench = .ok r done →
      r.id = stem ++ "_decl" ∧ (∃ rule ∈ (done.table side).rules.toList, rule.id = r.id) ∧
        ∀ later, done.Later later → ∀ build' : Scope → Client String,
          memoizedOn side stem build' later = .ok r later) ∧
      ((bench.table side).defined (stem ++ "_decl") = false →
        (∀ e s, build ⟨stem⟩ (bench.session side) = .error e s →
          onSide side (memoized stem build) bench = .error e (bench.withSession s side)) ∧
        ∀ e failed, onSide side (memoized stem build) bench = .error e failed →
          (bench.table side).GrowsIn (stem :: asked (bench.session side)) (failed.table side)) := by
  have hwf := hreach.wellFormed side
  have hdecl : Scope.idOf ⟨stem⟩ "decl" = stem ++ "_decl" := by
    rw [Scope.idOf, String.append_assoc]
    rfl
  refine ⟨fun r done h => ?_, fun habsent => ?_⟩
  · obtain ⟨s, hs, rfl⟩ := onSide_eq_ok h
    obtain ⟨rfl, hd⟩ := memoized_eq_ok hs
    have hgrows := (Program.memoizedAt stem hbuild.program).table_grows (bench.session side)
    rw [hs] at hgrows
    have hwf' : s.table.WellFormed := hgrows.wellFormed hwf
    refine ⟨hdecl, ?_, fun later hlater build' => memoizedOn_of_defined build' ?_⟩
    · rw [table_withSession]
      exact hwf'.defined_iff.1 hd
    · refine (hlater.grows side).defined ?_ ?_
      · rwa [table_withSession]
      · rwa [table_withSession]
  · have hmissing : ¬(bench.session side).table.defined (Scope.idOf ⟨stem⟩ "decl") = true := by
      rw [hdecl]
      exact Bool.eq_false_iff.1 habsent
    refine ⟨fun e s hs => ?_, fun e failed h => ?_⟩
    · rw [onSide, memoized, get_bind, if_neg hmissing, bind_of_error hs]
    · obtain ⟨s, hs, rfl⟩ := onSide_eq_error h
      have hgrowsIn := memoized_growsIn (hbuild.growsIn (bench.session side))
      rw [hs, Asked.fragment, if_neg hmissing] at hgrowsIn
      rwa [table_withSession]

/-- A repetition of digits. -/
def digitRun (scope : Scope) : Build String := do
  let digit ← scope.define (alternation ["\"0\"", "\"1\""])
  let digits ← scope.oneOrMore digit.text
  return digits.text

/-- A fragment that asks for digits, and then for a fragment of its own stem, which leaves it
nothing to commit. -/
def selfNamed (scope : Scope) : Build String := do
  let digits ← memoized "digits" digitRun
  let _ ← memoized scope.stem fun scope => do
    let sign ← scope.define "\"-\""
    return concatenation [sign.text, digits.text]
  return digits.text

theorem digitRun_build (scope : Scope) : ∃ asked, FragmentBuild scope (digitRun scope) asked :=
  ⟨_, .bind (.define _) fun _ => .bind (.oneOrMore _) fun _ => .pure _⟩

def digitsBench : Workbench := finalState (onSide .first (memoized "digits" digitRun) {})

theorem selfNamed_build : ∃ asked, FragmentBuild ⟨"signed"⟩ (selfNamed ⟨"signed"⟩) asked ∧
    asked (digitsBench.session .first) = ["digits", "signed"] :=
  ⟨_, .bind (.memoized "digits" (.bind (.define _) fun _ => .bind (.oneOrMore _) fun _ => .pure _))
    fun _ => .bind (.memoized "signed" (.bind (.define _) fun _ => .pure _)) fun _ => .pure _,
    by decide +kernel⟩

/-- The digits are built once, and found by a fragment that fails behind two rules of its stem. -/
theorem digits_memoized_once :
    let failed := finalState (onSide .first (memoized "signed" selfNamed) digitsBench)
    (onSide .first (memoized "digits" digitRun) {} = .ok ⟨"digits_decl"⟩ digitsBench ∧
      ∀ later, digitsBench.Later later → ∀ build, memoizedOn .first "digits" build later =
        .ok ⟨"digits_decl"⟩ later) ∧
    onSide .first (memoized "signed" selfNamed) digitsBench =
      .error (.redefined "signed_decl") failed ∧
    (failed.table .first).rules.toList.map Rule.id =
      ["digits_0", "digits_1", "digits_decl", "signed_0", "signed_decl"] ∧
    (digitsBench.table .first).GrowsIn ["signed", "digits", "signed"] (failed.table .first) := by
  intro failed
  obtain ⟨_, hdigits⟩ := digitRun_build ⟨"digits"⟩
  obtain ⟨asked, hsigned, hasked⟩ := selfNamed_build
  have hempty : Workbench.Later {} {} := ⟨_, _, .pure (), rfl⟩
  have hreach : Workbench.Later {} digitsBench :=
    ⟨_, _, .step (.table .first (.memoizedAt "digits" hdigits.program)), rfl⟩
  have hbuilt : onSide .first (memoized "digits" digitRun) {} =
    .ok ⟨"digits_decl"⟩ digitsBench := rfl
  have hfailed : onSide .first (memoized "signed" selfNamed) digitsBench =
    .error (.redefined "signed_decl") failed := rfl
  obtain ⟨honce, -⟩ := Workbench.memoized_once hempty .first "digits" hdigits
  obtain ⟨-, hadded⟩ := Workbench.memoized_once hreach .first "signed" hsigned
  refine ⟨⟨hbuilt, (honce _ _ hbuilt).2.2⟩, hfailed, by decide +kernel, ?_⟩
  rw [← hasked]
  exact (hadded (by decide +kernel)).2 _ _ hfailed

end OnceAndForEver

end RecordGrammar
