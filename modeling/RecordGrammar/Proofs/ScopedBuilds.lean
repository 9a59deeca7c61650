import RecordGrammar.Proofs.BlockDecisions

/-! # Builds that keep to the scopes of some stems

A build leaves alone what belongs to the stem of no scope that it works in: the ids of that stem and
its counter. The digit that masks share belongs to no stem, and there is one rule for it. -/

namespace RecordGrammar

/-- The operations of a build in the scopes of some stems. A rule that its own production refers to
is one operation, so that no reservation is left behind. -/
inductive ScopedStep (stems : String → Prop) : (α : Type) → Build α → Prop
  | look : ScopedStep stems Session get
  | note (event : Event) : ScopedStep stems Unit (note event)
  | define {stem : String} (h : stems stem) (production : String) :
    ScopedStep stems RuleHandle (Scope.define ⟨stem⟩ production)
  | decl {stem : String} (h : stems stem) (production : String) :
    ScopedStep stems RuleHandle (Scope.defineNamed ⟨stem⟩ "decl" production)
  | knot {stem : String} (h : stems stem) (production : Reservation → String)
      (hp : ∀ slot, production slot ≠ "") :
    ScopedStep stems RuleHandle
      (do let slot ← Scope.reserve ⟨stem⟩; commit slot (production slot))
  | digit : ScopedStep stems RuleHandle FormatFragment.digit

abbrev ScopedProgram (stems : String → Prop) {α : Type} (m : Build α) : Prop :=
  Program (ScopedStep stems) m

namespace RuleTable

open FormatFragment (digitHandle digitRule)

/-- A table in which nothing of a stem has changed. -/
structure Spares (stem : String) (t t' : RuleTable) : Prop where
  wellFormed : t'.WellFormed
  reserved (id : String) : t'.reserved.contains id = t.reserved.contains id
  rule?_eq (x : String) : '_' ∉ x.toList →
    t'.rule? (Scope.idOf ⟨stem⟩ x) = t.rule? (Scope.idOf ⟨stem⟩ x)
  counter : t'.counters.getD stem 0 = t.counters.getD stem 0
  digit : t'.rule? digitHandle.id = t.rule? digitHandle.id ∨
    t'.rule? digitHandle.id = some digitRule

variable {stem other : String} {t t' t'' : RuleTable}

theorem Spares.refl (h : t.WellFormed) (stem : String) : t.Spares stem t :=
  ⟨h, fun _ => rfl, fun _ _ => rfl, rfl, .inl rfl⟩

theorem Spares.trans (h : t.Spares stem t') (h' : t'.Spares stem t'') : t.Spares stem t'' where
  wellFormed := h'.wellFormed
  reserved id := (h'.reserved id).trans (h.reserved id)
  rule?_eq x hx := (h'.rule?_eq x hx).trans (h.rule?_eq x hx)
  counter := h'.counter.trans h.counter
  digit := by
    rcases h'.digit with he | he
    · rw [he]
      exact h.digit
    · exact .inr he

/-- A rule of another stem is committed, whatever has been done for its id before. -/
theorem Spares.push {x production : String} (hne : stem ≠ other) (hbst : other ≠ "__bst")
    (hx : '_' ∉ x.toList) (hwf : t'.WellFormed) (hrules : ∀ id, t'.rule? id = t.rule? id)
    (hreserved : ∀ id, t'.reserved.contains id = t.reserved.contains id)
    (hcounter : t'.counters.getD stem 0 = t.counters.getD stem 0)
    (hfree : t'.taken (Scope.idOf ⟨other⟩ x) = false) :
    t.Spares stem (t'.push (Scope.idOf ⟨other⟩ x) production) := by
  obtain ⟨hd, hr⟩ := taken_eq_false_iff.1 hfree
  refine ⟨hwf.push hd hr, fun id => (reserved_push id).trans (hreserved id), fun y hy => ?_,
    by rw [counters_push, hcounter], .inl ?_⟩
  · rw [hwf.rule?_push, if_neg, hrules]
    intro he
    exact hne (congrArg Scope.stem (Scope.idOf_inj hy hx he).1)
  · rw [hwf.rule?_push, if_neg (FormatFragment.digitHandle_ne_idOf hx hbst), hrules]

end RuleTable

section Steps

open RuleTable FormatFragment

variable {stem : String} {stems : String → Prop} {α : Type} {m : Build α} {s : Session}

private theorem insert_spares {t : RuleTable} {other x : String} (production : String)
    (hne : stem ≠ other) (hbst : other ≠ "__bst") (hx : '_' ∉ x.toList)
    (hwf : s.table.WellFormed) (hrules : ∀ id, s.table.rule? id = t.rule? id)
    (hreserved : ∀ id, s.table.reserved.contains id = t.reserved.contains id)
    (hcounter : s.table.counters.getD stem 0 = t.counters.getD stem 0) (a : α) :
    t.Spares stem (finalState ((do
      edit (·.insert (Scope.idOf ⟨other⟩ x) production); return a : Build α) s)).table := by
  rcases edit_cases (·.insert (Scope.idOf ⟨other⟩ x) production) s with
    ⟨t', ht, hedit⟩ | ⟨e, hedit⟩
  · obtain ⟨hfree, -, rfl⟩ := eq_of_insert ht
    rw [bind_of_ok hedit]
    exact .push hne hbst hx hwf hrules hreserved hcounter hfree
  · rw [bind_of_error hedit]
    exact ⟨hwf, hreserved, fun _ _ => hrules _, hcounter, .inl (hrules _)⟩

/-- Drawing the next automatic id of another stem. -/
private theorem counter_freshId {t : RuleTable} {other : String} (hne : stem ≠ other) :
    (t.freshId other).2.counters.getD stem 0 = t.counters.getD stem 0 := by
  rw [freshId, getD_counters_insert, if_neg hne]

private theorem digit_spares (hwf : s.table.WellFormed) (hbst : stem ≠ "__bst") :
    s.table.Spares stem (finalState (digit s)).table := by
  rw [digit, get_bind]
  by_cases hd : s.table.defined "__bst_d" = true
  · obtain ⟨r, hr, -⟩ := hwf.rule_eq_ok hd
    rw [if_pos hd, lookup, get_bind, hr]
    exact .refl hwf stem
  · have hproduction : alternation (decimalDigits.map terminal) = digitRule.production := by
      simp [digitRule]
    rw [if_neg hd, hproduction]
    change s.table.Spares stem (finalState ((do
      edit (·.insert digitHandle.id digitRule.production); return digitHandle : Build _) s)).table
    rcases edit_cases (·.insert digitHandle.id digitRule.production) s with
      ⟨t, ht, hedit⟩ | ⟨e, hedit⟩
    · obtain ⟨hfree, -, rfl⟩ := eq_of_insert ht
      obtain ⟨hdefined, hreserved⟩ := taken_eq_false_iff.1 hfree
      rw [bind_of_ok hedit]
      refine ⟨hwf.push hdefined hreserved, fun _ => rfl, fun x hx => ?_, rfl, .inr ?_⟩
      · exact (hwf.rule?_push _).trans (if_neg (Ne.symm (digitHandle_ne_idOf hx hbst)))
      · exact (hwf.rule?_push _).trans (if_pos rfl)
    · rw [bind_of_error hedit]
      exact .refl hwf stem

theorem ScopedStep.spares (h : ScopedStep stems α m) (hstem : ¬stems stem) (hbst : stem ≠ "__bst")
    (hstems : ¬stems "__bst") (hwf : s.table.WellFormed) :
    s.table.Spares stem (finalState (m s)).table := by
  have hne {other : String} (ho : stems other) : stem ≠ other := fun he => hstem (he ▸ ho)
  have hother {other : String} (ho : stems other) : other ≠ "__bst" := fun he => hstems (he ▸ ho)
  cases h with
  | look => exact .refl hwf stem
  | note event => exact .refl hwf stem
  | @define other ho production =>
    rw [Scope.define_eq]
    exact insert_spares (s := { s with table := (s.table.freshId other).2 }) (t := s.table)
      production (hne ho) (hother ho) (underscore_not_mem_toString _) (hwf.of_counters _)
      (fun _ => rfl) (fun _ => rfl) (counter_freshId (hne ho)) _
  | decl ho production =>
    exact insert_spares production (hne ho) (hother ho) underscore_not_mem_decl hwf (fun _ => rfl)
      (fun _ => rfl) rfl _
  | @knot other ho production hp =>
    have hfree := hwf.freshId_free other
    obtain ⟨hd, hr⟩ := taken_eq_false_iff.1 hfree
    have hclaimed : ((s.table.freshId other).2.claim (s.table.freshId other).1).reserved.contains
        (s.table.freshId other).1 = true := by
      simp [reserved_claim]
    have hreserved (id : String) :
        (((s.table.freshId other).2.claim (s.table.freshId other).1).release
          (s.table.freshId other).1).reserved.contains id = s.table.reserved.contains id := by
      have hsame : (s.table.freshId other).2.reserved = s.table.reserved := rfl
      rw [reserved_release, reserved_claim, hsame]
      by_cases he : id = (s.table.freshId other).1
      · simp [he, hr]
      · simp [he]
    rw [bind_of_ok (Scope.reserve_eq ⟨other⟩ s), commit_ok (commit_eq_ok hclaimed (hp _))]
    refine .push (hne ho) (hother ho) (underscore_not_mem_toString _)
      (((hwf.of_counters (s.table.freshId other).2.counters).claim hd).release _) (fun _ => rfl)
      hreserved
      (counter_freshId (hne ho)) (taken_eq_false_iff.2 ⟨hd, ?_⟩)
    rw [hreserved]
    exact hr
  | digit => exact digit_spares hwf hbst

/-- Whatever a build does in its scopes, and even if it fails, it leaves other stems alone. -/
theorem ScopedProgram.spares (h : ScopedProgram stems m) (hstem : ¬stems stem)
    (hbst : stem ≠ "__bst") (hstems : ¬stems "__bst") (s : Session) (hwf : s.table.WellFormed) :
    s.table.Spares stem (finalState (m s)).table :=
  h.run (R := fun s s' => s.table.WellFormed → s.table.Spares stem s'.table)
    (fun _ hwf => .refl hwf stem)
    (fun _ _ _ h h' hwf => (h hwf).trans (h' (h hwf).wellFormed))
    (fun _ _ h _ hwf => h.spares hstem hbst hstems hwf) s hwf

/-- An id that a build in the scopes of some stems may commit. -/
inductive ScopedId (stems : String → Prop) : String → Prop
  | auto {stem : String} (h : stems stem) (n : Nat) : ScopedId stems (autoId stem n)
  | decl {stem : String} (h : stems stem) : ScopedId stems (Scope.idOf ⟨stem⟩ "decl")
  | digit : ScopedId stems digitHandle.id

/-- A table that commits what another one does, and at most one rule more, under an id of some
scopes. -/
def RuleTable.Commits (stems : String → Prop) (t t' : RuleTable) : Prop :=
  ∃ u : RuleTable, u.rules = t.rules ∧ u.index = t.index ∧
    (t' = u ∨ ∃ id production, ScopedId stems id ∧ t' = u.push id production)

private theorem insert_commits {t : RuleTable} {id : String} (production : String)
    (hid : ScopedId stems id) (hrules : s.table.rules = t.rules) (hindex : s.table.index = t.index)
    (a : α) : t.Commits stems (finalState ((do
      edit (·.insert id production); return a : Build α) s)).table := by
  refine ⟨s.table, hrules, hindex, ?_⟩
  rcases edit_cases (·.insert id production) s with ⟨t', ht, hedit⟩ | ⟨e, hedit⟩
  · obtain ⟨-, -, rfl⟩ := eq_of_insert ht
    rw [bind_of_ok hedit]
    exact .inr ⟨id, production, hid, rfl⟩
  · rw [bind_of_error hedit]
    exact .inl rfl

theorem ScopedStep.commits (h : ScopedStep stems α m) (s : Session) :
    s.table.Commits stems (finalState (m s)).table := by
  cases h with
  | look => exact ⟨_, rfl, rfl, .inl rfl⟩
  | note event => exact ⟨_, rfl, rfl, .inl rfl⟩
  | @define stem hstem production =>
    rw [Scope.define_eq]
    exact insert_commits (s := { s with table := (s.table.freshId stem).2 }) production
      (.auto hstem _) rfl rfl _
  | decl hstem production => exact insert_commits production (.decl hstem) rfl rfl _
  | @knot stem hstem production hp =>
    have hclaimed : ((s.table.freshId stem).2.claim (s.table.freshId stem).1).reserved.contains
        (s.table.freshId stem).1 = true := by
      simp [reserved_claim]
    rw [bind_of_ok (Scope.reserve_eq ⟨stem⟩ s), commit_ok (commit_eq_ok hclaimed (hp _))]
    exact ⟨((s.table.freshId stem).2.claim (s.table.freshId stem).1).release
      (s.table.freshId stem).1, rfl, rfl, .inr ⟨_, _, .auto hstem _, rfl⟩⟩
  | digit =>
    rw [FormatFragment.digit, get_bind]
    split
    · rw [lookup, get_bind]
      cases s.table.rule "__bst_d" <;> exact ⟨_, rfl, rfl, .inl rfl⟩
    · exact insert_commits _ .digit rfl rfl _

/-- What is seen from the committed rules of a table, and is kept when a rule of the scopes is
committed, is kept by a build in these scopes, even if it fails. -/
theorem ScopedProgram.invariant {P : RuleTable → Prop}
    (hsame : ∀ t t' : RuleTable, t'.rules = t.rules → t'.index = t.index → P t → P t')
    (hpush : ∀ (t : RuleTable) (id production : String), ScopedId stems id → P t →
      P (t.push id production))
    (h : ScopedProgram stems m) (s : Session) (hs : P s.table) : P (finalState (m s)).table := by
  have hstep {β : Type} {m : Build β} (h : ScopedStep stems β m) (s : Session) (hs : P s.table) :
      P (finalState (m s)).table := by
    obtain ⟨t, hrules, hindex, ht | ⟨id, production, hid, ht⟩⟩ := h.commits s
    · rw [ht]
      exact hsame _ _ hrules hindex hs
    · rw [ht]
      exact hpush _ _ _ hid (hsame _ _ hrules hindex hs)
  let R (s s' : Session) : Prop := P s.table → P s'.table
  have htrans (s s' s'' : Session) (h : R s s') (h' : R s' s'') : R s s'' := fun hs => h' (h hs)
  exact h.run (fun _ hs => hs) htrans (fun _ _ h s => hstep h s) s hs

end Steps

namespace ScopedProgram

variable {stems : String → Prop} {stem : String} {α : Type}

theorem define (h : stems stem) (production : String) :
    ScopedProgram stems (Scope.define ⟨stem⟩ production) := .step (.define h production)

theorem knotThen (h : stems stem) {production : Reservation → String}
    (hp : ∀ slot, production slot ≠ "") {f : RuleHandle → Build α}
    (hf : ∀ rule, ScopedProgram stems (f rule)) : ScopedProgram stems (do
      let slot ← Scope.reserve ⟨stem⟩
      let rule ← commit slot (production slot)
      f rule) := by
  have hrule := Program.bind (.step (.knot h production hp)) hf
  rwa [bind_assoc] at hrule

theorem oneOrMore (h : stems stem) (element : String) :
    ScopedProgram stems (Scope.oneOrMore ⟨stem⟩ element) :=
  .step (.knot h (fun slot => optionalTail element slot.text) fun _ => optionalTail_ne_empty _ _)

theorem memoized (h : stems stem) {build : Scope → Build String}
    (hbuild : ScopedProgram stems (build ⟨stem⟩)) :
    ScopedProgram stems (RecordGrammar.memoized stem build) := by
  refine .bind (.step .look) fun s => ?_
  split
  · exact .pure _
  · exact hbuild.bind fun production => .step (.decl h production)

/-- A build under the memo key of a text goes on under that stem alone. -/
theorem keyed {tag text : String} {rest : String → Build α}
    (h : ScopedProgram stems (rest (tag ++ memoKey text))) :
    ScopedProgram stems (keyedStem tag text >>= rest) := by
  rw [History.keyedStem_bind]
  exact .bind (.step (.note _)) fun _ => h

theorem memoizedFor {tag text : String} (h : stems (tag ++ memoKey text))
    {build : Scope → Build String} (hbuild : ScopedProgram stems (build ⟨tag ++ memoKey text⟩)) :
    ScopedProgram stems (do
      let stem ← keyedStem tag text
      RecordGrammar.memoized stem build) :=
  keyed (memoized h hbuild)

theorem segmentText (segment : List Char) :
    ScopedProgram stems (FormatFragment.segmentText segment) := by
  unfold FormatFragment.segmentText RecordGrammar.emitTerminal
  split
  · exact .pure _
  · split
    · exact .map (.step (.note _)) _
    · exact .pure _

end ScopedProgram

/-! ### The blocks -/

section Blocks

open ScopedProgram

variable {stems : String → Prop}

namespace JsonFragment

theorem null_scoped (h : stems "__bjn") : ScopedProgram stems null := .memoized h (.pure _)

theorem boolean_scoped (h : stems "__bjb") : ScopedProgram stems boolean := .memoized h (.pure _)

theorem number_scoped (h : stems "__bjnu") : ScopedProgram stems number :=
  .memoized h <| .bind (define h _) fun _ => .bind (define h _) fun _ => .bind (define h _) fun _ =>
    .bind (define h _) fun _ => .bind (oneOrMore h _) fun _ => .bind (define h _) fun _ =>
    .bind (define h _) fun _ => .bind (define h _) fun _ => .map (define h _) _

theorem string_scoped (h : stems "__bjs") : ScopedProgram stems string :=
  .memoized h <| .bind (define h _) fun _ => .bind (define h _) fun _ => .bind (define h _) fun _ =>
    .bind (define h _) fun _ => .bind (define h _) fun _ => .bind (define h _) fun _ =>
    .bind (define h _) fun _ => .map (oneOrMore h _) _

end JsonFragment

namespace FormatFragment

theorem maskedTime_scoped {mask : String} (h : stems ("__bst_" ++ memoKey mask)) :
    ScopedProgram stems (maskedTime mask) :=
  .memoizedFor h <| .bind (.step .digit) fun _ => .map (.mapM ScopedProgram.segmentText _) _

theorem mailAddress_scoped (h : stems "__bse") : ScopedProgram stems mailAddress :=
  .memoized h <| .bind (define h _) fun _ => .bind (define h _) fun _ => .bind (define h _) fun _ =>
    knotThen h (fun _ => alternation_ne_empty (by simp)) fun _ =>
    .bind (define h _) fun _ => .bind (oneOrMore h _) fun _ => .bind (define h _) fun _ =>
    .bind (define h _) fun _ => .bind (define h _) fun _ =>
    knotThen h (fun _ => alternation_ne_empty (by simp)) fun _ => .map (define h _) _

end FormatFragment

namespace MarkdownFragment

variable (hinner : ∀ stem, History.Inner stem → stems stem)

include hinner

theorem line_scoped : ScopedProgram stems line :=
  have h := hinner "__bml" (.inl rfl)
  .memoized h <| .bind (define h _) fun _ => .map (oneOrMore h _) _

theorem leadLine_scoped (lead : String) : ScopedProgram stems (leadLine lead) :=
  have h := hinner (leadStem lead) (.inr (.inl ⟨lead, rfl⟩))
  .memoizedFor h <| .bind (define h _) fun _ => .map (line_scoped hinner) _

theorem grouped_scoped (production : String) : ScopedProgram stems (grouped production) :=
  have h := hinner (groupStem production) (.inr (.inr ⟨production, rfl⟩))
  .memoizedFor h (.pure _)

theorem markedLead_scoped (marker : String) (lead : Option String) :
    ScopedProgram stems (markedLead marker lead) := by
  cases lead with
  | none => exact .pure _
  | some lead => exact .map (grouped_scoped hinner lead) _

theorem markedLine_scoped (marker : String) (lead : Option String) :
    ScopedProgram stems (markedLead marker lead >>= leadLine) :=
  .bind (markedLead_scoped hinner marker lead) fun _ => leadLine_scoped hinner _

theorem lineWithLead_scoped (lead : Option String) : ScopedProgram stems (lineWithLead lead) := by
  cases lead with
  | none => exact line_scoped hinner
  | some lead => exact leadLine_scoped hinner lead

theorem bulletList_scoped {bullet : Bullet} {count : Nat}
    (h : stems ("__bmul_" ++ bullet.tag ++ "_" ++ toString count)) :
    ScopedProgram stems (bulletList bullet count) := by
  refine .memoized h <| .bind (markedLine_scoped hinner _ none) fun item => ?_
  split
  · exact .map (oneOrMore h _) _
  · exact .pure _

theorem numberedList_scoped {count : Nat} (h : stems ("__bmnl_" ++ toString count)) :
    ScopedProgram stems (numberedList count) := by
  refine .memoized h ?_
  split
  · exact .bind (define h _) fun _ => .bind (oneOrMore h _) fun _ =>
      .bind (leadLine_scoped hinner _) fun _ => .map (oneOrMore h _) _
  · exact .map (.mapM (fun k => leadLine_scoped hinner _) _) _

theorem listEntry_scoped {stem : String} (h : stems stem) (entry : ListEntry) (marker : String) :
    ScopedProgram stems (listEntry ⟨stem⟩ entry marker) := by
  refine .bind (markedLead_scoped hinner marker entry.lead) fun lead => ?_
  cases entry.body with
  | some body => exact .bind (grouped_scoped hinner body) fun _ => define h _
  | none => exact leadLine_scoped hinner lead

theorem entryList_scoped {entries : List ListEntry} {style : ListStyle}
    (h : stems ("__bmil_" ++ memoKey (listText entries style))) :
    ScopedProgram stems (entryList entries style) :=
  .memoizedFor h <| .map (.mapM (fun _ => listEntry_scoped hinner h _ _) _) _

theorem paragraph_scoped (h : stems "__bmp") : ScopedProgram stems paragraph :=
  .memoized h <| .bind (line_scoped hinner) fun _ => .map (oneOrMore h _) _

end MarkdownFragment

namespace BlockCall

/-- The calls for markdown, whose blocks are built from each other. -/
def IsMarkdown : BlockCall → Bool
  | line | lineWithLead _ | heading _ _ | listItem _ _ | bulletList _ _ | numberedList _
  | entryList _ _ | paragraph => true
  | _ => false

/-- A call works under its own stem, and a call for markdown under those of other blocks too. -/
theorem build_scopedIn {stems : String → Prop} {call : BlockCall} (hown : stems call.stem)
    (hinner : call.IsMarkdown = true → ∀ stem, History.Inner stem → stems stem) :
    ScopedProgram stems call.build := by
  cases call with
  | null => exact JsonFragment.null_scoped hown
  | number => exact JsonFragment.number_scoped hown
  | string => exact JsonFragment.string_scoped hown
  | boolean => exact JsonFragment.boolean_scoped hown
  | array inner => exact .memoizedFor hown (.map (oneOrMore hown _) _)
  | tuple members => exact .memoizedFor hown (.pure _)
  | enumeration members => exact .memoizedFor hown (.pure _)
  | object fields => exact .memoizedFor hown (.pure _)
  | inQuotes inner => exact .memoizedFor hown (.pure _)
  | line => exact MarkdownFragment.line_scoped (hinner rfl)
  | lineWithLead lead => exact MarkdownFragment.lineWithLead_scoped (hinner rfl) lead
  | heading level lead => exact MarkdownFragment.markedLine_scoped (hinner rfl) _ lead
  | listItem bullet lead => exact MarkdownFragment.markedLine_scoped (hinner rfl) _ lead
  | bulletList bullet count => exact MarkdownFragment.bulletList_scoped (hinner rfl) hown
  | numberedList count => exact MarkdownFragment.numberedList_scoped (hinner rfl) hown
  | entryList entries style => exact MarkdownFragment.entryList_scoped (hinner rfl) hown
  | paragraph => exact MarkdownFragment.paragraph_scoped (hinner rfl) hown
  | maskedTime mask => exact FormatFragment.maskedTime_scoped hown
  | mailAddress => exact FormatFragment.mailAddress_scoped hown

/-- The stems that a call works under: its own, and those of the blocks that others are built
from. -/
def Scopes (call : BlockCall) (stem : String) : Prop := stem = call.stem ∨ History.Inner stem

theorem build_scoped (call : BlockCall) : ScopedProgram call.Scopes call.build :=
  build_scopedIn (.inl rfl) fun _ _ => .inr

end BlockCall

end Blocks

end RecordGrammar
