import RecordGrammar.Proofs.BlockCalls

/-! # What block calls come to

A rule is memoized under a stem that it shares with every call of the same text. What such a call
would have been refused for is therefore kept with the table: which calls its rules can have come
from. -/

namespace RecordGrammar

/-- Calls made on a table, and a log that holds what they have turned into memo keys. -/
structure History where
  calls : List BlockCall
  log : List Event

/-- The tags of the blocks whose rules tell something of the calls that they came from. -/
def tellingTags : List String := ["__bje_", "__bst_", "__bmlp_", "__bmg_", "__bmil_", "__bjo_"]

/-- What is known of a rule by the tag and the text that it is memoized for. -/
structure History.Backs (h : History) (tag text production : String) : Prop where
  nonempty : tag ∈ ["__bje_", "__bst_", "__bmlp_", "__bmg_"] → text ≠ ""
  list : tag = "__bmil_" → ∃ entries style, BlockCall.entryList entries style ∈ h.calls ∧
    (BlockCall.entryList entries style).Acceptable ∧ MarkdownFragment.listText entries style = text
  object : tag = "__bjo_" → ∃ fields, BlockCall.object fields ∈ h.calls ∧
    JsonFragment.objectText fields = text ∧ production = JsonFragment.objectProduction fields

/-- What is known of the rule of a stem, whatever text with a memo key the stem may be for. -/
def History.Explains (h : History) (stem production : String) : Prop :=
  ∀ tag text, .keyed text ∈ h.log → stem = tag ++ memoKey text → h.Backs tag text production

/-- The memo key takes up the end of a stem, always as much of it. -/
theorem tag_memoKey_inj {tag tag' text text' : String}
    (h : tag ++ memoKey text = tag' ++ memoKey text') :
    tag = tag' ∧ memoKey text = memoKey text' := by
  have hlist := congrArg String.toList h
  rw [String.toList_append, String.toList_append] at hlist
  obtain ⟨htag, hkey⟩ := List.append_inj' hlist (by rw [memoKey_length, memoKey_length])
  exact ⟨String.toList_inj.1 htag, String.toList_inj.1 hkey⟩

/-- A stem that begins with none of some tags. -/
def Apart (tags : List String) (stem : String) : Prop := ∀ tag ∈ tags, ¬tag.toList <+: stem.toList

instance (tags : List String) (stem : String) : Decidable (Apart tags stem) :=
  List.decidableBAll _ _

theorem apart_append {tags : List String} {lead : String} (h : Apart tags lead)
    (h' : ∀ tag ∈ tags, ¬lead.toList <+: tag.toList) (rest : String) :
    Apart tags (lead ++ rest) := by
  intro tag htag hp
  rw [String.toList_append] at hp
  exact (List.prefix_or_prefix_of_prefix hp (List.prefix_append _ _)).elim (h tag htag)
    (h' tag htag)

namespace History

variable {h : History} {stem tag text production : String}

theorem backs_of_other (htag : tag ∉ tellingTags) : h.Backs tag text production := by
  simp only [tellingTags, List.mem_cons, List.not_mem_nil, or_false, not_or] at htag
  obtain ⟨h1, h2, h3, h4, h5, h6⟩ := htag
  exact ⟨by simp [h1, h2, h3, h4], fun he => absurd he h5, fun he => absurd he h6⟩

/-- The other stems are told from those by how they begin. -/
theorem explains_of_apart (hstem : Apart tellingTags stem) : h.Explains stem production := by
  intro tag text _ he
  apply backs_of_other
  intro htag
  apply hstem tag htag
  rw [he, String.toList_append]
  exact List.prefix_append _ _

theorem explains_keyed (hlog : Collisionless h.log) (hkeyed : .keyed text ∈ h.log)
    (hbacks : h.Backs tag text production) : h.Explains (tag ++ memoKey text) production := by
  intro tag' text' hkeyed' he
  obtain ⟨rfl, hkey⟩ := tag_memoKey_inj he
  obtain rfl := hlog text (List.mem_filterMap.2 ⟨_, hkeyed, rfl⟩) text'
    (List.mem_filterMap.2 ⟨_, hkeyed', rfl⟩) hkey
  exact hbacks

/-- A table that block calls have left. No id is reserved, and every memoized rule is explained. -/
structure Stocked (h : History) (t : RuleTable) : Prop where
  wellFormed : t.WellFormed
  unreserved (id : String) : t.reserved.contains id = false
  explained (stem : String) (r : Rule) :
    t.rule? (declHandle stem).id = some r → h.Explains stem r.production

theorem stocked_empty (h : History) : h.Stocked {} where
  wellFormed := RuleTable.wellFormed_empty
  unreserved id := by simp
  explained stem r hr := by simp [RuleTable.rule?_eq] at hr

/-- The table that a build leaves. It has memoized nothing but what it may ask for. -/
structure Extends (h : History) (asks : String → Prop) (t t' : RuleTable) : Prop where
  stocked : h.Stocked t'
  asked (stem : String) : t'.defined (declHandle stem).id = true →
    t.defined (declHandle stem).id = true ∨ asks stem

variable {asks asks' : String → Prop} {t t' t'' : RuleTable}

theorem Extends.refl (ht : h.Stocked t) : h.Extends asks t t := ⟨ht, fun _ => .inl⟩

theorem Extends.trans (ht : h.Extends asks t t') (ht' : h.Extends asks t' t'') :
    h.Extends asks t t'' :=
  ⟨ht'.stocked, fun stem hd => (ht'.asked stem hd).elim (ht.asked stem) .inr⟩

theorem Extends.mono (ht : h.Extends asks t t') (hasks : ∀ stem, asks stem → asks' stem) :
    h.Extends asks' t t' :=
  ⟨ht.stocked, fun stem hd => (ht.asked stem hd).imp_right (hasks stem)⟩

/-- A rule that is not memoized may be added to a table, whatever has been done to its counters. -/
theorem Stocked.push (ht : h.Stocked t) {id : String} (hwf : t'.WellFormed)
    (hrules : ∀ x, t'.rule? x = t.rule? x) (hreserved : ∀ x, t'.reserved.contains x = false)
    (hfree : t'.defined id = false) (hid : ∀ stem, (declHandle stem).id ≠ id) :
    h.Extends asks t (t'.push id production) where
  stocked := {
    wellFormed := hwf.push hfree (hreserved id)
    unreserved := hreserved
    explained := fun stem r hr => by
      rw [hwf.rule?_push, if_neg (hid stem), hrules] at hr
      exact ht.explained stem r hr }
  asked stem hd := by
    rw [RuleTable.defined_push, Bool.or_eq_true, decide_eq_true_iff] at hd
    refine .inl (hd.elim (fun he => absurd he (hid stem)) fun hd => ?_)
    rwa [ht.wellFormed.defined_eq_isSome, ← hrules, ← hwf.defined_eq_isSome]

/-- The rule of a stem is memoized. -/
theorem Stocked.push_decl (ht : h.Stocked t) (hfree : t.defined (declHandle stem).id = false)
    (hexplains : h.Explains stem production) :
    h.Extends (· = stem) t (t.push (declHandle stem).id production) where
  stocked := {
    wellFormed := ht.wellFormed.push hfree (ht.unreserved _)
    unreserved := ht.unreserved
    explained := fun other r hr => by
      rw [ht.wellFormed.rule?_push] at hr
      split at hr
      next he =>
        cases hr
        rw [declHandle_inj he]
        exact hexplains
      · exact ht.explained other r hr }
  asked other hd := by
    rw [RuleTable.defined_push, Bool.or_eq_true, decide_eq_true_iff] at hd
    exact hd.symm.imp_right declHandle_inj

/-! ### Builds whose outcome is known beforehand -/

section Outcomes

variable {α β : Type} {ok ok' : Prop} {result result' : α → Prop} {m : Build α} {s : Session}

/-- A build goes through exactly if it is `ok`, and what it returns is as it should be. -/
def Ends (h : History) (asks : String → Prop) (ok : Prop) (result : α → Prop) (m : Build α)
    (s : Session) : Prop :=
  (ok ∧ ∃ a s', m s = .ok a s' ∧ result a ∧ h.Extends asks s.table s'.table) ∨
    (¬ok ∧ ∃ e s', m s = .error e s' ∧ h.Extends asks s.table s'.table)

/-- A build whose outcome does not depend on the table that block calls have left. -/
structure Decides (h : History) (asks : String → Prop) (ok : Prop) (result : α → Prop)
    (m : Build α) : Prop where
  program : TableProgram m
  ends (s : Session) : h.Stocked s.table → (finalState (m s)).log ⊆ h.log →
    h.Ends asks ok result m s

theorem Ends.mono (he : h.Ends asks ok result m s) (hasks : ∀ stem, asks stem → asks' stem)
    (hok : ok ↔ ok') (hresult : ∀ a, result a → result' a) : h.Ends asks' ok' result' m s := by
  rcases he with ⟨hyes, a, s', hrun, ha, hs'⟩ | ⟨hno, e, s', hrun, hs'⟩
  · exact .inl ⟨hok.1 hyes, a, s', hrun, hresult a ha, hs'.mono hasks⟩
  · exact .inr ⟨fun hyes => hno (hok.2 hyes), e, s', hrun, hs'.mono hasks⟩

/-- What has been logged before a run does not count. -/
theorem Ends.of_eq {m' : Build α} {events : List Event} (heq : m s = m' (s.noting events))
    (he : h.Ends asks ok result m' (s.noting events)) : h.Ends asks ok result m s := by
  rw [Ends, heq]
  exact he

namespace Decides

theorem mono (hm : h.Decides asks ok result m) (hasks : ∀ stem, asks stem → asks' stem)
    (hok : ok ↔ ok') (hresult : ∀ a, result a → result' a) : h.Decides asks' ok' result' m :=
  ⟨hm.program, fun s hs hlog => (hm.ends s hs hlog).mono hasks hok hresult⟩

theorem pure {a : α} (ha : result a) : h.Decides asks True result (Pure.pure a) :=
  ⟨.pure a, fun s hs _ => .inl ⟨trivial, a, s, rfl, ha, .refl hs⟩⟩

theorem pureText {p : String} (hp : p ≠ "") : h.Decides asks True (· ≠ "") (Pure.pure p) := pure hp

theorem of_iff (hm : h.Decides asks ok result m) (hok : ok ↔ ok') : h.Decides asks ok' result m :=
  hm.mono (fun _ => id) hok fun _ => id

theorem within (hm : h.Decides asks ok result m) (hasks : ∀ stem, asks stem → asks' stem) :
    h.Decides asks' ok result m :=
  hm.mono hasks Iff.rfl fun _ => id

/-- What a build returns may not matter. -/
theorem forget (hm : h.Decides asks ok result m) : h.Decides asks ok (fun _ => True) m :=
  hm.mono (fun _ => id) Iff.rfl fun _ _ => trivial

/-- What a build may ask for does not matter when it is done. -/
theorem done (hm : h.Decides asks ok result m) : h.Decides (fun _ => True) ok result m :=
  hm.within fun _ _ => trivial

/-- A build may make use of what is known of the result of another one. -/
theorem bindOf {f : α → Build β} {result' : β → Prop} (hm : h.Decides asks ok result m)
    (hprogram : ∀ a, TableProgram (f a)) (hf : ∀ a, result a → h.Decides asks ok' result' (f a)) :
    h.Decides asks (ok ∧ ok') result' (m >>= f) where
  program := hm.program.bind hprogram
  ends s hs hlog := by
    cases hrun : m s with
    | ok a u =>
      rw [bind_of_ok hrun] at hlog
      have hmlog : (finalState (m s)).log ⊆ h.log := by
        rw [hrun]
        exact List.Subset.trans ((hprogram a).log_extends u).subset hlog
      rcases hm.ends s hs hmlog with ⟨hyes, a', u', hrun', ha, hu⟩ | ⟨hno, e, u', hrun', hu⟩
      · obtain ⟨rfl, rfl⟩ := EStateM.Result.ok.inj (hrun.symm.trans hrun')
        rcases (hf a ha).ends u hu.stocked hlog with ⟨hyes', b, s', hb, hresult, hs'⟩ |
          ⟨hno, e, s', he, hs'⟩
        · exact .inl ⟨⟨hyes, hyes'⟩, b, s', by rw [bind_of_ok hrun, hb], hresult, hu.trans hs'⟩
        · exact .inr ⟨fun hyes => hno hyes.2, e, s', by rw [bind_of_ok hrun, he], hu.trans hs'⟩
      · rw [hrun] at hrun'
        cases hrun'
    | error e u =>
      rw [bind_of_error hrun] at hlog
      rcases hm.ends s hs (by rwa [hrun]) with ⟨hyes, a, u', hrun', ha, hu⟩ |
        ⟨hno, e', u', hrun', hu⟩
      · rw [hrun] at hrun'
        cases hrun'
      · exact .inr ⟨fun hyes => hno hyes.1, e', u', bind_of_error hrun', hu⟩

theorem bind {f : α → Build β} {result' : β → Prop} (hm : h.Decides asks ok (fun _ => True) m)
    (hf : ∀ a, h.Decides asks ok' result' (f a)) : h.Decides asks (ok ∧ ok') result' (m >>= f) :=
  hm.bindOf (fun a => (hf a).program) fun a _ => hf a

/-- What goes through in any case does not count. -/
theorem andThen {f : α → Build β} {result' : β → Prop} (hm : h.Decides asks True (fun _ => True) m)
    (hf : ∀ a, h.Decides asks ok' result' (f a)) : h.Decides asks ok' result' (m >>= f) :=
  (hm.bind hf).of_iff (by rw [true_and])

/-- What follows may go through in any case. -/
theorem followed {f : α → Build β} {result' : β → Prop} (hm : h.Decides asks ok result m)
    (hprogram : ∀ a, TableProgram (f a))
    (hf : ∀ a, result a → h.Decides asks True result' (f a)) :
    h.Decides asks ok result' (m >>= f) :=
  (hm.bindOf hprogram hf).of_iff (by rw [and_true])

theorem mapM {ok : α → Prop} {f : α → Build β} {as : List α}
    (hf : ∀ a ∈ as, h.Decides asks (ok a) (fun _ => True) (f a)) :
    h.Decides asks (∀ a ∈ as, ok a) (fun bs => bs.length = as.length) (as.mapM f) := by
  induction as with
  | nil =>
    have hnil : h.Decides asks True (fun bs : List β => bs.length = ([] : List α).length)
        (Pure.pure []) := pure rfl
    rw [List.mapM_nil]
    exact hnil.of_iff (by simp)
  | cons a as ih =>
    obtain ⟨ha, has⟩ := List.forall_mem_cons.1 hf
    have hrest (b : β) : h.Decides asks (∀ a ∈ as, ok a) (fun bs => bs.length = (a :: as).length)
        (as.mapM f >>= fun bs => Pure.pure (b :: bs)) :=
      (ih has).followed (fun _ => .pure _) fun bs hbs => pure (by rw [List.length_cons, hbs]; rfl)
    rw [List.mapM_cons]
    exact (ha.bind hrest).of_iff List.forall_mem_cons.symm

end Decides

/-! ### The operations of a scope -/

theorem declHandle_ne_autoId (stem other : String) (n : Nat) :
    (declHandle stem).id ≠ RuleTable.autoId other n := by
  intro he
  obtain ⟨-, hname⟩ := Scope.idOf_inj underscore_not_mem_decl (underscore_not_mem_toString n) he
  exact toString_nat_ne_decl n hname.symm

namespace Decides

/-- A rule under an automatic id. -/
theorem define (scope : Scope) (production : String) :
    h.Decides asks (production ≠ "") (fun _ => True) (scope.define production) := by
  refine ⟨.define scope production, fun s hs _ => ?_⟩
  have hfree := hs.wellFormed.freshId_free scope.stem
  have hwf := hs.wellFormed.of_counters (s.table.freshId scope.stem).2.counters
  rw [Ends, Scope.define_eq]
  by_cases hp : production = ""
  · rw [hp]
    refine .inr ⟨by simp, _, _, bind_of_error (edit_error (RuleTable.insert_eq_error hfree)), ?_⟩
    exact ⟨⟨hwf, hs.unreserved, hs.explained⟩, fun _ => .inl⟩
  · refine .inl ⟨hp, _, _, bind_of_ok (edit_ok (RuleTable.insert_eq_ok hfree hp)), trivial, ?_⟩
    exact hs.push hwf (fun _ => rfl) hs.unreserved (RuleTable.taken_eq_false_iff.1 hfree).1
      fun stem => declHandle_ne_autoId stem _ _

/-- A rule under an automatic id that its own production refers to. -/
theorem reserveCommit (scope : Scope) {production : Reservation → String}
    (hp : ∀ slot, production slot ≠ "") : h.Decides asks True (fun _ => True)
      (do let slot ← scope.reserve; commit slot (production slot)) := by
  refine ⟨.bind (.step (.reserve scope)) fun _ => .step (.commit _ _), fun s hs _ => ?_⟩
  have hfree := hs.wellFormed.freshId_free scope.stem
  have hd := (RuleTable.taken_eq_false_iff.1 hfree).1
  have hwf := hs.wellFormed.of_counters (s.table.freshId scope.stem).2.counters
  rw [Ends, bind_of_ok (scope.reserve_eq s)]
  refine .inl ⟨trivial, _, _, commit_ok (RuleTable.commit_eq_ok ?_ (hp _)), trivial, ?_⟩
  · simp [RuleTable.reserved_claim]
  · refine hs.push ((hwf.claim hd).release _) (fun _ => rfl) (fun x => ?_) hd
      fun stem => declHandle_ne_autoId stem _ _
    rw [RuleTable.reserved_release, RuleTable.reserved_claim]
    have hx : (s.table.freshId scope.stem).2.reserved.contains x = false := hs.unreserved x
    by_cases he : x = (s.table.freshId scope.stem).1 <;> simp [he, hx]

theorem oneOrMore (scope : Scope) (element : String) :
    h.Decides asks True (fun _ => True) (scope.oneOrMore element) :=
  reserveCommit scope fun _ => optionalTail_ne_empty _ _

theorem reserveThen (scope : Scope) {production : Reservation → String} {f : RuleHandle → Build α}
    (hp : ∀ slot, production slot ≠ "") (hf : ∀ rule, h.Decides asks ok result (f rule)) :
    h.Decides asks ok result (do
      let slot ← scope.reserve
      let rule ← commit slot (production slot)
      f rule) := by
  have hrule := (reserveCommit scope hp).andThen hf
  rwa [bind_assoc] at hrule

/-- A rule under an automatic id whose production is not empty. -/
theorem defines (scope : Scope) {production : String} (hp : production ≠ "") :
    h.Decides asks True (fun _ => True) (scope.define production) :=
  (define scope production).of_iff (iff_true_intro hp)

/-- A build that does nothing but log. -/
theorem logging {a : α} {events : List Event} (hprogram : TableProgram m)
    (hm : ∀ s, m s = .ok a (s.noting events)) : h.Decides asks True (· = a) m :=
  ⟨hprogram, fun s hs _ => .inl ⟨trivial, a, _, hm s, rfl, .refl hs⟩⟩

end Decides

/-! ### Memoized builds -/

section Memoized

variable {build : Scope → Build String} {fits : Prop} {made : String → Prop}

theorem memoized_of_defined (hd : s.table.defined (declHandle stem).id = true) :
    memoized stem build s = .ok (declHandle stem) s := by
  rw [memoized, get_bind]
  exact congrFun (if_pos hd) s

theorem memoized_of_absent (habsent : s.table.defined (declHandle stem).id = false) :
    memoized stem build s = (build ⟨stem⟩ >>= Scope.defineNamed ⟨stem⟩ "decl") s := by
  rw [memoized, get_bind]
  exact congrFun (if_neg (Bool.eq_false_iff.1 habsent)) s

/-- A memoized build that the table does not hold yet. -/
theorem memoized_ends (hbuild : h.Decides asks ok made (build ⟨stem⟩)) (hasks : ¬asks stem)
    (hfits : ∀ p, made p → (p ≠ "" ↔ fits))
    (hnew : ∀ p, ok → made p → p ≠ "" → h.Explains stem p) (hs : h.Stocked s.table)
    (hlog : (finalState (memoized stem build s)).log ⊆ h.log)
    (habsent : s.table.defined (declHandle stem).id = false) :
    h.Ends (fun other => asks other ∨ other = stem) (ok ∧ fits) (· = declHandle stem)
      (memoized stem build) s := by
  have hmemo : memoized stem build s = _ := memoized_of_absent habsent
  have hbuildlog : (finalState (build ⟨stem⟩ s)).log ⊆ h.log := by
    rw [hmemo] at hlog
    refine List.Subset.trans ?_ hlog
    cases hrun : build ⟨stem⟩ s with
    | ok p u =>
      rw [bind_of_ok hrun]
      exact ((Program.defineNamed ⟨stem⟩ "decl" p).log_extends u).subset
    | error e u =>
      rw [bind_of_error hrun]
      exact List.Subset.refl _
  rw [Ends, hmemo]
  rcases hbuild.ends s hs hbuildlog with ⟨hyes, p, u, hrun, hp, hu⟩ | ⟨hno, e, u, hrun, hu⟩
  · have hfree : u.table.defined (declHandle stem).id = false := by
      rw [← Bool.not_eq_true]
      intro hd
      rcases hu.asked stem hd with hd | ha
      · rw [habsent] at hd
        cases hd
      · exact hasks ha
    have htaken := RuleTable.taken_eq_false_iff.2 ⟨hfree, hu.stocked.unreserved _⟩
    have hkept : h.Extends (fun other => asks other ∨ other = stem) s.table u.table :=
      hu.mono fun _ => .inl
    rw [bind_of_ok hrun]
    by_cases hempty : p = ""
    · have hrefused : ¬fits := fun hf => (hfits p hp).2 hf hempty
      rw [hempty]
      exact .inr ⟨fun hok => hrefused hok.2, _, u, Scope.defineNamed_empty htaken, hkept⟩
    · have hdecl := hu.stocked.push_decl hfree (hnew p hyes hp hempty)
      exact .inl ⟨⟨hyes, (hfits p hp).1 hempty⟩, _, _, Scope.defineNamed_ok htaken hempty, rfl,
        hkept.trans (hdecl.mono fun _ => .inr)⟩
  · exact .inr ⟨fun hok => hno hok.1, e, u, bind_of_error hrun, hu.mono fun _ => .inl⟩

namespace Decides

/-- A memoized build whose outcome is known from any rule that can be there in its place. -/
theorem memoized (hbuild : h.Decides asks ok made (build ⟨stem⟩)) (hasks : ¬asks stem)
    (hfits : ∀ p, made p → (p ≠ "" ↔ fits))
    (hnew : ∀ p, ok → made p → p ≠ "" → h.Explains stem p)
    (hhit : ∀ p, h.Explains stem p → ok ∧ fits) :
    h.Decides (fun other => asks other ∨ other = stem) (ok ∧ fits) (· = declHandle stem)
      (RecordGrammar.memoized stem build) := by
  refine ⟨.memoizedAt stem hbuild.program, fun s hs hlog => ?_⟩
  cases hd : s.table.defined (declHandle stem).id with
  | false => exact memoized_ends hbuild hasks hfits hnew hs hlog hd
  | true =>
    obtain ⟨r, hr⟩ := Option.isSome_iff_exists.1 (hs.wellFormed.defined_eq_isSome _ ▸ hd)
    exact .inl ⟨hhit _ (hs.explained stem r hr), _, s, memoized_of_defined hd, rfl, .refl hs⟩

/-- A memoized build under a stem that tells nothing. -/
theorem memoizedOther (asks : String → Prop) (hbuild : h.Decides asks True (· ≠ "") (build ⟨stem⟩))
    (hasks : ¬asks stem) (hexplains : ∀ p, h.Explains stem p) :
    h.Decides (fun other => asks other ∨ other = stem) True (· = declHandle stem)
      (RecordGrammar.memoized stem build) :=
  (hbuild.memoized hasks (fun _ hp => iff_of_true hp trivial) (fun p _ _ _ => hexplains p)
    fun _ _ => ⟨trivial, trivial⟩).of_iff (by rw [true_and])

end Decides

theorem keyedStem_bind (rest : String → Build α) : keyedStem tag text >>= rest =
    (note (.keyed text) >>= fun _ => rest (tag ++ memoKey text)) := by
  rw [keyedStem, bind_assoc]
  simp only [pure_bind]

/-- A build under the memo key of a text goes on under that stem alone. -/
theorem keyedAt_program {rest : String → Build α}
    (hrest : TableProgram (rest (tag ++ memoKey text))) :
    TableProgram (keyedStem tag text >>= rest) := by
  rw [keyedStem_bind]
  exact (Program.step (.note _)).bind fun _ => hrest

theorem memoizedFor_eq (s : Session) :
    (do let stem ← keyedStem tag text; memoized stem build) s =
      memoized (tag ++ memoKey text) build (s.noting [.keyed text]) :=
  bind_of_ok (keyedStem_eq tag text s)

theorem keyed_mem_log (hprogram : TableProgram (build ⟨tag ++ memoKey text⟩)) (s : Session) :
    .keyed text ∈ (finalState ((do let stem ← keyedStem tag text; memoized stem build) s)).log := by
  rw [memoizedFor_eq]
  exact ((Program.memoizedAt _ hprogram).log_extends _).subset (by simp [Session.noting])

/-- A memoized build under the memo key of a text, whose outcome is known from any rule that can be
there in its place. -/
theorem Decides.memoizedFor (asks : String → Prop) (hcollisionless : Collisionless h.log)
    (hbuild : h.Decides asks ok made (build ⟨tag ++ memoKey text⟩))
    (hasks : ¬asks (tag ++ memoKey text)) (hfits : ∀ p, made p → (p ≠ "" ↔ fits))
    (hnew : ∀ p, ok → made p → p ≠ "" → h.Backs tag text p)
    (hhit : ∀ p, h.Backs tag text p → ok ∧ fits) :
    h.Decides (fun other => asks other ∨ other = tag ++ memoKey text) (ok ∧ fits)
      (· = declHandle (tag ++ memoKey text))
      (do let stem ← keyedStem tag text; RecordGrammar.memoized stem build) := by
  refine ⟨keyedAt_program (.memoizedAt _ hbuild.program), fun s hs hlog => ?_⟩
  have hkeyed := hlog (keyed_mem_log hbuild.program s)
  have hmemo := hbuild.memoized hasks hfits
    (fun p hyes hp hne => explains_keyed hcollisionless hkeyed (hnew p hyes hp hne))
    (fun p hp => hhit p (hp tag text hkeyed rfl))
  rw [memoizedFor_eq] at hlog
  exact .of_eq (memoizedFor_eq s) (hmemo.ends (s.noting [.keyed text]) hs hlog)

/-- A memoized build under the memo key of a text that tells nothing of its calls. -/
theorem Decides.memoizedForOther (asks : String → Prop) (hcollisionless : Collisionless h.log)
    (htag : tag ∉ tellingTags)
    (hbuild : h.Decides asks True (· ≠ "") (build ⟨tag ++ memoKey text⟩))
    (hasks : ¬asks (tag ++ memoKey text)) :
    h.Decides (fun other => asks other ∨ other = tag ++ memoKey text) True
      (· = declHandle (tag ++ memoKey text))
      (do let stem ← keyedStem tag text; RecordGrammar.memoized stem build) :=
  (memoizedFor asks hcollisionless hbuild hasks (fun _ hp => iff_of_true hp trivial)
    (fun _ _ _ _ => backs_of_other htag) fun _ _ => ⟨trivial, trivial⟩).of_iff (by rw [true_and])

/-- A memoized text that is keyed by something that is empty exactly if the text is. -/
theorem Decides.memoizedText (asks : String → Prop) (hcollisionless : Collisionless h.log)
    (htag : tag ∈ ["__bje_", "__bst_", "__bmlp_", "__bmg_"]) (hasks : ¬asks (tag ++ memoKey text))
    (hbuild : h.Decides asks True (fun p => p = "" ↔ text = "") (build ⟨tag ++ memoKey text⟩)) :
    h.Decides (fun other => asks other ∨ other = tag ++ memoKey text) (text ≠ "")
      (· = declHandle (tag ++ memoKey text))
      (do let stem ← keyedStem tag text; RecordGrammar.memoized stem build) := by
  have hlist : tag ≠ "__bmil_" := by
    rintro rfl
    revert htag
    decide
  have hobject : tag ≠ "__bjo_" := by
    rintro rfl
    revert htag
    decide
  refine (memoizedFor asks hcollisionless hbuild hasks (fun p hp => not_congr hp) ?_ ?_).of_iff
    (by rw [true_and])
  · intro p _ hp hne
    exact ⟨fun _ htext => hne (hp.2 htext), fun he => absurd he hlist, fun he => absurd he hobject⟩
  · intro p hp
    exact ⟨trivial, hp.nonempty htag⟩

end Memoized

end Outcomes

end History

end RecordGrammar
