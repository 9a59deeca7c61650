import RecordGrammar.Proofs.HandOffs
import RecordGrammar.Proofs.NullableRules

/-! # What a compilation has done, written down beside its state

Once records may be null, the rules of a record depend on the record that the factory at work was
asked for. A ledger keeps what has been built, and for what. -/

namespace RecordGrammar

/-- What a compilation has done. `built` is a record written out in the work for `asked`, `forward` a
reference there to one under construction, and `met` any type that got a rule there. -/
inductive Entry where
  | fragment (f : Fragment)
  | forward (asked name : String)
  | closed (name : String) (rule : RuleHandle)
  | null
  | wrapped (name : String) (inner : RuleHandle)
  | built (asked name : String) (rule : RuleHandle)
  | met (asked : String) (type : FieldType) (rule : RuleHandle)

namespace Entry

/-- The rules that an entry can have brought into the table. -/
def rules : Entry → List Rule
  | .fragment f => f.shared ++ f.rules
  | .closed name rule => [⟨forwardId name, rule.text⟩]
  | .null => [nullRule]
  | .wrapped name inner => [nullableRule name inner]
  | _ => []

/-- What an entry says of the state that has been reached. -/
def Standing (σ : CompileState) : Entry → Prop
  | .fragment f => σ.table.Holds f ∧ ∀ c, f.canonical? = some c → .keyed c ∈ σ.session.log
  | .forward _ name => σ.Forwards name ∧ .keyed name ∈ σ.session.log
  | .closed name _ => .keyed name ∈ σ.session.log
  | .null => σ.table.defined nullHandle.id = true
  | .wrapped name _ => σ.table.defined (nullableHandle name).id = true
  | _ => True

variable {e : Entry} {r : Rule}

/-! Which entry a rule comes from is told by its id. -/

theorem eq_fragment {f : Fragment} {r' : Rule} (hr : r ∈ e.rules) (hr' : r' ∈ f.shared ++ f.rules)
    (hid : r.id = r'.id) : ∃ g, e = .fragment g ∧ r ∈ g.shared ++ g.rules := by
  cases e with
  | fragment g => exact ⟨g, rfl, hr⟩
  | closed name rule =>
    cases List.mem_singleton.1 hr
    exact absurd hid.symm (forwardId_ne_of_mem hr' name)
  | null =>
    cases List.mem_singleton.1 hr
    exact absurd hid.symm (foreignStem_null.ne_of_mem hr')
  | wrapped name inner =>
    cases List.mem_singleton.1 hr
    exact absurd hid.symm ((foreignStem_nullable name).ne_of_mem hr')
  | _ => cases hr

theorem eq_closed {name : String} (hr : r ∈ e.rules) (hid : r.id = forwardId name) :
    ∃ other rule, e = .closed other rule ∧ forwardId other = forwardId name := by
  cases e with
  | fragment f => exact absurd hid (forwardId_ne_of_mem hr name)
  | closed other rule =>
    cases List.mem_singleton.1 hr
    exact ⟨other, rule, rfl, hid⟩
  | null =>
    cases List.mem_singleton.1 hr
    exact absurd hid (foreignStem_null.ne_forwardId name)
  | wrapped other inner =>
    cases List.mem_singleton.1 hr
    exact absurd hid ((foreignStem_nullable other).ne_forwardId name)
  | _ => cases hr

theorem eq_null (hr : r ∈ e.rules) (hid : r.id = nullHandle.id) : e = .null := by
  cases e with
  | fragment f => exact absurd hid (foreignStem_null.ne_of_mem hr)
  | closed name rule =>
    cases List.mem_singleton.1 hr
    exact absurd hid.symm (foreignStem_null.ne_forwardId name)
  | null => rfl
  | wrapped name inner =>
    cases List.mem_singleton.1 hr
    exact absurd hid.symm (nullHandle_ne_nullableHandle name)
  | _ => cases hr

theorem eq_wrapped {name : String} (hr : r ∈ e.rules) (hid : r.id = (nullableHandle name).id) :
    ∃ inner, e = .wrapped name inner := by
  cases e with
  | fragment f => exact absurd hid ((foreignStem_nullable name).ne_of_mem hr)
  | closed other rule =>
    cases List.mem_singleton.1 hr
    exact absurd hid.symm ((foreignStem_nullable name).ne_forwardId other)
  | null =>
    cases List.mem_singleton.1 hr
    exact absurd hid (nullHandle_ne_nullableHandle name)
  | wrapped other inner =>
    cases List.mem_singleton.1 hr
    exact ⟨inner, congrArg (Entry.wrapped · inner) (nullableHandle_inj hid)⟩
  | _ => cases hr

end Entry

/-- A rule that stands for a record written out in the work for `asked`. -/
def Written (ledger : List Entry) (asked name : String) (rule : RuleHandle) : Prop :=
  .built asked name rule ∈ ledger ∨ (.forward asked name ∈ ledger ∧ rule = ⟨forwardId name⟩)

/-- The rule that a record gets from its factory. -/
inductive Delegated (ledger : List Entry) (name : String) : Factory → RuleHandle → Prop where
  | json {rule} : Written ledger name name rule → Delegated ledger name .json rule
  | nullable {inner} : .wrapped name inner ∈ ledger →
      Delegated ledger name .nullable (nullableHandle name)

/-- What the rule of a type in the work for `asked` consists of. -/
inductive Stands (registry : Registry) (ledger : List Entry) (asked : String) :
    FieldType → RuleHandle → Prop where
  | int : .fragment .number ∈ ledger → Stands registry ledger asked .int Fragment.number.handle
  | float : .fragment .number ∈ ledger → Stands registry ledger asked .float Fragment.number.handle
  | string : .fragment .string ∈ ledger →
      Stands registry ledger asked .string Fragment.string.handle
  | bool : .fragment .boolean ∈ ledger → Stands registry ledger asked .bool Fragment.boolean.handle
  | list {element inner} : .met asked element inner ∈ ledger → .fragment (.array inner) ∈ ledger →
      Stands registry ledger asked (.list element) (Fragment.array inner).handle
  | tuple {items inners} : List.Forall₂ (.met asked · · ∈ ledger) items inners →
      .fragment (.tuple inners) ∈ ledger →
      Stands registry ledger asked (.tuple items) (Fragment.tuple inners).handle
  | literal {value} : .fragment (.enumeration [value]) ∈ ledger →
      Stands registry ledger asked (.literal value) (Fragment.enumeration [value]).handle
  | union {members literals} : unionLiterals members = .ok literals →
      .fragment (.enumeration literals) ∈ ledger →
      Stands registry ledger asked (.union members) (Fragment.enumeration literals).handle
  | inlined {name rule} : registry.Inlines asked name → Written ledger asked name rule →
      Stands registry ledger asked (.record name) rule
  | handedOff {name factory rule} : ¬registry.Inlines asked name →
      registry.factory? name = some factory → Delegated ledger name factory rule →
      Stands registry ledger asked (.record name) rule

/-- What an entry owes to the schema and to other entries. -/
def Entry.Justified (registry : Registry) (root : String) (ledger : List Entry) : Entry → Prop
  | .fragment f => f.Clear
  | .forward asked name =>
    ∃ stack, registry.Works root stack asked (.record name) ∧ name ∈ stack
  | .closed name rule => ∃ asked, .built asked name rule ∈ ledger
  | .wrapped name inner => .null ∈ ledger ∧ Written ledger name name inner
  | .built asked name rule =>
    (∃ stack, registry.Works root stack asked (.record name) ∧ name ∉ stack) ∧
      registry.Inlines asked name ∧ ∃ definition rows, registry.record name = .ok definition ∧
        List.Forall₂ (fun f row => row.1 = f.name ∧ .met asked f.type row.2 ∈ ledger)
          definition.visibleFields rows ∧
        .fragment (.object rows) ∈ ledger ∧ rule = (Fragment.object rows).handle
  | .met asked type rule =>
    registry.Reaches root type ∧ Referable rule.id ∧ Stands registry ledger asked type rule
  | _ => True

section Growth

variable {registry : Registry} {root asked name : String} {type : FieldType} {rule : RuleHandle}
  {ledger ledger' : List Entry} {e : Entry}

theorem Written.mono (h : Written ledger asked name rule) (hsub : ledger ⊆ ledger') :
    Written ledger' asked name rule :=
  h.imp (hsub ·) fun h => ⟨hsub h.1, h.2⟩

theorem Delegated.mono {factory : Factory} (h : Delegated ledger name factory rule)
    (hsub : ledger ⊆ ledger') : Delegated ledger' name factory rule := by
  cases h with
  | json hwritten => exact .json (hwritten.mono hsub)
  | nullable hwrapped => exact .nullable (hsub hwrapped)

theorem Stands.mono (h : Stands registry ledger asked type rule) (hsub : ledger ⊆ ledger') :
    Stands registry ledger' asked type rule := by
  cases h with
  | int hf => exact .int (hsub hf)
  | float hf => exact .float (hsub hf)
  | string hf => exact .string (hsub hf)
  | bool hf => exact .bool (hsub hf)
  | list hinner hf => exact .list (hsub hinner) (hsub hf)
  | tuple hinners hf => exact .tuple (hinners.imp fun _ _ h => hsub h) (hsub hf)
  | literal hf => exact .literal (hsub hf)
  | union hliterals hf => exact .union hliterals (hsub hf)
  | inlined hname hwritten => exact .inlined hname (hwritten.mono hsub)
  | handedOff hname hfactory hrule => exact .handedOff hname hfactory (hrule.mono hsub)

theorem Entry.Justified.mono (h : e.Justified registry root ledger) (hsub : ledger ⊆ ledger') :
    e.Justified registry root ledger' := by
  cases e with
  | fragment f => exact h
  | forward asked name => exact h
  | closed name rule => exact h.imp fun _ hbuilt => hsub hbuilt
  | null => trivial
  | wrapped name inner => exact ⟨hsub h.1, h.2.mono hsub⟩
  | built asked name rule =>
    obtain ⟨hworks, hname, definition, rows, hrecord, hrows, hf, hrule⟩ := h
    exact ⟨hworks, hname, definition, rows, hrecord,
      hrows.imp fun _ _ h => ⟨h.1, hsub h.2⟩, hsub hf, hrule⟩
  | met asked type rule => exact ⟨h.1, h.2.1, h.2.2.mono hsub⟩

end Growth

/-- What stays while a compilation goes on. -/
structure CompileState.Onward (σ σ' : CompileState) : Prop where
  log : σ.session.log ⊆ σ'.session.log
  defined (id : String) : σ.table.defined id = true → σ'.table.defined id = true
  forwards (name : String) : σ.Forwards name → σ'.Forwards name

theorem CompileState.Onward.refl (σ : CompileState) : σ.Onward σ :=
  ⟨List.Subset.refl _, fun _ h => h, fun _ h => h⟩

theorem Entry.Standing.mono {e : Entry} {σ σ' : CompileState} (h : e.Standing σ)
    (honward : σ.Onward σ') : e.Standing σ' := by
  cases e with
  | fragment f => exact ⟨fun r hr => honward.defined _ (h.1 r hr), fun c hc => honward.log (h.2 c hc)⟩
  | forward asked name => exact ⟨honward.forwards name h.1, honward.log h.2⟩
  | closed name rule => exact honward.log h
  | null => exact honward.defined _ h
  | wrapped name inner => exact honward.defined _ h
  | built => trivial
  | met => trivial

/-- An act that has gone through has done what its view says. -/
theorem Act.ran_of_run {a : Act} {σ σ' : CompileState} (h : σ.Tidy) (hrun : a.run σ = .ok () σ') :
    σ.view.step a = some σ'.view ∧ a.Ran σ σ' := by
  rcases a.does h with ⟨v, u, hstep, hok, rfl, hran⟩ | ⟨-, e, u, herror, -⟩
  · rw [hrun] at hok
    cases hok
    exact ⟨hstep, hran⟩
  · rw [hrun] at herror
    cases herror

theorem Act.onward {a : Act} {σ σ' : CompileState} (h : σ.Tidy) (hrun : a.run σ = .ok () σ') :
    σ.Onward σ' where
  log := (ran_of_run h hrun).2.log.subset
  defined _ := (run_grows hrun).defined h.settled.wellFormed
  forwards _ := run_forwards h.sane hrun

/-- A ledger that accounts for the state of a compilation while the records of `stack` are under
construction. -/
structure Kept (registry : Registry) (root : String) (stack : List String) (ledger : List Entry)
    (σ : CompileState) : Prop where
  tidy : σ.Tidy
  waiting {name} : σ.view.waiting name = true → name ∈ stack
  sourced {id r} : σ.view.rule? id = some r → r.id = id ∧ ∃ e ∈ ledger, r ∈ e.rules
  standing {e} : e ∈ ledger → e.Standing σ
  justified {e} : e ∈ ledger → e.Justified registry root ledger

namespace Kept

variable {registry : Registry} {root name : String} {stack stack' : List String}
  {ledger : List Entry} {σ σ' : CompileState} {e : Entry}

theorem empty (registry : Registry) (root : String) : Kept registry root [] [] ⟨{}, []⟩ where
  tidy := CompileState.tidy_of_settled RuleTable.settled_empty
  waiting h := by simp [CompileState.view] at h
  sourced h := by simp [CompileState.view, CompileState.table, RuleTable.rule?] at h
  standing h := by cases h
  justified h := by cases h

/-- Writing down what has just been done. -/
theorem enter (h : Kept registry root stack ledger σ) (htidy : σ'.Tidy) (honward : σ.Onward σ')
    (hwaiting : ∀ name, σ'.view.waiting name = true → name ∈ stack')
    (hrules : ∀ id r, σ'.view.rule? id = some r →
      σ.view.rule? id = some r ∨ (r.id = id ∧ r ∈ e.rules))
    (hstanding : e.Standing σ') (hjustified : e.Justified registry root ledger) :
    Kept registry root stack' (e :: ledger) σ' where
  tidy := htidy
  waiting := hwaiting _
  sourced hr := by
    rcases hrules _ _ hr with hold | ⟨hid, hr⟩
    · obtain ⟨hid, e', he', hr⟩ := h.sourced hold
      exact ⟨hid, e', List.mem_cons_of_mem _ he', hr⟩
    · exact ⟨hid, e, List.mem_cons_self, hr⟩
  standing := List.forall_mem_cons.2
    ⟨hstanding, fun _ he' => (h.standing he').mono honward⟩ _
  justified := List.forall_mem_cons.2 ⟨hjustified.mono (List.subset_cons_self _ _),
    fun _ he' => (h.justified he').mono (List.subset_cons_self _ _)⟩ _

/-- Writing down what the state shows already. -/
theorem note (h : Kept registry root stack ledger σ) (hstanding : e.Standing σ)
    (hjustified : e.Justified registry root ledger) : Kept registry root stack (e :: ledger) σ :=
  h.enter h.tidy (.refl σ) (fun _ => h.waiting) (fun _ _ => .inl) hstanding hjustified

/-- A record comes under construction. -/
theorem opened (h : Kept registry root stack ledger σ) (name : String) :
    Kept registry root (stack ++ [name]) ledger σ where
  tidy := h.tidy
  waiting hw := List.mem_append_left _ (h.waiting hw)
  sourced := h.sourced
  standing := h.standing
  justified := h.justified

theorem fragment (h : Kept registry root stack ledger σ) {f : Fragment} {r : RuleHandle}
    (hclear : f.Clear) (hrun : liftBuild f.build σ = .ok r σ') :
    r = f.handle ∧ Kept registry root stack (.fragment f :: ledger) σ' := by
  have hact : (Act.fragment f).run σ = .ok () σ' := bind_of_ok hrun
  obtain ⟨hstep, hran⟩ := Act.ran_of_run h.tidy hact
  obtain ⟨hview, -⟩ := View.step_fragment_eq_some hstep
  obtain ⟨s, hbuild, -⟩ := liftBuild_eq_ok hrun
  have hholds := (hran.tidy.settled.holds_iff f).2 (Act.run_fragment_eq_ok hact).2
  refine ⟨(Fragment.build_eq_ok hbuild).1, h.enter hran.tidy (Act.onward h.tidy hact)
    (fun name hw => ?_) (fun id r hr => ?_) ⟨hholds, hran.keyed⟩ hclear⟩
  · rw [hview] at hw
    exact h.waiting hw
  · rw [hview] at hr
    rcases Option.or_eq_some_iff.1 hr with hold | ⟨-, hnew⟩
    · exact .inl hold
    · exact .inr ⟨by simpa using List.find?_some hnew, List.mem_of_find?_eq_some hnew⟩

theorem forward (h : Kept registry root stack ledger σ) {asked : String} {site : CompileSite}
    {r : RuleHandle} (hworks : registry.Works root stack asked (.record name)) (hname : name ∈ stack)
    (hrun : site.forward name σ = .ok r σ') :
    r = ⟨forwardId name⟩ ∧ Kept registry root stack (.forward asked name :: ledger) σ' := by
  by_cases hrecursion : site.options.allowRecursion = true
  · rw [Follows.forward hrecursion name σ h.tidy.sane] at hrun
    obtain ⟨_, u, hacts, hpure⟩ := bind_eq_ok hrun
    cases hpure
    obtain ⟨_, u, hact, hpure⟩ := bind_eq_ok hacts
    cases hpure
    obtain ⟨hstep, hran⟩ := Act.ran_of_run h.tidy hact
    have hforwards : σ'.Forwards name := by
      rcases Act.run_forward_eq_ok h.tidy.sane hact with ⟨-, hforwards⟩ | hpending
      · exact hforwards
      · exact .inl (by simp [hpending])
    refine ⟨rfl, h.enter hran.tidy (Act.onward h.tidy hact) (fun n hn => ?_) (fun id r hr => ?_)
      ⟨hforwards, hran.keyed name rfl⟩ ⟨stack, hworks, hname⟩⟩
    · rcases View.step_forward_eq_some hstep with ⟨hview, -⟩ | ⟨hview, -⟩ <;> rw [hview] at hn
      · exact h.waiting hn
      · simp only [View.await, Bool.or_eq_true, decide_eq_true_eq] at hn
        exact hn.elim (fun he => he ▸ hname) h.waiting
    · rcases View.step_forward_eq_some hstep with ⟨hview, -⟩ | ⟨hview, -⟩ <;> rw [hview] at hr
      · exact .inl hr
      · exact .inl hr
  · rw [CompileSite.forward, if_neg hrecursion] at hrun
    cases hrun

/-- A record is finished. -/
theorem close (h : Kept registry root (stack ++ [name]) ledger σ) {asked : String}
    {rule : RuleHandle} (hbuilt : .built asked name rule ∈ ledger)
    (hrun : CompileSite.close name rule σ = .ok () σ') :
    ∃ ledger', ledger ⊆ ledger' ∧ Kept registry root stack ledger' σ' := by
  have hact : (Act.close name rule).run σ = .ok () σ' := hrun
  obtain ⟨hstep, hran⟩ := Act.ran_of_run h.tidy hact
  have hopen {n : String} (hn : σ.view.waiting n = true) (hne : n ≠ name) : n ∈ stack := by
    have hmem := h.waiting hn
    rw [List.mem_append, List.mem_singleton] at hmem
    exact hmem.resolve_right hne
  rcases View.step_close_eq_some hstep with ⟨hview, hw⟩ | ⟨-, hw⟩
  · have hkeyed : .keyed name ∈ σ'.session.log := hran.log.subset (h.tidy.keyed name hw)
    refine ⟨.closed name rule :: ledger, List.subset_cons_self _ _,
      h.enter hran.tidy (Act.onward h.tidy hact) (fun n hn => ?_) (fun id r hr => ?_) hkeyed
        ⟨asked, hbuilt⟩⟩
    · rw [hview] at hn
      simp only [View.settle, Bool.and_eq_true, decide_eq_true_eq] at hn
      exact hopen hn.2 hn.1
    · rw [hview] at hr
      simp only [View.settle] at hr
      split at hr
      · cases hr
        exact .inr ⟨Eq.symm ‹_›, List.mem_singleton_self _⟩
      · exact .inl hr
  · have hnone : σ.pending.lookup name = none := by
      simpa [CompileState.view] using hw
    rw [Act.run_close_of_not_waiting hnone] at hact
    cases hact
    refine ⟨ledger, List.Subset.refl _, h.tidy, fun hn => hopen hn ?_, h.sourced, h.standing,
      h.justified⟩
    rintro rfl
    rw [hn] at hw
    cases hw

/-- A rule of a foreign stem is added. -/
theorem push (h : Kept registry root stack ledger σ) {stem production : String}
    (hstem : ForeignStem stem) (hfree : σ.table.taken (Scope.idOf ⟨stem⟩ "decl") = false)
    (hrule : ⟨Scope.idOf ⟨stem⟩ "decl", production⟩ ∈ e.rules)
    (hstanding : ∀ σ : CompileState, σ.table.defined (Scope.idOf ⟨stem⟩ "decl") = true → e.Standing σ)
    (hjustified : e.Justified registry root ledger) :
    Kept registry root stack (e :: ledger) { σ with session :=
      { σ.session with table := σ.table.push (Scope.idOf ⟨stem⟩ "decl") production } } := by
  have hdefined {id : String} (hid : σ.table.defined id = true) :
      (σ.table.push (Scope.idOf ⟨stem⟩ "decl") production).defined id = true := by
    rw [RuleTable.defined_push, hid, Bool.or_true]
  refine h.enter (hstem.tidy_push h.tidy hfree) ⟨List.Subset.refl _, fun _ => hdefined,
    fun _ hname => hname.imp_right hdefined⟩ (fun _ => h.waiting) (fun id r hr => ?_)
    (hstanding _ (by simp [CompileState.table, RuleTable.defined_push])) hjustified
  have hr : (σ.table.push (Scope.idOf ⟨stem⟩ "decl") production).rule? id = some r := hr
  rw [h.tidy.settled.wellFormed.rule?_push] at hr
  split at hr
  · cases hr
    exact .inr ⟨Eq.symm ‹_›, hrule⟩
  · exact .inl hr

theorem null (h : Kept registry root stack ledger σ) {r : RuleHandle} {s : Session}
    (hrun : JsonFragment.null σ.session = .ok r s) :
    r = nullHandle ∧ Kept registry root stack (.null :: ledger) { σ with session := s } := by
  obtain ⟨hr, ⟨hd, rfl⟩ | ⟨production, u, hbuild, hfree, rfl⟩⟩ := memoized_cases hrun
  · exact ⟨hr, h.note hd trivial⟩
  · cases hbuild
    refine ⟨hr, h.push foreignStem_null hfree (e := .null) ?_ (fun _ hd => hd) trivial⟩
    simp [Entry.rules, nullRule, nullHandle, Layout.text, Piece.text]

/-- A record that may be null is wrapped, or has been before. -/
theorem wrap (h : Kept registry root stack ledger σ) {inner r : RuleHandle}
    (hwritten : Written ledger name name inner)
    (hrun : liftBuild (memoized ("nullable_" ++ name) fun _ => do
      let null ← JsonFragment.null
      return alternation [inner.text, null.text]) σ = .ok r σ') :
    r = nullableHandle name ∧ ∃ ledger', ledger ⊆ ledger' ∧ Kept registry root stack ledger' σ' ∧
      .wrapped name inner ∈ ledger' := by
  obtain ⟨s, hmemo, rfl⟩ := liftBuild_eq_ok hrun
  obtain ⟨hr, ⟨hd, rfl⟩ | ⟨production, u, hbuild, hfree, rfl⟩⟩ := memoized_cases hmemo
  · have hsome := h.tidy.settled.wellFormed.defined_eq_isSome (nullableHandle name).id
    obtain ⟨r', hr'⟩ := Option.isSome_iff_exists.1 (hsome ▸ hd)
    obtain ⟨hid, e, he, hmem⟩ := h.sourced hr'
    obtain ⟨inner', rfl⟩ := Entry.eq_wrapped hmem hid
    exact ⟨hr, .wrapped name inner :: ledger, List.subset_cons_self _ _,
      h.note (e := .wrapped name inner) hd ⟨(h.justified he).1, hwritten⟩, List.mem_cons_self⟩
  · obtain ⟨null, u', hnull, hpure⟩ := bind_eq_ok hbuild
    cases hpure
    obtain ⟨rfl, h'⟩ := h.null hnull
    refine ⟨hr, .wrapped name inner :: .null :: ledger, fun e he => by simp [he],
      h'.push (foreignStem_nullable name) hfree ?_ (fun _ hd => hd) ⟨List.mem_cons_self,
        hwritten.mono (List.subset_cons_self _ _)⟩, List.mem_cons_self⟩
    simp [Entry.rules, nullableRule, nullableHandle, Layout.text, Piece.text]

end Kept

end RecordGrammar
