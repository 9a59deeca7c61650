import RecordGrammar.Proofs.PlanActs
import RecordGrammar.Proofs.PlanRuns

/-! # Runs of the compiler, on an empty table and on one that is in use -/

namespace RecordGrammar

/-- The record of a forward rule is on the stack, or it is closed further on. -/
def Act.Closed (stack : List String) : List Act → Prop
  | [] => True
  | .forward name :: rest =>
    (name ∈ stack ∨ ∃ rule, .close name rule ∈ rest) ∧ Act.Closed stack rest
  | _ :: rest => Act.Closed stack rest

namespace Act

variable {stack : List String} {as bs : List Act}

theorem closed_cons_iff {a : Act} : Closed stack (a :: as) ↔
    (∀ name, a = .forward name → name ∈ stack ∨ ∃ rule, .close name rule ∈ as) ∧
      Closed stack as := by
  cases a <;> simp [Closed]

theorem Closed.append (has : Closed stack as) (hbs : Closed stack bs) : Closed stack (as ++ bs) := by
  induction as with
  | nil => exact hbs
  | cons a as ih =>
    rw [List.cons_append, closed_cons_iff]
    obtain ⟨ha, has⟩ := closed_cons_iff.1 has
    exact ⟨fun name hname => (ha name hname).imp_right fun ⟨rule, hr⟩ =>
      ⟨rule, List.mem_append_left bs hr⟩, ih has⟩

theorem Closed.close {name : String} (rule : RuleHandle) (h : Closed (stack ++ [name]) as) :
    Closed stack (as ++ [.close name rule]) := by
  induction as with
  | nil => trivial
  | cons a as ih =>
    rw [List.cons_append, closed_cons_iff]
    obtain ⟨ha, has⟩ := closed_cons_iff.1 h
    refine ⟨fun n hn => ?_, ih has⟩
    rcases ha n hn with hmem | ⟨r, hr⟩
    · rw [List.mem_append, List.mem_singleton] at hmem
      exact hmem.imp_right fun he => ⟨rule, by simp [he]⟩
    · exact .inr ⟨r, List.mem_append_left _ hr⟩

theorem Closed.close_of_forward {name : String} (h : Closed [] as) (hname : .forward name ∈ as) :
    ∃ rule, .close name rule ∈ as := by
  induction as with
  | nil => cases hname
  | cons a as ih =>
    obtain ⟨ha, has⟩ := closed_cons_iff.1 h
    rcases List.mem_cons.1 hname with he | hname
    · obtain ⟨rule, hrule⟩ := (ha name he.symm).resolve_left List.not_mem_nil
      exact ⟨rule, List.mem_cons_of_mem a hrule⟩
    · obtain ⟨rule, hrule⟩ := ih has hname
      exact ⟨rule, List.mem_cons_of_mem a hrule⟩

theorem closed_invariant (registry : Registry) (root : String) (options : SchemaOptions)
    (all : List Act) : ActInvariant registry root options all Closed where
  nil _ := trivial
  append := .append
  fragment _ _ _ := trivial
  forward h := ⟨.inl h, trivial⟩
  close _ _ _ _ h := h.close _

end Act

namespace View

/-- Once closed acts are through, nothing waits that has not waited from the start. -/
theorem waiting_of_run {stack : List String} {acts : List Act} {v v' : View}
    (hrun : v.run acts = some v') (hclosed : Act.Closed stack acts) {name : String}
    (hname : name ∉ stack) (hw : v'.waiting name = true) :
    v.waiting name = true ∧ ∀ rule, .close name rule ∉ acts := by
  induction acts generalizing v with
  | nil =>
    obtain rfl := Option.some.inj hrun
    exact ⟨hw, by simp⟩
  | cons a acts ih =>
    obtain ⟨u, hstep, hrest⟩ := Option.bind_eq_some_iff.1 hrun
    obtain ⟨ha, hclosed⟩ := Act.closed_cons_iff.1 hclosed
    obtain ⟨hu, hnone⟩ := ih hrest hclosed
    cases a with
    | fragment f =>
      obtain ⟨rfl, -⟩ := step_fragment_eq_some hstep
      exact ⟨hu, by simpa using hnone⟩
    | forward n =>
      have hne : name ≠ n := by
        rintro rfl
        rcases ha name rfl with hmem | ⟨rule, hrule⟩
        · exact hname hmem
        · exact hnone rule hrule
      rcases step_forward_eq_some hstep with ⟨rfl, -⟩ | ⟨rfl, -⟩
      · exact ⟨hu, by simpa using hnone⟩
      · exact ⟨by simpa [await, hne] using hu, by simpa using hnone⟩
    | close n rule =>
      rcases step_close_eq_some hstep with ⟨rfl, -⟩ | ⟨rfl, hwn⟩
      · simp only [settle, Bool.and_eq_true, decide_eq_true_eq] at hu
        exact ⟨hu.2, by simpa [hu.1] using hnone⟩
      · have hne : name ≠ n := by
          rintro rfl
          simp [hwn] at hu
        exact ⟨hu, by simpa [hne] using hnone⟩

end View

theorem CompileState.tidy_of_settled {s : Session} (h : s.table.Settled) :
    CompileState.Tidy ⟨s, []⟩ :=
  ⟨h, by simp, by simp, by simp, by simp⟩

theorem RuleTable.Settled.coherent {t : RuleTable} (h : t.Settled) : t.view.Coherent where
  reserved_of_waiting _ hw := by cases hw
  rule?_of_reserved id hid :=
    h.wellFormed.rule?_eq_none_iff.2 (h.wellFormed.reserved_undefined id hid)
  waiting_inj _ _ hw := by cases hw
  reserved_forward := h.reserved_forward

/-- The text that an event is about, if it was turned into a memo key. -/
def Event.keyed? : Event → Option String
  | .keyed canonical => some canonical
  | .warned _ => none

/-- No two of the texts that have been turned into memo keys have got the same one. -/
def Collisionless (log : List Event) : Prop :=
  ∀ c ∈ log.filterMap Event.keyed?, ∀ c' ∈ log.filterMap Event.keyed?, memoKey c = memoKey c' → c = c'

instance (log : List Event) : Decidable (Collisionless log) :=
  inferInstanceAs (Decidable (∀ _ ∈ _, ∀ _ ∈ _, _ → _))

theorem Collisionless.of_append {log log' : List Event} (h : Collisionless (log ++ log')) :
    Collisionless log ∧ Collisionless log' := by
  simp only [Collisionless, List.filterMap_append, List.mem_append] at h
  exact ⟨fun c hc c' hc' => h c (.inl hc) c' (.inl hc'),
    fun c hc c' hc' => h c (.inr hc) c' (.inr hc')⟩

/-- What has come out, together with the session that is left. -/
theorem eq_mk_of_fst {α β : Type} {p : α × β} {a : α} (h : p.1 = a) : p = (a, p.2) := by
  rw [← h]

section Compile

variable {registry : Registry} {root : String} {options : SchemaOptions}

theorem compileFresh_eq_ok_iff {g : Grammar} {log : List Event} :
    compileFresh registry root options = (.ok g, log) ↔
      ∃ start s, Session.compile {} registry root options = (.ok start, s) ∧
        g = ⟨start.id, s.table.text⟩ ∧ log = s.log := by
  unfold compileFresh
  constructor
  · intro h
    cases hc : Session.compile {} registry root options with
    | mk result s =>
      rw [hc] at h
      cases result with
      | ok start =>
        cases h
        exact ⟨start, s, rfl, rfl, rfl⟩
      | error e => cases h
  · rintro ⟨start, s, hc, rfl, rfl⟩
    rw [hc]
    rfl

/-- A compilation goes through the acts of its plan and ends as the plan does, unless the table
refuses one of them. -/
theorem Session.compile_eq (hf : registry.factories = ∅) (root : String) (options : SchemaOptions)
    {s : Session} (hwf : s.table.WellFormed) :
    s.compile registry root options =
      match runActs (schemaPlan registry root options).acts ⟨s, []⟩ with
      | .ok _ σ => ((schemaPlan registry root options).outcome, σ.session)
      | .error e σ => (.error e, σ.session) := by
  have hfollows := compileRecord_follows hf root options _ (CompileState.sane_of_wellFormed hwf)
  unfold Session.compile
  rw [hfollows, Plan.perform]
  cases hacts : runActs (schemaPlan registry root options).acts ⟨s, []⟩ with
  | error e σ => rw [bind_of_error hacts]
  | ok _ σ =>
    rw [bind_of_ok hacts]
    cases (schemaPlan registry root options).outcome <;> rfl

/-- A compilation is the run of its plan, whatever the table has been used for before. -/
theorem Session.compile_cases (hf : registry.factories = ∅) (root : String)
    (options : SchemaOptions) {s : Session} (hs : s.table.Settled) :
    (∃ σ : CompileState, s.table.view.run (schemaPlan registry root options).acts = some σ.view ∧
      RanActs (schemaPlan registry root options).acts ⟨s, []⟩ σ ∧
      s.compile registry root options = ((schemaPlan registry root options).outcome, σ.session)) ∨
    (s.table.view.run (schemaPlan registry root options).acts = none ∧
      ∃ (e : SchemaError) (s' : Session), s.compile registry root options = (.error e, s') ∧
        s'.table.Settled) := by
  rcases runActs_does (schemaPlan registry root options).acts (CompileState.tidy_of_settled hs) with
    ⟨v, σ, hrun, hacts, rfl, hran⟩ | ⟨hrun, e, σ, hacts, hσ, -⟩
  · refine .inl ⟨σ, hrun, hran, ?_⟩
    rw [Session.compile_eq hf root options hs.wellFormed, hacts]
  · refine .inr ⟨hrun, e, σ.session, ?_, hσ.settled⟩
    rw [Session.compile_eq hf root options hs.wellFormed, hacts]

/-- A compilation that goes through has gone through the acts of its plan, whatever the table held
before. Its start rule is that of the plan. -/
theorem Session.compile_eq_ok (hf : registry.factories = ∅) {start : RuleHandle} {s s' : Session}
    (hwf : s.table.WellFormed) (h : s.compile registry root options = (.ok start, s')) :
    (schemaPlan registry root options).outcome = .ok start ∧ ∃ σ : CompileState,
      runActs (schemaPlan registry root options).acts ⟨s, []⟩ = .ok () σ ∧ σ.session = s' := by
  rw [Session.compile_eq hf root options hwf] at h
  cases hacts : runActs (schemaPlan registry root options).acts ⟨s, []⟩ with
  | error e σ =>
    rw [hacts] at h
    cases h
  | ok _ σ =>
    rw [hacts] at h
    obtain ⟨houtcome, hsession⟩ := Prod.mk.inj h
    exact ⟨houtcome, σ, rfl, hsession⟩

/-- What a compilation leaves is fit for further ones, also if it has failed. -/
theorem Session.compile_settled (hf : registry.factories = ∅) (root : String)
    (options : SchemaOptions) {s : Session} (hs : s.table.Settled) :
    (s.compile registry root options).2.table.Settled := by
  rcases Session.compile_cases hf root options hs with
    ⟨σ, -, hran, hc⟩ | ⟨-, e, s', hc, hs'⟩
  · rw [hc]
    exact hran.tidy.settled
  · rw [hc]
    exact hs'

/-- What is left of acts that have been gone through on an empty table. -/
structure Session.Built (acts : List Act) (s : Session) : Prop where
  settled : s.table.Settled
  run : (RuleTable.view {}).run acts = some s.table.view
  keyed (a : Act) : a ∈ acts → ∀ canonical, a.canonical? = some canonical →
    .keyed canonical ∈ s.log
  reserved (id : String) : s.table.reserved.contains id = false

theorem RuleTable.view_empty_owned : (RuleTable.view {}).Owned := fun id h => by
  simp [RuleTable.view] at h

theorem Session.built_of_compile (hf : registry.factories = ∅) {start : RuleHandle} {s : Session}
    (h : Session.compile {} registry root options = (.ok start, s)) :
    (schemaPlan registry root options).outcome = .ok start ∧
      s.Built (schemaPlan registry root options).acts := by
  rcases Session.compile_cases hf root options (s := {}) RuleTable.settled_empty with
    ⟨σ, hrun, hran, hc⟩ | ⟨-, e, s', hc, -⟩
  · rw [hc] at h
    obtain ⟨houtcome, rfl⟩ := Prod.mk.inj h
    have hclosed := (Act.closed_invariant registry root options _).schemaPlan houtcome
    have hwaiting (name : String) : σ.view.waiting name = false := by
      rw [← Bool.not_eq_true]
      intro hw
      cases (View.waiting_of_run hrun hclosed (by simp) hw).1
    have hview : σ.view = σ.session.table.view := View.ext rfl rfl (funext hwaiting)
    refine ⟨houtcome, hran.tidy.settled, hview ▸ hrun, hran.keyed, fun id => ?_⟩
    rw [← Bool.not_eq_true]
    intro hid
    obtain ⟨name, hw, -⟩ := RuleTable.view_empty_owned.run hrun id hid
    rw [hwaiting] at hw
    cases hw
  · cases hc.symm.trans h

/-- A compilation that succeeds on an empty table, on a table in use. It succeeds there unless a
rule of it is reserved, and of each rule the table keeps what it has. -/
theorem Session.compile_on (hf : registry.factories = ∅) {start : RuleHandle} {s base : Session}
    (h : Session.compile {} registry root options = (.ok start, s)) (hbase : base.table.Settled) :
    ((∀ id, s.table.defined id = true → base.table.reserved.contains id = false) ∧
      ∃ s' : Session, base.compile registry root options = (.ok start, s') ∧
        s'.table.Settled ∧
        (∀ id, s'.table.rule? id = (base.table.rule? id).or (s.table.rule? id)) ∧
        ∀ id, s'.table.reserved.contains id = base.table.reserved.contains id) ∨
    ((¬∀ id, s.table.defined id = true → base.table.reserved.contains id = false) ∧
      ∃ (e : SchemaError) (s' : Session), base.compile registry root options = (.error e, s')) := by
  obtain ⟨houtcome, hbuilt⟩ := Session.built_of_compile hf h
  have hempty : base.table.view.beneath (RuleTable.view {}) = base.table.view := by
    refine View.ext (funext fun id => ?_) (funext fun id => ?_) rfl
    · simp [View.beneath, RuleTable.view, RuleTable.rule?]
    · simp [View.beneath, RuleTable.view]
  have hapart0 : base.table.view.Apart (RuleTable.view {}) := by
    intro id hid
    simp [View.Taken, RuleTable.view, RuleTable.rule?] at hid
  have hapart_iff : base.table.view.Apart s.table.view ↔
      ∀ id, s.table.defined id = true → base.table.reserved.contains id = false := by
    refine forall_congr' fun id => ?_
    simp only [View.Taken, RuleTable.view, hbuilt.reserved, hbuilt.settled.wellFormed.defined_eq_isSome,
      Bool.false_eq_true, false_or]
  have hover := View.run_beneath hbase.coherent RuleTable.settled_empty.coherent hapart0 hbuilt.run
  rw [hempty, hapart_iff] at hover
  rcases hover with ⟨hapart, hrun⟩ | ⟨hapart, hrun⟩
  · refine .inl ⟨hapart, ?_⟩
    rcases Session.compile_cases hf root options hbase with
      ⟨σ, hrun', hran, hc⟩ | ⟨hrun', -⟩
    · have hview : σ.view = _ := Option.some.inj (hrun'.symm.trans hrun)
      refine ⟨σ.session, by rw [hc, houtcome], hran.tidy.settled, fun id => ?_, fun id => ?_⟩
      · exact congrFun (congrArg View.rule? hview) id
      · refine (congrFun (congrArg View.reserved hview) id).trans ?_
        simp [View.beneath, RuleTable.view, hbuilt.reserved]
    · rw [hrun] at hrun'
      cases hrun'
  · refine .inr ⟨hapart, ?_⟩
    rcases Session.compile_cases hf root options hbase with
      ⟨σ, hrun', -⟩ | ⟨-, e, s', hc, -⟩
    · rw [hrun] at hrun'
      cases hrun'
    · exact ⟨e, s', hc⟩

end Compile

end RecordGrammar
