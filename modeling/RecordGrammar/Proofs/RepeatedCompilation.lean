import RecordGrammar.Proofs.CompiledTable
import RecordGrammar.Proofs.WorkbenchHistories

/-! # Compiling a schema once more

A compilation that goes through leaves every rule committed that its acts ask for, also those that
it has only reserved at first. When the acts are gone through again, they change nothing. -/

namespace RecordGrammar

/-- The id of the rule that an act asks for. -/
def Act.asks? : Act → Option String
  | .fragment f => some f.handle.id
  | .forward name => some (forwardId name)
  | .close _ _ => none

/-- All that acts ask for is committed. -/
def RuleTable.Answers (t : RuleTable) (acts : List Act) : Prop :=
  ∀ a ∈ acts, ∀ id, a.asks? = some id → t.defined id = true

theorem RuleTable.Answers.grows {t t' : RuleTable} {acts : List Act} (h : t.Answers acts)
    (hwf : t.WellFormed) (hgrows : t.Grows t') : t'.Answers acts :=
  fun a ha id hid => hgrows.defined hwf (h a ha id hid)

/-- Acts that find everything committed leave the table as it is, and nothing waits. -/
theorem runActs_of_answers {acts : List Act} {s : Session} (hwf : s.table.WellFormed)
    (h : s.table.Answers acts) :
    ∃ s' : Session, runActs acts ⟨s, []⟩ = .ok () ⟨s', []⟩ ∧ s'.table = s.table := by
  induction acts generalizing s with
  | nil => exact ⟨s, rfl, rfl⟩
  | cons a acts ih =>
    have hstep : ∃ events, a.run ⟨s, []⟩ = .ok () ⟨s.noting events, []⟩ := by
      cases a with
      | fragment f =>
        have hd := h _ List.mem_cons_self _ rfl
        exact ⟨f.notes, bind_of_ok (liftBuild_ok (Fragment.build_of_holds hd))⟩
      | forward name =>
        have hd := h _ List.mem_cons_self _ rfl
        exact ⟨[.keyed name], (Act.run_forward_of_not_waiting rfl).trans
          (bind_of_ok (Act.declareForward_of_defined hwf hd))⟩
      | close name rule =>
        refine ⟨[], ?_⟩
        rw [Session.noting_nil]
        exact Act.run_close_of_not_waiting rfl
    obtain ⟨events, hrun⟩ := hstep
    obtain ⟨s', hrest, htable⟩ := ih (s := s.noting events) hwf
      fun a' ha => h a' (List.mem_cons_of_mem a ha)
    exact ⟨s', by rw [runActs, bind_of_ok hrun, hrest], htable⟩

section Runs

variable {σ σ' : CompileState} {name : String}

theorem runActs_grows {acts : List Act} (hrun : runActs acts σ = .ok () σ') :
    σ.table.Grows σ'.table := by
  induction acts generalizing σ with
  | nil =>
    cases hrun
    exact .refl _
  | cons a acts ih =>
    obtain ⟨_, u, ha, hrest⟩ := bind_eq_ok hrun
    exact (Act.run_grows ha).trans (ih hrest)

/-- A forward rule is committed once its record has been closed. -/
theorem defined_of_closed {acts : List Act} {rule : RuleHandle} (h : σ.Sane)
    (hrun : runActs acts σ = .ok () σ') (hname : σ.Forwards name)
    (hclose : .close name rule ∈ acts) : σ'.table.defined (forwardId name) = true := by
  induction acts generalizing σ with
  | nil => cases hclose
  | cons a acts ih =>
    obtain ⟨_, u, ha, hrest⟩ := bind_eq_ok hrun
    have hu := Act.run_sane h ha
    rcases List.mem_cons.1 hclose with rfl | hclose
    · refine (runActs_grows hrest).defined hu.wellFormed ?_
      rcases Act.run_close_eq_ok h ha with ⟨hnone, rfl⟩ | ⟨-, hd⟩
      · exact hname.resolve_left (by simp [hnone])
      · exact hd
    · exact ih hu hrest (Act.run_forwards h ha hname) hclose

/-- Acts of which each forward rule is closed further on have all they ask for committed. -/
theorem answers_of_runActs {acts : List Act} (h : σ.Sane) (hrun : runActs acts σ = .ok () σ')
    (hclosed : Act.Closed [] acts) : σ'.table.Answers acts := by
  induction acts generalizing σ with
  | nil => exact fun a ha => absurd ha List.not_mem_nil
  | cons a acts ih =>
    obtain ⟨_, u, ha, hrest⟩ := bind_eq_ok hrun
    obtain ⟨hforward, hclosed⟩ := Act.closed_cons_iff.1 hclosed
    have hu := Act.run_sane h ha
    intro b hb id hid
    rcases List.mem_cons.1 hb with rfl | hb
    · cases b with
      | fragment f =>
        cases hid
        exact (runActs_grows hrest).defined hu.wellFormed (Act.run_fragment_eq_ok ha).2
      | forward name =>
        cases hid
        obtain ⟨rule, hrule⟩ := (hforward name rfl).resolve_left List.not_mem_nil
        refine defined_of_closed hu hrest ?_ hrule
        rcases Act.run_forward_eq_ok h ha with ⟨-, hname⟩ | hpending
        · exact hname
        · exact .inl (by simp [hpending])
      | close name rule => cases hid
    · exact ih hu hrest hclosed b hb id hid

end Runs

section Compile

variable {registry : Registry} {root : String} {options : SchemaOptions} {start : RuleHandle}

theorem Session.compile_of_answers (hf : registry.factories = ∅) {s : Session}
    (hwf : s.table.WellFormed)
    (houtcome : (schemaPlan registry root options).outcome = .ok start)
    (h : s.table.Answers (schemaPlan registry root options).acts) :
    ∃ s' : Session, s.compile registry root options = (.ok start, s') ∧ s'.table = s.table := by
  obtain ⟨s', hrun, htable⟩ := runActs_of_answers hwf h
  refine ⟨s', ?_, htable⟩
  rw [Session.compile_eq hf root options hwf, hrun, houtcome]

/-- A schema that has been compiled compiles again to the same start rule, on whatever the table has
become since, and changes nothing in it. -/
theorem Session.compile_again (hf : registry.factories = ∅) {s s' u : Session}
    (hwf : s.table.WellFormed) (h : s.compile registry root options = (.ok start, s'))
    (hlater : s'.table.Grows u.table) :
    ∃ u' : Session, u.compile registry root options = (.ok start, u') ∧ u'.table = u.table := by
  obtain ⟨houtcome, σ, hrun, rfl⟩ := Session.compile_eq_ok hf hwf h
  have hclosed := (Act.closed_invariant registry root options _).schemaPlan houtcome
  have hsane := CompileState.sane_of_wellFormed hwf
  have hwf' := (runActs_sane hsane hrun).wellFormed
  exact Session.compile_of_answers hf (hlater.wellFormed hwf') houtcome
    ((answers_of_runActs hsane hrun hclosed).grows hwf' hlater)

theorem Workbench.Later.wellFormed {bench : Workbench} (h : Workbench.Later {} bench) (side : Side) :
    (bench.table side).WellFormed :=
  (h.grows side).wellFormed (by cases side <;> exact RuleTable.wellFormed_empty)

/-- Compilation is idempotent. From any two tables that whatever has been done to, a schema that
compiles gets one start rule; and once it has been compiled into a table, it compiles into every
later state of it with that start rule, and leaves both tables as they are. -/
theorem Workbench.compile_idempotent (hf : registry.factories = ∅) {bench done : Workbench}
    {side : Side} (hreach : Workbench.Later {} bench)
    (h : bench.compile side registry root options = (.ok start, done)) :
    (∀ later, done.Later later → ∃ again,
      later.compile side registry root options = (.ok start, again) ∧
        ∀ side', again.table side' = later.table side') ∧
      ∀ other side', Workbench.Later {} other → ∀ start' done',
        other.compile side' registry root options = (.ok start', done') → start' = start := by
  have hwf := hreach.wellFormed side
  have hsession : ∃ s, (bench.session side).compile registry root options = (.ok start, s) ∧
      done = bench.withSession s side := by
    unfold Workbench.compile at h
    obtain ⟨hstart, hdone⟩ := Prod.mk.inj h
    exact ⟨_, Prod.ext hstart rfl, hdone.symm⟩
  obtain ⟨s, hs, rfl⟩ := hsession
  refine ⟨fun later hlater => ?_, fun other side' hother start' done' h' => ?_⟩
  · have hgrows := hlater.grows side
    rw [Workbench.table_withSession] at hgrows
    obtain ⟨u, hu, htable⟩ := Session.compile_again hf (u := later.session side) hwf hs hgrows
    refine ⟨later.withSession u side, by rw [Workbench.compile, hu], fun side' => ?_⟩
    by_cases hside : side' = side
    · rw [hside, Workbench.table_withSession, htable]
      rfl
    · rw [Workbench.table_withSession_of_ne _ _ hside]
  · unfold Workbench.compile at h'
    obtain ⟨hstart', -⟩ := Prod.mk.inj h'
    have hplan := (Session.compile_eq_ok hf hwf hs).1
    have hplan' := (Session.compile_eq_ok hf (hother.wellFormed side') (Prod.ext hstart' rfl)).1
    rw [hplan] at hplan'
    exact (Except.ok.inj hplan').symm

set_option maxRecDepth 100000 in
/-- A recursive schema, compiled into a table in use, compiled into the other one, and compiled again
after something else has been added. -/
theorem chain_compiled_again :
    let bench := (Workbench.perform {} .first ⟨"own"⟩ (.define (.text "\"x\""))).2
    let done := (bench.compile .first (chain "next") "A" {}).2
    let later := (done.perform .first ⟨"own"⟩ (.define (.committed "own_0"))).2
    (∃ again, later.compile .first (chain "next") "A" {} =
        (.ok ⟨"__bjo_c60e07bca8775799_decl"⟩, again) ∧ ∀ side, again.table side = later.table side) ∧
      ∀ start done', later.compile .second (chain "next") "A" {} = (.ok start, done') →
        start = ⟨"__bjo_c60e07bca8775799_decl"⟩ := by
  intro bench done later
  have hreach : Workbench.Later {} bench := ⟨_, _, .step (.operation _ _ _), rfl⟩
  have hlater : done.Later later := ⟨_, _, .step (.operation _ _ _), rfl⟩
  have hother : Workbench.Later {} later :=
    ⟨_, _, .bind (.step (.operation .first ⟨"own"⟩ (.define (.text "\"x\"")))) fun _ =>
      .bind (.step (.compile .first (chain "next") "A" {})) fun _ =>
      .step (.operation .first ⟨"own"⟩ (.define (.committed "own_0"))), rfl⟩
  have hstart : bench.compile .first (chain "next") "A" {} =
      (.ok ⟨"__bjo_c60e07bca8775799_decl"⟩, done) := eq_mk_of_fst (by decide +kernel)
  obtain ⟨hagain, hsame⟩ := Workbench.compile_idempotent (chain_factories "next") hreach hstart
  exact ⟨hagain later hlater, fun start done' => hsame later .second hother start done'⟩

end Compile

end RecordGrammar
