import RecordGrammar.Proofs.CompileRuns
import Mathlib.Data.List.Infix

/-! # The texts that a compilation has turned into memo keys

The log is only ever added to, and every fragment of a schema is noted there before it is looked up.
So once a schema is compiled all the texts that its fragments are keyed by are in the log, whatever
the table has been used for before. -/

namespace RecordGrammar

section Log

variable {α : Type}

theorem log_edit {change : RuleTable → Except RuleError RuleTable} {a : α} (s : Session) :
    (finalState ((do edit change; return a : Build α) s)).log = s.log := by
  rcases edit_cases change s with ⟨t, -, hedit⟩ | ⟨e, hedit⟩
  · rw [bind_of_ok hedit]
    rfl
  · rw [bind_of_error hedit]
    rfl

theorem TableStep.log_extends {m : Build α} (h : TableStep α m) (s : Session) :
    s.log <+: (finalState (m s)).log := by
  cases h with
  | look => exact List.prefix_refl _
  | note event => exact List.prefix_append _ _
  | define scope production =>
    rw [Scope.define_eq, log_edit]
  | defineNamed scope name production =>
    rw [Scope.defineNamed, log_edit]
  | reserve scope => exact List.prefix_refl _
  | reserveNamed scope name =>
    rw [Scope.reserveNamed, log_edit]
  | commit r production =>
    rw [RecordGrammar.commit, log_edit]

theorem Program.log_extends {m : Build α} (hm : TableProgram m) (s : Session) :
    s.log <+: (finalState (m s)).log :=
  hm.run (R := fun s s' => s.log <+: s'.log) (fun _ => List.prefix_refl _)
    (fun _ _ _ => List.IsPrefix.trans) (fun _ _ h => h.log_extends) s

theorem CompileStep.log_extends {m : Compile α} (h : CompileStep α m) (σ : CompileState) :
    σ.session.log <+: (finalState (m σ)).session.log := by
  cases h with
  | look => exact List.prefix_refl _
  | wait pending => exact List.prefix_refl _
  | @build _ m hm =>
    have hlog := hm.log_extends σ.session
    cases hrun : m σ.session with
    | ok a s =>
      rw [liftBuild_ok hrun]
      rwa [hrun] at hlog
    | error e s =>
      rw [liftBuild_error hrun]
      rwa [hrun] at hlog

/-- Whatever a compiling step does, and even if it fails, the log has only been added to. -/
theorem Program.session_log_extends {m : Compile α} (hm : CompileProgram m) (σ : CompileState) :
    σ.session.log <+: (finalState (m σ)).session.log :=
  hm.run (R := fun σ σ' => σ.session.log <+: σ'.session.log) (fun _ => List.prefix_refl _)
    (fun _ _ _ => List.IsPrefix.trans) (fun _ _ h => h.log_extends) σ

end Log

/-- A build that has turned a text into a memo key if it goes through. -/
def Keys {α : Type} (canonical : String) (m : Build α) : Prop :=
  ∀ s a s', m s = .ok a s' → .keyed canonical ∈ s'.log

namespace Keys

variable {α : Type} {canonical : String}

theorem keyedStem {tag : String} {rest : String → Build α} (h : ∀ stem, TableProgram (rest stem)) :
    Keys canonical (RecordGrammar.keyedStem tag canonical >>= rest) := by
  intro s a s' hrun
  rw [bind_of_ok (keyedStem_eq tag canonical s)] at hrun
  have hlog := (h (tag ++ memoKey canonical)).log_extends (s.noting [.keyed canonical])
  rw [hrun] at hlog
  exact hlog.subset (by simp [Session.noting])

end Keys

theorem Fragment.keys {f : Fragment} {canonical : String} (h : f.canonical? = some canonical) :
    Keys canonical f.build := by
  cases f with
  | number | string | boolean | mailAddress => cases h
  | array inner =>
    cases h
    exact .keyedStem fun stem => .memoized stem fun scope => .map (.oneOrMore scope _) _
  | tuple members =>
    cases h
    exact .keyedStem fun stem => .memoized stem fun _ => .pure _
  | enumeration literals =>
    cases h
    intro s a s' hrun
    have hterminals := mapM_logging (fun l : Literal => emitTerminal_eq l.text) literals s
    rw [build, bind_of_ok hterminals] at hrun
    have hkeys : Keys (alternation (literals.map fun l => terminal l.text))
        (JsonFragment.enumeration (literals.map fun l => terminal l.text)) :=
      .keyedStem fun stem => .memoized stem fun _ => .pure _
    exact hkeys _ a s' hrun
  | object fields =>
    cases h
    exact .keyedStem fun stem => .memoized stem fun _ => .pure _
  | inQuotes inner =>
    cases h
    exact .keyedStem fun stem => .memoized stem fun _ => .pure _
  | maskedTime mask =>
    cases h
    exact .keyedStem fun stem => .memoized stem fun _ => .bind FormatFragment.digit_program fun _ =>
      .map (.mapM FormatFragment.segmentText_program _) _

theorem runActs_program (acts : List Act) : CompileProgram (runActs acts) := by
  induction acts with
  | nil => exact .pure ()
  | cons a acts ih => exact .bind a.run_program fun _ => ih

/-- Acts that go through leave in the log what their fragments are keyed by. -/
theorem runActs_keyed {acts : List Act} {σ σ' : CompileState} (h : runActs acts σ = .ok () σ')
    {f : Fragment} (hf : .fragment f ∈ acts) {canonical : String}
    (hc : f.canonical? = some canonical) : .keyed canonical ∈ σ'.session.log := by
  induction acts generalizing σ with
  | nil => cases hf
  | cons a acts ih =>
    obtain ⟨_, u, ha, hrest⟩ := bind_eq_ok h
    rcases List.mem_cons.1 hf with rfl | hf
    · obtain ⟨r, v, hlift, hpure⟩ := bind_eq_ok ha
      cases hpure
      obtain ⟨s, hbuild, rfl⟩ := liftBuild_eq_ok hlift
      have hlog := (runActs_program acts).session_log_extends { σ with session := s }
      rw [hrest] at hlog
      exact hlog.subset (f.keys hc _ _ _ hbuild)
    · exact ih hrest hf

/-- A schema that is compiled, on whatever table, has noted what its fragments are keyed by. -/
theorem Session.keyed_of_compile {registry : Registry} {root : String} {options : SchemaOptions}
    (hf : registry.factories = ∅) {start : RuleHandle} {s s' : Session}
    (hs : s.table.WellFormed) (h : s.compile registry root options = (.ok start, s'))
    {f : Fragment} (hmem : .fragment f ∈ (schemaPlan registry root options).acts)
    {canonical : String} (hc : f.canonical? = some canonical) : .keyed canonical ∈ s'.log := by
  obtain ⟨-, σ, hrun, rfl⟩ := Session.compile_eq_ok hf hs h
  exact runActs_keyed hrun hmem hc

end RecordGrammar
