import RecordGrammar.RecordCompiler
import RecordGrammar.Proofs.RuleSetPrograms

/-! # A compilation as a program over its table -/

namespace RecordGrammar

/-- The steps of a compilation. -/
inductive CompileStep : (α : Type) → Compile α → Prop
  | look : CompileStep CompileState get
  | build {α : Type} {m : Build α} (hm : TableProgram m) : CompileStep α (liftBuild m)
  | wait (pending : CompileState → List (String × Reservation)) :
    CompileStep Unit (modify fun s => { s with pending := pending s })

abbrev CompileProgram {α : Type} (m : Compile α) : Prop := Program CompileStep m

namespace RuleTable.Evolution

variable {R : RuleTable → RuleTable → Prop} {α : Type} {m : Compile α}

theorem compileStep (hR : RuleTable.Evolution R) (h : CompileStep α m) (s : CompileState) :
    R s.session.table (finalState (m s)).session.table := by
  cases h with
  | look => exact hR.refl _
  | wait pending => exact hR.refl _
  | @build _ m hm =>
    have hrun := hR.program hm s.session
    cases h : m s.session with
    | ok a s' =>
      rw [h] at hrun
      rw [show liftBuild m s = .ok a { s with session := s' } by simp [liftBuild, h]]
      exact hrun
    | error e s' =>
      rw [h] at hrun
      rw [show liftBuild m s = .error (.rule e) { s with session := s' } by simp [liftBuild, h]]
      exact hrun

theorem compilation (hR : RuleTable.Evolution R) (hm : CompileProgram m) (s : CompileState) :
    R s.session.table (finalState (m s)).session.table :=
  hm.run (R := fun s s' => R s.session.table s'.session.table) (fun _ => hR.refl _)
    (fun _ _ _ => hR.trans) (fun _ _ h => hR.compileStep h) s

end RuleTable.Evolution

namespace CompileProgram

variable {α : Type}

theorem build {m : Build α} (hm : TableProgram m) : CompileProgram (liftBuild m) :=
  .step (.build hm)

theorem require (e : Except SchemaError α) : CompileProgram (require e) := by
  cases e with
  | ok a => exact .pure a
  | error e => exact .throw e

theorem declareForward (name : String) : CompileProgram (CompileSite.declareForward name) := by
  refine .bind (build (.keyed fun stem => .pure stem)) fun stem => .bind (.step .look) fun s => ?_
  split
  · exact build (.lookup _)
  · exact .bind (build (.step (.reserveNamed _ _))) fun slot =>
      .bind (build (.step (.note _))) fun _ => .map (.step (.wait _)) _

theorem forward (site : CompileSite) (name : String) : CompileProgram (site.forward name) := by
  unfold CompileSite.forward
  split
  · refine .bind (.step .look) fun s => ?_
    cases s.pending.lookup name with
    | some slot => exact .pure _
    | none => exact declareForward name
  · exact .throw _

theorem close (name : String) (rule : RuleHandle) :
    CompileProgram (CompileSite.close name rule) := by
  refine .bind (.step .look) fun s => ?_
  cases s.pending.lookup name with
  | some slot =>
    exact .bind (.step (.wait _)) fun _ => .map (build (.step (.commit _ _))) _
  | none => exact .pure _

theorem record {build : CompileSite → RecordSchema → Compile RuleHandle}
    (h : ∀ site definition, CompileProgram (build site definition)) (site : CompileSite)
    (name : String) : CompileProgram (site.record name build) := by
  unfold CompileSite.record
  split
  · exact forward site name
  · exact .bind (require _) fun definition => .bind (h _ definition) fun rule =>
      .map (close name rule) _

section Types

variable {compiler : TypeCompiler} (hc : ∀ site root ty, CompileProgram (compiler site root ty))

include hc

theorem field (site : CompileSite) (root : String) (f : Field) :
    CompileProgram (RecordCompiler.field compiler site root f) := by
  refine .bind (require _) fun _ => ?_
  cases f.format with
  | none => exact hc site root f.type
  | some format =>
    cases format with
    | time mask =>
      exact build (.bind (FormatFragment.maskedTime_program mask) fun _ =>
        JsonFragment.inQuotes_program _)
    | email =>
      exact build (.bind FormatFragment.mailAddress_program fun _ =>
        JsonFragment.inQuotes_program _)

theorem object (site : CompileSite) (root name : String) :
    CompileProgram (RecordCompiler.object compiler site root name) :=
  record (fun site _ => .bind (.mapM (fun f => .map (field hc site root f) _) _)
    fun _ => build (JsonFragment.object_program _)) site name

end Types

theorem delegate {levels : Levels}
    (hhere : ∀ site root ty, CompileProgram (levels.here site root ty))
    (hbelow : ∀ below ∈ levels.below, ∀ site root ty, CompileProgram (below site root ty))
    (site : CompileSite) (name : String) (factory : Factory) :
    CompileProgram (RecordCompiler.delegate levels site name factory) := by
  cases factory <;> simp only [RecordCompiler.delegate]
  case json => exact object hhere site name name
  case fixed => exact build (.memoized _ fun _ => .pure _)
  case nullable =>
    have hnull (inner : RuleHandle) : TableProgram (memoized ("nullable_" ++ name) fun _ => do
        let null ← JsonFragment.null
        return alternation [inner.text, null.text]) :=
      .memoized _ fun _ => .map JsonFragment.null_program _
    cases hl : levels.below with
    | none => exact .bind (.throw _) fun inner => build (hnull inner)
    | some below =>
      exact .bind (object (hbelow below hl) site name name) fun inner => build (hnull inner)
  case masked mask =>
    exact build (.bind (FormatFragment.maskedTime_program mask) fun _ =>
      JsonFragment.inQuotes_program _)
  case boxed other =>
    exact record (fun site _ => .bind (object hhere site other other) fun _ =>
      build (JsonFragment.tuple_program _)) site name
  case plain => exact build (.bind (.emitTerminal _) fun _ => .define _ _)

theorem typeLevel {levels : Levels}
    (hhere : ∀ site root ty, CompileProgram (levels.here site root ty))
    (hbelow : ∀ below ∈ levels.below, ∀ site root ty, CompileProgram (below site root ty))
    (site : CompileSite) (root : String) (ty : FieldType) :
    CompileProgram (RecordCompiler.typeLevel levels site root ty) := by
  cases ty <;> simp only [RecordCompiler.typeLevel]
  case int => exact build JsonFragment.number_program
  case float => exact build JsonFragment.number_program
  case string => exact build JsonFragment.string_program
  case bool => exact build JsonFragment.boolean_program
  case variadic => exact .throw _
  case unknownList => exact .throw _
  case list element =>
    exact .bind (hhere site root element) fun _ => build (JsonFragment.array_program _)
  case tuple items =>
    exact .bind (require _) fun _ => .bind (.mapM (hhere site root) items) fun _ =>
      build (JsonFragment.tuple_program _)
  case literal value => exact build (JsonFragment.literals_program [value])
  case union members =>
    exact .bind (require _) fun literals => build (JsonFragment.literals_program literals)
  case record name =>
    unfold RecordCompiler.recordField
    cases hf : (if name = root then none else site.registry.factory? name) with
    | none => exact object hhere site root name
    | some factory => exact delegate hhere hbelow site name factory

/-- By strong induction, as a nullable record is compiled two levels further down. -/
theorem type (left : Nat) (site : CompileSite) (root : String) (ty : FieldType) :
    CompileProgram (RecordCompiler.type left site root ty) := by
  induction left using Nat.strongRecOn generalizing site root ty with
  | _ left ih =>
    cases left with
    | zero => exact .throw _
    | succ left =>
      rw [RecordCompiler.type_succ]
      refine typeLevel (ih left (Nat.lt_succ_self left)) (fun below hbelow => ?_) site root ty
      cases left with
      | zero => cases hbelow
      | succ deeper =>
        obtain rfl := Option.some.inj hbelow
        exact ih deeper (Nat.lt_succ_of_lt (Nat.lt_succ_self deeper))

/-- A compilation is a program over its table, whichever factories are attached. -/
theorem compileRecord (registry : Registry) (root : String) (options : SchemaOptions) :
    CompileProgram (compileRecord registry root options) := by
  refine .bind (require _) fun _ => delegate (type _) (fun below hbelow => ?_) _ _ _
  cases hd : options.maxDepth with
  | zero =>
    rw [hd] at hbelow
    cases hbelow
  | succ deeper =>
    rw [hd] at hbelow
    obtain rfl := Option.some.inj hbelow
    exact type deeper

end CompileProgram

/-- Whatever a compiling step does, and even if it fails, its table has only grown. -/
theorem Program.session_grows {α : Type} {m : Compile α} (hm : CompileProgram m)
    (s : CompileState) : s.session.table.Grows (finalState (m s)).session.table :=
  RuleTable.growth.compilation hm s

theorem RuleTable.Evolution.compile {R : RuleTable → RuleTable → Prop} (hR : RuleTable.Evolution R)
    (s : Session) (registry : Registry) (root : String) (options : SchemaOptions) :
    R s.table (s.compile registry root options).2.table := by
  have hrun := hR.compilation (.compileRecord registry root options) { session := s }
  unfold Session.compile
  split
  all_goals
    rename_i h
    rw [h] at hrun
    exact hrun

theorem Session.compile_grows (s : Session) (registry : Registry) (root : String)
    (options : SchemaOptions) : s.table.Grows (s.compile registry root options).2.table :=
  RuleTable.growth.compile s registry root options

end RecordGrammar
