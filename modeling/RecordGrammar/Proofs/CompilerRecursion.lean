import RecordGrammar.Proofs.CompilePlan
import RecordGrammar.Proofs.CompiledTable
import RecordGrammar.Proofs.PayloadDecoding
import Mathlib.Data.Prod.Lex
import Mathlib.Logic.Relation

/-! # The recursion of the compiler

Types are compiled part by part, and a record is entered only if it is not under construction yet.
So a call of the compiler that is made in another one has fewer records to enter, or as many and a
smaller type. This bounds how deep the calls go, whatever the limit on nesting is. -/

namespace RecordGrammar

namespace FieldType

mutual

/-- The number of types that a type is written with. -/
def size : FieldType → Nat
  | .list element => element.size + 1
  | .tuple items => sizes items + 1
  | .union members => sizes members + 1
  | _ => 1

def sizes : List FieldType → Nat
  | [] => 0
  | type :: rest => type.size + sizes rest

end

theorem size_pos (type : FieldType) : 0 < type.size := by
  cases type <;> simp [size]

theorem size_le_sizes {type : FieldType} {types : List FieldType} (h : type ∈ types) :
    type.size ≤ sizes types := by
  induction types with
  | nil => cases h
  | cons first rest ih =>
    rw [sizes]
    rcases List.mem_cons.1 h with rfl | h
    · exact Nat.le_add_right _ _
    · exact Nat.le_add_left_of_le (ih h)

end FieldType

/-- A call of the compiler of types: the records under construction, the outermost first, the record
that the factory at work was asked for, and the type at hand. -/
structure TypeCall where
  stack : List String
  root : String
  type : FieldType

/-- The call that a compilation begins with. -/
def TypeCall.start (root : String) : TypeCall := ⟨[], root, .record root⟩

namespace Registry

/-- The record that the factory at work was asked for, within a record that is entered. -/
def worker (registry : Registry) (root name : String) : String :=
  if (registry.factory? name).isSome then name else root

/-- The calls that are made in a call, to compile the parts of its type. -/
inductive Nested (registry : Registry) : TypeCall → TypeCall → Prop where
  | element {stack root element} :
      registry.Nested ⟨stack, root, .list element⟩ ⟨stack, root, element⟩
  | item {stack root items item} : item ∈ items →
      registry.Nested ⟨stack, root, .tuple items⟩ ⟨stack, root, item⟩
  | field {stack root name definition field} : name ∉ stack →
      registry.record name = .ok definition → field ∈ definition.visibleFields →
      field.format = none →
      registry.Nested ⟨stack, root, .record name⟩
        ⟨stack ++ [name], registry.worker root name, field.type⟩

/-- The calls of a whole compilation. -/
abbrev Calls (registry : Registry) (root : String) (call : TypeCall) : Prop :=
  Relation.ReflTransGen registry.Nested (.start root) call

/-- The records that are under construction at some moment of a compilation: those of a call, and
the one that the call enters. -/
inductive UnderConstruction (registry : Registry) (root : String) : List String → Prop where
  | call {call} : registry.Calls root call → registry.UnderConstruction root call.stack
  | entered {stack work name definition} : registry.Calls root ⟨stack, work, .record name⟩ →
      name ∉ stack → registry.record name = .ok definition →
      registry.UnderConstruction root (stack ++ [name])

variable {registry : Registry} {stack : List String} {root name : String} {call inner : TypeCall}

/-- The records under construction are different records of the registry. -/
structure Entered (registry : Registry) (stack : List String) : Prop where
  nodup : stack.Nodup
  registered (name : String) : name ∈ stack → name ∈ registry.records

theorem Entered.enter {definition : RecordSchema} (h : registry.Entered stack)
    (hstack : name ∉ stack) (hrecord : registry.record name = .ok definition) :
    registry.Entered (stack ++ [name]) where
  nodup := by
    rw [List.nodup_append_comm]
    exact List.nodup_cons.2 ⟨hstack, h.nodup⟩
  registered other hother := by
    rcases List.mem_append.1 hother with hother | hother
    · exact h.registered other hother
    · obtain rfl := List.mem_singleton.1 hother
      exact mem_records hrecord

theorem Entered.nested (h : registry.Entered call.stack) (hnested : registry.Nested call inner) :
    registry.Entered inner.stack := by
  cases hnested with
  | element => exact h
  | item hitem => exact h
  | field hstack hrecord hfield hformat => exact h.enter hstack hrecord

/-- At every moment of a compilation. -/
theorem UnderConstruction.entered_of (h : registry.UnderConstruction root stack) :
    registry.Entered stack := by
  have hcalls {call : TypeCall} (hcall : registry.Calls root call) :
      registry.Entered call.stack := by
    induction hcall with
    | refl => exact ⟨List.nodup_nil, fun _ hname => absurd hname List.not_mem_nil⟩
    | tail _ hnested ih => exact ih.nested hnested
  cases h with
  | call hcall => exact hcalls hcall
  | entered hcall hstack hrecord => exact (hcalls hcall).enter hstack hrecord

/-- How many records of the registry are not under construction. -/
def outside (registry : Registry) (stack : List String) : Nat :=
  (registry.records.keys.filter (· ∉ stack)).length

theorem outside_enter_lt {definition : RecordSchema} (hstack : name ∉ stack)
    (hrecord : registry.record name = .ok definition) :
    registry.outside (stack ++ [name]) < registry.outside stack := by
  have hkey : name ∈ registry.records.keys :=
    Std.ExtTreeMap.mem_keys.2 (mem_records hrecord)
  have hfilter : registry.records.keys.filter (· ∉ stack ++ [name]) =
      (registry.records.keys.filter (· ∉ stack)).filter (· ≠ name) := by
    rw [List.filter_filter]
    refine List.filter_congr fun other _ => ?_
    simp [and_comm]
  rw [outside, outside, hfilter]
  refine List.length_filter_lt_length_iff_exists.2 ⟨name, ?_, by simp⟩
  exact List.mem_filter.2 ⟨hkey, by simpa using hstack⟩

/-- What decreases from a call to the calls that are made in it. -/
def measure (registry : Registry) (call : TypeCall) : Nat × Nat :=
  (registry.outside call.stack, call.type.size)

theorem Nested.measure_lt (h : registry.Nested call inner) :
    Prod.Lex (· < ·) (· < ·) (registry.measure inner) (registry.measure call) := by
  cases h with
  | element => exact .right _ (by simp [FieldType.size])
  | item hitem =>
    have hsize := FieldType.size_le_sizes hitem
    exact .right _ (Nat.lt_succ_of_le hsize)
  | field hstack hrecord hfield hformat => exact .left _ _ (outside_enter_lt hstack hrecord)

theorem nested_wellFounded (registry : Registry) :
    WellFounded fun inner call => registry.Nested call inner :=
  Subrelation.wf (fun h => h.measure_lt)
    (InvImage.wf registry.measure (WellFounded.prod_lex Nat.lt_wfRel.wf Nat.lt_wfRel.wf))

/-- The size of the largest type of a field. -/
def largestType (registry : Registry) : Nat :=
  (registry.records.toList.flatMap fun entry => entry.2.fields.map (·.type.size)).max?.getD 0

theorem size_le_largestType {definition : RecordSchema} {field : Field}
    (hrecord : registry.record name = .ok definition) (hfield : field ∈ definition.visibleFields) :
    field.type.size ≤ registry.largestType := by
  refine List.le_max?_getD_of_mem (List.mem_flatMap.2 ⟨(name, definition), ?_, ?_⟩)
  · exact Std.ExtTreeMap.mem_toList_iff_getElem?_eq_some.2 (record_eq_ok_iff.1 hrecord)
  · exact List.mem_map_of_mem (List.mem_filter.1 hfield).1

/-- How deep calls go at most, for a number of records and the size of their largest type. -/
def callBudget (records largest : Nat) : Nat := records * largest

/-- How deep calls go at most from a call on, the call itself counted in. -/
def weight (registry : Registry) (call : TypeCall) : Nat :=
  callBudget (registry.outside call.stack) registry.largestType + call.type.size

theorem weight_pos (call : TypeCall) : 0 < registry.weight call :=
  Nat.add_pos_right _ call.type.size_pos

theorem Nested.weight_lt (h : registry.Nested call inner) :
    registry.weight inner < registry.weight call := by
  cases h with
  | element => exact Nat.add_lt_add_left (by simp [FieldType.size]) _
  | item hitem =>
    have hsize := FieldType.size_le_sizes hitem
    exact Nat.add_lt_add_left (Nat.lt_succ_of_le hsize) _
  | @field stack work name definition field hstack hrecord hfield hformat =>
    have houtside := outside_enter_lt hstack hrecord
    have hsize := size_le_largestType hrecord hfield
    have hmul := Nat.mul_le_mul_right registry.largestType (Nat.succ_le_of_lt houtside)
    rw [Nat.succ_mul] at hmul
    simp only [weight, callBudget, FieldType.size]
    omega

end Registry

open RecordCompiler

variable {registry : Registry} {options : SchemaOptions}

/-- A call to be answered by a compiler. -/
def TypeCall.run (call : TypeCall) (registry : Registry) (options : SchemaOptions)
    (compiler : TypeCompiler) : Compile RuleHandle :=
  compiler ⟨registry, options, call.stack⟩ call.root call.type

section Agreement

variable {levels levels' : Levels} {stack : List String} {work name : String}

/-- An object is compiled by the calls for its fields. -/
theorem object_congr {here here' : TypeCompiler}
    (h : ∀ definition field, name ∉ stack → registry.record name = .ok definition →
      field ∈ definition.visibleFields → field.format = none →
      here ⟨registry, options, stack ++ [name]⟩ work field.type =
        here' ⟨registry, options, stack ++ [name]⟩ work field.type) :
    object here ⟨registry, options, stack⟩ work name =
      object here' ⟨registry, options, stack⟩ work name := by
  unfold object CompileSite.record
  by_cases hstack : name ∈ stack
  · rw [if_pos hstack, if_pos hstack]
  rw [if_neg hstack, if_neg hstack]
  cases hrecord : registry.record name with
  | error e => rfl
  | ok definition =>
    have hfields : ∀ f ∈ definition.visibleFields,
        RecordCompiler.field here ⟨registry, options, stack ++ [name]⟩ work f =
          RecordCompiler.field here' ⟨registry, options, stack ++ [name]⟩ work f := by
      intro f hf
      unfold RecordCompiler.field
      cases hformat : f.format with
      | none => rw [h definition f hstack hrecord hf hformat]
      | some format => cases format <;> rfl
    have hmembers := mapM_congr fun f hf =>
      congrArg (fun m => do let rule ← m; return (f.name, rule)) (hfields f hf)
    simp only [require, pure_bind]
    rw [hmembers]

/-- Without factories of its own, a record is an object whose fields are compiled on behalf of the
record that the factory is asked for from then on. -/
theorem recordField_eq_object (hf : registry.factories = ∅) (levels : Levels) :
    recordField levels ⟨registry, options, stack⟩ work name =
      object levels.here ⟨registry, options, stack⟩ (registry.worker work name) name := by
  unfold recordField Registry.worker
  by_cases hname : name = work
  · subst hname
    rw [if_pos rfl, ite_self]
  · rw [if_neg hname]
    rcases Follows.factory?_eq hf name with h | h <;> rw [h] <;> rfl

/-- A call is answered by the answers to the calls that are made in it. -/
theorem typeLevel_congr (hf : registry.factories = ∅) {call : TypeCall}
    (h : ∀ inner, registry.Nested call inner →
      inner.run registry options levels.here = inner.run registry options levels'.here) :
    call.run registry options (typeLevel levels) =
      call.run registry options (typeLevel levels') := by
  rcases call with ⟨stack, work, type⟩
  cases type with
  | list element => exact congrArg (· >>= _) (h _ .element)
  | tuple items =>
    have hitems := mapM_congr fun item hitem => h _ (.item hitem)
    exact congrArg (fun rules => require (checkTuple items) >>= fun _ => rules >>= _) hitems
  | record name =>
    change recordField levels _ work name = recordField levels' _ work name
    rw [recordField_eq_object hf, recordField_eq_object hf]
    exact object_congr fun definition field hstack hrecord hfield hformat =>
      h _ (.field hstack hrecord hfield hformat)
  | _ => rfl

/-- A compilation begins with the call for its record. -/
theorem delegate_start (hf : registry.factories = ∅) (levels : Levels) (root : String) :
    delegate levels ⟨registry, options, []⟩ root (registry.factoryOrJson root) =
      (TypeCall.start root).run registry options (typeLevel levels) := by
  have hstart : (TypeCall.start root).run registry options (typeLevel levels) =
      object levels.here ⟨registry, options, []⟩ root root := by
    change recordField levels _ root root = _
    unfold recordField
    rw [if_pos rfl]
    rfl
  rw [hstart, Registry.factoryOrJson]
  rcases Follows.factory?_eq hf root with h | h <;> rw [h] <;> rfl

end Agreement

/-- Compiles a type with calls that go at most so deep, and leaves those beyond that to another
compiler. There need not be a limit on nesting. No factory of its own is asked to go a level
deeper. -/
def RecordCompiler.typeWithin (beyond : TypeCompiler) : Nat → Option Nat → TypeCompiler
  | _, some 0 => fun site _ _ => throw (.depthExceeded site.options.maxDepth)
  | 0, _ => beyond
  | budget + 1, limit => typeLevel ⟨typeWithin beyond budget (limit.map (· - 1)), none⟩

/-- Compiles a record with calls that go at most so deep. -/
def compileWithin (beyond : TypeCompiler) (budget : Nat) (limit : Option Nat) (registry : Registry)
    (root : String) (options : SchemaOptions) : Compile RuleHandle := do
  let _ ← require (registry.record root)
  delegate ⟨typeWithin beyond budget limit, none⟩ ⟨registry, options, []⟩ root
    (registry.factoryOrJson root)

section Budget

variable {beyond : TypeCompiler} {call : TypeCall} {budget left : Nat}

/-- Calls that may go as deep as they go at most give what the limit on nesting lets them give. A
limit that lets them go that deep is as good as none. -/
theorem run_typeWithin (hf : registry.factories = ∅) {limit : Option Nat}
    (hbudget : registry.weight call ≤ budget)
    (hlimit : limit = some left ∨ limit = none ∧ registry.weight call ≤ left) :
    call.run registry options (typeWithin beyond budget limit) =
      call.run registry options (type left) := by
  induction call using (Registry.nested_wellFounded registry).induction
    generalizing budget left limit with
  | _ call ih =>
  have hpos := registry.weight_pos call
  obtain ⟨budget, rfl⟩ := Nat.exists_eq_add_one.2 (Nat.lt_of_lt_of_le hpos hbudget)
  have hinner {inner : TypeCall} {n : Nat} (h : registry.Nested call inner)
      (hn : registry.weight call ≤ n + 1) : registry.weight inner ≤ n :=
    Nat.le_of_lt_succ (Nat.lt_of_lt_of_le h.weight_lt hn)
  cases left with
  | zero =>
    rcases hlimit with rfl | ⟨-, hleft⟩
    · rfl
    · exact absurd hleft (Nat.not_le_of_gt hpos)
  | succ left =>
    have hlevel : type (left + 1) = typeLevel (levels left) := by
      funext site work ty
      exact type_succ left site work ty
    rw [hlevel]
    rcases hlimit with rfl | ⟨rfl, hleft⟩
    · exact typeLevel_congr hf fun inner h => ih inner h (hinner h hbudget) (.inl rfl)
    · exact typeLevel_congr hf fun inner h =>
        ih inner h (hinner h hbudget) (.inr ⟨rfl, hinner h hleft⟩)

/-- How deep the calls in the call for the root go at most. -/
theorem Registry.Nested.weight_le_callBudget {root : String}
    (h : registry.Nested (.start root) call) :
    registry.weight call ≤ Registry.callBudget registry.records.size registry.largestType := by
  have hstart : registry.weight (.start root) =
      Registry.callBudget registry.records.size registry.largestType + 1 := by
    have houtside : registry.outside [] = registry.records.size := by
      rw [Registry.outside, List.filter_eq_self.2 (by simp), Std.ExtTreeMap.length_keys]
    simp only [Registry.weight, TypeCall.start, houtside, FieldType.size]
  have hlt := h.weight_lt
  rw [hstart] at hlt
  exact Nat.le_of_lt_succ hlt

theorem compileWithin_eq (hf : registry.factories = ∅) {root : String} {limit : Option Nat}
    (hbudget : Registry.callBudget registry.records.size registry.largestType ≤ budget)
    (hlimit : limit = some left ∨ limit = none ∧
      Registry.callBudget registry.records.size registry.largestType ≤ left) :
    compileWithin beyond budget limit registry root options = (do
      let _ ← require (registry.record root)
      (TypeCall.start root).run registry options (typeLevel (levels left))) := by
  unfold compileWithin
  rw [delegate_start hf]
  refine congrArg (require (registry.record root) >>= ·) (funext fun _ => ?_)
  refine typeLevel_congr hf fun inner h => run_typeWithin hf ?_ ?_
  · exact h.weight_le_callBudget.trans hbudget
  · exact hlimit.imp_right fun hleft => ⟨hleft.1, h.weight_le_callBudget.trans hleft.2⟩

end Budget

/-- The recursion of the compiler is well founded. At every moment the records under construction
are different records of the registry, and each call that is made in another one decreases the
number of records that are not under construction or, if it leaves that alone, the size of the type
at hand. No other calls are made. So calls that may go as deep as the number of records and the size
of the largest type allow are all that a compilation needs, with a limit on nesting or without. -/
theorem compilation_terminates {registry : Registry} (hf : registry.factories = ∅) (root : String)
    (options : SchemaOptions) :
    (WellFounded fun inner call => registry.Nested call inner) ∧
    (∀ stack, registry.UnderConstruction root stack →
      stack.Nodup ∧ ∀ name ∈ stack, name ∈ registry.records) ∧
    (∀ call inner, registry.Nested call inner →
      Prod.Lex (· < ·) (· < ·) (registry.measure inner) (registry.measure call)) ∧
    (∀ (call : TypeCall) (levels levels' : Levels),
      (∀ inner, registry.Nested call inner →
        inner.run registry options levels.here = inner.run registry options levels'.here) →
      call.run registry options (typeLevel levels) =
        call.run registry options (typeLevel levels')) ∧
    (∀ beyond budget, Registry.callBudget registry.records.size registry.largestType ≤ budget →
      compileWithin beyond budget (some options.maxDepth) registry root options =
        compileRecord registry root options) ∧
    (∃ unlimited : Compile RuleHandle,
      (∀ beyond budget, Registry.callBudget registry.records.size registry.largestType ≤ budget →
        compileWithin beyond budget none registry root options = unlimited) ∧
      (Registry.callBudget registry.records.size registry.largestType ≤ options.maxDepth →
        unlimited = compileRecord registry root options)) := by
  have hcompile : compileRecord registry root options = (do
      let _ ← require (registry.record root)
      (TypeCall.start root).run registry options (typeLevel (levels options.maxDepth))) := by
    unfold compileRecord
    rw [delegate_start hf]
  refine ⟨registry.nested_wellFounded, fun stack h => ?_, fun call inner h => h.measure_lt,
    fun call levels levels' h => typeLevel_congr hf h, fun beyond budget h => ?_,
    (do
      let _ ← require (registry.record root)
      (TypeCall.start root).run registry options (typeLevel (levels
        (Registry.callBudget registry.records.size registry.largestType)))),
    fun beyond budget h => ?_, fun h => ?_⟩
  · exact ⟨h.entered_of.nodup, h.entered_of.registered⟩
  · rw [hcompile]
    exact compileWithin_eq hf h (.inl rfl)
  · exact compileWithin_eq hf h (.inr ⟨rfl, le_refl _⟩)
  · -- Within the budget no limit is met, so a run without one ends as the run with this one does.
    have hwithin (left : Nat)
        (hleft : Registry.callBudget registry.records.size registry.largestType ≤ left) :
        compileWithin (type 0) (Registry.callBudget registry.records.size registry.largestType)
          none registry root options = (do
            let _ ← require (registry.record root)
            (TypeCall.start root).run registry options (typeLevel (levels left))) :=
      compileWithin_eq hf (le_refl _) (.inr ⟨rfl, hleft⟩)
    exact (hwithin _ (le_refl _)).symm.trans ((hwithin _ h).trans hcompile.symm)

/-- A record that lists others of its kind needs calls that go two deep in the one for the record,
also if nothing limits the nesting. -/
theorem chain_compilation_terminates :
    (chain "next").factories = ∅ ∧
    Registry.callBudget (chain "next").records.size (chain "next").largestType = 2 ∧
    ∃ unlimited : Compile RuleHandle,
      (∀ beyond budget, 2 ≤ budget →
        compileWithin beyond budget none (chain "next") "A" {} = unlimited) ∧
      unlimited = compileRecord (chain "next") "A" {} := by
  have hbudget :
      Registry.callBudget (chain "next").records.size (chain "next").largestType = 2 := by decide
  obtain ⟨-, -, -, -, -, unlimited, hunlimited, hlimited⟩ :=
    compilation_terminates (chain_factories "next") "A" {}
  rw [hbudget] at hunlimited hlimited
  exact ⟨chain_factories "next", hbudget, unlimited, hunlimited, hlimited (by decide)⟩

end RecordGrammar
