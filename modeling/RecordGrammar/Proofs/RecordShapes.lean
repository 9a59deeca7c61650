import RecordGrammar.Proofs.HashedTexts
import RecordGrammar.Proofs.PayloadDepth

/-! # The shapes of types, and the fragments that they are compiled to

The shape of a type is what is left of it once its records are unfolded and their names forgotten.
Without recursion a type that is compiled has a shape, and the fragments that the compilation builds
for it are known from the shape alone. -/

namespace RecordGrammar

inductive Shape where
  | number
  | string
  | bool
  | list (element : Shape)
  | tuple (items : List Shape)
  | oneOf (literals : List Literal)
  | formatted (format : FieldFormat)
  | record (fields : List (String × Shape))
  deriving Repr

/-- The shape of a field is its format, or else that of its type. -/
def Field.shape? (typeShape? : FieldType → Option Shape) (f : Field) : Option (String × Shape) :=
  match f.format with
  | some format => some (f.name, .formatted format)
  | none => (typeShape? f.type).map (f.name, ·)

namespace Registry

/-- One level of a type, the shapes of its parts being known. -/
def shapeLevel (registry : Registry) (here : FieldType → Option Shape) : FieldType → Option Shape
  | .int | .float => some .number
  | .string => some .string
  | .bool => some .bool
  | .variadic | .unknownList => none
  | .list element => (here element).map .list
  | .tuple items => (items.mapM here).map .tuple
  | .literal value => some (.oneOf [value])
  | .union members => (unionLiterals members).toOption.map .oneOf
  | .record name => do
    let definition ← (registry.record name).toOption
    let fields ← definition.visibleFields.mapM (Field.shape? here)
    return .record fields

/-- The shape of a type that nests no deeper than the levels that are left. -/
def shape? (registry : Registry) : Nat → FieldType → Option Shape
  | 0, _ => none
  | left + 1, ty => registry.shapeLevel (registry.shape? left) ty

/-- The shape of a type, however deep it nests. A type that unfolds without end has none. -/
def HasShape (registry : Registry) (ty : FieldType) (shape : Shape) : Prop :=
  ∃ left, registry.shape? left ty = some shape

end Registry

theorem Option.mapM_eq_some_iff {α β : Type} {f : α → Option β} {as : List α} {bs : List β} :
    as.mapM f = some bs ↔ List.Forall₂ (fun a b => f a = some b) as bs := by
  induction as generalizing bs with
  | nil => simp [eq_comm]
  | cons a as ih =>
    rw [List.mapM_cons]
    constructor
    · intro h
      obtain ⟨b, hb, h⟩ := Option.bind_eq_some_iff.1 h
      obtain ⟨rest, hrest, h⟩ := Option.bind_eq_some_iff.1 h
      cases h
      exact .cons hb (ih.1 hrest)
    · intro h
      cases h with
      | cons hb hrest =>
        exact Option.bind_eq_some_iff.2 ⟨_, hb, Option.bind_eq_some_iff.2 ⟨_, ih.2 hrest, rfl⟩⟩

section Levels

variable {registry : Registry} {ty : FieldType} {shape shape' : Shape}

theorem Registry.shapeLevel_mono {here here' : FieldType → Option Shape}
    (h : ∀ ty shape, here ty = some shape → here' ty = some shape)
    (hshape : registry.shapeLevel here ty = some shape) :
    registry.shapeLevel here' ty = some shape := by
  have hfield : ∀ f s, Field.shape? here f = some s → Field.shape? here' f = some s := by
    intro f s hs
    unfold Field.shape? at hs ⊢
    cases hformat : f.format with
    | some format => rwa [hformat] at hs
    | none =>
      rw [hformat] at hs
      obtain ⟨inner, hinner, hs⟩ := Option.map_eq_some_iff.1 hs
      exact Option.map_eq_some_iff.2 ⟨inner, h _ _ hinner, hs⟩
  cases ty with
  | int | float | string | bool | variadic | unknownList | literal value | union members =>
    exact hshape
  | list element =>
    obtain ⟨inner, hinner, hs⟩ := Option.map_eq_some_iff.1 hshape
    exact Option.map_eq_some_iff.2 ⟨inner, h _ _ hinner, hs⟩
  | tuple items =>
    obtain ⟨inner, hinner, hs⟩ := Option.map_eq_some_iff.1 hshape
    refine Option.map_eq_some_iff.2 ⟨inner, ?_, hs⟩
    exact Option.mapM_eq_some_iff.2 ((Option.mapM_eq_some_iff.1 hinner).imp h)
  | record name =>
    obtain ⟨definition, hdefinition, hshape⟩ := Option.bind_eq_some_iff.1 hshape
    obtain ⟨fields, hfields, hshape⟩ := Option.bind_eq_some_iff.1 hshape
    refine Option.bind_eq_some_iff.2 ⟨definition, hdefinition,
      Option.bind_eq_some_iff.2 ⟨fields, ?_, hshape⟩⟩
    exact Option.mapM_eq_some_iff.2 ((Option.mapM_eq_some_iff.1 hfields).imp hfield)

theorem Registry.shape?_mono {left left' : Nat} (hleft : left ≤ left')
    (h : registry.shape? left ty = some shape) : registry.shape? left' ty = some shape := by
  induction left generalizing left' ty shape with
  | zero => cases h
  | succ left ih =>
    obtain ⟨left', rfl⟩ := Nat.exists_eq_add_one_of_ne_zero (by omega : left' ≠ 0)
    exact shapeLevel_mono (fun _ _ => ih (Nat.le_of_succ_le_succ hleft)) h

/-- A type has one shape at most. -/
theorem Registry.HasShape.unique (h : registry.HasShape ty shape)
    (h' : registry.HasShape ty shape') : shape = shape' := by
  obtain ⟨left, h⟩ := h
  obtain ⟨left', h'⟩ := h'
  have hmax := shape?_mono (Nat.le_max_left left left') h
  rw [shape?_mono (Nat.le_max_right left left') h'] at hmax
  exact (Option.some.inj hmax).symm

end Levels

/-- The grammar of a format, without the quotes around it. -/
def FieldFormat.fragment : FieldFormat → Fragment
  | .time mask => .maskedTime mask
  | .email => .mailAddress

namespace Shape

mutual

/-- The fragment that a shape is compiled to. -/
def fragment : Shape → Fragment
  | .number => .number
  | .string => .string
  | .bool => .boolean
  | .list element => .array element.fragment.handle
  | .tuple items => .tuple (handles items)
  | .oneOf literals => .enumeration literals
  | .formatted format => .inQuotes format.fragment.handle
  | .record fields => .object (rows fields)

def handles : List Shape → List RuleHandle
  | [] => []
  | item :: rest => item.fragment.handle :: handles rest

def rows : List (String × Shape) → List (String × RuleHandle)
  | [] => []
  | (name, value) :: rest => (name, value.fragment.handle) :: rows rest

end

/-- The start rule of a shape. -/
def handle (shape : Shape) : RuleHandle := shape.fragment.handle

mutual

/-- All fragments that the compilation of a shape builds, from the inside out. -/
def fragments : Shape → List Fragment
  | .list element => element.fragments ++ [.array element.fragment.handle]
  | .tuple items => itemFragments items ++ [.tuple (handles items)]
  | .formatted format => [format.fragment, .inQuotes format.fragment.handle]
  | .record fields => fieldFragments fields ++ [.object (rows fields)]
  | .number => [.number]
  | .string => [.string]
  | .bool => [.boolean]
  | .oneOf literals => [.enumeration literals]

def itemFragments : List Shape → List Fragment
  | [] => []
  | item :: rest => item.fragments ++ itemFragments rest

def fieldFragments : List (String × Shape) → List Fragment
  | [] => []
  | (_, value) :: rest => value.fragments ++ fieldFragments rest

end

theorem handles_eq (items : List Shape) : handles items = items.map handle := by
  induction items with
  | nil => rfl
  | cons item rest ih => rw [handles, ih, List.map_cons, handle]

theorem rows_eq (fields : List (String × Shape)) :
    rows fields = fields.map fun f => (f.1, f.2.handle) := by
  induction fields with
  | nil => rfl
  | cons f rest ih => rw [rows, ih, List.map_cons, handle]

theorem itemFragments_eq (items : List Shape) : itemFragments items = items.flatMap fragments := by
  induction items with
  | nil => rfl
  | cons item rest ih => rw [itemFragments, ih, List.flatMap_cons]

theorem fieldFragments_eq (fields : List (String × Shape)) :
    fieldFragments fields = fields.flatMap fun f => f.2.fragments := by
  induction fields with
  | nil => rfl
  | cons f rest ih => rw [fieldFragments, ih, List.flatMap_cons]

theorem fragment_mem_fragments (shape : Shape) : shape.fragment ∈ shape.fragments := by
  cases shape <;> simp [fragment, fragments]

end Shape

/-- A list of things each of which comes from a further one, by way of that list. -/
theorem exists_map_of_forall₂ {α β γ : Type} {R : α → γ → Prop} {P : γ → Prop} {g : γ → β}
    {as : List α} {bs : List β} (h : List.Forall₂ (fun a b => ∃ c, R a c ∧ b = g c ∧ P c) as bs) :
    ∃ cs, List.Forall₂ R as cs ∧ bs = cs.map g ∧ ∀ c ∈ cs, P c := by
  induction h with
  | nil => exact ⟨[], .nil, rfl, by simp⟩
  | cons hab _ ih =>
    obtain ⟨c, hc, rfl, hP⟩ := hab
    obtain ⟨cs, hcs, rfl, hall⟩ := ih
    exact ⟨c :: cs, .cons hc hcs, rfl, List.forall_mem_cons.2 ⟨hP, hall⟩⟩

section Compiled

open Plan

variable {registry : Registry} {root : String} {options : SchemaOptions}

/-- The fragments of a shape are among acts. -/
def Shape.BuiltIn (shape : Shape) (acts : List Act) : Prop :=
  ∀ f ∈ shape.fragments, .fragment f ∈ acts

theorem Shape.BuiltIn.mono {shape : Shape} {acts acts' : List Act} (h : shape.BuiltIn acts)
    (hsub : acts ⊆ acts') : shape.BuiltIn acts' :=
  fun f hf => hsub (h f hf)

/-- A shape is built where its parts are, and its own fragment. -/
theorem Shape.builtIn_of_parts {shape : Shape} {parts : List Fragment} {acts : List Act}
    (hshape : shape.fragments = parts ++ [shape.fragment])
    (hparts : ∀ f ∈ parts, .fragment f ∈ acts) (hself : .fragment shape.fragment ∈ acts) :
    shape.BuiltIn acts := by
  intro f hf
  rw [hshape, List.mem_append, List.mem_singleton] at hf
  rcases hf with hf | rfl
  · exact hparts f hf
  · exact hself

/-- The types that a plan compiles have shapes, and are compiled to them. Records under construction
are left out, as far as they are met outside themselves only. -/
def ShapesCompiled (registry : Registry) (root : String) (options : SchemaOptions) (left : Nat) :
    Prop :=
  ∀ stack ty handle, registry.Reaches root ty →
    (∀ name ∈ stack, Relation.TransGen registry.Part (.record name) ty) →
    (Plan.type left ⟨registry, options, stack⟩ ty).outcome = .ok handle →
      ∃ shape, registry.shape? left ty = some shape ∧ handle = shape.handle ∧
        shape.BuiltIn (Plan.type left ⟨registry, options, stack⟩ ty).acts

theorem ShapesCompiled.field {left : Nat} (h : ShapesCompiled registry root options left)
    {stack : List String} {f : Field} {handle : RuleHandle} (hty : registry.Reaches root f.type)
    (hstack : ∀ name ∈ stack, Relation.TransGen registry.Part (.record name) f.type)
    (hok : (Plan.field (Plan.type left) ⟨registry, options, stack⟩ f).outcome = .ok handle) :
    ∃ shape, f.shape? (registry.shape? left) = some (f.name, shape) ∧ handle = shape.handle ∧
      shape.BuiltIn (Plan.field (Plan.type left) ⟨registry, options, stack⟩ f).acts := by
  unfold Plan.field at hok ⊢
  obtain ⟨_, hcheck, hok⟩ := bind_outcome_ok_iff.1 hok
  rw [bind_of_outcome_ok hcheck]
  unfold Field.shape?
  cases hformat : f.format with
  | none =>
    rw [hformat] at hok
    obtain ⟨shape, hshape, rfl, hbuilt⟩ := h stack f.type handle hty hstack hok
    exact ⟨shape, by simp [hshape], rfl, hbuilt⟩
  | some format =>
    rw [hformat] at hok
    refine ⟨.formatted format, rfl, ?_⟩
    have hbuilt (inner : Fragment) : ∀ f ∈ [inner, .inQuotes inner.handle], .fragment f ∈
        (do Plan.fragment (.inQuotes (← Plan.fragment inner)) : Plan RuleHandle).acts := by
      simp [bind, Plan.fragment]
    cases format with
    | time mask =>
      cases hok
      exact ⟨rfl, hbuilt (.maskedTime mask)⟩
    | email =>
      cases hok
      exact ⟨rfl, hbuilt .mailAddress⟩

theorem ShapesCompiled.record (hacyclic : registry.Acyclic root) {left : Nat}
    (h : ShapesCompiled registry root options left) {stack : List String} {name : String}
    {handle : RuleHandle} (hname : registry.Reaches root (.record name))
    (hstack : ∀ other ∈ stack, Relation.TransGen registry.Part (.record other) (.record name))
    (hok : (Plan.object (Plan.type left) ⟨registry, options, stack⟩ name).outcome = .ok handle) :
    ∃ shape, registry.shape? (left + 1) (.record name) = some shape ∧ handle = shape.handle ∧
      shape.BuiltIn (Plan.object (Plan.type left) ⟨registry, options, stack⟩ name).acts := by
  obtain ⟨hmem, -⟩ | ⟨definition, hrecord, hbody, hsub⟩ := object_cases hok (List.Subset.refl _)
  · exact absurd (hstack name hmem) (hacyclic name hname)
  obtain ⟨rows, hrows, rfl, hacts⟩ := outcome_of_fragment hbody
  unfold Plan.objectBody at hsub
  rw [hacts] at hsub
  obtain ⟨hfields, hobject⟩ := List.append_subset.1 hsub
  have heach : List.Forall₂ (fun f row => ∃ field : String × Shape,
      f.shape? (registry.shape? left) = some field ∧ row = (field.1, field.2.handle) ∧
        field.2.BuiltIn (Plan.object (Plan.type left) ⟨registry, options, stack⟩ name).acts)
      definition.visibleFields rows := by
    refine (mapM_each hrows hfields).imp fun f row ⟨hf, hrow, hsub⟩ => ?_
    obtain ⟨rule, hrule, hpure⟩ := bind_outcome_ok_iff.1 hrow
    rw [bind_of_outcome_ok hrule] at hsub
    cases hpure
    -- Whatever the record is inside of, its fields are inside of as well, and inside of the record.
    have hstack' : ∀ other ∈ stack ++ [name],
        Relation.TransGen registry.Part (.record other) f.type := by
      intro other hother
      rcases List.mem_append.1 hother with hother | hother
      · exact (hstack other hother).tail (.field hrecord hf)
      · obtain rfl := List.mem_singleton.1 hother
        exact .single (.field hrecord hf)
    obtain ⟨shape, hshape, rfl, hbuilt⟩ := h.field (.field hname hrecord hf) hstack' hrule
    exact ⟨(f.name, shape), hshape, rfl, hbuilt.mono (List.append_subset.1 hsub).1⟩
  obtain ⟨fields, hshapes, rfl, hbuilt⟩ := exists_map_of_forall₂ heach
  rw [← Shape.rows_eq] at hobject ⊢
  refine ⟨.record fields, ?_, rfl, Shape.builtIn_of_parts (by rw [Shape.fragments]; rfl) ?_
    (hobject (List.mem_singleton.2 rfl))⟩
  · have hmapM := Option.mapM_eq_some_iff.2 hshapes
    simp [Registry.shape?, Registry.shapeLevel, hrecord, Except.toOption, hmapM]
  · intro g hg
    rw [Shape.fieldFragments_eq] at hg
    obtain ⟨field, hfield, hg⟩ := List.mem_flatMap.1 hg
    exact hbuilt field hfield g hg

theorem ShapesCompiled.list {left : Nat} (h : ShapesCompiled registry root options left)
    {stack : List String} {element : FieldType} {handle : RuleHandle}
    (hty : registry.Reaches root (.list element))
    (hstack : ∀ name ∈ stack, Relation.TransGen registry.Part (.record name) (.list element))
    (hok : (Plan.type (left + 1) ⟨registry, options, stack⟩ (.list element)).outcome = .ok handle) :
    ∃ shape, registry.shape? (left + 1) (.list element) = some shape ∧ handle = shape.handle ∧
      shape.BuiltIn (Plan.type (left + 1) ⟨registry, options, stack⟩ (.list element)).acts := by
  rw [Plan.type, typeLevel] at hok ⊢
  obtain ⟨inner, hinner, rfl, hacts⟩ := outcome_of_fragment hok
  have hinside := fun name hname => (hstack name hname).tail .element
  obtain ⟨shape, hshape, rfl, hbuilt⟩ := h stack element inner hty.element hinside hinner
  rw [hacts]
  refine ⟨.list shape, ?_, rfl, Shape.builtIn_of_parts (by rw [Shape.fragments]; rfl) ?_ ?_⟩
  · rw [Registry.shape?, Registry.shapeLevel, hshape, Option.map_some]
  · exact fun f hf => List.mem_append_left _ (hbuilt f hf)
  · exact List.mem_append_right _ (List.mem_singleton.2 rfl)

theorem ShapesCompiled.tuple {left : Nat} (h : ShapesCompiled registry root options left)
    {stack : List String} {items : List FieldType} {handle : RuleHandle}
    (hty : registry.Reaches root (.tuple items))
    (hstack : ∀ name ∈ stack, Relation.TransGen registry.Part (.record name) (.tuple items))
    (hok : (Plan.type (left + 1) ⟨registry, options, stack⟩ (.tuple items)).outcome = .ok handle) :
    ∃ shape, registry.shape? (left + 1) (.tuple items) = some shape ∧ handle = shape.handle ∧
      shape.BuiltIn (Plan.type (left + 1) ⟨registry, options, stack⟩ (.tuple items)).acts := by
  rw [Plan.type, typeLevel] at hok ⊢
  obtain ⟨_, hcheck, hok⟩ := bind_outcome_ok_iff.1 hok
  rw [bind_of_outcome_ok hcheck]
  obtain ⟨members, hmembers, rfl, hacts⟩ := outcome_of_fragment hok
  have heach : List.Forall₂ (fun item member => ∃ shape,
      registry.shape? left item = some shape ∧ member = shape.handle ∧
        shape.BuiltIn (items.mapM (Plan.type left ⟨registry, options, stack⟩)).acts)
      items members := by
    refine (mapM_each hmembers (List.Subset.refl _)).imp fun item member hmember => ?_
    obtain ⟨hitem, ho, hsub⟩ := hmember
    have hinside := fun name hname => (hstack name hname).tail (.item hitem)
    obtain ⟨shape, hshape, hhandle, hbuilt⟩ := h stack item member (hty.item hitem) hinside ho
    exact ⟨shape, hshape, hhandle, hbuilt.mono hsub⟩
  obtain ⟨shapes, hshapes, rfl, hbuilt⟩ := exists_map_of_forall₂ heach
  rw [← Shape.handles_eq] at hacts ⊢
  rw [hacts]
  refine ⟨.tuple shapes, ?_, rfl, Shape.builtIn_of_parts (by rw [Shape.fragments]; rfl) ?_ ?_⟩
  · rw [Registry.shape?, Registry.shapeLevel, Option.mapM_eq_some_iff.2 hshapes, Option.map_some]
  · intro f hf
    rw [Shape.itemFragments_eq] at hf
    obtain ⟨shape, hshape, hf⟩ := List.mem_flatMap.1 hf
    exact List.mem_append_right _ (List.mem_append_left _ (hbuilt shape hshape f hf))
  · exact List.mem_append_right _ (List.mem_append_right _ (List.mem_singleton.2 rfl))

/-- A type that is compiled without recursion has a shape, and is compiled to it. -/
theorem shapesCompiled (hacyclic : registry.Acyclic root) (left : Nat) :
    ShapesCompiled registry root options left := by
  induction left with
  | zero =>
    intro stack ty handle _ _ hok
    cases hok
  | succ left ih =>
    intro stack ty handle hty hstack hok
    -- What is compiled to one fragment alone.
    have hscalar {shape : Shape} (hshape : shape.fragments = [shape.fragment]) :
        shape.BuiltIn (Plan.fragment shape.fragment).acts :=
      Shape.builtIn_of_parts (hshape.trans (List.nil_append _).symm) (by simp)
        (List.mem_singleton.2 rfl)
    cases ty with
    | int | float =>
      cases hok
      exact ⟨.number, rfl, rfl, hscalar rfl⟩
    | string =>
      cases hok
      exact ⟨.string, rfl, rfl, hscalar rfl⟩
    | bool =>
      cases hok
      exact ⟨.bool, rfl, rfl, hscalar rfl⟩
    | variadic | unknownList => cases hok
    | literal value =>
      cases hok
      exact ⟨.oneOf [value], rfl, rfl, hscalar rfl⟩
    | union members =>
      rw [Plan.type, typeLevel] at hok ⊢
      obtain ⟨literals, hliterals, rfl, hacts⟩ := outcome_of_fragment hok
      have hunion : unionLiterals members = .ok literals := hliterals
      rw [hacts]
      refine ⟨.oneOf literals, ?_, rfl, hscalar rfl⟩
      rw [Registry.shape?, Registry.shapeLevel, hunion]
      rfl
    | list element => exact ih.list hty hstack hok
    | tuple items => exact ih.tuple hty hstack hok
    | record name => exact ih.record hacyclic hty hstack hok

/-- A record without recursion that is compiled has a shape, which is all that its start rule and
the fragments behind it depend on. -/
theorem shape_of_schemaPlan (hacyclic : registry.Acyclic root) {start : RuleHandle}
    (hok : (schemaPlan registry root options).outcome = .ok start) :
    ∃ shape, registry.HasShape (.record root) shape ∧ start = shape.handle ∧
      shape.BuiltIn (schemaPlan registry root options).acts := by
  obtain ⟨definition, hrecord, hobject⟩ := bind_outcome_ok_iff.1 hok
  obtain ⟨shape, hshape, hstart, hbuilt⟩ := shapesCompiled hacyclic (options.maxDepth + 1) []
    (.record root) start .root (by simp) hobject
  refine ⟨shape, ⟨_, hshape⟩, hstart, hbuilt.mono ?_⟩
  unfold schemaPlan
  rw [bind_of_outcome_ok hrecord]
  exact List.subset_append_right _ _

end Compiled

end RecordGrammar
