import RecordGrammar.Proofs.PlanActs

/-! # Which record a type is worked on for

A factory is asked for a record. In the work for it the fields of that record and of records without
a factory are written out, and at any other record the work is handed to the record's factory. -/

namespace RecordGrammar

namespace Registry

/-- A record is written out in the work for the record that a factory was asked for. -/
def Inlines (registry : Registry) (asked name : String) : Prop :=
  name = asked ∨ registry.factory? name = none

/-- The types that the compilation of a record works on, each with the records that are under
construction then, and with the record that the factory at work was asked for. -/
inductive Works (registry : Registry) (root : String) : List String → String → FieldType → Prop where
  | root : registry.Works root [] root (.record root)
  | element {stack asked element} : registry.Works root stack asked (.list element) →
      registry.Works root stack asked element
  | item {stack asked items item} : registry.Works root stack asked (.tuple items) → item ∈ items →
      registry.Works root stack asked item
  | field {stack asked name definition field} : registry.Works root stack asked (.record name) →
      name ∉ stack → registry.Inlines asked name → registry.record name = .ok definition →
      field ∈ definition.visibleFields → registry.Works root (stack ++ [name]) asked field.type
  | handOff {stack asked name} : registry.Works root stack asked (.record name) →
      ¬registry.Inlines asked name → registry.Works root stack name (.record name)

/-- The types that a type leads to through records without a factory. They are written out whichever
record is asked for. -/
inductive Shows (registry : Registry) (type : FieldType) : FieldType → Prop where
  | self : registry.Shows type type
  | element {element} : registry.Shows type (.list element) → registry.Shows type element
  | item {items item} : registry.Shows type (.tuple items) → item ∈ items → registry.Shows type item
  | field {name definition field} : registry.Shows type (.record name) →
      registry.factory? name = none → registry.record name = .ok definition →
      field ∈ definition.visibleFields → registry.Shows type field.type

/-- What a type is in the work for `asked` covers what it is in the work for `other`. The two differ
if the type leads to `asked` itself, which may be null in the latter only. -/
def Covers (registry : Registry) (asked other : String) (type : FieldType) : Prop :=
  asked = other ∨ (registry.factory? asked = some .nullable → ¬registry.Shows type (.record asked))

/-- A record without a factory that is built in one work and referred to in another, where it is
under construction, is covered by what has been built. -/
def InStep (registry : Registry) (root : String) : Prop :=
  ∀ name builder asked stack stack', registry.factory? name = none →
    registry.Works root stack builder (.record name) → name ∉ stack →
    registry.Works root stack' asked (.record name) → name ∈ stack' →
    registry.Covers builder asked (.record name)

variable {registry : Registry} {root asked other further name : String} {stack : List String}
  {type inner last : FieldType}

theorem Works.reaches (h : registry.Works root stack asked type) : registry.Reaches root type := by
  induction h with
  | root => exact .root
  | element _ ih => exact ih.element
  | item _ hitem ih => exact ih.item hitem
  | field _ _ _ hrecord hfield ih => exact ih.field hrecord hfield
  | handOff _ _ ih => exact ih

theorem Shows.trans (h : registry.Shows type inner) (h' : registry.Shows inner last) :
    registry.Shows type last := by
  induction h' with
  | self => exact h
  | element _ ih => exact ih.element
  | item _ hitem ih => exact ih.item hitem
  | field _ hfactory hrecord hfield ih => exact ih.field hfactory hrecord hfield

theorem Covers.refl (registry : Registry) (asked : String) (type : FieldType) :
    registry.Covers asked asked type := .inl rfl

theorem Covers.trans (h : registry.Covers asked other type)
    (h' : registry.Covers other further type) : registry.Covers asked further type := by
  rcases h with rfl | h
  · exact h'
  · exact .inr h

/-- What holds of a type holds of what it leads to. -/
theorem Covers.part (h : registry.Covers asked other type) (hinner : registry.Shows type inner) :
    registry.Covers asked other inner :=
  h.imp_right fun hnot hnullable hshows => hnot hnullable (hinner.trans hshows)

/-- A record that is written out in both works, and its fields. -/
theorem Covers.field (h : registry.Covers asked other (.record name))
    (hasked : registry.Inlines asked name) (hother : registry.Inlines other name)
    {definition : RecordSchema} (hrecord : registry.record name = .ok definition) {field : Field}
    (hfield : field ∈ definition.visibleFields) : registry.Covers asked other field.type := by
  cases hfactory : registry.factory? name with
  | none => exact h.part (.field .self hfactory hrecord hfield)
  | some factory =>
    obtain rfl := hasked.resolve_right (by simp [hfactory])
    obtain rfl := hother.resolve_right (by simp [hfactory])
    exact .refl registry name _

end Registry

end RecordGrammar
