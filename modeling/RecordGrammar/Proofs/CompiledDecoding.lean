import RecordGrammar.Proofs.DecodingErrors
import RecordGrammar.Proofs.SchemaPlacement

/-! # A schema that compiles has nothing wrong with it for decoding -/

namespace RecordGrammar

variable {registry : Registry} {root : String} {options : SchemaOptions} {start : RuleHandle}

theorem Registry.Meets.reaches {limit left : Nat} {ty : FieldType}
    (h : registry.Meets root limit left ty) : registry.Reaches root ty := by
  induction h with
  | root => exact .root
  | element _ ih => exact .element ih
  | item _ hitem ih => exact .item ih hitem
  | field _ hrecord hfield ih => exact .field ih hrecord hfield

open Plan

/-- Only a string has a format, so the type of a field that is accepted with one is a string. -/
theorem Field.eq_string_of_format {f : Field} (hcheck : f.checkOverride = .ok ())
    (hformat : f.format ≠ none) : f.type = .string := by
  by_contra hne
  have hboth : f.format.isSome ∧ f.type ≠ .string := ⟨Option.isSome_iff_ne_none.2 hformat, hne⟩
  rw [Field.checkOverride, if_pos hboth] at hcheck
  cases hcheck

/-- A type that has been compiled, or a string, which may have been compiled to the grammar of a
format. -/
def Registry.Covered (registry : Registry) (root : String) (options : SchemaOptions)
    (ty : FieldType) : Prop :=
  (∃ handle, registry.Placed root options ty handle) ∨ ty = .string

namespace Registry.Covered

theorem element {element : FieldType} (h : registry.Covered root options (.list element)) :
    registry.Covered root options element := by
  obtain ⟨handle, hplaced⟩ := h.resolve_right (by simp)
  obtain ⟨inner, hinner, -⟩ := hplaced.element
  exact .inl ⟨inner, hinner⟩

theorem items {types : List FieldType} (h : registry.Covered root options (.tuple types)) :
    checkTuple types = .ok () ∧ ∀ ty ∈ types, registry.Covered root options ty := by
  obtain ⟨handle, hplaced⟩ := h.resolve_right (by simp)
  obtain ⟨hcheck, members, hmembers, -⟩ := hplaced.items
  refine ⟨hcheck, fun ty hty => ?_⟩
  obtain ⟨member, -, hmember⟩ := exists_of_forall₂ hmembers.flip ty hty
  exact .inl ⟨member, hmember⟩

theorem literals {members : List FieldType} (h : registry.Covered root options (.union members)) :
    ∃ literals, unionLiterals members = .ok literals := by
  obtain ⟨handle, hplaced⟩ := h.resolve_right (by simp)
  obtain ⟨literals, hliterals, -⟩ := hplaced.literals
  exact ⟨literals, hliterals⟩

theorem ne_marker {ty : FieldType} (h : registry.Covered root options ty) :
    ty ≠ .variadic ∧ ty ≠ .unknownList := by
  rcases h with ⟨handle, hplaced⟩ | rfl
  · exact hplaced.ne_marker
  · simp

end Registry.Covered

section

variable (hok : (schemaPlan registry root options).outcome = .ok start)

include hok

theorem Registry.Covered.record {name : String}
    (h : registry.Covered root options (.record name)) :
    ∃ definition, registry.record name = .ok definition := by
  obtain ⟨handle, hplaced⟩ := h.resolve_right (by simp)
  obtain ⟨definition, rows, hrecord, -⟩ := hplaced.record hok
  exact ⟨definition, hrecord⟩

theorem Registry.Covered.field {name : String} (h : registry.Covered root options (.record name))
    {definition : RecordSchema} (hrecord : registry.record name = .ok definition) {f : Field}
    (hf : f ∈ definition.visibleFields) :
    f.checkOverride = .ok () ∧ registry.Covered root options f.type := by
  obtain ⟨handle, hplaced⟩ := h.resolve_right (by simp)
  obtain ⟨definition', rows, hrecord', hrows⟩ := hplaced.record hok
  cases hrecord.symm.trans hrecord'
  obtain ⟨hcheck, hnone⟩ := hrows.field f hf
  refine ⟨hcheck, ?_⟩
  by_cases hformat : f.format = none
  · exact .inl (hnone hformat)
  · exact .inr (Field.eq_string_of_format hcheck hformat)

theorem covered_root : registry.Covered root options (.record root) := by
  obtain ⟨definition, hrecord, hobject⟩ := bind_outcome_ok_iff.1 hok
  refine .inl ⟨start, .root, options.maxDepth + 1, [], hobject, ?_⟩
  unfold schemaPlan
  rw [bind_of_outcome_ok hrecord]
  exact List.subset_append_right _ _

/-- Decoding is only ever at types that have been compiled. -/
theorem covered_of_meets {limit left : Nat} {ty : FieldType}
    (h : registry.Meets root limit left ty) : registry.Covered root options ty := by
  induction h with
  | root => exact covered_root hok
  | element _ ih => exact ih.element
  | item _ hitem ih => exact ih.items.2 _ hitem
  | field _ hrecord hfield ih => exact (ih.field hok hrecord hfield).2

/-- What has been compiled is nothing to raise a schema error over. -/
theorem Registry.Covered.not_faulty {ty : FieldType} (h : registry.Covered root options ty)
    (e : SchemaError) : ¬registry.Faulty ty e := by
  intro hfaulty
  cases hfaulty with
  | variadic => exact h.ne_marker.1 rfl
  | unknownList => exact h.ne_marker.2 rfl
  | tuple he => cases he.symm.trans h.items.1
  | union he =>
    obtain ⟨literals, hliterals⟩ := h.literals
    cases he.symm.trans hliterals
  | record he =>
    obtain ⟨definition, hrecord⟩ := h.record hok
    cases he.symm.trans hrecord
  | override hrecord hfield he => cases he.symm.trans (h.field hok hrecord hfield).1

/-- Decoding by a schema that compiles runs into no schema error, whatever the payload is. -/
theorem decodeRecord_ne_schema (hf : registry.factories = ∅) (options' : SchemaOptions)
    (value : Json) (e : SchemaError) :
    decodeRecord registry root options' value ≠ .error (.schema e) := by
  intro he
  obtain ⟨left, ty, hmeets, hfaulty⟩ :=
    PayloadDecoder.decodeRecord_blames hf root options' value _ he
  exact (covered_of_meets hok hmeets).not_faulty hok e hfaulty

end

end RecordGrammar
