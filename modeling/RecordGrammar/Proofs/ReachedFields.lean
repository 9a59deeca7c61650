import RecordGrammar.Proofs.CompiledDecoding

/-! # The fields of a compiled schema, each with its rule -/

namespace RecordGrammar

variable {registry : Registry} {root : String} {options : SchemaOptions} {start : RuleHandle}

open Plan

/-- A field that the compilation of a schema has met, and the handle it got there. -/
def Registry.PlacedField (registry : Registry) (root : String) (options : SchemaOptions)
    (field : Field) (handle : RuleHandle) : Prop :=
  ∃ left stack, (Plan.field (type left) ⟨registry, options, stack⟩ field).outcome = .ok handle ∧
    (Plan.field (type left) ⟨registry, options, stack⟩ field).acts ⊆
      (schemaPlan registry root options).acts

/-- A field gets this rule wherever its compilation succeeds, and in this session it does. -/
structure Field.CompiledAs (field : Field) (rule : RuleHandle) (s : Session) : Prop where
  unique (left : Nat) (site : CompileSite) (name : String) (σ σ' : CompileState) (r : RuleHandle) :
    RecordCompiler.field (RecordCompiler.type left) site name field σ = .ok r σ' → r = rule
  again (left : Nat) (site : CompileSite) (name : String) (σ : CompileState) : σ.session = s →
    ∃ σ', RecordCompiler.field (RecordCompiler.type (left + 1)) site name field σ = .ok rule σ'

theorem Registry.PlacedField.check {field : Field} {handle : RuleHandle}
    (h : registry.PlacedField root options field handle) : field.checkOverride = .ok () := by
  obtain ⟨left, stack, houtcome, -⟩ := h
  obtain ⟨⟨⟩, hcheck, -⟩ := bind_outcome_ok_iff.1 houtcome
  exact hcheck

section

variable (hok : (schemaPlan registry root options).outcome = .ok start)

include hok

/-- What is reached has been compiled, but for the members of a union, which are literals. -/
theorem covered_of_reaches {ty : FieldType} (h : registry.Reaches root ty) :
    registry.Covered root options ty ∨ ∃ l, ty = .literal l := by
  induction h with
  | root => exact .inl (covered_root hok)
  | element _ ih => exact .inl (ih.resolve_right (by simp)).element
  | item _ hitem ih => exact .inl ((ih.resolve_right (by simp)).items.2 _ hitem)
  | member _ hmember ih =>
    obtain ⟨literals, hliterals⟩ := (ih.resolve_right (by simp)).literals
    obtain ⟨-, rfl⟩ := unionLiterals_eq_ok hliterals
    obtain ⟨l, -, rfl⟩ := List.mem_map.1 hmember
    exact .inr ⟨l, rfl⟩
  | field _ hrecord hfield ih =>
    exact .inl ((ih.resolve_right (by simp)).field hok hrecord hfield).2

theorem Registry.ReachesField.placed {field : Field} (h : registry.ReachesField root field) :
    ∃ handle, registry.PlacedField root options field handle := by
  obtain ⟨name, definition, hname, hrecord, hfield⟩ := h
  obtain ⟨_, hplaced⟩ :=
    ((covered_of_reaches hok hname).resolve_right (by simp)).resolve_right (by simp)
  obtain ⟨definition', left, stack, rule, hrecord', hrule, hbody⟩ := hplaced.body hok
  cases hrecord.symm.trans hrecord'
  obtain ⟨rows, hrows, -, hacts⟩ := outcome_of_fragment hrule
  unfold objectBody at hbody
  rw [hacts] at hbody
  obtain ⟨row, -, -, hrow, hsub⟩ :=
    exists_of_forall₂ (mapM_each hrows (List.append_subset.1 hbody).1).flip field hfield
  obtain ⟨handle, hhandle, -⟩ := bind_outcome_ok_iff.1 hrow
  rw [bind_of_outcome_ok hhandle] at hsub
  exact ⟨handle, left, stack, hhandle, List.Subset.trans (List.subset_append_left _ _) hsub⟩

end

/-- A schema of one record that has one field. -/
def Registry.lone (field : Field) : Registry where
  records := (∅ : Std.ExtTreeMap String RecordSchema).insert "A" ⟨[field], none⟩

theorem Registry.lone_reachesField (field : Field) (hvisible : field.derived = false) :
    (lone field).ReachesField "A" field :=
  ⟨"A", ⟨[field], none⟩, .root, by simp [record, lone], by simp [RecordSchema.visibleFields, hvisible]⟩

end RecordGrammar
