import RecordGrammar.Proofs.IntegerTexts
import RecordGrammar.Proofs.ReachedFields

/-! # The texts of an integer field, and those of them that decode

A schema has one rule for all numbers. The decoder tells integers from floats by the way they are
written. -/

namespace RecordGrammar

variable {registry : Registry} {root : String} {options : SchemaOptions} {start : RuleHandle}
  {s : Session} {field : Field}

/-- An integer field is compiled as its type. -/
theorem Field.compile_int (hint : field.type = .int) (hcheck : field.checkOverride = .ok ())
    (fieldType : TypeCompiler) (site : CompileSite) (name : String) :
    RecordCompiler.field fieldType site name field = fieldType site name .int := by
  have hformat : field.format = none := by
    by_contra hne
    cases hint.symm.trans (eq_string_of_format hcheck hne)
  unfold RecordCompiler.field
  rw [hcheck, hformat, hint]
  rfl

theorem Field.compiledAs_number (hint : field.type = .int) (hcheck : field.checkOverride = .ok ())
    (hrules : s.table.HoldsRules .number) (hwf : s.table.WellFormed) :
    field.CompiledAs Fragment.number.handle s where
  unique left site name σ σ' r h := by
    rw [compile_int hint hcheck] at h
    cases left with
    | zero => cases h
    | succ left =>
      rw [RecordCompiler.type_succ] at h
      obtain ⟨_, hbuild, -⟩ := liftBuild_eq_ok h
      exact (Fragment.build_eq_ok (f := .number) hbuild).1
  again left site name σ hσ := by
    subst hσ
    rw [compile_int hint hcheck, RecordCompiler.type_succ]
    exact ⟨_, liftBuild_ok (hrules.build hwf)⟩

/-- A schema with an integer field has the rules of numbers in its table. -/
theorem Session.Built.holdsRules_number (hbuilt : s.Built (schemaPlan registry root options).acts)
    (hok : (schemaPlan registry root options).outcome = .ok start)
    (hfield : registry.ReachesField root field) (hint : field.type = .int) :
    s.table.HoldsRules .number := by
  obtain ⟨_, hplaced⟩ := ((covered_of_reaches hok hfield.type).resolve_right
    (by simp [hint])).resolve_right (by simp [hint])
  obtain ⟨left, stack, houtcome, hsub⟩ := (hint ▸ hplaced).level
  refine hbuilt.holdsRules (hsub (List.mem_singleton.2 rfl)) fun g _ hs => ?_
  have hkind := Fragment.ctorIdx_eq_of_stem_eq hs
  cases g <;> first | rfl | cases hkind

/-- An integer field derives all numbers, but of these those decode that are written as an integer of
64 bits is: none with a fraction or an exponent does, nor does a zero with a sign. -/
theorem int_field_decodes_iff (hf : registry.factories = ∅)
    (h : Session.compile {} registry root options = (.ok start, s))
    (hfield : registry.ReachesField root field) (hint : field.type = .int) :
    ∃ rule, field.CompiledAs rule s ∧
      (∀ text, s.table.Derives rule text ↔ NumberText text.toList) ∧
      ∀ text json, s.table.Derives rule text → Json.ofText? text = some json →
        ∀ (left : Nat) (site : DecodeSite) (name : String),
          (∃ decoded, PayloadDecoder.type (left + 1) site name .int json = .ok decoded) ↔
            ∃ k : Int64, text = (DecodedValue.int k).canonicalText := by
  obtain ⟨hok, hbuilt⟩ := Session.built_of_compile hf h
  have hrules := hbuilt.holdsRules_number hok hfield hint
  have hderives (text : String) :
      s.table.Derives Fragment.number.handle text ↔ NumberText text.toList := number_texts hrules
  obtain ⟨_, hplaced⟩ := hfield.placed hok
  refine ⟨_, Field.compiledAs_number hint hplaced.check hrules hbuilt.settled.wellFormed, hderives,
    fun text json htext hread left site name => ?_⟩
  exact decodes_int_iff ((hderives text).1 htext) hread left site name

def integerField : Field := ⟨"n", .int, false, none⟩

/-- What the compilation of a record with one integer leaves. -/
def integerSession : Session := (Session.compile {} (.lone integerField) "A" {}).2

set_option maxRecDepth 100000 in
theorem compile_integerField : Session.compile {} (.lone integerField) "A" {} =
    (.ok ⟨"__bjo_02a68daa503628b0_decl"⟩, integerSession) :=
  eq_mk_of_fst (by decide +kernel)

/-- The hypotheses hold of the record with one integer. -/
theorem integerField_decodes_iff :
    Session.compile {} (.lone integerField) "A" {} =
      (.ok ⟨"__bjo_02a68daa503628b0_decl"⟩, integerSession) ∧
    (Registry.lone integerField).ReachesField "A" integerField ∧
    ∃ rule, integerField.CompiledAs rule integerSession ∧
      (∀ text, integerSession.table.Derives rule text ↔ NumberText text.toList) ∧
      ∀ text json, integerSession.table.Derives rule text → Json.ofText? text = some json →
        ∀ (left : Nat) (site : DecodeSite) (name : String),
          (∃ decoded, PayloadDecoder.type (left + 1) site name .int json = .ok decoded) ↔
            ∃ k : Int64, text = (DecodedValue.int k).canonicalText :=
  ⟨compile_integerField, Registry.lone_reachesField _ rfl,
    int_field_decodes_iff rfl compile_integerField (Registry.lone_reachesField _ rfl) rfl⟩

/-- The rule of an integer field derives a text that is read as the number one and does not decode. -/
theorem int_field_refuses_one : ∃ x : FiniteDouble,
    integerField.CompiledAs Fragment.number.handle integerSession ∧
    integerSession.table.Derives Fragment.number.handle "1.0" ∧
    Json.ofText? "1.0" = some (.number (.float x)) ∧ Double.finite x = .ofInt 1 ∧
    PayloadDecoder.type 1 ⟨.lone integerField, {}, [.field "n"]⟩ "A" .int (.number (.float x)) =
      .error (.typeMismatch [.field "n"] "Int" (.number (.float x))) := by
  obtain ⟨hok, hbuilt⟩ := Session.built_of_compile rfl compile_integerField
  have hrules := hbuilt.holdsRules_number hok (Registry.lone_reachesField _ rfl) rfl
  have hnumber : NumberText "1.0".toList :=
    ⟨[], ['1'], ['.', '0'], [], .inl rfl, ⟨⟨by simp, forall_mem_of_all (by decide)⟩, by decide⟩,
      .inr ⟨['0'], ⟨by simp, forall_mem_of_all (by decide)⟩, rfl⟩, .inl rfl, rfl⟩
  have hread : Numeral.read "1.0".toList = some (⟨false, [1], [0], none⟩, []) := by decide +kernel
  let one : FiniteDouble := ⟨false, ⟨4607182418800017408, by decide⟩⟩
  have hvalue : Numeral.value ⟨false, [1], [0], none⟩ = some (.float one) := by decide +kernel
  refine ⟨one, Field.compiledAs_number rfl rfl hrules hbuilt.settled.wellFormed,
    (number_texts hrules).2 hnumber, ?_, by decide +kernel, rfl⟩
  exact (JsonReader.ofText?_number hnumber (by decide) hread).trans (by rw [hvalue]; rfl)

end RecordGrammar
