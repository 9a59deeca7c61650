import RecordGrammar.Proofs.MaskTexts
import RecordGrammar.Proofs.ReachedFields
import RecordGrammar.Proofs.TextLayouts

/-! # The texts of a masked field

The rule of a masked field puts quotes around the masked texts as they are, where a JSON string
escapes some characters. -/

namespace RecordGrammar

variable {registry : Registry} {root : String} {options : SchemaOptions} {start : RuleHandle}
  {s : Session} {field : Field} {mask : String}

/-- The fragment of a string field with a mask. -/
def Fragment.quotedMask (mask : String) : Fragment := .inQuotes (Fragment.maskedTime mask).handle

/-- A masked field is compiled as its mask in quotes. -/
theorem Field.compile_masked (hformat : field.format = some (.time mask))
    (hcheck : field.checkOverride = .ok ()) (fieldType : TypeCompiler) (site : CompileSite)
    (name : String) : RecordCompiler.field fieldType site name field =
      liftBuild (do JsonFragment.inQuotes (← Fragment.build (.maskedTime mask))) := by
  unfold RecordCompiler.field
  rw [hcheck, hformat]
  rfl

theorem Field.compiledAs_quotedMask (hformat : field.format = some (.time mask))
    (hcheck : field.checkOverride = .ok ()) (hmask : s.table.HoldsRules (.maskedTime mask))
    (hquotes : s.table.HoldsRules (.quotedMask mask)) (hwf : s.table.WellFormed) :
    field.CompiledAs (Fragment.quotedMask mask).handle s where
  unique left site name σ σ' r h := by
    rw [compile_masked hformat hcheck] at h
    obtain ⟨_, hbuild, -⟩ := liftBuild_eq_ok h
    obtain ⟨inner, _, hinner, houter⟩ := bind_eq_ok hbuild
    obtain ⟨rfl, -⟩ := Fragment.build_eq_ok hinner
    exact (Fragment.build_eq_ok (f := .quotedMask mask) houter).1
  again left site name σ hσ := by
    subst hσ
    have houter : (Fragment.quotedMask mask).build (σ.session.noting (Fragment.maskedTime mask).notes) =
        .ok (Fragment.quotedMask mask).handle _ := RuleTable.HoldsRules.build hquotes hwf
    rw [compile_masked hformat hcheck]
    exact ⟨_, liftBuild_ok ((bind_of_ok (hmask.build hwf)).trans houter)⟩

theorem Registry.PlacedField.quotedMask {handle : RuleHandle}
    (h : registry.PlacedField root options field handle) (hformat : field.format = some (.time mask)) :
    .fragment (.maskedTime mask) ∈ (schemaPlan registry root options).acts ∧
      .fragment (.quotedMask mask) ∈ (schemaPlan registry root options).acts := by
  obtain ⟨left, stack, houtcome, hsub⟩ := h
  obtain ⟨⟨⟩, hcheck, -⟩ := Plan.bind_outcome_ok_iff.1 houtcome
  unfold Plan.field at hsub
  rw [Plan.bind_of_outcome_ok hcheck, hformat] at hsub
  have hacts := (List.append_subset.1 hsub).2
  exact ⟨hacts (by simp [bind, Plan.fragment]),
    hacts (by simp [bind, Plan.fragment, Fragment.quotedMask])⟩

/-- Where no other text has the memo key of the mask, nor that of the rule of the mask, the table of
a schema has the rules of a masked field. -/
theorem Session.Built.holdsRules_quotedMask {handle : RuleHandle}
    (hbuilt : s.Built (schemaPlan registry root options).acts)
    (hplaced : registry.PlacedField root options field handle)
    (hformat : field.format = some (.time mask)) (hmask : KeyedApart s.log mask)
    (hinner : KeyedApart s.log (Fragment.maskedTime mask).handle.text) :
    s.table.HoldsRules (.maskedTime mask) ∧ s.table.HoldsRules (.quotedMask mask) := by
  obtain ⟨hinside, houtside⟩ := hplaced.quotedMask hformat
  constructor
  · refine hbuilt.holdsRules_of_apart hinside rfl hmask fun g hkind => ?_
    cases g <;> first | trivial | cases hkind
  · refine hbuilt.holdsRules_of_apart houtside rfl hinner fun g hkind => ?_
    cases g <;> first | trivial | cases hkind

/-- The texts of the rule of a masked field, in any table that holds the rule and that of the mask. -/
theorem derives_quotedMask_iff {t : RuleTable} (hmask : t.HoldsRules (.maskedTime mask))
    (hquotes : t.HoldsRules (.quotedMask mask)) (hclear : MaskClear mask) (text : String) :
    t.Derives (Fragment.quotedMask mask).handle text ↔
      ∃ inside, Masked mask inside ∧ text = "\"" ++ inside ++ "\"" := by
  refine (inQuotes_texts hquotes (Fragment.handle_plain _).referable).trans ?_
  simp only [mask_texts hmask hclear]
  constructor
  · rintro ⟨inside, hfills, htext⟩
    refine ⟨String.ofList inside, by rwa [Masked, String.toList_ofList], String.toList_inj.1 ?_⟩
    simp [htext]
  · rintro ⟨inside, hfills, rfl⟩
    exact ⟨inside.toList, hfills, by simp⟩

/-- A masked field derives the masked texts as they are, in quotes. These are the JSON texts of the
masked strings exactly where a JSON string escapes no character of the mask. -/
theorem masked_field_texts (hf : registry.factories = ∅)
    (h : Session.compile {} registry root options = (.ok start, s))
    (hfield : registry.ReachesField root field) (hformat : field.format = some (.time mask))
    (hclear : MaskClear mask) (hmask : KeyedApart s.log mask)
    (hinner : KeyedApart s.log (Fragment.maskedTime mask).handle.text) :
    ∃ rule, field.CompiledAs rule s ∧
      (∀ text, s.table.Derives rule text ↔
        ∃ inside, Masked mask inside ∧ text = "\"" ++ inside ++ "\"") ∧
      ((∀ text, s.table.Derives rule text ↔
        ∃ inside, Masked mask inside ∧ text = (DecodedValue.string inside).canonicalText) ↔
          ∀ c ∈ mask.toList, jsonEscapeChar c = [c]) := by
  obtain ⟨hok, hbuilt⟩ := Session.built_of_compile hf h
  obtain ⟨_, hplaced⟩ := hfield.placed hok
  obtain ⟨hmasks, hquotes⟩ := hbuilt.holdsRules_quotedMask hplaced hformat hmask hinner
  have hderives := derives_quotedMask_iff hmasks hquotes hclear
  refine ⟨_, Field.compiledAs_quotedMask hformat hplaced.check hmasks hquotes
    hbuilt.settled.wellFormed, hderives, ?_⟩
  simp only [hderives]
  exact masked_json_iff

/-- The mask of a height in feet and inches. -/
def heightMask : String := "%'%%\""

def height : Field := ⟨"height", .string, false, some (.time heightMask)⟩

/-- What the compilation of a record with a height leaves. -/
def heightSession : Session := (Session.compile {} (.lone height) "A" {}).2

set_option maxRecDepth 100000 in
theorem compile_height : Session.compile {} (.lone height) "A" {} =
    (.ok ⟨"__bjo_b80ea36680710a2d_decl"⟩, heightSession) :=
  eq_mk_of_fst (by decide +kernel)

set_option maxRecDepth 100000 in
theorem collisionless_height : Collisionless heightSession.log := by
  decide +kernel

theorem heightMask_clear : MaskClear heightMask := by
  unfold MaskClear
  decide +kernel

/-- Neither text that the rule of a height is keyed by has the memo key of another one. -/
theorem height_keys_apart : KeyedApart heightSession.log heightMask ∧
    KeyedApart heightSession.log (Fragment.maskedTime heightMask).handle.text := by
  obtain ⟨hok, hbuilt⟩ := Session.built_of_compile rfl compile_height
  obtain ⟨handle, hplaced⟩ := (Registry.lone_reachesField height rfl).placed hok
  obtain ⟨hinside, houtside⟩ := hplaced.quotedMask rfl
  exact ⟨collisionless_height.apart (hbuilt.keyed _ hinside _ rfl),
    collisionless_height.apart (hbuilt.keyed _ houtside _ rfl)⟩

/-- The hypotheses hold of the record with a height, the mask of which has a quote. -/
theorem height_texts :
    (KeyedApart heightSession.log heightMask ∧
      KeyedApart heightSession.log (Fragment.maskedTime heightMask).handle.text) ∧
    ∃ rule, height.CompiledAs rule heightSession ∧
      (∀ text, heightSession.table.Derives rule text ↔
        ∃ inside, Masked heightMask inside ∧ text = "\"" ++ inside ++ "\"") ∧
      ((∀ text, heightSession.table.Derives rule text ↔
        ∃ inside, Masked heightMask inside ∧ text = (DecodedValue.string inside).canonicalText) ↔
          ∀ c ∈ heightMask.toList, jsonEscapeChar c = [c]) :=
  ⟨height_keys_apart, masked_field_texts rfl compile_height (Registry.lone_reachesField _ rfl) rfl
    heightMask_clear height_keys_apart.1 height_keys_apart.2⟩

theorem canonicalText_ne_height (value : String) :
    (DecodedValue.string value).canonicalText ≠ "\"5'11\"\"" := by
  intro hvalue
  have hread := (JsonReader.reads_string value).ofText? (Nat.zero_le _)
  have hnone : (Json.ofText? "\"5'11\"\"").isSome = false := by decide +kernel
  rw [show jsonString value = "\"5'11\"\"" from hvalue] at hread
  rw [hread] at hnone
  cases hnone

/-- The rule of a height derives a text that is the JSON text of no string, and does not derive the
JSON text of the height. -/
theorem height_not_json :
    Masked heightMask "5'11\"" ∧ MaskClear heightMask ∧
      height.CompiledAs (Fragment.quotedMask heightMask).handle heightSession ∧
      heightSession.table.Derives (Fragment.quotedMask heightMask).handle "\"5'11\"\"" ∧
      (∀ value, (DecodedValue.string value).canonicalText ≠ "\"5'11\"\"") ∧
      ¬heightSession.table.Derives (Fragment.quotedMask heightMask).handle
        (DecodedValue.string "5'11\"").canonicalText := by
  obtain ⟨hok, hbuilt⟩ := Session.built_of_compile rfl compile_height
  obtain ⟨_, hplaced⟩ := (Registry.lone_reachesField height rfl).placed hok
  obtain ⟨hmasks, hquotes⟩ :=
    hbuilt.holdsRules_quotedMask hplaced rfl height_keys_apart.1 height_keys_apart.2
  have hderives := derives_quotedMask_iff hmasks hquotes heightMask_clear
  have hmasked : Masked heightMask "5'11\"" := by decide +kernel
  refine ⟨hmasked, heightMask_clear,
    Field.compiledAs_quotedMask rfl rfl hmasks hquotes hbuilt.settled.wellFormed,
    (hderives _).2 ⟨_, hmasked, rfl⟩, canonicalText_ne_height, fun hjson => ?_⟩
  obtain ⟨inside, hinside, htext⟩ := (hderives _).1 hjson
  have hlength : inside.toList.length = 5 := hinside.length_eq.symm
  have hquoted : (DecodedValue.string "5'11\"").canonicalText.toList.length = 8 := by
    decide +kernel
  rw [htext, String.toList_append, String.toList_append, List.length_append, List.length_append,
    hlength] at hquoted
  exact absurd hquoted (by decide)

end RecordGrammar
