import RecordGrammar.Proofs.PayloadDepth
import RecordGrammar.Proofs.ReadIntegers

/-! # Decoding what was decoded once more

The JSON of a decoded value differs from the payload it was decoded from: keys that no field asks
for are gone, and integers have become floats where floats are asked for. It is a payload again, and
decoded to the same value. -/

namespace RecordGrammar

variable {registry : Registry} {root : String} {options : SchemaOptions}

theorem int64?_toInt (n : Int64) : int64? n.toInt = some n := by
  rw [int64?, if_pos ⟨n.minValue_le_toInt, n.toInt_le⟩, Int64.ofInt_toInt]

namespace DecodedValue

theorem itemsToJson_eq (items : List DecodedValue) : itemsToJson items = items.map toJson := by
  induction items with
  | nil => rfl
  | cons item rest ih => rw [itemsToJson, ih, List.map_cons]

theorem fieldsToJson_eq (fields : List (String × DecodedValue)) :
    fieldsToJson fields = fields.map fun d => (d.1, d.2.toJson) := by
  induction fields with
  | nil => rfl
  | cons d rest ih => rw [fieldsToJson, ih, List.map_cons]

end DecodedValue

namespace PayloadDecoder

/-- A literal is decoded from its own JSON only. -/
theorem toJson_of_member {site : DecodeSite} {literals : List Literal} {value : Json}
    {decoded : DecodedValue} (h : member site literals value = .ok decoded) :
    decoded.toJson = value := by
  unfold member at h
  split at h
  · rename_i l hl
    cases h
    have hholds : l.holds value = true := by simpa using List.find?_some hl
    exact (Literal.holds_iff.1 hholds).symm
  · cases h

theorem length_of_items {decode : TypeDecoder} {site : DecodeSite} {asked : String} {i : Nat}
    {types : List FieldType} {values : List Json} {decoded : List DecodedValue}
    (hlength : values.length = types.length)
    (h : items decode site asked i types values = .ok decoded) : decoded.length = types.length := by
  induction types generalizing i values decoded with
  | nil =>
    obtain rfl := List.length_eq_zero_iff.1 hlength
    cases h
    rfl
  | cons ty types ih =>
    cases values with
    | nil => cases hlength
    | cons value values =>
      obtain ⟨item, rest, -, hrest, rfl⟩ := items_cons_eq_ok_iff.1 h
      exact congrArg (· + 1) (ih (Nat.succ.inj hlength) hrest)

/-- What is decoded is decoded from its own JSON as well, whichever record the factory at work was
asked for. -/
def Restores (registry : Registry) (root : String) (decode : TypeDecoder) : Prop :=
  ∀ site asked asked' ty value decoded, site.registry = registry → registry.Reaches root ty →
    value.IntegersFit → decode site asked ty value = .ok decoded →
      decode site asked' ty decoded.toJson = .ok decoded

variable {decode : TypeDecoder} {site : DecodeSite}

theorem Restores.items (h : Restores registry root decode) (hsite : site.registry = registry)
    (asked asked' : String) {i : Nat} {types : List FieldType}
    (htypes : ∀ ty ∈ types, registry.Reaches root ty) {values : List Json}
    (hfit : ∀ value ∈ values, value.IntegersFit) {decoded : List DecodedValue}
    (hdecode : PayloadDecoder.items decode site asked i types values = .ok decoded) :
    PayloadDecoder.items decode site asked' i types (decoded.map DecodedValue.toJson) =
      .ok decoded := by
  induction types generalizing i values decoded with
  | nil => exact hdecode
  | cons ty types ih =>
    cases values with
    | nil =>
      cases hdecode
      rfl
    | cons value values =>
      obtain ⟨hty, htypes⟩ := List.forall_mem_cons.1 htypes
      obtain ⟨hvalue, hfit⟩ := List.forall_mem_cons.1 hfit
      obtain ⟨item, rest, hitem, hrest, rfl⟩ := items_cons_eq_ok_iff.1 hdecode
      have hagain := h (site.inside (.index i)) asked asked' ty value item hsite hty hvalue hitem
      exact items_cons_eq_ok_iff.2 ⟨item, rest, hagain, ih htypes hfit hrest, rfl⟩

theorem Restores.object (h : Restores registry root decode) (hsite : site.registry = registry)
    (hdistinct : registry.NamesDistinct root) (asked asked' : String) {name : String}
    (hname : registry.Reaches root (.record name)) {value : Json} (hfit : value.IntegersFit)
    {decoded : DecodedValue}
    (hdecode : PayloadDecoder.object decode site asked name value = .ok decoded) :
    PayloadDecoder.object decode site asked' name decoded.toJson = .ok decoded := by
  obtain ⟨definition, members, fields, hrecord, rfl, hfields, rfl⟩ := object_eq_ok_iff.1 hdecode
  rw [hsite] at hrecord
  have heach := (List.forall₂_and_left _ _).2 ⟨fun _ hf => hf, Except.mapM_eq_ok_iff.1 hfields⟩
  have hkeys : fields.map Prod.fst = definition.visibleFields.map Field.name :=
    map_eq_of_forall₂ (heach.flip.imp fun d f hd => (field_eq_ok_iff.1 hd.2).2.1)
  -- The names are distinct, so each key of the new object leads to the field it was made for.
  obtain ⟨members', hobject, hkept⟩ :=
    membersKept_ofMembers (fields.map fun d => (d.1, d.2.toJson))
  have hlookup : ∀ d ∈ fields, members'.lookup d.1 = some d.2.toJson := by
    intro d hd
    refine hkept ?_ (d.1, d.2.toJson) (List.mem_map.2 ⟨d, hd, rfl⟩)
    rw [List.map_map]
    exact hkeys ▸ hdistinct name definition hname hrecord
  have hagain : definition.visibleFields.mapM
      (field decode site asked' · members') = .ok fields := by
    apply Except.mapM_eq_ok_iff.2
    have hboth := (List.forall₂_and_left _ _).2 ⟨fun _ hd => hd, heach.flip⟩
    refine hboth.flip.imp fun f d hd => ?_
    obtain ⟨hd, hf, hfield⟩ := hd
    obtain ⟨hcheck, hkey, value, hvalue, hdecode⟩ := field_eq_ok_iff.1 hfield
    refine field_eq_ok_iff.2 ⟨hcheck, hkey, d.2.toJson, hkey ▸ hlookup d hd, ?_⟩
    have hmembers : Json.MembersFit members := by simpa [Json.IntegersFit] using hfit
    exact h (site.inside (.field f.name)) asked asked' f.type value d.2 hsite
      (.field hname hrecord hf) (hmembers.lookup hvalue) hdecode
  rw [DecodedValue.toJson, DecodedValue.fieldsToJson_eq, hobject]
  exact object_eq_ok_iff.2 ⟨definition, members', fields, hsite ▸ hrecord, rfl, hagain, rfl⟩

section Levels

variable {levels : DecodeLevels} {value : Json} {decoded : DecodedValue}

theorem Restores.list (h : Restores registry root levels.here) (hsite : site.registry = registry)
    (asked asked' : String) {element : FieldType} (hty : registry.Reaches root (.list element))
    (hfit : value.IntegersFit)
    (hdecode : typeLevel levels site asked (.list element) value = .ok decoded) :
    typeLevel levels site asked' (.list element) decoded.toJson = .ok decoded := by
  obtain ⟨values, inner, rfl, hitems, rfl⟩ := list_eq_ok_iff.1 hdecode
  have hall := items_fit hfit rfl
  have htypes : ∀ ty ∈ values.map fun _ => element, registry.Reaches root ty :=
    List.forall_mem_map.2 fun _ _ => hty.element
  have hagain := h.items hsite asked asked' htypes hall hitems
  -- There are as many items as before, so each of them has the type of the element again.
  have hlength : inner.length = values.length := by
    simpa using length_of_items (by simp) hitems
  have hconst : (values.map fun _ => element) =
      (inner.map DecodedValue.toJson).map fun _ => element := by
    simp only [List.map_const', List.length_map, hlength]
  rw [hconst] at hagain
  rw [DecodedValue.toJson, DecodedValue.itemsToJson_eq]
  exact list_eq_ok_iff.2 ⟨_, inner, rfl, hagain, rfl⟩

theorem Restores.tuple (h : Restores registry root levels.here) (hsite : site.registry = registry)
    (asked asked' : String) {types : List FieldType} (hty : registry.Reaches root (.tuple types))
    (hfit : value.IntegersFit)
    (hdecode : typeLevel levels site asked (.tuple types) value = .ok decoded) :
    typeLevel levels site asked' (.tuple types) decoded.toJson = .ok decoded := by
  obtain ⟨values, inner, hcheck, rfl, hlength, hitems, rfl⟩ := tuple_eq_ok_iff.1 hdecode
  have hall := items_fit hfit rfl
  have hagain := h.items hsite asked asked' (fun ty => hty.item) hall hitems
  have hlength' : (inner.map DecodedValue.toJson).length = types.length := by
    rw [List.length_map, length_of_items hlength hitems]
  rw [DecodedValue.toJson, DecodedValue.itemsToJson_eq]
  exact tuple_eq_ok_iff.2 ⟨_, inner, hcheck, rfl, hlength', hagain, rfl⟩

end Levels

/-- Every level of the decoder decodes again what it has decoded. -/
theorem restores_type (hf : registry.factories = ∅) (hdistinct : registry.NamesDistinct root)
    (left : Nat) : Restores registry root (type left) := by
  induction left with
  | zero =>
    intro site asked asked' ty value decoded _ _ _ hdecode
    cases hdecode
  | succ left ih =>
    intro site asked asked' ty value decoded hsite hty hfit hdecode
    rw [type_succ] at hdecode ⊢
    cases ty with
    | int =>
      obtain ⟨n, -, rfl⟩ := Except.map_eq_ok_iff.1 hdecode
      exact Except.map_eq_ok_iff.2 ⟨n, DecodeSite.expect_eq_ok_iff.2 (int64?_toInt n), rfl⟩
    | float =>
      obtain ⟨x, hx, rfl⟩ := Except.map_eq_ok_iff.1 hdecode
      obtain ⟨y, rfl⟩ := finite_of_double? hfit (DecodeSite.expect_eq_ok_iff.1 hx)
      rfl
    | string =>
      obtain ⟨s, -, rfl⟩ := Except.map_eq_ok_iff.1 hdecode
      rfl
    | bool =>
      obtain ⟨b, -, rfl⟩ := Except.map_eq_ok_iff.1 hdecode
      rfl
    | variadic | unknownList => cases hdecode
    | list element => exact Restores.list ih hsite asked asked' hty hfit hdecode
    | tuple types => exact Restores.tuple ih hsite asked asked' hty hfit hdecode
    | literal l =>
      have hsame := toJson_of_member hdecode
      rw [hsame]
      exact hdecode
    | union members =>
      obtain ⟨literals, hunion, hmember⟩ := union_eq_ok_iff.1 hdecode
      have hsame := toJson_of_member hmember
      rw [hsame]
      exact hdecode
    | record name =>
      have hfactories : site.registry.factories = ∅ := hsite ▸ hf
      obtain ⟨other, hother⟩ := recordField_eq (levels left) site hfactories asked name value
      obtain ⟨other', hother'⟩ :=
        recordField_eq (levels left) site hfactories asked' name decoded.toJson
      exact hother'.trans (Restores.object ih hsite hdistinct other other' hty hfit
        (hother.symm.trans hdecode))

end PayloadDecoder

theorem decodeRecord_toJson (hf : registry.factories = ∅) (hdistinct : registry.NamesDistinct root)
    {value : Json} (hfit : value.IntegersFit) {decoded : DecodedValue}
    (hdecode : decodeRecord registry root options value = .ok decoded) :
    decodeRecord registry root options decoded.toJson = .ok decoded := by
  rw [PayloadDecoder.decodeRecord_eq hf root] at hdecode ⊢
  exact (PayloadDecoder.restores_type hf hdistinct _).object rfl hdistinct root root .root hfit
    hdecode

/-- Decoding is stable under encoding again. Where the names of fields are distinct, the JSON of
what a payload is decoded to is a payload that is decoded to the same value, whether the payload is
given as a value, of integers that fit 64 bits, or as a text. -/
theorem decode_toJson_stable (hf : registry.factories = ∅) (hdistinct : registry.NamesDistinct root)
    (options : SchemaOptions) :
    (∀ value decoded, value.IntegersFit →
      decodeRecord registry root options value = .ok decoded →
        decodeRecord registry root options decoded.toJson = .ok decoded) ∧
    ∀ payload decoded, decodeText registry root options payload = .ok decoded →
      decodeRecord registry root options decoded.toJson = .ok decoded := by
  refine ⟨fun value decoded hfit hdecode => decodeRecord_toJson hf hdistinct hfit hdecode, ?_⟩
  intro payload decoded hdecode
  obtain ⟨value, hread, hdecode⟩ := decodeText_eq_ok_iff.1 hdecode
  exact decodeRecord_toJson hf hdistinct (integersFit_of_ofText? hread) hdecode

/-- A value that was measured, with the unit it is given in. -/
def gauge : Registry where
  records := (∅ : Std.ExtTreeMap String RecordSchema).insert "Reading"
    ⟨[⟨"value", .float, false, none⟩,
      ⟨"units", .list (.union [.literal (.string "ms"), .literal (.string "s")]), false, none⟩],
      none⟩

theorem gauge_namesDistinct : gauge.NamesDistinct "Reading" := by
  intro name definition _ hrecord
  simp only [Registry.record, gauge, Std.ExtTreeMap.getElem?_insert] at hrecord
  split_ifs at hrecord
  · cases hrecord
    decide +kernel
  · simp at hrecord

/-- The whole number becomes a float, and the remark is dropped. -/
theorem gauge_decoded_again : ∃ decoded : DecodedValue,
    decodeRecord gauge "Reading" {} (.object [("remark", .null), ("units", .array [.string "s"]),
        ("value", .number (.int 3))]) = .ok decoded ∧
      decoded.toJson.compact = "\x7b\"units\":[\"s\"],\"value\":3.0\x7d" ∧
      decodeRecord gauge "Reading" {} decoded.toJson = .ok decoded := by
  have hdecode : decodeRecord gauge "Reading" {} (.object [("remark", .null),
      ("units", .array [.string "s"]), ("value", .number (.int 3))]) =
    .ok (.record "Reading" [("value", .float (.ofInt 3)),
      ("units", .list [.literal (.string "s")])]) := rfl
  refine ⟨_, hdecode, by decide +kernel, ?_⟩
  exact (decode_toJson_stable rfl gauge_namesDistinct {}).1 _ _
    (by simp [Json.IntegersFit, Json.MembersFit, Json.ItemsFit]) hdecode

end RecordGrammar
