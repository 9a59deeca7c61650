import RecordGrammar.Proofs.DerivedPayloads
import RecordGrammar.Proofs.VisibleSchemas

/-! # Payloads without the keys that a schema does not show

A record is decoded from an object that may hold further keys. They are found at every place where
the schema expects a record, and they make no difference but to the value that an error reports. -/

namespace RecordGrammar

/-- The visible fields of a record. A record that is unknown has none. -/
def Registry.visibleFields (registry : Registry) (name : String) : List Field :=
  match registry.record name with
  | .ok definition => definition.visibleFields
  | .error _ => []

mutual

/-- A payload of a type without any key that is no visible field of the record that is expected
where the key stands. A number becomes what `atFloat` makes of it where a float is expected, and
stays as it is elsewhere. -/
def Registry.trimmed (registry : Registry) (atFloat : JsonNumber → Json) : FieldType → Json → Json
  | .float, .number n => atFloat n
  | .list element, .array items =>
    .array (registry.trimmedItems atFloat (items.map fun _ => element) items)
  | .tuple types, .array items => .array (registry.trimmedItems atFloat types items)
  | .record name, .object members =>
    .object (registry.trimmedMembers atFloat (registry.visibleFields name) members)
  | _, value => value

/-- Items at their types, position by position. -/
def Registry.trimmedItems (registry : Registry) (atFloat : JsonNumber → Json) :
    List FieldType → List Json → List Json
  | type :: types, item :: items =>
    registry.trimmed atFloat type item :: registry.trimmedItems atFloat types items
  | _, items => items

def Registry.trimmedMembers (registry : Registry) (atFloat : JsonNumber → Json)
    (fields : List Field) : List (String × Json) → List (String × Json)
  | [] => []
  | (key, value) :: members =>
    match fields.find? (·.name = key) with
    | some f =>
      (key, registry.trimmed atFloat f.type value) ::
        registry.trimmedMembers atFloat fields members
    | none => registry.trimmedMembers atFloat fields members

end

variable {registry : Registry} {root : String} {atFloat : JsonNumber → Json}

theorem Registry.length_trimmedItems (types : List FieldType) (items : List Json) :
    (registry.trimmedItems atFloat types items).length = items.length := by
  induction items generalizing types with
  | nil => cases types <;> rfl
  | cons item items ih =>
    cases types with
    | nil => rfl
    | cons ty types => rw [trimmedItems, List.length_cons, ih, List.length_cons]

theorem Registry.visibleFields_of_record {name : String} {definition : RecordSchema}
    (h : registry.record name = .ok definition) :
    registry.visibleFields name = definition.visibleFields := by
  rw [visibleFields, h]

theorem find?_name {fields : List Field} (hdistinct : (fields.map Field.name).Nodup) {f : Field}
    (hf : f ∈ fields) : fields.find? (·.name = f.name) = some f := by
  induction fields with
  | nil => cases hf
  | cons first rest ih =>
    rw [List.map_cons, List.nodup_cons] at hdistinct
    rcases List.mem_cons.1 hf with rfl | hf
    · simp
    · have hne : first.name ≠ f.name := fun he =>
        hdistinct.1 (he ▸ List.mem_map_of_mem (f := Field.name) hf)
      rw [List.find?_cons_of_neg (by simpa using hne), ih hdistinct.2 hf]

/-- What is left of an object holds a value for a visible field exactly if the object does. -/
theorem Registry.lookup_trimmedMembers (fields : List Field) (members : List (String × Json))
    (key : String) : (registry.trimmedMembers atFloat fields members).lookup key =
      (fields.find? (·.name = key)).bind fun f =>
        (members.lookup key).map (registry.trimmed atFloat f.type) := by
  induction members with
  | nil => cases fields.find? (·.name = key) <;> simp [trimmedMembers]
  | cons m members ih =>
    obtain ⟨k, value⟩ := m
    rw [trimmedMembers]
    by_cases hkey : k = key
    · subst hkey
      cases hfind : fields.find? (·.name = k) with
      | some f => simp
      | none => simp [ih, hfind]
    · rw [lookup_cons_ite, if_neg (Ne.symm hkey), ← ih]
      cases fields.find? (·.name = k) with
      | some f => exact lookup_cons_ite.trans (if_neg (Ne.symm hkey))
      | none => rfl

theorem Registry.lookup_trimmedMembers_name {fields : List Field}
    (hdistinct : (fields.map Field.name).Nodup) {f : Field} (hf : f ∈ fields)
    (members : List (String × Json)) :
    (registry.trimmedMembers atFloat fields members).lookup f.name =
      (members.lookup f.name).map (registry.trimmed atFloat f.type) := by
  rw [lookup_trimmedMembers, find?_name hdistinct hf, Option.bind_some]

/-- The same error with no value reported: its kind, its place and what was expected there. -/
def PayloadError.withoutActual : PayloadError → PayloadError
  | .typeMismatch path expected _ => .typeMismatch path expected .null
  | .notAMember path _ allowed => .notAMember path .null allowed
  | .missingField path _ => .missingField path .null
  | .arity path expected _ => .arity path expected []
  | e => e

/-- Decodings to the same value, or with errors that differ in the values that they report only. -/
def SameOutcome {α : Type} (result result' : Decoding α) : Prop :=
  result.mapError PayloadError.withoutActual = result'.mapError PayloadError.withoutActual

namespace SameOutcome

variable {α β : Type} {result result' : Decoding α}

theorem refl (result : Decoding α) : SameOutcome result result := rfl

theorem trans {result'' : Decoding α} (h : SameOutcome result result')
    (h' : SameOutcome result' result'') : SameOutcome result result'' := Eq.trans h h'

theorem symm (h : SameOutcome result result') : SameOutcome result' result := Eq.symm h

theorem error {e e' : PayloadError} (h : e.withoutActual = e'.withoutActual) :
    SameOutcome (.error e : Decoding α) (.error e') := congrArg Except.error h

theorem cases (h : SameOutcome result result') :
    (∃ a, result = .ok a ∧ result' = .ok a) ∨
      ∃ e e', result = .error e ∧ result' = .error e' ∧ e.withoutActual = e'.withoutActual := by
  cases result with
  | ok a =>
    cases result' with
    | ok a' => exact .inl ⟨a, rfl, congrArg Except.ok (Except.ok.inj h).symm⟩
    | error e' => cases h
  | error e =>
    cases result' with
    | ok a' => cases h
    | error e' => exact .inr ⟨e, e', rfl, rfl, Except.error.inj h⟩

theorem bind {f f' : α → Decoding β} (h : SameOutcome result result')
    (hf : ∀ a, SameOutcome (f a) (f' a)) : SameOutcome (result >>= f) (result' >>= f') := by
  rcases h.cases with ⟨a, rfl, rfl⟩ | ⟨e, e', rfl, rfl, he⟩
  · exact hf a
  · exact error he

theorem mapM {f f' : α → Decoding β} {as : List α} (h : ∀ a ∈ as, SameOutcome (f a) (f' a)) :
    SameOutcome (as.mapM f) (as.mapM f') :=
  mapM_related (R := fun _ => SameOutcome) (fun _ => refl _) (fun _ _ _ _ _ h hf => h.bind hf) h

end SameOutcome

namespace PayloadDecoder

/-- Trimming makes no difference to what a decoder ends in, whichever record the factory at work
was asked for. -/
def TrimmedAlike (registry : Registry) (root : String) (decode : TypeDecoder) : Prop :=
  ∀ site asked asked' ty value, site.registry = registry → registry.Reaches root ty →
    SameOutcome (decode site asked ty value)
      (decode site asked' ty (registry.trimmed .number ty value))

variable {decode : TypeDecoder} {site : DecodeSite}

theorem TrimmedAlike.items (h : TrimmedAlike registry root decode)
    (hsite : site.registry = registry) (asked asked' : String) (i : Nat) {types : List FieldType}
    (htypes : ∀ ty ∈ types, registry.Reaches root ty) (values : List Json) :
    SameOutcome (items decode site asked i types values)
      (items decode site asked' i types (registry.trimmedItems .number types values)) := by
  induction types generalizing i values with
  | nil => exact .refl _
  | cons ty types ih =>
    obtain ⟨hty, htypes⟩ := List.forall_mem_cons.1 htypes
    cases values with
    | nil => exact .refl _
    | cons value values =>
      rw [Registry.trimmedItems]
      exact (h (site.inside (.index i)) asked asked' ty value hsite hty).bind fun item =>
        (ih (i + 1) htypes values).bind fun rest => .refl _

theorem TrimmedAlike.field (h : TrimmedAlike registry root decode)
    (hsite : site.registry = registry) (asked asked' : String) {fields : List Field}
    (hfields : ∀ f ∈ fields, registry.Reaches root f.type)
    (hdistinct : (fields.map Field.name).Nodup) {f : Field} (hf : f ∈ fields)
    (members : List (String × Json)) : SameOutcome (field decode site asked f members)
      (field decode site asked' f (registry.trimmedMembers .number fields members)) := by
  unfold PayloadDecoder.field
  refine (SameOutcome.refl _).bind fun _ => ?_
  dsimp only
  rw [Registry.lookup_trimmedMembers_name hdistinct hf]
  cases members.lookup f.name with
  | none => exact .error rfl
  | some value =>
    have hvalue := h (site.inside (.field f.name)) asked asked' f.type value hsite (hfields f hf)
    exact hvalue.bind fun decoded => .refl _

theorem TrimmedAlike.object (h : TrimmedAlike registry root decode)
    (hsite : site.registry = registry) (hdistinct : registry.NamesDistinct root)
    (asked asked' : String) {name : String} (hname : registry.Reaches root (.record name))
    (value : Json) : SameOutcome (object decode site asked name value)
      (object decode site asked' name (registry.trimmed .number (.record name) value)) := by
  unfold PayloadDecoder.object
  rw [hsite]
  cases hrecord : registry.record name with
  | error e => exact .error rfl
  | ok definition =>
    cases value with
    | object members =>
      have hfields : SameOutcome
          (definition.visibleFields.mapM (PayloadDecoder.field decode site asked · members))
          (definition.visibleFields.mapM (PayloadDecoder.field decode site asked' ·
            (registry.trimmedMembers .number definition.visibleFields members))) :=
        .mapM fun f hf => h.field hsite asked asked' (fun f hf => .field hname hrecord hf)
          (hdistinct name definition hname hrecord) hf members
      rw [Registry.trimmed, Registry.visibleFields_of_record hrecord]
      exact hfields.bind fun fields => .refl _
    | _ => exact .error rfl

section Levels

variable {levels : DecodeLevels}

theorem TrimmedAlike.list (h : TrimmedAlike registry root levels.here)
    (hsite : site.registry = registry) (asked asked' : String) {element : FieldType}
    (hty : registry.Reaches root (.list element)) (value : Json) :
    SameOutcome (typeLevel levels site asked (.list element) value)
      (typeLevel levels site asked' (.list element)
        (registry.trimmed .number (.list element) value)) := by
  cases value with
  | array values =>
    have htypes : ∀ ty ∈ values.map fun _ => element, registry.Reaches root ty :=
      List.forall_mem_map.2 fun _ _ => hty.element
    rw [Registry.trimmed]
    have hkept : (registry.trimmedItems .number (values.map fun _ => element) values).length =
      values.length := Registry.length_trimmedItems _ _
    have hitems := h.items hsite asked asked' 0 htypes values
    generalize registry.trimmedItems .number (values.map fun _ => element) values = kept
      at hkept hitems ⊢
    -- As many items are left, so each of them has the type of the element again.
    have hconst : (kept.map fun _ => element) = values.map fun _ => element := by
      simp only [List.map_const', hkept]
    have hagain : SameOutcome
        (PayloadDecoder.items levels.here site asked 0 (values.map fun _ => element) values)
        (PayloadDecoder.items levels.here site asked' 0 (kept.map fun _ => element) kept) := by
      rw [hconst]
      exact hitems
    exact hagain.bind fun decoded => .refl _
  | _ => exact .error rfl

theorem TrimmedAlike.tuple (h : TrimmedAlike registry root levels.here)
    (hsite : site.registry = registry) (asked asked' : String) {types : List FieldType}
    (hty : registry.Reaches root (.tuple types)) (value : Json) :
    SameOutcome (typeLevel levels site asked (.tuple types) value)
      (typeLevel levels site asked' (.tuple types)
        (registry.trimmed .number (.tuple types) value)) := by
  refine (SameOutcome.refl _).bind fun _ => ?_
  cases value with
  | array values =>
    have hitems := h.items hsite asked asked' 0 (fun ty => hty.item) values
    rw [Registry.trimmed]
    change SameOutcome (if values.length = types.length then _ else _)
      (if (registry.trimmedItems .number types values).length = types.length then _ else _)
    rw [Registry.length_trimmedItems]
    split
    · exact hitems.bind fun decoded => .refl _
    · exact .error rfl
  | _ => exact .error rfl

end Levels

/-- Every level of the decoder ends alike in a payload and in what is left of it. -/
theorem type_trimmedAlike (hf : registry.factories = ∅) (hdistinct : registry.NamesDistinct root)
    (left : Nat) : TrimmedAlike registry root (type left) := by
  induction left with
  | zero => exact fun site asked asked' ty value _ _ => .refl _
  | succ left ih =>
    intro site asked asked' ty value hsite hty
    rw [type_succ, type_succ]
    cases ty with
    | int | string | bool | variadic | unknownList | literal l | union members =>
      cases value <;> exact .refl _
    | float => cases value <;> exact .refl _
    | list element => exact TrimmedAlike.list ih hsite asked asked' hty value
    | tuple types => exact TrimmedAlike.tuple ih hsite asked asked' hty value
    | record name =>
      have hfactories : site.registry.factories = ∅ := hsite ▸ hf
      obtain ⟨other, hother⟩ := recordField_eq (levels left) site hfactories asked name value
      obtain ⟨other', hother'⟩ := recordField_eq (levels left) site hfactories asked' name
        (registry.trimmed .number (.record name) value)
      rw [typeLevel, typeLevel, hother, hother']
      exact ih.object hsite hdistinct other other' hty value

end PayloadDecoder

theorem decodeRecord_trimmed (hf : registry.factories = ∅) (hdistinct : registry.NamesDistinct root)
    (options : SchemaOptions) (value : Json) : SameOutcome
      (decodeRecord registry root options value)
      (decodeRecord registry root options (registry.trimmed .number (.record root) value)) := by
  rw [PayloadDecoder.decodeRecord_eq hf root, PayloadDecoder.decodeRecord_eq hf root]
  exact (PayloadDecoder.type_trimmedAlike hf hdistinct _).object rfl hdistinct root root .root value

/-- Keys that the schema does not show are ignored. Where the names of fields are distinct, two
payloads that are the same once such keys are deleted are decoded to the same value, or refused with
errors of the same kind at the same place, for which the same was expected. -/
theorem decode_ignores_hidden_keys (hf : registry.factories = ∅)
    (hdistinct : registry.NamesDistinct root) (options : SchemaOptions) {value value' : Json}
    (h : registry.trimmed .number (.record root) value =
      registry.trimmed .number (.record root) value') :
    (∃ decoded, decodeRecord registry root options value = .ok decoded ∧
      decodeRecord registry root options value' = .ok decoded) ∨
    ∃ e e', decodeRecord registry root options value = .error e ∧
      decodeRecord registry root options value' = .error e' ∧
      e.withoutActual = e'.withoutActual := by
  have hvalue := decodeRecord_trimmed hf hdistinct options value
  rw [h] at hvalue
  exact (hvalue.trans (decodeRecord_trimmed hf hdistinct options value').symm).cases

theorem furnishedHousehold_namesDistinct : furnishedHousehold.NamesDistinct "Person" := by
  intro name definition _ hrecord
  simp only [Registry.record, furnishedHousehold, Std.ExtTreeMap.getElem?_insert] at hrecord
  split_ifs at hrecord
  · cases hrecord
    decide +kernel
  · cases hrecord
    decide +kernel
  · cases hrecord
    decide +kernel
  · simp at hrecord

/-- The derived field of a person and the name of a pet are hidden. They change nothing in what a
payload is decoded to, and nothing but the object that is reported if a pet has no owner. -/
theorem household_hidden_keys :
    let told := Json.object [("home", .string "hut"), ("pets",
      .array [.object [("name", .string "Rex"), ("owner", .object [("pets", .array [])])]])]
    let plain := Json.object [("pets",
      .array [.object [("owner", .object [("home", .null), ("pets", .array [])])]])]
    let stray := Json.object [("pets", .array [.object [("name", .string "Rex")]])]
    let nobody := Json.object [("pets", .array [.object []])]
    (∃ decoded, decodeRecord furnishedHousehold "Person" {} told = .ok decoded ∧
      decodeRecord furnishedHousehold "Person" {} plain = .ok decoded) ∧
    ∃ e e', decodeRecord furnishedHousehold "Person" {} stray = .error e ∧
      decodeRecord furnishedHousehold "Person" {} nobody = .error e' ∧
      e.withoutActual = e'.withoutActual ∧ e.actual? ≠ e'.actual? ∧
      e.path? = some [.field "pets", .index 0, .field "owner"] := by
  intro told plain stray nobody
  have hsame : furnishedHousehold.trimmed .number (.record "Person") told =
      furnishedHousehold.trimmed .number (.record "Person") plain := rfl
  have hsame' : furnishedHousehold.trimmed .number (.record "Person") stray =
      furnishedHousehold.trimmed .number (.record "Person") nobody := rfl
  constructor
  · apply (decode_ignores_hidden_keys rfl furnishedHousehold_namesDistinct {} hsame).resolve_right
    rintro ⟨e, e', he, -⟩
    cases he
  · obtain ⟨decoded, hdecoded, -⟩ | ⟨e, e', he, he', halike⟩ :=
      decode_ignores_hidden_keys rfl furnishedHousehold_namesDistinct {} hsame'
    · cases hdecoded
    · cases he
      cases he'
      exact ⟨_, _, rfl, rfl, halike, by simp [PayloadError.actual?], rfl⟩

end RecordGrammar
