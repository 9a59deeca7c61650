import RecordGrammar.Proofs.DecodingErrors
import RecordGrammar.Proofs.VisibleSchemas

/-! # Where the errors of decoding point

The path of an error leads to the value that was at fault, from the root of the payload on. The path
of a missing field goes one step further than the payload does. -/

namespace RecordGrammar

/-- The value that one step leads to. -/
def Json.step? : Json → PathStep → Option Json
  | .object members, .field name => members.lookup name
  | .array items, .index i => items[i]?
  | _, _ => none

/-- The value that a path leads to. -/
def Json.at? (value : Json) (path : PayloadPath) : Option Json := path.foldlM step? value

@[simp]
theorem Json.at?_nil (value : Json) : value.at? [] = some value := rfl

@[simp]
theorem Json.at?_append_singleton (value : Json) (path : PayloadPath) (step : PathStep) :
    value.at? (path ++ [step]) = (value.at? path).bind (·.step? step) := by
  simp [at?]

/-- The types that the schema has at a path. -/
inductive Registry.TypeAt (registry : Registry) (root : String) : PayloadPath → FieldType → Prop where
  | root : registry.TypeAt root [] (.record root)
  | element {path element i} : registry.TypeAt root path (.list element) →
      registry.TypeAt root (path ++ [.index i]) element
  | item {path types i ty} : registry.TypeAt root path (.tuple types) → types[i]? = some ty →
      registry.TypeAt root (path ++ [.index i]) ty
  | field {path name definition f} : registry.TypeAt root path (.record name) →
      registry.record name = .ok definition → f ∈ definition.visibleFields →
      registry.TypeAt root (path ++ [.field f.name]) f.type

/-- An error whose path leads to the value that it reports. Of a missing field it is the object
without it; a payload that nests too deep goes on at least as far as the path does. -/
def Registry.PointsInto (registry : Registry) (root : String) (payload : Json) :
    PayloadError → Prop
  | .typeMismatch path expected actual =>
    payload.at? path = some actual ∧ ∃ ty, registry.TypeAt root path ty ∧ expected = ty.text
  | .notAMember path actual _ => payload.at? path = some actual
  | .missingField path actual => ∃ above name members, path = above ++ [.field name] ∧
    payload.at? above = some actual ∧ actual = .object members ∧ members.lookup name = none
  | .arity path _ actual => payload.at? path = some (.array actual)
  | .depthExceeded path _ => (payload.at? path).isSome
  | .schema _ => True
  | .invalidJson => True

variable {registry : Registry} {root : String} {payload : Json}

/-- Decoding stands at a place of the payload, with the value and a type of that place. -/
structure DecodeSite.StandsAt (site : DecodeSite) (registry : Registry) (root : String)
    (payload : Json) (ty : FieldType) (value : Json) : Prop where
  registry_eq : site.registry = registry
  value : payload.at? site.path = some value
  type : registry.TypeAt root site.path ty

namespace DecodeSite.StandsAt

variable {site : DecodeSite} {value : Json} {items : List Json} {members : List (String × Json)}

theorem element {element : FieldType}
    (h : site.StandsAt registry root payload (.list element) (.array items)) {i : Nat}
    (hvalue : items[i]? = some value) :
    (site.inside (.index i)).StandsAt registry root payload element value where
  registry_eq := h.registry_eq
  value := by simp [inside, h.value, Json.step?, hvalue]
  type := .element h.type

theorem item {types : List FieldType} {ty : FieldType}
    (h : site.StandsAt registry root payload (.tuple types) (.array items)) {i : Nat}
    (hty : types[i]? = some ty) (hvalue : items[i]? = some value) :
    (site.inside (.index i)).StandsAt registry root payload ty value where
  registry_eq := h.registry_eq
  value := by simp [inside, h.value, Json.step?, hvalue]
  type := .item h.type hty

theorem field {name : String} {definition : RecordSchema} {f : Field}
    (h : site.StandsAt registry root payload (.record name) (.object members))
    (hrecord : registry.record name = .ok definition) (hf : f ∈ definition.visibleFields)
    (hvalue : members.lookup f.name = some value) :
    (site.inside (.field f.name)).StandsAt registry root payload f.type value where
  registry_eq := h.registry_eq
  value := by simp [inside, h.value, Json.step?, hvalue]
  type := .field h.type hrecord hf

theorem mismatch {ty : FieldType} (h : site.StandsAt registry root payload ty value) :
    registry.PointsInto root payload (.typeMismatch site.path ty.text value) :=
  ⟨h.value, ty, h.type, rfl⟩

end DecodeSite.StandsAt

namespace PayloadDecoder

/-- A decoder whose errors point into the payload, wherever it stands. -/
def Pointing (registry : Registry) (root : String) (payload : Json) (decode : TypeDecoder) : Prop :=
  ∀ site asked ty value, site.StandsAt registry root payload ty value →
    Only (registry.PointsInto root payload) (decode site asked ty value)

variable {decode : TypeDecoder} {site : DecodeSite} {value : Json}

theorem Pointing.object (h : Pointing registry root payload decode) (asked : String) {name : String}
    (hsite : site.StandsAt registry root payload (.record name) value) :
    Only (registry.PointsInto root payload) (object decode site asked name value) := by
  unfold PayloadDecoder.object
  rw [hsite.registry_eq]
  refine (Only.ofSchema fun _ _ => trivial).bind fun definition hrecord => ?_
  rw [ofSchema_eq_ok_iff] at hrecord
  cases value with
  | object members =>
    refine (Only.mapM fun f hf => ?_).bind fun fields _ => .ok _
    refine (Only.ofSchema fun _ _ => trivial).bind fun _ _ => ?_
    cases hlookup : members.lookup f.name with
    | none => exact .error ⟨site.path, f.name, members, rfl, hsite.value, rfl, hlookup⟩
    | some value =>
      have hfield := h (site.inside (.field f.name)) asked f.type value
        (hsite.field hrecord hf hlookup)
      exact hfield.bind fun decoded _ => .ok (f.name, decoded)
  | _ => exact .error hsite.mismatch

theorem member_points {ty : FieldType} (hsite : site.StandsAt registry root payload ty value)
    (literals : List Literal) :
    Only (registry.PointsInto root payload) (member site literals value) := by
  unfold member
  split
  · exact .ok _
  · exact .error hsite.value

/-- At every level the errors of the decoder point into the payload. -/
theorem type_pointing (hf : registry.factories = ∅) (left : Nat) :
    Pointing registry root payload (type left) := by
  induction left with
  | zero => exact fun site asked ty value hsite => .error (Option.isSome_of_eq_some hsite.value)
  | succ left ih =>
    intro site asked ty value hsite
    rw [type_succ]
    cases ty with
    | int | float | string | bool => exact (Only.expect hsite.mismatch).map
    | variadic | unknownList => exact .error trivial
    | list element =>
      refine (Only.expect hsite.mismatch).bind fun values hvalues => ?_
      obtain rfl := Json.eq_of_array? (DecodeSite.expect_eq_ok_iff.1 hvalues)
      refine (Only.itemsAt fun k ty value hty hvalue => ?_).bind fun decoded _ => .ok _
      obtain ⟨-, -, rfl⟩ := List.mem_map.1 (List.mem_of_getElem? hty)
      rw [Nat.zero_add]
      exact ih (site.inside (.index k)) asked element value (hsite.element hvalue)
    | tuple types =>
      refine (Only.ofSchema fun _ _ => trivial).bind fun _ _ => ?_
      refine (Only.expect hsite.mismatch).bind fun values hvalues => ?_
      obtain rfl := Json.eq_of_array? (DecodeSite.expect_eq_ok_iff.1 hvalues)
      split
      · refine (Only.itemsAt fun k ty value hty hvalue => ?_).bind fun decoded _ => .ok _
        rw [Nat.zero_add]
        exact ih (site.inside (.index k)) asked ty value (hsite.item hty hvalue)
      · exact .error hsite.value
    | literal l => exact member_points hsite [l]
    | union members =>
      exact (Only.ofSchema fun _ _ => trivial).bind fun literals _ => member_points hsite literals
    | record name =>
      obtain ⟨other, hother⟩ :=
        recordField_eq (levels left) site (hsite.registry_eq ▸ hf) asked name value
      rw [typeLevel, hother]
      exact ih.object other hsite

end PayloadDecoder

/-- The errors of decoding point at the culprit. The path of a mismatch, of a value that is none of
the literals and of an array of a wrong length leads to the value that is reported, and a mismatch
is with a type that the schema has there. The path of a missing field leads past the object that is
reported, by a key that it does not have. And where a payload nests too deep, there is a value. -/
theorem decode_error_points (hf : registry.factories = ∅) (options : SchemaOptions)
    {e : PayloadError} (h : decodeRecord registry root options payload = .error e) :
    registry.PointsInto root payload e := by
  have hroot : DecodeSite.StandsAt ⟨registry, options, []⟩ registry root payload (.record root)
    payload := ⟨rfl, rfl, .root⟩
  rw [PayloadDecoder.decodeRecord_eq hf root] at h
  exact (PayloadDecoder.type_pointing hf options.maxDepth).object root hroot e h

/-- The owner of the pet is no object, or one without pets, or the limit keeps the decoder from
looking. -/
theorem household_errors_point :
    let told (owner : Json) := Json.object [("pets", .array [.object [("owner", owner)]])]
    let path : PayloadPath := [.field "pets", .index 0, .field "owner"]
    (decodeRecord household "Person" {} (told .null) =
        .error (.typeMismatch path "Person" .null) ∧
      (told .null).at? path = some .null ∧
      ∃ ty, household.TypeAt "Person" path ty ∧ "Person" = ty.text) ∧
    (decodeRecord household "Person" {} (told (.object [])) =
        .error (.missingField (path ++ [.field "pets"]) (.object [])) ∧
      household.PointsInto "Person" (told (.object []))
        (.missingField (path ++ [.field "pets"]) (.object []))) ∧
    decodeRecord household "Person" { maxDepth := 2 } (told .null) =
        .error (.depthExceeded path 2) ∧
      ((told .null).at? path).isSome := by
  intro told path
  have hmismatch : decodeRecord household "Person" {} (told .null) =
    .error (.typeMismatch path "Person" .null) := rfl
  have hmissing : decodeRecord household "Person" {} (told (.object [])) =
    .error (.missingField (path ++ [.field "pets"]) (.object [])) := rfl
  have hdeep : decodeRecord household "Person" { maxDepth := 2 } (told .null) =
    .error (.depthExceeded path 2) := rfl
  exact ⟨⟨hmismatch, decode_error_points rfl {} hmismatch⟩,
    ⟨hmissing, decode_error_points rfl {} hmissing⟩,
    hdeep, decode_error_points rfl { maxDepth := 2 } hdeep⟩

end RecordGrammar
