import RecordGrammar.Proofs.PayloadDecoding

/-! # What the errors of decoding are to blame on -/

namespace RecordGrammar

/-- The types that decoding can be at, each with the levels that are then left for it. The record at
the root is above the first level. -/
inductive Registry.Meets (registry : Registry) (root : String) (limit : Nat) :
    Nat → FieldType → Prop where
  | root : registry.Meets root limit (limit + 1) (.record root)
  | element {left element} : registry.Meets root limit (left + 1) (.list element) →
      registry.Meets root limit left element
  | item {left items item} : registry.Meets root limit (left + 1) (.tuple items) → item ∈ items →
      registry.Meets root limit left item
  | field {left name definition field} : registry.Meets root limit (left + 1) (.record name) →
      registry.record name = .ok definition → field ∈ definition.visibleFields →
      registry.Meets root limit left field.type

/-- What is wrong with a type in itself, its parts left aside. -/
inductive Registry.Faulty (registry : Registry) : FieldType → SchemaError → Prop where
  | variadic : registry.Faulty .variadic (.notARecord .variadic)
  | unknownList : registry.Faulty .unknownList .unresolvedListElement
  | tuple {items e} : checkTuple items = .error e → registry.Faulty (.tuple items) e
  | union {members e} : unionLiterals members = .error e → registry.Faulty (.union members) e
  | record {name e} : registry.record name = .error e → registry.Faulty (.record name) e
  | override {name definition field e} : registry.record name = .ok definition →
      field ∈ definition.visibleFields → field.checkOverride = .error e →
      registry.Faulty (.record name) e

/-- An error that the schema is to blame for has its cause in it: a type that decoding can be at is
faulty, or there is no level left for one. -/
def Registry.Blamed (registry : Registry) (root : String) (limit : Nat) : PayloadError → Prop
  | .schema e => ∃ left ty, registry.Meets root limit left ty ∧ registry.Faulty ty e
  | .depthExceeded _ _ => ∃ ty, registry.Meets root limit 0 ty
  | _ => True

/-- If there is an error, it is of a kind. -/
def Only {α : Type} (P : PayloadError → Prop) (result : Decoding α) : Prop :=
  ∀ e, result = .error e → P e

namespace Only

variable {α β : Type} {P : PayloadError → Prop} {result : Decoding α}

theorem ok (a : α) : Only P (.ok a : Decoding α) := fun _ h => by cases h

theorem error {e : PayloadError} (h : P e) : Only P (.error e : Decoding α) := fun _ he => by
  cases he
  exact h

theorem bind {f : α → Decoding β} (h : Only P result) (hf : ∀ a, result = .ok a → Only P (f a)) :
    Only P (result >>= f) := by
  cases result with
  | ok a => exact hf a rfl
  | error e => exact .error (h e rfl)

theorem map {f : α → β} (h : Only P result) : Only P (result.map f) := by
  cases result with
  | ok a => exact .ok (f a)
  | error e => exact .error (h e rfl)

theorem mapM {f : α → Decoding β} {as : List α} (h : ∀ a ∈ as, Only P (f a)) :
    Only P (as.mapM f) :=
  mapM_holds (P := fun _ => Only P) .ok (fun _ _ _ h hf => h.bind fun a _ => hf a) h

theorem ofSchema {result : Except SchemaError α} (h : ∀ e, result = .error e → P (.schema e)) :
    Only P (ofSchema result) := by
  cases result with
  | ok a => exact .ok a
  | error e => exact .error (h e rfl)

theorem expect {site : DecodeSite} {ty : FieldType} {value : Json} {view : Option α}
    (h : P (.typeMismatch site.path ty.text value)) : Only P (site.expect ty value view) := by
  cases view with
  | none => exact .error h
  | some a => exact .ok a

/-- Items in position `k` are decoded `k` places on from where the items begin. -/
theorem itemsAt {decode : TypeDecoder} {site : DecodeSite} {other : String} {i : Nat}
    {types : List FieldType} {values : List Json}
    (h : ∀ k ty value, types[k]? = some ty → values[k]? = some value →
      Only P (decode (site.inside (.index (i + k))) other ty value)) :
    Only P (PayloadDecoder.items decode site other i types values) := by
  induction types generalizing i values with
  | nil => exact .ok []
  | cons ty types ih =>
    cases values with
    | nil => exact .ok []
    | cons value values =>
      have hfirst : Only P (decode (site.inside (.index i)) other ty value) := h 0 ty value rfl rfl
      have hrest : Only P (PayloadDecoder.items decode site other (i + 1) types values) :=
        ih fun k ty value hty hvalue => by
          rw [Nat.add_right_comm]
          exact h (k + 1) ty value hty hvalue
      exact hfirst.bind fun item _ => hrest.bind fun rest _ => .ok (item :: rest)

theorem items {decode : TypeDecoder} {site : DecodeSite} {other : String} {i : Nat}
    {types : List FieldType} {values : List Json}
    (h : ∀ ty ∈ types, ∀ i value, Only P (decode (site.inside (.index i)) other ty value)) :
    Only P (PayloadDecoder.items decode site other i types values) :=
  itemsAt fun _ ty value hty _ => h ty (List.mem_of_getElem? hty) _ value

end Only

namespace PayloadDecoder

variable {registry : Registry} {root : String} {limit : Nat}

/-- A record lays the blame on types met from it, as long as the decoder of its fields does. -/
theorem object_blames {left : Nat} {name : String}
    (h : registry.Meets root limit (left + 1) (.record name)) {decode : TypeDecoder}
    (hdecode : ∀ ty, registry.Meets root limit left ty → ∀ site other value,
      site.registry = registry → Only (registry.Blamed root limit) (decode site other ty value))
    {site : DecodeSite} (hsite : site.registry = registry) (other : String) (value : Json) :
    Only (registry.Blamed root limit) (object decode site other name value) := by
  unfold object
  rw [hsite]
  cases hrecord : registry.record name with
  | error e => exact .error ⟨_, _, h, .record hrecord⟩
  | ok definition =>
    cases value with
    | object members =>
      refine (Only.mapM fun f hf => ?_).bind fun fields _ => .ok _
      have hcheck : Only (registry.Blamed root limit) (ofSchema f.checkOverride) :=
        .ofSchema fun e he => ⟨_, _, h, .override hrecord hf he⟩
      refine hcheck.bind fun _ _ => ?_
      cases hlookup : members.lookup f.name with
      | none => exact .error trivial
      | some value =>
        have hfield := hdecode f.type (.field h hrecord hf) (site.inside (.field f.name)) other value
          hsite
        exact hfield.bind fun decoded _ => .ok (f.name, decoded)
    | _ => exact .error trivial

theorem member_blames (site : DecodeSite) (literals : List Literal) (value : Json) :
    Only (registry.Blamed root limit) (member site literals value) := by
  unfold member
  split
  · exact .ok _
  · exact .error trivial

/-- What goes wrong in the decoding of a type has its cause among the types met from there. -/
theorem type_blames (hf : registry.factories = ∅) {left : Nat} {ty : FieldType}
    (h : registry.Meets root limit left ty) {site : DecodeSite} (hsite : site.registry = registry)
    (other : String) (value : Json) :
    Only (registry.Blamed root limit) (type left site other ty value) := by
  induction left generalizing ty site other value with
  | zero => exact .error ⟨ty, h⟩
  | succ left ih =>
    have hhere (ty : FieldType) (hty : registry.Meets root limit left ty) (site : DecodeSite)
        (other : String) (value : Json) (hsite : site.registry = registry) :
        Only (registry.Blamed root limit) ((levels left).here site other ty value) :=
      ih hty hsite other value
    rw [type_succ]
    cases ty with
    | int => exact (Only.expect trivial).map
    | float => exact (Only.expect trivial).map
    | string => exact (Only.expect trivial).map
    | bool => exact (Only.expect trivial).map
    | variadic => exact .error ⟨_, _, h, .variadic⟩
    | unknownList => exact .error ⟨_, _, h, .unknownList⟩
    | list element =>
      refine (Only.expect trivial).bind fun values _ => (Only.items fun ty hty i value => ?_).bind
        fun decoded _ => .ok _
      obtain ⟨-, -, rfl⟩ := List.mem_map.1 hty
      exact hhere element (.element h) _ other value hsite
    | tuple types =>
      have hcheck : Only (registry.Blamed root limit) (ofSchema (checkTuple types)) :=
        .ofSchema fun e he => ⟨_, _, h, .tuple he⟩
      refine hcheck.bind fun _ _ => (Only.expect trivial).bind fun values _ => ?_
      split
      · exact (Only.items fun ty hty i value => hhere ty (.item h hty) _ other value hsite).bind
          fun decoded _ => .ok _
      · exact .error trivial
    | literal l => exact member_blames site [l] value
    | union members =>
      have hliterals : Only (registry.Blamed root limit) (ofSchema (unionLiterals members)) :=
        .ofSchema fun e he => ⟨_, _, h, .union he⟩
      exact hliterals.bind fun literals _ => member_blames site literals value
    | record name =>
      obtain ⟨other', hrecord⟩ := recordField_eq (levels left) site (hsite ▸ hf) other name value
      rw [typeLevel, hrecord]
      exact object_blames h hhere hsite other' value

/-- A schema error, or too deep a nesting, has its cause in the schema itself: if nothing that
decoding can be at is faulty, no payload runs into a schema error, and if there is always a level
left, none nests too deep. -/
theorem decodeRecord_blames (hf : registry.factories = ∅) (root : String) (options : SchemaOptions)
    (value : Json) :
    Only (registry.Blamed root options.maxDepth) (decodeRecord registry root options value) := by
  rw [decodeRecord_eq hf root]
  exact object_blames .root (fun ty hty site other value hsite =>
    type_blames hf hty hsite other value) rfl root value

end PayloadDecoder

end RecordGrammar
