import RecordGrammar.PayloadDecoder
import RecordGrammar.Proofs.CompilePlan
import Mathlib.Data.List.Forall2

/-! # What a payload that is accepted is decoded to -/

namespace RecordGrammar

theorem Except.bind_eq_ok_iff {ε α β : Type} {r : Except ε α} {f : α → Except ε β} {b : β} :
    r >>= f = .ok b ↔ ∃ a, r = .ok a ∧ f a = .ok b := by
  cases r with
  | ok a => simp [bind, Except.bind]
  | error e => simp [bind, Except.bind]

theorem Except.map_eq_ok_iff {ε α β : Type} {r : Except ε α} {f : α → β} {b : β} :
    r.map f = .ok b ↔ ∃ a, r = .ok a ∧ f a = b := by
  cases r <;> simp [Except.map]

theorem Except.mapM_eq_ok_iff {ε α β : Type} {f : α → Except ε β} {as : List α} {bs : List β} :
    as.mapM f = .ok bs ↔ List.Forall₂ (fun a b => f a = .ok b) as bs := by
  induction as generalizing bs with
  | nil => simp [pure, Except.pure, eq_comm]
  | cons a as ih =>
    rw [List.mapM_cons]
    constructor
    · intro h
      obtain ⟨b, hb, h⟩ := bind_eq_ok_iff.1 h
      obtain ⟨rest, hrest, h⟩ := bind_eq_ok_iff.1 h
      cases h
      exact .cons hb (ih.1 hrest)
    · intro h
      cases h with
      | cons hb hrest =>
        exact bind_eq_ok_iff.2 ⟨_, hb, bind_eq_ok_iff.2 ⟨_, ih.2 hrest, rfl⟩⟩

theorem mapM_congr {m : Type → Type} [Monad m] [LawfulMonad m] {α β : Type} {f g : α → m β}
    {as : List α} (h : ∀ a ∈ as, f a = g a) : as.mapM f = as.mapM g := by
  induction as with
  | nil => rfl
  | cons a as ih =>
    obtain ⟨ha, has⟩ := List.forall_mem_cons.1 h
    rw [List.mapM_cons, List.mapM_cons, ha, ih has]

theorem ofSchema_eq_ok_iff {α : Type} {result : Except SchemaError α} {a : α} :
    ofSchema result = .ok a ↔ result = .ok a := by
  cases result <;> simp [ofSchema]

theorem DecodeSite.expect_eq_ok_iff {α : Type} {site : DecodeSite} {ty : FieldType} {value : Json}
    {view : Option α} {a : α} : site.expect ty value view = .ok a ↔ view = some a := by
  cases view <;> simp [DecodeSite.expect, DecodeSite.mismatch]

theorem Json.eq_of_string? {value : Json} {s : String} (h : value.string? = some s) :
    value = .string s := by
  cases value <;> cases h
  rfl

theorem Json.eq_of_bool? {value : Json} {b : Bool} (h : value.bool? = some b) :
    value = .bool b := by
  cases value <;> cases h
  rfl

theorem Json.eq_of_array? {value : Json} {items : List Json} (h : value.array? = some items) :
    value = .array items := by
  cases value <;> cases h
  rfl

/-- A literal is one JSON value, and no other. -/
theorem Literal.holds_iff {l : Literal} {value : Json} :
    l.holds value = true ↔ value = l.toJson := by
  constructor
  · intro h
    cases l <;> cases value <;> simp [holds] at h
    case bool.bool b c => rw [h, toJson]
    case string.string s t => rw [h, toJson]
    case int.number n m =>
      cases m <;> simp at h
      rw [← h, toJson]
  · rintro rfl
    cases l <;> simp [holds, toJson]

namespace PayloadDecoder

theorem member_eq_ok {site : DecodeSite} {literals : List Literal} {value : Json}
    {decoded : DecodedValue} (h : member site literals value = .ok decoded) :
    ∃ l ∈ literals, decoded = .literal l := by
  unfold member at h
  split at h
  · rename_i l hl
    cases h
    exact ⟨l, List.mem_of_find?_eq_some hl, rfl⟩
  · cases h

/-- What a field of an object is decoded to. -/
theorem field_eq_ok_iff {decode : TypeDecoder} {site : DecodeSite} {root : String} {f : Field}
    {members : List (String × Json)} {decoded : String × DecodedValue} :
    field decode site root f members = .ok decoded ↔
      f.checkOverride = .ok () ∧ decoded.1 = f.name ∧ ∃ value, members.lookup f.name = some value ∧
        decode (site.inside (.field f.name)) root f.type value = .ok decoded.2 := by
  unfold field
  rw [Except.bind_eq_ok_iff]
  constructor
  · rintro ⟨_, hcheck, h⟩
    refine ⟨ofSchema_eq_ok_iff.1 hcheck, ?_⟩
    cases hvalue : members.lookup f.name with
    | none =>
      rw [hvalue] at h
      cases h
    | some value =>
      rw [hvalue] at h
      obtain ⟨d, hd, h⟩ := Except.bind_eq_ok_iff.1 h
      cases h
      exact ⟨rfl, value, rfl, hd⟩
  · rintro ⟨hcheck, hname, value, hvalue, hd⟩
    refine ⟨(), ofSchema_eq_ok_iff.2 hcheck, ?_⟩
    rw [hvalue]
    exact Except.bind_eq_ok_iff.2 ⟨decoded.2, hd, congrArg Except.ok (Prod.ext hname.symm rfl)⟩

section Accepted

variable {decode : TypeDecoder} {levels : DecodeLevels} {site : DecodeSite} {root : String}
  {value : Json} {decoded : DecodedValue}

theorem items_cons_eq_ok_iff {i : Nat} {ty : FieldType} {types : List FieldType}
    {values : List Json} {all : List DecodedValue} :
    items decode site root i (ty :: types) (value :: values) = .ok all ↔
      ∃ item rest, decode (site.inside (.index i)) root ty value = .ok item ∧
        items decode site root (i + 1) types values = .ok rest ∧ all = item :: rest := by
  rw [items, Except.bind_eq_ok_iff]
  constructor
  · rintro ⟨item, hitem, h⟩
    obtain ⟨rest, hrest, h⟩ := Except.bind_eq_ok_iff.1 h
    cases h
    exact ⟨item, rest, hitem, hrest, rfl⟩
  · rintro ⟨item, rest, hitem, hrest, rfl⟩
    exact ⟨item, hitem, Except.bind_eq_ok_iff.2 ⟨rest, hrest, rfl⟩⟩

/-- A record is decoded from an object only, by the fields that its schema shows. -/
theorem object_eq_ok_iff {name : String} :
    object decode site root name value = .ok decoded ↔
      ∃ definition members fields, site.registry.record name = .ok definition ∧
        value = .object members ∧
        definition.visibleFields.mapM (field decode site root · members) = .ok fields ∧
        decoded = .record name fields := by
  unfold object
  rw [Except.bind_eq_ok_iff]
  constructor
  · rintro ⟨definition, hrecord, h⟩
    cases value with
    | object members =>
      obtain ⟨fields, hfields, h⟩ := Except.bind_eq_ok_iff.1 h
      cases h
      exact ⟨definition, members, fields, ofSchema_eq_ok_iff.1 hrecord, rfl, hfields, rfl⟩
    | _ => cases h
  · rintro ⟨definition, members, fields, hrecord, rfl, hfields, rfl⟩
    refine ⟨definition, ofSchema_eq_ok_iff.2 hrecord, ?_⟩
    exact Except.bind_eq_ok_iff.2 ⟨fields, hfields, rfl⟩

theorem list_eq_ok_iff {element : FieldType} :
    typeLevel levels site root (.list element) value = .ok decoded ↔
      ∃ values inner, value = .array values ∧
        items levels.here site root 0 (values.map fun _ => element) values = .ok inner ∧
        decoded = .list inner := by
  rw [typeLevel, Except.bind_eq_ok_iff]
  constructor
  · rintro ⟨values, hvalues, h⟩
    obtain ⟨inner, hinner, h⟩ := Except.bind_eq_ok_iff.1 h
    cases h
    exact ⟨values, inner, Json.eq_of_array? (DecodeSite.expect_eq_ok_iff.1 hvalues), hinner, rfl⟩
  · rintro ⟨values, inner, rfl, hinner, rfl⟩
    exact ⟨values, rfl, Except.bind_eq_ok_iff.2 ⟨inner, hinner, rfl⟩⟩

theorem tuple_eq_ok_iff {types : List FieldType} :
    typeLevel levels site root (.tuple types) value = .ok decoded ↔
      ∃ values inner, checkTuple types = .ok () ∧ value = .array values ∧
        values.length = types.length ∧ items levels.here site root 0 types values = .ok inner ∧
        decoded = .tuple inner := by
  rw [typeLevel, Except.bind_eq_ok_iff]
  constructor
  · rintro ⟨_, hcheck, h⟩
    obtain ⟨values, hvalues, h⟩ := Except.bind_eq_ok_iff.1 h
    split_ifs at h with hlength
    obtain ⟨inner, hinner, h⟩ := Except.bind_eq_ok_iff.1 h
    cases h
    exact ⟨values, inner, ofSchema_eq_ok_iff.1 hcheck,
      Json.eq_of_array? (DecodeSite.expect_eq_ok_iff.1 hvalues), hlength, hinner, rfl⟩
  · rintro ⟨values, inner, hcheck, rfl, hlength, hinner, rfl⟩
    refine ⟨(), ofSchema_eq_ok_iff.2 hcheck, Except.bind_eq_ok_iff.2 ⟨values, rfl, ?_⟩⟩
    rw [if_pos hlength]
    exact Except.bind_eq_ok_iff.2 ⟨inner, hinner, rfl⟩

theorem union_eq_ok_iff {members : List FieldType} :
    typeLevel levels site root (.union members) value = .ok decoded ↔
      ∃ literals, unionLiterals members = .ok literals ∧
        member site literals value = .ok decoded := by
  rw [typeLevel, Except.bind_eq_ok_iff]
  simp only [ofSchema_eq_ok_iff]

end Accepted

/-- Without custom factories a field of a record type is an object, whichever record its factory
is asked for. -/
theorem recordField_eq (levels : DecodeLevels) (site : DecodeSite)
    (hf : site.registry.factories = ∅) (root name : String) (value : Json) :
    ∃ other, recordField levels site root name value =
      object levels.here site other name value := by
  unfold recordField
  by_cases hroot : name = root
  · exact ⟨root, by rw [if_pos hroot]⟩
  · rw [if_neg hroot]
    rcases Follows.factory?_eq hf name with h | h <;> rw [h]
    · exact ⟨root, rfl⟩
    · exact ⟨name, rfl⟩

/-- Without custom factories the payload itself is such an object. -/
theorem decodeRecord_eq {registry : Registry} (hf : registry.factories = ∅) (root : String)
    (options : SchemaOptions) (value : Json) :
    decodeRecord registry root options value =
      object (type options.maxDepth) ⟨registry, options, []⟩ root root value := by
  have hfactory : registry.factoryOrJson root = .json := by
    rcases Follows.factory?_eq hf root with h | h <;> simp [Registry.factoryOrJson, h]
  cases hrecord : registry.record root with
  | ok definition =>
    simp [decodeRecord, hrecord, ofSchema, hfactory, delegate, levels, bind, Except.bind]
  | error e => simp [decodeRecord, object, hrecord, ofSchema, bind, Except.bind]

end PayloadDecoder

theorem decodeText_eq_ok_iff {registry : Registry} {root : String} {options : SchemaOptions}
    {payload : String} {decoded : DecodedValue} :
    decodeText registry root options payload = .ok decoded ↔
      ∃ value, Json.ofText? payload = some value ∧
        decodeRecord registry root options value = .ok decoded := by
  unfold decodeText
  cases Json.ofText? payload <;> simp

end RecordGrammar
