import RecordGrammar.Proofs.AscendingKeys
import RecordGrammar.Proofs.ReencodedPayloads
import RecordGrammar.Proofs.TrimmedPayloads

/-! # Payloads that conform to a schema

Conformance says which values a type stands for, with no word on how they are decoded. A payload is
decoded if it conforms and does not nest too deep, and what it is decoded to is the payload itself,
trimmed to what the schema shows. -/

namespace RecordGrammar

/-- The payloads of a type. -/
inductive Registry.Conforms (registry : Registry) : FieldType → Json → Prop where
  | int {n : Int} : -2 ^ 63 ≤ n → n < 2 ^ 63 → registry.Conforms .int (.number (.int n))
  | float {n} : registry.Conforms .float (.number n)
  | string {s} : registry.Conforms .string (.string s)
  | bool {b} : registry.Conforms .bool (.bool b)
  | list {element items} : (∀ item ∈ items, registry.Conforms element item) →
      registry.Conforms (.list element) (.array items)
  | tuple {types items} : List.Forall₂ registry.Conforms types items →
      registry.Conforms (.tuple types) (.array items)
  | literal {l} : registry.Conforms (.literal l) l.toJson
  | union {members l} : .literal l ∈ members → registry.Conforms (.union members) l.toJson
  | record {name definition members} : registry.record name = .ok definition →
      (∀ f ∈ definition.visibleFields, (members.lookup f.name).isSome) →
      (∀ f ∈ definition.visibleFields, ∀ value, members.lookup f.name = some value →
        registry.Conforms f.type value) →
      registry.Conforms (.record name) (.object members)

namespace Json

mutual

/-- How deep a value nests: how many steps lead one from another into members or items. -/
def depth : Json → Nat
  | .array items => itemsDepth items
  | .object members => membersDepth members
  | _ => 0

def itemsDepth : List Json → Nat
  | [] => 0
  | item :: rest => max (item.depth + 1) (itemsDepth rest)

def membersDepth : List (String × Json) → Nat
  | [] => 0
  | (_, value) :: rest => max (value.depth + 1) (membersDepth rest)

end

theorem depth_lt_of_mem {items : List Json} {item : Json} (h : item ∈ items) :
    item.depth < (Json.array items).depth := by
  rw [depth]
  induction items with
  | nil => cases h
  | cons first rest ih =>
    rw [itemsDepth]
    rcases List.mem_cons.1 h with rfl | h
    · omega
    · have hrest := ih h
      omega

theorem depth_lt_of_lookup {members : List (String × Json)} {name : String} {value : Json}
    (h : members.lookup name = some value) : value.depth < (Json.object members).depth := by
  rw [depth]
  induction members with
  | nil => cases h
  | cons m rest ih =>
    obtain ⟨key, first⟩ := m
    rw [membersDepth]
    rw [lookup_cons_ite] at h
    split_ifs at h
    · cases h
      omega
    · have hrest := ih h
      omega

end Json

/-- The JSON of the double nearest to a number. -/
def Json.asDouble : JsonNumber → Json
  | .int n => DecodedValue.doubleToJson (.ofInt n)
  | .float x => .number (.float x)

/-- The parts of a decoded value, itself among them. -/
inductive DecodedValue.Inside (part : DecodedValue) : DecodedValue → Prop where
  | self : part.Inside part
  | listItem {items item} : item ∈ items → part.Inside item → part.Inside (.list items)
  | tupleItem {items item} : item ∈ items → part.Inside item → part.Inside (.tuple items)
  | field {name fields field} : field ∈ fields → part.Inside field.2 →
      part.Inside (.record name fields)

/-- Every record in a decoded value has the visible fields of its schema, in their order. -/
def Registry.Lists (registry : Registry) (decoded : DecodedValue) : Prop :=
  ∀ name fields, (DecodedValue.record name fields).Inside decoded →
    ∃ definition, registry.record name = .ok definition ∧
      fields.map Prod.fst = definition.visibleFields.map Field.name

variable {registry : Registry} {root : String} {options : SchemaOptions} {start : RuleHandle}

theorem int64?_eq_some_iff {n : Int} {k : Int64} : int64? n = some k ↔ k.toInt = n := by
  constructor
  · intro h
    unfold int64? at h
    split_ifs at h with hbounds
    cases h
    have hmax : Int64.maxValue.toInt = 2 ^ 63 - 1 := by decide
    exact Int64.toInt_ofInt_of_le hbounds.1 (by omega)
  · rintro rfl
    exact int64?_toInt k

theorem Json.eq_of_int64? {value : Json} {k : Int64} (h : value.int64? = some k) :
    value = .number (.int k.toInt) := by
  cases value with
  | number n =>
    cases n with
    | int n => rw [int64?_eq_some_iff.1 h]
    | float x => cases h
  | _ => cases h

theorem Json.eq_of_double? {value : Json} {x : Double} (h : value.double? = some x) :
    ∃ n, value = .number n ∧ DecodedValue.doubleToJson x = Json.asDouble n := by
  cases value with
  | number n =>
    refine ⟨n, rfl, ?_⟩
    cases n <;> cases h <;> rfl
  | _ => cases h

theorem Registry.trimmed_literal {atFloat : JsonNumber → Json} (l : Literal) (value : Json) :
    registry.trimmed atFloat (.literal l) value = value := by
  cases value <;> rfl

theorem Registry.trimmed_union {atFloat : JsonNumber → Json} (members : List FieldType)
    (value : Json) : registry.trimmed atFloat (.union members) value = value := by
  cases value <;> rfl

theorem Except.exists_mapM {ε α β : Type} {f : α → Except ε β} {as : List α}
    (h : ∀ a ∈ as, ∃ b, f a = .ok b) : ∃ bs, as.mapM f = .ok bs := by
  induction as with
  | nil => exact ⟨[], rfl⟩
  | cons a as ih =>
    obtain ⟨⟨b, hb⟩, has⟩ := List.forall_mem_cons.1 h
    obtain ⟨bs, hbs⟩ := ih has
    exact ⟨b :: bs, by rw [List.mapM_cons, hb, hbs]; rfl⟩

theorem Registry.keys_trimmedMembers {atFloat : JsonNumber → Json} (shown : List Field)
    (members : List (String × Json)) : ((registry.trimmedMembers atFloat shown members).map
      Prod.fst).Sublist (members.map Prod.fst) := by
  induction members with
  | nil => exact .slnil
  | cons m members ih =>
    obtain ⟨key, value⟩ := m
    rw [trimmedMembers]
    cases shown.find? (·.name = key) with
    | some f => exact ih.cons_cons key
    | none => exact ih.cons key

/-- What a value of a type has been decoded to. -/
structure Registry.Represents (registry : Registry) (ty : FieldType) (value : Json)
    (decoded : DecodedValue) : Prop where
  conforms : registry.Conforms ty value
  toJson : value.KeysAscend → decoded.toJson = registry.trimmed .asDouble ty value
  lists : registry.Lists decoded

namespace PayloadDecoder

/-- What a decoder gives represents the value that it was given. -/
def Faithful (registry : Registry) (root : String) (decode : TypeDecoder) : Prop :=
  ∀ site asked ty value decoded, site.registry = registry → registry.Reaches root ty →
    decode site asked ty value = .ok decoded → registry.Represents ty value decoded

variable {decode : TypeDecoder} {site : DecodeSite}

theorem Faithful.items (h : Faithful registry root decode) (hsite : site.registry = registry)
    {asked : String} {i : Nat} {types : List FieldType}
    (htypes : ∀ ty ∈ types, registry.Reaches root ty) {values : List Json}
    {decoded : List DecodedValue} (hlength : values.length = types.length)
    (hdecode : items decode site asked i types values = .ok decoded) :
    List.Forall₂ registry.Conforms types values ∧
      (Json.ItemsAscend values →
        decoded.map DecodedValue.toJson = registry.trimmedItems .asDouble types values) ∧
      ∀ d ∈ decoded, registry.Lists d := by
  induction types generalizing i values decoded with
  | nil =>
    obtain rfl := List.length_eq_zero_iff.1 hlength
    cases hdecode
    exact ⟨.nil, fun _ => rfl, by simp⟩
  | cons ty types ih =>
    cases values with
    | nil => cases hlength
    | cons value values =>
      obtain ⟨hty, htypes⟩ := List.forall_mem_cons.1 htypes
      obtain ⟨item, rest, hitem, hrest, rfl⟩ := items_cons_eq_ok_iff.1 hdecode
      have hfirst := h (site.inside (.index i)) asked ty value item hsite hty hitem
      obtain ⟨hconforms, htoJson, hlists⟩ := ih htypes (Nat.succ.inj hlength) hrest
      refine ⟨.cons hfirst.conforms hconforms, fun hkeys => ?_,
        List.forall_mem_cons.2 ⟨hfirst.lists, hlists⟩⟩
      rw [List.map_cons, Registry.trimmedItems, hfirst.toJson hkeys.1, htoJson hkeys.2]

/-- The fields of an object, each with the value that is held for it. -/
theorem Faithful.fields (h : Faithful registry root decode) (hsite : site.registry = registry)
    {asked : String} {members : List (String × Json)} {shown : List Field}
    (hshown : ∀ f ∈ shown, registry.Reaches root f.type) {fields : List (String × DecodedValue)}
    (hdecode : shown.mapM (field decode site asked · members) = .ok fields) :
    List.Forall₂ (fun f d => d.1 = f.name ∧ ∃ value, members.lookup f.name = some value ∧
      registry.Represents f.type value d.2) shown fields := by
  have heach := (List.forall₂_and_left _ _).2 ⟨fun _ hf => hf, Except.mapM_eq_ok_iff.1 hdecode⟩
  refine heach.imp fun f d hfield => ?_
  obtain ⟨-, hname, value, hvalue, hd⟩ := field_eq_ok_iff.1 hfield.2
  exact ⟨hname, value, hvalue, h (site.inside (.field f.name)) asked f.type value d.2 hsite
    (hshown f hfield.1) hd⟩

end PayloadDecoder

/-- The JSON of a record is its object without the keys that are not shown. -/
theorem Registry.toJson_record {shown : List Field} (hdistinct : (shown.map Field.name).Nodup)
    {members : List (String × Json)} (hkeys : (Json.object members).KeysAscend)
    {fields : List (String × DecodedValue)} (hfields : List.Forall₂ (fun f d => d.1 = f.name ∧
      ∃ value, members.lookup f.name = some value ∧ registry.Represents f.type value d.2)
      shown fields) (name : String) :
    (DecodedValue.record name fields).toJson =
      .object (registry.trimmedMembers .asDouble shown members) := by
  obtain ⟨hascend, hmembers⟩ : members.Pairwise (fun m m' => m.1 < m'.1) ∧
    Json.MembersAscend members := by simpa [Json.KeysAscend] using hkeys
  have htrimmed : (registry.trimmedMembers .asDouble shown members).Pairwise
      fun m m' => m.1 < m'.1 :=
    List.pairwise_map.1 ((List.pairwise_map.2 hascend).sublist (keys_trimmedMembers shown members))
  have hnames : (fields.map fun d => (d.1, d.2.toJson)).map Prod.fst = shown.map Field.name := by
    rw [List.map_map]
    exact map_eq_of_forall₂ (hfields.flip.imp fun d f hd => hd.1)
  rw [DecodedValue.toJson, DecodedValue.fieldsToJson_eq, Json.ofMembers]
  refine congrArg Json.object
    (eq_of_lookup_eq (foldl_insertMember_ascends _) htrimmed fun key => ?_)
  by_cases hkey : ∃ f ∈ shown, f.name = key
  · obtain ⟨f, hf, rfl⟩ := hkey
    obtain ⟨d, hd, hname, value, hvalue, hrepresents⟩ := exists_of_forall₂ hfields.flip f hf
    have hentry := @lookup_foldl _ [] (hnames ▸ hdistinct) (d.1, d.2.toJson)
      (List.mem_map.2 ⟨d, hd, rfl⟩)
    have hpart := Json.membersAscend_iff.1 hmembers _ (mem_of_lookup hvalue)
    rw [lookup_trimmedMembers_name hdistinct hf, hvalue, Option.map_some, ← hname, hentry,
      hrepresents.toJson hpart]
  · have hnone : shown.find? (·.name = key) = none := by simpa using hkey
    rw [lookup_trimmedMembers, hnone, lookup_foldl_other (by rw [hnames]; simpa using hkey)]
    rfl

theorem Registry.lists_record {name : String} {definition : RecordSchema}
    (hrecord : registry.record name = .ok definition) {fields : List (String × DecodedValue)}
    (hfields : List.Forall₂ (fun f d => d.1 = f.name ∧ registry.Lists d.2)
      definition.visibleFields fields) : registry.Lists (.record name fields) := by
  intro name' fields' hinside
  cases hinside with
  | self =>
    exact ⟨definition, hrecord, map_eq_of_forall₂ (hfields.flip.imp fun d f hd => hd.1)⟩
  | field hd hinside =>
    obtain ⟨f, -, -, hlists⟩ := exists_of_forall₂ hfields _ hd
    exact hlists name' fields' hinside

namespace PayloadDecoder

variable {decode : TypeDecoder} {site : DecodeSite} {value : Json} {decoded : DecodedValue}

theorem Faithful.object (h : Faithful registry root decode) (hsite : site.registry = registry)
    (hdistinct : registry.NamesDistinct root) {asked name : String}
    (hname : registry.Reaches root (.record name))
    (hdecode : object decode site asked name value = .ok decoded) :
    registry.Represents (.record name) value decoded := by
  obtain ⟨definition, members, fields, hrecord, rfl, hfields, rfl⟩ := object_eq_ok_iff.1 hdecode
  rw [hsite] at hrecord
  have heach := h.fields hsite (fun f hf => .field hname hrecord hf) hfields
  have hvalue : ∀ f ∈ definition.visibleFields, ∃ value, members.lookup f.name = some value ∧
      registry.Conforms f.type value := fun f hf => by
    obtain ⟨d, -, -, value, hvalue, hrepresents⟩ := exists_of_forall₂ heach.flip f hf
    exact ⟨value, hvalue, hrepresents.conforms⟩
  refine ⟨.record hrecord (fun f hf => ?_) (fun f hf value hlookup => ?_), fun hkeys => ?_, ?_⟩
  · obtain ⟨value, hlookup, -⟩ := hvalue f hf
    rw [hlookup]
    rfl
  · obtain ⟨value', hlookup', hconforms⟩ := hvalue f hf
    cases hlookup.symm.trans hlookup'
    exact hconforms
  · rw [Registry.trimmed, Registry.visibleFields_of_record hrecord]
    exact Registry.toJson_record (hdistinct name definition hname hrecord) hkeys heach name
  · refine Registry.lists_record hrecord (heach.imp fun f d hd => ⟨hd.1, ?_⟩)
    obtain ⟨-, value, -, hrepresents⟩ := hd
    exact hrepresents.lists

section Levels

variable {levels : DecodeLevels}

theorem Faithful.list (h : Faithful registry root levels.here) (hsite : site.registry = registry)
    {asked : String} {element : FieldType} (hty : registry.Reaches root (.list element))
    (hdecode : typeLevel levels site asked (.list element) value = .ok decoded) :
    registry.Represents (.list element) value decoded := by
  obtain ⟨values, inner, rfl, hitems, rfl⟩ := list_eq_ok_iff.1 hdecode
  have htypes : ∀ ty ∈ values.map fun _ => element, registry.Reaches root ty :=
    List.forall_mem_map.2 fun _ _ => hty.element
  obtain ⟨hconforms, htoJson, hlists⟩ := h.items hsite htypes (by simp) hitems
  refine ⟨.list ?_, fun hkeys => ?_, fun name fields hinside => ?_⟩
  · exact fun item hitem => List.forall₂_same.1 (List.forall₂_map_left_iff.1 hconforms) item hitem
  · rw [DecodedValue.toJson, DecodedValue.itemsToJson_eq, Registry.trimmed,
      htoJson (by simpa [Json.KeysAscend] using hkeys)]
  · cases hinside with
    | listItem hitem hinside => exact hlists _ hitem name fields hinside

theorem Faithful.tuple (h : Faithful registry root levels.here) (hsite : site.registry = registry)
    {asked : String} {types : List FieldType} (hty : registry.Reaches root (.tuple types))
    (hdecode : typeLevel levels site asked (.tuple types) value = .ok decoded) :
    registry.Represents (.tuple types) value decoded := by
  obtain ⟨values, inner, -, rfl, hlength, hitems, rfl⟩ := tuple_eq_ok_iff.1 hdecode
  obtain ⟨hconforms, htoJson, hlists⟩ := h.items hsite (fun ty => hty.item) hlength hitems
  refine ⟨.tuple hconforms, fun hkeys => ?_, fun name fields hinside => ?_⟩
  · rw [DecodedValue.toJson, DecodedValue.itemsToJson_eq, Registry.trimmed,
      htoJson (by simpa [Json.KeysAscend] using hkeys)]
  · cases hinside with
    | tupleItem hitem hinside => exact hlists _ hitem name fields hinside

end Levels

/-- Every level of the decoder gives what represents the payload. -/
theorem type_faithful (hf : registry.factories = ∅) (hdistinct : registry.NamesDistinct root)
    (left : Nat) : Faithful registry root (type left) := by
  induction left with
  | zero =>
    intro site asked ty value decoded _ _ hdecode
    cases hdecode
  | succ left ih =>
    intro site asked ty value decoded hsite hty hdecode
    rw [type_succ] at hdecode
    cases ty with
    | int =>
      obtain ⟨k, hk, rfl⟩ := Except.map_eq_ok_iff.1 hdecode
      obtain rfl := Json.eq_of_int64? (DecodeSite.expect_eq_ok_iff.1 hk)
      exact ⟨.int k.le_toInt k.toInt_lt, fun _ => rfl, fun _ _ h => nomatch h⟩
    | float =>
      obtain ⟨x, hx, rfl⟩ := Except.map_eq_ok_iff.1 hdecode
      obtain ⟨n, rfl, hn⟩ := Json.eq_of_double? (DecodeSite.expect_eq_ok_iff.1 hx)
      exact ⟨.float, fun _ => hn, fun _ _ h => nomatch h⟩
    | string =>
      obtain ⟨s, hs, rfl⟩ := Except.map_eq_ok_iff.1 hdecode
      obtain rfl := Json.eq_of_string? (DecodeSite.expect_eq_ok_iff.1 hs)
      exact ⟨.string, fun _ => rfl, fun _ _ h => nomatch h⟩
    | bool =>
      obtain ⟨b, hb, rfl⟩ := Except.map_eq_ok_iff.1 hdecode
      obtain rfl := Json.eq_of_bool? (DecodeSite.expect_eq_ok_iff.1 hb)
      exact ⟨.bool, fun _ => rfl, fun _ _ h => nomatch h⟩
    | variadic | unknownList => cases hdecode
    | list element => exact Faithful.list ih hsite hty hdecode
    | tuple types => exact Faithful.tuple ih hsite hty hdecode
    | literal l =>
      obtain ⟨l', hl, rfl⟩ := member_eq_ok hdecode
      obtain rfl := List.mem_singleton.1 hl
      obtain rfl := toJson_of_member hdecode
      exact ⟨.literal, fun _ => (Registry.trimmed_literal l' _).symm, fun _ _ h => nomatch h⟩
    | union members =>
      obtain ⟨literals, hunion, hmember⟩ := union_eq_ok_iff.1 hdecode
      obtain ⟨-, rfl⟩ := unionLiterals_eq_ok hunion
      obtain ⟨l, hl, rfl⟩ := member_eq_ok hmember
      obtain rfl := toJson_of_member hmember
      exact ⟨.union (List.mem_map_of_mem hl), fun _ => (Registry.trimmed_union _ _).symm,
        fun _ _ h => nomatch h⟩
    | record name =>
      obtain ⟨other, hother⟩ := recordField_eq (levels left) site (hsite ▸ hf) asked name value
      exact Faithful.object ih hsite hdistinct hty (hother.symm.trans hdecode)

/-- What conforms to a type that has been compiled is decoded, unless it nests as deep as the
bound. -/
def Accepting (registry : Registry) (root : String) (options : SchemaOptions) (bound : Nat)
    (decode : TypeDecoder) : Prop :=
  ∀ site asked ty value, site.registry = registry → registry.Covered root options ty →
    registry.Conforms ty value → value.depth < bound →
      ∃ decoded, decode site asked ty value = .ok decoded

theorem Accepting.items {bound : Nat} (h : Accepting registry root options bound decode)
    (hsite : site.registry = registry) (asked : String) (i : Nat) {types : List FieldType}
    (htypes : ∀ ty ∈ types, registry.Covered root options ty) {values : List Json}
    (hconforms : List.Forall₂ registry.Conforms types values)
    (hdepth : ∀ value ∈ values, value.depth < bound) :
    ∃ decoded, items decode site asked i types values = .ok decoded := by
  induction hconforms generalizing i with
  | nil => exact ⟨[], rfl⟩
  | cons hfirst _ ih =>
    obtain ⟨hty, htypes⟩ := List.forall_mem_cons.1 htypes
    obtain ⟨hvalue, hdepth⟩ := List.forall_mem_cons.1 hdepth
    obtain ⟨item, hitem⟩ := h (site.inside (.index i)) asked _ _ hsite hty hfirst hvalue
    obtain ⟨rest, hrest⟩ := ih (i + 1) htypes hdepth
    exact ⟨item :: rest, items_cons_eq_ok_iff.2 ⟨item, rest, hitem, hrest, rfl⟩⟩

theorem member_of_mem {literals : List Literal} {l : Literal} (hl : l ∈ literals)
    (site : DecodeSite) : ∃ decoded, member site literals l.toJson = .ok decoded := by
  unfold member
  cases hfind : literals.find? (·.holds l.toJson) with
  | some found => exact ⟨_, rfl⟩
  | none => exact absurd l.holds_toJson (List.find?_eq_none.1 hfind l hl)

section

variable (hok : (schemaPlan registry root options).outcome = .ok start)

include hok

theorem Accepting.object {bound : Nat} (h : Accepting registry root options bound decode)
    (hsite : site.registry = registry) (asked : String) {name : String}
    (hcovered : registry.Covered root options (.record name))
    (hconforms : registry.Conforms (.record name) value) (hdepth : value.depth ≤ bound) :
    ∃ decoded, object decode site asked name value = .ok decoded := by
  cases hconforms with
  | @record _ definition members hrecord hpresent heach =>
    obtain ⟨fields, hfields⟩ : ∃ fields,
        definition.visibleFields.mapM (field decode site asked · members) = .ok fields := by
      refine Except.exists_mapM fun f hf => ?_
      obtain ⟨hcheck, hty⟩ := hcovered.field hok hrecord hf
      obtain ⟨value, hvalue⟩ := Option.isSome_iff_exists.1 (hpresent f hf)
      have hless := Json.depth_lt_of_lookup hvalue
      obtain ⟨decoded, hdecoded⟩ := h (site.inside (.field f.name)) asked f.type value hsite hty
        (heach f hf value hvalue) (by omega)
      exact ⟨(f.name, decoded), field_eq_ok_iff.2 ⟨hcheck, rfl, value, hvalue, hdecoded⟩⟩
    exact ⟨.record name fields,
      object_eq_ok_iff.2 ⟨definition, members, fields, hsite ▸ hrecord, rfl, hfields, rfl⟩⟩

/-- Every level of the decoder takes what conforms and nests less deep than there are levels
left. -/
theorem type_accepting (hf : registry.factories = ∅) (left : Nat) :
    Accepting registry root options left (type left) := by
  induction left with
  | zero => exact fun site asked ty value _ _ _ hdepth => absurd hdepth (Nat.not_lt_zero _)
  | succ left ih =>
    intro site asked ty value hsite hcovered hconforms hdepth
    rw [type_succ]
    cases hconforms with
    | @int n hlow hhigh =>
      have hfits : int64? n = some (Int64.ofInt n) :=
        int64?_eq_some_iff.2 (Int64.toInt_ofInt_of_le hlow hhigh)
      exact ⟨_, Except.map_eq_ok_iff.2 ⟨_, DecodeSite.expect_eq_ok_iff.2 hfits, rfl⟩⟩
    | @float n => cases n <;> exact ⟨_, rfl⟩
    | string | bool => exact ⟨_, rfl⟩
    | @list element values hconforms =>
      have htypes : ∀ ty ∈ values.map fun _ => element, registry.Covered root options ty :=
        List.forall_mem_map.2 fun _ _ => hcovered.element
      have heach : List.Forall₂ registry.Conforms (values.map fun _ => element) values :=
        List.forall₂_map_left_iff.2 (List.forall₂_same.2 hconforms)
      obtain ⟨decoded, hdecoded⟩ := ih.items hsite asked 0 htypes heach fun v hv => by
        have hless := Json.depth_lt_of_mem hv
        omega
      exact ⟨.list decoded, list_eq_ok_iff.2 ⟨values, decoded, rfl, hdecoded, rfl⟩⟩
    | @tuple types values hconforms =>
      obtain ⟨hcheck, htypes⟩ := hcovered.items
      obtain ⟨decoded, hdecoded⟩ := ih.items hsite asked 0 htypes hconforms fun v hv => by
        have hless := Json.depth_lt_of_mem hv
        omega
      exact ⟨.tuple decoded, tuple_eq_ok_iff.2
        ⟨values, decoded, hcheck, rfl, hconforms.length_eq.symm, hdecoded, rfl⟩⟩
    | @literal l => exact member_of_mem (List.mem_singleton.2 rfl) site
    | @union members l hl =>
      obtain ⟨literals, hunion⟩ := hcovered.literals
      obtain ⟨-, rfl⟩ := unionLiterals_eq_ok hunion
      have hmem : l ∈ literals := by simpa using hl
      obtain ⟨decoded, hdecoded⟩ := member_of_mem hmem site
      exact ⟨decoded, union_eq_ok_iff.2 ⟨literals, hunion, hdecoded⟩⟩
    | @record name definition members hrecord hpresent heach =>
      obtain ⟨other, hother⟩ :=
        recordField_eq (levels left) site (hsite ▸ hf) asked name (.object members)
      obtain ⟨decoded, hdecoded⟩ := Accepting.object hok ih hsite other hcovered
        (.record hrecord hpresent heach) (Nat.le_of_lt_succ hdepth)
      exact ⟨decoded, hother.trans hdecoded⟩

end

end PayloadDecoder

theorem represents_of_decode (hf : registry.factories = ∅) (hdistinct : registry.NamesDistinct root)
    {options' : SchemaOptions} {value : Json} {decoded : DecodedValue}
    (h : decodeRecord registry root options' value = .ok decoded) :
    registry.Represents (.record root) value decoded := by
  rw [PayloadDecoder.decodeRecord_eq hf root] at h
  exact (PayloadDecoder.type_faithful hf hdistinct _).object rfl hdistinct .root h

/-- The keys of a payload that is read ascend, so nothing is left to ask of it. -/
theorem toJson_of_decodeText (hf : registry.factories = ∅) (hdistinct : registry.NamesDistinct root)
    {options' : SchemaOptions} {payload : String} {decoded : DecodedValue}
    (h : decodeText registry root options' payload = .ok decoded) :
    ∃ value, Json.ofText? payload = some value ∧
      decoded.toJson = registry.trimmed .asDouble (.record root) value := by
  obtain ⟨value, hread, hdecode⟩ := decodeText_eq_ok_iff.1 h
  exact ⟨value, hread,
    (represents_of_decode hf hdistinct hdecode).toJson (keysAscend_of_ofText? hread)⟩

/-- Decoding is exact. By a schema that compiles, with distinct names of fields, a payload that
nests no deeper than the limit is decoded exactly if it conforms. Whatever is decoded, at any limit,
has for its JSON the payload without the keys that the schema does not show and with floats where
floats are expected, as long as the keys of the objects ascend, as they do in every payload that is
read; and each of its records lists its visible fields in their order. -/
theorem decode_exact (hf : registry.factories = ∅) (hdistinct : registry.NamesDistinct root)
    {s : Session} (hcompile : Session.compile {} registry root options = (.ok start, s))
    (options' : SchemaOptions) (value : Json) :
    (value.depth ≤ options'.maxDepth →
      ((∃ decoded, decodeRecord registry root options' value = .ok decoded) ↔
        registry.Conforms (.record root) value)) ∧
    ∀ decoded, decodeRecord registry root options' value = .ok decoded →
      (value.KeysAscend → decoded.toJson = registry.trimmed .asDouble (.record root) value) ∧
      registry.Lists decoded := by
  obtain ⟨hok, -⟩ := Session.built_of_compile hf hcompile
  refine ⟨fun hdepth => ⟨?_, fun hconforms => ?_⟩, fun decoded hdecoded => ?_⟩
  · rintro ⟨decoded, hdecoded⟩
    exact (represents_of_decode hf hdistinct hdecoded).conforms
  · rw [PayloadDecoder.decodeRecord_eq hf root]
    exact (PayloadDecoder.type_accepting hok hf options'.maxDepth).object hok rfl root
      (covered_root hok) hconforms hdepth
  · have hrepresents := represents_of_decode hf hdistinct hdecoded
    exact ⟨hrepresents.toJson, hrepresents.lists⟩

set_option maxRecDepth 100000 in
theorem compile_gauge : (Session.compile {} gauge "Reading" {}).1 =
    .ok ⟨"__bjo_860d5ee89887ee41_decl"⟩ := by
  decide +kernel

/-- The reading nests two levels deep, and two levels are enough for it. The remark is dropped, and
the whole number becomes a float. An hour is no unit. -/
theorem gauge_decoded_exactly :
    let reading (unit : String) := Json.object [("remark", .null),
      ("units", .array [.string unit]), ("value", .number (.int 3))]
    gauge.Conforms (.record "Reading") (reading "s") ∧
      ¬gauge.Conforms (.record "Reading") (reading "h") ∧
      (∃ decoded, decodeRecord gauge "Reading" { maxDepth := 2 } (reading "s") = .ok decoded ∧
        decoded.toJson = .object [("units", .array [.string "s"]), ("value", .asDouble (.int 3))] ∧
        gauge.Lists decoded) ∧
      ¬∃ decoded, decodeRecord gauge "Reading" { maxDepth := 2 } (reading "h") = .ok decoded := by
  intro reading
  have hexact := decode_exact rfl gauge_namesDistinct (eq_mk_of_fst compile_gauge)
    { maxDepth := 2 }
  have hdepth (unit : String) : (reading unit).depth ≤ 2 := by
    simp [reading, Json.depth, Json.membersDepth, Json.itemsDepth]
  have hkeys : (reading "s").KeysAscend := by
    simp only [reading, Json.KeysAscend, Json.MembersAscend, Json.ItemsAscend, and_true]
    decide
  have hdecode : decodeRecord gauge "Reading" { maxDepth := 2 } (reading "s") =
    .ok (.record "Reading" [("value", .float (.ofInt 3)),
      ("units", .list [.literal (.string "s")])]) := rfl
  have hnone : ¬∃ decoded,
      decodeRecord gauge "Reading" { maxDepth := 2 } (reading "h") = .ok decoded := by
    rintro ⟨decoded, hdecoded⟩
    cases hdecoded
  obtain ⟨htoJson, hlists⟩ := (hexact (reading "s")).2 _ hdecode
  refine ⟨((hexact (reading "s")).1 (hdepth "s")).1 ⟨_, hdecode⟩,
    fun hconforms => hnone (((hexact (reading "h")).1 (hdepth "h")).2 hconforms),
    ⟨_, hdecode, ?_, hlists⟩, hnone⟩
  rw [htoJson hkeys]
  rfl

end RecordGrammar
