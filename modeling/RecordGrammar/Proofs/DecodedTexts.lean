import RecordGrammar.Proofs.PayloadDecoding
import RecordGrammar.Proofs.ScalarRendering
import RecordGrammar.Proofs.SchemaPlacement

/-! # The grammar of a record derives the text of every payload that is accepted -/

namespace RecordGrammar

mutual

/-- Every integer of a value fits 64 bits, with a sign or without. -/
def Json.IntegersFit : Json → Prop
  | .number (.int n) => n.natAbs < 2 ^ 64
  | .array items => Json.ItemsFit items
  | .object members => Json.MembersFit members
  | _ => True

def Json.ItemsFit : List Json → Prop
  | [] => True
  | item :: rest => item.IntegersFit ∧ Json.ItemsFit rest

def Json.MembersFit : List (String × Json) → Prop
  | [] => True
  | (_, value) :: rest => value.IntegersFit ∧ Json.MembersFit rest

end

namespace Json

theorem itemsFit_iff {items : List Json} : ItemsFit items ↔ ∀ item ∈ items, item.IntegersFit := by
  induction items with
  | nil => simp [ItemsFit]
  | cons item rest ih => simp [ItemsFit, ih]

theorem MembersFit.lookup {members : List (String × Json)} (h : MembersFit members) {name : String}
    {value : Json} (hvalue : members.lookup name = some value) : value.IntegersFit := by
  induction members with
  | nil => simp at hvalue
  | cons m rest ih =>
    obtain ⟨key, first⟩ := m
    rw [List.lookup_cons] at hvalue
    split at hvalue
    · exact Option.some.inj hvalue ▸ h.1
    · exact ih h.2 hvalue

end Json

theorem finite_of_double? {value : Json} (hfit : value.IntegersFit) {x : Double}
    (h : value.double? = some x) : ∃ y, x = .finite y := by
  match value, h with
  | .number (.int n), h =>
    cases h
    exact double_of_int (by simpa [Json.IntegersFit] using hfit)
  | .number (.float y), h =>
    cases h
    exact ⟨y, rfl⟩

theorem items_fit {value : Json} (hfit : value.IntegersFit) {items : List Json}
    (h : value.array? = some items) : ∀ item ∈ items, item.IntegersFit := by
  match value, h with
  | .array _, rfl => exact Json.itemsFit_iff.1 (by simpa [Json.IntegersFit] using hfit)

theorem forall_of_forall₂ {α β : Type} {P : β → Prop} {as : List α} {bs : List β}
    (h : List.Forall₂ (fun _ b => P b) as bs) : ∀ b ∈ bs, P b := by
  induction h with
  | nil => simp
  | cons hb _ ih => exact List.forall_mem_cons.2 ⟨hb, ih⟩

namespace DecodedValue

theorem canonicalItems_eq (items : List DecodedValue) :
    canonicalItems items = items.map canonicalText := by
  induction items with
  | nil => rfl
  | cons item rest ih => rw [canonicalItems, ih, List.map_cons]

theorem toList_list (items : List DecodedValue) : (canonicalText (.list items)).toList =
    inBrackets (items.map fun d => d.canonicalText.toList) := by
  simp [canonicalText, canonicalItems_eq, inBrackets, joined, String.toList_intercalate,
    Function.comp_def]

theorem toList_tuple (items : List DecodedValue) : (canonicalText (.tuple items)).toList =
    inBrackets (items.map fun d => d.canonicalText.toList) := by
  simp [canonicalText, canonicalItems_eq, inBrackets, joined, String.toList_intercalate,
    Function.comp_def]

theorem toList_record (name : String) (fields : List (String × DecodedValue)) :
    (canonicalText (.record name fields)).toList =
      inBraces (fields.map fun f => entryText f.1 f.2.canonicalText.toList) := by
  have hfields : (canonicalFields fields).map String.toList =
      fields.map fun f => entryText f.1 f.2.canonicalText.toList := by
    induction fields with
    | nil => rfl
    | cons f rest ih => simp [canonicalFields, ih, entryText]
  simp [canonicalText, inBraces, joined, String.toList_intercalate, hfields]

end DecodedValue

section

variable {registry : Registry} {root : String} {options : SchemaOptions} {start : RuleHandle}
  {t : RuleTable}

/-- The decoder of a type gives values whose texts the rule of that type derives. -/
def Renders (registry : Registry) (root : String) (options : SchemaOptions) (t : RuleTable)
    (decode : TypeDecoder) : Prop :=
  ∀ site other ty value decoded handle, site.registry = registry → value.IntegersFit →
    registry.Placed root options ty handle → decode site other ty value = .ok decoded →
      t.Texts handle decoded.canonicalText.toList

open PayloadDecoder

theorem Renders.each {decode : TypeDecoder} (h : Renders registry root options t decode)
    {site : DecodeSite} (hsite : site.registry = registry) {other : String} {i : Nat}
    {types : List FieldType} {members : List RuleHandle} {values : List Json}
    {decoded : List DecodedValue}
    (hplaced : List.Forall₂ (registry.Placed root options) types members)
    (hlength : values.length = types.length) (hfit : ∀ value ∈ values, value.IntegersFit)
    (hdecode : items decode site other i types values = .ok decoded) :
    List.Forall₂ t.Texts members (decoded.map fun d => d.canonicalText.toList) := by
  induction hplaced generalizing i values decoded with
  | nil =>
    cases hdecode
    exact .nil
  | @cons ty member types members hty _ ih =>
    cases values with
    | nil => cases hlength
    | cons value values =>
      obtain ⟨hvalue, hfit⟩ := List.forall_mem_cons.1 hfit
      obtain ⟨item, rest, hitem, hrest, rfl⟩ := items_cons_eq_ok_iff.1 hdecode
      exact .cons (h (site.inside (.index i)) other ty value item member hsite hvalue hty hitem)
        (ih (by simpa using hlength) hfit hrest)

theorem Renders.field {decode : TypeDecoder} (h : Renders registry root options t decode)
    {site : DecodeSite} (hsite : site.registry = registry) {other : String} {f : Field}
    {row : String × RuleHandle} (hplaced : registry.Placed root options f.type row.2)
    {members : List (String × Json)} (hfit : Json.MembersFit members)
    {decoded : String × DecodedValue}
    (hdecode : PayloadDecoder.field decode site other f members = .ok decoded) :
    decoded.1 = f.name ∧ t.Texts row.2 decoded.2.canonicalText.toList := by
  obtain ⟨-, hname, value, hvalue, hfield⟩ := field_eq_ok_iff.1 hdecode
  exact ⟨hname, h (site.inside (.field f.name)) other f.type value decoded.2 row.2 hsite
    (hfit.lookup hvalue) hplaced hfield⟩

theorem Renders.fields {decode : TypeDecoder} (h : Renders registry root options t decode)
    {site : DecodeSite} (hsite : site.registry = registry) {other : String}
    {members : List (String × Json)} (hfit : Json.MembersFit members) {fs : List Field}
    {rows : List (String × RuleHandle)} {decoded : List (String × DecodedValue)}
    (hrows : List.Forall₂ (fun f row => row.1 = f.name ∧
      registry.Placed root options f.type row.2) fs rows)
    (hdecode : fs.mapM (PayloadDecoder.field decode site other · members) = .ok decoded) :
    List.Forall₂ (fun row (d : String × DecodedValue) =>
      d.1 = row.1 ∧ t.Texts row.2 d.2.canonicalText.toList) rows decoded := by
  have heach := Except.mapM_eq_ok_iff.1 hdecode
  clear hdecode
  induction heach generalizing rows with
  | nil =>
    cases hrows
    exact .nil
  | cons hfield _ ih =>
    cases hrows with
    | cons hrow hrows =>
      obtain ⟨hname, htext⟩ := h.field hsite hrow.2 hfit hfield
      exact .cons ⟨hname.trans hrow.1.symm, htext⟩ (ih hrows)

private theorem entries_eq {rows : List (String × RuleHandle)}
    {fields : List (String × DecodedValue)} {P : String × RuleHandle → String × DecodedValue → Prop}
    (h : List.Forall₂ (fun row d => d.1 = row.1 ∧ P row d) rows fields) :
    (fields.map fun f => entryText f.1 f.2.canonicalText.toList) =
      List.zipWith (fun row => entryText row.1) rows
        (fields.map fun f => f.2.canonicalText.toList) := by
  induction h with
  | nil => rfl
  | cons hd _ ih => simp [hd.1, ih]

section

variable (hok : (schemaPlan registry root options).outcome = .ok start)
  (h : t.HoldsActs (schemaPlan registry root options).acts)
  (hformat : ∀ f, registry.ReachesField root f → f.format = none)

include hok h hformat

theorem Renders.object {decode : TypeDecoder} (hdecode : Renders registry root options t decode)
    {site : DecodeSite} (hsite : site.registry = registry) {other name : String} {value : Json}
    {decoded : DecodedValue} (hname : registry.Reaches root (.record name))
    (hfit : value.IntegersFit) {definition : RecordSchema} {rows : List (String × RuleHandle)}
    (hrecord : registry.record name = .ok definition)
    (hrows : registry.PlacedRows root options definition rows)
    (hobject : PayloadDecoder.object decode site other name value = .ok decoded) :
    t.Texts (Fragment.object rows).handle decoded.canonicalText.toList := by
  obtain ⟨definition', members, fields, hdefinition, rfl, hfields, rfl⟩ :=
    object_eq_ok_iff.1 hobject
  rw [hsite, hrecord] at hdefinition
  cases hdefinition
  have htypes := hrows.types fun f hf => hformat f ⟨name, definition, hname, hrecord, hf⟩
  have heach := hdecode.fields hsite (by simpa [Json.IntegersFit] using hfit) htypes hfields
  rw [DecodedValue.toList_record, rows_texts hok h hrows]
  refine ⟨fields.map fun f => f.2.canonicalText.toList,
    List.forall₂_map_right_iff.2 (heach.imp fun _ _ hd => hd.2),
    congrArg inBraces (entries_eq heach)⟩

/-- Every level of the decoder gives values whose texts the grammar derives. -/
theorem renders_type (hf : registry.factories = ∅)
    (hliterals : ∀ l, registry.Reaches root (.literal l) → l.Clear) (left : Nat) :
    Renders registry root options t (PayloadDecoder.type left) := by
  induction left with
  | zero =>
    intro site other ty value decoded handle _ _ _ hdecode
    cases hdecode
  | succ left ih =>
    intro site other ty value decoded handle hsite hfit hplaced hdecode
    rw [PayloadDecoder.type_succ] at hdecode
    cases ty with
    | int =>
      obtain ⟨n, -, rfl⟩ := Except.map_eq_ok_iff.1 hdecode
      exact (number_placed h (.inl rfl) hplaced).2 (number_of_int n.toInt)
    | float =>
      obtain ⟨x, hx, rfl⟩ := Except.map_eq_ok_iff.1 hdecode
      obtain ⟨y, rfl⟩ := finite_of_double? hfit (DecodeSite.expect_eq_ok_iff.1 hx)
      exact (number_placed h (.inr rfl) hplaced).2 (number_of_double y)
    | string =>
      obtain ⟨s, -, rfl⟩ := Except.map_eq_ok_iff.1 hdecode
      exact (string_placed h hplaced).2 (jsonString_parts s)
    | bool =>
      obtain ⟨b, -, rfl⟩ := Except.map_eq_ok_iff.1 hdecode
      refine (bool_placed h hplaced).2 ?_
      cases b
      · exact .inr rfl
      · exact .inl rfl
    | variadic => exact absurd rfl hplaced.ne_marker.1
    | unknownList => exact absurd rfl hplaced.ne_marker.2
    | list element =>
      obtain ⟨values, decoded, rfl, hitems, rfl⟩ := list_eq_ok_iff.1 hdecode
      obtain ⟨inner, hinner, htexts⟩ := list_placed h hplaced
      have hall := items_fit hfit rfl
      have htypes : List.Forall₂ (registry.Placed root options) (values.map fun _ => element)
          (values.map fun _ => inner) :=
        List.forall₂_map_left_iff.2
          (List.forall₂_map_right_iff.2 (List.forall₂_same.2 fun _ _ => hinner))
      have heach := ih.each hsite htypes (by simp) hall hitems
      rw [htexts, DecodedValue.toList_list]
      exact ⟨_, forall_of_forall₂ (List.forall₂_map_left_iff.1 heach), rfl⟩
    | tuple types =>
      obtain ⟨values, decoded, -, rfl, hlength, hitems, rfl⟩ := tuple_eq_ok_iff.1 hdecode
      obtain ⟨-, members, hmembers, htexts⟩ := tuple_placed h hplaced
      have hall := items_fit hfit rfl
      rw [htexts, DecodedValue.toList_tuple]
      exact ⟨_, ih.each hsite hmembers hlength hall hitems, rfl⟩
    | literal l =>
      obtain ⟨l', hl, rfl⟩ := PayloadDecoder.member_eq_ok hdecode
      obtain rfl := List.mem_singleton.1 hl
      exact (literal_placed h hplaced (hliterals _ hplaced.reaches)).2 rfl
    | union members =>
      obtain ⟨literals, hunion, htexts⟩ := union_placed h hplaced hliterals
      obtain ⟨literals', hliterals', hmember⟩ := union_eq_ok_iff.1 hdecode
      rw [hunion] at hliterals'
      cases hliterals'
      obtain ⟨l, hl, rfl⟩ := member_eq_ok hmember
      exact (htexts _).2 ⟨l, hl, rfl⟩
    | record name =>
      obtain ⟨definition, rows, hrecord, hrows, htexts⟩ := record_placed hok h hplaced
      obtain ⟨other', hfield⟩ := recordField_eq (levels left) site (by rw [hsite]; exact hf) other
        name value
      have hobject := hfield.symm.trans hdecode
      exact (htexts _).2 (Renders.object hok h hformat ih hsite hplaced.reaches hfit hrecord hrows
        hobject)

end

/-- Every payload that a record accepts has a canonical text that the grammar of the record derives,
as far as the fields have no formats, and neither a literal holds an apostrophe nor a field name an
opening angle bracket. -/
theorem compile_derives_canonicalText {s : Session} {options' : SchemaOptions} {value : Json}
    {decoded : DecodedValue} (hf : registry.factories = ∅)
    (hformat : ∀ f, registry.ReachesField root f → f.format = none)
    (hliterals : ∀ l, registry.Reaches root (.literal l) → l.Clear)
    (hnames : registry.NamesClear root)
    (hcompile : Session.compile {} registry root options = (.ok start, s))
    (hlog : Collisionless s.log) (hfit : value.IntegersFit)
    (hdecode : decodeRecord registry root options' value = .ok decoded) :
    s.table.Derives start decoded.canonicalText := by
  obtain ⟨hok, hbuilt⟩ := Session.built_of_compile hf hcompile
  have h := hbuilt.holdsActs hnames hok hlog
  obtain ⟨definition, rows, hrecord, hrows, htexts⟩ := start_placed hok h
  rw [PayloadDecoder.decodeRecord_eq hf root] at hdecode
  exact (htexts _).2 (Renders.object hok h hformat
    (renders_type hok h hformat hf hliterals options'.maxDepth) rfl .root hfit hrecord hrows hdecode)

theorem chain_link_derived : ∃ (start : RuleHandle) (s : Session),
    Session.compile {} (chain "next") "A" {} = (.ok start, s) ∧
      s.table.Derives start "\x7b\"next\": [\x7b\"next\": []\x7d]\x7d" := by
  let link : Json := .object [("next", .array [])]
  let decoded : DecodedValue := .record "A" [("next", .list [.record "A" [("next", .list [])]])]
  have hdecode : decodeRecord (chain "next") "A" {} (.object [("next", .array [link])]) =
      .ok decoded := rfl
  have htext : decoded.canonicalText = "\x7b\"next\": [\x7b\"next\": []\x7d]\x7d" := by
    decide +kernel
  have hderives := compile_derives_canonicalText (chain_factories "next")
    (fun f h => by rw [reachesField_chain h]) (chain_textsClear "next").literals
    (chain_namesClear (by decide)) compile_chain collisionless_chain
    (by simp [Json.IntegersFit, Json.MembersFit, Json.ItemsFit, link]) hdecode
  rw [htext] at hderives
  exact ⟨_, _, compile_chain, hderives⟩

end

end RecordGrammar
