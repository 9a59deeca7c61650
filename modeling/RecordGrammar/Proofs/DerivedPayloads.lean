import RecordGrammar.Proofs.DecodingErrors
import RecordGrammar.Proofs.JsonReading
import RecordGrammar.Proofs.TypeTexts

/-! # A payload that the grammar of a record derives is accepted -/

namespace RecordGrammar

/-- A decoding that gives a value, unless the payload nests too deep. -/
def Fits {α : Type} (limit : Nat) (result : Decoding α) : Prop :=
  (∃ a, result = .ok a) ∨ ∃ path, result = .error (.depthExceeded path limit)

namespace Fits

variable {α β : Type} {limit : Nat} {result : Decoding α}

theorem ok (a : α) : Fits limit (.ok a : Decoding α) := .inl ⟨a, rfl⟩

theorem iff_only :
    Fits limit result ↔ Only (fun e => ∃ path, e = .depthExceeded path limit) result := by
  cases result with
  | ok a => exact ⟨fun _ => .ok a, fun _ => .inl ⟨a, rfl⟩⟩
  | error e =>
    constructor
    · rintro (⟨a, ha⟩ | ⟨path, hpath⟩)
      · cases ha
      · exact .error ⟨path, Except.error.inj hpath⟩
    · intro h
      obtain ⟨path, rfl⟩ := h e rfl
      exact .inr ⟨path, rfl⟩

theorem bind {f : α → Decoding β} (h : Fits limit result)
    (hf : ∀ a, result = .ok a → Fits limit (f a)) : Fits limit (result >>= f) :=
  iff_only.2 ((iff_only.1 h).bind fun a ha => iff_only.1 (hf a ha))

theorem map {f : α → β} (h : Fits limit result) : Fits limit (f <$> result) :=
  iff_only.2 (iff_only.1 h).map

theorem mapM {f : α → Decoding β} {as : List α} (h : ∀ a ∈ as, Fits limit (f a)) :
    Fits limit (as.mapM f) :=
  iff_only.2 (.mapM fun a ha => iff_only.1 (h a ha))

end Fits

theorem PayloadDecoder.member_fits {limit : Nat} {site : DecodeSite} {literals : List Literal}
    {l : Literal} {value : Json} (hl : l ∈ literals) (hvalue : l.holds value = true) :
    Fits limit (member site literals value) := by
  have hsome : (literals.find? (·.holds value)).isSome = true :=
    List.find?_isSome.2 ⟨l, hl, hvalue⟩
  obtain ⟨found, hfound⟩ := Option.isSome_iff_exists.1 hsome
  exact .inl ⟨.literal found, by simp [member, hfound]⟩

section

variable {registry : Registry} {root : String} {options : SchemaOptions} {start : RuleHandle}
  {t : RuleTable} {limit : Nat}

/-- The decoder of a type takes every value that a text of the type denotes. -/
def Admits (registry : Registry) (root : String) (options : SchemaOptions) (t : RuleTable)
    (limit : Nat) (decode : TypeDecoder) : Prop :=
  ∀ site other ty value text, site.registry = registry → site.options.maxDepth = limit →
    TypeText registry root options t ty text → JsonText value text →
      Fits limit (decode site other ty value)

open PayloadDecoder

theorem Admits.items {decode : TypeDecoder} (hdecode : Admits registry root options t limit decode)
    {site : DecodeSite} (hsite : site.registry = registry ∧ site.options.maxDepth = limit)
    {other : String} {i : Nat} {types : List FieldType} {texts : List (List Char)}
    {values : List Json} (htypes : List.Forall₂ (TypeText registry root options t) types texts)
    (hvalues : List.Forall₂ JsonText values texts) :
    Fits limit (items decode site other i types values) := by
  induction htypes generalizing i values with
  | nil =>
    cases hvalues
    exact .ok []
  | cons hty _ ih =>
    cases hvalues with
    | cons hvalue hvalues =>
      have hitem := hdecode (site.inside (.index i)) other _ _ _ hsite.1 hsite.2 hty hvalue
      exact hitem.bind fun item _ => (ih hvalues).bind fun rest _ => .ok (item :: rest)

/-- The names of the visible fields of each record of a schema are distinct. -/
def Registry.NamesDistinct (registry : Registry) (root : String) : Prop :=
  ∀ name definition, registry.Reaches root (.record name) →
    registry.record name = .ok definition → (definition.visibleFields.map Field.name).Nodup

section

variable (hok : (schemaPlan registry root options).outcome = .ok start)
  (h : t.HoldsActs (schemaPlan registry root options).acts)
  (hformat : ∀ f, registry.ReachesField root f → f.format = none)
  (hclear : ∀ l, registry.Reaches root (.literal l) → l.Clear)
  (hdistinct : registry.NamesDistinct root)

include hok h hformat hclear hdistinct

theorem Admits.object {decode : TypeDecoder}
    (hdecode : Admits registry root options t limit decode) {site : DecodeSite}
    (hsite : site.registry = registry ∧ site.options.maxDepth = limit) {other name : String}
    {value : Json} {definition : RecordSchema} {text : List Char}
    (hname : registry.Reaches root (.record name))
    (hrecord : registry.record name = .ok definition)
    (htext : RecordText registry root options t definition text) (hvalue : JsonText value text) :
    Fits limit (object decode site other name value) := by
  obtain ⟨named, hnamed, rfl⟩ := htext
  have hnames : named.map Prod.fst = definition.visibleFields.map Field.name :=
    map_eq_of_forall₂ (hnamed.flip.imp fun _ _ h => h.1)
  have hbounds : ∀ row ∈ named, ValueLike row.2 := by
    intro row hrow
    obtain ⟨f, -, -, hty⟩ := exists_of_forall₂ hnamed row hrow
    exact hty.valueLike hok h hformat hclear
  obtain ⟨members, rfl, hmembers⟩ := hvalue.object_aligned hbounds
    (hnames ▸ hdistinct name definition hname hrecord)
  unfold PayloadDecoder.object
  rw [hsite.1, hrecord]
  refine (Fits.mapM fun f hf => ?_).bind fun fields _ => .ok (DecodedValue.record name fields)
  obtain ⟨row, hrow, hkey, hty⟩ := exists_of_forall₂ hnamed.flip f hf
  obtain ⟨value, hlookup, hjson⟩ := hmembers row hrow
  have hcheck : f.checkOverride = .ok () := by
    simp [Field.checkOverride, hformat f ⟨name, definition, hname, hrecord, hf⟩]
  have hfield := hdecode (site.inside (.field f.name)) other _ _ _ hsite.1 hsite.2 hty hjson
  unfold PayloadDecoder.field
  rw [hcheck, ← hkey, hlookup, hkey]
  exact hfield.bind fun decoded _ => .ok (f.name, decoded)

/-- Every level of the decoder takes what the grammar derives. -/
theorem admits_type (hf : registry.factories = ∅) (hint : ¬registry.Reaches root .int)
    (left : Nat) : Admits registry root options t limit (PayloadDecoder.type left) := by
  induction left with
  | zero =>
    intro site other ty value text _ hlimit _ _
    exact .inr ⟨site.path, by rw [← hlimit]; rfl⟩
  | succ left ih =>
    intro site other ty value text hregistry hlimit htext hvalue
    rw [PayloadDecoder.type_succ]
    cases ty with
    | int =>
      obtain ⟨handle, hplaced, -⟩ := htext
      exact absurd hplaced.reaches hint
    | float =>
      obtain ⟨n, rfl, -⟩ := hvalue.of_number (htext.number h (.inr rfl))
      cases n <;> exact .inl ⟨_, rfl⟩
    | string =>
      obtain ⟨parts, -, rfl⟩ := htext.string h
      obtain ⟨s, rfl, -⟩ := hvalue.of_quote
      exact .inl ⟨_, rfl⟩
    | bool =>
      obtain ⟨b, rfl⟩ := htext.bool h
      obtain rfl := hvalue.of_boolean
      exact .inl ⟨_, rfl⟩
    | variadic =>
      obtain ⟨handle, hplaced, -⟩ := htext
      exact absurd rfl hplaced.ne_marker.1
    | unknownList =>
      obtain ⟨handle, hplaced, -⟩ := htext
      exact absurd rfl hplaced.ne_marker.2
    | list element =>
      obtain ⟨items, hitems, rfl⟩ := htext.list h
      obtain ⟨values, rfl, hvalues⟩ := hvalue.array_aligned fun item hitem =>
        (hitems item hitem).valueLike hok h hformat hclear
      have htypes : List.Forall₂ (TypeText registry root options t) (values.map fun _ => element)
          items :=
        List.forall₂_map_left_iff.2
          (((List.forall₂_and_left _ _).2 ⟨hitems, hvalues.flip⟩).flip.imp fun _ _ h => h.1)
      exact (ih.items ⟨hregistry, hlimit⟩ htypes hvalues).bind fun decoded _ =>
        .ok (DecodedValue.list decoded)
    | tuple types =>
      obtain ⟨hcheck, items, hitems, rfl⟩ := htext.tuple h
      obtain ⟨values, rfl, hvalues⟩ := hvalue.array_aligned fun item hitem => by
        obtain ⟨ty, -, hty⟩ := exists_of_forall₂ hitems item hitem
        exact hty.valueLike hok h hformat hclear
      have hlength : values.length = types.length :=
        hvalues.length_eq.trans hitems.length_eq.symm
      rw [PayloadDecoder.typeLevel, hcheck]
      refine .bind (.ok ()) fun _ _ => .bind (.ok values) fun _ he => ?_
      cases he
      rw [if_pos hlength]
      exact (ih.items ⟨hregistry, hlimit⟩ hitems hvalues).bind fun decoded _ =>
        .ok (DecodedValue.tuple decoded)
    | literal l =>
      obtain ⟨handle, hplaced, -⟩ := id htext
      obtain rfl := htext.literal h (hclear l hplaced.reaches)
      exact PayloadDecoder.member_fits (List.mem_singleton.2 rfl) (Literal.holds_of_text hvalue)
    | union members =>
      obtain ⟨literals, hliterals, l, hl, rfl⟩ := htext.union h hclear
      simp only [PayloadDecoder.typeLevel, hliterals]
      exact PayloadDecoder.member_fits hl (Literal.holds_of_text hvalue)
    | record name =>
      obtain ⟨hname, definition, hrecord, hobject⟩ := htext.record h hok hformat
      obtain ⟨other', hfield⟩ := recordField_eq (levels left) site (by rw [hregistry]; exact hf)
        other name value
      refine (congrArg (Fits limit) hfield).mpr ?_
      exact Admits.object hok h hformat hclear hdistinct ih ⟨hregistry, hlimit⟩ hname hrecord
        hobject hvalue

end

/-- A reader of JSON accepts only the texts of RFC 8259, as values that they denote. -/
def ReadsJson (reader : String → Option Json) : Prop :=
  ∀ text value, reader text = some value → PaddedText value text.toList

theorem readsJson_ofText? : ReadsJson Json.ofText? := fun _ _ h => paddedText_of_ofText? h

section

variable {s : Session} {options' : SchemaOptions} (hf : registry.factories = ∅)
  (hint : ¬registry.Reaches root .int)
  (hformat : ∀ f, registry.ReachesField root f → f.format = none)
  (hclear : ∀ l, registry.Reaches root (.literal l) → l.Clear)
  (hdistinct : registry.NamesDistinct root) (hnames : registry.NamesClear root)
  (hcompile : Session.compile {} registry root options = (.ok start, s))
  (hlog : Collisionless s.log) {text : String} (hderives : s.table.Derives start text)

include hf hint hformat hclear hdistinct hnames hcompile hlog hderives

private theorem decode_fits {value : Json} (hvalue : PaddedText value text.toList) :
    Fits options'.maxDepth (decodeRecord registry root options' value) := by
  obtain ⟨hok, hbuilt⟩ := Session.built_of_compile hf hcompile
  have h := hbuilt.holdsActs hnames hok hlog
  obtain ⟨definition, rows, hrecord, hrows, htexts⟩ := start_placed hok h
  have hfields : ∀ f ∈ definition.visibleFields, f.format = none :=
    fun f hf => hformat f ⟨root, definition, .root, hrecord, hf⟩
  have htext := hrows.recordText hok h hfields ((htexts _).1 hderives)
  have hpadded : text.toList ++ [] = [] ++ (text.toList ++ []) := rfl
  obtain ⟨hinside, -⟩ := hvalue.aligned .nil .nil (htext.valueLike hok h hformat hclear) .nil hpadded
  rw [PayloadDecoder.decodeRecord_eq hf root]
  exact Admits.object hok h hformat hclear hdistinct
    (admits_type hok h hformat hclear hdistinct hf hint options'.maxDepth) ⟨rfl, rfl⟩ .root hrecord
    htext hinside

/-- A text that the grammar of a record derives is a payload that the record accepts, as far as a
reader takes it for JSON at all: decoding what was read fails by the depth limit only. -/
theorem decode_of_derives {reader : String → Option Json} (hreader : ReadsJson reader)
    {value : Json} (hread : reader text = some value) :
    (∃ decoded, decodeRecord registry root options' value = .ok decoded) ∨
      ∃ path, decodeRecord registry root options' value =
        .error (.depthExceeded path options'.maxDepth) :=
  decode_fits hf hint hformat hclear hdistinct hnames hcompile hlog hderives
    (hreader text value hread)

/-- The text of a payload that the grammar derives is refused only as no JSON or as too deep. -/
theorem decodeText_of_derives :
    Fits options'.maxDepth (decodeText registry root options' text) ∨
      decodeText registry root options' text = .error .invalidJson := by
  unfold decodeText
  cases hread : Json.ofText? text with
  | none => exact .inr rfl
  | some value =>
    exact .inl (decode_fits hf hint hformat hclear hdistinct hnames hcompile hlog hderives
      (paddedText_of_ofText? hread))

end

theorem chain_namesDistinct (name : String) : (chain name).NamesDistinct "A" := by
  intro other definition _ hrecord
  rw [record_chain hrecord]
  simp [RecordSchema.visibleFields]

/-- The last link of a chain lists no others. -/
private theorem derives_last_link {s : Session}
    (hcompile : Session.compile {} (chain "next") "A" {} = (.ok start, s))
    (hlog : Collisionless s.log) : s.table.Derives start "\x7b\"next\": []\x7d" := by
  obtain ⟨hok, hbuilt⟩ := Session.built_of_compile (chain_factories "next") hcompile
  have h := hbuilt.holdsActs (chain_namesClear (by decide)) hok hlog
  obtain ⟨definition, rows, hrecord, hrows, htexts⟩ := start_placed hok h
  have htypes := hrows.types fun f hf => by
    rw [reachesField_chain ⟨_, definition, .root, hrecord, hf⟩]
  rw [record_chain hrecord] at htypes
  cases htypes with
  | cons hrow htypes =>
    cases htypes
    obtain ⟨hname, hplaced⟩ := hrow
    obtain ⟨inner, -, hlist⟩ := list_placed h hplaced
    refine (htexts _).2 ((rows_texts hok h hrows).2
      ⟨[['[', ']']], .cons ((hlist _).2 ⟨[], by simp, rfl⟩) .nil, ?_⟩)
    rw [List.zipWith_cons_cons, hname]
    decide +kernel

theorem last_link_decoded : ∃ (start : RuleHandle) (s : Session) (value : Json),
    Session.compile {} (chain "next") "A" {} = (.ok start, s) ∧
      s.table.Derives start "\x7b\"next\": []\x7d" ∧
      Json.ofText? "\x7b\"next\": []\x7d" = some value ∧
      ((∃ decoded, decodeRecord (chain "next") "A" {} value = .ok decoded) ∨
        ∃ path, decodeRecord (chain "next") "A" {} value = .error (.depthExceeded path 64)) := by
  have hsome : (Json.ofText? "\x7b\"next\": []\x7d").isSome = true := by decide +kernel
  obtain ⟨value, hread⟩ := Option.isSome_iff_exists.1 hsome
  have hderives := derives_last_link compile_chain collisionless_chain
  refine ⟨_, _, value, compile_chain, hderives, hread, ?_⟩
  exact decode_of_derives (chain_factories "next") (fun h => by simpa using reaches_chain h)
    (fun f h => by rw [reachesField_chain h]) (chain_textsClear "next").literals
    (chain_namesDistinct "next") (chain_namesClear (by decide)) compile_chain collisionless_chain
    hderives readsJson_ofText? hread

end

end RecordGrammar
