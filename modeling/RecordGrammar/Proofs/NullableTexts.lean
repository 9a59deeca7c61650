import RecordGrammar.Proofs.DecodedTexts
import RecordGrammar.Proofs.KeptLedgers

/-! # The grammar derives the payloads of records that may be null

A payload is shown as it is, reduced to the fields that the decoder has taken from it. A record that
was null is decoded as an empty list, so that the text is read off the payload. -/

namespace RecordGrammar

namespace DecodedValue

mutual

/-- The text of a payload in the layout of the grammar, without the fields that have not been
decoded. -/
def reducedText : DecodedValue → Json → String
  | .list items, .array values => "[" ++ ", ".intercalate (reducedItems items values) ++ "]"
  | .tuple items, .array values => "[" ++ ", ".intercalate (reducedItems items values) ++ "]"
  | .record _ fields, .object members =>
    "\x7b" ++ ", ".intercalate (reducedFields fields members) ++ "\x7d"
  | _, value => value.compact

def reducedItems : List DecodedValue → List Json → List String
  | item :: items, value :: values => item.reducedText value :: reducedItems items values
  | _, _ => []

def reducedFields : List (String × DecodedValue) → List (String × Json) → List String
  | [], _ => []
  | (name, field) :: fields, members =>
    (jsonString name ++ ": " ++ (members.lookup name).elim "null" field.reducedText) ::
      reducedFields fields members

end

theorem reducedItems_eq (items : List DecodedValue) (values : List Json) :
    reducedItems items values = List.zipWith reducedText items values := by
  induction items generalizing values with
  | nil => simp [reducedItems]
  | cons item items ih => cases values <;> simp [reducedItems, ih]

theorem toList_reduced_items (items : List DecodedValue) (values : List Json) :
    ("[" ++ ", ".intercalate (reducedItems items values) ++ "]").toList =
      inBrackets (List.zipWith (fun item value => (item.reducedText value).toList) items values) := by
  simp [reducedItems_eq, inBrackets, joined, String.toList_intercalate, List.map_zipWith]

theorem toList_reduced_record (name : String) (fields : List (String × DecodedValue))
    (members : List (String × Json)) : (reducedText (.record name fields) (.object members)).toList =
      inBraces (fields.map fun f =>
        entryText f.1 ((members.lookup f.1).elim "null" f.2.reducedText).toList) := by
  have hfields : (reducedFields fields members).map String.toList = fields.map fun f =>
      entryText f.1 ((members.lookup f.1).elim "null" f.2.reducedText).toList := by
    induction fields with
    | nil => rfl
    | cons f rest ih => simp [reducedFields, ih, entryText]
  simp [reducedText, inBraces, joined, String.toList_intercalate, hfields]

end DecodedValue

theorem Json.number_of_double? {value : Json} (h : value.double?.isSome) :
    NumberText value.compact.toList := by
  match value, h with
  | .number (.int n), _ => exact number_of_int n
  | .number (.float x), _ => exact number_of_double x

theorem Json.double?_of_int64? {value : Json} {n : Int64} (h : value.int64? = some n) :
    value.double?.isSome := by
  match value, h with
  | .number (.int n), _ => rfl

theorem Literal.compact_of_holds {l : Literal} {value : Json} (h : l.holds value = true) :
    value.compact = l.text := by
  rw [Literal.holds_iff.1 h, Literal.text]

theorem PayloadDecoder.compact_of_member {site : DecodeSite} {literals : List Literal}
    {value : Json} {decoded : DecodedValue} (h : member site literals value = .ok decoded) :
    ∃ l ∈ literals, decoded.reducedText value = l.text := by
  unfold member at h
  split at h
  · rename_i l hl
    cases h
    exact ⟨l, List.mem_of_find?_eq_some hl,
      Literal.compact_of_holds (by simpa using List.find?_some hl)⟩
  · cases h

/-- A record that may be null is null or else an object one level deeper. -/
theorem PayloadDecoder.delegate_nullable {levels : DecodeLevels} {site : DecodeSite} {name : String}
    {value : Json} {decoded : DecodedValue}
    (h : delegate levels site name value .nullable = .ok decoded) :
    (value = .null ∧ decoded = .list []) ∨
      ∃ below, levels.below = some below ∧ object below site name name value = .ok decoded := by
  simp only [delegate] at h
  split at h
  · exact .inl ⟨rfl, (Except.ok.inj h).symm⟩
  · exact .inr ⟨_, ‹_›, h⟩
  · cases h

section Rules

variable {t : RuleTable} {registry : Registry} {root name : String} {ledger : List Entry}
  {text : List Char} (h : t.HoldsLedger ledger)
  (hjustified : ∀ e ∈ ledger, e.Justified registry root ledger)

include h hjustified

/-- A forward rule derives the texts of the record that it was closed with. -/
theorem forward_texts {asked : String} (hname : .forward asked name ∈ ledger) : ∃ builder rule,
    .built builder name rule ∈ ledger ∧
      ∀ text, t.Texts ⟨forwardId name⟩ text ↔ t.Texts rule text := by
  obtain ⟨rule, hclosed, hrule⟩ := h.forward hname
  obtain ⟨builder, hbuilt⟩ := hjustified _ hclosed
  have hread : t.reading (forwardId name) = some [[.rule rule.id]] :=
    (RuleTable.reading_of_rule? hrule).trans
      (readProduction_handle (Written.referable hjustified (.inl hbuilt)))
  refine ⟨builder, rule, hbuilt, fun text => ?_⟩
  rw [RuleTable.Texts, Derives.rule_iff]
  simp [hread, RuleTable.Texts]

/-- The rule of a record that may be null derives `null`, and the texts of the record. -/
theorem nullable_texts {inner : RuleHandle} (hwrapped : .wrapped name inner ∈ ledger) : ∃ inner',
    Written ledger name name inner' ∧
      ∀ text, t.Texts (nullableHandle name) text ↔ text = "null".toList ∨ t.Texts inner' text := by
  obtain ⟨inner', hwrapped', hrule⟩ := h.wrapped hwrapped
  obtain ⟨hnull, hwritten⟩ := hjustified _ hwrapped'
  have hread := (RuleTable.reading_of_rule? hrule).trans
    (readProduction_nullable (hwritten.referable hjustified) name)
  have hreadNull := (RuleTable.reading_of_rule? (h.null hnull)).trans readProduction_null
  have htextNull (text : List Char) :
      Derives t.reading [.rule nullHandle.id] text ↔ text = "null".toList := by
    rw [Derives.rule_iff]
    simp [hreadNull, Derives.terminal_iff]
  refine ⟨inner', hwritten, fun text => ?_⟩
  rw [RuleTable.Texts, Derives.rule_iff]
  simp [hread, htextNull, RuleTable.Texts, or_comm]

end Rules

section Decoding

variable {registry : Registry} {root : String} {t : RuleTable} {ledger : List Entry}

variable (registry t ledger) in
/-- A decoder of types that takes no payload which the rule of the type does not derive, whatever
record the rule was compiled for, as long as that covers the record that is decoded for. -/
def Reduces (decode : TypeDecoder) : Prop :=
  ∀ site asked other type value decoded handle, site.registry = registry →
    .met asked type handle ∈ ledger → registry.Covers asked other type →
    decode site other type value = .ok decoded → t.Texts handle (decoded.reducedText value).toList

open PayloadDecoder

theorem Reduces.each {decode : TypeDecoder} (h : Reduces registry t ledger decode)
    {site : DecodeSite} (hsite : site.registry = registry) {asked other : String} {i : Nat}
    {types : List FieldType} {members : List RuleHandle} {values : List Json}
    {decoded : List DecodedValue}
    (hmet : List.Forall₂ (.met asked · · ∈ ledger) types members)
    (hcovers : ∀ type ∈ types, registry.Covers asked other type)
    (hlength : values.length = types.length)
    (hdecode : items decode site other i types values = .ok decoded) :
    List.Forall₂ t.Texts members
      (List.zipWith (fun item value => (item.reducedText value).toList) decoded values) := by
  induction hmet generalizing i values decoded with
  | nil =>
    cases hdecode
    exact .nil
  | @cons type member types members hmet _ ih =>
    obtain ⟨hcover, hcovers⟩ := List.forall_mem_cons.1 hcovers
    cases values with
    | nil => cases hlength
    | cons value values =>
      obtain ⟨item, rest, hitem, hrest, rfl⟩ := items_cons_eq_ok_iff.1 hdecode
      exact .cons (h (site.inside (.index i)) asked other type value item member hsite hmet hcover
        hitem) (ih hcovers (by simpa using hlength) hrest)

theorem Reduces.field {decode : TypeDecoder} (h : Reduces registry t ledger decode)
    {site : DecodeSite} (hsite : site.registry = registry) {asked other : String} {f : Field}
    {handle : RuleHandle} (hmet : .met asked f.type handle ∈ ledger)
    (hcovers : registry.Covers asked other f.type) {members : List (String × Json)}
    {decoded : String × DecodedValue}
    (hdecode : PayloadDecoder.field decode site other f members = .ok decoded) :
    decoded.1 = f.name ∧ t.Texts handle
      ((members.lookup decoded.1).elim "null" decoded.2.reducedText).toList := by
  obtain ⟨-, hname, value, hvalue, hfield⟩ := field_eq_ok_iff.1 hdecode
  refine ⟨hname, ?_⟩
  rw [hname, hvalue]
  exact h (site.inside (.field f.name)) asked other f.type value decoded.2 handle hsite hmet hcovers
    hfield

/-- The entries of the fields that have been decoded, row by row. -/
theorem Reduces.fields {decode : TypeDecoder} (h : Reduces registry t ledger decode)
    {site : DecodeSite} (hsite : site.registry = registry) {asked other : String}
    {members : List (String × Json)} {fs : List Field} {rows : List (String × RuleHandle)}
    {decoded : List (String × DecodedValue)}
    (hrows : List.Forall₂ (fun f row => row.1 = f.name ∧ .met asked f.type row.2 ∈ ledger) fs rows)
    (hcovers : ∀ f ∈ fs, registry.Covers asked other f.type)
    (hdecode : fs.mapM (PayloadDecoder.field decode site other · members) = .ok decoded) :
    ∃ values, List.Forall₂ (fun row => t.Texts row.2) rows values ∧
      (decoded.map fun f => entryText f.1
        ((members.lookup f.1).elim "null" f.2.reducedText).toList) =
        List.zipWith (fun row => entryText row.1) rows values := by
  have heach := Except.mapM_eq_ok_iff.1 hdecode
  clear hdecode
  induction heach generalizing rows with
  | nil =>
    cases hrows
    exact ⟨[], .nil, rfl⟩
  | cons hfield _ ih =>
    cases hrows with
    | cons hrow hrows =>
      obtain ⟨hcover, hcovers⟩ := List.forall_mem_cons.1 hcovers
      obtain ⟨hname, htext⟩ := h.field hsite hrow.2 hcover hfield
      obtain ⟨values, hvalues, he⟩ := ih hrows hcovers
      exact ⟨_ :: values, .cons htext hvalues, by simp [he, hrow.1, hname]⟩

variable (registry t ledger) in
/-- The decoders of a level take nothing that the rules do not derive. -/
def LevelsReduce (levels : DecodeLevels) : Prop :=
  Reduces registry t ledger levels.here ∧
    ∀ below, levels.below = some below → Reduces registry t ledger below

theorem LevelsReduce.levels {left : Nat}
    (h : ∀ deeper ≤ left, Reduces registry t ledger (PayloadDecoder.type deeper)) :
    LevelsReduce registry t ledger (PayloadDecoder.levels left) := by
  refine ⟨h left (Nat.le_refl left), fun below hbelow => ?_⟩
  cases left with
  | zero => cases hbelow
  | succ deeper =>
    cases hbelow
    exact h deeper (Nat.le_succ deeper)

variable (h : t.HoldsLedger ledger) (hjustified : ∀ e ∈ ledger, e.Justified registry root ledger)

include h hjustified

/-- The rule of a record that has been built in the work for `asked` derives what is decoded in the
work for `other`. -/
theorem Reduces.built {decode : TypeDecoder} (hdecode : Reduces registry t ledger decode)
    {site : DecodeSite} (hsite : site.registry = registry) {asked other name : String}
    {rule : RuleHandle} (hbuilt : .built asked name rule ∈ ledger)
    (hcovers : registry.Covers asked other (.record name)) (hname : registry.Inlines other name)
    {value : Json} {decoded : DecodedValue}
    (hobject : PayloadDecoder.object decode site other name value = .ok decoded) :
    t.Texts rule (decoded.reducedText value).toList := by
  obtain ⟨-, hasked, definition, rows, hrecord, hrows, hf, rfl⟩ := hjustified _ hbuilt
  obtain ⟨definition', members, fields, hdefinition, rfl, hfields, rfl⟩ :=
    object_eq_ok_iff.1 hobject
  rw [hsite, hrecord] at hdefinition
  cases hdefinition
  obtain ⟨values, hvalues, he⟩ := hdecode.fields hsite hrows
    (fun f hfield => hcovers.field hasked hname hrecord hfield) hfields
  have hreferable : ∀ row ∈ rows, Referable row.2.id := fun row hrow => by
    obtain ⟨f, -, -, hmet⟩ := exists_of_forall₂ hrows row hrow
    exact (hjustified _ hmet).2.1
  rw [DecodedValue.toList_reduced_record, object_texts (h.fragment hf) hreferable]
  exact ⟨values, hvalues, congrArg inBraces he⟩

theorem LevelsReduce.list {levels : DecodeLevels} (hlevels : LevelsReduce registry t ledger levels)
    {site : DecodeSite} (hsite : site.registry = registry) {asked other : String}
    {element : FieldType} {inner : RuleHandle} (hinner : .met asked element inner ∈ ledger)
    (hf : .fragment (.array inner) ∈ ledger) (hcovers : registry.Covers asked other (.list element))
    {value : Json} {decoded : DecodedValue}
    (hdecode : typeLevel levels site other (.list element) value = .ok decoded) :
    t.Texts (Fragment.array inner).handle (decoded.reducedText value).toList := by
  obtain ⟨values, decoded, rfl, hitems, rfl⟩ := list_eq_ok_iff.1 hdecode
  have hmet : List.Forall₂ (.met asked · · ∈ ledger) (values.map fun _ => element)
      (values.map fun _ => inner) :=
    List.forall₂_map_left_iff.2
      (List.forall₂_map_right_iff.2 (List.forall₂_same.2 fun _ _ => hinner))
  have hparts : ∀ type ∈ values.map fun _ => element, registry.Covers asked other type :=
    List.forall_mem_map.2 fun _ _ => hcovers.part (.element .self)
  have heach := hlevels.1.each hsite hmet hparts (by simp) hitems
  rw [array_texts (h.fragment hf) (hjustified _ hinner).2.1, DecodedValue.reducedText,
    DecodedValue.toList_reduced_items]
  exact ⟨_, forall_of_forall₂ (List.forall₂_map_left_iff.1 heach), rfl⟩

theorem LevelsReduce.tuple {levels : DecodeLevels} (hlevels : LevelsReduce registry t ledger levels)
    {site : DecodeSite} (hsite : site.registry = registry) {asked other : String}
    {types : List FieldType} {inners : List RuleHandle}
    (hinners : List.Forall₂ (.met asked · · ∈ ledger) types inners)
    (hf : .fragment (.tuple inners) ∈ ledger) (hcovers : registry.Covers asked other (.tuple types))
    {value : Json} {decoded : DecodedValue}
    (hdecode : typeLevel levels site other (.tuple types) value = .ok decoded) :
    t.Texts (Fragment.tuple inners).handle (decoded.reducedText value).toList := by
  obtain ⟨values, decoded, -, rfl, hlength, hitems, rfl⟩ := tuple_eq_ok_iff.1 hdecode
  have heach := hlevels.1.each hsite hinners
    (fun item hitem => hcovers.part (.item .self hitem)) hlength hitems
  have hreferable : ∀ inner ∈ inners, Referable inner.id := fun inner hinner => by
    obtain ⟨item, -, hmet⟩ := exists_of_forall₂ hinners inner hinner
    exact (hjustified _ hmet).2.1
  rw [tuple_texts (h.fragment hf) hreferable, DecodedValue.reducedText,
    DecodedValue.toList_reduced_items]
  exact ⟨_, heach, rfl⟩

omit hjustified in
theorem member_texts {site : DecodeSite} {literals : List Literal}
    (hf : .fragment (.enumeration literals) ∈ ledger) (hne : literals ≠ [])
    (hclear : ∀ l ∈ literals, l.Clear) {value : Json} {decoded : DecodedValue}
    (hdecode : member site literals value = .ok decoded) :
    t.Texts (Fragment.enumeration literals).handle (decoded.reducedText value).toList := by
  obtain ⟨l, hl, htext⟩ := PayloadDecoder.compact_of_member hdecode
  rw [htext, enumeration_texts (h.fragment hf) hne hclear]
  exact ⟨l, hl, rfl⟩

variable (hstep : registry.InStep root)

include hstep

/-- A forward rule has been closed in the work for one record, and may be referred to in that for
others. -/
theorem Reduces.written {decode : TypeDecoder} (hdecode : Reduces registry t ledger decode)
    {site : DecodeSite} (hsite : site.registry = registry) {asked other name : String}
    {rule : RuleHandle} (hwritten : Written ledger asked name rule)
    (hcovers : registry.Covers asked other (.record name)) (hname : registry.Inlines other name)
    {value : Json} {decoded : DecodedValue}
    (hobject : PayloadDecoder.object decode site other name value = .ok decoded) :
    t.Texts rule (decoded.reducedText value).toList := by
  rcases hwritten with hbuilt | ⟨hforward, rfl⟩
  · exact hdecode.built h hjustified hsite hbuilt hcovers hname hobject
  · obtain ⟨builder, rule, hbuilt, htexts⟩ := forward_texts h hjustified hforward
    obtain ⟨⟨stack, hworks, hnew⟩, hname', -⟩ := hjustified _ hbuilt
    obtain ⟨stack', hworks', hopen⟩ := hjustified _ hforward
    have hcovers' : registry.Covers builder other (.record name) := by
      -- A record with a factory is written out in its own work only.
      cases hfactory : registry.factory? name with
      | none =>
        exact (hstep name builder asked stack stack' hfactory hworks hnew hworks' hopen).trans hcovers
      | some factory =>
        obtain rfl := hname'.resolve_right (by simp [hfactory])
        obtain rfl := hname.resolve_right (by simp [hfactory])
        exact .refl registry name _
    exact (htexts _).2 (hdecode.built h hjustified hsite hbuilt hcovers' hname hobject)

theorem Reduces.delegatedObject {decode : TypeDecoder}
    (hdecode : Reduces registry t ledger decode) {site : DecodeSite}
    (hsite : site.registry = registry) {name : String} {factory : Factory} {rule : RuleHandle}
    (hrule : Delegated ledger name factory rule) {value : Json}
    {decoded : DecodedValue}
    (hobject : PayloadDecoder.object decode site name name value = .ok decoded) :
    t.Texts rule (decoded.reducedText value).toList := by
  cases hrule with
  | json hwritten =>
    exact hdecode.written h hjustified hstep hsite hwritten (.refl registry name _) (.inl rfl) hobject
  | nullable hwrapped =>
    obtain ⟨inner, hwritten, htexts⟩ := nullable_texts h hjustified hwrapped
    exact (htexts _).2 (.inr (hdecode.written h hjustified hstep hsite hwritten
      (.refl registry name _) (.inl rfl) hobject))

theorem LevelsReduce.delegated {levels : DecodeLevels}
    (hlevels : LevelsReduce registry t ledger levels) {site : DecodeSite}
    (hsite : site.registry = registry) {name : String} {factory : Factory} {rule : RuleHandle}
    (hrule : Delegated ledger name factory rule) {value : Json} {decoded : DecodedValue}
    (hdecode : delegate levels site name value factory = .ok decoded) :
    t.Texts rule (decoded.reducedText value).toList := by
  cases hrule with
  | json hwritten =>
    exact hlevels.1.delegatedObject h hjustified hstep hsite (.json hwritten) hdecode
  | nullable hwrapped =>
    rcases delegate_nullable hdecode with ⟨rfl, rfl⟩ | ⟨below, hbelow, hobject⟩
    · obtain ⟨inner, -, htexts⟩ := nullable_texts h hjustified hwrapped
      exact (htexts _).2 (.inl rfl)
    · exact (hlevels.2 below hbelow).delegatedObject h hjustified hstep hsite (.nullable hwrapped)
        hobject

/-- A record is decoded as it is compiled, but that one of the two may write it out where the other
one hands it to its factory. -/
theorem LevelsReduce.recordField {levels : DecodeLevels}
    (hlevels : LevelsReduce registry t ledger levels) {site : DecodeSite}
    (hsite : site.registry = registry) {asked other name : String} {rule : RuleHandle}
    (hrule : Stands registry ledger asked (.record name) rule)
    (hcovers : registry.Covers asked other (.record name)) (hschema : registry.JsonOrNull root)
    {value : Json} {decoded : DecodedValue}
    (hdecode : PayloadDecoder.recordField levels site other name value = .ok decoded) :
    t.Texts rule (decoded.reducedText value).toList := by
  unfold PayloadDecoder.recordField at hdecode
  rw [hsite] at hdecode
  by_cases hname : registry.Inlines other name
  · have hnone : (if name = other then none else registry.factory? name) = none := by
      rcases hname with rfl | hnone
      · exact if_pos rfl
      · simp [hnone]
    rw [hnone] at hdecode
    cases hrule with
    | inlined _ hwritten =>
      -- Written out on both sides, though maybe for different records.
      exact hlevels.1.written h hjustified hstep hsite hwritten hcovers hname hdecode
    | handedOff hasked hfactory hrule =>
      -- The decoder is at work for the very record that the compiler hands off, and knows no null.
      obtain rfl := hname.resolve_right fun hnone => hasked (.inr hnone)
      exact hlevels.1.delegatedObject h hjustified hstep hsite hrule hdecode
  · obtain ⟨hne, hsome⟩ := not_or.1 hname
    obtain ⟨factory, hfactory⟩ := Option.ne_none_iff_exists'.1 hsome
    rw [if_neg hne, hfactory] at hdecode
    cases hrule with
    | inlined hasked hwritten =>
      -- Here the decoder may meet a null that the rule does not have, unless the works are in step.
      obtain rfl := hasked.resolve_right hsome
      rcases hschema.factory hfactory with rfl | rfl
      · exact hlevels.delegated h hjustified hstep hsite (.json hwritten) hdecode
      · exact absurd .self (hcovers.resolve_left hne hfactory)
    | handedOff _ hfactory' hrule =>
      cases hfactory.symm.trans hfactory'
      exact hlevels.delegated h hjustified hstep hsite hrule hdecode

/-- What one level of the decoder takes is derived if what it takes of the parts is. -/
theorem LevelsReduce.typeLevel {levels : DecodeLevels}
    (hlevels : LevelsReduce registry t ledger levels) (hschema : registry.JsonOrNull root) :
    Reduces registry t ledger (PayloadDecoder.typeLevel levels) := by
  intro site asked other type value decoded handle hsite hmet hcovers hdecode
  obtain ⟨hreaches, -, hstands⟩ := hjustified _ hmet
  cases hstands with
  | int hf =>
    obtain ⟨n, hn, rfl⟩ := Except.map_eq_ok_iff.1 hdecode
    exact (number_texts (h.fragment hf)).2
      (Json.number_of_double? (Json.double?_of_int64? (DecodeSite.expect_eq_ok_iff.1 hn)))
  | float hf =>
    obtain ⟨x, hx, rfl⟩ := Except.map_eq_ok_iff.1 hdecode
    exact (number_texts (h.fragment hf)).2
      (Json.number_of_double? (by simp [DecodeSite.expect_eq_ok_iff.1 hx]))
  | string hf =>
    obtain ⟨s, hs, rfl⟩ := Except.map_eq_ok_iff.1 hdecode
    match value, DecodeSite.expect_eq_ok_iff.1 hs with
    | .string s, _ => exact (string_texts (h.fragment hf)).2 (jsonString_parts s)
  | bool hf =>
    obtain ⟨b, hb, rfl⟩ := Except.map_eq_ok_iff.1 hdecode
    rw [boolean_texts (h.fragment hf)]
    match value, DecodeSite.expect_eq_ok_iff.1 hb with
    | .bool true, _ => exact .inl rfl
    | .bool false, _ => exact .inr rfl
  | list hinner hf => exact hlevels.list h hjustified hsite hinner hf hcovers hdecode
  | tuple hinners hf => exact hlevels.tuple h hjustified hsite hinners hf hcovers hdecode
  | literal hf =>
    exact member_texts h hf (by simp) (by simpa using hschema.literal hreaches) hdecode
  | union hliterals hf =>
    obtain ⟨literals, hliterals', hmember⟩ := union_eq_ok_iff.1 hdecode
    rw [hliterals] at hliterals'
    cases hliterals'
    obtain ⟨hne, rfl⟩ := unionLiterals_eq_ok hliterals
    exact member_texts h hf hne
      (fun l hl => hschema.literal (hreaches.member (List.mem_map_of_mem hl))) hmember
  | inlined hname hwritten =>
    exact hlevels.recordField h hjustified hstep hsite (.inlined hname hwritten) hcovers hschema
      hdecode
  | handedOff hname hfactory hrule =>
    exact hlevels.recordField h hjustified hstep hsite (.handedOff hname hfactory hrule) hcovers
      hschema hdecode

/-- Every level of the decoder takes only payloads that the grammar derives. -/
theorem reduces_type (hschema : registry.JsonOrNull root) (left : Nat) :
    Reduces registry t ledger (PayloadDecoder.type left) := by
  -- Strong induction, since a record that may be null takes two levels.
  induction left using Nat.strongRecOn with
  | ind left ih =>
    intro site asked other type value decoded handle hsite hmet hcovers hdecode
    cases left with
    | zero => cases hdecode
    | succ left =>
      have hlevels := LevelsReduce.levels fun deeper hle => ih deeper (Nat.lt_succ_of_le hle)
      rw [PayloadDecoder.type_succ] at hdecode
      exact hlevels.typeLevel h hjustified hstep hschema site asked other type value decoded handle
        hsite hmet hcovers hdecode

end Decoding

/-- Where some records may be null, the grammar still derives every payload that is accepted, reduced
to its visible fields, provided that a record without a factory is not built in the work for a record
that may be null and that it leads to, and then referred to in the work for another. -/
theorem compile_derives_reducedText {registry : Registry} {root : String}
    {options options' : SchemaOptions} {start : RuleHandle} {s : Session} {value : Json}
    {decoded : DecodedValue} (hschema : registry.JsonOrNull root) (hstep : registry.InStep root)
    (hcompile : Session.compile {} registry root options = (.ok start, s))
    (hlog : Collisionless s.log)
    (hdecode : decodeRecord registry root options' value = .ok decoded) :
    s.table.Derives start (decoded.reducedText value) := by
  obtain ⟨ledger, h, hjustified, hstart⟩ := ledger_of_compile hschema hcompile hlog
  have hlevels : LevelsReduce registry s.table ledger (PayloadDecoder.levels options'.maxDepth) :=
    LevelsReduce.levels fun deeper _ => reduces_type h hjustified hstep hschema deeper
  obtain ⟨_, -, hdecode⟩ := Except.bind_eq_ok_iff.1 hdecode
  exact hlevels.delegated h hjustified hstep rfl hstart hdecode

/-- Offices with their branches, which may be null, and with their regions. -/
def offices : Registry where
  records := (((∅ : Std.ExtTreeMap String RecordSchema).insert "Branch"
    ⟨[⟨"office", .record "Office", false, none⟩], none⟩).insert "Region"
    ⟨[⟨"office", .record "Office", false, none⟩], some .json⟩).insert "Office"
    ⟨[⟨"branches", .list (.record "Branch"), false, none⟩,
      ⟨"regions", .list (.record "Region"), false, none⟩], none⟩
  factories := (∅ : Std.ExtTreeMap String Factory).insert "Branch" .nullable

section Offices

variable {name root asked : String} {stack : List String} {type : FieldType} {field : Field}

private theorem record_offices {definition : RecordSchema}
    (h : offices.record name = .ok definition) (hfield : field ∈ definition.visibleFields) :
    ((name = "Branch" ∨ name = "Region") ∧ field = ⟨"office", .record "Office", false, none⟩) ∨
    (name = "Office" ∧ (field = ⟨"branches", .list (.record "Branch"), false, none⟩ ∨
      field = ⟨"regions", .list (.record "Region"), false, none⟩)) := by
  simp only [Registry.record, offices, Std.ExtTreeMap.getElem?_insert] at h
  split at h
  · cases h
    simp_all [RecordSchema.visibleFields]
  split at h
  · cases h
    simp_all [RecordSchema.visibleFields]
  split at h
  · cases h
    simp_all [RecordSchema.visibleFields]
  · simp at h

private theorem factory_offices : offices.factory? name =
    if name = "Branch" then some .nullable else if name = "Region" then some .json else none := by
  simp only [Registry.factory?, offices, Std.ExtTreeMap.getElem?_insert]
  split_ifs <;> simp_all [BuiltinFactory.factory]

private theorem reaches_offices (h : offices.Reaches root type) :
    ∃ name, type = .record name ∨ type = .list (.record name) := by
  induction h with
  | root => exact ⟨root, .inl rfl⟩
  | element _ ih =>
    obtain ⟨name, he | he⟩ := ih
    · cases he
    · exact ⟨name, .inl (FieldType.list.inj he)⟩
  | item _ _ ih => simp at ih
  | member _ _ ih => simp at ih
  | field _ hrecord hfield =>
    rcases record_offices hrecord hfield with ⟨-, rfl⟩ | ⟨-, rfl | rfl⟩
    · exact ⟨_, .inl rfl⟩
    · exact ⟨_, .inr rfl⟩
    · exact ⟨_, .inr rfl⟩

private theorem reachesField_offices (h : offices.ReachesField root field) :
    field.format = none ∧ '<' ∉ field.name.toList := by
  obtain ⟨name, definition, -, hrecord, hfield⟩ := h
  rcases record_offices hrecord hfield with ⟨-, rfl⟩ | ⟨-, rfl | rfl⟩ <;> exact ⟨rfl, by decide⟩

theorem offices_jsonOrNull (root : String) : offices.JsonOrNull root where
  factory h := by
    rw [factory_offices] at h
    split_ifs at h <;> simp_all
  format h := (reachesField_offices h).1
  literal h := by simpa using reaches_offices h
  field _ h := (reachesField_offices h).2
  nullable _ h := by
    rw [factory_offices] at h
    split_ifs at h with hname
    · rw [hname]
      decide
    · cases h

/-- Below a region, the work for a branch is always inside of an office. -/
private theorem works_offices (h : offices.Works "Region" stack asked type) :
    (asked = "Region" ∧
      (type = .record "Region" ∨ type = .record "Office" ∨ "Office" ∈ stack)) ∨
    (asked = "Branch" ∧ "Office" ∈ stack ∧
      (type = .record "Branch" ∨ type = .record "Office")) := by
  induction h with
  | root => exact .inl ⟨rfl, .inl rfl⟩
  | element _ ih => simp_all
  | item _ _ ih => simp_all
  | field _ hnew _ hrecord hfield ih =>
    rcases record_offices hrecord hfield with ⟨-, rfl⟩ | ⟨rfl, -⟩
    · exact ih.imp (fun h => ⟨h.1, .inr (.inl rfl)⟩)
        fun h => ⟨h.1, List.mem_append_left _ h.2.1, .inr rfl⟩
    · exact ih.imp (fun h => ⟨h.1, .inr (.inr List.mem_concat_self)⟩)
        fun h => absurd h.2.1 hnew
  | @handOff stack asked name _ hname ih =>
    rw [Registry.Inlines, factory_offices] at hname
    rcases ih with ⟨rfl, htype⟩ | ⟨rfl, hstack, htype⟩
    · have hbranch : name = "Branch" := by
        by_cases h : name = "Branch"
        · exact h
        · simp_all
      subst hbranch
      exact .inr ⟨rfl, by simpa using htype, .inl rfl⟩
    · rcases htype with he | he <;> simp_all

private theorem offices_inStep : offices.InStep "Region" := by
  refine fun name builder asked stack stack' hfactory hworks hnew _ _ => .inr fun hnullable => ?_
  rw [factory_offices] at hfactory hnullable
  rcases works_offices hworks with ⟨rfl, -⟩ | ⟨-, hstack, htype⟩
  · simp at hnullable
  · rcases htype with he | he
    · simp_all
    · exact absurd (FieldType.record.inj he ▸ hstack) hnew

set_option maxRecDepth 100000 in
private theorem compile_region :
    (Session.compile {} offices "Region" {}).1 = .ok ⟨"__bjo_a5124e09b39b1272_decl"⟩ ∧
      Collisionless (Session.compile {} offices "Region" {}).2.log := by
  decide +kernel

/-- A region whose office has a branch that is null. -/
theorem region_with_null_branch : ∃ (start : RuleHandle) (s : Session),
    Session.compile {} offices "Region" {} = (.ok start, s) ∧
      s.table.Derives start "\x7b\"office\": \x7b\"branches\": [null], \"regions\": []\x7d\x7d" := by
  let office : Json := .object [("branches", .array [.null]), ("regions", .array [])]
  let decoded : DecodedValue := .record "Region" [("office",
    .record "Office" [("branches", .list [.list []]), ("regions", .list [])])]
  have hdecode : decodeRecord offices "Region" {} (.object [("office", office)]) = .ok decoded := rfl
  have hcompile := eq_mk_of_fst compile_region.1
  have hderives := compile_derives_reducedText (offices_jsonOrNull "Region") offices_inStep hcompile
    compile_region.2 hdecode
  have htext : decoded.reducedText (.object [("office", office)]) =
      "\x7b\"office\": \x7b\"branches\": [null], \"regions\": []\x7d\x7d" := by
    decide +kernel
  rw [htext] at hderives
  exact ⟨_, _, hcompile, hderives⟩

/-- A branch whose office has a region, the office of which has a branch that is null. -/
def branchPayload : Json :=
  .object [("office", .object [("branches", .array []), ("regions", .array [.object
    [("office", .object [("branches", .array [.null]), ("regions", .array [])])]])])]

private abbrev branchId : String := "__bjo_940f8a1d4753e239_decl"

/-- The rules that do not lead to `null`. -/
private def solidIds : List String :=
  ((Session.compile {} offices "Branch" {}).2.table.rules.toList.map Rule.id).filter fun id =>
    id ≠ (nullableHandle "Branch").id ∧ id ≠ nullHandle.id

private def solid (symbol : GrammarSymbol) : Bool :=
  match symbol with
  | .terminal raw => 'u' ∉ raw
  | .rule id => id ∈ solidIds
  | _ => false

set_option maxRecDepth 100000 in
private theorem compile_branch :
    (Session.compile {} offices "Branch" {}).1 = .ok (nullableHandle "Branch") ∧
    Collisionless (Session.compile {} offices "Branch" {}).2.log ∧
    (Session.compile {} offices "Branch" {}).2.table.reading (nullableHandle "Branch").id =
      some [[.rule branchId], [.rule nullHandle.id]] ∧
    (Session.compile {} offices "Branch" {}).2.table.reading nullHandle.id =
      some [[.terminal "null".toList]] ∧
    branchId ∈ solidIds ∧
    ∀ id ∈ solidIds, ∀ alternatives ∈ (Session.compile {} offices "Branch" {}).2.table.reading id,
      ∀ alternative ∈ alternatives, ∀ symbol ∈ alternative, solid symbol = true := by
  decide +kernel

private theorem without_of_solid {xs : List GrammarSymbol}
    (h : ∀ symbol ∈ xs, solid symbol = true) : Derives.Without (· ∈ solidIds) 'u' xs := by
  intro symbol hsymbol
  have hsolid := h symbol hsymbol
  cases symbol <;> simp_all [solid]

/-- The forward rule of an office is built where a branch cannot be null, and stands for the offices
of regions too, where it can. -/
theorem null_branch_not_derived : offices.JsonOrNull "Branch" ∧
    ∃ (start : RuleHandle) (s : Session) (decoded : DecodedValue),
      Session.compile {} offices "Branch" {} = (.ok start, s) ∧ Collisionless s.log ∧
      decodeRecord offices "Branch" {} branchPayload = .ok decoded ∧
      ¬s.table.Derives start (decoded.reducedText branchPayload) := by
  obtain ⟨hstart, hlog, hread, hnull, hbranch, hclosed⟩ := compile_branch
  refine ⟨offices_jsonOrNull "Branch", _, _, _, eq_mk_of_fst hstart, hlog, rfl, fun h => ?_⟩
  obtain ⟨alternatives, hfound, alternative, halternative, hbody⟩ := Derives.rule_iff.1 h
  cases hread.symm.trans hfound
  simp only [List.mem_cons, List.not_mem_nil, or_false] at halternative
  rcases halternative with rfl | rfl
  -- From the rule of the branch itself no text has the u of a null in it.
  · have hsolid : ∀ id alternatives, id ∈ solidIds →
        (Session.compile {} offices "Branch" {}).2.table.reading id = some alternatives →
        ∀ alternative ∈ alternatives, Derives.Without (· ∈ solidIds) 'u' alternative :=
      fun id alternatives hid hfound alternative halternative =>
        without_of_solid (hclosed id hid alternatives hfound alternative halternative)
    have hfirst : Derives.Without (· ∈ solidIds) 'u' [.rule branchId] :=
      without_of_solid (by simpa [solid] using hbranch)
    exact Derives.not_mem_of_without hsolid hfirst hbody (by decide +kernel)
  · obtain ⟨alternatives, hfound, alternative, halternative, hbody⟩ := Derives.rule_iff.1 hbody
    cases hnull.symm.trans hfound
    obtain rfl := List.mem_singleton.1 halternative
    have htext := Derives.terminal_iff.1 hbody
    revert htext
    decide +kernel

end Offices
end RecordGrammar
