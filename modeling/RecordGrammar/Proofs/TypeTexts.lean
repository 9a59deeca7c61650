import RecordGrammar.Proofs.SchemaPlacement
import RecordGrammar.Proofs.TextAlignment

/-! # The texts that the rules of a schema derive have the bounds of values -/

namespace RecordGrammar

theorem sublist_joined {entries : List (List Char)} :
    ∀ entry ∈ entries, List.Sublist entry (joined entries) := by
  cases entries with
  | nil => simp
  | cons first entries =>
    rw [joined_cons, List.flatMap_def]
    refine List.forall_mem_cons.2 ⟨List.sublist_append_left _ _, fun entry hentry => ?_⟩
    have hpart := List.sublist_flatten_of_mem (List.mem_map_of_mem (f := ([',', ' '] ++ ·)) hentry)
    exact (List.sublist_append_right _ _).trans (hpart.trans (List.sublist_append_right _ _))

theorem length_lt_inBrackets {items : List (List Char)} :
    ∀ item ∈ items, item.length < (inBrackets items).length := by
  intro item hitem
  have := (sublist_joined item hitem).length_le
  simp only [inBrackets, List.length_cons, List.length_append]
  omega

theorem length_lt_inBraces {rows : List (String × List Char)} : ∀ row ∈ rows,
    row.2.length < (inBraces (rows.map fun row => entryText row.1 row.2)).length := by
  intro row hrow
  have := (sublist_joined _ (List.mem_map_of_mem (f := fun row => entryText row.1 row.2) hrow)).length_le
  simp only [entryText, inBraces, List.length_cons, List.length_append] at this ⊢
  omega

theorem Literal.valueLike (l : Literal) : ValueLike l.text.toList := by
  cases l with
  | bool b => cases b <;> exact ⟨.of_bare (forall_mem_of_all (by decide)), by decide⟩
  | int n => exact ⟨(number_of_int n.toInt).closed, (number_of_int n.toInt).ne_nil⟩
  | string s => exact jsonString_valueLike s

/-- A text that the rule of a type derives. -/
def TypeText (registry : Registry) (root : String) (options : SchemaOptions) (t : RuleTable)
    (ty : FieldType) (text : List Char) : Prop :=
  ∃ handle, registry.Placed root options ty handle ∧ t.Texts handle text

/-- An object of the visible fields of a record, each with a text of its type. -/
def RecordText (registry : Registry) (root : String) (options : SchemaOptions) (t : RuleTable)
    (definition : RecordSchema) (text : List Char) : Prop :=
  ∃ named : List (String × List Char),
    List.Forall₂ (fun f row => row.1 = f.name ∧ TypeText registry root options t f.type row.2)
      definition.visibleFields named ∧
    text = inBraces (named.map fun row => entryText row.1 row.2)

section

variable {registry : Registry} {root : String} {options : SchemaOptions} {start : RuleHandle}
  {t : RuleTable} {text : List Char}

private theorem named_of_rows {fields : List Field} {rows : List (String × RuleHandle)}
    {values : List (List Char)} (hrows : List.Forall₂ (fun f row => row.1 = f.name ∧
      registry.Placed root options f.type row.2) fields rows)
    (hvalues : List.Forall₂ (fun row => t.Texts row.2) rows values) :
    ∃ named : List (String × List Char),
      List.Forall₂ (fun f row => row.1 = f.name ∧ TypeText registry root options t f.type row.2)
        fields named ∧
      List.zipWith (fun row => entryText row.1) rows values =
        named.map fun row => entryText row.1 row.2 := by
  induction hrows generalizing values with
  | nil => exact ⟨[], .nil, by simp⟩
  | @cons f row _ _ hrow _ ih =>
    cases hvalues with
    | @cons _ value _ _ hvalue hvalues =>
      obtain ⟨named, hnamed, he⟩ := ih hvalues
      exact ⟨(row.1, value) :: named, .cons ⟨hrow.1, row.2, hrow.2, hvalue⟩ hnamed, by simp [he]⟩

theorem Registry.PlacedRows.recordText {definition : RecordSchema}
    {rows : List (String × RuleHandle)}
    (hok : (schemaPlan registry root options).outcome = .ok start)
    (h : t.HoldsActs (schemaPlan registry root options).acts)
    (hrows : registry.PlacedRows root options definition rows)
    (hformat : ∀ f ∈ definition.visibleFields, f.format = none)
    (htext : t.Texts (Fragment.object rows).handle text) :
    RecordText registry root options t definition text := by
  obtain ⟨values, hvalues, rfl⟩ := (rows_texts hok h hrows).1 htext
  obtain ⟨named, hnamed, he⟩ := named_of_rows (hrows.types hformat) hvalues
  exact ⟨named, hnamed, congrArg inBraces he⟩

namespace TypeText

variable {ty : FieldType} (h : t.HoldsActs (schemaPlan registry root options).acts)

include h

theorem list {element : FieldType} (htext : TypeText registry root options t (.list element) text) :
    ∃ items, (∀ item ∈ items, TypeText registry root options t element item) ∧
      text = inBrackets items := by
  obtain ⟨handle, hplaced, htext⟩ := htext
  obtain ⟨inner, hinner, htexts⟩ := list_placed h hplaced
  obtain ⟨items, hitems, rfl⟩ := (htexts text).1 htext
  exact ⟨items, fun item hitem => ⟨inner, hinner, hitems item hitem⟩, rfl⟩

theorem tuple {types : List FieldType}
    (htext : TypeText registry root options t (.tuple types) text) : checkTuple types = .ok () ∧
      ∃ items, List.Forall₂ (TypeText registry root options t) types items ∧
        text = inBrackets items := by
  obtain ⟨handle, hplaced, htext⟩ := htext
  obtain ⟨hcheck, members, hmembers, htexts⟩ := tuple_placed h hplaced
  obtain ⟨items, hitems, rfl⟩ := (htexts text).1 htext
  refine ⟨hcheck, items, ?_, rfl⟩
  clear htexts htext hplaced hcheck
  induction hmembers generalizing items with
  | nil =>
    cases hitems
    exact .nil
  | cons hmember _ ih =>
    cases hitems with
    | cons hitem hitems => exact .cons ⟨_, hmember, hitem⟩ (ih _ hitems)

theorem number (hty : ty = .int ∨ ty = .float) (htext : TypeText registry root options t ty text) :
    NumberText text := by
  obtain ⟨handle, hplaced, htext⟩ := htext
  exact (number_placed h hty hplaced).1 htext

theorem string (htext : TypeText registry root options t .string text) :
    ∃ parts : List (List Char), (∀ part ∈ parts, StringPart part) ∧
      text = '"' :: (parts.flatten ++ ['"']) := by
  obtain ⟨handle, hplaced, htext⟩ := htext
  exact (string_placed h hplaced).1 htext

theorem bool (htext : TypeText registry root options t .bool text) :
    ∃ b : Bool, text = if b then "true".toList else "false".toList := by
  obtain ⟨handle, hplaced, htext⟩ := htext
  rcases (bool_placed h hplaced).1 htext with rfl | rfl
  · exact ⟨true, rfl⟩
  · exact ⟨false, rfl⟩

theorem literal {l : Literal} (hclear : l.Clear)
    (htext : TypeText registry root options t (.literal l) text) : text = l.text.toList := by
  obtain ⟨handle, hplaced, htext⟩ := htext
  exact (literal_placed h hplaced hclear).1 htext

theorem union {members : List FieldType}
    (hclear : ∀ l, registry.Reaches root (.literal l) → l.Clear)
    (htext : TypeText registry root options t (.union members) text) :
    ∃ literals, unionLiterals members = .ok literals ∧ ∃ l ∈ literals, text = l.text.toList := by
  obtain ⟨handle, hplaced, htext⟩ := htext
  obtain ⟨literals, hliterals, htexts⟩ := union_placed h hplaced hclear
  exact ⟨literals, hliterals, (htexts text).1 htext⟩

theorem record {name : String} (hok : (schemaPlan registry root options).outcome = .ok start)
    (hformat : ∀ f, registry.ReachesField root f → f.format = none)
    (htext : TypeText registry root options t (.record name) text) :
    registry.Reaches root (.record name) ∧ ∃ definition, registry.record name = .ok definition ∧
      RecordText registry root options t definition text := by
  obtain ⟨handle, hplaced, htext⟩ := htext
  obtain ⟨definition, rows, hrecord, hrows, htexts⟩ := record_placed hok h hplaced
  have hfields : ∀ f ∈ definition.visibleFields, f.format = none :=
    fun f hf => hformat f ⟨name, definition, hplaced.reaches, hrecord, hf⟩
  exact ⟨hplaced.reaches, definition, hrecord,
    hrows.recordText hok h hfields ((htexts text).1 htext)⟩

end TypeText

section

variable (hok : (schemaPlan registry root options).outcome = .ok start)
  (h : t.HoldsActs (schemaPlan registry root options).acts)
  (hformat : ∀ f, registry.ReachesField root f → f.format = none)
  (hclear : ∀ l, registry.Reaches root (.literal l) → l.Clear)

include hok h hformat hclear

/-- Every text of a type has the bounds of a value. The parts of a container are shorter than its
text. -/
theorem TypeText.valueLike {ty : FieldType} (htext : TypeText registry root options t ty text) :
    ValueLike text := by
  induction hlength : text.length using Nat.strongRecOn generalizing text ty with
  | ind n ih =>
    cases ty with
    | int => exact ⟨(htext.number h (.inl rfl)).closed, (htext.number h (.inl rfl)).ne_nil⟩
    | float => exact ⟨(htext.number h (.inr rfl)).closed, (htext.number h (.inr rfl)).ne_nil⟩
    | string =>
      obtain ⟨parts, hparts, rfl⟩ := htext.string h
      exact valueLike_of_parts hparts
    | bool =>
      obtain ⟨b, rfl⟩ := htext.bool h
      exact (JsonText.bool b).valueLike
    | variadic =>
      obtain ⟨handle, hplaced, -⟩ := htext
      exact absurd rfl hplaced.ne_marker.1
    | unknownList =>
      obtain ⟨handle, hplaced, -⟩ := htext
      exact absurd rfl hplaced.ne_marker.2
    | list element =>
      obtain ⟨items, hitems, rfl⟩ := htext.list h
      exact inBrackets_valueLike fun item hitem =>
        ih _ (hlength ▸ length_lt_inBrackets item hitem) (hitems item hitem) rfl
    | tuple types =>
      obtain ⟨-, items, hitems, rfl⟩ := htext.tuple h
      refine inBrackets_valueLike fun item hitem => ?_
      obtain ⟨ty, -, hty⟩ := exists_of_forall₂ hitems item hitem
      exact ih _ (hlength ▸ length_lt_inBrackets item hitem) hty rfl
    | literal l =>
      obtain ⟨handle, hplaced, -⟩ := id htext
      obtain rfl := htext.literal h (hclear l hplaced.reaches)
      exact l.valueLike
    | union members =>
      obtain ⟨_, -, l, -, rfl⟩ := htext.union h hclear
      exact l.valueLike
    | record name =>
      obtain ⟨-, definition, -, named, hnamed, rfl⟩ := htext.record h hok hformat
      refine inBraces_valueLike fun row hrow => ?_
      obtain ⟨f, -, -, hty⟩ := exists_of_forall₂ hnamed row hrow
      exact ih _ (hlength ▸ length_lt_inBraces row hrow) hty rfl

theorem RecordText.valueLike {definition : RecordSchema}
    (htext : RecordText registry root options t definition text) : ValueLike text := by
  obtain ⟨named, hnamed, rfl⟩ := htext
  refine inBraces_valueLike fun row hrow => ?_
  obtain ⟨f, -, -, hty⟩ := exists_of_forall₂ hnamed row hrow
  exact hty.valueLike hok h hformat hclear

end

end

end RecordGrammar
