import RecordGrammar.Proofs.JsonTexts

/-! # Where a value ends

A scan over a text keeps track of strings and of open brackets. A value takes it from outside a
string back to outside a string at the same depth, and at depth nought it stops before whatever may
follow a value. So if two texts agree that start with a value each, then the values agree. -/

namespace RecordGrammar

inductive ScanMode where
  | outside
  | string
  | escaped
  deriving DecidableEq

/-- Reads one character with a number of open brackets. None if it does not belong to a value. -/
def scanChar : Nat × ScanMode → Char → Option (Nat × ScanMode)
  | (depth, .escaped), _ => some (depth, .string)
  | (depth, .string), c =>
    some (depth, if c = '"' then .outside else if c = '\\' then .escaped else .string)
  | (depth, .outside), c =>
    if c = '"' then some (depth, .string)
    else if c = '[' ∨ c = '\x7b' then some (depth + 1, .outside)
    else if depth = 0 then
      if c ∈ [']', '\x7d', ',', ':'] ∨ JsonReader.isSpace c = true then none else some (0, .outside)
    else some (if c = ']' ∨ c = '\x7d' then depth - 1 else depth, .outside)

/-- A text that a scan passes at any depth, as it passes a value. -/
def Closed (text : List Char) : Prop :=
  ∀ depth, text.foldlM scanChar (depth, .outside) = some (depth, .outside)

/-- A text that a scan passes inside brackets. -/
def Enclosable (text : List Char) : Prop :=
  ∀ depth, text.foldlM scanChar (depth + 1, .outside) = some (depth + 1, .outside)

/-- A text that a scan passes inside a string. -/
def Quotable (text : List Char) : Prop :=
  ∀ depth, text.foldlM scanChar (depth, .string) = some (depth, .string)

theorem Closed.enclosable {text : List Char} (h : Closed text) : Enclosable text :=
  fun depth => h (depth + 1)

namespace Enclosable

theorem nil : Enclosable [] := fun _ => rfl

theorem append {xs ys : List Char} (hx : Enclosable xs) (hy : Enclosable ys) :
    Enclosable (xs ++ ys) :=
  fun depth => by rw [List.foldlM_append, hx]; exact hy depth

theorem comma {text : List Char} (h : Enclosable text) : Enclosable (',' :: text) :=
  fun depth => h depth

theorem colon {text : List Char} (h : Enclosable text) : Enclosable (':' :: text) :=
  fun depth => h depth

theorem blank {text : List Char} (h : Blank text) : Enclosable text := by
  intro depth
  induction text with
  | nil => rfl
  | cons c text ih =>
    obtain ⟨hc, htext⟩ := List.forall_mem_cons.1 h
    have hstep : scanChar (depth + 1, .outside) c = some (depth + 1, .outside) := by
      have hspaces : c ∈ [' ', '\n', '\t', '\r'] := by simpa [JsonReader.isSpace, or_assoc] using hc
      simp only [List.mem_cons, List.not_mem_nil, or_false] at hspaces
      rcases hspaces with rfl | rfl | rfl | rfl <;> simp [scanChar]
    rw [List.foldlM_cons, hstep]
    exact ih htext

/-- Brackets and braces around such a text make a value. -/
theorem closed {text : List Char} (h : Enclosable text) :
    Closed ('[' :: (text ++ [']'])) ∧ Closed ('\x7b' :: (text ++ ['\x7d'])) := by
  refine ⟨fun depth => ?_, fun depth => ?_⟩ <;>
    rw [List.foldlM_cons, show scanChar (depth, .outside) _ = some (depth + 1, .outside) from rfl,
      Option.bind_eq_bind, Option.bind_some, List.foldlM_append, h] <;> rfl

end Enclosable

namespace Quotable

theorem append {xs ys : List Char} (hx : Quotable xs) (hy : Quotable ys) : Quotable (xs ++ ys) :=
  fun depth => by rw [List.foldlM_append, hx]; exact hy depth

theorem chars {text : List Char} (h : ∀ c ∈ text, c ≠ '"' ∧ c ≠ '\\') : Quotable text := by
  intro depth
  induction text with
  | nil => rfl
  | cons c text ih =>
    obtain ⟨⟨hquote, hbackslash⟩, htext⟩ := List.forall_mem_cons.1 h
    have hstep : scanChar (depth, .string) c = some (depth, .string) := by
      simp [scanChar, hquote, hbackslash]
    rw [List.foldlM_cons, hstep]
    exact ih htext

theorem escape {c : Char} {text : List Char} (h : Quotable text) : Quotable ('\\' :: c :: text) :=
  fun depth => h depth

theorem closed {text : List Char} (h : Quotable text) : Closed ('"' :: (text ++ ['"'])) := by
  intro depth
  rw [List.foldlM_cons, show scanChar (depth, .outside) '"' = some (depth, .string) from rfl,
    Option.bind_eq_bind, Option.bind_some, List.foldlM_append, h]
  rfl

end Quotable

/-- The characters that a scan passes outside of strings at any depth. -/
theorem Closed.of_bare {text : List Char} (h : ∀ c ∈ text,
    c ∉ ['"', '[', ']', '\x7b', '\x7d', ',', ':'] ∧ JsonReader.isSpace c = false) :
    Closed text := by
  intro depth
  induction text with
  | nil => rfl
  | cons c text ih =>
    obtain ⟨⟨hc, hspace⟩, htext⟩ := List.forall_mem_cons.1 h
    have hstep : scanChar (depth, .outside) c = some (depth, .outside) := by
      simp only [List.mem_cons, List.not_mem_nil, or_false, not_or] at hc
      by_cases hdepth : depth = 0 <;> simp [scanChar, hc, hspace, hdepth]
    rw [List.foldlM_cons, hstep]
    exact ih htext

theorem NumberText.closed {text : List Char} (h : NumberText text) : Closed text := by
  have hdigits : ∀ c ∈ "0123456789".toList ++ ['+', '-', '.', 'e', 'E'],
      c ∉ ['"', '[', ']', '\x7b', '\x7d', ',', ':'] ∧ JsonReader.isSpace c = false :=
    forall_mem_of_all (by decide)
  refine .of_bare fun c hc => hdigits c (List.mem_append.2 ((h.chars c hc).imp_left ?_))
  exact mem_decimal_iff.2

theorem hexValue_of_hexNumber {digits : List Char} {n : Nat} (h : hexNumber? digits = some n) :
    ∀ c ∈ digits, (hexValue? c).isSome = true := by
  suffices hall : ∀ (digits : List Char) (m n : Nat),
      digits.foldlM (fun n c => (hexValue? c).map (16 * n + ·)) m = some n →
        ∀ c ∈ digits, (hexValue? c).isSome = true from hall digits 0 n h
  intro digits
  induction digits with
  | nil => simp
  | cons c digits ih =>
    intro m n h
    rw [List.foldlM_cons] at h
    obtain ⟨k, hk, h⟩ := Option.bind_eq_some_iff.1 h
    obtain ⟨d, hd, -⟩ := Option.map_eq_some_iff.1 hk
    exact List.forall_mem_cons.2 ⟨by rw [hd]; rfl, ih k n h⟩

theorem quotable_of_hexNumber {digits : List Char} {n : Nat} (h : hexNumber? digits = some n) :
    Quotable digits := by
  refine .chars fun c hc => ⟨?_, ?_⟩ <;>
  · rintro rfl
    exact absurd (hexValue_of_hexNumber h _ hc) (by decide)

theorem StringBody.quotable {body chars : List Char} (h : StringBody body chars) :
    Quotable body := by
  induction h with
  | nil => exact fun _ => rfl
  | @plain c rest chars hc _ ih =>
    have hone : Quotable [c] := .chars (by simpa using ⟨hc.1, hc.2.1⟩)
    exact hone.append ih
  | letter _ _ ih => exact ih.escape
  | code hn _ _ ih => exact .escape ((quotable_of_hexNumber hn).append ih)
  | pair hn hn' _ _ ih =>
    exact .escape ((quotable_of_hexNumber hn).append (.escape ((quotable_of_hexNumber hn').append ih)))

theorem StringText.closed {s : String} {text : List Char} (h : StringText s text) :
    Closed text := by
  obtain ⟨body, chars, hbody, -, rfl⟩ := h
  exact hbody.quotable.closed

theorem KeyText.enclosable {key : String} {text : List Char} (h : KeyText key text) :
    Enclosable text := by
  obtain ⟨before, quoted, after, hbefore, hquoted, hafter, rfl⟩ := h
  exact (Enclosable.blank hbefore).append
    (hquoted.closed.enclosable.append (Enclosable.blank hafter))

mutual

/-- Every JSON text is that of a value. -/
theorem JsonText.closed {v : Json} {text : List Char} : JsonText v text → Closed text
  | .null => .of_bare (forall_mem_of_all (by decide))
  | .bool true => .of_bare (forall_mem_of_all (by decide))
  | .bool false => .of_bare (forall_mem_of_all (by decide))
  | .number shape _ => shape.1.closed
  | .string quoted => quoted.closed
  | .emptyArray blank => (Enclosable.blank blank).closed.1
  | .array inside => inside.enclosable.closed.1
  | .emptyObject blank => (Enclosable.blank blank).closed.2
  | .object inside _ => inside.enclosable.closed.2

theorem PaddedText.enclosable {v : Json} {text : List Char} : PaddedText v text → Enclosable text
  | .mk opening inside closing => (Enclosable.blank opening).append
      (inside.closed.enclosable.append (Enclosable.blank closing))

theorem ItemsText.enclosable {items : List Json} {text : List Char} :
    ItemsText items text → Enclosable text
  | .one item => item.enclosable
  | .cons item tail => item.enclosable.append tail.enclosable.comma

theorem MembersText.enclosable {entries : List (String × Json)} {text : List Char} :
    MembersText entries text → Enclosable text
  | .one hkey value => hkey.enclosable.append value.enclosable.colon
  | .cons hkey value tail =>
    hkey.enclosable.append (value.enclosable.append tail.enclosable.comma).colon

end

/-- What may follow a value. -/
def Stops (rest : List Char) : Prop :=
  ∀ c tail, rest = c :: tail → scanChar (0, .outside) c = none

/-- Nothing, or a text that starts with a mark that no value starts with. -/
def Marked (rest : List Char) : Prop :=
  ∀ c tail, rest = c :: tail → c ∈ [']', '\x7d', ',', ':']

namespace Marked

variable {rest : List Char}

theorem nil : Marked [] := by simp [Marked]

theorem comma (tail : List Char) : Marked (',' :: tail) := by
  rintro _ _ ⟨⟩
  decide

theorem colon (tail : List Char) : Marked (':' :: tail) := by
  rintro _ _ ⟨⟩
  decide

theorem stops (h : Marked rest) : Stops rest := by
  have hall : ∀ c ∈ [']', '\x7d', ',', ':'], scanChar (0, .outside) c = none :=
    forall_mem_of_all (by decide)
  exact fun c tail he => hall c (h c tail he)

theorem skipSpace_blank (h : Marked rest) {space : List Char} (hspace : Blank space) :
    JsonReader.skipSpace (space ++ rest) = rest := by
  have hall : ∀ c ∈ [']', '\x7d', ',', ':'], JsonReader.isSpace c = false :=
    forall_mem_of_all (by decide)
  rw [JsonReader.skipSpace, List.dropWhile_append_of_pos hspace]
  cases rest with
  | nil => rfl
  | cons c tail => exact List.dropWhile_cons_of_neg (by simp [hall c (h c tail rfl)])

end Marked

theorem scanChar_space {c : Char} (hc : JsonReader.isSpace c = true) :
    scanChar (0, .outside) c = none := by
  have hspaces : c ∈ [' ', '\n', '\t', '\r'] := by simpa [JsonReader.isSpace, or_assoc] using hc
  have hall : ∀ c ∈ [' ', '\n', '\t', '\r'], scanChar (0, .outside) c = none :=
    forall_mem_of_all (by decide)
  exact hall c hspaces

theorem Stops.blank {space rest : List Char} (hspace : Blank space) (hrest : Stops rest) :
    Stops (space ++ rest) := by
  cases space with
  | nil => exact hrest
  | cons c space =>
    rintro _ _ ⟨⟩
    exact scanChar_space (hspace c List.mem_cons_self)

private theorem Closed.eq_nil_of_append {xs ys rest : List Char} (hx : Closed xs)
    (hxy : Closed (xs ++ ys)) (hrest : Stops (ys ++ rest)) : ys = [] := by
  cases ys with
  | nil => rfl
  | cons c ys =>
    have hall := hxy 0
    rw [List.foldlM_append, hx, Option.bind_eq_bind, Option.bind_some, List.foldlM_cons,
      hrest c _ rfl] at hall
    cases hall

/-- A value ends at the first place where something stands that may follow it. -/
theorem Closed.eq_of_append {xs ys rest rest' : List Char} (hx : Closed xs) (hy : Closed ys)
    (hrest : Stops rest) (hrest' : Stops rest') (h : xs ++ rest = ys ++ rest') :
    xs = ys ∧ rest = rest' := by
  rcases List.append_eq_append_iff.1 h with ⟨more, rfl, rfl⟩ | ⟨more, rfl, rfl⟩
  · simp [hx.eq_nil_of_append hy hrest]
  · simp [hy.eq_nil_of_append hx hrest']

/-- A text with the bounds of a value. -/
structure ValueLike (text : List Char) : Prop where
  closed : Closed text
  ne_nil : text ≠ []

theorem JsonText.valueLike {v : Json} {text : List Char} (h : JsonText v text) :
    ValueLike text := by
  refine ⟨h.closed, ?_⟩
  obtain ⟨c, rest, rfl, -⟩ := h.opens
  exact List.cons_ne_nil c rest

theorem StringText.valueLike {s : String} {text : List Char} (h : StringText s text) :
    ValueLike text :=
  JsonText.valueLike (.string h)

theorem StringPart.quotable {part : List Char} (h : StringPart part) : Quotable part := by
  cases h with
  | plain hc => exact .chars (by simp_all)
  | letter _ => exact .escape fun _ => rfl
  | code _ hunits =>
    have hall : ∀ c ∈ JsonFragment.hexDigits, c ≠ '"' ∧ c ≠ '\\' :=
      forall_mem_of_all (by decide)
    exact .escape (.chars fun c hc => hall c (hunits c hc))

/-- Quotes around what the grammar writes for characters make a value. -/
theorem valueLike_of_parts {parts : List (List Char)} (h : ∀ part ∈ parts, StringPart part) :
    ValueLike ('"' :: (parts.flatten ++ ['"'])) := by
  suffices hparts : Quotable parts.flatten from ⟨hparts.closed, List.cons_ne_nil _ _⟩
  induction parts with
  | nil => exact fun _ => rfl
  | cons part parts ih =>
    obtain ⟨hpart, hparts⟩ := List.forall_mem_cons.1 h
    exact hpart.quotable.append (ih hparts)

theorem jsonString_valueLike (s : String) : ValueLike (jsonString s).toList := by
  obtain ⟨parts, hparts, htext⟩ := jsonString_parts s
  exact htext ▸ valueLike_of_parts hparts

theorem ValueLike.head {text : List Char} (h : ValueLike text) :
    ∃ c rest, text = c :: rest ∧ JsonReader.isSpace c = false := by
  cases text with
  | nil => exact absurd rfl h.ne_nil
  | cons c rest =>
    refine ⟨c, rest, rfl, Bool.eq_false_iff.2 fun hc => ?_⟩
    have hstop : Stops (c :: rest) := fun _ _ he => by
      rw [← (List.cons.inj he).1]
      exact scanChar_space hc
    have hpass := h.closed 0
    rw [List.foldlM_cons, hstop c _ rfl] at hpass
    cases hpass

theorem ValueLike.skipSpace_blank {space text rest : List Char} (h : ValueLike text)
    (hspace : Blank space) : JsonReader.skipSpace (space ++ (text ++ rest)) = text ++ rest := by
  obtain ⟨c, tail, rfl, hc⟩ := h.head
  rw [JsonReader.skipSpace, List.dropWhile_append_of_pos hspace]
  exact List.dropWhile_cons_of_neg (by simp [hc])

theorem ValueLike.not_blank {text rest : List Char} (h : ValueLike text) : ¬Blank (text ++ rest) := by
  obtain ⟨c, tail, rfl, hc⟩ := h.head
  exact fun hblank => by simp [hblank c] at hc

/-- What the space around two values and the marks behind them leave is the same. -/
theorem ValueLike.aligned {before after text space value rest rest' : List Char}
    (hbefore : Blank before) (htext : ValueLike text) (hafter : Blank after) (hrest : Marked rest)
    (hspace : Blank space) (hvalue : ValueLike value) (hrest' : Marked rest')
    (h : before ++ (text ++ after) ++ rest = space ++ (value ++ rest')) :
    text = value ∧ rest = rest' := by
  have hinner := congrArg JsonReader.skipSpace h
  rw [List.append_assoc, List.append_assoc, htext.skipSpace_blank hbefore,
    hvalue.skipSpace_blank hspace] at hinner
  obtain ⟨he, hbehind⟩ := htext.closed.eq_of_append hvalue.closed (.blank hafter hrest.stops)
    hrest'.stops hinner
  refine ⟨he, ?_⟩
  rw [← hrest.skipSpace_blank hafter, hbehind]
  exact hrest'.skipSpace_blank .nil

theorem PaddedText.aligned {v : Json} {text space value rest rest' : List Char}
    (h : PaddedText v text) (hrest : Marked rest) (hspace : Blank space)
    (hvalue : ValueLike value) (hrest' : Marked rest')
    (heq : text ++ rest = space ++ (value ++ rest')) : JsonText v value ∧ rest = rest' := by
  obtain ⟨opening, inside, closing⟩ := h
  obtain ⟨rfl, hbehind⟩ := ValueLike.aligned opening inside.valueLike closing hrest hspace hvalue
    hrest' heq
  exact ⟨inside, hbehind⟩

theorem KeyText.aligned {key name : String} {text space rest rest' : List Char}
    (h : KeyText key text) (hspace : Blank space)
    (heq : text ++ ':' :: rest = space ++ ((jsonString name).toList ++ ':' :: rest')) :
    key = name ∧ rest = rest' := by
  obtain ⟨before, quoted, after, hbefore, hquoted, hafter, rfl⟩ := h
  obtain ⟨rfl, hbehind⟩ := ValueLike.aligned hbefore hquoted.valueLike hafter (.colon rest) hspace
    (jsonString_valueLike name) (.colon rest') heq
  exact ⟨hquoted.of_jsonString, (List.cons.inj hbehind).2⟩

theorem blank_space : Blank [' '] := by simp [Blank, JsonReader.isSpace]

/-- The items of an array with commas and spaces between them. -/
theorem ItemsText.aligned {vs : List Json} {text space : List Char} {items : List (List Char)}
    (h : ItemsText vs text) (hspace : Blank space) (hne : items ≠ [])
    (hitems : ∀ item ∈ items, ValueLike item) (heq : text = space ++ joined items) :
    List.Forall₂ JsonText vs items := by
  induction items generalizing vs text space with
  | nil => exact absurd rfl hne
  | cons first items ih =>
    obtain ⟨hfirst, hitems⟩ := List.forall_mem_cons.1 hitems
    cases items with
    | nil =>
      rw [joined_singleton] at heq
      cases h with
      | one item =>
        exact .cons (item.aligned .nil hspace hfirst .nil (by simpa using heq)).1 .nil
      | cons item tail =>
        have := (item.aligned (.comma _) hspace hfirst .nil (by simpa using heq)).2
        cases this
    | cons second items =>
      rw [joined_cons_cons] at heq
      cases h with
      | one item =>
        have := (item.aligned .nil hspace hfirst (.comma _) (by simpa using heq)).2
        cases this
      | cons item tail =>
        obtain ⟨hitem, hrest⟩ := item.aligned (.comma _) hspace hfirst (.comma _) heq
        exact .cons hitem (ih tail blank_space (by simp) hitems (List.cons.inj hrest).2)

theorem entryText_eq (name : String) (value : List Char) :
    entryText name value = (jsonString name).toList ++ ':' :: ' ' :: value := rfl

/-- The members of an object with commas and spaces between them. -/
theorem MembersText.aligned {entries : List (String × Json)} {text space : List Char}
    {rows : List (String × List Char)} (h : MembersText entries text) (hspace : Blank space)
    (hne : rows ≠ []) (hrows : ∀ row ∈ rows, ValueLike row.2)
    (heq : text = space ++ joined (rows.map fun row => entryText row.1 row.2)) :
    List.Forall₂ (fun e row => e.1 = row.1 ∧ JsonText e.2 row.2) entries rows := by
  induction rows generalizing entries text space with
  | nil => exact absurd rfl hne
  | cons first rows ih =>
    obtain ⟨name, value⟩ := first
    obtain ⟨hvalue, hrows⟩ := List.forall_mem_cons.1 hrows
    cases rows with
    | nil =>
      rw [List.map_cons, List.map_nil, joined_singleton, entryText_eq] at heq
      cases h with
      | one hkey item =>
        obtain ⟨hname, hrest⟩ := hkey.aligned hspace heq
        have hitem := (item.aligned .nil blank_space hvalue .nil (by simpa using hrest)).1
        exact .cons ⟨hname, hitem⟩ .nil
      | cons hkey item tail =>
        obtain ⟨-, hrest⟩ := hkey.aligned hspace heq
        have := (item.aligned (.comma _) blank_space hvalue .nil (by simpa using hrest)).2
        cases this
    | cons second rows =>
      rw [List.map_cons, List.map_cons, joined_cons_cons, entryText_eq] at heq
      generalize htail : joined _ = tail at heq
      have heq' : text = space ++ ((jsonString name).toList ++
          ':' :: ' ' :: (value ++ ',' :: ' ' :: tail)) := by simpa using heq
      cases h with
      | one hkey item =>
        obtain ⟨-, hrest⟩ := hkey.aligned hspace heq'
        have := (item.aligned .nil blank_space hvalue (.comma _) (by simpa using hrest)).2
        cases this
      | cons hkey item rest =>
        obtain ⟨hname, hrest⟩ := hkey.aligned hspace heq'
        obtain ⟨hitem, hmore⟩ := item.aligned (.comma _) blank_space hvalue (.comma _) hrest
        rw [← htail] at hmore
        exact .cons ⟨hname, hitem⟩
          (ih rest blank_space (by simp) hrows (List.cons.inj hmore).2)

namespace Enclosable

theorem joined {entries : List (List Char)} (h : ∀ entry ∈ entries, Enclosable entry) :
    Enclosable (joined entries) := by
  cases entries with
  | nil => exact .nil
  | cons entry entries =>
    obtain ⟨hentry, hentries⟩ := List.forall_mem_cons.1 h
    rw [joined_cons]
    refine hentry.append ?_
    clear h hentry
    induction entries with
    | nil => exact .nil
    | cons entry entries ih =>
      obtain ⟨hentry, hentries⟩ := List.forall_mem_cons.1 hentries
      exact .append (.comma (.append (.blank blank_space) hentry)) (ih hentries)

theorem entryText {name : String} {value : List Char} (h : Enclosable value) :
    Enclosable (entryText name value) :=
  (jsonString_valueLike name).closed.enclosable.append (.colon (.append (.blank blank_space) h))

end Enclosable

theorem inBrackets_valueLike {items : List (List Char)} (h : ∀ item ∈ items, ValueLike item) :
    ValueLike (inBrackets items) :=
  ⟨(Enclosable.joined fun item hitem => (h item hitem).closed.enclosable).closed.1,
    List.cons_ne_nil _ _⟩

theorem inBraces_valueLike {rows : List (String × List Char)}
    (h : ∀ row ∈ rows, ValueLike row.2) :
    ValueLike (inBraces (rows.map fun row => entryText row.1 row.2)) := by
  refine ⟨(Enclosable.joined ?_).closed.2, List.cons_ne_nil _ _⟩
  exact List.forall_mem_map.2 fun row hrow => .entryText (h row hrow).closed.enclosable

theorem PaddedText.ne_nil {v : Json} {text : List Char} (h : PaddedText v text) : text ≠ [] := by
  obtain ⟨_, inside, _⟩ := h
  simp [inside.valueLike.ne_nil]

theorem ItemsText.ne_nil {vs : List Json} {text : List Char} (h : ItemsText vs text) :
    text ≠ [] := by
  cases h with
  | one item => exact item.ne_nil
  | cons => simp

theorem MembersText.ne_nil {entries : List (String × Json)} {text : List Char}
    (h : MembersText entries text) : text ≠ [] := by
  cases h <;> simp

namespace JsonText

variable {v : Json}

/-- What an array denotes whose items are divided as the grammar divides them. -/
theorem array_aligned {items : List (List Char)} (h : JsonText v (inBrackets items))
    (hitems : ∀ item ∈ items, ValueLike item) :
    ∃ vs, v = .array vs ∧ List.Forall₂ JsonText vs items := by
  rcases h.of_bracket with ⟨space, rfl, hspace, he⟩ | ⟨vs, text, rfl, hvs, he⟩
  · obtain rfl := List.append_cancel_right he
    cases items with
    | nil => exact ⟨[], rfl, .nil⟩
    | cons item items =>
      rw [joined_cons] at hspace
      exact absurd hspace (hitems item List.mem_cons_self).not_blank
  · obtain rfl := List.append_cancel_right he
    refine ⟨vs, rfl, hvs.aligned .nil ?_ hitems rfl⟩
    rintro rfl
    exact hvs.ne_nil rfl

/-- What an object denotes whose members are divided as the grammar divides them. -/
theorem object_aligned {rows : List (String × List Char)}
    (h : JsonText v (inBraces (rows.map fun row => entryText row.1 row.2)))
    (hrows : ∀ row ∈ rows, ValueLike row.2) (hnames : (rows.map Prod.fst).Nodup) :
    ∃ members, v = .object members ∧
      ∀ row ∈ rows, ∃ value, members.lookup row.1 = some value ∧ JsonText value row.2 := by
  rcases h.of_brace with ⟨space, rfl, hspace, he⟩ |
    ⟨members, entries, text, rfl, hentries, hkept, he⟩
  · obtain rfl := List.append_cancel_right he
    cases rows with
    | nil => exact ⟨[], rfl, by simp⟩
    | cons row rows =>
      rw [List.map_cons, joined_cons, entryText, List.append_assoc] at hspace
      exact absurd hspace (jsonString_valueLike row.1).not_blank
  · obtain rfl := List.append_cancel_right he
    have hne : rows ≠ [] := by
      rintro rfl
      exact hentries.ne_nil rfl
    have heach := hentries.aligned .nil hne hrows rfl
    have hkeys : entries.map Prod.fst = rows.map Prod.fst :=
      map_eq_of_forall₂ (heach.imp fun _ _ h => h.1)
    refine ⟨members, rfl, fun row hrow => ?_⟩
    obtain ⟨e, he, hkey, htext⟩ := exists_of_forall₂ heach row hrow
    exact ⟨e.2, hkey ▸ hkept (hkeys ▸ hnames) e he, htext⟩

end JsonText

end RecordGrammar
