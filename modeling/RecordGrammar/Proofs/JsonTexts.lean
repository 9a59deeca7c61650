import RecordGrammar.Proofs.EscapedStrings
import RecordGrammar.Proofs.ScalarRendering

/-! # The JSON texts of a value

The grammar of RFC 8259, with the value that a text denotes. What number a text denotes matters only
where it is the plain text of an integer of 64 bits, and an object of distinct keys holds each of
them. -/

namespace RecordGrammar

/-- Space that may stand between two tokens. -/
def Blank (text : List Char) : Prop := ∀ c ∈ text, JsonReader.isSpace c = true

theorem Blank.nil : Blank [] := by simp [Blank]

/-- A text between the quotes of a string, and the characters that it denotes. -/
inductive StringBody : List Char → List Char → Prop where
  | nil : StringBody [] []
  | plain {c rest chars} (hc : c ≠ '"' ∧ c ≠ '\\' ∧ 32 ≤ c.toNat) (tail : StringBody rest chars) :
      StringBody (c :: rest) (c :: chars)
  | letter {c d rest chars} (hc : JsonReader.escaped? c = some d) (tail : StringBody rest chars) :
      StringBody ('\\' :: c :: rest) (d :: chars)
  | code {a b c d n rest chars} (hn : hexNumber? [a, b, c, d] = some n)
      (alone : JsonReader.isLeading n = false ∧ JsonReader.isTrailing n = false)
      (tail : StringBody rest chars) :
      StringBody ('\\' :: 'u' :: a :: b :: c :: d :: rest) (Char.ofNat n :: chars)
  | pair {a b c d a' b' c' d' n n' rest chars} (hn : hexNumber? [a, b, c, d] = some n)
      (hn' : hexNumber? [a', b', c', d'] = some n')
      (both : JsonReader.isLeading n = true ∧ JsonReader.isTrailing n' = true)
      (tail : StringBody rest chars) :
      StringBody ('\\' :: 'u' :: a :: b :: c :: d :: '\\' :: 'u' :: a' :: b' :: c' :: d' :: rest)
        (Char.ofNat (0x10000 + (n - 0xd800) * 0x400 + (n' - 0xdc00)) :: chars)

/-- A string in quotes. -/
def StringText (key : String) (text : List Char) : Prop :=
  ∃ body chars, StringBody body chars ∧ key = String.ofList chars ∧ text = '"' :: (body ++ ['"'])

/-- A key with space around it. -/
def KeyText (key : String) (text : List Char) : Prop :=
  ∃ before quoted after, Blank before ∧ StringText key quoted ∧ Blank after ∧
    text = before ++ (quoted ++ after)

/-- The text of an integer of 64 bits denotes that integer. -/
def NumberDenotes (n : JsonNumber) (text : List Char) : Prop :=
  ∀ k : Int64, text = (toString k.toInt).toList → n = .int k.toInt

/-- Where no two members have the same key, each of them is kept. -/
def MembersKept (entries members : List (String × Json)) : Prop :=
  (entries.map Prod.fst).Nodup → ∀ e ∈ entries, members.lookup e.1 = some e.2

mutual

/-- The texts of a value without space around it. -/
inductive JsonText : Json → List Char → Prop where
  | null : JsonText .null "null".toList
  | bool (b : Bool) : JsonText (.bool b) (if b then "true".toList else "false".toList)
  | number {n text} (shape : NumberText text ∧ text.head? ≠ some '+')
      (denotes : NumberDenotes n text) : JsonText (.number n) text
  | string {s text} (quoted : StringText s text) : JsonText (.string s) text
  | emptyArray {space} (blank : Blank space) : JsonText (.array []) ('[' :: (space ++ [']']))
  | array {items text} (inside : ItemsText items text) :
      JsonText (.array items) ('[' :: (text ++ [']']))
  | emptyObject {space} (blank : Blank space) :
      JsonText (.object []) ('\x7b' :: (space ++ ['\x7d']))
  | object {members entries text} (inside : MembersText entries text)
      (kept : MembersKept entries members) :
      JsonText (.object members) ('\x7b' :: (text ++ ['\x7d']))

/-- The texts of a value with space around it. -/
inductive PaddedText : Json → List Char → Prop where
  | mk {v before text after} (opening : Blank before) (inside : JsonText v text)
      (closing : Blank after) : PaddedText v (before ++ (text ++ after))

inductive ItemsText : List Json → List Char → Prop where
  | one {v text} (item : PaddedText v text) : ItemsText [v] text
  | cons {v text items rest} (item : PaddedText v text) (tail : ItemsText items rest) :
      ItemsText (v :: items) (text ++ ',' :: rest)

inductive MembersText : List (String × Json) → List Char → Prop where
  | one {key keyText v text} (hkey : KeyText key keyText) (value : PaddedText v text) :
      MembersText [(key, v)] (keyText ++ ':' :: text)
  | cons {key keyText v text entries rest} (hkey : KeyText key keyText)
      (value : PaddedText v text) (tail : MembersText entries rest) :
      MembersText ((key, v) :: entries) (keyText ++ ':' :: (text ++ ',' :: rest))

end

theorem NumberText.ne_nil {text : List Char} (h : NumberText text) : text ≠ [] := by
  obtain ⟨sign, whole, fraction, exponent, -, ⟨⟨hne, -⟩, -⟩, -, -, rfl⟩ := h
  simp [hne]

/-- The characters that a number is made of. -/
theorem NumberText.chars {text : List Char} (h : NumberText text) :
    ∀ c ∈ text, c.isDigit = true ∨ c ∈ ['+', '-', '.', 'e', 'E'] := by
  obtain ⟨sign, whole, fraction, exponent, hsign, ⟨⟨-, hwhole⟩, -⟩, hfraction, hexponent, rfl⟩ := h
  have hsigns {sign : List Char} (h : SignText sign) : sign ⊆ ['+', '-', '.', 'e', 'E'] := by
    rcases h with rfl | rfl | rfl <;> simp
  intro c hc
  simp only [List.mem_append] at hc
  rcases hc with hc | hc | hc | hc
  · exact .inr (hsigns hsign hc)
  · exact .inl (hwhole c hc)
  · rcases hfraction with rfl | ⟨digits, ⟨-, hdigits⟩, rfl⟩
    · simp at hc
    · rcases List.mem_cons.1 hc with rfl | hc
      · simp
      · exact .inl (hdigits c hc)
  · rcases hexponent with rfl | ⟨mark, sign, digits, hmark, hsign, ⟨-, hdigits⟩, rfl⟩
    · simp at hc
    · rcases List.mem_cons.1 hc with rfl | hc
      · exact .inr (List.mem_append_right ['+', '-', '.'] hmark)
      · rcases List.mem_append.1 hc with hc | hc
        · exact .inr (hsigns hsign hc)
        · exact .inl (hdigits c hc)

/-- The character that a value of a kind starts with. -/
def Json.Opens (c : Char) : Json → Prop
  | .null => c = 'n'
  | .bool b => c = if b then 't' else 'f'
  | .number _ => c.isDigit = true ∨ c = '-'
  | .string _ => c = '"'
  | .array _ => c = '['
  | .object _ => c = '\x7b'

theorem NumberText.head {c : Char} {rest : List Char} (h : NumberText (c :: rest)) :
    c.isDigit = true ∨ c = '+' ∨ c = '-' := by
  obtain ⟨sign, whole, fraction, exponent, hsign, ⟨⟨hne, hwhole⟩, -⟩, -, -, htext⟩ := h
  rcases hsign with rfl | rfl | rfl
  · cases whole with
    | nil => exact absurd rfl hne
    | cons d whole =>
      simp only [List.nil_append, List.cons_append, List.cons.injEq] at htext
      exact .inl (htext.1 ▸ hwhole d List.mem_cons_self)
  · exact .inr (.inl (List.cons.inj htext).1)
  · exact .inr (.inr (List.cons.inj htext).1)

/-- The first character of a text tells the kind of the value. -/
theorem JsonText.opens {v : Json} {text : List Char} (h : JsonText v text) :
    ∃ c rest, text = c :: rest ∧ v.Opens c := by
  cases h with
  | null => exact ⟨_, _, rfl, rfl⟩
  | bool b => cases b <;> exact ⟨_, _, rfl, rfl⟩
  | @number n text shape _ =>
    cases text with
    | nil => exact absurd rfl shape.1.ne_nil
    | cons c rest =>
      have hplus : c ≠ '+' := by simpa using shape.2
      exact ⟨c, rest, rfl, shape.1.head.imp_right (·.resolve_left hplus)⟩
  | string quoted =>
    obtain ⟨body, chars, -, -, rfl⟩ := quoted
    exact ⟨_, _, rfl, rfl⟩
  | emptyArray _ => exact ⟨_, _, rfl, rfl⟩
  | array _ => exact ⟨_, _, rfl, rfl⟩
  | emptyObject _ => exact ⟨_, _, rfl, rfl⟩
  | object _ _ => exact ⟨_, _, rfl, rfl⟩

theorem StringBody.of_letter {c d : Char} {rest chars : List Char}
    (h : StringBody ('\\' :: c :: rest) chars) (hd : JsonReader.escaped? c = some d) :
    ∃ tail, chars = d :: tail ∧ StringBody rest tail := by
  cases h with
  | plain hc _ => exact absurd rfl hc.2.1
  | letter hc tail =>
    cases hc.symm.trans hd
    exact ⟨_, rfl, tail⟩
  | code => cases hd
  | pair => cases hd

/-- What a character is written as denotes that character. -/
theorem StringBody.of_escaped {c : Char} {written rest chars : List Char}
    (hc : EscapedAs c written) (h : StringBody (written ++ rest) chars) :
    ∃ tail, chars = c :: tail ∧ StringBody rest tail := by
  cases hc with
  | itself hc =>
    have hbackslash : c ≠ '\\' := fun he => hc (.inr (.inl he))
    cases h with
    | plain _ tail => exact ⟨_, rfl, tail⟩
    | letter => exact absurd rfl hbackslash
    | code => exact absurd rfl hbackslash
    | pair => exact absurd rfl hbackslash
  | letter _ hd => exact h.of_letter hd
  | code hc hcode =>
    cases h with
    | plain hc _ => exact absurd rfl hc.2.1
    | letter hd _ => cases hd
    | code hn _ tail =>
      cases hn.symm.trans hcode
      exact ⟨_, by simp, tail⟩
    | pair hn _ both _ =>
      cases hn.symm.trans hcode
      have hsmall := hc.toNat_lt
      have hleading := both.1
      simp only [JsonReader.isLeading, Bool.and_eq_true, decide_eq_true_eq] at hleading
      omega

/-- The JSON text of a string denotes that string. -/
theorem StringText.of_jsonString {key name : String}
    (h : StringText key (jsonString name).toList) : key = name := by
  obtain ⟨body, chars, hbody, rfl, htext⟩ := h
  have hinside : body = name.toList.flatMap jsonEscapeChar := by
    simpa [jsonString] using htext.symm
  subst hinside
  suffices hchars : ∀ name chars, StringBody (name.flatMap jsonEscapeChar) chars → chars = name by
    rw [hchars _ _ hbody, String.ofList_toList]
  intro name
  induction name with
  | nil =>
    intro chars h
    cases h
    rfl
  | cons c name ih =>
    intro chars h
    obtain ⟨tail, rfl, htail⟩ :=
      StringBody.of_escaped (jsonEscapeChar_escapedAs c) (by simpa using h)
    rw [ih tail htail]

namespace JsonText

variable {v : Json} {c : Char} {rest : List Char}

theorem opens_cons (h : JsonText v (c :: rest)) : v.Opens c := by
  obtain ⟨_, _, he, hopens⟩ := h.opens
  cases he
  exact hopens

theorem of_quote (h : JsonText v ('"' :: rest)) :
    ∃ s, v = .string s ∧ StringText s ('"' :: rest) := by
  have hopens := h.opens_cons
  cases v with
  | string s =>
    cases h with
    | string quoted => exact ⟨s, rfl, quoted⟩
  | bool b => cases b <;> simp [Json.Opens] at hopens
  | _ => simp [Json.Opens] at hopens

theorem of_bracket (h : JsonText v ('[' :: rest)) :
    (∃ space, v = .array [] ∧ Blank space ∧ rest = space ++ [']']) ∨
      ∃ items text, v = .array items ∧ ItemsText items text ∧ rest = text ++ [']'] := by
  have hopens := h.opens_cons
  cases v with
  | array items =>
    cases h with
    | emptyArray blank => exact .inl ⟨_, rfl, blank, rfl⟩
    | array inside => exact .inr ⟨_, _, rfl, inside, rfl⟩
  | bool b => cases b <;> simp [Json.Opens] at hopens
  | _ => simp [Json.Opens] at hopens

theorem of_brace (h : JsonText v ('\x7b' :: rest)) :
    (∃ space, v = .object [] ∧ Blank space ∧ rest = space ++ ['\x7d']) ∨
      ∃ members entries text, v = .object members ∧ MembersText entries text ∧
        MembersKept entries members ∧ rest = text ++ ['\x7d'] := by
  have hopens := h.opens_cons
  cases v with
  | object members =>
    cases h with
    | emptyObject blank => exact .inl ⟨_, rfl, blank, rfl⟩
    | object inside kept => exact .inr ⟨_, _, _, rfl, inside, kept, rfl⟩
  | bool b => cases b <;> simp [Json.Opens] at hopens
  | _ => simp [Json.Opens] at hopens

theorem of_number {text : List Char} (h : JsonText v text) (hnumber : NumberText text) :
    ∃ n, v = .number n ∧ NumberDenotes n text := by
  obtain ⟨c, rest, rfl, hopens⟩ := h.opens
  have hhead := hnumber.head
  cases v with
  | number n =>
    cases h with
    | number _ denotes => exact ⟨n, rfl, denotes⟩
  | bool b => cases b <;> simp_all [Json.Opens]
  | _ => simp_all [Json.Opens]

theorem of_boolean {b : Bool} (h : JsonText v (if b then "true".toList else "false".toList)) :
    v = .bool b := by
  obtain ⟨c, rest, htext, hopens⟩ := h.opens
  have hc : c = if b then 't' else 'f' := by cases b <;> exact (List.cons.inj htext).1.symm
  subst hc
  cases v with
  | bool b' => cases b <;> cases b' <;> simp [Json.Opens] at hopens ⊢
  | _ => cases b <;> simp [Json.Opens] at hopens

end JsonText

/-- A text of a literal denotes that literal. -/
theorem Literal.holds_of_text {l : Literal} {v : Json} (h : JsonText v l.text.toList) :
    l.holds v = true := by
  cases l with
  | bool b =>
    have hv : v = .bool b := JsonText.of_boolean (by cases b <;> exact h)
    simp [hv, holds]
  | int k =>
    obtain ⟨n, rfl, hdenotes⟩ := h.of_number (number_of_int k.toInt)
    simp [hdenotes k rfl, holds]
  | string s =>
    have htext : (jsonString s).toList = '"' :: (s.toList.flatMap jsonEscapeChar ++ ['"']) := by
      simp [jsonString]
    have hs : JsonText v (jsonString s).toList := h
    obtain ⟨s', rfl, hquoted⟩ := (htext ▸ hs).of_quote
    simp [StringText.of_jsonString (htext ▸ hquoted), holds]

end RecordGrammar
