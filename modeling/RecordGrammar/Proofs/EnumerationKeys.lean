import RecordGrammar.Proofs.JsonReading
import Std.Data.String.ToInt

/-! # The key of an enumeration tells its literals

The key is the production itself, the terminals of the literals with a bar between any two of them.
A terminal that holds both quotes cannot be read as a terminal. Still the literal in it can be read:
a string ends at the first quote that is not escaped, whatever else it holds. -/

namespace RecordGrammar

namespace JsonReader

variable {rest after : List Char} {units : List StringUnit} {chars : List Char}

theorem readUnits_letter {c d : Char} (hd : escaped? d = some c)
    (h : readUnits rest = some (units, after)) :
    readUnits ('\\' :: d :: rest) = some (.char c :: units, after) := by
  have hu : d ≠ 'u' := by
    rintro rfl
    cases hd
  rw [readUnits, hd, h]
  · rfl
  · intro _ _ _ _ _ he
    exact absurd he hu

theorem characters_char (c : Char) (h : characters units = some chars) :
    characters (.char c :: units) = some (c :: chars) := by
  rw [characters, h, Option.map_some]

/-- A unit below the surrogates stands for itself. -/
theorem characters_code {n : Nat} (hn : n < 0xd800) (h : characters units = some chars) :
    characters (.code n :: units) = some (Char.ofNat n :: chars) := by
  have hlead : isLeading n = false := by simp [isLeading]; omega
  have htrail : isTrailing n = false := by simp [isTrailing]; omega
  have hsame : characters (.code n :: units) = (characters units).map (Char.ofNat n :: ·) := by
    cases units with
    | nil => simp [characters, hlead, htrail]
    | cons unit units => cases unit <;> simp [characters, hlead, htrail]
  rw [hsame, h, Option.map_some]

theorem readUnits_plain {c : Char} (hc : ¬MustEscape c) (h : readUnits rest = some (units, after)) :
    readUnits (c :: rest) = some (.char c :: units, after) := by
  obtain ⟨hquote, hbackslash, hsmall⟩ : c ≠ '"' ∧ c ≠ '\\' ∧ ¬c.toNat < 32 := by
    rwa [MustEscape, not_or, not_or] at hc
  have hplain : ¬(c < ' ' ∨ c = '\\') := not_or.2 ⟨hsmall, hbackslash⟩
  rw [readUnits, if_neg hplain, h]
  · rfl
  · exact hquote
  · intro _ _ _ _ _ he
    exact absurd he hbackslash
  · intro _ _ he
    exact absurd he hbackslash

/-- What a character is written as is read as one unit, which stands for that character. -/
theorem readUnits_escapedAs {c : Char} {written : List Char} (hc : EscapedAs c written)
    (h : readUnits rest = some (units, after)) (hchars : characters units = some chars) :
    ∃ unit, readUnits (written ++ rest) = some (unit :: units, after) ∧
      characters (unit :: units) = some (c :: chars) := by
  cases hc with
  | itself hc => exact ⟨_, readUnits_plain hc h, characters_char c hchars⟩
  | letter _ hd => exact ⟨_, readUnits_letter hd h, characters_char c hchars⟩
  | code hc hcode =>
    refine ⟨.code c.toNat, by simp [readUnits, hcode, h], ?_⟩
    have hsmall := hc.toNat_lt
    have hcharacters := characters_code (n := c.toNat) (by omega) hchars
    rwa [Char.ofNat_toNat] at hcharacters

/-- What is escaped between quotes is read back, up to the closing one. -/
theorem readUnits_escaped (cs rest : List Char) : ∃ units,
    readUnits (cs.flatMap jsonEscapeChar ++ '"' :: rest) = some (units, rest) ∧
      characters units = some cs := by
  induction cs with
  | nil => exact ⟨[], by simp [readUnits], rfl⟩
  | cons c cs ih =>
    obtain ⟨units, hread, hchars⟩ := ih
    rw [List.flatMap_cons, List.append_assoc]
    obtain ⟨unit, hread, hchars⟩ := readUnits_escapedAs (jsonEscapeChar_escapedAs c) hread hchars
    exact ⟨unit :: units, hread, hchars⟩

end JsonReader

/-- Texts that start with strings start with the same one, if they are the same. -/
theorem jsonString_append_inj {s s' : String} {rest rest' : List Char}
    (h : (jsonString s).toList ++ rest = (jsonString s').toList ++ rest') :
    s = s' ∧ rest = rest' := by
  obtain ⟨units, hread, hchars⟩ := JsonReader.readUnits_escaped s.toList rest
  obtain ⟨units', hread', hchars'⟩ := JsonReader.readUnits_escaped s'.toList rest'
  have hinside : s.toList.flatMap jsonEscapeChar ++ '"' :: rest =
      s'.toList.flatMap jsonEscapeChar ++ '"' :: rest' := by
    simpa [jsonString] using h
  obtain ⟨rfl, rfl⟩ := Prod.mk.inj (Option.some.inj (hread.symm.trans (hinside ▸ hread')))
  exact ⟨String.toList_inj.1 (Option.some.inj (hchars.symm.trans hchars')), rfl⟩

/-- Escapes are told apart by how they start. -/
theorem escapeChar_append_inj {c c' : Char} {rest rest' : List Char}
    (h : escapeChar c ++ rest = escapeChar c' ++ rest') : c = c' ∧ rest = rest' := by
  unfold escapeChar at h
  split at h <;> split at h <;> grind

theorem flatMap_escapeChar_inj {xs ys : List Char}
    (h : xs.flatMap escapeChar = ys.flatMap escapeChar) : xs = ys := by
  have hne (c : Char) : escapeChar c ≠ [] := by
    unfold escapeChar
    split <;> simp
  induction xs generalizing ys with
  | nil =>
    cases ys with
    | nil => rfl
    | cons c ys => simp [hne] at h
  | cons c xs ih =>
    cases ys with
    | nil => simp [hne] at h
    | cons c' ys =>
      obtain ⟨rfl, hrest⟩ := escapeChar_append_inj (by simpa using h)
      rw [ih hrest]

namespace Literal

/-- The quote of the terminal of a literal. -/
def quote (l : Literal) : Char := if '"' ∈ l.text.toList then '\'' else '"'

/-- A literal between its quotes, before anything is escaped. -/
def quoted (l : Literal) : List Char := l.quote :: (l.text.toList ++ [l.quote])

theorem toList_terminal (l : Literal) :
    (terminal l.text).toList = l.quoted.flatMap escapeChar := by
  by_cases h : '"' ∈ l.text.toList <;>
    simp [terminal, quoted, quote, h, escape, escapeChar]

theorem quoted_string (s : String) :
    (string s).quoted = '\'' :: ((jsonString s).toList ++ ['\'']) := by
  have hmem : '"' ∈ (jsonString s).toList := by simp [jsonString]
  have hquote : (string s).quote = '\'' := if_pos hmem
  rw [quoted, hquote]
  rfl

/-- The text of a literal that is no string holds no quote. -/
theorem quote_not_mem_text {l : Literal} (h : l.kind ≠ .string) : '"' ∉ l.text.toList := by
  cases l with
  | string s => exact absurd rfl h
  | bool b => cases b <;> decide
  | int n =>
    intro hmem
    exact absurd ((number_of_int n.toInt).chars _ hmem) (by decide)

theorem quoted_of_kind {l : Literal} (h : l.kind ≠ .string) :
    l.quoted = '"' :: (l.text.toList ++ ['"']) := by
  have hquote : l.quote = '"' := if_neg (quote_not_mem_text h)
  rw [quoted, hquote]

theorem bool_text_ne_int_text (b : Bool) (n : Int64) : (bool b).text ≠ (int n).text := by
  intro he
  have hnumber := number_of_int n.toInt
  have htext : (bool b).text.toList = (toString n.toInt).toList := congrArg String.toList he
  rw [← htext] at hnumber
  cases b with
  | false => exact absurd (NumberText.head (c := 'f') hnumber) (by decide)
  | true => exact absurd (NumberText.head (c := 't') hnumber) (by decide)

/-- Literals that are no strings are told by their texts. -/
theorem text_inj_of_kind {l l' : Literal} (hl : l.kind ≠ .string) (hl' : l'.kind ≠ .string)
    (h : l.text = l'.text) : l = l' := by
  cases l with
  | string s => exact absurd rfl hl
  | bool b =>
    cases l' with
    | string s => exact absurd rfl hl'
    | bool b' => cases b <;> cases b' <;> first | rfl | exact absurd h (by decide)
    | int n => exact absurd h (bool_text_ne_int_text b n)
  | int n =>
    cases l' with
    | string s => exact absurd rfl hl'
    | bool b => exact absurd h.symm (bool_text_ne_int_text b n)
    | int n' => rw [Int64.toInt_inj.1 (Int.repr_injective h)]

theorem string_or_kind (l : Literal) : (∃ s, l = .string s) ∨ l.kind ≠ .string := by
  cases l <;> simp [kind]

/-- A literal between its quotes ends where it ends, whatever follows. -/
theorem quoted_append_inj {l l' : Literal} {rest rest' : List Char}
    (h : l.quoted ++ rest = l'.quoted ++ rest') : l = l' ∧ rest = rest' := by
  rcases l.string_or_kind with ⟨s, rfl⟩ | hl <;> rcases l'.string_or_kind with ⟨s', rfl⟩ | hl'
  · rw [quoted_string, quoted_string] at h
    obtain ⟨rfl, hrest⟩ := jsonString_append_inj (by simpa using h)
    exact ⟨rfl, by simpa using hrest⟩
  · rw [quoted_string, quoted_of_kind hl'] at h
    simp at h
  · rw [quoted_of_kind hl, quoted_string] at h
    simp at h
  · rw [quoted_of_kind hl, quoted_of_kind hl'] at h
    obtain ⟨htext, hrest⟩ := append_cons_inj_of_first (quote_not_mem_text hl)
      (quote_not_mem_text hl') (by simpa using h)
    exact ⟨text_inj_of_kind hl hl' (String.toList_inj.1 htext), hrest⟩

end Literal

/-- The literals of an enumeration, a bar between any two of them. -/
def barred (literals : List Literal) : List Char := ['|'].intercalate (literals.map Literal.quoted)

theorem barred_cons (l : Literal) (literals : List Literal) : barred (l :: literals) =
    l.quoted ++ (if literals = [] then [] else '|' :: barred literals) := by
  cases literals <;> simp [barred, List.intercalate]

theorem barred_inj {literals literals' : List Literal} (h : barred literals = barred literals') :
    literals = literals' := by
  have hne (l : Literal) (literals : List Literal) : barred (l :: literals) ≠ [] := by
    simp [barred_cons, Literal.quoted]
  induction literals generalizing literals' with
  | nil =>
    cases literals' with
    | nil => rfl
    | cons l' literals' => exact absurd h.symm (hne l' literals')
  | cons l literals ih =>
    cases literals' with
    | nil => exact absurd h (hne l literals)
    | cons l' literals' =>
      rw [barred_cons, barred_cons] at h
      obtain ⟨rfl, hrest⟩ := Literal.quoted_append_inj h
      split_ifs at hrest with hnil hnil' hnil'
      · rw [hnil, hnil']
      · rw [ih (List.cons.inj hrest).2]

/-- The production of an enumeration is what its literals are between their quotes, escaped. -/
theorem toList_enumeration (literals : List Literal) :
    (alternation (literals.map fun l => terminal l.text)).toList =
      (barred literals).flatMap escapeChar := by
  induction literals with
  | nil => rfl
  | cons l literals ih =>
    rw [barred_cons, List.flatMap_append, ← Literal.toList_terminal]
    cases literals with
    | nil => simp [alternation]
    | cons l' literals =>
      rw [if_neg (by simp), List.flatMap_cons, ← ih]
      simp [alternation, escapeChar]

/-- Enumerations of one key have the same literals, apostrophes and all. -/
theorem enumeration_key_inj {literals literals' : List Literal}
    (h : alternation (literals.map fun l => terminal l.text) =
      alternation (literals'.map fun l => terminal l.text)) : literals = literals' := by
  have hlist := congrArg String.toList h
  rw [toList_enumeration, toList_enumeration] at hlist
  exact barred_inj (flatMap_escapeChar_inj hlist)

end RecordGrammar
