import RecordGrammar.JsonReader
import Mathlib.Data.List.Forall2

/-! # JSON strings with no more escapes than there must be

The text of a string is told character by character: what must be escaped is written as an escape
that stands for it, and everything else as it is. Readers of strings follow these cases. -/

namespace RecordGrammar

/-- A character that no JSON string holds as it is. -/
def MustEscape (c : Char) : Prop := c = '"' ∨ c = '\\' ∨ c.toNat < 0x20

/-- How a character is written in a JSON string that escapes no more than it must. -/
inductive EscapedAs (c : Char) : List Char → Prop where
  | itself (hc : ¬MustEscape c) : EscapedAs c [c]
  | letter {d} (hc : MustEscape c) (hd : JsonReader.escaped? d = some c) : EscapedAs c ['\\', d]
  | code {a b a' b'} (hc : MustEscape c) (hcode : hexNumber? [a, b, a', b'] = some c.toNat) :
      EscapedAs c ['\\', 'u', a, b, a', b']

/-- The characters of a string, each escaped if it must be, between quotes. -/
def EscapedText (s text : String) : Prop :=
  ∃ parts, List.Forall₂ EscapedAs s.toList parts ∧ text.toList = '"' :: (parts.flatten ++ ['"'])

theorem MustEscape.toNat_lt {c : Char} (hc : MustEscape c) : c.toNat < 0x80 := by
  rcases hc with rfl | rfl | hsmall
  · decide
  · decide
  · omega

theorem jsonEscapeChar_escapedAs (c : Char) : EscapedAs c (jsonEscapeChar c) := by
  unfold jsonEscapeChar
  split_ifs with hquote hbackslash hn hr ht hb hf hsmall
  · exact .letter (.inl hquote) (congrArg some hquote.symm)
  · exact .letter (.inr (.inl hbackslash)) (congrArg some hbackslash.symm)
  · exact .letter (.inr (.inr (hn ▸ by decide))) (congrArg some hn.symm)
  · exact .letter (.inr (.inr (hr ▸ by decide))) (congrArg some hr.symm)
  · exact .letter (.inr (.inr (ht ▸ by decide))) (congrArg some ht.symm)
  · exact .letter (.inr (.inr (hb ▸ by decide))) (congrArg some hb.symm)
  · exact .letter (.inr (.inr (hf ▸ by decide))) (congrArg some hf.symm)
  · have hcode : ∀ k < 32,
        hexNumber? ['0', '0', hexDigit (k / 16), hexDigit (k % 16)] = some k := by decide
    exact .code (.inr (.inr hsmall)) (hcode c.toNat hsmall)
  · refine .itself ?_
    rintro (h | h | h)
    · exact hquote h
    · exact hbackslash h
    · exact hsmall h

theorem jsonString_escapedText (s : String) : EscapedText s (jsonString s) := by
  refine ⟨s.toList.map jsonEscapeChar, ?_, by simp [jsonString, List.flatMap_def]⟩
  rw [List.forall₂_map_right_iff, List.forall₂_same]
  exact fun c _ => jsonEscapeChar_escapedAs c

end RecordGrammar
