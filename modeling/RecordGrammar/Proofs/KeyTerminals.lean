import RecordGrammar.Proofs.GrammarText
import RecordGrammar.Proofs.TextLayouts

/-! # Keys of objects behind two layers of escapes

The name of a key is escaped as a JSON string, and the text of that string as a terminal in single
quotes. The terminal doubles the backslashes of the first layer and puts new ones before the
apostrophes, so that a reader of terminals takes off the second layer and leaves the first. -/

namespace RecordGrammar

open Dialect JsonFragment

theorem ofText?_jsonString (s : String) : Json.ofText? (jsonString s) = some (.string s) :=
  (JsonReader.reads_string s).ofText? (by decide)

/-- The terminal of a key is written on one line, between two single quotes of which the second is
the first that is not escaped, and stands for the JSON text of the name with the separators around
it. It is read so whatever follows it. The JSON text escapes what it must and nothing more, and is
read as the name. -/
theorem keyTerminal_read_back (name : String) (first : Bool) :
    let text := (if first then "" else ", ") ++ (Json.string name).compact ++ ": "
    '\n' ∉ (keyTerminal name first).toList ∧
    (∃ written, (keyTerminal name first).toList = '\'' :: (written ++ ['\'']) ∧
      Unescapes '\'' written text.toList) ∧
    (∀ rest, readSymbol ((keyTerminal name first).toList ++ rest) =
      some (.terminal text.toList, rest)) ∧
    EscapedText name (Json.string name).compact ∧
    Json.ofText? (Json.string name).compact = some (.string name) := by
  intro text
  have hcompact : (Json.string name).compact = jsonString name := by rw [Json.compact]
  have htext : text.toList = Piece.keyText name first := by
    cases first <;> simp [text, hcompact, Piece.keyText]
  have hline : '\n' ∉ (Piece.key name first).text.toList :=
    Piece.newline_not_mem (by simp [Piece.references])
  have hspells : Spells (Piece.key name first).text.toList (.terminal (Piece.keyText name first)) :=
    Piece.Legible.spells (p := .key name first) trivial
  rw [hcompact, htext]
  exact ⟨hline, Piece.exists_written_key name first, hspells.read, jsonString_escapedText name,
    ofText?_jsonString name⟩

/-- A quote is escaped in the string, an apostrophe in the terminal, and a backslash in both. -/
example : keyTerminal "it's \"\\\n" false = "', \"it\\'s \\\\\"\\\\\\\\\\\\n\": '" := by decide

end RecordGrammar
