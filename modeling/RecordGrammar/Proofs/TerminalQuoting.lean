import RecordGrammar.Proofs.FragmentBuilding
import RecordGrammar.Proofs.ProductionReading

/-! # Which terminals are read back, and which are warned of

A reader takes a terminal up to its first unescaped quote. No escape stands before an apostrophe,
so an apostrophe of the text ends a terminal in single quotes early. -/

namespace RecordGrammar

open Dialect

theorem holdsBothQuotes_iff {raw : String} :
    holdsBothQuotes raw = true ↔ '"' ∈ raw.toList ∧ '\'' ∈ raw.toList := by
  simp [holdsBothQuotes]

theorem not_mem_escapeChar {c d : Char} (hd : d = '\n' ∨ d = '\t' ∨ d = '\r') :
    d ∉ escapeChar c := by
  unfold escapeChar
  rcases hd with rfl | rfl | rfl <;> split <;> simp_all [eq_comm]

theorem not_mem_terminal {raw : String} {c : Char} (hc : c = '\n' ∨ c = '\t' ∨ c = '\r') :
    c ∉ (terminal raw).toList := by
  intro hmem
  have hquote : c ≠ '"' ∧ c ≠ '\'' := by
    rcases hc with rfl | rfl | rfl <;> decide
  have hescape : c ∈ raw.toList.flatMap escapeChar := by
    simp only [terminal, escape, String.toList_append, String.toList_ofList, List.mem_append] at hmem
    split at hmem <;> simpa [hquote] using hmem
  obtain ⟨d, -, hd⟩ := List.mem_flatMap.1 hescape
  exact not_mem_escapeChar hc hd

theorem readSymbol_terminal {raw : String} (h : ¬('"' ∈ raw.toList ∧ '\'' ∈ raw.toList)) :
    readSymbol (terminal raw).toList = some (.terminal raw.toList, []) := by
  have hlegible : (Piece.terminal raw).Legible := by
    rwa [Piece.Legible, ← Bool.not_eq_true, holdsBothQuotes_iff]
  simpa [Piece.text, Piece.symbol] using hlegible.spells.read []

/-- The closing quote at least is left over. -/
theorem readSymbol_ambiguous {raw : String} (hdouble : '"' ∈ raw.toList)
    (hsingle : '\'' ∈ raw.toList) : ∃ before rest,
      readSymbol (terminal raw).toList = some (.terminal before, rest) ∧ rest ≠ [] := by
  obtain ⟨before, after, hraw, hbefore⟩ := List.eq_append_cons_of_mem hsingle
  let rest := after.flatMap escapeChar ++ ['\'']
  have htext : (terminal raw).toList = '\'' :: (before.flatMap escapeChar ++ '\'' :: rest) := by
    simp only [terminal, if_pos hdouble, escape, String.toList_append, String.toList_ofList]
    simp [hraw, escapeChar, rest]
  have hwritten : Unescapes '\'' (before.flatMap escapeChar) before :=
    .flatMap fun _ hc => .of_escapeChar (ne_of_mem_of_not_mem hc hbefore)
  refine ⟨before, rest, ?_, by simp [rest]⟩
  simp [htext, readSymbol, hwritten.read (by decide)]

/-- A terminal is read back whole exactly if its text does not hold both quotes, and a warning is
logged exactly if it does. No terminal breaks its line. -/
theorem terminal_read_back_iff (raw : String) :
    (readSymbol (terminal raw).toList = some (.terminal raw.toList, []) ↔
      ¬('"' ∈ raw.toList ∧ '\'' ∈ raw.toList)) ∧
    (∀ s : Session, ∃ s', emitTerminal raw s = .ok (terminal raw) s' ∧ s'.table = s.table ∧
      s'.log = s.log ++ if '"' ∈ raw.toList ∧ '\'' ∈ raw.toList
        then [.warned (.ambiguousTerminal raw)] else []) ∧
    '\n' ∉ (terminal raw).toList ∧ '\t' ∉ (terminal raw).toList ∧ '\r' ∉ (terminal raw).toList := by
  refine ⟨⟨?_, readSymbol_terminal⟩, fun s => ?_, not_mem_terminal (by simp),
    not_mem_terminal (by simp), not_mem_terminal (by simp)⟩
  · rintro hread ⟨hdouble, hsingle⟩
    obtain ⟨before, rest, hstop, hrest⟩ := readSymbol_ambiguous hdouble hsingle
    rw [hstop] at hread
    exact hrest (Prod.mk.inj (Option.some.inj hread)).2
  · refine ⟨s.noting (terminalNotes raw), emitTerminal_eq raw s, rfl, ?_⟩
    simp only [Session.noting, terminalNotes, holdsBothQuotes_iff]

/-- The text after the apostrophe is left to be read as symbols of its own. -/
example : readSymbol (terminal "\"it's\"").toList =
    some (.terminal ['"', 'i', 't'], ['s', '"', '\'']) := by decide

end RecordGrammar
