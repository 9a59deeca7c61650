import RecordGrammar.Proofs.FragmentReading

/-! # References that end early

An id that holds a closing bracket ends its reference early. If no symbol begins with what is left
of the id, the production that it stands in cannot be read, and its rule derives nothing. -/

namespace RecordGrammar

namespace Dialect

/-- The characters that a symbol may begin with, and the bar that ends an alternative. -/
def startingChars : List Char := ['<', '"', '\'', '|']

/-- A text that is not read as alternatives, however many steps are allowed for it. -/
def Unreadable (text : List Char) : Prop := ∀ fuel, readAlternatives fuel text = none

theorem unreadable_cons {c : Char} (hc : c ∉ startingChars) (rest : List Char) :
    Unreadable (c :: rest) := by
  intro fuel
  simp only [startingChars, List.mem_cons, List.not_mem_nil, or_false, not_or] at hc
  obtain ⟨hopen, hquote, happostrophe, hbar⟩ := hc
  cases fuel with
  | zero => rfl
  | succ fuel =>
    have hsymbol : readSymbol (c :: rest) = none := by
      rw [readSymbol.eq_2 c rest hopen, if_neg (not_or.2 ⟨hquote, happostrophe⟩)]
    rw [readAlternatives.eq_4 _ _ (by simp) fun _ he => hbar (List.cons.inj he).1, hsymbol]
    rfl

theorem Spells.unreadable {text rest : List Char} {symbol : GrammarSymbol} (h : Spells text symbol)
    (hrest : Unreadable rest) : Unreadable (text ++ rest) := by
  intro fuel
  cases text with
  | nil =>
    have hread := (h.read []).symm.trans rfl
    simp [readSymbol] at hread
  | cons c text =>
    cases fuel with
    | zero => rfl
    | succ fuel =>
      have hbar : c ≠ '|' := by
        rintro rfl
        exact h.no_bar rfl
      have hread := h.read rest
      rw [List.cons_append] at hread ⊢
      rw [readAlternatives.eq_4 _ _ (by simp) (fun _ he => hbar (List.cons.inj he).1), hread]
      simp [hrest fuel]

end Dialect

open Dialect

/-- An id with a closing bracket in it, behind which no symbol begins. -/
def RuleHandle.Broken (handle : RuleHandle) : Prop :=
  ∃ (id : String) (c : Char) (rest : List Char), Referable id ∧ c ∉ startingChars ∧
    handle.id.toList = id.toList ++ '>' :: c :: rest

theorem RuleHandle.Broken.unreadable {handle : RuleHandle} (h : handle.Broken) (rest : List Char) :
    Unreadable (handle.text.toList ++ rest) := by
  obtain ⟨id, c, after, hid, hc, he⟩ := h
  have hspells : Spells (Piece.rule ⟨id⟩).text.toList (.rule id) :=
    Piece.Legible.spells (p := .rule ⟨id⟩) hid
  have hsplit : handle.text.toList ++ rest =
      (Piece.rule ⟨id⟩).text.toList ++ c :: (after ++ '>' :: rest) := by
    simp [RuleHandle.text, Piece.text, he]
  rw [hsplit]
  exact hspells.unreadable (unreadable_cons hc _)

/-- A row is not read if all of it is legible up to a reference that ends early. -/
theorem Layout.readProduction_of_broken {row : List Piece} {handle : RuleHandle}
    (hmem : .rule handle ∈ row) (hbroken : handle.Broken)
    (hrow : ∀ p ∈ row, p.Legible ∨ ∃ broken : RuleHandle, p = .rule broken ∧ broken.Broken) :
    readProduction (Layout.text [row]) = none := by
  have hunreadable : Unreadable (concatenation (row.map Piece.text)).toList := by
    induction row with
    | nil => cases hmem
    | cons p row ih =>
      have hsplit : (concatenation ((p :: row).map Piece.text)).toList =
          p.text.toList ++ (concatenation (row.map Piece.text)).toList := by
        simp [concatenation]
      obtain ⟨hp, hrow⟩ := List.forall_mem_cons.1 hrow
      rw [hsplit]
      rcases hp with hlegible | ⟨broken, rfl, hp⟩
      · rcases List.mem_cons.1 hmem with rfl | hmem
        · exact hbroken.unreadable _
        · exact hlegible.spells.unreadable (ih hmem hrow)
      · exact hp.unreadable _
  have htext : Layout.text [row] = concatenation (row.map Piece.text) := by
    simp [Layout.text, alternation]
  rw [htext]
  exact hunreadable _

namespace Fragment

private theorem rule_mem_tupleRow {members : List RuleHandle} {m : RuleHandle} (h : m ∈ members) :
    .rule m ∈ (members.map Piece.rule).intersperse (.terminal ", ") := by
  induction members with
  | nil => cases h
  | cons first members ih =>
    cases members with
    | nil => simpa using h
    | cons second members =>
      rw [List.map_cons, List.map_cons, List.intersperse_cons_cons]
      rcases List.mem_cons.1 h with rfl | h
      · exact List.mem_cons_self
      · exact List.mem_cons_of_mem _ (List.mem_cons_of_mem _ (ih h))

private theorem rule_mem_objectRow {first : Bool} {rows : List (String × RuleHandle)}
    {row : String × RuleHandle} (h : row ∈ rows) : .rule row.2 ∈ JsonFragment.objectRow first rows := by
  induction rows generalizing first with
  | nil => cases h
  | cons other rows ih =>
    rw [JsonFragment.objectRow]
    rcases List.mem_cons.1 h with rfl | h
    · exact List.mem_cons_of_mem _ List.mem_cons_self
    · exact List.mem_cons_of_mem _ (List.mem_cons_of_mem _ (ih h))

/-- Between two terminals, references that end early are not read. -/
private theorem readProduction_enclosed {opening closing : String} {inside : List Piece}
    {handle : RuleHandle} (hopening : holdsBothQuotes opening = false)
    (hclosing : holdsBothQuotes closing = false) (hmem : .rule handle ∈ inside)
    (hbroken : handle.Broken)
    (hinside : ∀ p ∈ inside, p.Legible ∨ ∃ broken : RuleHandle, p = .rule broken ∧ broken.Broken) :
    readProduction (Layout.text [.terminal opening :: (inside ++ [.terminal closing])]) = none := by
  refine Layout.readProduction_of_broken (List.mem_cons_of_mem _ (List.mem_append_left _ hmem))
    hbroken fun p hp => ?_
  rcases List.mem_cons.1 hp with rfl | hp
  · exact .inl hopening
  · rcases List.mem_append.1 hp with hp | hp
    · exact hinside p hp
    · rw [List.mem_singleton.1 hp]
      exact .inl hclosing

theorem tuple_unreadable {members : List RuleHandle}
    (h : ∀ m ∈ members, Referable m.id ∨ m.Broken) (hnot : ¬∀ m ∈ members, Referable m.id) :
    readProduction (tuple members).layout.text = none := by
  obtain ⟨m, hm, hid⟩ := not_forall₂.1 hnot
  refine readProduction_enclosed (by decide) (by decide) (rule_mem_tupleRow hm)
    ((h m hm).resolve_left hid) fun p hp => ?_
  rcases tupleRow_pieces hp with rfl | ⟨other, hother, rfl⟩
  · exact .inl (by decide)
  · exact (h other hother).imp id fun hbroken => ⟨other, rfl, hbroken⟩

theorem object_unreadable {rows : List (String × RuleHandle)}
    (h : ∀ row ∈ rows, Referable row.2.id ∨ row.2.Broken)
    (hnot : ¬∀ row ∈ rows, Referable row.2.id) :
    readProduction (object rows).layout.text = none := by
  obtain ⟨row, hrow, hid⟩ := not_forall₂.1 hnot
  refine readProduction_enclosed (by decide) (by decide) (rule_mem_objectRow hrow)
    ((h row hrow).resolve_left hid) fun p hp => ?_
  rcases objectRow_pieces hp with ⟨name, first, rfl⟩ | ⟨other, hother, rfl⟩
  · exact .inl trivial
  · exact (h other hother).imp id fun hbroken => ⟨other.2, rfl, hbroken⟩

end Fragment

/-- A fragment one of whose references ends early derives nothing. -/
theorem RuleTable.HoldsRules.not_texts_of_broken {t : RuleTable} {f : Fragment} (h : t.HoldsRules f)
    (hread : readProduction f.layout.text = none) (text : String) : ¬t.Derives f.handle text := by
  intro hderives
  obtain ⟨alternatives, hfound, -⟩ := Derives.rule_iff.1 hderives
  rw [RuleTable.reading_of_rule? (h _ (List.mem_append_right _ f.handle_mem_rules)), hread] at hfound
  cases hfound

end RecordGrammar
