import RecordGrammar.Proofs.FragmentReading
import RecordGrammar.Proofs.RowTexts

/-! # The texts of containers, literals and booleans -/

namespace RecordGrammar

/-- The texts that the rule of a handle derives. -/
def RuleTable.Texts (t : RuleTable) (handle : RuleHandle) (text : List Char) : Prop :=
  RecordGrammar.Derives t.reading [.rule handle.id] text

theorem ofTerminals_texts {raws : List String} {rules : RuleReading} {text : List Char} :
    (∃ row ∈ (Layout.ofTerminals raws).symbols, Derives rules row text) ↔
      ∃ raw ∈ raws, text = raw.toList := by
  simp [Layout.ofTerminals, Layout.symbols, Piece.symbol, Derives.terminal_iff]

section

variable {t : RuleTable} {text : List Char}

/-- The texts of a fragment are those of the rows of its layout. -/
theorem texts_iff {f : Fragment} (hf : t.HoldsRules f) (hlegible : f.Legible)
    (hinputs : ∀ handle ∈ f.inputs, Referable handle.id) : t.Texts f.handle text ↔
      ∃ row ∈ f.layout.symbols, Derives t.reading row text := by
  rw [RuleTable.Texts, Derives.rule_iff, hf.reading_handle hlegible hinputs]
  simp

theorem array_texts {inner : RuleHandle} (hf : t.HoldsRules (.array inner))
    (hinner : Referable inner.id) : t.Texts (Fragment.array inner).handle text ↔
      ∃ items, (∀ item ∈ items, t.Texts inner item) ∧ text = inBrackets items := by
  have hinputs : ∀ handle ∈ (Fragment.array inner).inputs, Referable handle.id := by
    simpa [Fragment.inputs] using hinner
  have htrail := hf.reading_helper trivial hinputs (k := 0) rfl
  have hitems {text : List Char} := @Derives.trail_iff t.reading text _ _ _ htrail
  have hbrackets {row : List GrammarSymbol} :=
    @Derives.enclosed_iff t.reading row text ['['] [']']
  have hrows : (Fragment.array inner).layout.symbols =
      [[.terminal ['[', ']']], .terminal ['['] :: ([.rule inner.id] ++ [.terminal [']']]),
        .terminal ['['] :: ([.rule inner.id] ++
          [.rule (helperHandle (Fragment.array inner).stem 0).id] ++ [.terminal [']']])] := by
    simp [Fragment.layout, JsonFragment.arrayLayout, Layout.symbols, Piece.symbol]
  rw [texts_iff hf trivial hinputs, hrows]
  constructor
  · rintro ⟨row, hrow, ht⟩
    simp only [List.mem_cons, List.not_mem_nil, or_false] at hrow
    rcases hrow with rfl | rfl | rfl
    · exact ⟨[], by simp, Derives.terminal_iff.1 ht⟩
    · obtain ⟨inside, hinside, rfl⟩ := hbrackets.1 ht
      obtain ⟨item, items, hitem, hall, rfl⟩ := hitems.1 (.inl hinside)
      exact ⟨item :: items, List.forall_mem_cons.2 ⟨hitem, hall⟩, rfl⟩
    · obtain ⟨inside, hinside, rfl⟩ := hbrackets.1 ht
      obtain ⟨item, items, hitem, hall, rfl⟩ := hitems.1 (.inr hinside)
      exact ⟨item :: items, List.forall_mem_cons.2 ⟨hitem, hall⟩, rfl⟩
  · rintro ⟨items, hall, rfl⟩
    cases items with
    | nil => exact ⟨_, List.mem_cons_self, Derives.terminal_iff.2 rfl⟩
    | cons item items =>
      obtain ⟨hitem, hall⟩ := List.forall_mem_cons.1 hall
      rcases hitems.2 ⟨item, items, hitem, hall, rfl⟩ with hinside | hinside
      · exact ⟨_, List.mem_cons_of_mem _ List.mem_cons_self, hbrackets.2 ⟨_, hinside, rfl⟩⟩
      · exact ⟨_, List.mem_cons_of_mem _ (List.mem_cons_of_mem _ List.mem_cons_self),
          hbrackets.2 ⟨_, hinside, rfl⟩⟩

theorem tuple_texts {members : List RuleHandle} (hf : t.HoldsRules (.tuple members))
    (hmembers : ∀ m ∈ members, Referable m.id) : t.Texts (Fragment.tuple members).handle text ↔
      ∃ items, List.Forall₂ t.Texts members items ∧ text = inBrackets items := by
  have hrows : (Fragment.tuple members).layout.symbols = [.terminal ['['] ::
      (((members.map Piece.rule).intersperse (.terminal ", ")).map Piece.symbol ++
        [.terminal [']']])] := by
    simp [Fragment.layout, JsonFragment.tupleLayout, Layout.symbols, Piece.symbol]
  rw [texts_iff hf trivial hmembers, hrows]
  simp only [List.mem_singleton, exists_eq_left, Derives.enclosed_iff, Derives.members_iff]
  constructor
  · rintro ⟨_, ⟨items, hitems, rfl⟩, rfl⟩
    exact ⟨items, hitems, rfl⟩
  · rintro ⟨items, hitems, rfl⟩
    exact ⟨_, ⟨items, hitems, rfl⟩, rfl⟩

theorem object_texts {rows : List (String × RuleHandle)} (hf : t.HoldsRules (.object rows))
    (hrows : ∀ row ∈ rows, Referable row.2.id) : t.Texts (Fragment.object rows).handle text ↔
      ∃ values, List.Forall₂ (fun row => t.Texts row.2) rows values ∧
        text = inBraces (List.zipWith (fun row => entryText row.1) rows values) := by
  have hinputs : ∀ handle ∈ (Fragment.object rows).inputs, Referable handle.id :=
    List.forall_mem_map.2 hrows
  have hsymbols : (Fragment.object rows).layout.symbols = [.terminal ['\x7b'] ::
      ((JsonFragment.objectRow true rows).map Piece.symbol ++ [.terminal ['\x7d']])] := by
    simp [Fragment.layout, JsonFragment.objectLayout, Layout.symbols, Piece.symbol]
  rw [texts_iff hf trivial hinputs, hsymbols]
  simp only [List.mem_singleton, exists_eq_left, Derives.enclosed_iff, Derives.rows_iff]
  constructor
  · rintro ⟨_, ⟨values, hvalues, rfl⟩, rfl⟩
    exact ⟨values, hvalues, rfl⟩
  · rintro ⟨values, hvalues, rfl⟩
    exact ⟨_, ⟨values, hvalues, rfl⟩, rfl⟩

theorem enumeration_texts {literals : List Literal}
    (hf : t.HoldsRules (.enumeration literals)) (hne : literals ≠ [])
    (hclear : ∀ l ∈ literals, l.Clear) : t.Texts (Fragment.enumeration literals).handle text ↔
      ∃ l ∈ literals, text = l.text.toList := by
  rw [texts_iff hf ⟨hne, hclear⟩ (by simp [Fragment.inputs])]
  exact ofTerminals_texts.trans (by simp)

theorem boolean_texts (hf : t.HoldsRules .boolean) : t.Texts Fragment.boolean.handle text ↔
    text = "true".toList ∨ text = "false".toList := by
  rw [texts_iff hf trivial (by simp [Fragment.inputs])]
  exact ofTerminals_texts.trans (by simp)

end

end RecordGrammar
