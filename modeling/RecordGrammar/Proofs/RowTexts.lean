import RecordGrammar.Proofs.DerivedTexts
import RecordGrammar.Proofs.FragmentRules
import Mathlib.Data.List.Forall2

/-! # The texts of rows, of repetitions and of separated entries -/

namespace RecordGrammar

/-- Entries with a comma and a space between any two. -/
def joined (entries : List (List Char)) : List Char := [',', ' '].intercalate entries

def inBrackets (entries : List (List Char)) : List Char := '[' :: (joined entries ++ [']'])

def inBraces (entries : List (List Char)) : List Char := '\x7b' :: (joined entries ++ ['\x7d'])

/-- A key with the separator behind it, and a value. -/
def entryText (name : String) (value : List Char) : List Char :=
  (jsonString name).toList ++ ([':', ' '] ++ value)

@[simp] theorem joined_nil : joined [] = [] := rfl

@[simp] theorem joined_singleton (entry : List Char) : joined [entry] = entry := by
  simp [joined, List.intercalate]

theorem joined_cons_cons (first second : List Char) (entries : List (List Char)) :
    joined (first :: second :: entries) = first ++ ([',', ' '] ++ joined (second :: entries)) := by
  simp [joined, List.intercalate]

theorem intercalate_cons (separator entry : List Char) (entries : List (List Char)) :
    separator.intercalate (entry :: entries) = entry ++ entries.flatMap (separator ++ ·) := by
  induction entries generalizing entry with
  | nil => simp [List.intercalate]
  | cons second entries ih =>
    rw [List.flatMap_cons, List.append_assoc, ← ih]
    simp [List.intercalate]

theorem joined_cons (entry : List Char) (entries : List (List Char)) :
    joined (entry :: entries) = entry ++ entries.flatMap ([',', ' '] ++ ·) :=
  intercalate_cons _ entry entries

/-- Members of a list that are each the image of something are the images of a list. -/
theorem forall_mem_exists_iff {α β : Type} {ok : α → Prop} {f : α → β} {images : List β} :
    (∀ b ∈ images, ∃ a, ok a ∧ b = f a) ↔ ∃ as : List α, (∀ a ∈ as, ok a) ∧ images = as.map f := by
  constructor
  · intro h
    induction images with
    | nil => exact ⟨[], by simp, rfl⟩
    | cons b images ih =>
      obtain ⟨⟨a, ha, rfl⟩, htail⟩ := List.forall_mem_cons.1 h
      obtain ⟨as, has, rfl⟩ := ih htail
      exact ⟨a :: as, List.forall_mem_cons.2 ⟨ha, has⟩, rfl⟩
  · rintro ⟨as, has, rfl⟩
    exact List.forall_mem_map.2 fun a ha => ⟨a, has a ha, rfl⟩

/-- Lists of texts are told by their characters. -/
theorem exists_strings_iff {P : List (List Char) → Prop} :
    (∃ items, P items) ↔ ∃ items : List String, P (items.map String.toList) :=
  (List.map_surjective_iff.2 fun chars => ⟨String.ofList chars, String.toList_ofList⟩).exists

theorem toList_eq_flatten_iff {text : String} {parts : List String} :
    text.toList = (parts.map String.toList).flatten ↔ text = String.join parts := by
  rw [← List.flatMap_def, ← String.toList_join, String.toList_inj]

namespace Derives

variable {rules : RuleReading} {xs ys : List GrammarSymbol} {text : List Char} {id : String}

theorem append_iff : Derives rules (xs ++ ys) text ↔
    ∃ before after, text = before ++ after ∧ Derives rules xs before ∧ Derives rules ys after := by
  constructor
  · intro h
    induction xs generalizing text with
    | nil => exact ⟨[], text, rfl, .nil, h⟩
    | cons x xs ih =>
      cases h with
      | @terminal raw _ _ tail =>
        obtain ⟨before, after, rfl, hbefore, hafter⟩ := ih tail
        exact ⟨raw ++ before, after, by simp, hbefore.terminal_append raw, hafter⟩
      | rule found chosen body tail =>
        obtain ⟨before, after, rfl, hbefore, hafter⟩ := ih tail
        exact ⟨_ ++ before, after, by simp, .rule found chosen body hbefore, hafter⟩
      | exceptRule found outside tail =>
        obtain ⟨before, after, rfl, hbefore, hafter⟩ := ih tail
        exact ⟨_ :: before, after, rfl, .exceptRule found outside hbefore, hafter⟩
      | exceptChars outside tail =>
        obtain ⟨before, after, rfl, hbefore, hafter⟩ := ih tail
        exact ⟨_ :: before, after, rfl, .exceptChars outside hbefore, hafter⟩
      | any tail =>
        obtain ⟨before, after, rfl, hbefore, hafter⟩ := ih tail
        exact ⟨_ :: before, after, rfl, .any hbefore, hafter⟩
  · rintro ⟨before, after, rfl, hbefore, hafter⟩
    exact hbefore.append hafter

/-- A row with a terminal behind it. -/
theorem closed_iff {closing : List Char} : Derives rules (xs ++ [.terminal closing]) text ↔
    ∃ inside, Derives rules xs inside ∧ text = inside ++ closing := by
  rw [append_iff]
  constructor
  · rintro ⟨inside, _, rfl, hinside, hclosing⟩
    obtain rfl := terminal_iff.1 hclosing
    exact ⟨inside, hinside, rfl⟩
  · rintro ⟨inside, hinside, rfl⟩
    exact ⟨inside, closing, rfl, hinside, terminal_iff.2 rfl⟩

/-- A row between two terminals. -/
theorem enclosed_iff {opening closing : List Char} :
    Derives rules (.terminal opening :: (xs ++ [.terminal closing])) text ↔
      ∃ inside, Derives rules xs inside ∧ text = opening ++ (inside ++ closing) := by
  rw [terminal_cons_iff]
  constructor
  · rintro ⟨_, rfl, h⟩
    obtain ⟨inside, hinside, rfl⟩ := closed_iff.1 h
    exact ⟨inside, hinside, rfl⟩
  · rintro ⟨inside, hinside, rfl⟩
    exact ⟨_, rfl, closed_iff.2 ⟨inside, hinside, rfl⟩⟩

/-- A text of a row, texts of any number of steps, and a text of an end. -/
def Rounds (rules : RuleReading) (steps ends : Alternatives) (row : List GrammarSymbol)
    (text : List Char) : Prop :=
  ∃ (before : List Char) (parts : List (List Char)) (last : List Char), Derives rules row before ∧
    (∀ part ∈ parts, ∃ step ∈ steps, Derives rules step part) ∧
    (∃ row ∈ ends, Derives rules row last) ∧ text = before ++ (parts.flatten ++ last)

section Rounds

variable {alternatives steps ends : Alternatives}

theorem Rounds.cons {symbol : GrammarSymbol} {row : List GrammarSymbol}
    (h : Rounds rules steps ends row text) (piece : List Char)
    (hsymbol : ∀ {after}, Derives rules row after → Derives rules (symbol :: row) (piece ++ after)) :
    Rounds rules steps ends (symbol :: row) (piece ++ text) := by
  obtain ⟨before, parts, last, hbefore, hparts, hlast, rfl⟩ := h
  exact ⟨_, parts, last, hsymbol hbefore, hparts, hlast, by rw [List.append_assoc]⟩

theorem Rounds.step {row : List GrammarSymbol} (h : Rounds rules steps ends row text)
    (hrow : row ∈ steps) : Rounds rules steps ends [] text := by
  obtain ⟨part, parts, last, hpart, hparts, hlast, rfl⟩ := h
  exact ⟨[], part :: parts, last, .nil, List.forall_mem_cons.2 ⟨⟨row, hrow, hpart⟩, hparts⟩, hlast,
    by simp⟩

/-- What ends in a reference to a rule that ends some alternatives in a reference to itself. -/
private theorem rounds_of_derives (hread : rules id = some alternatives)
    (hsplit : ∀ row ∈ alternatives, (∃ step ∈ steps, row = step ++ [.rule id]) ∨ row ∈ ends)
    (h : Derives rules xs text) :
    ∀ row, xs = row ++ [.rule id] → Rounds rules steps ends row text := by
  induction h with
  | nil => simp
  | terminal _ ih =>
    rintro (_ | ⟨_, row⟩) he
    · cases he
    · obtain ⟨rfl, hrest⟩ := List.cons.inj he
      exact (ih row hrest).cons _ .terminal
  | @rule _ _ _ text _ _ found chosen body tail ihbody ih =>
    rintro (_ | ⟨_, row⟩) he
    -- The reference itself: one more round, or the last text.
    · obtain ⟨⟨⟩, rfl⟩ := List.cons.inj he
      cases hread.symm.trans found
      obtain rfl := nil_iff.1 tail
      rw [List.append_nil]
      rcases hsplit _ chosen with ⟨step, hstep, hrow⟩ | hend
      · exact (ihbody step hrow).step hstep
      · exact ⟨[], [], text, .nil, by simp, ⟨_, hend, body⟩, rfl⟩
    · obtain ⟨rfl, hrest⟩ := List.cons.inj he
      exact (ih row hrest).cons _ (.rule found chosen body)
  | exceptRule found outside _ ih =>
    rintro (_ | ⟨_, row⟩) he
    · cases he
    · obtain ⟨rfl, hrest⟩ := List.cons.inj he
      exact (ih row hrest).cons [_] (.exceptRule found outside)
  | exceptChars outside _ ih =>
    rintro (_ | ⟨_, row⟩) he
    · cases he
    · obtain ⟨rfl, hrest⟩ := List.cons.inj he
      exact (ih row hrest).cons [_] (.exceptChars outside)
  | any _ ih =>
    rintro (_ | ⟨_, row⟩) he
    · cases he
    · obtain ⟨rfl, hrest⟩ := List.cons.inj he
      exact (ih row hrest).cons [_] .any

/-- A rule that refers to itself at the end of some alternatives derives texts of what stands before
the reference, any number of them, and then a text of another alternative. -/
theorem rounds_iff (steps ends : Alternatives) (hread : rules id = some alternatives)
    (hsplit : ∀ row, row ∈ alternatives ↔ (∃ step ∈ steps, row = step ++ [.rule id]) ∨ row ∈ ends) :
    Derives rules [.rule id] text ↔ Rounds rules steps ends [] text := by
  constructor
  · exact fun h => rounds_of_derives hread (fun row => (hsplit row).1) h [] rfl
  · rintro ⟨_, parts, last, hnil, hparts, ⟨row, hrow, hlast⟩, rfl⟩
    obtain rfl := nil_iff.1 hnil
    rw [List.nil_append]
    clear hnil
    induction parts with
    | nil => exact rule_iff.2 ⟨_, hread, row, (hsplit row).2 (.inr hrow), hlast⟩
    | cons part parts ih =>
      obtain ⟨⟨step, hstep, hpart⟩, hparts⟩ := List.forall_mem_cons.1 hparts
      refine rule_iff.2 ⟨_, hread, _, (hsplit _).2 (.inl ⟨step, hstep, rfl⟩), ?_⟩
      rw [List.flatten_cons, List.append_assoc]
      exact hpart.append (ih hparts)

end Rounds

/-- A rule that repeats some rows derives one or more texts of them. -/
theorem repeated_rows_iff (rows : Alternatives) {alternatives : Alternatives}
    (hread : rules id = some alternatives)
    (hsplit : ∀ row, row ∈ alternatives ↔ (∃ step ∈ rows, row = step ++ [.rule id]) ∨ row ∈ rows) :
    Derives rules [.rule id] text ↔ ∃ parts, parts ≠ [] ∧
      (∀ part ∈ parts, ∃ row ∈ rows, Derives rules row part) ∧ text = parts.flatten := by
  rw [rounds_iff rows rows hread hsplit]
  constructor
  · rintro ⟨_, parts, last, hnil, hparts, hlast, rfl⟩
    obtain rfl := nil_iff.1 hnil
    refine ⟨parts ++ [last], by simp, ?_, by simp⟩
    exact List.forall_mem_append.2 ⟨hparts, List.forall_mem_singleton.2 hlast⟩
  · rintro ⟨parts, hne, hparts, rfl⟩
    obtain rfl | ⟨init, last, rfl⟩ := parts.eq_nil_or_concat'
    · exact absurd rfl hne
    · obtain ⟨hinit, hlast⟩ := List.forall_mem_append.1 hparts
      exact ⟨[], init, last, .nil, hinit, hlast last List.mem_cons_self, by simp⟩

theorem repeated_iff {row : List GrammarSymbol} (hread : rules id = some [row, row ++ [.rule id]]) :
    Derives rules [.rule id] text ↔
      ∃ parts, parts ≠ [] ∧ (∀ part ∈ parts, Derives rules row part) ∧ text = parts.flatten := by
  rw [repeated_rows_iff [row] hread (by simp [or_comm])]
  simp only [List.mem_singleton, exists_eq_left]

/-- Rules one after the other. -/
theorem rules_iff {items : List RuleHandle} :
    Derives rules (items.map fun item => .rule item.id) text ↔
      ∃ parts, List.Forall₂ (fun item => Derives rules [.rule item.id]) items parts ∧
        text = parts.flatten := by
  induction items generalizing text with
  | nil => simp [nil_iff]
  | cons item items ih =>
    rw [List.map_cons, rule_cons_iff]
    constructor
    · rintro ⟨part, rest, rfl, hpart, hrest⟩
      obtain ⟨parts, hparts, rfl⟩ := ih.1 hrest
      exact ⟨part :: parts, .cons hpart hparts, rfl⟩
    · rintro ⟨parts, hparts, rfl⟩
      cases hparts with
      | cons hpart hparts => exact ⟨_, _, rfl, hpart, ih.2 ⟨_, hparts, rfl⟩⟩

/-- Rules with a comma and a space between any two. -/
theorem members_iff {members : List RuleHandle} :
    Derives rules (((members.map Piece.rule).intersperse (.terminal ", ")).map Piece.symbol) text ↔
      ∃ items, List.Forall₂ (fun m => Derives rules [.rule m.id]) members items ∧
        text = joined items := by
  induction members generalizing text with
  | nil => simp [nil_iff]
  | cons m members ih =>
    cases members with
    | nil =>
      constructor
      · exact fun h => ⟨[text], .cons h .nil, by simp⟩
      · rintro ⟨items, hitems, rfl⟩
        cases hitems with
        | cons h hnil =>
          cases hnil
          simpa [Piece.symbol] using h
    | cons m' members =>
      have hrow : ((((m :: m' :: members).map Piece.rule).intersperse (.terminal ", ")).map
          Piece.symbol) = .rule m.id :: .terminal [',', ' '] ::
            (((m' :: members).map Piece.rule).intersperse (.terminal ", ")).map Piece.symbol := rfl
      rw [hrow, rule_cons_iff]
      constructor
      · rintro ⟨item, after, rfl, hitem, hafter⟩
        obtain ⟨rest, rfl, hrest⟩ := terminal_cons_iff.1 hafter
        obtain ⟨items, hitems, rfl⟩ := ih.1 hrest
        cases hitems with
        | cons hsecond hitems =>
          exact ⟨_, .cons hitem (.cons hsecond hitems), by rw [joined_cons_cons]⟩
      · rintro ⟨items, hitems, rfl⟩
        cases hitems with
        | cons hitem hitems =>
          have hrest := ih.2 ⟨_, hitems, rfl⟩
          cases hitems with
          | cons =>
            exact ⟨_, _, joined_cons_cons _ _ _, hitem, hrest.terminal_append [',', ' ']⟩

private theorem later_rows_iff {rows : List (String × RuleHandle)} :
    Derives rules ((JsonFragment.objectRow false rows).map Piece.symbol) text ↔
      ∃ values, List.Forall₂ (fun row => Derives rules [.rule row.2.id]) rows values ∧
        text = (List.zipWith (fun row => entryText row.1) rows values).flatMap ([',', ' '] ++ ·) := by
  induction rows generalizing text with
  | nil => simp [JsonFragment.objectRow, nil_iff]
  | cons row rows ih =>
    rw [JsonFragment.objectRow, List.map_cons, List.map_cons, Piece.symbol, Piece.symbol,
      terminal_cons_iff]
    constructor
    · rintro ⟨after, rfl, hafter⟩
      obtain ⟨value, rest, rfl, hvalue, hrest⟩ := rule_cons_iff.1 hafter
      obtain ⟨values, hvalues, rfl⟩ := ih.1 hrest
      exact ⟨value :: values, .cons hvalue hvalues, by simp [Piece.keyText, entryText]⟩
    · rintro ⟨values, hvalues, rfl⟩
      cases hvalues with
      | @cons _ value _ values hvalue hvalues =>
        exact ⟨value ++ _, by simp [Piece.keyText, entryText],
          hvalue.append (ih.2 ⟨values, hvalues, rfl⟩)⟩

/-- The keys of an object, each with a text of the rule behind it. -/
theorem rows_iff {rows : List (String × RuleHandle)} :
    Derives rules ((JsonFragment.objectRow true rows).map Piece.symbol) text ↔
      ∃ values, List.Forall₂ (fun row => Derives rules [.rule row.2.id]) rows values ∧
        text = joined (List.zipWith (fun row => entryText row.1) rows values) := by
  cases rows with
  | nil => simp [JsonFragment.objectRow, nil_iff]
  | cons row rows =>
    rw [JsonFragment.objectRow, List.map_cons, List.map_cons, Piece.symbol, Piece.symbol,
      terminal_cons_iff]
    constructor
    · rintro ⟨after, rfl, hafter⟩
      obtain ⟨value, rest, rfl, hvalue, hrest⟩ := rule_cons_iff.1 hafter
      obtain ⟨values, hvalues, rfl⟩ := later_rows_iff.1 hrest
      exact ⟨value :: values, .cons hvalue hvalues, by simp [joined_cons, Piece.keyText, entryText]⟩
    · rintro ⟨values, hvalues, rfl⟩
      cases hvalues with
      | @cons _ value _ values hvalue hvalues =>
        exact ⟨value ++ _, by simp [joined_cons, Piece.keyText, entryText],
          hvalue.append (later_rows_iff.2 ⟨values, hvalues, rfl⟩)⟩

/-- A row, and then any number of a row with a separator before it. -/
theorem trail_iff {separator : List Char} {row : List GrammarSymbol} {trail : String}
    (hread : rules trail = some [.terminal separator :: row,
      .terminal separator :: row ++ [.rule trail]]) :
    Derives rules row text ∨ Derives rules (row ++ [.rule trail]) text ↔
      ∃ item items, Derives rules row item ∧ (∀ i ∈ items, Derives rules row i) ∧
        text = separator.intercalate (item :: items) := by
  have hpart (part : List Char) : Derives rules (.terminal separator :: row) part ↔
      ∃ i, Derives rules row i ∧ part = separator ++ i := by
    simp only [terminal_cons_iff, and_comm]
  constructor
  · rintro (h | h)
    · exact ⟨text, [], h, by simp, by simp⟩
    · obtain ⟨item, after, rfl, hitem, hafter⟩ := append_iff.1 h
      obtain ⟨parts, -, hparts, rfl⟩ := (repeated_iff hread).1 hafter
      simp only [hpart] at hparts
      obtain ⟨items, hitems, rfl⟩ := forall_mem_exists_iff.1 hparts
      exact ⟨item, items, hitem, hitems, by rw [intercalate_cons, List.flatMap_def]⟩
  · rintro ⟨item, items, hitem, hitems, rfl⟩
    rw [intercalate_cons, List.flatMap_def]
    cases items with
    | nil => exact .inl (by simpa using hitem)
    | cons second items =>
      refine .inr (hitem.append ((repeated_iff hread).2 ⟨_, by simp, ?_, rfl⟩))
      simp only [hpart]
      exact forall_mem_exists_iff.2 ⟨_, hitems, rfl⟩

end Derives

end RecordGrammar
