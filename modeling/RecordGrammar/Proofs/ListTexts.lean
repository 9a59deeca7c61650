import RecordGrammar.Proofs.MarkdownParts
import RecordGrammar.Proofs.ScalarTexts

/-! # The texts of markdown lists

A list with a count is the concatenation of its items, a list without one a rule that repeats its
item. Either way the items are lines behind their markers, so what has to be known of a list is what
a line derives. -/

namespace RecordGrammar

open MarkdownFragment

/-- One or more characters other than a newline, and a newline. -/
def IsLine (text : List Char) : Prop :=
  ∃ body : List Char, body ≠ [] ∧ '\n' ∉ body ∧ text = body ++ ['\n']

/-- A line behind a marker. -/
def IsItem (marker text : List Char) : Prop := ∃ line, IsLine line ∧ text = marker ++ line

/-- As many items as are counted, the numbers from one on before them in their order. -/
def NumberedText (count : Nat) (text : String) : Prop :=
  ∃ lines : List String, lines.length = count ∧
    (∀ k (hk : k < lines.length), IsItem (toString (k + 1) ++ ". ").toList lines[k].toList) ∧
    text = String.join lines

/-- As many items as are counted, a bullet before each. -/
def BulletedText (bullet : Bullet) (count : Nat) (text : String) : Prop :=
  ∃ lines : List String, lines.length = count ∧
    (∀ line ∈ lines, IsItem bullet.marker.toList line.toList) ∧ text = String.join lines

/-- One item or more, under any numbers. -/
def AnyNumberedText (text : String) : Prop :=
  ∃ lines : List String, lines ≠ [] ∧
    (∀ line ∈ lines, ∃ digits : List Char, digits ≠ [] ∧ (∀ c ∈ digits, c.isDigit = true) ∧
      IsItem (digits ++ ['.', ' ']) line.toList) ∧ text = String.join lines

/-- One item or more, a bullet before each. -/
def AnyBulletedText (bullet : Bullet) (text : String) : Prop :=
  ∃ lines : List String, lines ≠ [] ∧
    (∀ line ∈ lines, IsItem bullet.marker.toList line.toList) ∧ text = String.join lines

/-- One line or more, and an empty line. -/
def ParagraphText (text : String) : Prop :=
  ∃ lines : List String, lines ≠ [] ∧ (∀ line ∈ lines, IsLine line.toList) ∧
    text = String.join lines ++ "\n"

theorem holdsBothQuotes_of_not_mem {raw : String} (h : '"' ∉ raw.toList) :
    holdsBothQuotes raw = false := by
  rw [holdsBothQuotes, decide_eq_false h, Bool.false_and]

/-- A text that a production derives, read where it stands. -/
def RuleTable.Produces (t : RuleTable) (production : String) (text : List Char) : Prop :=
  ∃ alternatives, readProduction production = some alternatives ∧
    ∃ row ∈ alternatives, RecordGrammar.Derives t.reading row text

namespace RuleTable

variable {t : RuleTable} {handle item : RuleHandle} {production lead : String} {text : List Char}
  {layout : Layout}

theorem Says.reading (ht : t.Readable) (h : t.Says handle production) :
    t.reading handle.id = readProduction production :=
  reading_of_rule? (ht.wellFormed.rule?_eq_some_iff.2 ⟨Array.mem_toList_iff.1 h, rfl⟩)

theorem Says.plain (ht : t.Readable) (h : t.Says handle production) : PlainId handle.id :=
  ht.idsPlain _ (ht.wellFormed.defined_iff.2 ⟨_, h, rfl⟩)

/-- The texts of a rule are those of its production. -/
theorem Says.texts (ht : t.Readable) (h : t.Says handle production) :
    t.Texts handle text ↔ t.Produces production text := by
  rw [Texts, Derives.rule_iff, h.reading ht]
  rfl

theorem produces_layout (layout : Layout) (hlegible : layout.Legible) (hne : layout ≠ []) :
    t.Produces layout.text text ↔
      ∃ row ∈ layout.symbols, RecordGrammar.Derives t.reading row text := by
  rw [Produces, Layout.readProduction_text hlegible hne]
  simp

/-- A row of pieces as a production. -/
theorem produces_row (row : List Piece) (h : ∀ p ∈ row, p.Legible) :
    t.Produces (concatenation (row.map Piece.text)) text ↔
      RecordGrammar.Derives t.reading (row.map Piece.symbol) text := by
  let layout : Layout := [row]
  have hrow : t.Produces layout.text text ↔ _ :=
    produces_layout layout (by simpa [layout, Layout.Legible] using h) (List.cons_ne_nil _ _)
  simpa [layout, Layout.text, Layout.symbols] using hrow

/-- A piece as a production. -/
theorem produces_piece (p : Piece) (h : p.Legible) :
    t.Produces p.text text ↔ RecordGrammar.Derives t.reading [p.symbol] text := by
  rw [← concatenation_singleton p.text]
  exact produces_row [p] (List.forall_mem_singleton.2 h)

theorem produces_terminal {raw : String} (h : holdsBothQuotes raw = false) :
    t.Produces (terminal raw) text ↔ text = raw.toList :=
  (produces_piece (.terminal raw) h).trans Derives.terminal_iff

/-- A rule and a terminal behind it. -/
theorem produces_rule_terminal {raw : String} (hitem : PlainId item.id)
    (hraw : holdsBothQuotes raw = false) :
    t.Produces (concatenation [item.text, terminal raw]) text ↔
      ∃ inside, t.Texts item inside ∧ text = inside ++ raw.toList := by
  have hlegible : ∀ p ∈ [Piece.rule item, .terminal raw], p.Legible :=
    List.forall_mem_cons.2 ⟨hitem.referable, List.forall_mem_singleton.2 hraw⟩
  have hclosed : RecordGrammar.Derives t.reading ([.rule item.id] ++ [.terminal raw.toList]) text ↔
      ∃ inside, t.Texts item inside ∧ text = inside ++ raw.toList := Derives.closed_iff
  exact (produces_row _ hlegible).trans hclosed

/-- The repetition of an element that is written as some pieces. -/
theorem Says.reading_repeated (ht : t.Readable) (row : List Piece) (hrow : ∀ p ∈ row, p.Legible)
    (h : t.Says handle (optionalTail (concatenation (row.map Piece.text)) handle.text)) :
    t.reading handle.id =
      some [row.map Piece.symbol, row.map Piece.symbol ++ [.rule handle.id]] := by
  have htext : optionalTail (concatenation (row.map Piece.text)) handle.text =
      Layout.text (Layout.repeated row handle) := by
    simp [optionalTail, Layout.text, Layout.repeated, concatenation, Piece.text]
  have hself : (Piece.rule handle).Legible := (h.plain ht).referable
  rw [h.reading ht, htext, Layout.readProduction_text]
  · simp [Layout.symbols, Layout.repeated, Piece.symbol]
  · simpa [Layout.Legible, Layout.repeated, or_imp, forall_and, hself] using hrow
  · simp [Layout.repeated]

/-- One or more items. -/
theorem SaysMany.texts (ht : t.Readable) (hitem : PlainId item.id) (h : t.SaysMany handle item) :
    t.Texts handle text ↔ ∃ parts : List (List Char), parts ≠ [] ∧
      (∀ part ∈ parts, t.Texts item part) ∧ text = parts.flatten := by
  have hread := Says.reading_repeated ht [.rule item]
    (List.forall_mem_singleton.2 hitem.referable)
    (by rwa [List.map_singleton, concatenation_singleton])
  exact Derives.repeated_iff hread

/-- A rule that stands for another one. -/
theorem Says.texts_rule (ht : t.Readable) (hitem : PlainId item.id)
    (h : t.Says handle item.text) : t.Texts handle text ↔ t.Texts item text :=
  (h.texts ht).trans (produces_piece (.rule item) hitem.referable)

/-- Items that are each the item of an entry derive the texts of the entries. -/
theorem forall₂_texts {α : Type} {ok : α → RuleHandle → Prop} {texts : α → List Char → Prop}
    {entries : List α} {items : List RuleHandle}
    (hok : ∀ entry ∈ entries, ∀ item, ok entry item →
      PlainId item.id ∧ ∀ part, t.Texts item part ↔ texts entry part)
    (h : List.Forall₂ ok entries items) :
    (∀ item ∈ items, PlainId item.id) ∧
      ∀ parts, List.Forall₂ t.Texts items parts ↔ List.Forall₂ texts entries parts := by
  induction h with
  | nil => exact ⟨nofun, fun parts => by simp⟩
  | cons hitem _ ih =>
    obtain ⟨hfirst, hrest⟩ := List.forall_mem_cons.1 hok
    obtain ⟨hplain, hparts⟩ := ih hrest
    obtain ⟨hid, htexts⟩ := hfirst _ hitem
    refine ⟨List.forall_mem_cons.2 ⟨hid, hplain⟩, fun parts => ?_⟩
    cases parts with
    | nil => exact iff_of_false nofun nofun
    | cons part parts => rw [List.forall₂_cons, List.forall₂_cons, htexts, hparts]

/-- One item for each entry. -/
theorem SaysEach.texts {α : Type} {ok : α → RuleHandle → Prop} {texts : α → List Char → Prop}
    {entries : List α} (ht : t.Readable)
    (hok : ∀ entry ∈ entries, ∀ item, ok entry item →
      PlainId item.id ∧ ∀ part, t.Texts item part ↔ texts entry part)
    (h : t.SaysEach handle ok entries) : t.Texts handle text ↔
      ∃ parts, List.Forall₂ texts entries parts ∧ text = parts.flatten := by
  obtain ⟨items, hitems, hsaid⟩ := h
  obtain ⟨hplain, hparts⟩ := forall₂_texts hok hitems
  have hrow : t.Produces (concatenation ((items.map Piece.rule).map Piece.text)) text ↔
      RecordGrammar.Derives t.reading ((items.map Piece.rule).map Piece.symbol) text :=
    produces_row _ (List.forall_mem_map.2 fun item hitem => (hplain item hitem).referable)
  rw [List.map_map, List.map_map] at hrow
  refine (hsaid.texts ht).trans (hrow.trans (Derives.rules_iff.trans ?_))
  exact exists_congr fun parts => and_congr_left' (hparts parts)

theorem SaysLine.texts (ht : t.Readable) (h : t.SaysLine) :
    t.Texts (declHandle "__bml") text ↔ IsLine text := by
  obtain ⟨newline, body, hnewline, hbody, hline⟩ := h
  have hread : t.reading newline.id = some [[.terminal ['\n']]] := by
    rw [hnewline.reading ht]
    decide +kernel
  have hone (x : List Char) : RecordGrammar.Derives t.reading [.exceptRule newline.id] x ↔
      ∃ c, c ≠ '\n' ∧ x = [c] := by
    simp [Derives.exceptRule_iff, hread]
  have hbodies : t.reading body.id =
      some [[.exceptRule newline.id], [.exceptRule newline.id] ++ [.rule body.id]] := by
    refine Says.reading_repeated ht [.except newline] ?_ ?_
    · exact List.forall_mem_singleton.2 (hnewline.plain ht)
    · rwa [List.map_singleton, concatenation_singleton]
  refine (hline.texts ht).trans ((produces_rule_terminal (hbody.plain ht) (by decide)).trans ?_)
  refine exists_congr fun chars => ?_
  have hchars : t.Texts body chars ↔ chars ≠ [] ∧ ∀ c ∈ chars, c ≠ '\n' :=
    Derives.repeated_chars_iff hone hbodies
  have hnewlines : (∀ c ∈ chars, c ≠ '\n') ↔ '\n' ∉ chars :=
    ⟨fun hall hmem => hall _ hmem rfl, fun hmem c hc he => hmem (he ▸ hc)⟩
  rw [hchars, hnewlines, and_assoc]
  rfl

theorem SaysLeadLine.texts (ht : t.Readable) (h : t.SaysLeadLine lead) :
    t.Texts (declHandle (leadStem lead)) text ↔
      ∃ before line, t.Produces lead before ∧ IsLine line ∧ text = before ++ line := by
  obtain ⟨hline, before, hbefore, hlead⟩ := h
  have hplain : PlainId (declHandle "__bml").id := declHandle_plain (by decide)
  have hlegible : ∀ p ∈ [Piece.rule before, .rule (declHandle "__bml")], p.Legible := by
    simpa [Piece.Legible] using ⟨(hbefore.plain ht).referable, hplain.referable⟩
  refine (hlead.texts ht).trans ((produces_row _ hlegible).trans (Derives.rule_cons_iff.trans ?_))
  have hfirst (x : List Char) : t.Texts before x ↔ t.Produces lead x := hbefore.texts ht
  have hsecond (x : List Char) : t.Texts (declHandle "__bml") x ↔ IsLine x := hline.texts ht
  simp only [Texts] at hfirst hsecond
  simp only [hfirst, List.map_cons, Piece.symbol, List.map_nil, hsecond]
  exact exists₂_congr fun x y => by tauto

/-- A rule for one or more items, which another rule stands for. -/
theorem SaysMany.texts_rule {items : RuleHandle} {texts : List Char → Prop} (ht : t.Readable)
    (hitem : PlainId item.id ∧ ∀ part, t.Texts item part ↔ texts part)
    (h : t.SaysMany items item) (hsaid : t.Says handle items.text) : t.Texts handle text ↔
      ∃ parts : List (List Char), parts ≠ [] ∧ (∀ part ∈ parts, texts part) ∧
        text = parts.flatten := by
  have hitems : PlainId items.id := Says.plain ht h
  refine (hsaid.texts_rule ht hitems).trans ((h.texts ht hitem.1).trans ?_)
  simp only [hitem.2]

/-- A rule for runs of digits. -/
theorem SaysMany.texts_digits {digit : RuleHandle} (ht : t.Readable)
    (hdigit : t.Says digit (alternation (decimalDigits.map terminal)))
    (h : t.SaysMany handle digit) : t.Texts handle text ↔
      text ≠ [] ∧ ∀ c ∈ text, c.isDigit = true := by
  have hlegible : (Layout.ofTerminals decimalDigits).Legible := by decide +kernel
  have hone (x : List Char) : RecordGrammar.Derives t.reading [.rule digit.id] x ↔
      ∃ c : Char, c.isDigit = true ∧ x = [c] := by
    rw [← Layout.text_ofTerminals] at hdigit
    refine (hdigit.texts ht).trans ((produces_layout _ hlegible ?_).trans decimalDigits_texts)
    decide
  have hread : t.reading handle.id = some [[.rule digit.id], [.rule digit.id] ++ [.rule handle.id]] := by
    refine Says.reading_repeated ht [.rule digit] ?_ ?_
    · exact List.forall_mem_singleton.2 (hdigit.plain ht).referable
    · rwa [List.map_singleton, concatenation_singleton]
  exact Derives.repeated_chars_iff hone hread

end RuleTable

namespace MarkdownPart

variable {t : RuleTable} {item : RuleHandle} {text : List Char}

theorem ItemIn.texts {lead : String} (ht : t.Readable) (h : ItemIn t lead item) :
    PlainId item.id ∧ ∀ text, t.Texts item text ↔
      ∃ before, t.Produces lead before ∧ IsItem before text := by
  obtain ⟨rfl, hitem⟩ := h
  refine ⟨declHandle_plain (BlockCall.leadStem_plain _), fun text => ?_⟩
  refine (hitem.texts ht).trans (exists_congr fun before => ?_)
  simp [IsItem]

/-- The item behind a marker that is one terminal. -/
theorem ItemIn.texts_terminal {raw : String} (ht : t.Readable) (hraw : holdsBothQuotes raw = false)
    (h : ItemIn t (terminal raw) item) :
    PlainId item.id ∧ ∀ text, t.Texts item text ↔ IsItem raw.toList text := by
  obtain ⟨hid, htexts⟩ := h.texts ht
  exact ⟨hid, fun text => (htexts text).trans (by simp [RuleTable.produces_terminal hraw])⟩

theorem marker_legible (bullet : Bullet) : holdsBothQuotes bullet.marker = false := by
  cases bullet <;> decide

theorem number_legible (k : Nat) : holdsBothQuotes (toString k ++ ". ") = false := by
  apply holdsBothQuotes_of_not_mem
  rw [String.toList_append, List.mem_append, not_or]
  exact ⟨(PlainId.toString_nat k).not_mem (by decide), by decide⟩

theorem bulletList_texts {bullet : Bullet} {count : Nat} (ht : t.Readable) (hcount : count ≠ 0)
    (h : (bulletList bullet count).Stands t) : t.Texts (bulletList bullet count).handle text ↔
      ∃ parts : List (List Char), parts.length = count ∧
        (∀ part ∈ parts, IsItem bullet.marker.toList part) ∧ text = parts.flatten := by
  rw [Stands, if_neg hcount] at h
  have hitems (marker : String) (hmarker : marker ∈ List.replicate count (terminal bullet.marker))
      (item : RuleHandle) (hitem : ItemIn t marker item) :
      PlainId item.id ∧ ∀ text, t.Texts item text ↔ IsItem bullet.marker.toList text := by
    rw [List.eq_of_mem_replicate hmarker] at hitem
    exact hitem.texts_terminal ht (marker_legible bullet)
  refine (h.texts ht hitems).trans ?_
  simp only [forall₂_replicate_iff, and_assoc]

theorem bulletList_zero_texts {bullet : Bullet} (ht : t.Readable)
    (h : (bulletList bullet 0).Stands t) : t.Texts (bulletList bullet 0).handle text ↔
      ∃ parts : List (List Char), parts ≠ [] ∧
        (∀ part ∈ parts, IsItem bullet.marker.toList part) ∧ text = parts.flatten := by
  obtain ⟨item, items, hitem, hitems, hlist⟩ := h
  exact hitems.texts_rule ht (hitem.texts_terminal ht (marker_legible bullet)) hlist

theorem numberedList_texts {count : Nat} (ht : t.Readable) (hcount : count ≠ 0)
    (h : (numberedList count).Stands t) : t.Texts (numberedList count).handle text ↔
      ∃ parts, List.Forall₂ (fun k => IsItem (toString (k + 1) ++ ". ").toList)
        (List.range count) parts ∧ text = parts.flatten := by
  rw [Stands, if_neg hcount] at h
  exact h.texts ht fun k _ item hitem => hitem.texts_terminal ht (number_legible (k + 1))

theorem numberedList_zero_texts (ht : t.Readable) (h : (numberedList 0).Stands t) :
    t.Texts (numberedList 0).handle text ↔ ∃ parts : List (List Char), parts ≠ [] ∧
      (∀ part ∈ parts, ∃ digits : List Char, digits ≠ [] ∧ (∀ c ∈ digits, c.isDigit = true) ∧
        IsItem (digits ++ ['.', ' ']) part) ∧ text = parts.flatten := by
  obtain ⟨digit, number, item, items, hdigit, hnumber, hitem, hitems, hlist⟩ := h
  obtain ⟨hid, htexts⟩ := hitem.texts ht
  have hplain : PlainId number.id := RuleTable.Says.plain ht hnumber
  refine hitems.texts_rule ht ⟨hid, fun part => (htexts part).trans ?_⟩ hlist
  simp only [RuleTable.produces_rule_terminal hplain (by decide : holdsBothQuotes ". " = false),
    hnumber.texts_digits ht hdigit]
  constructor
  · rintro ⟨_, ⟨digits, ⟨hne, hall⟩, rfl⟩, hpart⟩
    exact ⟨digits, hne, hall, hpart⟩
  · rintro ⟨digits, hne, hall, hpart⟩
    exact ⟨_, ⟨digits, ⟨hne, hall⟩, rfl⟩, hpart⟩

theorem paragraph_texts (ht : t.Readable) (h : paragraph.Stands t) :
    t.Texts paragraph.handle text ↔ ∃ parts : List (List Char), parts ≠ [] ∧
      (∀ part ∈ parts, IsLine part) ∧ text = parts.flatten ++ ['\n'] := by
  obtain ⟨hline, lines, hlines, hparagraph⟩ := h
  have hplain : PlainId lines.id := RuleTable.Says.plain ht hlines
  refine (hparagraph.texts ht).trans
    ((RuleTable.produces_rule_terminal hplain (by decide)).trans ?_)
  simp only [hlines.texts ht (declHandle_plain (by decide)), hline.texts ht]
  constructor
  · rintro ⟨_, ⟨parts, hne, hparts, rfl⟩, rfl⟩
    exact ⟨parts, hne, hparts, rfl⟩
  · rintro ⟨parts, hne, hparts, rfl⟩
    exact ⟨_, ⟨parts, hne, hparts, rfl⟩, rfl⟩

end MarkdownPart

theorem forall₂_range_iff {β : Type} {R : Nat → β → Prop} {n : Nat} {bs : List β} :
    List.Forall₂ R (List.range n) bs ↔ bs.length = n ∧ ∀ k (hk : k < bs.length), R k bs[k] := by
  rw [List.forall₂_iff_get]
  simp only [List.length_range, List.get_eq_getElem, List.getElem_range]
  constructor
  · rintro ⟨rfl, h⟩
    exact ⟨rfl, fun k hk => h k hk hk⟩
  · rintro ⟨rfl, h⟩
    exact ⟨rfl, fun k _ hk => h k hk⟩

namespace BlockCall

variable {calls : List BlockCall}

theorem numberedList_yields {count : Nat} (hcount : 1 ≤ count)
    (hlog : Collisionless (after (calls ++ [.numberedList count])).log) :
    Yields calls (.numberedList count) fun _ => NumberedText count := by
  refine yields_of_ensures hlog trivial (Ensures.numberedList hlog count) fun t ht r hr text => ?_
  refine (MarkdownPart.numberedList_texts ht (by omega) hr.2).trans (exists_strings_iff.trans ?_)
  simp only [forall₂_range_iff, List.length_map, List.getElem_map, toList_eq_flatten_iff, and_assoc]
  rfl

theorem bulletList_yields (bullet : Bullet) {count : Nat} (hcount : 1 ≤ count)
    (hlog : Collisionless (after (calls ++ [.bulletList bullet count])).log) :
    Yields calls (.bulletList bullet count) fun _ => BulletedText bullet count := by
  refine yields_of_ensures hlog trivial (Ensures.bulletList hlog bullet count) fun t ht r hr text => ?_
  refine (MarkdownPart.bulletList_texts ht (by omega) hr.2).trans (exists_strings_iff.trans ?_)
  simp only [List.length_map, List.forall_mem_map, toList_eq_flatten_iff]
  rfl

theorem numberedList_zero_yields (hlog : Collisionless (after (calls ++ [.numberedList 0])).log) :
    Yields calls (.numberedList 0) fun _ => AnyNumberedText := by
  refine yields_of_ensures hlog trivial (Ensures.numberedList hlog 0) fun t ht r hr text => ?_
  refine (MarkdownPart.numberedList_zero_texts ht hr.2).trans (exists_strings_iff.trans ?_)
  simp only [ne_eq, List.map_eq_nil_iff, List.forall_mem_map, toList_eq_flatten_iff]
  rfl

theorem bulletList_zero_yields (bullet : Bullet)
    (hlog : Collisionless (after (calls ++ [.bulletList bullet 0])).log) :
    Yields calls (.bulletList bullet 0) fun _ => AnyBulletedText bullet := by
  refine yields_of_ensures hlog trivial (Ensures.bulletList hlog bullet 0) fun t ht r hr text => ?_
  refine (MarkdownPart.bulletList_zero_texts ht hr.2).trans (exists_strings_iff.trans ?_)
  simp only [ne_eq, List.map_eq_nil_iff, List.forall_mem_map, toList_eq_flatten_iff]
  rfl

theorem paragraph_yields (hlog : Collisionless (after (calls ++ [.paragraph])).log) :
    Yields calls .paragraph fun _ => ParagraphText := by
  refine yields_of_ensures hlog trivial (Ensures.paragraph hlog) fun t ht r hr text => ?_
  refine (MarkdownPart.paragraph_texts ht hr.2).trans (exists_strings_iff.trans ?_)
  have hend (lines : List String) : text.toList = (lines.map String.toList).flatten ++ ['\n'] ↔
      text = String.join lines ++ "\n" := by
    rw [← String.toList_inj, String.toList_append, String.toList_join, List.flatMap_def]
    rfl
  simp only [ne_eq, List.map_eq_nil_iff, List.forall_mem_map, hend]
  rfl

/-- After any calls the markdown lists and the paragraph go through and derive exactly their lines.
A list with a count has as many items, those of a numbered list under the numbers from one on in
their order; a list without a count has one item or more, those of a numbered list under any
numbers; and a paragraph is one or more lines with an empty line behind them. -/
theorem lists_yield (calls : List BlockCall) :
    (∀ count, 1 ≤ count → Collisionless (after (calls ++ [.numberedList count])).log →
      Yields calls (.numberedList count) fun _ => NumberedText count) ∧
    (∀ bullet count, 1 ≤ count → Collisionless (after (calls ++ [.bulletList bullet count])).log →
      Yields calls (.bulletList bullet count) fun _ => BulletedText bullet count) ∧
    (Collisionless (after (calls ++ [.numberedList 0])).log →
      Yields calls (.numberedList 0) fun _ => AnyNumberedText) ∧
    (∀ bullet, Collisionless (after (calls ++ [.bulletList bullet 0])).log →
      Yields calls (.bulletList bullet 0) fun _ => AnyBulletedText bullet) ∧
    (Collisionless (after (calls ++ [.paragraph])).log →
      Yields calls .paragraph fun _ => ParagraphText) :=
  ⟨fun _ => numberedList_yields, fun bullet _ => bulletList_yields bullet, numberedList_zero_yields,
    bulletList_zero_yields, paragraph_yields⟩

/-- A heading that is refused, and a line behind the marker of the second item of a list. -/
def earlierLines : List BlockCall := [.heading 0 (some ""), .lineWithLead (some (numberMarker 2))]

theorem earlierLines_collisionless :
    Collisionless (after (earlierLines ++ [.numberedList 2])).log ∧
      Collisionless (after (earlierLines ++ [.bulletList .dash 3])).log ∧
      Collisionless (after (earlierLines ++ [.numberedList 0])).log ∧
      Collisionless (after (earlierLines ++ [.bulletList .star 0])).log ∧
      Collisionless (after (earlierLines ++ [.paragraph])).log := by
  decide +kernel

/-- The lists share a line with what was built before them. The numbered list derives its items in
their order only. -/
theorem earlierLines_yield :
    answer earlierLines (.numberedList 2) = some ⟨"__bmnl_2_decl"⟩ ∧
      (let t := (after (earlierLines ++ [.numberedList 2])).table
       t.Derives ⟨"__bmnl_2_decl"⟩ "1. a\n2. b\n" ∧ ¬t.Derives ⟨"__bmnl_2_decl"⟩ "2. b\n1. a\n") ∧
      Yields earlierLines (.bulletList .dash 3) (fun _ => BulletedText .dash 3) ∧
      Yields earlierLines (.numberedList 0) (fun _ => AnyNumberedText) ∧
      Yields earlierLines (.bulletList .star 0) (fun _ => AnyBulletedText .star) ∧
      Yields earlierLines .paragraph (fun _ => ParagraphText) := by
  obtain ⟨hnumbered, hbulleted, hnumbers, hbullets, hparagraph⟩ := lists_yield earlierLines
  obtain ⟨hcounted, hdashed, hany, hstarred, hlined⟩ := earlierLines_collisionless
  have hlist := hnumbered 2 (by decide) hcounted
  refine ⟨hlist.1, ⟨(hlist.2 [] _).2 ?_, fun h => ?_⟩, hbulleted .dash 3 (by decide) hdashed,
    hnumbers hany, hbullets .star hstarred, hparagraph hlined⟩
  · refine ⟨["1. a\n", "2. b\n"], rfl, fun k hk => ?_, by decide +kernel⟩
    match k, hk with
    | 0, _ =>
      have hfirst : "1. a\n".toList = (toString 1 ++ ". ").toList ++ ['a', '\n'] := by decide +kernel
      exact ⟨_, ⟨['a'], by decide, by decide, rfl⟩, hfirst⟩
    | 1, _ =>
      have hsecond : "2. b\n".toList = (toString 2 ++ ". ").toList ++ ['b', '\n'] := by
        decide +kernel
      exact ⟨_, ⟨['b'], by decide, by decide, rfl⟩, hsecond⟩
  · obtain ⟨lines, hlength, hitems, htext⟩ := (hlist.2 [] _).1 h
    match lines, hlength with
    | first :: rest, hlength =>
      obtain ⟨line, -, hfirst⟩ := hitems 0 (by simp)
      have hchars := congrArg String.toList htext
      rw [String.toList_join, List.flatMap_cons] at hchars
      replace hfirst : first.toList = "1. ".toList ++ line := hfirst
      rw [hfirst] at hchars
      exact absurd (congrArg List.head? hchars) (by simp)

end BlockCall

end RecordGrammar
