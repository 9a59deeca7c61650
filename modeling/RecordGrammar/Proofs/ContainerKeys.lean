import RecordGrammar.Proofs.BrokenReferences
import RecordGrammar.Proofs.EnumerationKeys
import RecordGrammar.Proofs.RowTexts

/-! # Containers of the same key

A container is keyed by its names and references, joined without any escape. Where the names of a
container hold no opening bracket, every bracket in its key opens one of its references. So the ids
of another container of that key are ids of the first one, or they end a reference early.

Two objects of the same key may still be different. Then they do not have the same texts: of the
texts with the shortest values each object has its own. -/

namespace RecordGrammar

section Keys

variable {separator : Char} {rows rows' : List (String × RuleHandle)}

theorem head_keyTail {c : Char} {after : List Char} (h : keyTail separator rows = c :: after) :
    c = separator := by
  cases rows with
  | nil => cases h
  | cons row rows =>
    rw [keyTail_cons] at h
    exact (List.cons.inj h).1.symm

/-- A character stands behind what it does not stand in. -/
theorem exists_of_append_eq {c : Char} {front back before after : List Char} (hc : c ∉ front)
    (h : front ++ back = before ++ c :: after) :
    ∃ between, back = between ++ c :: after := by
  rcases List.append_eq_append_iff.1 h with ⟨between, -, hback⟩ | ⟨between, hfront, hafter⟩
  · exact ⟨between, hback⟩
  · cases between with
    | nil => exact ⟨[], hafter.symm⟩
    | cons d between =>
      obtain ⟨rfl, -⟩ := List.cons.inj hafter
      simp [hfront] at hc

/-- Every opening bracket of a key opens a reference. -/
theorem exists_reference (hseparator : separator ≠ '<')
    (hrows : ∀ row ∈ rows, '<' ∉ row.1.toList ∧ '<' ∉ row.2.id.toList) {before after : List Char}
    (h : keyTail separator rows = before ++ '<' :: after) :
    ∃ row ∈ rows, ∃ rest, after = row.2.id.toList ++ '>' :: keyTail separator rest := by
  induction rows generalizing before with
  | nil => simp [keyTail] at h
  | cons row rows ih =>
    obtain ⟨⟨hname, hid⟩, hrows⟩ := List.forall_mem_cons.1 hrows
    rw [keyTail_cons] at h
    have hfront : '<' ∉ separator :: row.1.toList := by simp [Ne.symm hseparator, hname]
    obtain ⟨between, hback⟩ := exists_of_append_eq hfront h
    cases between with
    | nil => exact ⟨row, List.mem_cons_self, rows, (List.cons.inj hback).2.symm⟩
    | cons c between =>
      obtain ⟨rfl, hback⟩ := List.cons.inj hback
      have hfront : '<' ∉ row.2.id.toList ++ ['>'] := by simp [hid]
      obtain ⟨between, hback⟩ := exists_of_append_eq hfront (by simpa using hback)
      obtain ⟨row', hrow', hafter⟩ := ih hrows hback
      exact ⟨row', List.mem_cons_of_mem _ hrow', hafter⟩

/-- The ids of rows that have the key of rows with clear names and plain ids. -/
theorem referable_or_broken (hseparator : separator ∉ '>' :: Dialect.startingChars)
    (hrows : ∀ row ∈ rows, '<' ∉ row.1.toList ∧ PlainId row.2.id)
    (h : keyTail separator rows' = keyTail separator rows) {row' : String × RuleHandle}
    (hrow' : row' ∈ rows') : Referable row'.2.id ∨ row'.2.Broken := by
  obtain ⟨hclose, hstart⟩ := not_or.1 (fun hmem => hseparator (List.mem_cons.2 hmem))
  have hopen : separator ≠ '<' := fun he => hstart (he ▸ List.mem_cons_self)
  have hclear : ∀ row ∈ rows, '<' ∉ row.1.toList ∧ '<' ∉ row.2.id.toList := fun row hrow =>
    ⟨(hrows row hrow).1, (hrows row hrow).2.not_mem (by decide)⟩
  obtain ⟨before, later, rfl⟩ := List.append_of_mem hrow'
  have hsplit : keyTail separator (before ++ row' :: later) =
      (keyTail separator before ++ separator :: row'.1.toList) ++
        '<' :: (row'.2.id.toList ++ '>' :: keyTail separator later) := by
    simp [keyTail, RuleHandle.text]
  obtain ⟨row, hrow, rest, hafter⟩ := exists_reference hopen hclear (h.symm.trans hsplit)
  have hplain := (hrows row hrow).2
  by_cases hend : '>' ∈ row'.2.id.toList
  · -- The id goes on behind the reference of the row, up to a bracket of its own.
    obtain ⟨id, tail, hid, hfirst⟩ := List.eq_append_cons_of_mem hend
    rw [hid, List.append_assoc, List.cons_append] at hafter
    obtain ⟨hsame, htail⟩ :=
      append_cons_inj_of_first hfirst hplain.referable.closed hafter
    cases tail with
    | nil => exact absurd (head_keyTail htail.symm) (Ne.symm hclose)
    | cons c tail =>
      obtain rfl : c = separator := head_keyTail htail.symm
      exact .inr ⟨row.2.id, c, tail, hplain.referable, hstart, by rw [hid, hsame]⟩
  · obtain ⟨hsame, -⟩ := append_cons_inj_of_first hend hplain.referable.closed hafter
    exact .inl (String.toList_inj.1 hsame ▸ hplain.referable)

end Keys

/-- A text than which no other one is shorter. -/
def Shortest (texts : List Char → Prop) (text : List Char) : Prop :=
  texts text ∧ ∀ other, texts other → text.length ≤ other.length

theorem exists_shortest {texts : List Char → Prop} {text : List Char} (h : texts text) :
    ∃ s, Shortest texts s := by
  obtain ⟨s, hs, hmin⟩ := (measure List.length).wf.has_min {s | texts s} ⟨text, h⟩
  exact ⟨s, hs, fun other hother => Nat.le_of_not_lt (hmin other hother)⟩

/-- The texts of an object, told by those of its rules. -/
def RowTexts (texts : RuleHandle → List Char → Prop) (rows : List (String × RuleHandle))
    (text : List Char) : Prop :=
  ∃ values, List.Forall₂ (fun row => texts row.2) rows values ∧
    text = inBraces (List.zipWith (fun row => entryText row.1) rows values)

/-- The entries of an object, with a comma and a space before each. -/
def laterEntries (rows : List (String × RuleHandle)) (values : List (List Char)) : List Char :=
  (List.zipWith (fun row => entryText row.1) rows values).flatMap ([',', ' '] ++ ·)

section Values

variable {texts : RuleHandle → List Char → Prop} {rows rows' : List (String × RuleHandle)}
  {values values' : List (List Char)}

theorem laterEntries_cons (row : String × RuleHandle) (rows : List (String × RuleHandle))
    (value : List Char) (values : List (List Char)) :
    laterEntries (row :: rows) (value :: values) =
      [',', ' '] ++ ((jsonString row.1).toList ++ ([':', ' '] ++ (value ++
        laterEntries rows values))) := by
  simp [laterEntries, entryText]

theorem laterEntries_eq (hne : rows ≠ []) (h : rows.length = values.length) :
    laterEntries rows values =
      [',', ' '] ++ joined (List.zipWith (fun row => entryText row.1) rows values) := by
  cases rows with
  | nil => exact absurd rfl hne
  | cons row rows =>
    cases values with
    | nil => cases h
    | cons value values => simp [laterEntries, joined_cons]

/-- The entries of rows of one key are the same if the objects made of them are. -/
theorem laterEntries_eq_of_inBraces {separator : Char}
    (hkey : keyTail separator rows = keyTail separator rows') (h : rows.length = values.length)
    (h' : rows'.length = values'.length)
    (he : inBraces (List.zipWith (fun row => entryText row.1) rows values) =
      inBraces (List.zipWith (fun row => entryText row.1) rows' values')) :
    laterEntries rows values = laterEntries rows' values' := by
  cases rows with
  | nil =>
    cases rows' with
    | nil => simp [laterEntries]
    | cons row' rows' => exact absurd hkey.symm (keyTail_cons_ne_nil row')
  | cons row rows =>
    cases rows' with
    | nil => exact absurd hkey (keyTail_cons_ne_nil row)
    | cons row' rows' =>
      rw [laterEntries_eq (List.cons_ne_nil _ _) h, laterEntries_eq (List.cons_ne_nil _ _) h',
        List.append_cancel_right (List.cons.inj he).2]

theorem RowTexts.shortest_values {text : List Char} (h : RowTexts texts rows text) :
    ∃ values, List.Forall₂ (fun row => Shortest (texts row.2)) rows values := by
  obtain ⟨values, hvalues, -⟩ := h
  induction hvalues with
  | nil => exact ⟨[], .nil⟩
  | cons hvalue _ ih =>
    obtain ⟨value, hvalue⟩ := exists_shortest hvalue
    obtain ⟨values, hvalues⟩ := ih
    exact ⟨value :: values, .cons hvalue hvalues⟩

/-- Shortest values make the shortest text, and no other ones do. -/
theorem length_laterEntries (h : List.Forall₂ (fun row => Shortest (texts row.2)) rows values)
    (h' : List.Forall₂ (fun row => texts row.2) rows values') :
    (laterEntries rows values).length ≤ (laterEntries rows values').length ∧
      ((laterEntries rows values').length ≤ (laterEntries rows values).length →
        List.Forall₂ (fun row => Shortest (texts row.2)) rows values') := by
  induction h generalizing values' with
  | nil =>
    cases h'
    exact ⟨le_refl _, fun _ => .nil⟩
  | @cons row value rows values hvalue _ ih =>
    cases h' with
    | @cons _ value' _ values' hvalue' h' =>
      obtain ⟨hle, hshortest⟩ := ih h'
      have hfirst := hvalue.2 value' hvalue'
      simp only [laterEntries_cons, List.length_append]
      refine ⟨by omega, fun hge => .cons ⟨hvalue', fun other hother => ?_⟩ (hshortest ?_)⟩
      · exact le_trans (by omega) (hvalue.2 other hother)
      · omega

/-- Rows of one key are the same if shortest values make the same text of them. -/
theorem rows_eq_of_laterEntries {separator : Char}
    (hkey : keyTail separator rows = keyTail separator rows')
    (hids : ∀ row ∈ rows, '>' ∉ row.2.id.toList) (hids' : ∀ row ∈ rows', '>' ∉ row.2.id.toList)
    (h : List.Forall₂ (fun row => Shortest (texts row.2)) rows values)
    (h' : List.Forall₂ (fun row => Shortest (texts row.2)) rows' values')
    (he : laterEntries rows values = laterEntries rows' values') : rows = rows' := by
  induction h generalizing rows' values' with
  | nil =>
    cases rows' with
    | nil => rfl
    | cons row' rows' => exact absurd hkey.symm (keyTail_cons_ne_nil row')
  | @cons row value rows values hvalue _ ih =>
    cases h' with
    | nil => exact absurd hkey (keyTail_cons_ne_nil row)
    | @cons row' value' rows' values' hvalue' h' =>
      obtain ⟨hid, hothers⟩ := List.forall_mem_cons.1 hids
      obtain ⟨hid', hothers'⟩ := List.forall_mem_cons.1 hids'
      obtain ⟨name, handle⟩ := row
      obtain ⟨name', handle'⟩ := row'
      -- The texts tell the first names apart, and behind the names the keys tell the ids.
      rw [laterEntries_cons, laterEntries_cons] at he
      obtain ⟨rfl, hbehind⟩ := jsonString_append_inj (List.append_cancel_left he)
      rw [keyTail_cons, keyTail_cons] at hkey
      obtain ⟨hsame, hkeys⟩ := append_cons_inj_of_first hid hid'
        (List.cons.inj (List.append_cancel_left (List.cons.inj hkey).2)).2
      obtain rfl : handle = handle' := RuleHandle.toList_inj hsame
      -- Both values are shortest ones of one rule, so that they end at the same place.
      have hlength : value.length = value'.length :=
        le_antisymm (hvalue.2 _ hvalue'.1) (hvalue'.2 _ hvalue.1)
      obtain ⟨-, hrest⟩ := List.append_inj (List.append_cancel_left hbehind) hlength
      rw [ih hkeys hothers hothers' h' hrest]

/-- Rows of one key are the same if they have the same texts, and any at all. -/
theorem rows_eq_of_rowTexts {separator : Char}
    (hkey : keyTail separator rows = keyTail separator rows')
    (hids : ∀ row ∈ rows, '>' ∉ row.2.id.toList) (hids' : ∀ row ∈ rows', '>' ∉ row.2.id.toList)
    (hsome : ∃ text, RowTexts texts rows text)
    (hsame : ∀ text, RowTexts texts rows text ↔ RowTexts texts rows' text) : rows = rows' := by
  obtain ⟨text, htext⟩ := hsome
  obtain ⟨values, hvalues⟩ := htext.shortest_values
  obtain ⟨values', hvalues'⟩ := ((hsame text).1 htext).shortest_values
  obtain ⟨others', hothers', he⟩ := (hsame _).1 ⟨values, hvalues.imp fun _ _ h => h.1, rfl⟩
  obtain ⟨others, hothers, he'⟩ := (hsame _).2 ⟨values', hvalues'.imp fun _ _ h => h.1, rfl⟩
  have hlater := laterEntries_eq_of_inBraces hkey hvalues.length_eq hothers'.length_eq he
  have hlater' := laterEntries_eq_of_inBraces hkey hothers.length_eq hvalues'.length_eq he'.symm
  -- What is made of the shortest values of either is made of shortest values of the other one.
  have hle := (length_laterEntries hvalues hothers).1
  rw [hlater, hlater'] at hle
  exact rows_eq_of_laterEntries hkey hids hids' hvalues ((length_laterEntries hvalues' hothers').2 hle)
    hlater

end Values

end RecordGrammar
