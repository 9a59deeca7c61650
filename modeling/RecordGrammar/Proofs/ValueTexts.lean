import RecordGrammar.Proofs.TextLayouts

/-! # The two texts of a JSON value

A value is written without any space, or over several lines that are indented. Both are read as the
tree of the value, as long as its numbers are read back from their own texts and not more brackets
are open at a time than the reader allows. -/

namespace RecordGrammar

namespace Json

mutual

/-- How many brackets of a text of the value are open at a time. -/
def nesting : Json → Nat
  | .array items => itemsNesting items + 1
  | .object members => membersNesting members + 1
  | _ => 0

def itemsNesting : List Json → Nat
  | [] => 0
  | item :: rest => max item.nesting (itemsNesting rest)

def membersNesting : List (String × Json) → Nat
  | [] => 0
  | (_, value) :: rest => max value.nesting (membersNesting rest)

end

mutual

/-- The tree of a text of the value. -/
def toNode : Json → Node
  | .null => .null
  | .bool b => .bool b
  | .number n => .ofNumber n
  | .string s => .string s
  | .array items => .sequence (itemsToNodes items)
  | .object members => .mapping (membersToNodes members)

def itemsToNodes : List Json → List Node
  | [] => []
  | item :: rest => item.toNode :: itemsToNodes rest

def membersToNodes : List (String × Json) → List (String × Node)
  | [] => []
  | (key, value) :: rest => (key, value.toNode) :: membersToNodes rest

end

mutual

/-- The numbers of a value are read back from their own texts. -/
def NumbersReadBack : Json → Prop
  | .number n => Json.ofText? n.text = some (.number n)
  | .array items => ItemsReadBack items
  | .object members => MembersReadBack members
  | _ => True

def ItemsReadBack : List Json → Prop
  | [] => True
  | item :: rest => item.NumbersReadBack ∧ ItemsReadBack rest

def MembersReadBack : List (String × Json) → Prop
  | [] => True
  | (_, value) :: rest => value.NumbersReadBack ∧ MembersReadBack rest

end

theorem itemsReadBack_iff {items : List Json} :
    ItemsReadBack items ↔ ∀ item ∈ items, item.NumbersReadBack := by
  induction items with
  | nil => simp [ItemsReadBack]
  | cons item rest ih => simp [ItemsReadBack, ih]

theorem membersReadBack_iff {members : List (String × Json)} :
    MembersReadBack members ↔ ∀ m ∈ members, m.2.NumbersReadBack := by
  induction members with
  | nil => simp [MembersReadBack]
  | cons m rest ih => simp [MembersReadBack, ih]

theorem itemsNesting_le_iff {items : List Json} {n : Nat} :
    itemsNesting items ≤ n ↔ ∀ item ∈ items, item.nesting ≤ n := by
  induction items with
  | nil => simp [itemsNesting]
  | cons item rest ih => simp [itemsNesting, ih]

theorem membersNesting_le_iff {members : List (String × Json)} {n : Nat} :
    membersNesting members ≤ n ↔ ∀ m ∈ members, m.2.nesting ≤ n := by
  induction members with
  | nil => simp [membersNesting]
  | cons m rest ih => simp [membersNesting, ih]

theorem itemsToNodes_eq (items : List Json) : itemsToNodes items = items.map toNode := by
  induction items with
  | nil => rfl
  | cons item rest ih => rw [itemsToNodes, ih, List.map_cons]

theorem membersToNodes_eq (members : List (String × Json)) :
    membersToNodes members = members.map fun m => (m.1, m.2.toNode) := by
  induction members with
  | nil => rfl
  | cons m rest ih => rw [membersToNodes, ih, List.map_cons]

theorem compactItems_eq (items : List Json) : compactItems items = items.map compact := by
  induction items with
  | nil => rfl
  | cons item rest ih => rw [compactItems, ih, List.map_cons]

theorem compactMembers_eq (members : List (String × Json)) :
    compactMembers members = members.map fun m => jsonString m.1 ++ ":" ++ m.2.compact := by
  induction members with
  | nil => rfl
  | cons m rest ih => rw [compactMembers, ih, List.map_cons]

theorem indentedItems_eq (depth : Nat) (items : List Json) :
    indentedItems depth items = items.map (indented depth) := by
  induction items with
  | nil => rfl
  | cons item rest ih => rw [indentedItems, ih, List.map_cons]

theorem indentedMembers_eq (depth : Nat) (members : List (String × Json)) :
    indentedMembers depth members =
      members.map fun m => jsonString m.1 ++ ": " ++ m.2.indented depth := by
  induction members with
  | nil => rfl
  | cons m rest ih => rw [indentedMembers, ih, List.map_cons]

open JsonReader

/-- A way of writing a value that is so many brackets deep: between its brackets stand the texts of
its parts, written one step deeper, with space between them. -/
structure IsLayout (write : Nat → Json → List Char) : Prop where
  scalar : ∀ depth v, v.nesting = 0 → write depth v = v.compact.toList
  array : ∀ depth items, ∃ s : Spacing,
    write depth (.array items) = s.array (items.map (write (depth + 1)))
  object : ∀ depth members, ∃ s : Spacing,
    write depth (.object members) = s.object (members.map fun m => (m.1, write (depth + 1) m.2))

theorem ofText?_integer {k : Int} (hfits : -2 ^ 63 ≤ k ∧ k < 2 ^ 64) :
    Json.ofText? (JsonNumber.int k).text = some (.number (.int k)) :=
  (reads_integer hfits).ofText? (Nat.zero_le _)

theorem reads_scalar {v : Json} (hscalar : v.nesting = 0) (h : v.NumbersReadBack) :
    Reads 0 v.compact.toList v.toNode := by
  cases v with
  | null => exact reads_null
  | bool b => exact reads_bool b
  | number n => exact reads_back h
  | string s => exact reads_string s
  | array items => cases hscalar
  | object members => cases hscalar

section

variable {write : Nat → Json → List Char}

mutual

/-- In any layout the text of a value is read as its tree. -/
theorem IsLayout.reads (h : IsLayout write) (depth : Nat) :
    (v : Json) → v.NumbersReadBack → Reads v.nesting (write depth v) v.toNode
  | .null, hback => by
    rw [h.scalar depth .null rfl]
    exact reads_scalar rfl hback
  | .bool b, hback => by
    rw [h.scalar depth (.bool b) rfl]
    exact reads_scalar rfl hback
  | .number n, hback => by
    rw [h.scalar depth (.number n) rfl]
    exact reads_scalar rfl hback
  | .string s, hback => by
    rw [h.scalar depth (.string s) rfl]
    exact reads_scalar rfl hback
  | .array items, hback => by
    obtain ⟨s, hs⟩ := h.array depth items
    rw [hs]
    exact .array s (h.readsItems (depth + 1) items hback)
  | .object members, hback => by
    obtain ⟨s, hs⟩ := h.object depth members
    rw [hs]
    exact .object s (h.readsMembers (depth + 1) members hback)

theorem IsLayout.readsItems (h : IsLayout write) (depth : Nat) :
    (items : List Json) → ItemsReadBack items →
      List.Forall₂ (Reads (itemsNesting items)) (items.map (write depth)) (itemsToNodes items)
  | [], _ => .nil
  | item :: rest, ⟨hitem, hrest⟩ => by
    refine .cons ((h.reads depth item hitem).mono (Nat.le_max_left _ _)) ?_
    exact (h.readsItems depth rest hrest).imp fun _ _ hread => hread.mono (Nat.le_max_right _ _)

theorem IsLayout.readsMembers (h : IsLayout write) (depth : Nat) :
    (members : List (String × Json)) → MembersReadBack members →
      Members (membersNesting members) (members.map fun m => (m.1, write depth m.2))
        (membersToNodes members)
  | [], _ => .nil
  | (_, value) :: rest, ⟨hvalue, hrest⟩ => by
    refine .cons ⟨rfl, (h.reads depth value hvalue).mono (Nat.le_max_left _ _)⟩ ?_
    exact (h.readsMembers depth rest hrest).imp fun _ _ hread =>
      ⟨hread.1, hread.2.mono (Nat.le_max_right _ _)⟩

end

end

theorem compact_isLayout : IsLayout fun _ v => v.compact.toList where
  scalar _ _ _ := rfl
  array _ items := by
    refine ⟨{}, ?_⟩
    simp [compact, compactItems_eq, Spacing.array, Spacing.row, String.toList_intercalate,
      Function.comp_def]
  object _ members := by
    refine ⟨{}, ?_⟩
    simp [compact, compactMembers_eq, Spacing.object, Spacing.member, Spacing.row,
      String.toList_intercalate, Function.comp_def]

/-- The start of a line, behind the end of another. -/
def margin (depth : Nat) : List Char := '\n' :: List.replicate (2 * depth) ' '

theorem margin_blank (depth : Nat) : Blank (margin depth) := by
  intro c hc
  rcases List.mem_cons.1 hc with rfl | hc
  · decide
  · rw [List.eq_of_mem_replicate hc]
    decide

/-- Entries on lines of their own have the margin of their depth before each of them. -/
theorem toList_bracketLines (opening closing : String) (depth : Nat) (entries : List String) :
    ∃ s : Spacing, s.colon = [' '] ∧ (bracketLines opening closing depth entries).toList =
      opening.toList ++ (s.opening ++ (s.row (entries.map String.toList) ++
        (s.closing ++ closing.toList))) := by
  cases entries with
  | nil => exact ⟨{ colon := [' '] }, rfl, by simp [bracketLines, Spacing.row]⟩
  | cons entry entries =>
    let s : Spacing :=
      { opening := margin (depth + 1)
        comma := margin (depth + 1)
        colon := [' ']
        closing := margin depth
        opening_blank := margin_blank _
        comma_blank := margin_blank _
        closing_blank := margin_blank _ }
    refine ⟨s, rfl, ?_⟩
    simp [bracketLines, Spacing.row, String.toList_intercalate, margin, s]

theorem indented_isLayout : IsLayout fun depth v => (v.indented depth).toList where
  scalar depth v hscalar := by
    cases v with
    | array items => cases hscalar
    | object members => cases hscalar
    | _ => rfl
  array depth items := by
    obtain ⟨s, -, hs⟩ := toList_bracketLines "[" "]" depth (indentedItems (depth + 1) items)
    refine ⟨s, hs.trans ?_⟩
    rw [indentedItems_eq]
    simp [Spacing.array, Function.comp_def]
  object depth members := by
    obtain ⟨s, hcolon, hs⟩ :=
      toList_bracketLines "\x7b" "\x7d" depth (indentedMembers (depth + 1) members)
    refine ⟨s, hs.trans ?_⟩
    rw [indentedMembers_eq]
    simp [Spacing.object, Spacing.member, hcolon, Function.comp_def]

end Json

end RecordGrammar
