import RecordGrammar.Proofs.ConformingPayloads
import RecordGrammar.Proofs.TextLayouts

/-! # The two renderings of a decoded value

The canonical text of a decoded value is JSON, with its brackets, commas and keys written by hand.
Read back it is the JSON of the value, where the last of repeated fields is kept. -/

namespace RecordGrammar

namespace DecodedValue

mutual

/-- How many brackets of the canonical text are open at a time. -/
def nesting : DecodedValue → Nat
  | .list items => itemsNesting items + 1
  | .tuple items => itemsNesting items + 1
  | .record _ fields => fieldsNesting fields + 1
  | _ => 0

def itemsNesting : List DecodedValue → Nat
  | [] => 0
  | item :: rest => max item.nesting (itemsNesting rest)

def fieldsNesting : List (String × DecodedValue) → Nat
  | [] => 0
  | (_, value) :: rest => max value.nesting (fieldsNesting rest)

end

mutual

/-- The tree of the canonical text, in which a repeated field is repeated. -/
def toNode : DecodedValue → Node
  | .int n => .int n.toInt
  | .float (.finite x) => .float (.finite x)
  | .float _ => .null
  | .string s => .string s
  | .bool b => .bool b
  | .list items => .sequence (itemsToNodes items)
  | .tuple items => .sequence (itemsToNodes items)
  | .literal (.bool b) => .bool b
  | .literal (.int n) => .int n.toInt
  | .literal (.string s) => .string s
  | .record _ fields => .mapping (fieldsToNodes fields)

def itemsToNodes : List DecodedValue → List Node
  | [] => []
  | item :: rest => item.toNode :: itemsToNodes rest

def fieldsToNodes : List (String × DecodedValue) → List (String × Node)
  | [] => []
  | (name, value) :: rest => (name, value.toNode) :: fieldsToNodes rest

end

mutual

/-- The tree has the JSON of the value, where repeated fields are one. -/
theorem toJson?_toNode : (d : DecodedValue) → d.toNode.toJson? = some d.toJson
  | .int _ => rfl
  | .float (.finite _) => rfl
  | .float (.infinite _) => rfl
  | .float .nan => rfl
  | .string _ => rfl
  | .bool _ => rfl
  | .list items => by rw [toNode, Node.toJson?, itemsToJson?_itemsToNodes items]; rfl
  | .tuple items => by rw [toNode, Node.toJson?, itemsToJson?_itemsToNodes items]; rfl
  | .literal (.bool _) => rfl
  | .literal (.int _) => rfl
  | .literal (.string _) => rfl
  | .record _ fields => by rw [toNode, Node.toJson?, entriesToJson?_fieldsToNodes fields]; rfl

theorem itemsToJson?_itemsToNodes : (items : List DecodedValue) →
    Node.itemsToJson? (itemsToNodes items) = some (itemsToJson items)
  | [] => rfl
  | item :: rest => by
    rw [itemsToNodes, Node.itemsToJson?, toJson?_toNode item, itemsToJson?_itemsToNodes rest]
    rfl

theorem entriesToJson?_fieldsToNodes : (fields : List (String × DecodedValue)) →
    Node.entriesToJson? (fieldsToNodes fields) = some (fieldsToJson fields)
  | [] => rfl
  | (_, value) :: rest => by
    rw [fieldsToNodes, Node.entriesToJson?, toJson?_toNode value, entriesToJson?_fieldsToNodes rest]
    rfl

end

/-- The finite floats of a value are read back from their own texts. -/
def FloatsReadBack (d : DecodedValue) : Prop :=
  ∀ x, (DecodedValue.float (.finite x)).Inside d →
    Json.ofText? (Json.number (.float x)).compact = some (.number (.float x))

open JsonReader

/-- A canonical text has a space behind each comma and each colon. -/
def canonicalSpacing : Spacing where
  comma := [' ']
  colon := [' ']

mutual

/-- The canonical text of a value is read as its tree. -/
theorem reads_canonicalText : (d : DecodedValue) → d.FloatsReadBack →
    Reads d.nesting d.canonicalText.toList d.toNode
  | .int n, _ => reads_int n
  | .float (.finite x), h => reads_back (h x .self)
  | .float (.infinite _), _ => reads_null
  | .float .nan, _ => reads_null
  | .string s, _ => reads_string s
  | .bool b, _ => reads_bool b
  | .list items, h => by
    rw [toList_list]
    exact .array canonicalSpacing
      (reads_canonicalItems items fun item hitem x hx => h x (.listItem hitem hx))
  | .tuple items, h => by
    rw [toList_tuple]
    exact .array canonicalSpacing
      (reads_canonicalItems items fun item hitem x hx => h x (.tupleItem hitem hx))
  | .literal (.bool b), _ => reads_bool b
  | .literal (.int n), _ => reads_int n
  | .literal (.string s), _ => reads_string s
  | .record name fields, h => by
    have hobject := Reads.object canonicalSpacing
      (reads_canonicalFields fields fun f hf x hx => h x (.field hf hx))
    rw [Spacing.object, List.map_map] at hobject
    rw [toList_record]
    exact hobject

theorem reads_canonicalItems : (items : List DecodedValue) →
    (∀ item ∈ items, item.FloatsReadBack) → List.Forall₂ (Reads (itemsNesting items))
      (items.map fun d => d.canonicalText.toList) (itemsToNodes items)
  | [], _ => .nil
  | item :: rest, h => by
    obtain ⟨hitem, hrest⟩ := List.forall_mem_cons.1 h
    refine .cons ((reads_canonicalText item hitem).mono (Nat.le_max_left _ _)) ?_
    exact (reads_canonicalItems rest hrest).imp fun _ _ hread => hread.mono (Nat.le_max_right _ _)

theorem reads_canonicalFields : (fields : List (String × DecodedValue)) →
    (∀ f ∈ fields, f.2.FloatsReadBack) → Members (fieldsNesting fields)
      (fields.map fun f => (f.1, f.2.canonicalText.toList)) (fieldsToNodes fields)
  | [], _ => .nil
  | (name, value) :: rest, h => by
    obtain ⟨hvalue, hrest⟩ := List.forall_mem_cons.1 h
    refine .cons ⟨rfl, (reads_canonicalText value hvalue).mono (Nat.le_max_left _ _)⟩ ?_
    exact (reads_canonicalFields rest hrest).imp fun _ _ hread =>
      ⟨hread.1, hread.2.mono (Nat.le_max_right _ _)⟩

end

end DecodedValue

/-- The two renderings of a decoded value agree. Whatever its strings and the names of its fields
are, and however often a field is repeated, its canonical text is read as its JSON, as long as the
reader allows so many open brackets and reads the floats in it back from their texts. -/
theorem ofText?_canonicalText {d : DecodedValue} (hnesting : d.nesting < 128)
    (hfloats : d.FloatsReadBack) : Json.ofText? d.canonicalText = some d.toJson := by
  have hread := d.reads_canonicalText hfloats
  rw [hread.ofText? (Nat.le_of_lt_succ hnesting), d.toJson?_toNode]

/-- Of the two positions the second is kept, for which JSON has no number. -/
theorem repeated_position_read :
    let half : FiniteDouble := ⟨false, ⟨4602678819172646912, by decide⟩⟩
    let d : DecodedValue := .record "Mark" [("x", .float (.finite half)), ("x", .float .nan),
      ("tags\n", .tuple [.list [], .literal (.string "\"")])]
    d.canonicalText = "\x7b\"x\": 0.5, \"x\": null, \"tags\\n\": [[], \"\\\"\"]\x7d" ∧
      Json.ofText? d.canonicalText = some d.toJson ∧
      d.toJson.compact = "\x7b\"tags\\n\":[[],\"\\\"\"],\"x\":null\x7d" := by
  intro half d
  have hread : Numeral.read half.text.toList = some (⟨false, [0], [5], none⟩, []) := by
    decide +kernel
  have hvalue : Numeral.value ⟨false, [0], [5], none⟩ = some (.float half) := by decide +kernel
  have hfloats : d.FloatsReadBack := by
    intro x hx
    simp only [d] at hx
    cases hx with
    | field hf hx =>
      simp only [List.mem_cons, List.not_mem_nil, or_false] at hf
      rcases hf with rfl | rfl | rfl
      · cases hx
        exact (JsonReader.ofText?_number (number_of_double half) (double_no_plus half) hread).trans
          (by rw [hvalue]; rfl)
      · cases hx
      · cases hx with
        | tupleItem hitem hx =>
          simp only [List.mem_cons, List.not_mem_nil, or_false] at hitem
          rcases hitem with rfl | rfl
          · cases hx with
            | listItem hitem hx => cases hitem
          · cases hx
  exact ⟨by decide +kernel, ofText?_canonicalText (by decide) hfloats, by decide +kernel⟩

end RecordGrammar
