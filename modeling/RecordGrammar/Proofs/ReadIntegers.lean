import RecordGrammar.Proofs.DecodedTexts
import RecordGrammar.Proofs.JsonReading

/-! # The integers of a payload that is read

The reader takes for an integer only what fits 64 bits, with a sign or without; any longer number
becomes a float. -/

namespace RecordGrammar

mutual

/-- Every integer of a tree fits 64 bits, with a sign or without. -/
def Node.IntegersFit : Node → Prop
  | .int n => n.natAbs < 2 ^ 64
  | .sequence items => Node.ItemsFit items
  | .mapping entries => Node.EntriesFit entries
  | _ => True

def Node.ItemsFit : List Node → Prop
  | [] => True
  | item :: rest => item.IntegersFit ∧ Node.ItemsFit rest

def Node.EntriesFit : List (String × Node) → Prop
  | [] => True
  | (_, value) :: rest => value.IntegersFit ∧ Node.EntriesFit rest

end

theorem Json.membersFit_iff {members : List (String × Json)} :
    MembersFit members ↔ ∀ m ∈ members, m.2.IntegersFit := by
  induction members with
  | nil => simp [MembersFit]
  | cons m rest ih => simp [MembersFit, ih]

theorem mem_insertMember {α : Type} {key : String} {value : α} {members : List (String × α)}
    {m : String × α} (h : m ∈ insertMember key value members) :
    m = (key, value) ∨ m ∈ members := by
  induction members with
  | nil => simpa [insertMember] using h
  | cons first rest ih =>
    obtain ⟨k, v⟩ := first
    rw [insertMember] at h
    split_ifs at h
    · simpa using h
    · rcases List.mem_cons.1 h with hm | hm
      · exact .inl hm
      · exact .inr (List.mem_cons_of_mem _ hm)
    · rcases List.mem_cons.1 h with hm | hm
      · exact .inr (List.mem_cons.2 (.inl hm))
      · exact (ih hm).imp_right (List.mem_cons_of_mem _)

/-- The members of an object are among those that it was made of. -/
theorem mem_of_mem_foldl {entries : List (String × Json)} {m : String × Json}
    (h : m ∈ entries.foldl (fun sorted m => insertMember m.1 m.2 sorted) []) : m ∈ entries := by
  suffices hsorted : ∀ sorted : List (String × Json),
      m ∈ entries.foldl (fun sorted m => insertMember m.1 m.2 sorted) sorted →
        m ∈ sorted ∨ m ∈ entries from (hsorted [] h).resolve_left (by simp)
  clear h
  induction entries with
  | nil => exact fun sorted h => .inl h
  | cons first entries ih =>
    intro sorted h
    rcases ih _ h with h | h
    · rcases mem_insertMember h with rfl | h
      · exact .inr List.mem_cons_self
      · exact .inl h
    · exact .inr (List.mem_cons_of_mem _ h)

theorem Json.ofMembers_fit {entries : List (String × Json)} (h : MembersFit entries) :
    (ofMembers entries).IntegersFit := by
  rw [ofMembers, IntegersFit]
  exact membersFit_iff.2 fun m hm => membersFit_iff.1 h m (mem_of_mem_foldl hm)

namespace Node

theorem itemsFit_iff {items : List Node} : ItemsFit items ↔ ∀ item ∈ items, item.IntegersFit := by
  induction items with
  | nil => simp [ItemsFit]
  | cons item rest ih => simp [ItemsFit, ih]

mutual

/-- The integers of a value are those of the tree it is made of. -/
theorem toJson?_fit : (node : Node) → node.IntegersFit → ∀ v, node.toJson? = some v →
    v.IntegersFit
  | .null, _, v, hv => by cases hv; trivial
  | .bool b, _, v, hv => by cases hv; trivial
  | .int n, h, v, hv => by cases hv; simpa [Json.IntegersFit, IntegersFit] using h
  | .float (.finite x), _, v, hv => by cases hv; trivial
  | .float (.infinite _), _, v, hv => by cases hv
  | .float .nan, _, v, hv => by cases hv
  | .string s, _, v, hv => by cases hv; trivial
  | .sequence items, h, v, hv => by
    obtain ⟨vs, hvs, rfl⟩ := Option.map_eq_some_iff.1 hv
    rw [Json.IntegersFit]
    exact itemsToJson?_fit items (by simpa [IntegersFit] using h) vs hvs
  | .mapping entries, h, v, hv => by
    obtain ⟨members, hmembers, rfl⟩ := Option.map_eq_some_iff.1 hv
    exact Json.ofMembers_fit
      (entriesToJson?_fit entries (by simpa [IntegersFit] using h) members hmembers)
  | .unreadable, _, v, hv => by cases hv

theorem itemsToJson?_fit : (items : List Node) → ItemsFit items → ∀ vs,
    itemsToJson? items = some vs → Json.ItemsFit vs
  | [], _, vs, hvs => by cases hvs; trivial
  | item :: rest, h, vs, hvs => by
    obtain ⟨v, hv, hvs⟩ := Option.bind_eq_some_iff.1 hvs
    obtain ⟨others, hothers, hvs⟩ := Option.bind_eq_some_iff.1 hvs
    cases hvs
    exact ⟨toJson?_fit item h.1 v hv, itemsToJson?_fit rest h.2 others hothers⟩

theorem entriesToJson?_fit : (entries : List (String × Node)) → EntriesFit entries → ∀ members,
    entriesToJson? entries = some members → Json.MembersFit members
  | [], _, members, hmembers => by cases hmembers; trivial
  | (key, node) :: rest, h, members, hmembers => by
    obtain ⟨v, hv, hmembers⟩ := Option.bind_eq_some_iff.1 hmembers
    obtain ⟨others, hothers, hmembers⟩ := Option.bind_eq_some_iff.1 hmembers
    cases hmembers
    exact ⟨toJson?_fit node h.1 v hv, entriesToJson?_fit rest h.2 others hothers⟩

end

end Node

theorem Numeral.gather_lt {digits : List Nat} {start : Nat} (h : start < UInt64.size) :
    (gather start digits).1 < UInt64.size := by
  induction digits generalizing start with
  | nil => exact h
  | cons d rest ih =>
    rw [gather]
    split_ifs with hnext
    · exact ih hnext
    · exact h

theorem Numeral.value_fit {n : Numeral} {number : JsonNumber} (h : n.value = some number) :
    (Node.ofNumber number).IntegersFit := by
  cases number with
  | float x => trivial
  | int k =>
    have hlt : (gather 0 n.whole).1 < 2 ^ 64 := gather_lt (by decide)
    have hfloat (negative : Bool) (rank : Nat) : Numeral.float negative rank ≠ some (.int k) := by
      simp [Numeral.float]
    rw [Node.ofNumber, Node.IntegersFit]
    rcases hgather : gather 0 n.whole with ⟨whole, dropped⟩
    rw [value, hgather] at h
    rw [hgather] at hlt
    dsimp only at h hlt
    split_ifs at h
    · cases h
      simpa using hlt
    · cases h
      simpa using hlt
    · exact absurd h (hfloat _ _)
    · obtain ⟨rank, -, h⟩ := Option.bind_eq_some_iff.1 h
      exact absurd h (hfloat _ _)

namespace JsonReader

/-- Members whose values fit make a mapping that does. -/
theorem mappingOf_fit {members : List (Option String × Node)} (h : ∀ m ∈ members, m.2.IntegersFit) :
    (mappingOf members).IntegersFit := by
  unfold mappingOf
  cases hentries : members.mapM fun m => m.1.map (·, m.2) with
  | none => trivial
  | some entries =>
    dsimp only
    rw [Node.IntegersFit]
    induction members generalizing entries with
    | nil =>
      cases hentries
      trivial
    | cons m members ih =>
      obtain ⟨hm, hmembers⟩ := List.forall_mem_cons.1 h
      rw [List.mapM_cons] at hentries
      obtain ⟨entry, hentry, hentries⟩ := Option.bind_eq_some_iff.1 hentries
      obtain ⟨rest, hrest, hentries⟩ := Option.bind_eq_some_iff.1 hentries
      cases hentries
      obtain ⟨key, -, rfl⟩ := Option.map_eq_some_iff.1 hentry
      exact ⟨hm, ih hmembers rest hrest⟩

/-- The integers of what is read as a value fit. -/
def ValuesFit (fuel : Nat) : Prop :=
  ∀ levels text node after, readValue fuel levels text = some (node, after) → node.IntegersFit

def ItemsFit (fuel : Nat) : Prop :=
  ∀ levels text items after, readItems fuel levels text = some (items, after) →
    ∀ item ∈ items, item.IntegersFit

def MembersFit (fuel : Nat) : Prop :=
  ∀ levels text members after, readMembers fuel levels text = some (members, after) →
    ∀ m ∈ members, m.2.IntegersFit

variable {fuel : Nat}

private theorem array_fit (hitems : ItemsFit fuel) {levels : Nat} {rest after : List Char}
    {node : Node} (h : readValue (fuel + 1) levels ('[' :: rest) = some (node, after)) :
    node.IntegersFit := by
  rw [readValue] at h
  split at h
  · cases h
    split_ifs <;> trivial
  · obtain ⟨⟨items, behind⟩, hread, h⟩ := Option.bind_eq_some_iff.1 h
    cases h
    split_ifs
    · trivial
    · rw [Node.IntegersFit]
      exact Node.itemsFit_iff.2 (hitems _ _ _ _ hread)

private theorem object_fit (hmembers : MembersFit fuel) {levels : Nat} {rest after : List Char}
    {node : Node} (h : readValue (fuel + 1) levels ('\x7b' :: rest) = some (node, after)) :
    node.IntegersFit := by
  rw [readValue] at h
  split at h
  · cases h
    split_ifs <;> trivial
  · obtain ⟨⟨members, behind⟩, hread, h⟩ := Option.bind_eq_some_iff.1 h
    cases h
    split_ifs
    · trivial
    · exact mappingOf_fit (hmembers _ _ _ _ hread)

theorem readValue_fit (hitems : ItemsFit fuel) (hmembers : MembersFit fuel) :
    ValuesFit (fuel + 1) := by
  intro levels text node after h
  have h' := h
  unfold readValue at h
  split at h
  · cases h
  · cases h
    trivial
  · cases h
    trivial
  · cases h
    trivial
  · obtain ⟨⟨units, behind⟩, -, h⟩ := Option.bind_eq_some_iff.1 h
    cases h
    cases stringOf units <;> trivial
  · exact array_fit hitems h'
  · exact object_fit hmembers h'
  · obtain ⟨⟨numeral, behind⟩, -, h⟩ := Option.bind_eq_some_iff.1 h
    cases h
    cases hnumber : numeral.value with
    | none => trivial
    | some number => exact Numeral.value_fit hnumber

theorem readItems_fit (hvalues : ValuesFit fuel) (hitems : ItemsFit fuel) :
    ItemsFit (fuel + 1) := by
  intro levels text items after h
  rw [readItems] at h
  obtain ⟨⟨item, behind⟩, hitem, h⟩ := Option.bind_eq_some_iff.1 h
  have hfirst := hvalues _ _ _ _ hitem
  dsimp only at h
  split at h
  · obtain ⟨⟨more, last⟩, hmore, h⟩ := Option.bind_eq_some_iff.1 h
    cases h
    exact List.forall_mem_cons.2 ⟨hfirst, hitems _ _ _ _ hmore⟩
  · cases h
    simpa using hfirst
  · cases h

theorem readMembers_fit (hvalues : ValuesFit fuel) (hmembers : MembersFit fuel) :
    MembersFit (fuel + 1) := by
  intro levels text members after h
  rw [readMembers] at h
  split at h
  · obtain ⟨⟨units, behind⟩, -, h⟩ := Option.bind_eq_some_iff.1 h
    dsimp only at h
    split at h
    · obtain ⟨⟨value, last⟩, hvalue, h⟩ := Option.bind_eq_some_iff.1 h
      have hfirst := hvalues _ _ _ _ hvalue
      dsimp only at h
      split at h
      · obtain ⟨⟨others, final⟩, hothers, h⟩ := Option.bind_eq_some_iff.1 h
        cases h
        exact List.forall_mem_cons.2 ⟨hfirst, hmembers _ _ _ _ hothers⟩
      · cases h
        simpa using hfirst
      · cases h
    · cases h
  · cases h

/-- Each of the three readers takes integers that fit only. -/
theorem readers_fit (fuel : Nat) : ValuesFit fuel ∧ ItemsFit fuel ∧ MembersFit fuel := by
  induction fuel with
  | zero =>
    refine ⟨fun levels text node after h => ?_, fun levels text items after h => ?_,
      fun levels text members after h => ?_⟩ <;> cases h
  | succ fuel ih =>
    obtain ⟨hvalues, hitems, hmembers⟩ := ih
    exact ⟨readValue_fit hitems hmembers, readItems_fit hvalues hitems,
      readMembers_fit hvalues hmembers⟩

end JsonReader

/-- The integers of a payload that is read fit 64 bits. -/
theorem integersFit_of_ofText? {text : String} {value : Json} (h : Json.ofText? text = some value) :
    value.IntegersFit := by
  obtain ⟨node, hnode, hvalue⟩ := Option.bind_eq_some_iff.1 h
  obtain ⟨⟨node', after⟩, hread, hnode⟩ := Option.bind_eq_some_iff.1 hnode
  dsimp only at hnode
  split_ifs at hnode
  cases hnode
  exact Node.toJson?_fit node ((JsonReader.readers_fit _).1 _ _ _ _ hread) value hvalue

end RecordGrammar
