import RecordGrammar.Proofs.ReadIntegers

/-! # Objects whose keys ascend

An object that is made of members keeps them in the order of their keys, each key once. So do all
objects of a payload that is read, and two such objects are the same if they hold the same under
each key. -/

namespace RecordGrammar

namespace Json

mutual

/-- The keys of each object ascend. -/
def KeysAscend : Json → Prop
  | .array items => ItemsAscend items
  | .object members => members.Pairwise (fun m m' => m.1 < m'.1) ∧ MembersAscend members
  | _ => True

def ItemsAscend : List Json → Prop
  | [] => True
  | item :: rest => item.KeysAscend ∧ ItemsAscend rest

def MembersAscend : List (String × Json) → Prop
  | [] => True
  | (_, value) :: rest => value.KeysAscend ∧ MembersAscend rest

end

theorem itemsAscend_iff {items : List Json} :
    ItemsAscend items ↔ ∀ item ∈ items, item.KeysAscend := by
  induction items with
  | nil => simp [ItemsAscend]
  | cons item rest ih => simp [ItemsAscend, ih]

theorem membersAscend_iff {members : List (String × Json)} :
    MembersAscend members ↔ ∀ m ∈ members, m.2.KeysAscend := by
  induction members with
  | nil => simp [MembersAscend]
  | cons m rest ih => simp [MembersAscend, ih]

end Json

theorem mem_of_lookup {α : Type} {members : List (String × α)} {key : String} {value : α}
    (h : members.lookup key = some value) : (key, value) ∈ members := by
  obtain ⟨before, after, rfl, -⟩ := List.lookup_eq_some_iff.1 h
  simp

/-- Ascending keys stay so when a member is put in its place. -/
theorem insertMember_ascends {α : Type} {members : List (String × α)}
    (h : members.Pairwise fun m m' => m.1 < m'.1) (key : String) (value : α) :
    (insertMember key value members).Pairwise fun m m' => m.1 < m'.1 := by
  induction members with
  | nil => exact List.pairwise_singleton _ _
  | cons m rest ih =>
    obtain ⟨k, first⟩ := m
    obtain ⟨hfirst, hrest⟩ := List.pairwise_cons.1 h
    rw [insertMember]
    split_ifs with hless heq
    · refine List.pairwise_cons.2 ⟨List.forall_mem_cons.2 ⟨hless, fun m hm => ?_⟩, h⟩
      exact String.lt_trans hless (hfirst m hm)
    · exact List.pairwise_cons.2 ⟨heq ▸ hfirst, hrest⟩
    · refine List.pairwise_cons.2 ⟨fun m hm => ?_, ih hrest⟩
      rcases mem_insertMember hm with rfl | hm
      · exact Std.lt_of_le_of_ne hless (Ne.symm heq)
      · exact hfirst m hm

theorem foldl_insertMember_ascends (entries : List (String × Json)) :
    (entries.foldl (fun sorted m => insertMember m.1 m.2 sorted) []).Pairwise
      fun m m' => m.1 < m'.1 := by
  suffices hsorted : ∀ sorted : List (String × Json), sorted.Pairwise (fun m m' => m.1 < m'.1) →
      (entries.foldl (fun sorted m => insertMember m.1 m.2 sorted) sorted).Pairwise
        fun m m' => m.1 < m'.1 from hsorted [] .nil
  induction entries with
  | nil => exact fun sorted h => h
  | cons m entries ih => exact fun sorted h => ih _ (insertMember_ascends h m.1 m.2)

theorem lookup_of_lt {α : Type} {members : List (String × α)} {key : String}
    (h : ∀ m ∈ members, key < m.1) : members.lookup key = none := by
  refine List.lookup_eq_none_iff.2 fun m hm => bne_iff_ne.2 fun he => ?_
  exact String.lt_irrefl key (he ▸ h m hm)

/-- Members whose keys ascend are told by what is found under each key. -/
theorem eq_of_lookup_eq {α : Type} {members members' : List (String × α)}
    (h : members.Pairwise fun m m' => m.1 < m'.1) (h' : members'.Pairwise fun m m' => m.1 < m'.1)
    (hlookup : ∀ key, members.lookup key = members'.lookup key) : members = members' := by
  induction members generalizing members' with
  | nil =>
    cases members' with
    | nil => rfl
    | cons m rest =>
      obtain ⟨k, value⟩ := m
      simpa using hlookup k
  | cons m rest ih =>
    obtain ⟨k, value⟩ := m
    obtain ⟨hfirst, hrest⟩ := List.pairwise_cons.1 h
    cases members' with
    | nil => simpa using hlookup k
    | cons m' rest' =>
      obtain ⟨k', value'⟩ := m'
      obtain ⟨hfirst', hrest'⟩ := List.pairwise_cons.1 h'
      -- The smaller of the two first keys would be missing in the other list.
      have hkey : k = k' := by
        by_contra hne
        by_cases hless : k < k'
        · have hnone : List.lookup k ((k', value') :: rest') = none :=
            lookup_of_lt (List.forall_mem_cons.2 ⟨hless, fun m hm =>
              String.lt_trans hless (hfirst' m hm)⟩)
          simpa [hnone] using hlookup k
        · have hgreater : k' < k := Std.lt_of_le_of_ne hless (Ne.symm hne)
          have hnone : List.lookup k' ((k, value) :: rest) = none :=
            lookup_of_lt (List.forall_mem_cons.2 ⟨hgreater, fun m hm =>
              String.lt_trans hgreater (hfirst m hm)⟩)
          simpa [hnone] using hlookup k'
      subst hkey
      have hvalue : value = value' := by simpa using hlookup k
      have htail : rest = rest' := by
        refine ih hrest hrest' fun key => ?_
        by_cases hk : key = k
        · rw [hk, lookup_of_lt hfirst, lookup_of_lt hfirst']
        · have hboth := hlookup key
          rwa [lookup_cons_ite, lookup_cons_ite, if_neg hk, if_neg hk] at hboth
      rw [hvalue, htail]

mutual

/-- The keys of a value ascend if it is made of a tree. -/
theorem Node.toJson?_ascends : (node : Node) → ∀ v, node.toJson? = some v → v.KeysAscend
  | .null, v, hv => by cases hv; trivial
  | .bool b, v, hv => by cases hv; trivial
  | .int n, v, hv => by cases hv; trivial
  | .float (.finite x), v, hv => by cases hv; trivial
  | .float (.infinite _), v, hv => by cases hv
  | .float .nan, v, hv => by cases hv
  | .string s, v, hv => by cases hv; trivial
  | .sequence items, v, hv => by
    obtain ⟨vs, hvs, rfl⟩ := Option.map_eq_some_iff.1 hv
    rw [Json.KeysAscend]
    exact Json.itemsAscend_iff.2 (Node.itemsToJson?_ascend items vs hvs)
  | .mapping entries, v, hv => by
    obtain ⟨members, hmembers, rfl⟩ := Option.map_eq_some_iff.1 hv
    rw [Json.ofMembers, Json.KeysAscend]
    refine ⟨foldl_insertMember_ascends members, Json.membersAscend_iff.2 fun m hm => ?_⟩
    exact Node.entriesToJson?_ascend entries members hmembers m (mem_of_mem_foldl hm)
  | .unreadable, v, hv => by cases hv

theorem Node.itemsToJson?_ascend : (items : List Node) → ∀ vs, Node.itemsToJson? items = some vs →
    ∀ v ∈ vs, v.KeysAscend
  | [], vs, hvs => by cases hvs; simp
  | item :: rest, vs, hvs => by
    obtain ⟨v, hv, hvs⟩ := Option.bind_eq_some_iff.1 hvs
    obtain ⟨others, hothers, hvs⟩ := Option.bind_eq_some_iff.1 hvs
    cases hvs
    exact List.forall_mem_cons.2
      ⟨Node.toJson?_ascends item v hv, Node.itemsToJson?_ascend rest others hothers⟩

theorem Node.entriesToJson?_ascend : (entries : List (String × Node)) → ∀ members,
    Node.entriesToJson? entries = some members → ∀ m ∈ members, m.2.KeysAscend
  | [], members, hmembers => by cases hmembers; simp
  | (key, node) :: rest, members, hmembers => by
    obtain ⟨v, hv, hmembers⟩ := Option.bind_eq_some_iff.1 hmembers
    obtain ⟨others, hothers, hmembers⟩ := Option.bind_eq_some_iff.1 hmembers
    cases hmembers
    exact List.forall_mem_cons.2
      ⟨Node.toJson?_ascends node v hv, Node.entriesToJson?_ascend rest others hothers⟩

end

/-- The keys of a payload that is read ascend. -/
theorem keysAscend_of_ofText? {text : String} {value : Json} (h : Json.ofText? text = some value) :
    value.KeysAscend := by
  obtain ⟨node, -, hvalue⟩ := Option.bind_eq_some_iff.1 h
  exact node.toJson?_ascends value hvalue

end RecordGrammar
