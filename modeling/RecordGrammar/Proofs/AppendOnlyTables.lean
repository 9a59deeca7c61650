import RecordGrammar.Proofs.RuleIds
import RecordGrammar.Proofs.RuleTableLookup
import Mathlib.Data.List.Nodup
import Mathlib.Data.List.Perm.Subperm

/-! # Tables to which rules are only ever appended -/

namespace RecordGrammar.RuleTable

/-- A table that may have come from another one: further rules, each with a production, stand behind
the rules of that one, and it is as well-formed. -/
structure Grows (t t' : RuleTable) : Prop where
  rules : ∃ new : List Rule, t'.rules.toList = t.rules.toList ++ new ∧ ∀ r ∈ new, r.production ≠ ""
  wellFormed : t.WellFormed → t'.WellFormed

theorem Grows.refl (t : RuleTable) : t.Grows t := ⟨⟨[], by simp⟩, id⟩

theorem Grows.trans {t t' t'' : RuleTable} (h : t.Grows t') (h' : t'.Grows t'') : t.Grows t'' := by
  obtain ⟨new, hnew, htexts⟩ := h.rules
  obtain ⟨new', hnew', htexts'⟩ := h'.rules
  refine ⟨⟨new ++ new', by rw [hnew', hnew, List.append_assoc], fun r hr => ?_⟩,
    fun hwf => h'.wellFormed (h.wellFormed hwf)⟩
  exact (List.mem_append.1 hr).elim (htexts r) (htexts' r)

theorem Grows.isPrefix {t t' : RuleTable} (h : t.Grows t') : t.rules.toList <+: t'.rules.toList := by
  obtain ⟨new, hnew, -⟩ := h.rules
  exact ⟨new, hnew.symm⟩

theorem WellFormed.defined_iff {t : RuleTable} (h : t.WellFormed) {id : String} :
    t.defined id = true ↔ ∃ r ∈ t.rules.toList, r.id = id := by
  rw [h.defined_eq_isSome, Option.isSome_iff_exists]
  simp only [h.rule?_eq_some_iff, Array.mem_toList_iff]

/-- What has been committed stays committed. -/
theorem Grows.defined {t t' : RuleTable} (h : t.Grows t') (hwf : t.WellFormed) {id : String}
    (hid : t.defined id = true) : t'.defined id = true := by
  obtain ⟨r, hr, hrid⟩ := hwf.defined_iff.1 hid
  exact (h.wellFormed hwf).defined_iff.2 ⟨r, h.isPrefix.subset hr, hrid⟩

/-- Counters have no part in being well-formed. -/
theorem WellFormed.of_counters {t : RuleTable} (h : t.WellFormed)
    (counters : Std.TreeMap String Nat) : WellFormed { t with counters } :=
  ⟨h.index_iff, h.reserved_undefined⟩

section FreshIds

theorem firstFree_free {t : RuleTable} {stem : String} {rounds n : Nat}
    (h : ∃ k < rounds, t.taken (autoId stem (n + k)) = false) :
    t.taken (autoId stem (t.firstFree stem rounds n)) = false := by
  induction rounds generalizing n with
  | zero =>
    obtain ⟨k, hk, -⟩ := h
    exact absurd hk (Nat.not_lt_zero k)
  | succ rounds ih =>
    rw [firstFree]
    by_cases hn : t.taken (autoId stem n) = true
    · rw [if_pos hn]
      obtain ⟨k, hk, hfree⟩ := h
      cases k with
      | zero =>
        rw [Nat.add_zero] at hfree
        rw [hfree] at hn
        cases hn
      | succ k =>
        refine ih ⟨k, Nat.lt_of_succ_lt_succ hk, ?_⟩
        rwa [Nat.add_right_comm]
    · rw [if_neg hn]
      exact Bool.eq_false_iff.2 hn

theorem autoId_inj {stem : String} {m n : Nat} (h : autoId stem m = autoId stem n) : m = n :=
  toString_nat_inj (Scope.idOf_inj (underscore_not_mem_toString m) (underscore_not_mem_toString n) h).2

/-- There are fewer taken ids than candidates. -/
theorem WellFormed.exists_free {t : RuleTable} (h : t.WellFormed) (stem : String) (n : Nat) :
    ∃ k < t.size + t.reserved.size + 1, t.taken (autoId stem (n + k)) = false := by
  by_contra hnone
  push Not at hnone
  let candidates := (List.range (t.size + t.reserved.size + 1)).map fun k => autoId stem (n + k)
  let ids := t.rules.toList.map Rule.id ++ t.reserved.toList
  have hnodup : candidates.Nodup := by
    refine List.Nodup.map (fun k k' he => ?_) List.nodup_range
    exact Nat.add_left_cancel (autoId_inj he)
  have hsub : candidates ⊆ ids := by
    intro id hid
    obtain ⟨k, hk, rfl⟩ := List.mem_map.1 hid
    have htaken := hnone k (List.mem_range.1 hk)
    rw [ne_eq, Bool.not_eq_false, taken, Bool.or_eq_true] at htaken
    rcases htaken with hdefined | hreserved
    · obtain ⟨r, hr, hrid⟩ := h.defined_iff.1 hdefined
      exact List.mem_append_left _ (List.mem_map.2 ⟨r, hr, hrid⟩)
    · exact List.mem_append_right _
        (Std.TreeSet.mem_toList.2 (Std.TreeSet.mem_iff_contains.2 hreserved))
  have hlength := (hnodup.subperm hsub).length_le
  simp only [candidates, ids, List.length_map, List.length_range, List.length_append,
    Array.length_toList, Std.TreeSet.length_toList, size] at hlength
  omega

theorem WellFormed.freshId_free {t : RuleTable} (h : t.WellFormed) (stem : String) :
    t.taken (t.freshId stem).1 = false :=
  firstFree_free (h.exists_free stem _)

end FreshIds

section Operations

variable {t t' : RuleTable} {id production : String}

theorem Grows.of_rules (hrules : t'.rules = t.rules) (hwf : t.WellFormed → t'.WellFormed) :
    t.Grows t' := ⟨⟨[], by simp [hrules]⟩, hwf⟩

theorem Grows.push (h : t.Grows t') (hp : production ≠ "")
    (hfree : t.WellFormed → t'.defined id = false ∧ t'.reserved.contains id = false) :
    t.Grows (t'.push id production) := by
  obtain ⟨new, hnew, htexts⟩ := h.rules
  refine ⟨⟨new ++ [⟨id, production⟩], by rw [toList_rules_push, hnew, List.append_assoc],
    fun r hr => ?_⟩, fun hwf => (h.wellFormed hwf).push (hfree hwf).1 (hfree hwf).2⟩
  rcases List.mem_append.1 hr with hr | hr
  · exact htexts r hr
  · rw [List.mem_singleton.1 hr]
    exact hp

theorem eq_of_insert (h : t.insert id production = .ok t') :
    t.taken id = false ∧ production ≠ "" ∧ t' = t.push id production := by
  unfold insert at h
  split at h
  · cases h
  · rename_i htaken
    split at h
    · cases h
    · exact ⟨Bool.eq_false_iff.2 htaken, ‹_›, (Except.ok.inj h).symm⟩

theorem eq_of_reserve (h : t.reserve id = .ok t') : t.taken id = false ∧ t' = t.claim id := by
  unfold reserve at h
  split at h
  · cases h
  · exact ⟨Bool.eq_false_iff.2 ‹_›, (Except.ok.inj h).symm⟩

theorem eq_of_commit (h : t.commit id production = .ok t') :
    t.reserved.contains id = true ∧ production ≠ "" ∧ t' = (t.release id).push id production := by
  unfold commit at h
  split at h
  · cases h
  · rename_i hreserved
    split at h
    · cases h
    · exact ⟨by simpa using hreserved, ‹_›, (Except.ok.inj h).symm⟩

theorem insert_grows (h : t.insert id production = .ok t') : t.Grows t' := by
  obtain ⟨hfree, hp, rfl⟩ := eq_of_insert h
  exact (Grows.refl t).push hp fun _ => taken_eq_false_iff.1 hfree

theorem reserve_grows (h : t.reserve id = .ok t') : t.Grows t' := by
  obtain ⟨hfree, rfl⟩ := eq_of_reserve h
  exact .of_rules rfl fun hwf => hwf.claim (taken_eq_false_iff.1 hfree).1

theorem commit_grows (h : t.commit id production = .ok t') : t.Grows t' := by
  obtain ⟨hreserved, hp, rfl⟩ := eq_of_commit h
  have hrelease : t.Grows (t.release id) := .of_rules rfl fun hwf => hwf.release id
  exact hrelease.push hp fun hwf => ⟨hwf.reserved_undefined id hreserved, by simp [reserved_release]⟩

theorem freshId_grows (t : RuleTable) (stem : String) : t.Grows (t.freshId stem).2 :=
  .of_rules rfl fun hwf => hwf.of_counters _

/-- Claiming the next automatic id needs no look at the table, as that id is free. -/
theorem claim_freshId_grows (t : RuleTable) (stem : String) :
    t.Grows ((t.freshId stem).2.claim (t.freshId stem).1) :=
  .of_rules rfl fun hwf =>
    (hwf.of_counters _).claim (taken_eq_false_iff.1 (hwf.freshId_free stem)).1

end Operations

/-- Everything the operations rely on: no id is committed twice, the index leads to each committed
rule and to nothing else, no committed id is reserved, and no production is empty. -/
structure Consistent (t : RuleTable) : Prop where
  ids_nodup : (t.rules.toList.map Rule.id).Nodup
  index_iff (id : String) (i : Nat) : t.index[id]? = some i ↔ ∃ r, t.rules[i]? = some r ∧ r.id = id
  not_reserved (r : Rule) : r ∈ t.rules → t.reserved.contains r.id = false
  production_ne_empty (r : Rule) : r ∈ t.rules → r.production ≠ ""

theorem WellFormed.ids_nodup {t : RuleTable} (h : t.WellFormed) :
    (t.rules.toList.map Rule.id).Nodup := by
  rw [List.nodup_iff_getElem?_ne_getElem?]
  intro i j hij hj he
  simp only [List.getElem?_map, Array.getElem?_toList] at he
  rw [List.length_map, Array.length_toList] at hj
  rw [Array.getElem?_eq_getElem hj, Array.getElem?_eq_getElem (Nat.lt_trans hij hj)] at he
  have hindex {k : Nat} (hk : k < t.rules.size) : t.index[(t.rules[k]).id]? = some k :=
    (h.index_iff _ k).2 ⟨_, Array.getElem?_eq_getElem hk, rfl⟩
  have hids : (t.rules[i]).id = (t.rules[j]).id := Option.some.inj he
  have hi := hindex (Nat.lt_trans hij hj)
  rw [hids, hindex hj] at hi
  exact Nat.ne_of_gt hij (Option.some.inj hi)

/-- A table that has grown from the empty one is consistent. -/
theorem Grows.consistent {t : RuleTable} (h : Grows {} t) : t.Consistent := by
  have hwf := h.wellFormed wellFormed_empty
  obtain ⟨new, hnew, htexts⟩ := h.rules
  refine ⟨hwf.ids_nodup, hwf.index_iff, fun r hr => ?_, fun r hr => ?_⟩
  · have hdefined := hwf.defined_iff.2 ⟨r, Array.mem_toList_iff.2 hr, rfl⟩
    rw [← Bool.not_eq_true]
    intro hreserved
    rw [hwf.reserved_undefined _ hreserved] at hdefined
    cases hdefined
  · have hmem := Array.mem_toList_iff.2 hr
    rw [hnew] at hmem
    exact htexts r (by simpa using hmem)

end RecordGrammar.RuleTable
