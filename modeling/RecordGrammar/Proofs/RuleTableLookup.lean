import RecordGrammar.RuleTable

/-! # What the operations of a rule table do to its lookups -/

namespace RecordGrammar.RuleTable

/-- The index holds exactly the ids of the committed rules, each at its position, and no committed
id is reserved. -/
structure WellFormed (t : RuleTable) : Prop where
  index_iff (id : String) (i : Nat) : t.index[id]? = some i ↔ ∃ r, t.rules[i]? = some r ∧ r.id = id
  reserved_undefined (id : String) : t.reserved.contains id = true → t.defined id = false

theorem wellFormed_empty : WellFormed {} :=
  ⟨fun id i => by simp, fun id h => by simp at h⟩

theorem rule?_eq (t : RuleTable) (id : String) :
    t.rule? id = t.index[id]?.bind fun i => t.rules[i]? := by
  simp [rule?, Std.TreeMap.get?_eq_getElem?]

theorem defined_eq (t : RuleTable) (id : String) : t.defined id = t.index[id]?.isSome := by
  rw [defined, Std.TreeMap.contains_eq_isSome_getElem?]

theorem taken_eq_false_iff {t : RuleTable} {id : String} :
    t.taken id = false ↔ t.defined id = false ∧ t.reserved.contains id = false := by
  simp [taken]

theorem WellFormed.rule?_eq_some_iff {t : RuleTable} (h : t.WellFormed) {id : String} {r : Rule} :
    t.rule? id = some r ↔ r ∈ t.rules ∧ r.id = id := by
  rw [rule?_eq, Option.bind_eq_some_iff]
  constructor
  · rintro ⟨i, hi, hr⟩
    obtain ⟨r', hr', hid⟩ := (h.index_iff id i).1 hi
    obtain rfl : r' = r := Option.some.inj (hr'.symm.trans hr)
    exact ⟨Array.mem_of_getElem? hr, hid⟩
  · rintro ⟨hr, hid⟩
    obtain ⟨i, hi⟩ := Array.getElem?_of_mem hr
    exact ⟨i, (h.index_iff id i).2 ⟨r, hi, hid⟩, hi⟩

theorem WellFormed.rule?_id {t : RuleTable} (h : t.WellFormed) {id : String} {r : Rule}
    (hr : t.rule? id = some r) : r.id = id := (h.rule?_eq_some_iff.1 hr).2

theorem WellFormed.defined_eq_isSome {t : RuleTable} (h : t.WellFormed) (id : String) :
    t.defined id = (t.rule? id).isSome := by
  rw [defined_eq, rule?_eq]
  cases hi : t.index[id]? with
  | none => rfl
  | some i =>
    obtain ⟨r, hr, -⟩ := (h.index_iff id i).1 hi
    simp [hr]

theorem WellFormed.rule?_eq_none_iff {t : RuleTable} (h : t.WellFormed) {id : String} :
    t.rule? id = none ↔ t.defined id = false := by
  simp [h.defined_eq_isSome]

/-- A committed rule is found under its id. -/
theorem WellFormed.rule_eq_ok {t : RuleTable} (h : t.WellFormed) {id : String}
    (hid : t.defined id = true) : ∃ r, t.rule id = .ok r ∧ r.id = id := by
  rw [h.defined_eq_isSome, Option.isSome_iff_exists] at hid
  obtain ⟨r, hr⟩ := hid
  exact ⟨r, by simp [rule, hr], h.rule?_id hr⟩

section Push

variable {t : RuleTable} {id production : String}

theorem push_index (x : String) :
    (t.push id production).index[x]? = if x = id then some t.rules.size else t.index[x]? := by
  simp only [push, Std.TreeMap.getElem?_insert, Std.LawfulEqCmp.compare_eq_iff_eq, eq_comm (a := id)]

theorem defined_push (x : String) :
    (t.push id production).defined x = (decide (x = id) || t.defined x) := by
  rw [defined_eq, defined_eq, push_index]
  by_cases hx : x = id <;> simp [hx]

theorem reserved_push (x : String) :
    (t.push id production).reserved.contains x = t.reserved.contains x := rfl

theorem counters_push : (t.push id production).counters = t.counters := rfl

theorem toList_rules_push : (t.push id production).rules.toList = t.rules.toList ++ [⟨id, production⟩] := by
  simp [push]

theorem WellFormed.rule?_push (h : t.WellFormed) (x : String) :
    (t.push id production).rule? x = if x = id then some ⟨id, production⟩ else t.rule? x := by
  rw [rule?_eq, rule?_eq, push_index]
  by_cases hx : x = id
  · simp [hx, push]
  · simp only [hx, if_false]
    cases hi : t.index[x]? with
    | none => rfl
    | some i =>
      obtain ⟨r, hr, -⟩ := (h.index_iff x i).1 hi
      have hlt := (Array.getElem?_eq_some_iff.1 hr).1
      simp [push, Array.getElem?_push, hr, Nat.ne_of_lt hlt]

theorem WellFormed.push (h : t.WellFormed) (hid : t.defined id = false)
    (hreserved : t.reserved.contains id = false) : (t.push id production).WellFormed where
  index_iff x i := by
    rw [push_index]
    simp only [RuleTable.push, Array.getElem?_push]
    by_cases hx : x = id
    · subst hx
      simp only [if_true, Option.some.injEq]
      constructor
      · rintro rfl
        exact ⟨⟨x, production⟩, by simp, rfl⟩
      · rintro ⟨r, hr, hrid⟩
        by_cases hi : i = t.rules.size
        · exact hi.symm
        · rw [if_neg hi] at hr
          have hindex := (h.index_iff x i).2 ⟨r, hr, hrid⟩
          simp [defined_eq, hindex] at hid
    · rw [if_neg hx, h.index_iff]
      constructor
      · rintro ⟨r, hr, hrid⟩
        have hlt := (Array.getElem?_eq_some_iff.1 hr).1
        exact ⟨r, by rw [if_neg (Nat.ne_of_lt hlt), hr], hrid⟩
      · rintro ⟨r, hr, hrid⟩
        split at hr
        · obtain rfl := Option.some.inj hr
          exact absurd hrid.symm hx
        · exact ⟨r, hr, hrid⟩
  reserved_undefined x hx := by
    have hne : x ≠ id := by
      rintro rfl
      simp [RuleTable.push, hreserved] at hx
    simp only [defined_push, hne, decide_false, Bool.false_or]
    exact h.reserved_undefined x hx

end Push

theorem insert_eq_ok {t : RuleTable} {id production : String} (hid : t.taken id = false)
    (hp : production ≠ "") : t.insert id production = .ok (t.push id production) := by
  simp [insert, hid, hp]

theorem insert_eq_error {t : RuleTable} {id : String} (hid : t.taken id = false) :
    t.insert id "" = .error (.emptyProduction id) := by
  simp [insert, hid]

/-- The table with one more id claimed. -/
def claim (t : RuleTable) (id : String) : RuleTable := { t with reserved := t.reserved.insert id }

/-- The table with a claim given up. -/
def release (t : RuleTable) (id : String) : RuleTable := { t with reserved := t.reserved.erase id }

theorem reserved_claim (t : RuleTable) (id x : String) :
    (t.claim id).reserved.contains x = (decide (x = id) || t.reserved.contains x) := by
  rw [claim, Std.TreeSet.contains_insert]
  by_cases hx : x = id
  · simp [hx]
  · simp [hx, Ne.symm hx]

theorem reserved_release (t : RuleTable) (id x : String) :
    (t.release id).reserved.contains x = (decide (x ≠ id) && t.reserved.contains x) := by
  rw [release, Std.TreeSet.contains_erase]
  by_cases hx : x = id
  · simp [hx]
  · simp [hx, Ne.symm hx]

theorem WellFormed.claim {t : RuleTable} (h : t.WellFormed) {id : String}
    (hid : t.defined id = false) : (t.claim id).WellFormed where
  index_iff := h.index_iff
  reserved_undefined x hx := by
    rw [reserved_claim, Bool.or_eq_true] at hx
    rcases hx with hx | hx
    · obtain rfl : x = id := by simpa using hx
      exact hid
    · exact h.reserved_undefined x hx

theorem WellFormed.release {t : RuleTable} (h : t.WellFormed) (id : String) :
    (t.release id).WellFormed where
  index_iff := h.index_iff
  reserved_undefined x hx := by
    rw [reserved_release, Bool.and_eq_true] at hx
    exact h.reserved_undefined x hx.2

theorem reserve_eq_ok {t : RuleTable} {id : String} (hid : t.taken id = false) :
    t.reserve id = .ok (t.claim id) := by
  simp [reserve, hid, claim]

theorem reserve_eq_error {t : RuleTable} {id : String} (hid : t.taken id = true) :
    t.reserve id = .error (.redefined id) := by
  simp [reserve, hid]

theorem commit_eq_ok {t : RuleTable} {id production : String} (hid : t.reserved.contains id = true)
    (hp : production ≠ "") : t.commit id production = .ok ((t.release id).push id production) := by
  simp [commit, hid, hp, release]

/-- An automatic id whose number is free is handed out at the first look. -/
theorem freshId_of_free {t : RuleTable} {stem : String} {n : Nat}
    (hcount : t.counters.getD stem 0 = n) (hfree : t.taken (autoId stem n) = false) :
    t.freshId stem = (autoId stem n, { t with counters := t.counters.insert stem (n + 1) }) := by
  simp [freshId, hcount, firstFree, hfree]

theorem getD_counters_insert (t : RuleTable) (stem x : String) (n : Nat) :
    (t.counters.insert stem n).getD x 0 = if x = stem then n else t.counters.getD x 0 := by
  simp only [Std.TreeMap.getD_insert, Std.LawfulEqCmp.compare_eq_iff_eq, eq_comm (a := stem)]

end RecordGrammar.RuleTable
