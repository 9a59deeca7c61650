import RecordGrammar.Scope
import RecordGrammar.Proofs.FragmentRules
import RecordGrammar.Proofs.RuleTableLookup

/-! # Building steps that add rules to a table

A fragment draws the automatic ids of its own stem one after the other. What such a build adds to a
table is the list of its rules, and what it hands out is known beforehand. -/

namespace RecordGrammar

namespace RuleTable

/-- The table with new rules behind its own, whose automatic ids are drawn from one stem. -/
structure Adds (t : RuleTable) (stem : String) (new : List Rule) (t' : RuleTable) : Prop where
  wellFormed : t'.WellFormed
  rules : t'.rules.toList = t.rules.toList ++ new
  reserved (id : String) : t'.reserved.contains id = t.reserved.contains id
  counters (x : String) : x ≠ stem → t'.counters.getD x 0 = t.counters.getD x 0

theorem Adds.refl {t : RuleTable} (h : t.WellFormed) (stem : String) : t.Adds stem [] t :=
  ⟨h, by simp, fun _ => rfl, fun _ _ => rfl⟩

theorem Adds.trans {t t' t'' : RuleTable} {stem : String} {new new' : List Rule}
    (h : t.Adds stem new t') (h' : t'.Adds stem new' t'') : t.Adds stem (new ++ new') t'' where
  wellFormed := h'.wellFormed
  rules := by rw [h'.rules, h.rules, List.append_assoc]
  reserved id := (h'.reserved id).trans (h.reserved id)
  counters x hx := (h'.counters x hx).trans (h.counters x hx)

theorem Adds.rule?_eq {t t' : RuleTable} {stem : String} {new : List Rule} (hwf : t.WellFormed)
    (h : t.Adds stem new t') (id : String) :
    t'.rule? id = (t.rule? id).or (new.find? (·.id = id)) := by
  have hmem (r : Rule) : r ∈ t'.rules ↔ r ∈ t.rules ∨ r ∈ new := by
    rw [← Array.mem_toList_iff, h.rules, List.mem_append, Array.mem_toList_iff]
  cases hr : t.rule? id with
  | some r =>
    obtain ⟨hr, hid⟩ := hwf.rule?_eq_some_iff.1 hr
    exact h.wellFormed.rule?_eq_some_iff.2 ⟨(hmem r).2 (.inl hr), hid⟩
  | none =>
    cases hf : new.find? (·.id = id) with
    | some r =>
      have hid : r.id = id := by simpa using List.find?_some hf
      exact h.wellFormed.rule?_eq_some_iff.2 ⟨(hmem r).2 (.inr (List.mem_of_find?_eq_some hf)), hid⟩
    | none =>
      rw [Option.or_none, Option.eq_none_iff_forall_ne_some]
      intro r hr'
      obtain ⟨hmem', hid⟩ := h.wellFormed.rule?_eq_some_iff.1 hr'
      rcases (hmem r).1 hmem' with hold | hnew
      · rw [hwf.rule?_eq_some_iff.2 ⟨hold, hid⟩] at hr
        cases hr
      · simpa [hid] using List.find?_eq_none.1 hf r hnew

theorem Adds.defined_eq {t t' : RuleTable} {stem : String} {new : List Rule} (hwf : t.WellFormed)
    (h : t.Adds stem new t') (id : String) :
    t'.defined id = (t.defined id || new.any (·.id = id)) := by
  rw [h.wellFormed.defined_eq_isSome, hwf.defined_eq_isSome, h.rule?_eq hwf, Option.isSome_or]
  congr 1
  rw [Bool.eq_iff_iff, List.find?_isSome, List.any_eq_true]

theorem Adds.taken_eq {t t' : RuleTable} {stem : String} {new : List Rule} (hwf : t.WellFormed)
    (h : t.Adds stem new t') (id : String) : t'.taken id = (t.taken id || new.any (·.id = id)) := by
  simp only [taken, h.defined_eq hwf, h.reserved, Bool.or_right_comm]

/-- The first `n` automatic ids of a stem are drawn, and no other id of the stem is taken. -/
structure UsedUpTo (t : RuleTable) (stem : String) (n : Nat) : Prop where
  counter : t.counters.getD stem 0 = n
  free (x : String) : '_' ∉ x.toList → (∀ k < n, x ≠ toString k) →
    t.taken (Scope.idOf ⟨stem⟩ x) = false

/-- No id of a stem is taken, and no automatic one has been drawn. -/
abbrev Untouched (t : RuleTable) (stem : String) : Prop := t.UsedUpTo stem 0

theorem UsedUpTo.next_free {t : RuleTable} {stem : String} {n : Nat} (h : t.UsedUpTo stem n) :
    t.taken (autoId stem n) = false := by
  refine h.free (toString n) (underscore_not_mem_toString n) fun k hk he => ?_
  exact Nat.ne_of_gt hk (toString_nat_inj he)

theorem UsedUpTo.decl_free {t : RuleTable} {stem : String} {n : Nat} (h : t.UsedUpTo stem n) :
    t.taken (Scope.idOf ⟨stem⟩ "decl") = false :=
  h.free "decl" underscore_not_mem_decl fun k _ he => toString_nat_ne_decl k he.symm

/-- The table after a rule has been committed under the next automatic id, however it came by
it. -/
theorem UsedUpTo.push {t : RuleTable} {stem : String} {n : Nat} (t' : RuleTable)
    (production : String) (hwf : t.WellFormed) (h : t.UsedUpTo stem n) (hindex : t'.index = t.index)
    (hrules : t'.rules = t.rules)
    (hreserved : ∀ x, t'.reserved.contains x = t.reserved.contains x)
    (hcounters : ∀ x, t'.counters.getD x 0 = if x = stem then n + 1 else t.counters.getD x 0) :
    t.Adds stem [⟨autoId stem n, production⟩] (t'.push (autoId stem n) production) ∧
      (t'.push (autoId stem n) production).UsedUpTo stem (n + 1) := by
  have hdefined (x : String) : t'.defined x = t.defined x := by simp [defined, hindex]
  have hwf' : t'.WellFormed := by
    refine ⟨fun id i => ?_, fun id hid => ?_⟩
    · rw [hindex, hrules]
      exact hwf.index_iff id i
    · rw [hdefined]
      exact hwf.reserved_undefined id (by rwa [← hreserved])
  obtain ⟨hd, hr⟩ := taken_eq_false_iff.1 h.next_free
  have hadds : t.Adds stem [⟨autoId stem n, production⟩] (t'.push (autoId stem n) production) :=
    { wellFormed := hwf'.push (by rwa [hdefined]) (by rwa [hreserved])
      rules := by rw [toList_rules_push, hrules]
      reserved := fun x => by rw [reserved_push, hreserved]
      counters := fun x hx => by rw [counters_push, hcounters, if_neg hx] }
  refine ⟨hadds, ⟨by rw [counters_push, hcounters, if_pos rfl], fun x hx hn => ?_⟩⟩
  rw [hadds.taken_eq hwf, h.free x hx fun k hk => hn k (Nat.lt_succ_of_lt hk)]
  simp only [List.any_cons, List.any_nil, Bool.or_false, Bool.false_or, decide_eq_false_iff_not]
  intro he
  obtain ⟨-, he⟩ := Scope.idOf_inj (underscore_not_mem_toString n) hx he
  exact hn n (Nat.lt_succ_self n) he.symm

end RuleTable

section Steps

theorem bind_of_ok {ε σ α β : Type} {m : EStateM ε σ α} {f : α → EStateM ε σ β} {s s' : σ} {a : α}
    (h : m s = .ok a s') : (m >>= f) s = f a s' := by
  simp [bind, EStateM.bind, h]

theorem bind_of_error {ε σ α β : Type} {m : EStateM ε σ α} {f : α → EStateM ε σ β} {s s' : σ}
    {e : ε} (h : m s = .error e s') : (m >>= f) s = .error e s' := by
  simp [bind, EStateM.bind, h]

theorem get_bind {ε σ α : Type} (f : σ → EStateM ε σ α) (s : σ) : (get >>= f) s = f s s := rfl

theorem edit_ok {change : RuleTable → Except RuleError RuleTable} {s : Session} {t : RuleTable}
    (h : change s.table = .ok t) : edit change s = .ok () { s with table := t } := by
  rw [edit, get_bind, h]
  rfl

theorem edit_error {change : RuleTable → Except RuleError RuleTable} {s : Session} {e : RuleError}
    (h : change s.table = .error e) : edit change s = .error e s := by
  rw [edit, get_bind, h]
  rfl

theorem freshId_ok {stem id : String} {s : Session} {t : RuleTable}
    (h : s.table.freshId stem = (id, t)) :
    Scope.freshId ⟨stem⟩ s = .ok id { s with table := t } := by
  have hrun : Scope.freshId ⟨stem⟩ s =
    .ok (s.table.freshId stem).1 { s with table := (s.table.freshId stem).2 } := rfl
  rw [hrun, h]

theorem commit_ok {r : Reservation} {production : String} {s : Session} {t : RuleTable}
    (h : s.table.commit r.id production = .ok t) :
    commit r production s = .ok r.handle { s with table := t } := by
  rw [commit, bind_of_ok (edit_ok h)]
  rfl

theorem Scope.defineNamed_ok {scope : Scope} {name production : String} {s : Session}
    (hfree : s.table.taken (scope.idOf name) = false) (hp : production ≠ "") :
    scope.defineNamed name production s =
      .ok ⟨scope.idOf name⟩ { s with table := s.table.push (scope.idOf name) production } := by
  rw [Scope.defineNamed, bind_of_ok (edit_ok (RuleTable.insert_eq_ok hfree hp))]
  rfl

theorem Scope.defineNamed_empty {scope : Scope} {name : String} {s : Session}
    (hfree : s.table.taken (scope.idOf name) = false) :
    scope.defineNamed name "" s = .error (.emptyProduction (scope.idOf name)) s := by
  rw [Scope.defineNamed, bind_of_error (edit_error (RuleTable.insert_eq_error hfree))]

end Steps

/-- A build that draws the automatic ids of its stem from `n` on, commits one rule under each, and
ends with `a`. -/
def Builds {α : Type} (stem : String) (n : Nat) (build : Build α) (a : α) (new : List Layout) :
    Prop :=
  ∀ s : Session, s.table.WellFormed → s.table.UsedUpTo stem n → ∃ t : RuleTable,
    build s = .ok a { s with table := t } ∧ s.table.Adds stem (numberedRules stem n new) t ∧
      t.UsedUpTo stem (n + new.length)

namespace Builds

variable {α : Type} {stem : String} {n : Nat} {a : α} {layout : Layout} {new : List Layout}

theorem pure (a : α) : Builds stem n (Pure.pure a) a [] :=
  fun s hwf h => ⟨s.table, rfl, .refl hwf stem, h⟩

/-- A step that commits the next automatic id goes before any other build. -/
theorem step {m : Build RuleHandle} {rest : RuleHandle → Build α}
    (hm : Builds stem n m (helperHandle stem n) [layout])
    (hrest : Builds stem (n + 1) (rest (helperHandle stem n)) a new) :
    Builds stem n (m >>= rest) a (layout :: new) := by
  intro s hwf h
  obtain ⟨t, hrun, hadds, hused⟩ := hm s hwf h
  obtain ⟨t', hrun', hadds', hused'⟩ := hrest { s with table := t } hadds.wellFormed hused
  refine ⟨t', by rw [bind_of_ok hrun, hrun'], hadds.trans hadds', ?_⟩
  simpa [Nat.add_assoc, Nat.add_comm 1] using hused'

theorem define (hp : layout.text ≠ "") :
    Builds stem n (Scope.define ⟨stem⟩ layout.text) (helperHandle stem n) [layout] := by
  intro s hwf h
  let t : RuleTable := { s.table with counters := s.table.counters.insert stem (n + 1) }
  have hfree : t.taken (RuleTable.autoId stem n) = false := h.next_free
  have hfresh : Scope.freshId ⟨stem⟩ s = .ok (RuleTable.autoId stem n) { s with table := t } :=
    freshId_ok (RuleTable.freshId_of_free h.counter h.next_free)
  obtain ⟨hadds, hused⟩ := h.push t layout.text hwf rfl rfl (fun _ => rfl)
    (fun x => RuleTable.getD_counters_insert _ stem x (n + 1))
  refine ⟨_, ?_, hadds, hused⟩
  rw [Scope.define, bind_of_ok hfresh, bind_of_ok (edit_ok (RuleTable.insert_eq_ok hfree hp))]
  rfl

/-- A rule that is reserved before its production is there, as the production refers to it. -/
theorem reserveCommit {production : Reservation → String}
    (hp : production ⟨RuleTable.autoId stem n⟩ = layout.text) (hne : layout.text ≠ "") :
    Builds stem n (do let slot ← Scope.reserve ⟨stem⟩; commit slot (production slot))
      (helperHandle stem n) [layout] := by
  intro s hwf h
  have hreserved := (RuleTable.taken_eq_false_iff.1 h.next_free).2
  let t : RuleTable := { s.table with counters := s.table.counters.insert stem (n + 1) }
  let id := RuleTable.autoId stem n
  have hreserve : Scope.reserve ⟨stem⟩ s = .ok ⟨id⟩ { s with table := t.claim id } := by
    have hfresh : Scope.freshId ⟨stem⟩ s = .ok id { s with table := t } :=
      freshId_ok (RuleTable.freshId_of_free h.counter h.next_free)
    rw [Scope.reserve, bind_of_ok hfresh]
    rfl
  have hclaimed : (t.claim id).reserved.contains id = true := by
    simp [RuleTable.reserved_claim]
  obtain ⟨hadds, hused⟩ := h.push ((t.claim id).release id) layout.text hwf rfl rfl
    (fun x => by
      rw [RuleTable.reserved_release, RuleTable.reserved_claim]
      by_cases hx : x = id
      · simp [hx, id, hreserved]
      · simp [hx, t])
    (fun x => RuleTable.getD_counters_insert _ stem x (n + 1))
  refine ⟨_, ?_, hadds, hused⟩
  rw [bind_of_ok hreserve, hp]
  exact commit_ok (RuleTable.commit_eq_ok hclaimed hne)

end Builds

end RecordGrammar
