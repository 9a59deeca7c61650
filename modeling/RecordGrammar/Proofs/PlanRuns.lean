import RecordGrammar.Proofs.CompilePlan

/-! # Runs of plans on what acts see of a table -/

namespace RecordGrammar

/-- The view of a table that no compilation is at work on. -/
def RuleTable.view (t : RuleTable) : View := ⟨t.rule?, t.reserved.contains, fun _ => false⟩

namespace View

/-- Waiting forward rules are reserved, each for one record, and what is reserved is not
committed. -/
structure Coherent (v : View) : Prop where
  reserved_of_waiting (name : String) : v.waiting name = true → v.reserved (forwardId name) = true
  rule?_of_reserved (id : String) : v.reserved id = true → v.rule? id = none
  waiting_inj (name name' : String) : v.waiting name = true → v.waiting name' = true →
    forwardId name = forwardId name' → name = name'
  reserved_forward (id : String) : v.reserved id = true → ∃ name, id = forwardId name

/-- Nothing is reserved but the forward rules that wait. -/
def Owned (v : View) : Prop :=
  ∀ id, v.reserved id = true → ∃ name, v.waiting name = true ∧ id = forwardId name

variable {v v' : View} {a : Act}

theorem step_fragment_eq_some {f : Fragment} (h : v.step (.fragment f) = some v') :
    v' = v.gain (f.shared ++ f.rules) ∧ ¬(f.layout.text = "" ∧ v.rule? f.handle.id = none) := by
  simp only [step] at h
  split at h
  · cases h
  · exact ⟨(Option.some.inj h).symm, ‹_›⟩

theorem step_forward_eq_some {name : String} (h : v.step (.forward name) = some v') :
    (v' = v ∧ (v.waiting name = true ∨ (v.rule? (forwardId name)).isSome)) ∨
    (v' = v.await name ∧ v.waiting name = false ∧ v.rule? (forwardId name) = none ∧
      v.reserved (forwardId name) = false) := by
  simp only [step] at h
  split at h
  · exact .inl ⟨(Option.some.inj h).symm, ‹_›⟩
  · rename_i hnot
    rw [not_or] at hnot
    split at h
    · cases h
    · exact .inr ⟨(Option.some.inj h).symm, Bool.eq_false_iff.2 hnot.1, by simpa using hnot.2,
        Bool.eq_false_iff.2 ‹_›⟩

theorem step_close_eq_some {name : String} {rule : RuleHandle}
    (h : v.step (.close name rule) = some v') :
    (v' = v.settle name rule ∧ v.waiting name = true) ∨ (v' = v ∧ v.waiting name = false) := by
  simp only [step] at h
  split at h
  · exact .inl ⟨(Option.some.inj h).symm, ‹_›⟩
  · exact .inr ⟨(Option.some.inj h).symm, Bool.eq_false_iff.2 ‹_›⟩

theorem find?_forwardId (f : Fragment) (name : String) :
    (f.shared ++ f.rules).find? (·.id = forwardId name) = none := by
  rw [List.find?_eq_none]
  intro r hr
  simpa using forwardId_ne_of_mem hr name

theorem Coherent.step (h : v.Coherent) (hstep : v.step a = some v') : v'.Coherent := by
  cases a with
  | fragment f =>
    obtain ⟨rfl, -⟩ := step_fragment_eq_some hstep
    refine ⟨h.reserved_of_waiting, fun id hid => ?_, h.waiting_inj, h.reserved_forward⟩
    obtain ⟨name, rfl⟩ := h.reserved_forward id hid
    simp only [gain, h.rule?_of_reserved _ hid, find?_forwardId, Option.or_none]
  | forward name =>
    rcases step_forward_eq_some hstep with ⟨rfl, -⟩ | ⟨rfl, hw, hrule, hr⟩
    · exact h
    · have hother (n : String) (hn : v.waiting n = true) : forwardId n ≠ forwardId name := by
        intro he
        have hres := h.reserved_of_waiting n hn
        rw [he, hr] at hres
        cases hres
      refine ⟨fun n hn => ?_, fun id hid => ?_, fun n n' hn hn' he => ?_, fun id hid => ?_⟩
      · simp only [await, Bool.or_eq_true, decide_eq_true_eq] at hn ⊢
        exact hn.imp (congrArg forwardId) (h.reserved_of_waiting n)
      · simp only [await, Bool.or_eq_true, decide_eq_true_eq] at hid ⊢
        rcases hid with rfl | hid
        · exact hrule
        · exact h.rule?_of_reserved id hid
      · simp only [await, Bool.or_eq_true, decide_eq_true_eq] at hn hn'
        rcases hn with hn | hn <;> rcases hn' with hn' | hn'
        · rw [hn, hn']
        · exact absurd (hn ▸ he).symm (hother n' hn')
        · exact absurd (hn' ▸ he) (hother n hn)
        · exact h.waiting_inj n n' hn hn' he
      · simp only [await, Bool.or_eq_true, decide_eq_true_eq] at hid
        exact hid.elim (fun he => ⟨name, he⟩) (h.reserved_forward id)
  | close name rule =>
    rcases step_close_eq_some hstep with ⟨rfl, hw⟩ | ⟨rfl, -⟩
    · refine ⟨fun n hn => ?_, fun id hid => ?_, fun n n' hn hn' he => ?_, fun id hid => ?_⟩
      · simp only [settle, Bool.and_eq_true, decide_eq_true_eq] at hn ⊢
        exact ⟨fun he => hn.1 (h.waiting_inj n name hn.2 hw he), h.reserved_of_waiting n hn.2⟩
      · simp only [settle, Bool.and_eq_true, decide_eq_true_eq] at hid ⊢
        rw [if_neg hid.1]
        exact h.rule?_of_reserved id hid.2
      · simp only [settle, Bool.and_eq_true] at hn hn'
        exact h.waiting_inj n n' hn.2 hn'.2 he
      · simp only [settle, Bool.and_eq_true] at hid
        exact h.reserved_forward id hid.2
    · exact h

theorem Owned.step (h : v.Owned) (hstep : v.step a = some v') : v'.Owned := by
  cases a with
  | fragment f =>
    obtain ⟨rfl, -⟩ := step_fragment_eq_some hstep
    exact h
  | forward name =>
    rcases step_forward_eq_some hstep with ⟨rfl, -⟩ | ⟨rfl, -⟩
    · exact h
    · intro id hid
      simp only [await, Bool.or_eq_true, decide_eq_true_eq] at hid ⊢
      rcases hid with hid | hid
      · exact ⟨name, .inl rfl, hid⟩
      · obtain ⟨n, hn, hid⟩ := h id hid
        exact ⟨n, .inr hn, hid⟩
  | close name rule =>
    rcases step_close_eq_some hstep with ⟨rfl, -⟩ | ⟨rfl, -⟩
    · intro id hid
      simp only [settle, Bool.and_eq_true, decide_eq_true_eq] at hid ⊢
      obtain ⟨n, hn, rfl⟩ := h id hid.2
      exact ⟨n, ⟨fun he => hid.1 (congrArg forwardId he), hn⟩, rfl⟩
    · exact h

/-- What the acts of a run keep, each on its own, the run keeps. -/
theorem run_invariant {P : View → Prop} {acts : List Act} (h : P v) (hrun : v.run acts = some v')
    (hkeeps : ∀ a ∈ acts, ∀ u u', P u → u.step a = some u' → P u') : P v' := by
  induction acts generalizing v with
  | nil => exact Option.some.inj hrun ▸ h
  | cons a acts ih =>
    obtain ⟨u, hstep, hrest⟩ := Option.bind_eq_some_iff.1 hrun
    obtain ⟨hfirst, hkeeps⟩ := List.forall_mem_cons.1 hkeeps
    exact ih (hfirst v u h hstep) hrest hkeeps

theorem Owned.run {acts : List Act} (h : v.Owned) (hrun : v.run acts = some v') : v'.Owned :=
  run_invariant h hrun fun _ _ _ _ h hstep => h.step hstep

/-- An id is taken once it has been reserved. -/
def Taken (v : View) (id : String) : Prop := v.reserved id = true ∨ (v.rule? id).isSome

theorem Taken.step {id : String} (h : v.Taken id) (hstep : v.step a = some v') : v'.Taken id := by
  cases a with
  | fragment f =>
    obtain ⟨rfl, -⟩ := step_fragment_eq_some hstep
    refine h.imp_right fun hs => ?_
    simp only [gain, Option.isSome_or, hs, Bool.true_or]
  | forward name =>
    rcases step_forward_eq_some hstep with ⟨rfl, -⟩ | ⟨rfl, -⟩
    · exact h
    · refine h.imp_left fun hr => ?_
      simp only [await, hr, Bool.or_true]
  | close name rule =>
    rcases step_close_eq_some hstep with ⟨rfl, -⟩ | ⟨rfl, -⟩
    · by_cases hid : id = forwardId name
      · exact .inr (by simp [settle, hid])
      · simpa [Taken, settle, hid] using h
    · exact h

theorem Taken.run {id : String} {acts : List Act} (h : v.Taken id) (hrun : v.run acts = some v') :
    v'.Taken id :=
  run_invariant (P := (·.Taken id)) h hrun fun _ _ _ _ h hstep => h.step hstep

/-- What a run sees that starts from `base` where another one, now at `v`, started from nothing. -/
def beneath (base v : View) : View where
  rule? id := (base.rule? id).or (v.rule? id)
  reserved id := base.reserved id || (v.reserved id && (base.rule? id).isNone)
  waiting name := v.waiting name && (base.rule? (forwardId name)).isNone

/-- Nothing is taken that is reserved in `base`. -/
def Apart (base v : View) : Prop := ∀ id, v.Taken id → base.reserved id = false

variable {base : View}

private theorem step_beneath_fragment (hbase : base.Coherent) {f : Fragment} (hapart : base.Apart v)
    (hstep : v.step (.fragment f) = some v') :
    base.Apart v' ∧ (base.beneath v).step (.fragment f) = some (base.beneath v') := by
  obtain ⟨rfl, hcond⟩ := step_fragment_eq_some hstep
  constructor
  · intro id hid
    by_cases hold : v.Taken id
    · exact hapart id hold
    · rw [← Bool.not_eq_true]
      intro hres
      obtain ⟨name, rfl⟩ := hbase.reserved_forward id hres
      refine hold (hid.imp_right fun hs => ?_)
      simpa only [gain, find?_forwardId, Option.or_none] using hs
  · have hcond' : ¬(f.layout.text = "" ∧ (base.beneath v).rule? f.handle.id = none) := by
      rintro ⟨hp, hnone⟩
      exact hcond ⟨hp, (Option.or_eq_none_iff.1 hnone).2⟩
    refine (if_neg hcond').trans (congrArg some ?_)
    exact View.ext (funext fun id => Option.or_assoc) rfl rfl

private theorem step_beneath_forward (hbase : base.Coherent) (hapart : base.Apart v) {name : String}
    (hstep : v.step (.forward name) = some v') :
    (base.Apart v' ∧ (base.beneath v).step (.forward name) = some (base.beneath v')) ∨
      (¬base.Apart v' ∧ (base.beneath v).step (.forward name) = none) := by
  rcases step_forward_eq_some hstep with ⟨rfl, hknown⟩ | ⟨rfl, hw, hrule, hr⟩
  · refine .inl ⟨hapart, if_pos ?_⟩
    cases hb : base.rule? (forwardId name) with
    | some r => simp [beneath, hb]
    | none => simpa [beneath, hb] using hknown
  · cases hb : base.rule? (forwardId name) with
    | some r =>
      have hfree : base.reserved (forwardId name) = false := by
        rw [← Bool.not_eq_true]
        intro hres
        rw [hbase.rule?_of_reserved _ hres] at hb
        cases hb
      refine .inl ⟨fun id hid => ?_, ?_⟩
      · by_cases hn : id = forwardId name
        · rw [hn, hfree]
        · exact hapart id (by simpa [Taken, await, hn] using hid)
      · refine (if_pos (.inr (by simp [beneath, hb]))).trans (congrArg some (View.ext rfl ?_ ?_))
        · funext id
          by_cases hn : id = forwardId name <;> simp [beneath, await, hn, hb]
        · funext n
          by_cases hn : n = name <;> simp [beneath, await, hn, hb]
    | none =>
      have hcond : ¬((base.beneath v).waiting name = true ∨
          ((base.beneath v).rule? (forwardId name)).isSome) := by
        simp [beneath, hw, hb, hrule]
      cases hres : base.reserved (forwardId name) with
      | true =>
        refine .inr ⟨fun happart => ?_, (if_neg hcond).trans (if_pos (by simp [beneath, hres]))⟩
        have := happart (forwardId name) (.inl (by simp [await]))
        rw [hres] at this
        cases this
      | false =>
        refine .inl ⟨fun id hid => ?_, ?_⟩
        · by_cases hn : id = forwardId name
          · rw [hn, hres]
          · exact hapart id (by simpa [Taken, await, hn] using hid)
        · refine (if_neg hcond).trans ((if_neg (by simp [beneath, hres, hr])).trans
            (congrArg some (View.ext rfl ?_ ?_)))
          · funext id
            by_cases hn : id = forwardId name <;> simp [beneath, await, hn, hb]
          · funext n
            by_cases hn : n = name <;> simp [beneath, await, hn, hb]

private theorem step_beneath_close (hv : v.Coherent) (hapart : base.Apart v) {name : String}
    {rule : RuleHandle} (hstep : v.step (.close name rule) = some v') :
    base.Apart v' ∧ (base.beneath v).step (.close name rule) = some (base.beneath v') := by
  rcases step_close_eq_some hstep with ⟨rfl, hw⟩ | ⟨rfl, hw⟩
  · have hfree := hapart (forwardId name) (.inl (hv.reserved_of_waiting name hw))
    refine ⟨fun id hid => ?_, ?_⟩
    · by_cases hn : id = forwardId name
      · rw [hn, hfree]
      · exact hapart id (by simpa [Taken, settle, hn] using hid)
    · cases hb : base.rule? (forwardId name) with
      | some r =>
        refine (if_neg (by simp [beneath, hb])).trans (congrArg some (View.ext ?_ ?_ ?_))
        · funext id
          by_cases hn : id = forwardId name <;> simp [beneath, settle, hn, hb]
        · funext id
          by_cases hn : id = forwardId name <;> simp [beneath, settle, hn, hb]
        · funext n
          by_cases hn : n = name <;> simp [beneath, settle, hn, hb]
      | none =>
        refine (if_pos (by simp [beneath, hb, hw])).trans (congrArg some (View.ext ?_ ?_ ?_))
        · funext id
          by_cases hn : id = forwardId name <;> simp [beneath, settle, hn, hb]
        · funext id
          by_cases hn : id = forwardId name <;> simp [beneath, settle, hn, hfree]
        · funext n
          by_cases hn : n = name <;> simp [beneath, settle, hn]
  · exact ⟨hapart, if_neg (by simp [beneath, hw])⟩

theorem step_beneath (hbase : base.Coherent) (hv : v.Coherent) (hapart : base.Apart v)
    (hstep : v.step a = some v') :
    (base.Apart v' ∧ (base.beneath v).step a = some (base.beneath v')) ∨
      (¬base.Apart v' ∧ (base.beneath v).step a = none) := by
  cases a with
  | fragment f => exact .inl (step_beneath_fragment hbase hapart hstep)
  | forward name => exact step_beneath_forward hbase hapart hstep
  | close name rule => exact .inl (step_beneath_close hv hapart hstep)

/-- A run that goes through on its own goes through on what another one has left if and only if it
takes nothing that is reserved there, and then the first finding of every rule stays. -/
theorem run_beneath (hbase : base.Coherent) {acts : List Act} (hv : v.Coherent)
    (hapart : base.Apart v) (hrun : v.run acts = some v') :
    (base.Apart v' ∧ (base.beneath v).run acts = some (base.beneath v')) ∨
      (¬base.Apart v' ∧ (base.beneath v).run acts = none) := by
  induction acts generalizing v with
  | nil =>
    obtain rfl := Option.some.inj hrun
    exact .inl ⟨hapart, rfl⟩
  | cons a acts ih =>
    obtain ⟨u, hstep, hrest⟩ := Option.bind_eq_some_iff.1 hrun
    rw [run_cons]
    rcases step_beneath hbase hv hapart hstep with ⟨hu, hover⟩ | ⟨hu, hover⟩
    · rw [hover]
      exact ih (hv.step hstep) hu hrest
    · rw [hover]
      exact .inr ⟨fun h => hu fun id hid => h id (hid.run hrest), rfl⟩

end View

end RecordGrammar
