import RecordGrammar.Proofs.CompilerConstructions
import RecordGrammar.Proofs.VisibleSchemas

/-! # Every forward rule is committed by the record that it stands for

Whatever factories do, a forward rule waits only while its record is under construction. So it is the
end of that construction that commits it, and with the record's own rule. -/

namespace RecordGrammar

theorem inForwardSpace_forwardId (name : String) : InForwardSpace (forwardId name) := by
  refine ⟨(memoKey name ++ "_decl").toList, ?_⟩
  simp [forwardId, Scope.idOf]

namespace Milestone

/-- The rule that the construction of a record under way comes out with. -/
def resultOf (name : String) : List Milestone → Option RuleHandle
  | [] => none
  | .built other rule :: rest => if other = name then some rule else resultOf name rest
  | .reserved _ _ :: rest => resultOf name rest

theorem resultOf_append (name : String) (as bs : List Milestone) :
    resultOf name (as ++ bs) = (resultOf name as).or (resultOf name bs) := by
  induction as with
  | nil => rfl
  | cons a as ih =>
    cases a with
    | reserved other slot => exact ih
    | built other rule =>
      rw [List.cons_append, resultOf, resultOf]
      split
      · rfl
      · exact ih

end Milestone

/-- Between two steps: a forward rule waits only for a record under construction, and of the ids of
forward rules those are reserved that wait and those that were reserved from the outset. -/
structure CompileState.Orderly (σ : CompileState) (stack : List String) (others : String → Prop) :
    Prop where
  sane : σ.Sane
  on_stack (name : String) : (σ.pending.lookup name).isSome → name ∈ stack
  reserved_iff (id : String) : InForwardSpace id → (σ.table.reserved.contains id = true ↔
    others id ∨ ∃ name, (σ.pending.lookup name).isSome ∧ id = forwardId name)
  apart (name : String) : (σ.pending.lookup name).isSome → ¬others (forwardId name)
  waiting_inj (name name' : String) : (σ.pending.lookup name).isSome →
    (σ.pending.lookup name').isSome → forwardId name = forwardId name' → name = name'

/-- What has become of forward rules between two states of a construction that goes on inside the
records of the stack. -/
structure Progress (stack : List String) (σ : CompileState) (new : List Milestone)
    (σ' : CompileState) : Prop where
  grows : σ.table.Grows σ'.table
  unfinished (name : String) : name ∈ stack → Milestone.resultOf name new = none
  kept (name : String) (slot : Reservation) :
    σ.pending.lookup name = some slot → σ'.pending.lookup name = some slot
  reserved {before : List Milestone} {name : String} {slot : Reservation}
    {after : List Milestone} : new = before ++ .reserved name slot :: after →
      slot.id = forwardId name ∧ σ.table.defined slot.id = false ∧
      ((∃ rule, Milestone.resultOf name after = some rule ∧
          σ'.table.rule? slot.id = some ⟨slot.id, rule.text⟩) ∨
        (Milestone.resultOf name after = none ∧ name ∈ stack ∧
          σ'.pending.lookup name = some slot))

variable {stack : List String} {σ σ' σ'' : CompileState} {others : String → Prop} {name : String}

theorem RuleTable.Grows.rule? {t t' : RuleTable} (h : t.Grows t') (hwf : t.WellFormed) {id : String}
    {r : Rule} (hr : t.rule? id = some r) : t'.rule? id = some r := by
  obtain ⟨hmem, hid⟩ := hwf.rule?_eq_some_iff.1 hr
  refine (h.wellFormed hwf).rule?_eq_some_iff.2 ⟨?_, hid⟩
  exact Array.mem_toList_iff.1 (h.isPrefix.subset (Array.mem_toList_iff.2 hmem))

/-- A place in two lists one behind the other is in the first one or in the second one. -/
theorem split_append {α : Type} {as bs before after : List α} {a : α}
    (h : as ++ bs = before ++ a :: after) :
    (∃ rest, as = before ++ a :: rest ∧ after = rest ++ bs) ∨
      ∃ between, bs = between ++ a :: after := by
  rcases List.append_eq_append_iff.1 h with ⟨between, -, hbs⟩ | ⟨rest, has, hrest⟩
  · exact .inr ⟨between, hbs⟩
  · cases rest with
    | nil => exact .inr ⟨[], hrest.symm⟩
    | cons first rest =>
      obtain ⟨rfl, rfl⟩ := List.cons.inj hrest
      exact .inl ⟨rest, has, rfl⟩

namespace Progress

theorem of_grows (hgrows : σ.table.Grows σ'.table) (hpending : σ'.pending = σ.pending) :
    Progress stack σ [] σ' where
  grows := hgrows
  unfinished _ _ := rfl
  kept name slot hslot := by rwa [hpending]
  reserved h := by simp at h

theorem refl (stack : List String) (σ : CompileState) : Progress stack σ [] σ :=
  .of_grows (.refl _) rfl

/-- A forward rule that is open after the first part stays so in the second one, since no record of
the stack is finished there. -/
theorem trans {new new' : List Milestone} (h : Progress stack σ new σ')
    (h' : Progress stack σ' new' σ'') (hwf : σ.table.WellFormed) :
    Progress stack σ (new ++ new') σ'' where
  grows := h.grows.trans h'.grows
  unfinished name hname := by
    rw [Milestone.resultOf_append, h.unfinished name hname, h'.unfinished name hname]
    rfl
  kept name slot hslot := h'.kept name slot (h.kept name slot hslot)
  reserved {before name slot after} hsplit := by
    have hwf' := h.grows.wellFormed hwf
    rcases split_append hsplit with ⟨rest, hnew, rfl⟩ | ⟨between, hnew'⟩
    · obtain ⟨hid, hundefined, houtcome⟩ := h.reserved hnew
      refine ⟨hid, hundefined, ?_⟩
      rw [Milestone.resultOf_append]
      rcases houtcome with ⟨rule, hresult, hrule⟩ | ⟨hresult, hname, hslot⟩
      · exact .inl ⟨rule, by rw [hresult]; rfl, h'.grows.rule? hwf' hrule⟩
      · refine .inr ⟨?_, hname, h'.kept _ _ hslot⟩
        rw [hresult, h'.unfinished _ hname]
        rfl
    · obtain ⟨hid, hundefined, houtcome⟩ := h'.reserved hnew'
      refine ⟨hid, ?_, houtcome⟩
      rw [← Bool.not_eq_true] at hundefined ⊢
      exact fun hd => hundefined (h.grows.defined hwf hd)

end Progress

section Steps

theorem Foreign.advances {α : Type} {m : Build α} (hm : Foreign m) {a : α} {s : Session}
    (h : σ.Orderly stack others) (hrun : m σ.session = .ok a s) :
    CompileState.Orderly { σ with session := s } stack others ∧
      Progress stack σ [] { σ with session := s } := by
  have hgrows := hm.program.table_grows σ.session
  have hreserved := hm.reserved σ.session
  rw [hrun] at hgrows hreserved
  refine ⟨⟨⟨hgrows.wellFormed h.sane.wellFormed, h.sane.slot_id⟩, h.on_stack, fun id hid => ?_,
    h.apart, h.waiting_inj⟩, .of_grows hgrows rfl⟩
  rw [← h.reserved_iff id hid]
  exact iff_of_eq (congrArg (· = true) (hreserved id hid))

/-- A forward rule that is free is reserved, and waits. -/
theorem advances_of_reserved (h : σ.Orderly stack others) (hname : name ∈ stack)
    (hw : σ.pending.lookup name = none) (hfree : σ.table.taken (forwardId name) = false)
    {s : Session} (hs : s.table = σ.table.claim (forwardId name)) :
    CompileState.Orderly ⟨s, (name, ⟨forwardId name⟩) :: σ.pending⟩ stack others ∧
      Progress stack σ [.reserved name ⟨forwardId name⟩]
        ⟨s, (name, ⟨forwardId name⟩) :: σ.pending⟩ := by
  obtain ⟨hd, hr⟩ := RuleTable.taken_eq_false_iff.1 hfree
  have hgrows : σ.table.Grows (σ.table.claim (forwardId name)) :=
    .of_rules rfl fun hwf => hwf.claim hd
  have hlookup (n : String) : ((name, (⟨forwardId name⟩ : Reservation)) :: σ.pending).lookup n =
      if n = name then some ⟨forwardId name⟩ else σ.pending.lookup n := lookup_cons_ite
  have hwaiting (n : String) :
      (((name, (⟨forwardId name⟩ : Reservation)) :: σ.pending).lookup n).isSome ↔
        n = name ∨ (σ.pending.lookup n).isSome := by
    rw [hlookup]
    split <;> simp [*]
  have hnot (hreserved : σ.table.reserved.contains (forwardId name) = true) : False := by
    rw [hr] at hreserved
    cases hreserved
  have hothers : ¬others (forwardId name) := fun ho =>
    hnot ((h.reserved_iff _ (inForwardSpace_forwardId name)).2 (.inl ho))
  have hne (n : String) (hn : (σ.pending.lookup n).isSome) : forwardId n ≠ forwardId name :=
    fun he => hnot (he ▸ (h.reserved_iff _ (inForwardSpace_forwardId n)).2 (.inr ⟨n, hn, rfl⟩))
  refine ⟨⟨⟨?_, fun n slot hslot => ?_⟩, fun n hn => ?_, fun id hid => ?_, fun n hn => ?_,
    fun n n' hn hn' he => ?_⟩, ?_, fun _ _ => rfl, fun n slot hslot => ?_, ?_⟩
  · rw [CompileState.table, hs]
    exact hgrows.wellFormed h.sane.wellFormed
  · rw [hlookup] at hslot
    split at hslot
    · cases hslot
      exact congrArg forwardId (Eq.symm ‹_›)
    · exact h.sane.slot_id n slot hslot
  · rcases (hwaiting n).1 hn with rfl | hn
    · exact hname
    · exact h.on_stack n hn
  · rw [CompileState.table, hs, RuleTable.reserved_claim, Bool.or_eq_true, decide_eq_true_eq]
    refine (or_congr_right (h.reserved_iff id hid)).trans ?_
    simp only [hwaiting]
    constructor
    · rintro (rfl | ho | ⟨n, hn, rfl⟩)
      · exact .inr ⟨name, .inl rfl, rfl⟩
      · exact .inl ho
      · exact .inr ⟨n, .inr hn, rfl⟩
    · rintro (ho | ⟨n, rfl | hn, rfl⟩)
      · exact .inr (.inl ho)
      · exact .inl rfl
      · exact .inr (.inr ⟨n, hn, rfl⟩)
  · rcases (hwaiting n).1 hn with rfl | hn
    · exact hothers
    · exact h.apart n hn
  · rcases (hwaiting n).1 hn with rfl | hold <;> rcases (hwaiting n').1 hn' with rfl | hold'
    · rfl
    · exact absurd he.symm (hne n' hold')
    · exact absurd he (hne n hold)
    · exact h.waiting_inj n n' hold hold' he
  · rw [← hs] at hgrows
    exact hgrows
  · rw [hlookup, if_neg]
    · exact hslot
    · rintro rfl
      rw [hw] at hslot
      cases hslot
  · intro before n slot after hsplit
    cases before with
    | nil =>
      cases hsplit
      refine ⟨rfl, hd, .inr ⟨rfl, hname, ?_⟩⟩
      rw [hlookup, if_pos rfl]
    | cons _ before => simp at hsplit

/-- To refer to a record under construction reserves its forward rule at most. -/
theorem forward_advances (h : σ.Orderly stack others) (hname : name ∈ stack) {site : CompileSite}
    {rule : RuleHandle} (hrun : site.forward name σ = .ok rule σ') :
    σ'.Orderly stack others ∧ Progress stack σ (Milestone.between name σ σ') σ' := by
  unfold CompileSite.forward at hrun
  split at hrun
  · rw [get_bind] at hrun
    cases hw : σ.pending.lookup name with
    | some slot =>
      simp only [hw] at hrun
      cases hrun
      have hnone : Milestone.between name σ σ = [] := by simp [Milestone.between, hw]
      rw [hnone]
      exact ⟨h, .refl stack σ⟩
    | none =>
      simp only [hw] at hrun
      by_cases hd : σ.table.defined (forwardId name) = true
      · rw [Act.declareForward_of_defined h.sane.wellFormed hd] at hrun
        cases hrun
        have hnone (s : Session) : Milestone.between name σ { σ with session := s } = [] := by
          simp [Milestone.between, hw]
        rw [hnone]
        exact ⟨⟨⟨h.sane.wellFormed, h.sane.slot_id⟩, h.on_stack, h.reserved_iff, h.apart,
          h.waiting_inj⟩, .of_grows (.refl _) rfl⟩
      · have hd' := Bool.eq_false_iff.2 hd
        by_cases hr : σ.table.reserved.contains (forwardId name) = true
        · rw [Act.declareForward_of_reserved hd' hr] at hrun
          cases hrun
        · have hfree := RuleTable.taken_eq_false_iff.2 ⟨hd', Bool.eq_false_iff.2 hr⟩
          rw [Act.declareForward_of_free hfree] at hrun
          cases hrun
          have hone (s : Session) : Milestone.between name σ
              ⟨s, (name, ⟨forwardId name⟩) :: σ.pending⟩ = [.reserved name ⟨forwardId name⟩] := by
            simp [Milestone.between, hw]
          rw [hone]
          exact advances_of_reserved h hname hw hfree rfl
  · cases hrun

/-- What closing a record does: its forward rule no longer waits, and if it did, it is committed. -/
structure Closes (name : String) (rule : RuleHandle) (σ σ' : CompileState) : Prop where
  sane : σ'.Sane
  grows : σ.table.Grows σ'.table
  lookup (n : String) :
    σ'.pending.lookup n = if n = name then none else σ.pending.lookup n
  committed : (σ.pending.lookup name).isSome →
    σ'.table.rule? (forwardId name) = some ⟨forwardId name, rule.text⟩
  reserved (id : String) : σ'.table.reserved.contains id = true ↔
    σ.table.reserved.contains id = true ∧ ((σ.pending.lookup name).isSome → id ≠ forwardId name)

theorem closes_of_close (h : σ.Orderly stack others) {rule : RuleHandle}
    (hrun : CompileSite.close name rule σ = .ok () σ') : Closes name rule σ σ' := by
  have hact : (Act.close name rule).run σ = .ok () σ' := hrun
  have hsane := Act.run_sane h.sane hact
  have hgrows := Act.run_grows hact
  cases hw : σ.pending.lookup name with
  | none =>
    rw [Act.run_close_of_not_waiting hw] at hact
    cases hact
    refine ⟨hsane, hgrows, fun n => ?_, fun hsome => ?_, fun id => ?_⟩
    · split
      · next hn => rw [hn, hw]
      · rfl
    · simp [hw] at hsome
    · simp [hw]
  | some slot =>
    have hreserved : σ.table.reserved.contains (forwardId name) = true :=
      (h.reserved_iff _ (inForwardSpace_forwardId name)).2 (.inr ⟨name, by simp [hw], rfl⟩)
    rw [Act.run_close_of_waiting rule hw (h.sane.slot_id name slot hw) hreserved] at hact
    cases hact
    refine ⟨hsane, hgrows, lookup_filter_ne σ.pending name, fun _ => ?_, fun id => ?_⟩
    · exact (h.sane.wellFormed.rule?_fulfil _).trans (if_pos rfl)
    · simp [CompileState.table, RuleTable.reserved_fulfil, and_comm, hw]

/-- The end of the construction of a record closes it: what is open for the record is committed, and
what is open for another one stays so. -/
theorem Closes.advances {rule : RuleHandle} (hclose : Closes name rule σ' σ'')
    (hstart : ∀ n, (σ.pending.lookup n).isSome → n ∈ stack) (hname : name ∉ stack)
    {new : List Milestone} (h : σ'.Orderly (stack ++ [name]) others)
    (hprogress : Progress (stack ++ [name]) σ new σ') :
    σ''.Orderly stack others ∧ Progress stack σ (new ++ [.built name rule]) σ'' := by
  have hne {n : String} (hn : n ∈ stack) : n ≠ name := fun he => hname (he ▸ hn)
  have hstays {n : String} (hn : n ≠ name) : σ''.pending.lookup n = σ'.pending.lookup n := by
    rw [hclose.lookup, if_neg hn]
  have hwaiting {n : String} : (σ''.pending.lookup n).isSome ↔
      n ≠ name ∧ (σ'.pending.lookup n).isSome := by
    rw [hclose.lookup]
    split <;> simp [*]
  constructor
  · refine ⟨hclose.sane, fun n hn => ?_, fun id hid => ?_, fun n hn => h.apart n (hwaiting.1 hn).2,
      fun n n' hn hn' => h.waiting_inj n n' (hwaiting.1 hn).2 (hwaiting.1 hn').2⟩
    · obtain ⟨hn, hold⟩ := hwaiting.1 hn
      exact (List.mem_append.1 (h.on_stack n hold)).resolve_right (by simpa using hn)
    · rw [hclose.reserved, h.reserved_iff id hid]
      simp only [hwaiting]
      constructor
      · rintro ⟨ho | ⟨n, hn, rfl⟩, hid⟩
        · exact .inl ho
        · refine .inr ⟨n, ⟨?_, hn⟩, rfl⟩
          rintro rfl
          exact hid hn rfl
      · rintro (ho | ⟨n, ⟨hn, hold⟩, rfl⟩)
        · exact ⟨.inl ho, fun hw he => h.apart name hw (he ▸ ho)⟩
        · exact ⟨.inr ⟨n, hold, rfl⟩, fun hw he => hn (h.waiting_inj n name hold hw he)⟩
  · refine ⟨hprogress.grows.trans hclose.grows, fun n hn => ?_, fun n slot hslot => ?_, ?_⟩
    · rw [Milestone.resultOf_append, hprogress.unfinished n (List.mem_append_left _ hn)]
      exact if_neg (Ne.symm (hne hn))
    · rw [hstays (hne (hstart n (by simp [hslot])))]
      exact hprogress.kept n slot hslot
    · intro before n slot after hsplit
      rcases split_append hsplit with ⟨rest, hnew, rfl⟩ | ⟨between, hbuilt⟩
      · obtain ⟨hid, hundefined, houtcome⟩ := hprogress.reserved hnew
        refine ⟨hid, hundefined, ?_⟩
        rw [Milestone.resultOf_append]
        rcases houtcome with ⟨result, hresult, hrule⟩ | ⟨hresult, hn, hslot⟩
        · refine .inl ⟨result, by rw [hresult]; rfl, hclose.grows.rule? h.sane.wellFormed hrule⟩
        · rw [hresult, Option.none_or]
          by_cases hn' : n = name
          · obtain rfl := hn'
            refine .inl ⟨rule, if_pos rfl, ?_⟩
            rw [hid]
            exact hclose.committed (by simp [hslot])
          · refine .inr ⟨if_neg (Ne.symm hn'), ?_, by rw [hstays hn', hslot]⟩
            exact (List.mem_append.1 hn).resolve_right (by simpa using hn')
      · cases between <;> simp at hbuilt

end Steps

namespace CompileContext

variable {α β : Type} {c : CompileContext}

/-- A step that goes through leaves everything in order, and the milestones that it adds tell what
has become of the forward rules. -/
def Advances (others : String → Prop) (c : CompileContext) (step : InContext α) : Prop :=
  c.state.Orderly c.stack others → ∀ a c', step c = .ok a c' → c'.stack = c.stack ∧
    c'.state.Orderly c.stack others ∧
      ∃ new, c'.history = c.history ++ new ∧ Progress c.stack c.state new c'.state

namespace Advances

variable {registry : Registry} {options : SchemaOptions} {step : InContext α}

theorem pure (a : α) : Advances others c (Pure.pure a) := by
  rintro h _ _ ⟨⟩
  exact ⟨rfl, h, [], by simp, .refl _ _⟩

theorem throw (e : SchemaError) : Advances others c (MonadExcept.throw e : InContext α) := by
  rintro _ _ _ ⟨⟩

theorem bind {next : α → InContext β} (h : Advances others c step)
    (hnext : ∀ a c', Advances others c' (next a)) : Advances others c (step >>= next) := by
  intro hc b c'' hrun
  obtain ⟨a, c', hstep, hrest⟩ := bind_eq_ok hrun
  obtain ⟨hstack, horderly, new, hhistory, hprogress⟩ := h hc a c' hstep
  rw [← hstack] at horderly
  obtain ⟨hstack', horderly', new', hhistory', hprogress'⟩ := hnext a c' horderly b c'' hrest
  rw [hstack] at hstack' horderly' hprogress'
  refine ⟨hstack', horderly', new ++ new', ?_, hprogress.trans hprogress' hc.sane.wellFormed⟩
  rw [hhistory', hhistory, List.append_assoc]

theorem table {m : Build α} (hm : Foreign m) :
    Advances others c (CompileContext.lift (liftBuild m)) := by
  intro h a c' hrun
  cases hb : m c.state.session with
  | ok a s =>
    rw [lift_of_ok (liftBuild_ok hb)] at hrun
    cases hrun
    obtain ⟨horderly, hprogress⟩ := hm.advances h hb
    exact ⟨rfl, horderly, [], rfl, hprogress⟩
  | error e s =>
    rw [lift_of_error (liftBuild_error hb)] at hrun
    cases hrun

theorem descend (h : ∀ depth, Advances others { c with depth } step) :
    Advances others c (CompileContext.descend options step) := by
  intro hc a c' hrun
  by_cases hdepth : options.maxDepth ≤ c.depth
  · rw [descend_of_limit hdepth] at hrun
    cases hrun
  · cases hinner : step { c with depth := c.depth + 1 } with
    | ok b u =>
      rw [descend_of_ok hdepth hinner] at hrun
      cases hrun
      exact h (c.depth + 1) hc a u hinner
    | error e u =>
      rw [descend_of_error hdepth hinner] at hrun
      cases hrun

theorem forward {name : String} (hname : name ∈ c.stack) :
    Advances others c (CompileContext.forward registry options name) := by
  intro h a c' hrun
  cases hforward : CompileSite.forward ⟨registry, options, c.stack⟩ name c.state with
  | ok rule σ =>
    rw [forward_of_ok hforward] at hrun
    cases hrun
    obtain ⟨horderly, hprogress⟩ := forward_advances h hname hforward
    exact ⟨rfl, horderly, _, rfl, hprogress⟩
  | error e σ =>
    rw [forward_of_error hforward] at hrun
    cases hrun

theorem record {name : String} {build : RecordSchema → InContext RuleHandle}
    (h : ∀ definition, Advances others (c.push name) (build definition)) :
    Advances others c (CompileContext.record registry options name build) := by
  by_cases hname : name ∈ c.stack
  · intro hc a c' hrun
    rw [record_of_open hname] at hrun
    exact forward hname hc a c' hrun
  · intro hc a c' hrun
    cases hrecord : registry.record name with
    | error e =>
      rw [record_of_unknown hname hrecord] at hrun
      cases hrun
    | ok definition =>
      cases hbuild : build definition (c.push name) with
      | error e u =>
        rw [record_of_failed hname hrecord hbuild] at hrun
        cases hrun
      | ok rule u =>
        rw [record_of_built hname hrecord hbuild] at hrun
        have hpushed : (c.push name).state.Orderly (c.push name).stack others :=
          ⟨hc.sane, fun n hn => List.mem_append_left _ (hc.on_stack n hn), hc.reserved_iff, hc.apart,
            hc.waiting_inj⟩
        obtain ⟨hstack, horderly, new, hhistory, hprogress⟩ := h definition hpushed _ u hbuild
        obtain ⟨_, w, hlift, hpure⟩ := bind_eq_ok hrun
        cases hpure
        cases hclose : CompileSite.close name a u.state with
        | error e σ =>
          cases (lift_of_error (c := u.pop.after u.state [.built name a]) hclose).symm.trans hlift
        | ok _ σ =>
          cases (lift_of_ok (c := u.pop.after u.state [.built name a]) hclose).symm.trans hlift
          obtain ⟨horderly', hprogress'⟩ := (closes_of_close horderly hclose).advances
            hc.on_stack hname horderly hprogress
          refine ⟨?_, horderly', new ++ [.built name a], ?_, hprogress'⟩
          · simp [after, pop, hstack, push]
          · simp [after, pop, hhistory, push]

end Advances

end CompileContext

/-- By induction on the tree of calls: each of them leaves everything in order. -/
theorem Construction.advances (registry : Registry) (options : SchemaOptions)
    (others : String → Prop) {α : Type} (tree : Construction α) (c : CompileContext) :
    c.Advances others (tree.runIn registry options) := by
  induction tree generalizing c with
  | pure a => exact .pure a
  | throw e => exact .throw e
  | table m foreign next ih => exact .bind (.table foreign) fun b c' => ih b c'
  | record name build next ihbuild ih =>
    refine .bind (.record fun definition => ?_) fun rule c' => ih rule c'
    exact ihbuild definition (c.push name)
  | descend inner next ihinner ih =>
    refine .bind (.descend fun depth => ?_) fun b c' => ih b c'
    exact ihinner { c with depth }

theorem filter_id_eq {rules : List Rule} (h : (rules.map Rule.id).Nodup) {r : Rule}
    (hr : r ∈ rules) : rules.filter (·.id = r.id) = [r] := by
  induction rules with
  | nil => cases hr
  | cons first rest ih =>
    rw [List.map_cons, List.nodup_cons] at h
    obtain ⟨hfirst, hrest⟩ := h
    rcases List.mem_cons.1 hr with rfl | hr
    · have hnone : rest.filter (·.id = r.id) = [] := by
        rw [List.filter_eq_nil_iff]
        intro other hother
        have hne : other.id ≠ r.id := fun he => hfirst (he ▸ List.mem_map_of_mem hother)
        simpa using hne
      rw [List.filter_cons_of_pos (by simp), hnone]
    · have hne : first.id ≠ r.id := fun he => hfirst (he ▸ List.mem_map_of_mem hr)
      rw [List.filter_cons_of_neg (by simpa using hne), ih hrest hr]

theorem RuleTable.WellFormed.filter_rules {t : RuleTable} (h : t.WellFormed) {id : String} {r : Rule}
    (hr : t.rule? id = some r) : t.rules.toList.filter (·.id = id) = [r] := by
  obtain ⟨hmem, rfl⟩ := h.rule?_eq_some_iff.1 hr
  exact filter_id_eq h.ids_nodup (Array.mem_toList_iff.2 hmem)

/-- Every forward rule is closed. A construction that starts with no record under construction and
nothing pending does to the state what its compilation does, and whether it fails or not, the stack
and the depth are then what they were. If it goes through, nothing is pending, of the ids of forward
rules those are reserved that were so from the outset, and each forward rule that has been reserved
on the way is committed once: with the rule that the construction of its record, which was under way,
has come out with. -/
theorem Construction.forwards_closed (registry : Registry) (options : SchemaOptions) {α : Type}
    (tree : Construction α) {s : Session} (hwf : s.table.WellFormed) (depth : Nat) :
    let start : CompileContext := { state := ⟨s, []⟩, depth }
    let result := tree.runIn registry options start
    (∃ history, result = start.finish history
      (tree.run ⟨registry, options, []⟩ (options.maxDepth - depth) ⟨s, []⟩)) ∧
    (finalState result).stack = [] ∧ (finalState result).depth = depth ∧
    ∀ a c, result = .ok a c → c.state.pending = [] ∧
      (∀ id, InForwardSpace id →
        c.state.table.reserved.contains id = s.table.reserved.contains id) ∧
      ∀ before name slot after, c.history = before ++ .reserved name slot :: after →
        ∃ rule, Milestone.resultOf name after = some rule ∧ slot.id = forwardId name ∧
          s.table.defined slot.id = false ∧
          c.state.table.rules.toList.filter (·.id = slot.id) = [⟨slot.id, rule.text⟩] := by
  intro start result
  obtain ⟨history, hagrees⟩ := tree.runIn_agrees registry options start
  have hfinal : (finalState result).stack = [] ∧ (finalState result).depth = depth := by
    rw [show result = _ from hagrees]
    cases tree.run ⟨registry, options, []⟩ (options.maxDepth - depth) ⟨s, []⟩ <;> exact ⟨rfl, rfl⟩
  refine ⟨⟨history, hagrees⟩, hfinal.1, hfinal.2, fun a c hrun => ?_⟩
  have hstart : start.state.Orderly [] fun id => s.table.reserved.contains id = true :=
    ⟨CompileState.sane_of_wellFormed hwf, by simp [start], by simp [start, CompileState.table],
      by simp [start],
      by simp [start]⟩
  obtain ⟨-, horderly, new, hhistory, hprogress⟩ :=
    tree.advances registry options _ start hstart a c hrun
  have hnone (n : String) : c.state.pending.lookup n = none := by
    rw [← Option.not_isSome_iff_eq_none]
    exact fun hn => List.not_mem_nil (horderly.on_stack n hn)
  refine ⟨?_, fun id hid => ?_, fun before name slot after hsplit => ?_⟩
  · cases hpending : c.state.pending with
    | nil => rfl
    | cons first rest =>
      have hfirst := hnone first.1
      simp [hpending] at hfirst
  · have hiff := horderly.reserved_iff id hid
    rw [Bool.eq_iff_iff]
    refine hiff.trans (or_iff_left ?_)
    rintro ⟨n, hn, -⟩
    rw [hnone] at hn
    cases hn
  · have hnew : new = before ++ .reserved name slot :: after := hhistory.symm.trans hsplit
    obtain ⟨hid, hundefined, ⟨rule, hresult, hrule⟩ | ⟨-, hname, -⟩⟩ := hprogress.reserved hnew
    · exact ⟨rule, hresult, hid, hundefined, horderly.sane.wellFormed.filter_rules hrule⟩
    · cases hname

/-- A person with a list of pets, where a pet is made of both records, which are met again there. -/
def crossing : Construction RuleHandle :=
  .record "Person" (fun _ =>
    .record "Pet" (fun _ =>
      .record "Person" (fun _ => .throw (.unknownRecord "Person")) fun person =>
        .record "Pet" (fun _ => .throw (.unknownRecord "Pet")) fun pet =>
          .table (JsonFragment.tuple [person, pet])
            (.of_clear (JsonFragment.tuple_program _) (JsonFragment.tuple_clear _)) .pure) fun pet =>
      .table (JsonFragment.array pet)
        (.of_clear (JsonFragment.array_program _) (JsonFragment.array_clear _)) .pure) .pure

/-- What a run on the context that goes through comes out with, and its milestones. -/
def CompileContext.outcome {α : Type} : EStateM.Result SchemaError CompileContext α →
    Option (α × List Milestone)
  | .ok a c => some (a, c.history)
  | .error _ _ => none

set_option maxRecDepth 100000 in
/-- Two forward rules wait at once, and the inner record is closed while the outer one still waits. -/
theorem crossing_forwards_closed :
    ∃ c, crossing.runIn household {} { state := ⟨{}, []⟩ } =
        .ok ⟨"__bja_53530d7913eb6d3f_decl"⟩ c ∧
      c.history = [.reserved "Person" ⟨"__bjr_6007db63e18e532c_decl"⟩,
        .reserved "Pet" ⟨"__bjr_8f0d1b30eba57426_decl"⟩,
        .built "Pet" ⟨"__bji_3739d85cf0a18466_decl"⟩,
        .built "Person" ⟨"__bja_53530d7913eb6d3f_decl"⟩] ∧
      c.state.pending = [] ∧ c.stack = [] ∧
      c.state.table.rules.toList.filter (·.id = "__bjr_6007db63e18e532c_decl") =
        [⟨"__bjr_6007db63e18e532c_decl", "<__bja_53530d7913eb6d3f_decl>"⟩] ∧
      c.state.table.rules.toList.filter (·.id = "__bjr_8f0d1b30eba57426_decl") =
        [⟨"__bjr_8f0d1b30eba57426_decl", "<__bji_3739d85cf0a18466_decl>"⟩] := by
  have houtcome : CompileContext.outcome (crossing.runIn household {} { state := ⟨{}, []⟩ }) =
      some (⟨"__bja_53530d7913eb6d3f_decl"⟩,
        [.reserved "Person" ⟨"__bjr_6007db63e18e532c_decl"⟩,
          .reserved "Pet" ⟨"__bjr_8f0d1b30eba57426_decl"⟩,
          .built "Pet" ⟨"__bji_3739d85cf0a18466_decl"⟩,
          .built "Person" ⟨"__bja_53530d7913eb6d3f_decl"⟩]) := by
    decide +kernel
  obtain ⟨-, hstack, -, hclosed⟩ := Construction.forwards_closed household {} crossing
    (s := {}) RuleTable.wellFormed_empty 0
  cases hrun : crossing.runIn household {} { state := ⟨{}, []⟩ } with
  | error e c =>
    rw [hrun] at houtcome
    cases houtcome
  | ok rule c =>
    rw [hrun] at houtcome hstack
    obtain ⟨hrule, hhistory⟩ := Prod.mk.inj (Option.some.inj houtcome)
    obtain ⟨hpending, -, hcommitted⟩ := hclosed rule c hrun
    obtain ⟨person, hperson, -, -, hperson'⟩ := hcommitted [] "Person" _ _ hhistory
    obtain ⟨pet, hpet, -, -, hpet'⟩ := hcommitted [_] "Pet" _ _ hhistory
    cases hperson
    cases hpet
    exact ⟨c, by rw [hrule], hhistory, hpending, hstack, hperson', hpet'⟩

end RecordGrammar
