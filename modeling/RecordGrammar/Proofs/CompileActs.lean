import RecordGrammar.Proofs.SettledTables

/-! # What a compilation does to its state, act by act

Apart from its checks a compilation builds fragments, refers to records under construction and
closes them. What each of these does to a table depends on the lookups in it only. -/

namespace RecordGrammar

inductive Act where
  | fragment (f : Fragment)
  | forward (name : String)
  | close (name : String) (rule : RuleHandle)
  deriving DecidableEq, Repr

namespace RuleTable

theorem forwardId_ne_idOf (f : Fragment) (name : String) {x : String} (hx : '_' ∉ x.toList) :
    Scope.idOf ⟨f.stem⟩ x ≠ forwardId name := by
  intro h
  obtain ⟨hs, -⟩ := Scope.idOf_inj hx underscore_not_mem_decl h
  exact f.stem_ne_bjr name (congrArg Scope.stem hs)

theorem Settled.claim_forward {t : RuleTable} (h : t.Settled) {name : String}
    (hd : t.defined (forwardId name) = false) : (t.claim (forwardId name)).Settled where
  wellFormed := h.wellFormed.claim hd
  reserved_forward id hid := by
    rw [reserved_claim, Bool.or_eq_true, decide_eq_true_eq] at hid
    exact hid.elim (fun he => ⟨name, he⟩) (h.reserved_forward id)
  fragments f := by
    refine (h.fragments f).imp (fun hf r hr => hf r hr) fun hu => ⟨hu.counter, fun x hx hn => ?_⟩
    obtain ⟨hdefined, hreserved⟩ := taken_eq_false_iff.1 (hu.free x hx hn)
    refine taken_eq_false_iff.2 ⟨hdefined, ?_⟩
    rw [reserved_claim, hreserved, Bool.or_false, decide_eq_false_iff_not]
    exact forwardId_ne_idOf f name hx

/-- The table with the production of a reserved id. -/
def fulfil (t : RuleTable) (id production : String) : RuleTable := (t.release id).push id production

section Fulfil

variable {t : RuleTable} {id production : String}

theorem reserved_fulfil (x : String) :
    (t.fulfil id production).reserved.contains x = (decide (x ≠ id) && t.reserved.contains x) := by
  rw [fulfil, reserved_push, reserved_release]

theorem defined_fulfil (x : String) :
    (t.fulfil id production).defined x = (decide (x = id) || t.defined x) := by
  rw [fulfil, defined_push]
  rfl

theorem WellFormed.rule?_fulfil (h : t.WellFormed) (x : String) :
    (t.fulfil id production).rule? x = if x = id then some ⟨id, production⟩ else t.rule? x := by
  rw [fulfil, (h.release id).rule?_push]
  rfl

end Fulfil

theorem Settled.fulfil_forward {t : RuleTable} (h : t.Settled) {name production : String}
    (hd : t.defined (forwardId name) = false) :
    (t.fulfil (forwardId name) production).Settled where
  wellFormed := (h.wellFormed.release _).push hd (by simp [reserved_release])
  reserved_forward id hid := by
    rw [reserved_fulfil, Bool.and_eq_true] at hid
    exact h.reserved_forward id hid.2
  fragments f := by
    refine (h.fragments f).imp (fun hf r hr => ?_) fun hu => ⟨hu.counter, fun x hx hn => ?_⟩
    · rw [defined_fulfil, hf r hr, Bool.or_true]
    · obtain ⟨hdefined, hreserved⟩ := taken_eq_false_iff.1 (hu.free x hx hn)
      refine taken_eq_false_iff.2 ⟨?_, ?_⟩
      · rw [defined_fulfil, hdefined, Bool.or_false, decide_eq_false_iff_not]
        exact forwardId_ne_idOf f name hx
      · rw [reserved_fulfil, hreserved, Bool.and_false]

end RuleTable

namespace CompileState

def table (σ : CompileState) : RuleTable := σ.session.table

/-- Between two acts: every waiting slot is the forward rule of its record and still reserved. -/
structure Tidy (σ : CompileState) : Prop where
  settled : σ.table.Settled
  slot_id (name : String) (slot : Reservation) :
    σ.pending.lookup name = some slot → slot.id = forwardId name
  reserved (name : String) : (σ.pending.lookup name).isSome →
    σ.table.reserved.contains (forwardId name) = true
  keyed (name : String) : (σ.pending.lookup name).isSome → .keyed name ∈ σ.session.log
  waiting_inj (name name' : String) : (σ.pending.lookup name).isSome →
    (σ.pending.lookup name').isSome → forwardId name = forwardId name' → name = name'

theorem Tidy.defined_eq_false {σ : CompileState} (h : σ.Tidy) {name : String}
    (hw : (σ.pending.lookup name).isSome) : σ.table.defined (forwardId name) = false :=
  h.settled.wellFormed.reserved_undefined _ (h.reserved name hw)

end CompileState

/-- What an act sees of a state. -/
@[ext]
structure View where
  rule? : String → Option Rule
  reserved : String → Bool
  waiting : String → Bool

def CompileState.view (σ : CompileState) : View :=
  ⟨σ.table.rule?, σ.table.reserved.contains, fun name => (σ.pending.lookup name).isSome⟩

namespace View

/-- The view with new rules behind those that are there. -/
def gain (v : View) (new : List Rule) : View :=
  { v with rule? := fun id => (v.rule? id).or (new.find? (·.id = id)) }

/-- The view with a forward rule reserved for a record. -/
def await (v : View) (name : String) : View :=
  { v with
    reserved := fun id => decide (id = forwardId name) || v.reserved id
    waiting := fun n => decide (n = name) || v.waiting n }

/-- The view with the forward rule of a record committed. -/
def settle (v : View) (name : String) (rule : RuleHandle) : View where
  rule? id := if id = forwardId name then some ⟨forwardId name, rule.text⟩ else v.rule? id
  reserved id := decide (id ≠ forwardId name) && v.reserved id
  waiting n := decide (n ≠ name) && v.waiting n

/-- What an act makes of a view, if it does not fail. -/
def step (v : View) : Act → Option View
  | .fragment f =>
    if f.layout.text = "" ∧ v.rule? f.handle.id = none then none
    else some (v.gain (f.shared ++ f.rules))
  | .forward name =>
    if v.waiting name ∨ (v.rule? (forwardId name)).isSome then some v
    else if v.reserved (forwardId name) then none
    else some (v.await name)
  | .close name rule => if v.waiting name then some (v.settle name rule) else some v

end View

namespace Act

def run : Act → Compile Unit
  | .fragment f => do let _ ← liftBuild f.build
  | .forward name => do
    match (← get).pending.lookup name with
    | some _ => return ()
    | none => let _ ← CompileSite.declareForward name
  | .close name rule => CompileSite.close name rule

/-- The text that an act turns into a memo key. -/
def canonical? : Act → Option String
  | .fragment f => f.canonical?
  | .forward name => some name
  | .close _ _ => none

end Act

section Steps

variable {α : Type} {build : Build α} {σ : CompileState} {a : α} {s : Session} {e : RuleError}

theorem liftBuild_ok (h : build σ.session = .ok a s) :
    liftBuild build σ = .ok a { σ with session := s } := by
  simp [liftBuild, h]

theorem liftBuild_error (h : build σ.session = .error e s) :
    liftBuild build σ = .error (.rule e) { σ with session := s } := by
  simp [liftBuild, h]

theorem liftBuild_eq_ok {σ' : CompileState} (h : liftBuild build σ = .ok a σ') :
    ∃ s, build σ.session = .ok a s ∧ σ' = { σ with session := s } := by
  cases hb : build σ.session with
  | ok b s =>
    rw [liftBuild_ok hb] at h
    cases h
    exact ⟨s, rfl, rfl⟩
  | error e s =>
    rw [liftBuild_error hb] at h
    cases h

end Steps

namespace CompileState

/-- A change of the table that reserves and gives up nothing keeps a state tidy. -/
theorem Tidy.with_session {σ : CompileState} {s : Session} (h : σ.Tidy) (hs : s.table.Settled)
    (hreserved : ∀ id, s.table.reserved.contains id = σ.table.reserved.contains id)
    (hlog : σ.session.log <+: s.log) : Tidy { σ with session := s } where
  settled := hs
  slot_id := h.slot_id
  reserved name hw := (hreserved _).trans (h.reserved name hw)
  keyed name hw := hlog.subset (h.keyed name hw)
  waiting_inj := h.waiting_inj

end CompileState

theorem lookup_cons_ite {α : Type} {entries : List (String × α)} {key name : String} {value : α} :
    List.lookup name ((key, value) :: entries) =
      if name = key then some value else entries.lookup name := by
  by_cases h : name = key
  · simp [h]
  · rw [List.lookup_cons, beq_false_of_ne h, if_neg h]

theorem lookup_filter_ne {α : Type} (l : List (String × α)) (name n : String) :
    (l.filter (·.1 ≠ name)).lookup n = if n = name then none else l.lookup n := by
  induction l with
  | nil => simp
  | cons p l ih =>
    obtain ⟨key, a⟩ := p
    by_cases hkey : key = name
    · simp only [hkey, ne_eq, not_true_eq_false, decide_false, Bool.false_eq_true,
        not_false_eq_true, List.filter_cons_of_neg, ih]
      by_cases hn : n = name
      · simp [hn]
      · simp [hn, lookup_cons_ite]
    · by_cases hn : n = key
      · subst hn
        simp [hkey]
      · simpa [hkey, hn, lookup_cons_ite] using ih

namespace Act

/-- What holds after an act that has not failed. -/
structure Ran (a : Act) (σ σ' : CompileState) : Prop where
  tidy : σ'.Tidy
  log : σ.session.log <+: σ'.session.log
  keyed (canonical : String) : a.canonical? = some canonical → .keyed canonical ∈ σ'.session.log

/-- An act does what its view says, and leaves a tidy state even if it fails. -/
def Does (a : Act) (σ : CompileState) : Prop :=
  (∃ (v : View) (σ' : CompileState),
    σ.view.step a = some v ∧ a.run σ = .ok () σ' ∧ σ'.view = v ∧ a.Ran σ σ') ∨
  (σ.view.step a = none ∧ ∃ (e : SchemaError) (σ' : CompileState),
    a.run σ = .error e σ' ∧ σ'.Tidy ∧ σ.session.log <+: σ'.session.log)

theorem keyed_mem_notes {f : Fragment} {canonical : String} (h : f.canonical? = some canonical) :
    .keyed canonical ∈ f.notes := by
  simp [Fragment.notes, h]

theorem fragment_does (f : Fragment) {σ : CompileState} (h : σ.Tidy) : (fragment f).Does σ := by
  have hrun (handle : RuleHandle) (s : Session) (hb : f.build σ.session = .ok handle s) :
      (fragment f).run σ = .ok () { σ with session := s } :=
    bind_of_ok (liftBuild_ok hb)
  rcases h.settled.fragments f with hf | hu
  · have hd := (h.settled.holds_iff f).1 hf
    have hsome : σ.view.rule? f.handle.id ≠ none := by
      rw [h.settled.wellFormed.defined_eq_isSome] at hd
      exact Option.isSome_iff_ne_none.1 hd
    refine .inl ⟨_, _, if_neg fun hc => hsome hc.2, hrun _ _ (Fragment.build_of_holds hd), ?_, ?_⟩
    · have hgains := hf.gains h.settled.wellFormed
      exact View.ext (funext hgains.rule?_eq) rfl rfl
    · refine ⟨h.with_session h.settled (fun _ => rfl) (List.prefix_append _ _), List.prefix_append _ _,
        fun c hc => List.mem_append_right _ (keyed_mem_notes hc)⟩
  · have hnone : σ.view.rule? f.handle.id = none :=
      h.settled.wellFormed.rule?_eq_none_iff.2 (RuleTable.taken_eq_false_iff.1 hu.decl_free).1
    rcases Fragment.build_of_untouched h.settled hu with ⟨hp, t, hb, hs, hgains⟩ |
      ⟨hp, t, hb, hs, hgains⟩
    · refine .inl ⟨_, _, if_neg fun hc => hp hc.1, hrun _ _ hb, ?_, ?_⟩
      · exact View.ext (funext hgains.rule?_eq) (funext hgains.reserved) rfl
      · refine ⟨h.with_session hs hgains.reserved (List.prefix_append _ _), List.prefix_append _ _,
          fun c hc => List.mem_append_right _ (List.mem_append_left _ (keyed_mem_notes hc))⟩
    · exact .inr ⟨if_pos ⟨hp, hnone⟩, _, _, bind_of_error (liftBuild_error hb),
        h.with_session hs hgains.reserved (List.prefix_append _ _), List.prefix_append _ _⟩

section DeclareForward

variable {name : String} {σ : CompileState}

private theorem declareForward_keyed (name : String) (σ : CompileState) :
    liftBuild (keyedStem "__bjr_" name) σ = .ok ("__bjr_" ++ memoKey name)
      { σ with session := σ.session.noting [.keyed name] } :=
  liftBuild_ok (keyedStem_eq "__bjr_" name σ.session)

theorem declareForward_of_defined (hwf : σ.table.WellFormed)
    (hd : σ.table.defined (forwardId name) = true) :
    CompileSite.declareForward name σ =
      .ok ⟨forwardId name⟩ { σ with session := σ.session.noting [.keyed name] } := by
  obtain ⟨r, hrule, hid⟩ := hwf.rule_eq_ok hd
  have hlookup : lookup (forwardId name) (σ.session.noting [.keyed name]) =
      .ok r.handle (σ.session.noting [.keyed name]) := by
    rw [lookup, get_bind]
    simp only [Session.table_noting, show σ.session.table.rule _ = _ from hrule]
    rfl
  rw [CompileSite.declareForward, bind_of_ok (declareForward_keyed name σ), get_bind]
  refine (congrFun (if_pos hd) _).trans ((liftBuild_ok hlookup).trans ?_)
  rw [Rule.handle, hid]

theorem declareForward_of_reserved (hd : σ.table.defined (forwardId name) = false)
    (hr : σ.table.reserved.contains (forwardId name) = true) :
    CompileSite.declareForward name σ = .error (.rule (.redefined (forwardId name)))
      { σ with session := σ.session.noting [.keyed name] } := by
  have htaken : σ.table.taken (forwardId name) = true := by simp [RuleTable.taken, hr]
  have herror := RuleTable.reserve_eq_error htaken
  rw [CompileSite.declareForward, bind_of_ok (declareForward_keyed name σ), get_bind]
  refine (congrFun (if_neg (Bool.eq_false_iff.1 hd)) _).trans ?_
  exact bind_of_error (liftBuild_error (bind_of_error (edit_error herror)))

theorem declareForward_of_free (hfree : σ.table.taken (forwardId name) = false) :
    CompileSite.declareForward name σ = .ok ⟨forwardId name⟩
      { session := { σ.session with table := σ.table.claim (forwardId name) }.noting
          ([Event.keyed name] ++ [Event.warned (.forwardDeclared name ⟨forwardId name⟩)])
        pending := (name, ⟨forwardId name⟩) :: σ.pending } := by
  have hd := (RuleTable.taken_eq_false_iff.1 hfree).1
  have hreserve : Scope.reserveNamed ⟨"__bjr_" ++ memoKey name⟩ "decl"
      (σ.session.noting [.keyed name]) = .ok ⟨forwardId name⟩
        ({ σ.session with table := σ.table.claim (forwardId name) }.noting [.keyed name]) :=
    bind_of_ok (edit_ok (RuleTable.reserve_eq_ok hfree))
  rw [CompileSite.declareForward, bind_of_ok (declareForward_keyed name σ), get_bind]
  refine (congrFun (if_neg (Bool.eq_false_iff.1 hd)) _).trans ?_
  rw [← Session.noting_noting]
  exact bind_of_ok (liftBuild_ok (σ := { σ with session := σ.session.noting [.keyed name] })
    hreserve)

end DeclareForward

theorem run_forward_of_waiting {name : String} {σ : CompileState}
    (hw : (σ.pending.lookup name).isSome) : (forward name).run σ = .ok () σ := by
  obtain ⟨slot, hw⟩ := Option.isSome_iff_exists.1 hw
  rw [run, get_bind]
  simp [hw, pure, EStateM.pure]

theorem run_forward_of_not_waiting {name : String} {σ : CompileState}
    (hw : σ.pending.lookup name = none) : (forward name).run σ =
      (CompileSite.declareForward name >>= fun _ => pure ()) σ := by
  rw [run, get_bind]
  simp only [hw]

/-- A state in which a free forward rule has been reserved is as tidy as it was. -/
private theorem tidy_of_await {name : String} {σ : CompileState} {s : Session} (h : σ.Tidy)
    (hfree : σ.table.taken (forwardId name) = false) (ht : s.table = σ.table.claim (forwardId name))
    (hlog : σ.session.log <+: s.log) (hkeyed : .keyed name ∈ s.log) :
    CompileState.Tidy ⟨s, (name, ⟨forwardId name⟩) :: σ.pending⟩ := by
  obtain ⟨hd, hr⟩ := RuleTable.taken_eq_false_iff.1 hfree
  have hlookup (n : String) : ((name, (⟨forwardId name⟩ : Reservation)) :: σ.pending).lookup n =
      if n = name then some ⟨forwardId name⟩ else σ.pending.lookup n := lookup_cons_ite
  have hother (n : String) (hw : (σ.pending.lookup n).isSome) : forwardId n ≠ forwardId name := by
    intro he
    have hres := h.reserved n hw
    rw [he, hr] at hres
    cases hres
  have hcases (n : String)
      (hw : (((name, (⟨forwardId name⟩ : Reservation)) :: σ.pending).lookup n).isSome) :
      n = name ∨ (σ.pending.lookup n).isSome := by
    rw [hlookup] at hw
    split at hw
    · exact .inl ‹_›
    · exact .inr hw
  refine ⟨?_, fun n slot hslot => ?_, fun n hw => ?_, fun n hw => ?_, fun n n' hw hw' he => ?_⟩
  · rw [CompileState.table, ht]
    exact h.settled.claim_forward hd
  · rw [hlookup] at hslot
    split at hslot
    · cases hslot
      exact congrArg forwardId (Eq.symm ‹_›)
    · exact h.slot_id n slot hslot
  · rw [CompileState.table, ht, RuleTable.reserved_claim]
    rcases hcases n hw with rfl | hw
    · simp
    · rw [h.reserved n hw, Bool.or_true]
  · rcases hcases n hw with rfl | hw
    · exact hkeyed
    · exact hlog.subset (h.keyed n hw)
  · rcases hcases n hw with hn | hold <;> rcases hcases n' hw' with hn' | hold'
    · rw [hn, hn']
    · exact absurd (hn ▸ he).symm (hother n' hold')
    · exact absurd (hn' ▸ he) (hother n hold)
    · exact h.waiting_inj n n' hold hold' he

theorem forward_does (name : String) {σ : CompileState} (h : σ.Tidy) : (forward name).Does σ := by
  have hdefined := h.settled.wellFormed.defined_eq_isSome (forwardId name)
  have hlog : σ.session.log <+: (σ.session.noting [.keyed name]).log := List.prefix_append _ _
  have hnoted := h.with_session (s := σ.session.noting [.keyed name]) h.settled (fun _ => rfl) hlog
  cases hw : σ.pending.lookup name with
  | some slot =>
    have hw' : (σ.pending.lookup name).isSome := by simp [hw]
    refine .inl ⟨σ.view, σ, if_pos (.inl hw'), run_forward_of_waiting hw', rfl, h,
      List.prefix_refl _, ?_⟩
    rintro c ⟨⟩
    exact h.keyed name hw'
  | none =>
    have hnot : σ.view.waiting name = false := by simp [CompileState.view, hw]
    have hrun := run_forward_of_not_waiting hw
    by_cases hd : σ.table.defined (forwardId name)
    · refine .inl ⟨σ.view, { σ with session := σ.session.noting [.keyed name] },
        if_pos (.inr (hdefined ▸ hd)), ?_, rfl, hnoted, hlog, ?_⟩
      · exact hrun.trans (bind_of_ok (declareForward_of_defined h.settled.wellFormed hd))
      · rintro c ⟨⟩
        exact List.mem_append_right _ List.mem_cons_self
    · have hstep : ¬(σ.view.waiting name = true ∨ (σ.view.rule? (forwardId name)).isSome) := by
        rw [hnot]
        rintro (hc | hc)
        · cases hc
        · exact hd (hdefined.trans hc)
      have hd' : σ.table.defined (forwardId name) = false := by simpa using hd
      by_cases hr : σ.table.reserved.contains (forwardId name)
      · exact .inr ⟨(if_neg hstep).trans (if_pos hr), _, _,
          hrun.trans (bind_of_error (declareForward_of_reserved hd' hr)), hnoted, hlog⟩
      · have hfree : σ.table.taken (forwardId name) = false :=
          RuleTable.taken_eq_false_iff.2 ⟨hd', Bool.eq_false_iff.2 hr⟩
        have hkeyed : .keyed name ∈ σ.session.log ++
            ([.keyed name] ++ [.warned (.forwardDeclared name ⟨forwardId name⟩)]) := by simp
        refine .inl ⟨σ.view.await name, _, (if_neg hstep).trans (if_neg hr),
          hrun.trans (bind_of_ok (declareForward_of_free hfree)), ?_,
          tidy_of_await h hfree rfl (List.prefix_append _ _) hkeyed, List.prefix_append _ _, ?_⟩
        · refine View.ext rfl (funext fun id => RuleTable.reserved_claim _ _ _) (funext fun n => ?_)
          by_cases hn : n = name
          · simp [CompileState.view, View.await, hn]
          · simp [CompileState.view, View.await, lookup_cons_ite, hn]
        · rintro c ⟨⟩
          exact hkeyed

theorem RuleHandle.text_ne_empty (rule : RuleHandle) : rule.text ≠ "" := by
  simp [RuleHandle.text]

private theorem tidy_of_settle {name : String} {rule : RuleHandle} {σ : CompileState}
    (h : σ.Tidy) (hw : (σ.pending.lookup name).isSome) :
    CompileState.Tidy ⟨{ σ.session with table := σ.table.fulfil (forwardId name) rule.text },
      σ.pending.filter (·.1 ≠ name)⟩ := by
  have hcases (n : String) (hn : ((σ.pending.filter (·.1 ≠ name)).lookup n).isSome) :
      n ≠ name ∧ (σ.pending.lookup n).isSome := by
    rw [lookup_filter_ne] at hn
    split at hn
    · cases hn
    · exact ⟨‹_›, hn⟩
  refine ⟨h.settled.fulfil_forward (h.defined_eq_false hw), fun n slot hslot => ?_, fun n hn => ?_,
    fun n hn => h.keyed n (hcases n hn).2, fun n n' hn hn' he =>
      h.waiting_inj n n' (hcases n hn).2 (hcases n' hn').2 he⟩
  · rw [lookup_filter_ne] at hslot
    split at hslot
    · cases hslot
    · exact h.slot_id n slot hslot
  · obtain ⟨hne, hold⟩ := hcases n hn
    rw [CompileState.table, RuleTable.reserved_fulfil, h.reserved n hold, Bool.and_true,
      decide_eq_true_eq]
    exact fun he => hne (h.waiting_inj n name hold hw he)

/-- The forward rule of a finished record that waits for it is committed. -/
theorem run_close_of_waiting {name : String} (rule : RuleHandle) {σ : CompileState}
    {slot : Reservation} (hw : σ.pending.lookup name = some slot)
    (hid : slot.id = forwardId name) (hr : σ.table.reserved.contains (forwardId name) = true) :
    (close name rule).run σ = .ok ()
      ⟨{ σ.session with table := σ.table.fulfil (forwardId name) rule.text },
        σ.pending.filter (·.1 ≠ name)⟩ := by
  have hcommit : commit slot rule.text σ.session = .ok slot.handle
      { σ.session with table := σ.table.fulfil (forwardId name) rule.text } := by
    refine commit_ok ?_
    rw [hid]
    exact RuleTable.commit_eq_ok hr (RuleHandle.text_ne_empty rule)
  rw [run, CompileSite.close, get_bind]
  simp only [hw]
  exact bind_of_ok (liftBuild_ok (σ := { σ with pending := σ.pending.filter (·.1 ≠ name) })
    hcommit)

theorem close_does (name : String) (rule : RuleHandle) {σ : CompileState} (h : σ.Tidy) :
    (close name rule).Does σ := by
  cases hw : σ.pending.lookup name with
  | none =>
    have hnot : ¬σ.view.waiting name = true := by simp [CompileState.view, hw]
    refine .inl ⟨σ.view, σ, if_neg hnot, ?_, rfl, h, List.prefix_refl _, fun c hc => by cases hc⟩
    rw [run, CompileSite.close, get_bind]
    simp only [hw]
    rfl
  | some slot =>
    have hw' : (σ.pending.lookup name).isSome := by simp [hw]
    have hrun := run_close_of_waiting rule hw (h.slot_id name slot hw) (h.reserved name hw')
    refine .inl ⟨σ.view.settle name rule, ⟨{ σ.session with
      table := σ.table.fulfil (forwardId name) rule.text }, σ.pending.filter (·.1 ≠ name)⟩,
      if_pos hw', hrun, ?_, tidy_of_settle h hw', List.prefix_refl _, fun c hc => by cases hc⟩
    refine View.ext (funext h.settled.wellFormed.rule?_fulfil)
      (funext fun id => RuleTable.reserved_fulfil _) (funext fun n => ?_)
    refine (congrArg Option.isSome (lookup_filter_ne σ.pending name n)).trans ?_
    by_cases hn : n = name <;> simp [CompileState.view, View.settle, hn]

/-- Every act does to the state what it does to the view. -/
theorem does (a : Act) {σ : CompileState} (h : σ.Tidy) : a.Does σ := by
  cases a with
  | fragment f => exact fragment_does f h
  | forward name => exact forward_does name h
  | close name rule => exact close_does name rule h

end Act

end RecordGrammar
