import RecordGrammar.Proofs.CompilationPrograms
import RecordGrammar.Proofs.CompileActs

/-! # The acts that the compilation of a schema consists of

Which acts a compilation goes through is known from the schema alone, without looking at the table,
as far as no record has a factory attached to it. -/

namespace RecordGrammar

/-- Acts to go through, and how they end if none of them fails. -/
structure Plan (α : Type) where
  acts : List Act
  outcome : Except SchemaError α

namespace Plan

instance : Monad Plan where
  pure a := ⟨[], .ok a⟩
  bind p f := match p.outcome with
    | .ok a => ⟨p.acts ++ (f a).acts, (f a).outcome⟩
    | .error e => ⟨p.acts, .error e⟩

section Laws

variable {α β : Type}

@[simp] theorem pure_acts (a : α) : (pure a : Plan α).acts = [] := rfl

@[simp] theorem pure_outcome (a : α) : (pure a : Plan α).outcome = .ok a := rfl

theorem bind_of_outcome_ok {p : Plan α} {f : α → Plan β} {a : α} (h : p.outcome = .ok a) :
    p >>= f = ⟨p.acts ++ (f a).acts, (f a).outcome⟩ := by
  simp [bind, h]

theorem bind_of_outcome_error {p : Plan α} {f : α → Plan β} {e : SchemaError}
    (h : p.outcome = .error e) : p >>= f = ⟨p.acts, .error e⟩ := by
  simp [bind, h]

/-- What a plan that goes through is put together from. -/
theorem bind_outcome_ok_iff {p : Plan α} {f : α → Plan β} {b : β} :
    (p >>= f).outcome = .ok b ↔ ∃ a, p.outcome = .ok a ∧ (f a).outcome = .ok b := by
  cases h : p.outcome with
  | ok a => simp [bind_of_outcome_ok h]
  | error e => simp [bind_of_outcome_error h]

private theorem id_map_plan (p : Plan α) : id <$> p = p := by
  rcases p with ⟨acts, _ | a⟩ <;> simp [Functor.map]

private theorem bind_assoc_plan {γ : Type} (p : Plan α) (f : α → Plan β) (g : β → Plan γ) :
    p >>= f >>= g = p >>= fun a => f a >>= g := by
  cases h : p.outcome with
  | error e => simp only [bind, h]
  | ok a =>
    rw [bind_of_outcome_ok h, bind_of_outcome_ok h]
    cases h' : (f a).outcome with
    | error e => simp only [bind, h']
    | ok b => simp only [bind, h', List.append_assoc]

instance : LawfulMonad Plan :=
  LawfulMonad.mk' Plan id_map_plan (fun a f => by simp [bind_of_outcome_ok (pure_outcome a)])
    bind_assoc_plan

end Laws

def ofExcept {α : Type} (result : Except SchemaError α) : Plan α := ⟨[], result⟩

def fragment (f : Fragment) : Plan RuleHandle := ⟨[.fragment f], .ok f.handle⟩

/-- A record, which is built unless it is under construction already. -/
def record (site : CompileSite) (name : String)
    (build : CompileSite → RecordSchema → Plan RuleHandle) : Plan RuleHandle :=
  if name ∈ site.stack then
    if site.options.allowRecursion then ⟨[.forward name], .ok ⟨forwardId name⟩⟩
    else ofExcept (.error (.cycle (site.stack.dropWhile (· ≠ name) ++ [name])))
  else do
    let definition ← ofExcept (site.registry.record name)
    let rule ← build { site with stack := site.stack ++ [name] } definition
    ⟨[.close name rule], .ok rule⟩

def field (fieldType : CompileSite → FieldType → Plan RuleHandle) (site : CompileSite)
    (field : Field) : Plan RuleHandle := do
  ofExcept field.checkOverride
  match field.format with
  | some (.time mask) => do
    let inner ← fragment (.maskedTime mask)
    fragment (.inQuotes inner)
  | some .email => do
    let inner ← fragment .mailAddress
    fragment (.inQuotes inner)
  | none => fieldType site field.type

def fields (fieldType : CompileSite → FieldType → Plan RuleHandle) (site : CompileSite)
    (fields : List Field) : Plan (List (String × RuleHandle)) :=
  fields.mapM fun f => do
    let rule ← field fieldType site f
    return (f.name, rule)

def objectBody (fieldType : CompileSite → FieldType → Plan RuleHandle) (site : CompileSite)
    (definition : RecordSchema) : Plan RuleHandle := do
  let fields ← fields fieldType site definition.visibleFields
  fragment (.object fields)

def object (fieldType : CompileSite → FieldType → Plan RuleHandle) (site : CompileSite)
    (name : String) : Plan RuleHandle :=
  record site name (objectBody fieldType)

def typeLevel (here : CompileSite → FieldType → Plan RuleHandle) (site : CompileSite)
    (type : FieldType) : Plan RuleHandle :=
  match type with
  | .int | .float => fragment .number
  | .string => fragment .string
  | .bool => fragment .boolean
  | .variadic => ofExcept (.error (.notARecord type))
  | .unknownList => ofExcept (.error .unresolvedListElement)
  | .list element => do
    let inner ← here site element
    fragment (.array inner)
  | .tuple items => do
    ofExcept (checkTuple items)
    let rules ← items.mapM (here site)
    fragment (.tuple rules)
  | .literal value => fragment (.enumeration [value])
  | .union members => do
    let literals ← ofExcept (unionLiterals members)
    fragment (.enumeration literals)
  | .record name => object here site name

def type : Nat → CompileSite → FieldType → Plan RuleHandle
  | 0, site, _ => ofExcept (.error (.depthExceeded site.options.maxDepth))
  | left + 1, site, ty => typeLevel (type left) site ty

end Plan

/-- The plan of the compilation of a record. -/
def schemaPlan (registry : Registry) (root : String) (options : SchemaOptions) :
    Plan RuleHandle := do
  let _ ← Plan.ofExcept (registry.record root)
  Plan.object (Plan.type options.maxDepth) ⟨registry, options, []⟩ root

/-- Goes through acts one after the other. -/
def runActs : List Act → Compile Unit
  | [] => return ()
  | a :: rest => do
    a.run
    runActs rest

theorem runActs_append (as bs : List Act) :
    runActs (as ++ bs) = (runActs as >>= fun _ => runActs bs) := by
  induction as with
  | nil => simp [runActs]
  | cons a as ih => simp [runActs, ih]

/-- The acts of a plan on a state, and then its outcome. -/
def Plan.perform {α : Type} (p : Plan α) : Compile α := do
  runActs p.acts
  require p.outcome

def View.run (v : View) (acts : List Act) : Option View := acts.foldlM View.step v

@[simp] theorem View.run_nil (v : View) : v.run [] = some v := rfl

@[simp] theorem View.run_cons (v : View) (a : Act) (acts : List Act) :
    v.run (a :: acts) = (v.step a).bind (·.run acts) := rfl

/-- What holds after acts none of which has failed. -/
structure RanActs (acts : List Act) (σ σ' : CompileState) : Prop where
  tidy : σ'.Tidy
  log : σ.session.log <+: σ'.session.log
  keyed (a : Act) : a ∈ acts →
    ∀ canonical, a.canonical? = some canonical → .keyed canonical ∈ σ'.session.log

/-- Acts do to the state what they do to the view, and leave a tidy state even if one of them
fails. -/
theorem runActs_does (acts : List Act) {σ : CompileState} (h : σ.Tidy) :
    (∃ (v : View) (σ' : CompileState), σ.view.run acts = some v ∧ runActs acts σ = .ok () σ' ∧
      σ'.view = v ∧ RanActs acts σ σ') ∨
    (σ.view.run acts = none ∧ ∃ (e : SchemaError) (σ' : CompileState),
      runActs acts σ = .error e σ' ∧ σ'.Tidy ∧ σ.session.log <+: σ'.session.log) := by
  induction acts generalizing σ with
  | nil => exact .inl ⟨σ.view, σ, rfl, rfl, rfl, h, List.prefix_refl _, by simp⟩
  | cons a acts ih =>
    rcases a.does h with ⟨v, σ', hstep, hrun, rfl, hran⟩ | ⟨hstep, e, σ', hrun, htidy, hlog⟩
    · rcases ih hran.tidy with ⟨v, σ'', hsteps, hruns, hv, hrans⟩ |
        ⟨hsteps, e, σ'', hruns, htidy, hlog⟩
      · refine .inl ⟨v, σ'', by simp [hstep, hsteps], by rw [runActs, bind_of_ok hrun, hruns], hv,
          hrans.tidy, hran.log.trans hrans.log, fun b hb c hc => ?_⟩
        rcases List.mem_cons.1 hb with rfl | hb
        · exact hrans.log.subset (hran.keyed c hc)
        · exact hrans.keyed b hb c hc
      · exact .inr ⟨by simp [hstep, hsteps], e, σ'', by rw [runActs, bind_of_ok hrun, hruns], htidy,
          hran.log.trans hlog⟩
    · exact .inr ⟨by simp [hstep], e, σ', by rw [runActs, bind_of_error hrun], htidy, hlog⟩

/-- What going through acts needs of a state, whatever has become of the table otherwise. -/
structure CompileState.Sane (σ : CompileState) : Prop where
  wellFormed : σ.table.WellFormed
  slot_id (name : String) (slot : Reservation) :
    σ.pending.lookup name = some slot → slot.id = forwardId name

theorem CompileState.Tidy.sane {σ : CompileState} (h : σ.Tidy) : σ.Sane :=
  ⟨h.settled.wellFormed, h.slot_id⟩

theorem CompileState.sane_of_wellFormed {s : Session} (h : s.table.WellFormed) :
    CompileState.Sane ⟨s, []⟩ := ⟨h, by simp⟩

/-- The forward rule of a record waits for it or is committed. -/
def CompileState.Forwards (σ : CompileState) (name : String) : Prop :=
  (σ.pending.lookup name).isSome ∨ σ.table.defined (forwardId name) = true

theorem Fragment.build_program (f : Fragment) : TableProgram f.build := by
  cases f with
  | number => exact JsonFragment.number_program
  | string => exact JsonFragment.string_program
  | boolean => exact JsonFragment.boolean_program
  | array inner => exact JsonFragment.array_program inner
  | tuple members => exact JsonFragment.tuple_program members
  | enumeration literals => exact JsonFragment.literals_program literals
  | object fields => exact JsonFragment.object_program fields
  | inQuotes inner => exact JsonFragment.inQuotes_program inner
  | maskedTime mask => exact FormatFragment.maskedTime_program mask
  | mailAddress => exact FormatFragment.mailAddress_program

/-- The build of a fragment that goes through has made its rule a committed one. -/
theorem Fragment.build_eq_ok {f : Fragment} {s s' : Session} {r : RuleHandle}
    (h : f.build s = .ok r s') : r = f.handle ∧ s'.table.defined f.handle.id = true := by
  obtain ⟨body, hbody⟩ := f.builtBy
  rw [hbody.build_eq] at h
  exact memoized_eq_ok h

namespace Act

theorem run_program (a : Act) : CompileProgram a.run := by
  cases a with
  | fragment f => exact .map (.step (.build f.build_program)) _
  | forward name =>
    refine .bind (.step .look) fun s => ?_
    cases s.pending.lookup name with
    | some slot => exact .pure _
    | none => exact .map (CompileProgram.declareForward name) _
  | close name rule => exact CompileProgram.close name rule

/-! What each act has done if it has gone through, in any table. -/

section GoneThrough

variable {σ σ' : CompileState} {name : String}

theorem run_fragment_eq_ok {f : Fragment} (hrun : (fragment f).run σ = .ok () σ') :
    σ'.pending = σ.pending ∧ σ'.table.defined f.handle.id = true := by
  obtain ⟨r, u, hlift, hpure⟩ := bind_eq_ok hrun
  cases hpure
  obtain ⟨s, hbuild, rfl⟩ := liftBuild_eq_ok hlift
  exact ⟨rfl, (Fragment.build_eq_ok hbuild).2⟩

theorem run_forward_eq_ok (h : σ.Sane) (hrun : (forward name).run σ = .ok () σ') :
    (σ'.pending = σ.pending ∧
      ((σ'.pending.lookup name).isSome ∨ σ'.table.defined (forwardId name) = true)) ∨
    σ'.pending = (name, ⟨forwardId name⟩) :: σ.pending := by
  cases hw : σ.pending.lookup name with
  | some slot =>
    have hwaiting : (σ.pending.lookup name).isSome := by simp [hw]
    rw [run_forward_of_waiting hwaiting] at hrun
    cases hrun
    exact .inl ⟨rfl, .inl hwaiting⟩
  | none =>
    rw [run_forward_of_not_waiting hw] at hrun
    by_cases hd : σ.table.defined (forwardId name) = true
    · rw [bind_of_ok (declareForward_of_defined h.wellFormed hd)] at hrun
      cases hrun
      exact .inl ⟨rfl, .inr hd⟩
    · have hd' := Bool.eq_false_iff.2 hd
      by_cases hr : σ.table.reserved.contains (forwardId name) = true
      · rw [bind_of_error (declareForward_of_reserved hd' hr)] at hrun
        cases hrun
      · have hfree := RuleTable.taken_eq_false_iff.2 ⟨hd', Bool.eq_false_iff.2 hr⟩
        rw [bind_of_ok (declareForward_of_free hfree)] at hrun
        cases hrun
        exact .inr rfl

theorem run_close_of_not_waiting {rule : RuleHandle} (hw : σ.pending.lookup name = none) :
    (close name rule).run σ = .ok () σ := by
  rw [run, CompileSite.close, get_bind]
  simp only [hw]
  rfl

theorem run_close_eq_ok {rule : RuleHandle} (h : σ.Sane)
    (hrun : (close name rule).run σ = .ok () σ') :
    (σ.pending.lookup name = none ∧ σ' = σ) ∨
    (σ'.pending = σ.pending.filter (·.1 ≠ name) ∧ σ'.table.defined (forwardId name) = true) := by
  cases hw : σ.pending.lookup name with
  | none =>
    rw [run_close_of_not_waiting hw] at hrun
    cases hrun
    exact .inl ⟨rfl, rfl⟩
  | some slot =>
    rw [run, CompileSite.close, get_bind] at hrun
    simp only [hw] at hrun
    obtain ⟨_, u, hmodify, hrun⟩ := bind_eq_ok hrun
    obtain rfl : { σ with pending := σ.pending.filter (·.1 ≠ name) } = u :=
      (EStateM.Result.ok.inj hmodify).2
    obtain ⟨r, u, hlift, hpure⟩ := bind_eq_ok hrun
    cases hpure
    cases ht : σ.session.table.commit slot.id rule.text with
    | ok t =>
      have hcommit : commit slot rule.text σ.session = .ok slot.handle { σ.session with table := t } :=
        commit_ok ht
      rw [liftBuild_ok (σ := { σ with pending := σ.pending.filter (·.1 ≠ name) }) hcommit] at hlift
      cases hlift
      obtain ⟨-, -, rfl⟩ := RuleTable.eq_of_commit ht
      refine .inr ⟨rfl, ?_⟩
      rw [CompileState.table, RuleTable.defined_push, h.slot_id name slot hw]
      simp
    | error e =>
      have hcommit : commit slot rule.text σ.session = .error e σ.session :=
        bind_of_error (edit_error ht)
      rw [liftBuild_error (σ := { σ with pending := σ.pending.filter (·.1 ≠ name) }) hcommit] at hlift
      cases hlift

theorem run_grows {a : Act} (hrun : a.run σ = .ok () σ') : σ.table.Grows σ'.table := by
  have hgrows := a.run_program.session_grows σ
  rwa [hrun] at hgrows

theorem run_sane {a : Act} (h : σ.Sane) (hrun : a.run σ = .ok () σ') : σ'.Sane := by
  refine ⟨(run_grows hrun).wellFormed h.wellFormed, fun n slot hslot => ?_⟩
  cases a with
  | fragment f =>
    rw [(run_fragment_eq_ok hrun).1] at hslot
    exact h.slot_id n slot hslot
  | forward name =>
    rcases run_forward_eq_ok h hrun with ⟨hpending, -⟩ | hpending
    · rw [hpending] at hslot
      exact h.slot_id n slot hslot
    · rw [hpending, lookup_cons_ite] at hslot
      split at hslot
      next hn =>
        cases hslot
        rw [hn]
      · exact h.slot_id n slot hslot
  | close name rule =>
    rcases run_close_eq_ok h hrun with ⟨-, rfl⟩ | ⟨hpending, -⟩
    · exact h.slot_id n slot hslot
    · rw [hpending, lookup_filter_ne] at hslot
      split at hslot
      · cases hslot
      · exact h.slot_id n slot hslot

theorem run_forwards {a : Act} (h : σ.Sane) (hrun : a.run σ = .ok () σ')
    (hname : σ.Forwards name) : σ'.Forwards name := by
  rcases hname with hw | hd
  · cases a with
    | fragment f =>
      rw [CompileState.Forwards, (run_fragment_eq_ok hrun).1]
      exact .inl hw
    | forward n =>
      rcases run_forward_eq_ok h hrun with ⟨hpending, -⟩ | hpending
      · rw [CompileState.Forwards, hpending]
        exact .inl hw
      · rw [CompileState.Forwards, hpending, lookup_cons_ite]
        split
        · exact .inl rfl
        · exact .inl hw
    | close n rule =>
      rcases run_close_eq_ok h hrun with ⟨-, rfl⟩ | ⟨hpending, hd⟩
      · exact .inl hw
      · by_cases hn : name = n
        · exact .inr (hn ▸ hd)
        · rw [CompileState.Forwards, hpending, lookup_filter_ne, if_neg hn]
          exact .inl hw
  · exact .inr ((run_grows hrun).defined h.wellFormed hd)

end GoneThrough

end Act

theorem runActs_sane {acts : List Act} {σ σ' : CompileState} (h : σ.Sane)
    (hrun : runActs acts σ = .ok () σ') : σ'.Sane := by
  induction acts generalizing σ with
  | nil =>
    cases hrun
    exact h
  | cons a acts ih =>
    obtain ⟨_, u, ha, hrest⟩ := bind_eq_ok hrun
    exact ih (Act.run_sane h ha) hrest

/-- A compiling step that goes through the acts of a plan. -/
def Follows {α : Type} (step : Compile α) (p : Plan α) : Prop :=
  ∀ σ : CompileState, σ.Sane → step σ = p.perform σ

namespace Follows

variable {α β : Type}

theorem ofExcept (result : Except SchemaError α) : Follows (require result) (.ofExcept result) :=
  fun _ _ => rfl

theorem pure (a : α) : Follows (Pure.pure a) (Pure.pure a) := fun _ _ => rfl

theorem bind {step : Compile α} {p : Plan α} {next : α → Compile β} {q : α → Plan β}
    (h : Follows step p) (hnext : ∀ a, p.outcome = .ok a → Follows (next a) (q a)) :
    Follows (step >>= next) (p >>= q) := by
  intro σ hσ
  have hstep := h σ hσ
  cases hacts : runActs p.acts σ with
  | error e σ' =>
    rw [Plan.perform, bind_of_error hacts] at hstep
    rw [bind_of_error hstep]
    cases hp : p.outcome with
    | error e' => rw [Plan.bind_of_outcome_error hp, Plan.perform, bind_of_error hacts]
    | ok a =>
      rw [Plan.bind_of_outcome_ok hp, Plan.perform, runActs_append, bind_assoc, bind_of_error hacts]
  | ok _ σ' =>
    rw [Plan.perform, bind_of_ok hacts] at hstep
    cases hp : p.outcome with
    | error e =>
      rw [hp] at hstep
      rw [bind_of_error (hstep.trans rfl), Plan.bind_of_outcome_error hp, Plan.perform,
        bind_of_ok hacts]
      rfl
    | ok a =>
      rw [hp] at hstep
      rw [bind_of_ok (hstep.trans rfl), Plan.bind_of_outcome_ok hp, Plan.perform, runActs_append,
        bind_assoc, bind_of_ok hacts]
      exact hnext a hp σ' (runActs_sane hσ hacts)

theorem mapM {step : α → Compile β} {p : α → Plan β} {as : List α}
    (h : ∀ a ∈ as, Follows (step a) (p a)) : Follows (as.mapM step) (as.mapM p) :=
  mapM_related (R := fun _ => Follows) pure (fun _ _ _ _ _ h hnext => h.bind fun a _ => hnext a) h

theorem fragment (f : Fragment) : Follows (liftBuild f.build) (Plan.fragment f) := by
  intro σ hσ
  have hrun (result : EStateM.Result SchemaError CompileState RuleHandle)
      (hb : liftBuild f.build σ = result) (handle : ∀ r σ', result = .ok r σ' → r = f.handle) :
      result = (Plan.fragment f).perform σ := by
    cases result with
    | ok r σ' =>
      rw [handle r σ' rfl]
      simp only [Plan.perform, Plan.fragment, runActs, Act.run, bind_assoc, bind_of_ok hb]
      rfl
    | error e σ' =>
      simp only [Plan.perform, Plan.fragment, runActs, Act.run, bind_assoc, bind_of_error hb]
  refine hrun _ rfl fun r σ' hr => ?_
  obtain ⟨s, hbuild, -⟩ := liftBuild_eq_ok hr
  exact (Fragment.build_eq_ok hbuild).1

theorem liftBuild_bind (build : Build α) (next : α → Build β) :
    liftBuild (build >>= next) = (liftBuild build >>= fun a => liftBuild (next a)) := by
  funext σ
  simp only [liftBuild, Bind.bind, EStateM.bind]
  cases build σ.session <;> rfl

theorem quoted (inner : Fragment) :
    Follows (liftBuild (do JsonFragment.inQuotes (← inner.build)))
      (do Plan.fragment (.inQuotes (← Plan.fragment inner))) := by
  rw [liftBuild_bind]
  exact bind (fragment inner) fun r _ => fragment (.inQuotes r)

theorem declareForward {name : String} {σ : CompileState} (h : σ.Sane)
    (hw : σ.pending.lookup name = none) : CompileSite.declareForward name σ =
      (Plan.mk [.forward name] (.ok (RuleHandle.mk (forwardId name)))).perform σ := by
  have hperform (next : Unit → Compile RuleHandle) :
      ((Act.forward name).run >>= next) σ =
        (CompileSite.declareForward name >>= fun _ => next ()) σ := by
    have hrun := Act.run_forward_of_not_waiting hw
    cases hd : CompileSite.declareForward name σ with
    | ok r σ' =>
      rw [bind_of_ok hd] at hrun
      rw [bind_of_ok (hrun.trans rfl), bind_of_ok hd]
    | error e σ' =>
      rw [bind_of_error hd] at hrun
      rw [bind_of_error hrun, bind_of_error hd]
  simp only [Plan.perform, runActs, bind_assoc, hperform]
  by_cases hd : σ.table.defined (forwardId name)
  · have hok := Act.declareForward_of_defined h.wellFormed hd
    rw [bind_of_ok hok, hok]
    rfl
  · have hd' := Bool.eq_false_iff.2 hd
    by_cases hr : σ.table.reserved.contains (forwardId name)
    · have herror := Act.declareForward_of_reserved hd' hr
      rw [bind_of_error herror, herror]
    · have hok := Act.declareForward_of_free
        (RuleTable.taken_eq_false_iff.2 ⟨hd', Bool.eq_false_iff.2 hr⟩)
      rw [bind_of_ok hok, hok]
      rfl

theorem forward {site : CompileSite} (hrecursion : site.options.allowRecursion = true)
    (name : String) :
    Follows (site.forward name) ⟨[.forward name], .ok ⟨forwardId name⟩⟩ := by
  intro σ hσ
  rw [CompileSite.forward, if_pos hrecursion, get_bind]
  cases hw : σ.pending.lookup name with
  | none => exact declareForward hσ hw
  | some slot =>
    have hwaiting : (σ.pending.lookup name).isSome := by simp [hw]
    simp only [Plan.perform, runActs, bind_assoc, bind_of_ok (Act.run_forward_of_waiting hwaiting)]
    have hslot := hσ.slot_id name slot hw
    cases slot
    cases hslot
    rfl

theorem record {site : CompileSite} {name : String}
    {build : CompileSite → RecordSchema → Compile RuleHandle}
    {p : CompileSite → RecordSchema → Plan RuleHandle}
    (h : ∀ definition, Follows (build { site with stack := site.stack ++ [name] } definition)
      (p { site with stack := site.stack ++ [name] } definition)) :
    Follows (site.record name build) (Plan.record site name p) := by
  unfold CompileSite.record Plan.record
  by_cases hstack : name ∈ site.stack
  · rw [if_pos hstack, if_pos hstack]
    by_cases hrecursion : site.options.allowRecursion = true
    · rw [if_pos hrecursion]
      exact forward hrecursion name
    · rw [if_neg hrecursion, CompileSite.forward, if_neg hrecursion]
      exact ofExcept (.error _)
  · rw [if_neg hstack, if_neg hstack]
    refine bind (ofExcept _) fun definition _ => bind (h definition) fun rule _ σ _ => ?_
    simp [Plan.perform, runActs, Act.run, require]

theorem field {fieldType : TypeCompiler} {fieldPlan : CompileSite → FieldType → Plan RuleHandle}
    {site : CompileSite} (root : String)
    (h : ∀ ty, Follows (fieldType site root ty) (fieldPlan site ty)) (f : Field) :
    Follows (RecordCompiler.field fieldType site root f) (Plan.field fieldPlan site f) := by
  unfold RecordCompiler.field Plan.field
  refine bind (ofExcept f.checkOverride) fun _ _ => ?_
  cases f.format with
  | none => exact h f.type
  | some format =>
    cases format with
    | time mask => exact quoted (.maskedTime mask)
    | email => exact quoted .mailAddress

theorem object {fieldType : TypeCompiler} {fieldPlan : CompileSite → FieldType → Plan RuleHandle}
    {site : CompileSite} (root name : String)
    (h : ∀ stack ty, Follows (fieldType { site with stack } root ty) (fieldPlan { site with stack } ty)) :
    Follows (RecordCompiler.object fieldType site root name) (Plan.object fieldPlan site name) := by
  refine record fun definition => bind (mapM fun f _ => ?_) fun fields _ => fragment (.object fields)
  exact bind (field root (h _) f) fun rule _ => pure (f.name, rule)

theorem factory?_eq {registry : Registry} (h : registry.factories = ∅) (name : String) :
    registry.factory? name = none ∨ registry.factory? name = some .json := by
  rw [Registry.factory?, h]
  cases registry.records[name]?.bind RecordSchema.factory with
  | none => exact .inl (by simp)
  | some factory => cases factory; exact .inr (by simp [BuiltinFactory.factory])

theorem recordField {levels : Levels} {here : CompileSite → FieldType → Plan RuleHandle}
    {site : CompileSite} (hfactories : site.registry.factories = ∅)
    (h : ∀ stack root ty, Follows (levels.here { site with stack } root ty) (here { site with stack } ty))
    (root name : String) :
    Follows (RecordCompiler.recordField levels site root name) (Plan.object here site name) := by
  unfold RecordCompiler.recordField
  by_cases hroot : name = root
  · simpa only [if_pos hroot] using object root name fun stack ty => h stack root ty
  · rw [if_neg hroot]
    rcases factory?_eq hfactories name with hf | hf <;> rw [hf]
    · exact object root name fun stack ty => h stack root ty
    · exact object name name fun stack ty => h stack name ty

theorem typeLevel {levels : Levels} {here : CompileSite → FieldType → Plan RuleHandle}
    {site : CompileSite} (hfactories : site.registry.factories = ∅)
    (h : ∀ stack root ty, Follows (levels.here { site with stack } root ty) (here { site with stack } ty))
    (root : String) (ty : FieldType) :
    Follows (RecordCompiler.typeLevel levels site root ty) (Plan.typeLevel here site ty) := by
  have hhere := h site.stack root
  cases ty with
  | int => exact fragment .number
  | float => exact fragment .number
  | string => exact fragment .string
  | bool => exact fragment .boolean
  | variadic => exact ofExcept (.error _)
  | unknownList => exact ofExcept (.error _)
  | list element => exact bind (hhere element) fun inner _ => fragment (.array inner)
  | tuple items =>
    exact bind (ofExcept _) fun _ _ => bind (mapM fun ty _ => hhere ty) fun rules _ =>
      fragment (.tuple rules)
  | literal value => exact fragment (.enumeration [value])
  | union members => exact bind (ofExcept _) fun literals _ => fragment (.enumeration literals)
  | record name => exact recordField hfactories h root name

/-- The compilation of a type follows its plan. -/
theorem type {site : CompileSite} (hfactories : site.registry.factories = ∅) (left : Nat)
    (stack : List String) (root : String) (ty : FieldType) :
    Follows (RecordCompiler.type left { site with stack } root ty)
      (Plan.type left { site with stack } ty) := by
  induction left generalizing stack root ty with
  | zero => exact ofExcept (.error _)
  | succ left ih =>
    rw [RecordCompiler.type_succ]
    exact @typeLevel (RecordCompiler.levels left) (Plan.type left) { site with stack } hfactories ih
      root ty

end Follows

/-- The compilation of a record without custom factories follows its plan. -/
theorem compileRecord_follows {registry : Registry} (h : registry.factories = ∅) (root : String)
    (options : SchemaOptions) :
    Follows (compileRecord registry root options) (schemaPlan registry root options) := by
  have htype := @Follows.type ⟨registry, options, []⟩ h options.maxDepth
  have hfactory : registry.factoryOrJson root = .json := by
    rcases Follows.factory?_eq h root with hf | hf <;> simp [Registry.factoryOrJson, hf]
  refine .bind (.ofExcept _) fun _ _ => ?_
  rw [hfactory]
  exact .object root root fun stack ty => htype stack root ty

end RecordGrammar
