import RecordGrammar.Proofs.CompilePlan

/-! # What factories are put together from

A factory builds rules by steps on the table, by records, and by going a level further down, each as
deep inside the others as it likes. The context that is shared along the way keeps the records under
construction and the depth; here it is written out as a state that is pushed to and popped from. -/

namespace RecordGrammar

/-- The ids that forward rules have to themselves. -/
def InForwardSpace (id : String) : Prop := "__bjr_".toList <+: id.toList

/-- Operations on a table that keep clear of the ids of forward rules, whatever the table is. -/
structure Foreign {α : Type} (m : Build α) : Prop where
  program : TableProgram m
  defined (s : Session) (id : String) : InForwardSpace id →
    (finalState (m s)).table.defined id = s.table.defined id
  reserved (s : Session) (id : String) : InForwardSpace id →
    (finalState (m s)).table.reserved.contains id = s.table.reserved.contains id

/-- What the factories of a compilation do, as a tree of calls. An error is always passed on. -/
inductive Construction : Type → Type 1 where
  | pure {α : Type} (a : α) : Construction α
  | throw {α : Type} (e : SchemaError) : Construction α
  | table {α β : Type} (m : Build β) (foreign : Foreign m) (next : β → Construction α) :
    Construction α
  | record {α : Type} (name : String) (build : RecordSchema → Construction RuleHandle)
    (next : RuleHandle → Construction α) : Construction α
  | descend {α β : Type} (inner : Construction β) (next : β → Construction α) : Construction α

/-- Goes a level further down, if there is one left. -/
def CompileSite.descend {α : Type} (site : CompileSite) : Nat → (Nat → Compile α) → Compile α
  | 0, _ => throw (.depthExceeded site.options.maxDepth)
  | left + 1, inner => inner left

namespace Construction

/-- The compilation that a construction stands for, with the levels that are left. -/
def run {α : Type} : Construction α → CompileSite → Nat → Compile α
  | .pure a, _, _ => return a
  | .throw e, _, _ => MonadExcept.throw e
  | .table m _ next, site, left => do
    let b ← liftBuild m
    (next b).run site left
  | .record name build next, site, left => do
    let rule ← site.record name fun site definition => (build definition).run site left
    (next rule).run site left
  | .descend inner next, site, left => do
    let b ← site.descend left (inner.run site)
    (next b).run site left

end Construction

/-- What becomes of forward rules: one is reserved for a record, or the construction of a record
comes out with its rule. -/
inductive Milestone where
  | reserved (name : String) (slot : Reservation)
  | built (name : String) (rule : RuleHandle)
  deriving DecidableEq, Repr

/-- The milestone that is passed if the forward rule of a record waits now and has not before. -/
def Milestone.between (name : String) (before after : CompileState) : List Milestone :=
  match before.pending.lookup name, after.pending.lookup name with
  | none, some slot => [.reserved name slot]
  | _, _ => []

/-- The context of a compilation, which all factories share. -/
structure CompileContext where
  state : CompileState
  /-- The records under construction, the outermost first. -/
  stack : List String := []
  depth : Nat := 0
  /-- The milestones so far, which no step looks at. -/
  history : List Milestone := []

abbrev InContext := EStateM SchemaError CompileContext

namespace CompileContext

def after (c : CompileContext) (σ : CompileState) (new : List Milestone) : CompileContext :=
  { c with state := σ, history := c.history ++ new }

def push (c : CompileContext) (name : String) : CompileContext :=
  { c with stack := c.stack ++ [name] }

def pop (c : CompileContext) : CompileContext := { c with stack := c.stack.dropLast }

/-- A compiling step on the state of the context. -/
def lift {α : Type} (m : Compile α) : InContext α := fun c =>
  match m c.state with
  | .ok a σ => .ok a (c.after σ [])
  | .error e σ => .error e (c.after σ [])

def descend {α : Type} (options : SchemaOptions) (inner : InContext α) : InContext α := fun c =>
  if options.maxDepth ≤ c.depth then .error (.depthExceeded options.maxDepth) c
  else match inner { c with depth := c.depth + 1 } with
    | .ok a c => .ok a { c with depth := c.depth - 1 }
    | .error e c => .error e { c with depth := c.depth - 1 }

def forward (registry : Registry) (options : SchemaOptions) (name : String) :
    InContext RuleHandle := fun c =>
  match CompileSite.forward ⟨registry, options, c.stack⟩ name c.state with
  | .ok rule σ => .ok rule (c.after σ (Milestone.between name c.state σ))
  | .error e σ => .error e (c.after σ [])

def record (registry : Registry) (options : SchemaOptions) (name : String)
    (build : RecordSchema → InContext RuleHandle) : InContext RuleHandle := fun c =>
  if name ∈ c.stack then forward registry options name c
  else match registry.record name with
    | .error e => .error e c
    | .ok definition => match build definition (c.push name) with
      | .error e c => .error e c.pop
      | .ok rule c => (do
          lift (CompileSite.close name rule)
          return rule) (c.pop.after c.state [.built name rule])

theorem pop_after_push (c : CompileContext) (name : String) (σ : CompileState)
    (new : List Milestone) : ((c.push name).after σ new).pop = c.after σ new := by
  simp [push, pop, after]

@[simp] theorem after_after (c : CompileContext) (σ σ' : CompileState)
    (new new' : List Milestone) : (c.after σ new).after σ' new' = c.after σ' (new ++ new') := by
  simp [after]

section Steps

variable {registry : Registry} {options : SchemaOptions} {name : String} {α : Type}
  {c c' : CompileContext}

theorem lift_of_ok {m : Compile α} {a : α} {σ : CompileState} (h : m c.state = .ok a σ) :
    lift m c = .ok a (c.after σ []) := by
  simp [lift, h]

theorem lift_of_error {m : Compile α} {e : SchemaError} {σ : CompileState}
    (h : m c.state = .error e σ) : lift m c = .error e (c.after σ []) := by
  simp [lift, h]

theorem forward_of_ok {rule : RuleHandle} {σ : CompileState}
    (h : CompileSite.forward ⟨registry, options, c.stack⟩ name c.state = .ok rule σ) :
    forward registry options name c =
      .ok rule (c.after σ (Milestone.between name c.state σ)) := by
  simp [forward, h]

theorem forward_of_error {e : SchemaError} {σ : CompileState}
    (h : CompileSite.forward ⟨registry, options, c.stack⟩ name c.state = .error e σ) :
    forward registry options name c = .error e (c.after σ []) := by
  simp [forward, h]

variable {inner : InContext α}

theorem descend_of_limit (h : options.maxDepth ≤ c.depth) :
    descend options inner c = .error (.depthExceeded options.maxDepth) c := if_pos h

theorem descend_of_ok (h : ¬options.maxDepth ≤ c.depth) {a : α}
    (hinner : inner { c with depth := c.depth + 1 } = .ok a c') :
    descend options inner c = .ok a { c' with depth := c'.depth - 1 } :=
  (if_neg h).trans (by rw [hinner])

theorem descend_of_error (h : ¬options.maxDepth ≤ c.depth) {e : SchemaError}
    (hinner : inner { c with depth := c.depth + 1 } = .error e c') :
    descend options inner c = .error e { c' with depth := c'.depth - 1 } :=
  (if_neg h).trans (by rw [hinner])

variable {build : RecordSchema → InContext RuleHandle} {definition : RecordSchema}

theorem record_of_open (h : name ∈ c.stack) :
    record registry options name build c = forward registry options name c := if_pos h

variable (h : name ∉ c.stack)

include h

theorem record_of_unknown {e : SchemaError} (hrecord : registry.record name = .error e) :
    record registry options name build c = .error e c :=
  (if_neg h).trans (by rw [hrecord])

theorem record_of_failed (hrecord : registry.record name = .ok definition) {e : SchemaError}
    (hbuild : build definition (c.push name) = .error e c') :
    record registry options name build c = .error e c'.pop :=
  (if_neg h).trans (by rw [hrecord]; simp only [hbuild])

theorem record_of_built (hrecord : registry.record name = .ok definition) {rule : RuleHandle}
    (hbuild : build definition (c.push name) = .ok rule c') :
    record registry options name build c = (do
      lift (CompileSite.close name rule)
      return rule) (c'.pop.after c'.state [.built name rule]) :=
  (if_neg h).trans (by rw [hrecord]; simp only [hbuild])

end Steps

end CompileContext

namespace Construction

/-- A construction on the context. -/
def runIn (registry : Registry) (options : SchemaOptions) {α : Type} :
    Construction α → InContext α
  | .pure a => return a
  | .throw e => MonadExcept.throw e
  | .table m _ next => do
    let b ← CompileContext.lift (liftBuild m)
    (next b).runIn registry options
  | .record name build next => do
    let rule ← CompileContext.record registry options name fun definition =>
      (build definition).runIn registry options
    (next rule).runIn registry options
  | .descend inner next => do
    let b ← CompileContext.descend options (inner.runIn registry options)
    (next b).runIn registry options

end Construction

namespace CompileContext

variable {α β : Type}

/-- The end of a step on the context that does to its state what a compiling step does. -/
def finish (c : CompileContext) (new : List Milestone) :
    EStateM.Result SchemaError CompileState α → EStateM.Result SchemaError CompileContext α
  | .ok a σ => .ok a (c.after σ new)
  | .error e σ => .error e (c.after σ new)

theorem finish_after (c : CompileContext) (σ : CompileState) (new new' : List Milestone)
    (result : EStateM.Result SchemaError CompileState α) :
    (c.after σ new).finish new' result = c.finish (new ++ new') result := by
  cases result <;> simp [finish]

/-- A step on the context does to its state what a compiling step does, and leaves the stack and the
depth as they are, whether it fails or not. -/
def Agrees (c : CompileContext) (step : InContext α) (m : Compile α) : Prop :=
  ∃ new, step c = c.finish new (m c.state)

namespace Agrees

variable {c : CompileContext} {step : InContext α} {m : Compile α}

theorem bind {next : α → InContext β} {f : α → Compile β} (h : c.Agrees step m)
    (hf : ∀ a σ new, (c.after σ new).Agrees (next a) (f a)) :
    c.Agrees (step >>= next) (m >>= f) := by
  obtain ⟨new, hstep⟩ := h
  cases hm : m c.state with
  | error e σ =>
    rw [hm] at hstep
    exact ⟨new, by rw [bind_of_error hstep, bind_of_error hm]; rfl⟩
  | ok a σ =>
    rw [hm] at hstep
    obtain ⟨new', hnext⟩ := hf a σ new
    refine ⟨new ++ new', ?_⟩
    rw [bind_of_ok hstep, bind_of_ok hm, hnext, finish_after]
    rfl

theorem pure (c : CompileContext) (a : α) :
    c.Agrees (Pure.pure a : InContext α) (Pure.pure a) :=
  ⟨[], by simp [Pure.pure, EStateM.pure, finish, after]⟩

theorem throw (c : CompileContext) (e : SchemaError) :
    c.Agrees (MonadExcept.throw e : InContext α) (MonadExcept.throw e) := by
  have hstep : (MonadExcept.throw e : InContext α) c = .error e c := rfl
  have hm : (MonadExcept.throw e : Compile α) c.state = .error e c.state := rfl
  refine ⟨[], ?_⟩
  rw [hstep, hm]
  simp [finish, after]

theorem lift (c : CompileContext) (m : Compile α) : c.Agrees (CompileContext.lift m) m := by
  refine ⟨[], ?_⟩
  unfold CompileContext.lift
  cases m c.state <;> rfl

theorem descend {registry : Registry} {options : SchemaOptions} {inner : Nat → Compile α}
    (h : ∀ depth, CompileContext.Agrees { c with depth } step
      (inner (options.maxDepth - depth))) :
    c.Agrees (CompileContext.descend options step)
      (CompileSite.descend ⟨registry, options, c.stack⟩ (options.maxDepth - c.depth) inner) := by
  by_cases hdepth : options.maxDepth ≤ c.depth
  · refine ⟨[], (descend_of_limit hdepth).trans ?_⟩
    rw [Nat.sub_eq_zero_of_le hdepth]
    exact congrArg _ (by simp [after])
  · obtain ⟨new, hinner⟩ := h (c.depth + 1)
    have hleft : options.maxDepth - c.depth = options.maxDepth - (c.depth + 1) + 1 := by omega
    refine ⟨new, ?_⟩
    rw [hleft]
    simp only [CompileSite.descend]
    cases hrun : inner (options.maxDepth - (c.depth + 1)) c.state with
    | ok a σ => exact descend_of_ok hdepth (hinner.trans (by rw [hrun]; rfl))
    | error e σ => exact descend_of_error hdepth (hinner.trans (by rw [hrun]; rfl))

theorem forward (registry : Registry) (options : SchemaOptions) (name : String)
    (c : CompileContext) : c.Agrees (CompileContext.forward registry options name)
      (CompileSite.forward ⟨registry, options, c.stack⟩ name) := by
  cases hrun : CompileSite.forward ⟨registry, options, c.stack⟩ name c.state with
  | ok rule σ => exact ⟨_, (forward_of_ok hrun).trans (by rw [hrun]; rfl)⟩
  | error e σ => exact ⟨[], (forward_of_error hrun).trans (by rw [hrun]; rfl)⟩

theorem record {registry : Registry} {options : SchemaOptions} {name : String}
    {build : RecordSchema → InContext RuleHandle}
    {buildAt : CompileSite → RecordSchema → Compile RuleHandle}
    (h : ∀ definition, (c.push name).Agrees (build definition)
      (buildAt ⟨registry, options, c.stack ++ [name]⟩ definition)) :
    c.Agrees (CompileContext.record registry options name build)
      (CompileSite.record ⟨registry, options, c.stack⟩ name buildAt) := by
  by_cases hstack : name ∈ c.stack
  · obtain ⟨new, hforward⟩ := Agrees.forward registry options name c
    refine ⟨new, (record_of_open hstack).trans ?_⟩
    rw [CompileSite.record, if_pos hstack]
    exact hforward
  · unfold CompileSite.record
    rw [if_neg hstack]
    cases hrecord : registry.record name with
    | error e => exact ⟨[], (record_of_unknown hstack hrecord).trans (by simp [finish, after]; rfl)⟩
    | ok definition =>
      obtain ⟨new, hbuild⟩ := h definition
      have hstep (f : RecordSchema → Compile RuleHandle) :
          (require (.ok definition) >>= f) c.state = f definition c.state := rfl
      cases hrun : buildAt ⟨registry, options, c.stack ++ [name]⟩ definition c.state with
      | error e σ =>
        have hfailed := hbuild.trans (congrArg (finish (c.push name) new) hrun)
        refine ⟨new, (record_of_failed hstack hrecord hfailed).trans ?_⟩
        rw [pop_after_push, hstep, bind_of_error hrun]
        rfl
      | ok rule σ =>
        have hbuilt := hbuild.trans (congrArg (finish (c.push name) new) hrun)
        have hclosing : (c.after σ (new ++ [.built name rule])).Agrees
            (do CompileContext.lift (CompileSite.close name rule); return rule)
            (do CompileSite.close name rule; return rule) :=
          (Agrees.lift _ _).bind fun _ σ new => .pure _ rule
        obtain ⟨new', hclose⟩ := hclosing
        refine ⟨new ++ [.built name rule] ++ new',
          (record_of_built hstack hrecord hbuilt).trans ?_⟩
        rw [pop_after_push, after_after, hstep, bind_of_ok hrun]
        exact hclose.trans (finish_after c σ _ new' _)

end Agrees

end CompileContext

/-- A construction on the context is the compilation that it stands for. Whether it fails or not,
the stack and the depth are then what they were. -/
theorem Construction.runIn_agrees (registry : Registry) (options : SchemaOptions) {α : Type}
    (tree : Construction α) (c : CompileContext) : c.Agrees (tree.runIn registry options)
      (tree.run ⟨registry, options, c.stack⟩ (options.maxDepth - c.depth)) := by
  induction tree generalizing c with
  | pure a => exact .pure c a
  | throw e => exact .throw c e
  | table m foreign next ih => exact (CompileContext.Agrees.lift c _).bind fun b σ new => ih b _
  | record name build next ihbuild ih =>
    refine (CompileContext.Agrees.record fun definition => ?_).bind fun rule σ new => ih rule _
    exact ihbuild definition (c.push name)
  | descend inner next ihinner ih =>
    refine (CompileContext.Agrees.descend fun depth => ?_).bind fun b σ new => ih b _
    exact ihinner { c with depth }

end RecordGrammar
