import RecordGrammar.Workbench
import RecordGrammar.Proofs.CompilationPrograms

/-! # What can become of two tables over whole runs -/

namespace RecordGrammar

section Operations

mutual

theorem Expression.evaluate_program (bindings : Bindings) :
    (e : Expression) → TableProgram (e.evaluate bindings)
  | .text production => .pure _
  | .literal value => .map (.emitTerminal value.raw) _
  | .alternation parts => .map (Expression.renderAll_program bindings parts) _
  | .concatenation parts => .map (Expression.renderAll_program bindings parts) _
  | .optionalTail base tail =>
    .bind (Expression.evaluate_program bindings base) fun _ =>
      .map (Expression.evaluate_program bindings tail) _
  | .optionalHead head base =>
    .bind (Expression.evaluate_program bindings head) fun _ =>
      .map (Expression.evaluate_program bindings base) _
  | .exceptUnit part => .map (Expression.evaluate_program bindings part) _
  | .anyUnit => .pure _
  | .committed id => .map (.lookup id) _
  | .slot name => by
    rw [Expression.evaluate]
    split
    · exact .pure _
    · exact .throw _
  | .definition i => by
    rw [Expression.evaluate]
    split
    · exact .pure _
    · exact .throw _

theorem Expression.renderAll_program (bindings : Bindings) :
    (parts : List Expression) → TableProgram (Expression.renderAll bindings parts)
  | [] => .pure _
  | part :: rest =>
    .bind (Expression.evaluate_program bindings part) fun _ =>
      .map (Expression.renderAll_program bindings rest) _

end

theorem Expression.render_program (bindings : Bindings) (e : Expression) :
    TableProgram (e.render bindings) :=
  .map (e.evaluate_program bindings) _

theorem Expression.handle_program (bindings : Bindings) (e : Expression) :
    TableProgram (e.handle bindings) := by
  refine .bind (e.evaluate_program bindings) fun part => ?_
  cases part <;> exact .pure _

mutual

theorem Definition.build_program (slots : List (String × Reservation)) (scope : Scope)
    (earlier : List RuleHandle) : (d : Definition) → TableProgram (d.build slots scope earlier)
  | .define production => .bind (production.render_program _) fun _ => .define scope _
  | .oneOrMore element => .bind (element.render_program _) fun _ => .oneOrMore scope _
  | .fragment stem definitions production => by
    rw [Definition.build]
    exact .memoized stem fun scope =>
      .bind (Definition.buildAll_program slots scope [] definitions) fun _ =>
        production.render_program _

theorem Definition.buildAll_program (slots : List (String × Reservation)) (scope : Scope)
    (earlier : List RuleHandle) :
    (ds : List Definition) → TableProgram (Definition.buildAll slots scope earlier ds)
  | [] => .pure _
  | d :: rest =>
    .bind (Definition.build_program slots scope earlier d) fun _ =>
      Definition.buildAll_program slots scope _ rest

end

/-- The steps of an operation. -/
inductive WorkStep : (α : Type) → Work α → Prop
  | look : WorkStep WorkState get
  | build {α : Type} {m : Build α} (hm : TableProgram m) : WorkStep α (Work.ofBuild m)
  | slots (slots : WorkState → List (String × Reservation)) :
    WorkStep Unit (modify fun s => { s with slots := slots s })

abbrev WorkProgram {α : Type} (m : Work α) : Prop := Program WorkStep m

theorem RuleTable.Evolution.workStep {R : RuleTable → RuleTable → Prop} (hR : RuleTable.Evolution R)
    {α : Type} {m : Work α} (h : WorkStep α m) (s : WorkState) :
    R s.session.table (finalState (m s)).session.table := by
  cases h with
  | look => exact hR.refl _
  | slots slots => exact hR.refl _
  | @build _ m hm =>
    have hrun := hR.program hm s.session
    cases h : m s.session with
    | ok a s' =>
      rw [h] at hrun
      rw [show Work.ofBuild m s = .ok a { s with session := s' } by simp [Work.ofBuild, h]]
      exact hrun
    | error e s' =>
      rw [h] at hrun
      rw [show Work.ofBuild m s = .error e { s with session := s' } by simp [Work.ofBuild, h]]
      exact hrun

namespace WorkProgram

theorem build {α : Type} {m : Build α} (hm : TableProgram m) : WorkProgram (Work.ofBuild m) :=
  .step (.build hm)

theorem bound {α : Type} {build : Bindings → Build α} (h : ∀ b, TableProgram (build b)) :
    WorkProgram (Work.bound build) :=
  .bind (.step .look) fun _ => WorkProgram.build (h _)

theorem rule {build : Bindings → Build RuleHandle} (h : ∀ b, TableProgram (build b)) :
    WorkProgram (Work.rule build) := .map (bound h) _

theorem openSlot (name : String) {reserve : Build Reservation} (h : TableProgram reserve) :
    WorkProgram (Work.openSlot name reserve) :=
  .bind (build h) fun _ => .map (.step (.slots _)) _

theorem takeSlot (name : String) : WorkProgram (Work.takeSlot name) := by
  refine .bind (.step .look) fun s => ?_
  cases s.slots.lookup name with
  | some reservation => exact .map (.step (.slots _)) _
  | none => exact .throw _

theorem table : WorkProgram Work.table := .map (.step .look) _

end WorkProgram

theorem renderOptional_program (bindings : Bindings) (e : Option Expression) :
    TableProgram (renderOptional bindings e) := by
  cases e with
  | none => exact .pure _
  | some e => exact .map (e.render_program bindings) _

open WorkProgram in
/-- Every operation of a workbench is a program over one of its tables. -/
theorem Operation.run_program (scope : Scope) (operation : Operation) :
    WorkProgram (operation.run scope) := by
  cases operation with
  | define production =>
    exact rule fun b => .bind (production.render_program b) fun _ => .define scope _
  | defineNamed name production =>
    exact rule fun b => .bind (production.render_program b) fun _ => .defineNamed scope name _
  | oneOrMore element =>
    exact rule fun b => .bind (element.render_program b) fun _ => .oneOrMore scope _
  | reserve slot => exact openSlot slot (.step (.reserve scope))
  | reserveNamed slot name => exact openSlot slot (.step (.reserveNamed scope name))
  | commit slot production =>
    exact .bind (bound fun b => production.render_program b) fun _ =>
      .bind (takeSlot slot) fun _ => rule fun _ => .step (.commit _ _)
  | fragment stem definitions production =>
    exact rule fun b => Definition.build_program b.slots scope [] _
  | get id =>
    refine .bind table fun t => ?_
    cases t.rule id with
    | ok rule => exact .pure _
    | error e => exact .throw e
  | defined id => exact .map table _
  | scopeStem => exact .pure _
  | tableText => exact .map table _
  | isEmpty => exact .map table _
  | null => exact rule fun _ => JsonFragment.null_program
  | number => exact rule fun _ => JsonFragment.number_program
  | string => exact rule fun _ => JsonFragment.string_program
  | boolean => exact rule fun _ => JsonFragment.boolean_program
  | array inner =>
    exact rule fun b => .bind (inner.handle_program b) fun _ => JsonFragment.array_program _
  | inQuotes inner =>
    exact rule fun b => .bind (inner.handle_program b) fun _ => JsonFragment.inQuotes_program _
  | tuple members =>
    exact rule fun b => .bind (.mapM (fun e => e.handle_program b) members) fun _ =>
      JsonFragment.tuple_program _
  | enumeration members =>
    exact rule fun b => .bind (.mapM (fun e => e.render_program b) members) fun _ =>
      JsonFragment.enumeration_program _
  | object fields =>
    exact rule fun b => .bind (.mapM (fun f => .map (f.2.handle_program b) _) fields) fun _ =>
      JsonFragment.object_program _
  | line => exact rule fun _ => MarkdownFragment.line_program
  | paragraph => exact rule fun _ => MarkdownFragment.paragraph_program
  | lineWithLead lead =>
    exact rule fun b => .bind (renderOptional_program b lead) fun _ =>
      MarkdownFragment.lineWithLead_program _
  | heading level lead =>
    exact rule fun b => .bind (renderOptional_program b lead) fun _ =>
      MarkdownFragment.heading_program level _
  | listItem bullet lead =>
    exact rule fun b => .bind (renderOptional_program b lead) fun _ =>
      MarkdownFragment.listItem_program bullet _
  | bulletList bullet count => exact rule fun _ => MarkdownFragment.bulletList_program bullet count
  | numberedList count => exact rule fun _ => MarkdownFragment.numberedList_program count
  | entryList entries style =>
    have hentry (b : Bindings) (entry : Option Expression × Option Expression) :
        TableProgram (listEntry b entry) :=
      .bind (renderOptional_program b entry.1) fun _ => .map (renderOptional_program b entry.2) _
    exact rule fun b => .bind (.mapM (hentry b) entries) fun _ =>
      MarkdownFragment.entryList_program _ style
  | maskedTime mask => exact rule fun _ => FormatFragment.maskedTime_program mask
  | mailAddress => exact rule fun _ => FormatFragment.mailAddress_program

end Operations

section Clients

/-- A program over both tables of a workbench. -/
abbrev Client := EStateM RuleError Workbench

def onSide {α : Type} (side : Side) (m : Build α) : Client α := fun bench =>
  match m (bench.session side) with
  | .ok a s => .ok a (bench.withSession s side)
  | .error e s => .error e (bench.withSession s side)

/-- What a client can do in a step: look at the tables, put reservations aside, run a program over
one table, an operation or a compilation. -/
inductive ClientStep : (α : Type) → Client α → Prop
  | look : ClientStep Workbench get
  | slots (slots : List (String × Reservation)) :
    ClientStep Unit (modify fun bench => { bench with slots })
  | table {α : Type} (side : Side) {m : Build α} (hm : TableProgram m) :
    ClientStep α (onSide side m)
  | operation (side : Side) (scope : Scope) (operation : Operation) :
    ClientStep (Except RuleError Outcome) fun bench =>
      .ok (bench.perform side scope operation).1 (bench.perform side scope operation).2
  | compile (side : Side) (registry : Registry) (root : String) (options : SchemaOptions) :
    ClientStep (Except SchemaError RuleHandle) fun bench =>
      .ok (bench.compile side registry root options).1 (bench.compile side registry root options).2

abbrev ClientProgram {α : Type} (m : Client α) : Prop := Program ClientStep m

/-- A memoized fragment of one table, whose build may work on both of them. -/
def memoizedOn (side : Side) (stem : String) (build : Scope → Client String) :
    Client RuleHandle := do
  let scope : Scope := ⟨stem⟩
  if ((← get).table side).defined (scope.idOf "decl") then
    return ⟨scope.idOf "decl"⟩
  else
    let production ← build scope
    onSide side (scope.defineNamed "decl" production)

theorem ClientProgram.memoizedOn (side : Side) (stem : String) {build : Scope → Client String}
    (h : ∀ scope, ClientProgram (build scope)) : ClientProgram (memoizedOn side stem build) := by
  refine .bind (.step .look) fun bench => ?_
  split
  · exact .pure _
  · exact (h ⟨stem⟩).bind fun production =>
      .step (.table side (.defineNamed _ _ production))

namespace Workbench

@[simp]
theorem table_withSession (bench : Workbench) (s : Session) (side : Side) :
    (bench.withSession s side).table side = s.table := by
  cases side <;> rfl

theorem table_withSession_of_ne (bench : Workbench) (s : Session) {side side' : Side}
    (h : side' ≠ side) : (bench.withSession s side).table side' = bench.table side' := by
  cases side <;> cases side' <;> first | rfl | exact absurd rfl h

@[simp]
theorem session_withSession (bench : Workbench) (s : Session) (side : Side) :
    (bench.withSession s side).session side = s := by
  cases side <;> rfl

@[simp]
theorem withSession_withSession (bench : Workbench) (s s' : Session) (side : Side) :
    (bench.withSession s side).withSession s' side = bench.withSession s' side := by
  cases side <;> rfl

/-- Both tables of a bench have grown into those of another one. -/
def Grows (bench bench' : Workbench) : Prop := ∀ side, (bench.table side).Grows (bench'.table side)

/-- A state that some run of a client leads to, whether it fails or not. -/
def Later (bench bench' : Workbench) : Prop :=
  ∃ (α : Type) (m : Client α), ClientProgram m ∧ bench' = finalState (m bench)

end Workbench

namespace RuleTable.Evolution

variable {R : RuleTable → RuleTable → Prop} (hR : Evolution R) {bench : Workbench}

include hR

theorem withSession (bench : Workbench) {side : Side} {s : Session} (h : R (bench.table side) s.table) (side' : Side) :
    R (bench.table side') ((bench.withSession s side).table side') := by
  by_cases hside : side' = side
  · subst hside
    rwa [Workbench.table_withSession]
  · rw [Workbench.table_withSession_of_ne _ _ hside]
    exact hR.refl _

theorem perform (bench : Workbench) (side : Side) (scope : Scope) (operation : Operation)
    (side' : Side) :
    R (bench.table side') ((bench.perform side scope operation).2.table side') := by
  have hrun := (operation.run_program scope).run
    (R := fun s s' => R s.session.table s'.session.table) (fun _ => hR.refl _)
    (fun _ _ _ => hR.trans) (fun _ _ h => hR.workStep h) ⟨bench.session side, bench.slots⟩
  unfold Workbench.perform
  split
  all_goals
    rename_i s h
    rw [h] at hrun
    exact withSession hR { bench with slots := s.slots } hrun side'

theorem clientStep {α : Type} {m : Client α} (h : ClientStep α m) (bench : Workbench)
    (side' : Side) : R (bench.table side') ((finalState (m bench)).table side') := by
  cases h with
  | look => exact hR.refl _
  | slots slots => cases side' <;> exact hR.refl _
  | @table _ side m hm =>
    have hrun := hR.program hm (bench.session side)
    unfold onSide
    cases h : m (bench.session side) with
    | ok a s =>
      rw [h] at hrun
      exact hR.withSession bench hrun side'
    | error e s =>
      rw [h] at hrun
      exact hR.withSession bench hrun side'
  | operation side scope operation => exact hR.perform bench side scope operation side'
  | compile side registry root options =>
    exact hR.withSession bench (hR.compile (bench.session side) registry root options) side'

/-- What holds of each operation on a table holds of each table of a client from one moment to any
later one. -/
theorem later {later : Workbench} (h : bench.Later later) (side : Side) :
    R (bench.table side) (later.table side) := by
  obtain ⟨_, m, hm, rfl⟩ := h
  exact hm.run (R := fun bench bench' => R (bench.table side) (bench'.table side))
    (fun _ => hR.refl _) (fun _ _ _ => hR.trans) (fun _ _ h bench => hR.clientStep h bench side) bench

end RuleTable.Evolution

theorem Workbench.Later.grows {bench later : Workbench} (h : bench.Later later) :
    bench.Grows later := RuleTable.growth.later h

/-- A memoized fragment whose build keeps to its own table is the memoized fragment of that
table. -/
theorem memoizedOn_onSide (side : Side) (stem : String) (build : Scope → Build String) :
    memoizedOn side stem (fun scope => onSide side (build scope)) =
      onSide side (memoized stem build) := by
  funext bench
  rw [memoizedOn, get_bind, onSide, memoized, get_bind]
  by_cases hd : (bench.table side).defined (Scope.idOf ⟨stem⟩ "decl") = true
  · have hsession : (bench.session side).table.defined (Scope.idOf ⟨stem⟩ "decl") = true := hd
    rw [if_pos hd, if_pos hsession]
    cases side <;> rfl
  · have hsession : ¬(bench.session side).table.defined (Scope.idOf ⟨stem⟩ "decl") = true := hd
    rw [if_neg hd, if_neg hsession]
    cases h : build ⟨stem⟩ (bench.session side) with
    | ok production s =>
      have hon : onSide side (build ⟨stem⟩) bench = .ok production (bench.withSession s side) := by
        rw [onSide, h]
      rw [bind_of_ok h, bind_of_ok hon]
      simp only [onSide, Workbench.session_withSession, Workbench.withSession_withSession]
    | error e s =>
      have hon : onSide side (build ⟨stem⟩) bench = .error e (bench.withSession s side) := by
        rw [onSide, h]
      rw [bind_of_error h, bind_of_error hon]

end Clients

section Invariant

/-- Two tables with the same committed rules, index and reservations. -/
structure RuleTable.SameEntries (t t' : RuleTable) : Prop where
  rules : t'.rules = t.rules
  index : t'.index = t.index
  reserved : t'.reserved = t.reserved

theorem RuleTable.SameEntries.refl (t : RuleTable) : t.SameEntries t := ⟨rfl, rfl, rfl⟩

/-- A failing edit leaves the session as it is. -/
theorem edit_of_error {change : RuleTable → Except RuleError RuleTable} {α : Type} {a : α}
    {s s' : Session} {e : RuleError}
    (h : (do edit change; return a : Build α) s = .error e s') : s' = s := by
  rcases edit_cases change s with ⟨t, -, ht⟩ | ⟨e', he⟩
  · rw [bind_of_ok ht] at h
    cases h
  · rw [bind_of_error he] at h
    cases h
    rfl

/-- A failing operation of a scope leaves everything but the counters as it was. -/
theorem TableStep.sameEntries_of_error {α : Type} {m : Build α} (h : TableStep α m) {s s' : Session}
    {e : RuleError} (hrun : m s = .error e s') : s.table.SameEntries s'.table := by
  cases h with
  | look => cases hrun
  | note event => cases hrun
  | reserve scope => cases hrun
  | define scope production =>
    rw [Scope.define_eq] at hrun
    rw [edit_of_error hrun]
    exact ⟨rfl, rfl, rfl⟩
  | defineNamed scope name production =>
    rw [edit_of_error hrun]
    exact .refl _
  | reserveNamed scope name =>
    rw [edit_of_error hrun]
    exact .refl _
  | commit r production =>
    rw [edit_of_error hrun]
    exact .refl _

/-- The invariant of whole runs. In every state that a run over two empty tables leads to, the
tables are consistent; whatever is run from there, the rules stand at the front of the later ones;
and an operation that fails there leaves the rules, the index and the reservations of both tables as
they are. -/
theorem Workbench.Later.tables_consistent {bench later : Workbench}
    (hreach : Workbench.Later {} bench) (hlater : bench.Later later) (side : Side) :
    (bench.table side).Consistent ∧
      (bench.table side).rules.toList <+: (later.table side).rules.toList ∧
      ∀ (α : Type) (m : Build α), TableStep α m → ∀ (e : RuleError) (bench' : Workbench),
        onSide side m bench = .error e bench' →
          ∀ side', (bench.table side').SameEntries (bench'.table side') := by
  refine ⟨?_, (hlater.grows side).isPrefix, fun α m hm e bench' hrun side' => ?_⟩
  · have hgrows := hreach.grows side
    rw [show Workbench.table {} side = {} by cases side <;> rfl] at hgrows
    exact hgrows.consistent
  · unfold onSide at hrun
    cases h : m (bench.session side) with
    | ok a s =>
      rw [h] at hrun
      cases hrun
    | error e' s =>
      rw [h] at hrun
      obtain ⟨-, rfl⟩ := EStateM.Result.error.inj hrun
      by_cases hside : side' = side
      · subst hside
        rw [Workbench.table_withSession]
        exact hm.sameEntries_of_error h
      · rw [Workbench.table_withSession_of_ne _ _ hside]
        exact .refl _

/-- A run in which a reservation of the first table is committed to the second, within a memoized
build of the first; it ends with a definition that is refused. -/
def crossedReservations : Client RuleHandle := do
  let item ← onSide .first (Scope.reserveNamed ⟨"list"⟩ "item")
  let _ ← onSide .second (Scope.reserveNamed ⟨"list"⟩ "item")
  let _ ← memoizedOn .first "pair" fun scope => do
    let half ← onSide .first (scope.define item.text)
    let _ ← onSide .second (commit item "\"x\"")
    return concatenation [half.text, half.text]
  onSide .first (Scope.define ⟨"pair"⟩ "")

theorem crossedReservations_program : ClientProgram crossedReservations :=
  .bind (.step (.table _ (.step (.reserveNamed _ _)))) fun item =>
    .bind (.step (.table _ (.step (.reserveNamed _ _)))) fun _ =>
    .bind (ClientProgram.memoizedOn _ _ fun scope => .bind (.step (.table _ (.define scope _))) fun _ =>
      .map (.step (.table _ (.step (.commit item _)))) _) fun _ =>
    .step (.table _ (.define _ _))

/-- The second table holds the rule, the first one still holds the reservation, and a further
definition does not get the number that the refused one has used up. -/
theorem crossedReservations_consistent :
    let bench := finalState (crossedReservations {})
    let later := finalState (onSide .first (Scope.define ⟨"pair"⟩ "\"y\"") bench)
    bench.second.rules.toList = [⟨"list_item", "\"x\""⟩] ∧
      bench.first.reserved.toList = ["list_item"] ∧
      later.first.rules.toList = [⟨"pair_0", "<list_item>"⟩, ⟨"pair_decl", "<pair_0><pair_0>"⟩,
        ⟨"pair_2", "\"y\""⟩] ∧
      bench.first.Consistent ∧ bench.second.Consistent ∧
      bench.first.rules.toList <+: later.first.rules.toList ∧
      bench.second.rules.toList <+: later.second.rules.toList := by
  intro bench later
  have hreach : Workbench.Later {} bench := ⟨_, _, crossedReservations_program, rfl⟩
  have hlater : bench.Later later := ⟨_, _, .step (.table _ (.define _ _)), rfl⟩
  have hfirst := hreach.tables_consistent hlater .first
  have hsecond := hreach.tables_consistent hlater .second
  refine ⟨?_, ?_, ?_, hfirst.1, hsecond.1, hfirst.2.1, hsecond.2.1⟩
  · decide +kernel
  · decide +kernel
  · decide +kernel

end Invariant

end RecordGrammar
