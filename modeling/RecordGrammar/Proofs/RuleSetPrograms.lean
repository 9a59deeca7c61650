import RecordGrammar.FormatFragments
import RecordGrammar.JsonFragments
import RecordGrammar.MarkdownFragments
import RecordGrammar.Proofs.AppendOnlyTables
import RecordGrammar.Proofs.TableGrowth

/-! # Programs over a rule table

A fragment and a compilation are put together from the same few operations on a table, as is all
that a client of the table may do. -/

namespace RecordGrammar

/-- The state that a run ends in, whether it fails or not. -/
def finalState {ε σ α : Type} : EStateM.Result ε σ α → σ
  | .ok _ s => s
  | .error _ s => s

section Programs

/-- What can be put together from steps of a kind: later steps may depend on the results of earlier
ones, and a failure may be raised or recovered from. -/
inductive Program {ε σ : Type} (Step : (α : Type) → EStateM ε σ α → Prop) :
    {α : Type} → EStateM ε σ α → Prop
  | step {α : Type} {m : EStateM ε σ α} (h : Step α m) : Program Step m
  | pure {α : Type} (a : α) : Program Step (pure a)
  | bind {α β : Type} {m : EStateM ε σ α} {f : α → EStateM ε σ β} (hm : Program Step m)
      (hf : ∀ a, Program Step (f a)) : Program Step (m >>= f)
  | throw {α : Type} (e : ε) : Program Step (throw e : EStateM ε σ α)
  | recover {α : Type} {m : EStateM ε σ α} {handler : ε → EStateM ε σ α} (hm : Program Step m)
      (hh : ∀ e, Program Step (handler e)) : Program Step (tryCatch m handler)

variable {ε σ α β : Type} {Step : (α : Type) → EStateM ε σ α → Prop}

theorem Program.map {m : EStateM ε σ α} (hm : Program Step m) (f : α → β) :
    Program Step (do let a ← m; return f a) :=
  hm.bind fun a => .pure (f a)

/-- A relation between programs of two kinds, in which pure programs stand and which binding keeps,
holds of traversals if it holds of their steps. -/
theorem mapM_related {m n : Type → Type} [Monad m] [LawfulMonad m] [Monad n] [LawfulMonad n]
    {R : (γ : Type) → m γ → n γ → Prop}
    (hpure : ∀ bs : List β, R (List β) (Pure.pure bs) (Pure.pure bs))
    (hbind : ∀ (γ : Type) (p : m γ) (q : n γ) (k : γ → m (List β)) (l : γ → n (List β)),
      R γ p q → (∀ c, R (List β) (k c) (l c)) → R (List β) (p >>= k) (q >>= l))
    {f : α → m β} {g : α → n β} {as : List α} (h : ∀ a ∈ as, R β (f a) (g a)) :
    R (List β) (as.mapM f) (as.mapM g) := by
  induction as with
  | nil =>
    rw [List.mapM_nil, List.mapM_nil]
    exact hpure []
  | cons a as ih =>
    obtain ⟨hfirst, hrest⟩ := List.forall_mem_cons.1 h
    rw [List.mapM_cons, List.mapM_cons]
    exact hbind _ _ _ _ _ hfirst fun b => hbind _ _ _ _ _ (ih hrest) fun bs => hpure (b :: bs)

/-- What holds of pure programs and is kept by binding holds of a traversal if it holds of its
steps. -/
theorem mapM_holds {m : Type → Type} [Monad m] [LawfulMonad m] {P : (γ : Type) → m γ → Prop}
    (hpure : ∀ bs : List β, P (List β) (Pure.pure bs))
    (hbind : ∀ (γ : Type) (p : m γ) (k : γ → m (List β)),
      P γ p → (∀ c, P (List β) (k c)) → P (List β) (p >>= k))
    {f : α → m β} {as : List α} (h : ∀ a ∈ as, P β (f a)) : P (List β) (as.mapM f) :=
  mapM_related (R := fun γ p _ => P γ p) (g := f) hpure
    (fun γ p _ k _ hp hk => hbind γ p k hp hk) h

theorem Program.mapM {f : α → EStateM ε σ β} (h : ∀ a, Program Step (f a)) (as : List α) :
    Program Step (as.mapM f) :=
  mapM_holds (P := fun _ => Program Step) .pure (fun _ _ _ hm hf => hm.bind hf) fun a _ => h a

theorem bind_eq_ok {m : EStateM ε σ α} {f : α → EStateM ε σ β} {s s' : σ} {b : β}
    (h : (m >>= f) s = .ok b s') : ∃ a u, m s = .ok a u ∧ f a u = .ok b s' := by
  cases hm : m s with
  | ok a u =>
    rw [bind_of_ok hm] at h
    exact ⟨a, u, rfl, h⟩
  | error e u =>
    rw [bind_of_error hm] at h
    cases h

theorem tryCatch_of_ok {m : EStateM ε σ α} {handler : ε → EStateM ε σ α} {s s' : σ} {a : α}
    (h : m s = .ok a s') : tryCatch m handler s = .ok a s' := by
  simp [tryCatch, tryCatchThe, MonadExceptOf.tryCatch, EStateM.tryCatch, h]

/-- A handler starts from the state that the failure has left. -/
theorem tryCatch_of_error {m : EStateM ε σ α} {handler : ε → EStateM ε σ α} {s s' : σ} {e : ε}
    (h : m s = .error e s') : tryCatch m handler s = handler e s' := by
  simp [tryCatch, tryCatchThe, MonadExceptOf.tryCatch, EStateM.tryCatch, h,
    EStateM.Backtrackable.restore, EStateM.dummyRestore]

/-- What every step does to the state, a whole program does. -/
theorem Program.run {R : σ → σ → Prop} (hrefl : ∀ s, R s s)
    (htrans : ∀ s s' s'', R s s' → R s' s'' → R s s'')
    (hstep : ∀ (α : Type) (m : EStateM ε σ α), Step α m → ∀ s, R s (finalState (m s)))
    {m : EStateM ε σ α} (hm : Program Step m) (s : σ) : R s (finalState (m s)) := by
  induction hm generalizing s with
  | step h => exact hstep _ _ h s
  | pure a => exact hrefl s
  | throw e => exact hrefl s
  | @bind _ _ m f _ _ ihm ihf =>
    have hfirst := ihm s
    cases h : m s with
    | ok a s' =>
      rw [h] at hfirst
      rw [bind_of_ok h]
      exact htrans s s' _ hfirst (ihf a s')
    | error e s' =>
      rw [h] at hfirst
      rw [bind_of_error h]
      exact hfirst
  | @recover _ m handler _ _ ihm ihh =>
    have hfirst := ihm s
    cases h : m s with
    | ok a s' =>
      rw [h] at hfirst
      rw [tryCatch_of_ok h]
      exact hfirst
    | error e s' =>
      rw [h] at hfirst
      rw [tryCatch_of_error h]
      exact htrans s s' _ hfirst (ihh e s')

end Programs

/-- The operations of a scope, over the table of a session. Any reservation may be committed, one
of another table too. -/
inductive TableStep : (α : Type) → Build α → Prop
  | look : TableStep Session get
  | note (event : Event) : TableStep Unit (note event)
  | define (scope : Scope) (production : String) : TableStep RuleHandle (scope.define production)
  | defineNamed (scope : Scope) (name production : String) :
    TableStep RuleHandle (scope.defineNamed name production)
  | reserve (scope : Scope) : TableStep Reservation scope.reserve
  | reserveNamed (scope : Scope) (name : String) : TableStep Reservation (scope.reserveNamed name)
  | commit (r : Reservation) (production : String) : TableStep RuleHandle (commit r production)

abbrev TableProgram {α : Type} (m : Build α) : Prop := Program TableStep m

section Operations

theorem optionalTail_ne_empty (base tail : String) : optionalTail base tail ≠ "" := by
  intro h
  have hlength := congrArg (fun text => text.toList.length) h
  simp [optionalTail, alternation] at hlength

theorem Scope.define_eq (scope : Scope) (production : String) (s : Session) :
    let id := (s.table.freshId scope.stem).1
    let table := (s.table.freshId scope.stem).2
    scope.define production s =
      (do edit (·.insert id production); return ⟨id⟩ : Build RuleHandle) { s with table } := rfl

theorem Scope.reserve_eq (scope : Scope) (s : Session) :
    let id := (s.table.freshId scope.stem).1
    let table := (s.table.freshId scope.stem).2
    scope.reserve s = .ok ⟨id⟩ { s with table := table.claim id } := rfl

/-- A repetition claims its id and fulfils it at once. -/
theorem Scope.oneOrMore_eq (scope : Scope) (element : String) (s : Session) :
    let id := (s.table.freshId scope.stem).1
    let table := (s.table.freshId scope.stem).2
    let production := optionalTail element (Reservation.text ⟨id⟩)
    scope.oneOrMore element s =
      .ok ⟨id⟩ { s with table := ((table.claim id).release id).push id production } := by
  intro id table production
  rw [oneOrMore, bind_of_ok (scope.reserve_eq s)]
  refine commit_ok (RuleTable.commit_eq_ok ?_ (optionalTail_ne_empty _ _))
  simp [RuleTable.reserved_claim]

end Operations

section Growth

/-- An edit replaces the table or leaves the session as it is. -/
theorem edit_cases (change : RuleTable → Except RuleError RuleTable) (s : Session) :
    (∃ t, change s.table = .ok t ∧ edit change s = .ok () { s with table := t }) ∨
      ∃ e, edit change s = .error e s := by
  cases h : change s.table with
  | ok t => exact .inl ⟨t, rfl, edit_ok h⟩
  | error e => exact .inr ⟨e, edit_error h⟩

theorem edit_grows {α : Type} {change : RuleTable → Except RuleError RuleTable} {a : α}
    (h : ∀ t t', change t = .ok t' → t.Grows t') (s : Session) :
    s.table.Grows (finalState ((do edit change; return a : Build α) s)).table := by
  rcases edit_cases change s with ⟨t, ht, hedit⟩ | ⟨e, hedit⟩
  · rw [bind_of_ok hedit]
    exact h _ _ ht
  · rw [bind_of_error hedit]
    exact .refl _

theorem TableStep.grows {α : Type} {m : Build α} (h : TableStep α m) (s : Session) :
    s.table.Grows (finalState (m s)).table := by
  cases h with
  | look => exact .refl _
  | note event => exact .refl _
  | define scope production =>
    rw [Scope.define_eq]
    exact (RuleTable.freshId_grows s.table scope.stem).trans
      (edit_grows (s := { s with table := _ }) (fun _ _ => RuleTable.insert_grows))
  | defineNamed scope name production => exact edit_grows (fun _ _ => RuleTable.insert_grows) s
  | reserve scope => exact RuleTable.claim_freshId_grows s.table scope.stem
  | reserveNamed scope name => exact edit_grows (fun _ _ => RuleTable.reserve_grows) s
  | commit r production => exact edit_grows (fun _ _ => RuleTable.commit_grows) s

namespace RuleTable

/-- A relation of tables that holds along every run, as it holds of each operation. -/
structure Evolution (R : RuleTable → RuleTable → Prop) : Prop where
  refl (t : RuleTable) : R t t
  trans {t t' t'' : RuleTable} : R t t' → R t' t'' → R t t''
  step {α : Type} {m : Build α} (h : TableStep α m) (s : Session) :
    R s.table (finalState (m s)).table

theorem Evolution.program {R : RuleTable → RuleTable → Prop} (hR : Evolution R) {α : Type}
    {m : Build α} (hm : TableProgram m) (s : Session) : R s.table (finalState (m s)).table :=
  hm.run (R := fun s s' => R s.table s'.table) (fun _ => hR.refl _) (fun _ _ _ => hR.trans)
    (fun _ _ h => hR.step h) s

theorem growth : Evolution Grows where
  refl := .refl
  trans := .trans
  step h := h.grows

end RuleTable

/-- Whatever a program does, and even if it fails, the table has only grown. -/
theorem Program.table_grows {α : Type} {m : Build α} (hm : TableProgram m) (s : Session) :
    s.table.Grows (finalState (m s)).table := RuleTable.growth.program hm s

end Growth

/-- A memoized build that goes through has found the rule of its stem, or has built it and committed
it under an id that was free. -/
theorem memoized_cases {stem : String} {build : Scope → Build String} {s s' : Session}
    {r : RuleHandle} (h : memoized stem build s = .ok r s') :
    r = ⟨Scope.idOf ⟨stem⟩ "decl"⟩ ∧
      ((s.table.defined (Scope.idOf ⟨stem⟩ "decl") = true ∧ s' = s) ∨
        ∃ production u, build ⟨stem⟩ s = .ok production u ∧
          u.table.taken (Scope.idOf ⟨stem⟩ "decl") = false ∧
          s' = { u with table := u.table.push (Scope.idOf ⟨stem⟩ "decl") production }) := by
  rw [memoized, get_bind] at h
  by_cases hd : s.table.defined (Scope.idOf ⟨stem⟩ "decl") = true
  · rw [if_pos hd] at h
    cases h
    exact ⟨rfl, .inl ⟨hd, rfl⟩⟩
  · rw [if_neg hd] at h
    obtain ⟨production, u, hbuild, h⟩ := bind_eq_ok h
    rw [Scope.defineNamed] at h
    rcases edit_cases (·.insert (Scope.idOf ⟨stem⟩ "decl") production) u with
      ⟨t, ht, hedit⟩ | ⟨e, hedit⟩
    · rw [bind_of_ok hedit] at h
      cases h
      obtain ⟨hfree, -, rfl⟩ := RuleTable.eq_of_insert ht
      exact ⟨rfl, .inr ⟨production, u, hbuild, hfree, rfl⟩⟩
    · rw [bind_of_error hedit] at h
      cases h

/-- A memoized build that goes through ends with the rule of its stem, which is then committed. -/
theorem memoized_eq_ok {stem : String} {build : Scope → Build String} {s s' : Session}
    {r : RuleHandle} (h : memoized stem build s = .ok r s') :
    r = ⟨Scope.idOf ⟨stem⟩ "decl"⟩ ∧ s'.table.defined (Scope.idOf ⟨stem⟩ "decl") = true := by
  obtain ⟨hr, ⟨hd, rfl⟩ | ⟨production, u, -, -, rfl⟩⟩ := memoized_cases h
  · exact ⟨hr, hd⟩
  · refine ⟨hr, ?_⟩
    rw [RuleTable.defined_push]
    simp

namespace Program

theorem define (scope : Scope) (production : String) : TableProgram (scope.define production) :=
  .step (.define scope production)

theorem defineNamed (scope : Scope) (name production : String) :
    TableProgram (scope.defineNamed name production) :=
  .step (.defineNamed scope name production)

theorem oneOrMore (scope : Scope) (element : String) : TableProgram (scope.oneOrMore element) :=
  .bind (.step (.reserve scope)) fun _ => .step (.commit _ _)

theorem lookup (id : String) : TableProgram (RecordGrammar.lookup id) := by
  refine .bind (.step .look) fun s => ?_
  cases s.table.rule id with
  | ok rule => exact .pure _
  | error e => exact .throw e

theorem memoizedAt (stem : String) {build : Scope → Build String}
    (h : TableProgram (build ⟨stem⟩)) : TableProgram (RecordGrammar.memoized stem build) := by
  refine .bind (.step .look) fun s => ?_
  split
  · exact .pure _
  · exact h.bind fun production => defineNamed _ _ production

theorem memoized (stem : String) {build : Scope → Build String}
    (h : ∀ scope, TableProgram (build scope)) :
    TableProgram (RecordGrammar.memoized stem build) := memoizedAt stem (h ⟨stem⟩)

theorem emitTerminal (raw : String) : TableProgram (RecordGrammar.emitTerminal raw) := by
  unfold RecordGrammar.emitTerminal
  split
  · exact (Program.step (.note _)).map _
  · exact .pure _

theorem keyed {α : Type} {tag canonical : String} {rest : String → Build α}
    (h : ∀ stem, TableProgram (rest stem)) : TableProgram (keyedStem tag canonical >>= rest) :=
  .bind (.map (.step (.note _)) _) h

end Program

namespace JsonFragment

theorem null_program : TableProgram null := .memoized _ fun _ => .pure _

theorem number_program : TableProgram number :=
  .memoized _ fun scope => .bind (.define scope _) fun _ => .bind (.define scope _) fun _ =>
    .bind (.define scope _) fun _ => .bind (.define scope _) fun _ =>
    .bind (.oneOrMore scope _) fun _ => .bind (.define scope _) fun _ =>
    .bind (.define scope _) fun _ => .bind (.define scope _) fun _ =>
    .map (.define scope _) _

theorem string_program : TableProgram string :=
  .memoized _ fun scope => .bind (.define scope _) fun _ => .bind (.define scope _) fun _ =>
    .bind (.define scope _) fun _ => .bind (.define scope _) fun _ =>
    .bind (.define scope _) fun _ => .bind (.define scope _) fun _ =>
    .bind (.define scope _) fun _ => .map (.oneOrMore scope _) _

theorem boolean_program : TableProgram boolean := .memoized _ fun _ => .pure _

theorem array_program (inner : RuleHandle) : TableProgram (array inner) :=
  .keyed fun stem => .memoized stem fun scope => .map (.oneOrMore scope _) _

theorem tuple_program (members : List RuleHandle) : TableProgram (tuple members) :=
  .keyed fun stem => .memoized stem fun _ => .pure _

theorem enumeration_program (members : List String) : TableProgram (enumeration members) :=
  .keyed fun stem => .memoized stem fun _ => .pure _

theorem literals_program (literals : List Literal) : TableProgram (do
    JsonFragment.enumeration (← literals.mapM fun l => emitTerminal l.text)) := by
  refine .bind (.mapM (fun l => ?_) _) fun _ => enumeration_program _
  exact .emitTerminal l.text

theorem object_program (fields : List (String × RuleHandle)) : TableProgram (object fields) :=
  .keyed fun stem => .memoized stem fun _ => .pure _

theorem inQuotes_program (inner : RuleHandle) : TableProgram (inQuotes inner) :=
  .keyed fun stem => .memoized stem fun _ => .pure _

end JsonFragment

namespace FormatFragment

theorem digit_program : TableProgram digit := by
  refine .bind (.step .look) fun s => ?_
  split
  · exact .lookup _
  · exact .defineNamed _ _ _

theorem segmentText_program (segment : List Char) : TableProgram (segmentText segment) := by
  unfold segmentText
  split
  · exact .pure _
  · exact .emitTerminal _

theorem maskedTime_program (mask : String) : TableProgram (maskedTime mask) :=
  .keyed fun stem => .memoized stem fun _ => .bind digit_program fun _ =>
    .map (.mapM segmentText_program _) _

theorem mailAddress_program : TableProgram mailAddress :=
  .memoized _ fun scope => .bind (.define scope _) fun _ => .bind (.define scope _) fun _ =>
    .bind (.define scope _) fun _ => .bind (.step (.reserve scope)) fun _ =>
    .bind (.step (.commit _ _)) fun _ => .bind (.define scope _) fun _ =>
    .bind (.oneOrMore scope _) fun _ => .bind (.define scope _) fun _ =>
    .bind (.define scope _) fun _ => .bind (.define scope _) fun _ =>
    .bind (.step (.reserve scope)) fun _ => .bind (.step (.commit _ _)) fun _ =>
    .map (.define scope _) _

end FormatFragment

namespace MarkdownFragment

theorem line_program : TableProgram line :=
  .memoized _ fun scope => .bind (.define scope _) fun _ => .map (.oneOrMore scope _) _

theorem leadLine_program (lead : String) : TableProgram (leadLine lead) :=
  .keyed fun stem => .memoized stem fun scope => .bind (.define scope _) fun _ =>
    .map line_program _

theorem grouped_program (production : String) : TableProgram (grouped production) :=
  .keyed fun stem => .memoized stem fun _ => .pure _

theorem markedLead_program (marker : String) (lead : Option String) :
    TableProgram (markedLead marker lead) := by
  cases lead with
  | none => exact .pure _
  | some lead => exact (grouped_program lead).map _

theorem lineWithLead_program (lead : Option String) : TableProgram (lineWithLead lead) := by
  cases lead with
  | none => exact line_program
  | some lead => exact leadLine_program lead

theorem heading_program (level : Nat) (lead : Option String) : TableProgram (heading level lead) :=
  .bind (markedLead_program _ lead) fun _ => leadLine_program _

theorem listItem_program (bullet : Bullet) (lead : Option String) :
    TableProgram (listItem bullet lead) :=
  .bind (markedLead_program _ lead) fun _ => leadLine_program _

theorem bulletList_program (bullet : Bullet) (count : Nat) :
    TableProgram (bulletList bullet count) := by
  refine .memoized _ fun scope => .bind (listItem_program bullet none) fun item => ?_
  split
  · exact .map (.oneOrMore scope _) _
  · exact .pure _

theorem numberedList_program (count : Nat) : TableProgram (numberedList count) := by
  refine .memoized _ fun scope => ?_
  split
  · exact .bind (.define scope _) fun _ => .bind (.oneOrMore scope _) fun _ =>
      .bind (leadLine_program _) fun _ => .map (.oneOrMore scope _) _
  · exact .map (.mapM (fun k => leadLine_program _) _) _

theorem listEntry_program (scope : Scope) (entry : ListEntry) (marker : String) :
    TableProgram (listEntry scope entry marker) := by
  refine .bind (markedLead_program marker entry.lead) fun lead => ?_
  cases entry.body with
  | some body => exact .bind (grouped_program body) fun _ => .define scope _
  | none => exact leadLine_program lead

theorem entryList_program (entries : List ListEntry) (style : ListStyle) :
    TableProgram (entryList entries style) :=
  .keyed fun stem => .memoized stem fun scope =>
    .map (.mapM (fun _ => listEntry_program scope _ _) _) _

theorem paragraph_program : TableProgram paragraph :=
  .memoized _ fun scope => .bind line_program fun _ => .map (.oneOrMore scope _) _

end MarkdownFragment

end RecordGrammar
