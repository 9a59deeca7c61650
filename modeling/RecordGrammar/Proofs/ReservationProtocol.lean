import RecordGrammar.Proofs.RuleSetPrograms

/-! # Reservations from their issue to their commitment

A client of a table may claim an id and give it a production later. Nothing else that the client
does in between, in whatever scope, gets at that id: it stays reserved until the reservation is
spent, and what is reserved is passed over by automatic ids and refused to all others. -/

namespace RecordGrammar

namespace RuleTable

/-- A table in which everything is still taken that was taken in another one. -/
structure Retains (t t' : RuleTable) : Prop where
  wellFormed : t'.WellFormed
  defined (id : String) : t.defined id = true → t'.defined id = true
  reserved (id : String) : t.reserved.contains id = true → t'.reserved.contains id = true

namespace Retains

variable {t t' : RuleTable} {id : String}

theorem refl (h : t.WellFormed) : t.Retains t := ⟨h, fun _ => id, fun _ => id⟩

theorem push (h : t.Retains t') (production : String) (hfree : t'.taken id = false) :
    t.Retains (t'.push id production) := by
  obtain ⟨hdefined, hreserved⟩ := taken_eq_false_iff.1 hfree
  refine ⟨h.wellFormed.push hdefined hreserved, fun x hx => ?_, h.reserved⟩
  rw [defined_push, h.defined x hx, Bool.or_true]

theorem claim (h : t.Retains t') (hfree : t'.taken id = false) : t.Retains (t'.claim id) := by
  refine ⟨h.wellFormed.claim (taken_eq_false_iff.1 hfree).1, h.defined, fun x hx => ?_⟩
  rw [reserved_claim, h.reserved x hx, Bool.or_true]

/-- A claimed id that gets its production is the only one that is no longer reserved. -/
theorem fulfil (h : t.Retains t') (production : String) (hfree : t'.taken id = false) :
    t.Retains (((t'.claim id).release id).push id production) := by
  have hreserved (x : String) (hx : t'.reserved.contains x = true) :
      ((t'.claim id).release id).reserved.contains x = true := by
    have hne : x ≠ id := by
      rintro rfl
      rw [(taken_eq_false_iff.1 hfree).2] at hx
      cases hx
    rw [reserved_release, reserved_claim, hx, Bool.or_true, Bool.and_true, decide_eq_true hne]
  have hwf := (h.claim hfree).wellFormed.release id
  refine ⟨hwf.push (taken_eq_false_iff.1 hfree).1 ?_, fun x hx => ?_, fun x hx => ?_⟩
  · simp [reserved_release]
  · rw [defined_push]
    exact Bool.or_eq_true_iff.2 (.inr (h.defined x hx))
  · exact hreserved x (h.reserved x hx)

theorem freshId (h : t.WellFormed) (stem : String) :
    t.Retains (t.freshId stem).2 ∧ (t.freshId stem).2.taken (t.freshId stem).1 = false :=
  ⟨⟨h.of_counters _, fun _ => id, fun _ => id⟩, h.freshId_free stem⟩

end Retains

end RuleTable

section Operations

/-- The operations of a scope that define a rule. -/
inductive Defines : Build RuleHandle → Prop
  | define (scope : Scope) (production : String) : Defines (scope.define production)
  | defineNamed (scope : Scope) (name production : String) :
    Defines (scope.defineNamed name production)
  | oneOrMore (scope : Scope) (element : String) : Defines (scope.oneOrMore element)

/-- The operations of a scope that claim an id. -/
inductive Claims : Build Reservation → Prop
  | reserve (scope : Scope) : Claims scope.reserve
  | reserveNamed (scope : Scope) (name : String) : Claims (scope.reserveNamed name)

variable {s s' : Session}

section Edits

variable {α : Type} {change : RuleTable → Except RuleError RuleTable} {a b : α}

theorem edit_retains {t : RuleTable} (h : t.Retains s.table)
    (hchange : ∀ t', change s.table = .ok t' → t.Retains t') :
    t.Retains (finalState ((do edit change; return a : Build α) s)).table := by
  rcases edit_cases change s with ⟨t', ht, hedit⟩ | ⟨e, hedit⟩
  · rw [bind_of_ok hedit]
    exact hchange t' ht
  · rw [bind_of_error hedit]
    exact h

theorem edit_eq_ok (h : (do edit change; return a : Build α) s = .ok b s') :
    b = a ∧ ∃ t, change s.table = .ok t ∧ s' = { s with table := t } := by
  rcases edit_cases change s with ⟨t, ht, hedit⟩ | ⟨e, hedit⟩
  · rw [bind_of_ok hedit] at h
    cases h
    exact ⟨rfl, t, ht, rfl⟩
  · rw [bind_of_error hedit] at h
    cases h

theorem insert_retains {t t' : RuleTable} {id production : String} (h : t.Retains t')
    {t'' : RuleTable} (hinsert : t'.insert id production = .ok t'') : t.Retains t'' := by
  obtain ⟨hfree, -, rfl⟩ := RuleTable.eq_of_insert hinsert
  exact h.push production hfree

end Edits

/-- A definition leaves everything taken that was taken. -/
theorem Defines.retains {m : Build RuleHandle} (h : Defines m) (hwf : s.table.WellFormed) :
    s.table.Retains (finalState (m s)).table := by
  cases h with
  | define scope production =>
    have hfresh := (RuleTable.Retains.freshId hwf scope.stem).1
    exact edit_retains (s := { s with table := _ }) hfresh fun _ => insert_retains hfresh
  | defineNamed scope name production =>
    exact edit_retains (.refl hwf) fun _ => insert_retains (.refl hwf)
  | oneOrMore scope element =>
    obtain ⟨hfresh, hfree⟩ := RuleTable.Retains.freshId hwf scope.stem
    rw [Scope.oneOrMore_eq]
    exact hfresh.fulfil _ hfree

/-- The id of a definition was free. -/
theorem Defines.free {m : Build RuleHandle} (h : Defines m) (hwf : s.table.WellFormed)
    {rule : RuleHandle} (hrun : m s = .ok rule s') : s.table.taken rule.id = false := by
  cases h with
  | define scope production =>
    obtain ⟨rfl, -⟩ := edit_eq_ok ((scope.define_eq production s).symm.trans hrun)
    exact hwf.freshId_free scope.stem
  | defineNamed scope name production =>
    obtain ⟨rfl, t, ht, -⟩ := edit_eq_ok hrun
    exact (RuleTable.eq_of_insert ht).1
  | oneOrMore scope element =>
    rw [Scope.oneOrMore_eq] at hrun
    cases hrun
    exact hwf.freshId_free scope.stem

/-- A claim leaves everything taken that was taken. -/
theorem Claims.retains {m : Build Reservation} (h : Claims m) (hwf : s.table.WellFormed) :
    s.table.Retains (finalState (m s)).table := by
  cases h with
  | reserve scope =>
    obtain ⟨hfresh, hfree⟩ := RuleTable.Retains.freshId hwf scope.stem
    exact hfresh.claim hfree
  | reserveNamed scope name =>
    refine edit_retains (.refl hwf) fun t ht => ?_
    obtain ⟨hfree, rfl⟩ := RuleTable.eq_of_reserve ht
    exact (RuleTable.Retains.refl hwf).claim hfree

/-- The id of a reservation was free, and is reserved. -/
theorem Claims.reserved {m : Build Reservation} (h : Claims m) (hwf : s.table.WellFormed)
    {r : Reservation} (hrun : m s = .ok r s') :
    s.table.taken r.id = false ∧ s'.table.reserved.contains r.id = true := by
  have hclaimed (t : RuleTable) (id : String) : (t.claim id).reserved.contains id = true := by
    simp [RuleTable.reserved_claim]
  cases h with
  | reserve scope =>
    cases hrun
    exact ⟨hwf.freshId_free scope.stem, hclaimed _ _⟩
  | reserveNamed scope name =>
    obtain ⟨rfl, t, ht, rfl⟩ := edit_eq_ok hrun
    obtain ⟨hfree, rfl⟩ := RuleTable.eq_of_reserve ht
    exact ⟨hfree, hclaimed _ _⟩

end Operations

/-- A table, and what its client has done with the reservations it was given: each can be committed
once, and is spent then even if its production was refused. -/
structure ReservationBook where
  session : Session := {}
  issued : List Reservation := []
  spent : List Reservation := []

def ReservationBook.table (book : ReservationBook) : RuleTable := book.session.table

abbrev Booking := EStateM RuleError ReservationBook

namespace Booking

def ofBuild {α : Type} (m : Build α) : Booking α := fun book =>
  match m book.session with
  | .ok a session => .ok a { book with session }
  | .error e session => .error e { book with session }

def issue (m : Build Reservation) : Booking Reservation := do
  let r ← ofBuild m
  modify fun book => { book with issued := book.issued ++ [r] }
  return r

/-- Commits a reservation of this table that has not been spent. -/
def spend (r : Reservation) (production : String) : Booking RuleHandle := do
  let book ← get
  if r ∈ book.issued ∧ r ∉ book.spent then
    set { book with spent := book.spent ++ [r] }
    ofBuild (commit r production)
  else
    throw (.notReserved r.id)

/-- A memoized fragment, whose build may do whatever its client may do. -/
def memoized (stem : String) (build : Scope → Booking String) : Booking RuleHandle := do
  let scope : Scope := ⟨stem⟩
  if (← get).table.defined (scope.idOf "decl") then
    return ⟨scope.idOf "decl"⟩
  else
    let production ← build scope
    ofBuild (scope.defineNamed "decl" production)

/-- What a client of the table can do in a step. Only reservations that the table has issued are
committed. -/
inductive Step : (α : Type) → Booking α → Prop
  | look : Step ReservationBook get
  | rule {m : Build RuleHandle} (h : Defines m) : Step RuleHandle (ofBuild m)
  | slot {m : Build Reservation} (h : Claims m) : Step Reservation (issue m)
  | spend (r : Reservation) (production : String) : Step RuleHandle (spend r production)

/-- Runs of such steps, some of which may fail. -/
abbrev Run {α : Type} (m : Booking α) : Prop := Program Step m

theorem Run.memoized (stem : String) {build : Scope → Booking String}
    (h : ∀ scope, Run (build scope)) : Run (memoized stem build) := by
  refine .bind (.step .look) fun book => ?_
  split
  · exact .pure _
  · exact (h ⟨stem⟩).bind fun production => .step (.rule (.defineNamed _ _ production))

/-- The operations that give an id out, memoized fragments among them. -/
inductive Offers : {α : Type} → Booking α → (α → String) → Prop
  | rule {m : Build RuleHandle} (h : Defines m) : Offers (ofBuild m) RuleHandle.id
  | slot {m : Build Reservation} (h : Claims m) : Offers (issue m) Reservation.id
  | memoized (stem : String) {build : Scope → Booking String} (h : ∀ scope, Run (build scope)) :
    Offers (memoized stem build) RuleHandle.id

section Sessions

variable {α : Type} {m : Build α} {book book' : ReservationBook} {a : α} {e : RuleError}
  {s : Session}

theorem ofBuild_ok (h : m book.session = .ok a s) :
    ofBuild m book = .ok a { book with session := s } := by
  rw [ofBuild, h]

theorem ofBuild_error (h : m book.session = .error e s) :
    ofBuild m book = .error e { book with session := s } := by
  rw [ofBuild, h]

theorem finalState_ofBuild (m : Build α) (book : ReservationBook) :
    finalState (ofBuild m book) = { book with session := finalState (m book.session) } := by
  cases h : m book.session with
  | ok a s => rw [ofBuild_ok h]; rfl
  | error e s => rw [ofBuild_error h]; rfl

theorem ofBuild_eq_ok (h : ofBuild m book = .ok a book') :
    ∃ s, m book.session = .ok a s ∧ book' = { book with session := s } := by
  cases hm : m book.session with
  | ok b s =>
    rw [ofBuild_ok hm] at h
    cases h
    exact ⟨s, rfl, rfl⟩
  | error e s =>
    rw [ofBuild_error hm] at h
    cases h

/-- A memoized fragment whose build does nothing with reservations is the memoized fragment of the
table. -/
theorem memoized_ofBuild (stem : String) (build : Scope → Build String) :
    memoized stem (fun scope => ofBuild (build scope)) =
      ofBuild (RecordGrammar.memoized stem build) := by
  funext book
  rw [memoized, get_bind, ofBuild, RecordGrammar.memoized, get_bind]
  by_cases hd : book.session.table.defined (Scope.idOf ⟨stem⟩ "decl") = true
  · rw [if_pos hd]
    exact congrFun (if_pos hd) book
  · rw [if_neg hd]
    refine (congrFun (if_neg hd) book).trans ?_
    cases h : build ⟨stem⟩ book.session with
    | ok production s =>
      rw [bind_of_ok h, bind_of_ok (ofBuild_ok h)]
      rfl
    | error e s => rw [bind_of_error h, bind_of_error (ofBuild_error h)]

end Sessions

end Booking

theorem RuleTable.taken_iff {t : RuleTable} {id : String} :
    t.taken id = true ↔ t.defined id = true ∨ t.reserved.contains id = true := by
  rw [taken, Bool.or_eq_true]

namespace ReservationBook

/-- What becomes of a book in a run: nothing that is taken is given free, a reservation is given up
only by being spent, and a new one is kept unless it is spent. -/
structure Advances (book book' : ReservationBook) : Prop where
  wellFormed : book'.table.WellFormed
  taken (id : String) : book.table.taken id = true → book'.table.taken id = true
  spent : book.spent ⊆ book'.spent
  reserved (r : Reservation) : book.table.reserved.contains r.id = true →
    book'.table.reserved.contains r.id = true ∨ r ∉ book.spent ∧ r ∈ book'.spent
  issued (r : Reservation) : r ∈ book'.issued →
    r ∈ book.issued ∨ book'.table.reserved.contains r.id = true ∨ r ∈ book'.spent

namespace Advances

variable {book book' book'' : ReservationBook}

theorem of_retains {s : Session} (h : book.table.Retains s.table) :
    book.Advances { book with session := s } where
  wellFormed := h.wellFormed
  taken id hid := by
    rw [RuleTable.taken_iff] at hid ⊢
    exact hid.imp (h.defined id) (h.reserved id)
  spent := List.Subset.refl _
  reserved r hr := .inl (h.reserved r.id hr)
  issued _ hr := .inl hr

theorem refl (h : book.table.WellFormed) : book.Advances book := of_retains (.refl h)

theorem trans (h : book.Advances book') (h' : book'.Advances book'') : book.Advances book'' where
  wellFormed := h'.wellFormed
  taken id hid := h'.taken id (h.taken id hid)
  spent := List.Subset.trans h.spent h'.spent
  reserved r hr := by
    rcases h.reserved r hr with hr | ⟨hnot, hspent⟩
    · exact (h'.reserved r hr).imp_right fun ⟨hnot, hspent⟩ => ⟨fun hr => hnot (h.spent hr), hspent⟩
    · exact .inr ⟨hnot, h'.spent hspent⟩
  issued r hr := by
    rcases h'.issued r hr with hr | hkept
    · rcases h.issued r hr with hr | hreserved | hspent
      · exact .inl hr
      · exact .inr ((h'.reserved r hreserved).imp_right And.right)
      · exact .inr (.inr (h'.spent hspent))
    · exact .inr hkept

/-- A reservation that is issued with its id claimed. -/
theorem issue {r : Reservation} (h : book.Advances book')
    (hreserved : book'.table.reserved.contains r.id = true) :
    book.Advances { book' with issued := book'.issued ++ [r] } where
  wellFormed := h.wellFormed
  taken := h.taken
  spent := h.spent
  reserved := h.reserved
  issued r' hr' := by
    rcases List.mem_append.1 hr' with hr' | hr'
    · exact h.issued r' hr'
    · rw [List.mem_singleton.1 hr']
      exact .inr (.inl hreserved)

/-- A reservation that is spent: its id is given up for a rule, or for nothing. -/
theorem spend {r : Reservation} (production : String) (hwf : book.table.WellFormed)
    (hspent : r ∉ book.spent) :
    let opened : ReservationBook := { book with spent := book.spent ++ [r] }
    book.Advances (finalState (Booking.ofBuild (commit r production) opened)) := by
  intro opened
  have hopened : book.Advances opened :=
    { wellFormed := hwf
      taken := fun _ => id
      spent := List.subset_append_left _ _
      reserved := fun _ => .inl
      issued := fun _ => .inl }
  rw [Booking.finalState_ofBuild, commit]
  rcases edit_cases (·.commit r.id production) opened.session with ⟨t, ht, hedit⟩ | ⟨e, hedit⟩
  · rw [bind_of_ok hedit]
    have hwf' := (RuleTable.commit_grows ht).wellFormed hwf
    obtain ⟨-, -, rfl⟩ := RuleTable.eq_of_commit ht
    have hreserved (id : String) (hid : id ≠ r.id) (h : book.table.reserved.contains id = true) :
        ((book.table.release r.id).push r.id production).reserved.contains id = true := by
      rw [RuleTable.reserved_push, RuleTable.reserved_release, h, Bool.and_true]
      exact decide_eq_true hid
    refine ⟨hwf', fun id hid => ?_, hopened.spent, fun r' hr' => ?_, fun _ => .inl⟩
    · rw [RuleTable.taken_iff] at hid ⊢
      by_cases hsame : id = r.id
      · exact .inl ((RuleTable.defined_push id).trans (by simp [hsame]))
      · refine hid.imp (fun hid => ?_) (hreserved id hsame)
        exact (RuleTable.defined_push id).trans (Bool.or_eq_true_iff.2 (.inr hid))
    · by_cases hsame : r' = r
      · rw [hsame]
        exact .inr ⟨hspent, List.mem_append_right _ (List.mem_singleton.2 rfl)⟩
      · refine .inl (hreserved r'.id (fun hid => hsame ?_) hr')
        exact congrArg Reservation.mk hid
  · rw [bind_of_error hedit]
    exact hopened

end Advances

end ReservationBook

open ReservationBook in
/-- Every step advances the book. -/
theorem Booking.Step.advances {α : Type} {m : Booking α} (h : Booking.Step α m)
    {book : ReservationBook} (hwf : book.table.WellFormed) :
    book.Advances (finalState (m book)) := by
  cases h with
  | look => exact .refl hwf
  | @rule m h =>
    rw [finalState_ofBuild]
    exact .of_retains (h.retains hwf)
  | @slot m h =>
    have hrun : book.Advances (finalState (ofBuild m book)) := by
      rw [finalState_ofBuild]
      exact .of_retains (h.retains hwf)
    cases hm : m book.session with
    | ok r s =>
      rw [ofBuild_ok hm] at hrun
      rw [issue, bind_of_ok (ofBuild_ok hm)]
      exact hrun.issue (h.reserved hwf hm).2
    | error e s =>
      rw [ofBuild_error hm] at hrun
      rw [issue, bind_of_error (ofBuild_error hm)]
      exact hrun
  | spend r production =>
    rw [Booking.spend, get_bind]
    by_cases hguard : r ∈ book.issued ∧ r ∉ book.spent
    · rw [if_pos hguard]
      exact Advances.spend production hwf hguard.2
    · rw [if_neg hguard]
      exact .refl hwf

namespace ReservationBook

/-- A book that some run leads to, whether it fails or not. -/
def Later (book later : ReservationBook) : Prop :=
  ∃ (α : Type) (m : Booking α), Booking.Run m ∧ later = finalState (m book)

theorem Later.advances {book later : ReservationBook} (h : book.Later later)
    (hwf : book.table.WellFormed) : book.Advances later := by
  obtain ⟨_, m, hm, rfl⟩ := h
  refine hm.run (R := fun book book' => book.table.WellFormed → book.Advances book')
    (fun _ => .refl) (fun _ _ _ h h' hwf => ?_) (fun _ _ h _ => h.advances) book hwf
  exact (h hwf).trans (h' (h hwf).wellFormed)

open Booking in
/-- A book whose table keeps an id from everyone: it is neither found nor listed, whoever asks for
it by name is refused, and it is passed over where ids are given out. -/
structure Withholds (book : ReservationBook) (id : String) : Prop where
  undefined : book.table.defined id = false
  not_found : ofBuild (lookup id) book = .error (.notFound id) book
  unlisted : book.table.text =
    "\n".intercalate ((book.table.rules.toList.filter (·.id ≠ id)).map Rule.line)
  refused (scope : Scope) (name : String) : scope.idOf name = id →
    (∀ production, ofBuild (scope.defineNamed name production) book = .error (.redefined id) book) ∧
      issue (scope.reserveNamed name) book = .error (.redefined id) book
  passed_over {α : Type} {op : Booking α} {name : α → String} : Offers op name →
    ∀ a book', op book = .ok a book' → name a ≠ id

section Withheld

variable {book : ReservationBook} {id : String}

/-- No operation gives out an id that is reserved, not even a memoized fragment whose build spends
the reservation. -/
theorem ne_of_offers (hwf : book.table.WellFormed) (h : book.table.reserved.contains id = true)
    {α : Type} {op : Booking α} {name : α → String} (hop : Booking.Offers op name) {a : α}
    {book' : ReservationBook} (hrun : op book = .ok a book') : name a ≠ id := by
  have htaken : book.table.taken id = true := RuleTable.taken_iff.2 (.inr h)
  have hfree {x : String} (hx : book.table.taken x = false) : x ≠ id := by
    rintro rfl
    rw [htaken] at hx
    cases hx
  cases hop with
  | rule hm =>
    obtain ⟨s, hs, -⟩ := Booking.ofBuild_eq_ok hrun
    exact hfree (hm.free hwf hs)
  | slot hm =>
    obtain ⟨r, u, hr, hrest⟩ := bind_eq_ok hrun
    obtain ⟨s, hs, -⟩ := Booking.ofBuild_eq_ok hr
    cases hrest
    exact hfree (hm.reserved hwf hs).1
  | @memoized stem build hprogram =>
    rw [Booking.memoized, get_bind] at hrun
    by_cases hd : book.table.defined (Scope.idOf ⟨stem⟩ "decl") = true
    · rw [if_pos hd] at hrun
      cases hrun
      rintro rfl
      rw [hwf.reserved_undefined _ h] at hd
      cases hd
    · rw [if_neg hd] at hrun
      obtain ⟨production, u, hbuilt, hrun⟩ := bind_eq_ok hrun
      have hlater : book.Later u := ⟨_, _, hprogram ⟨stem⟩, by rw [hbuilt]; rfl⟩
      obtain ⟨s, hs, -⟩ := Booking.ofBuild_eq_ok hrun
      obtain ⟨rfl, t, ht, -⟩ := edit_eq_ok hs
      -- What was taken before the build is taken behind it, whatever the build has spent.
      have hstill := (hlater.advances hwf).taken id htaken
      rintro rfl
      exact Bool.false_ne_true ((RuleTable.eq_of_insert ht).1.symm.trans hstill)

theorem withholds_of_reserved (hwf : book.table.WellFormed)
    (h : book.table.reserved.contains id = true) : book.Withholds id := by
  have hundefined := hwf.reserved_undefined id h
  have htaken : book.table.taken id = true := RuleTable.taken_iff.2 (.inr h)
  have hrule : book.table.rule id = .error (.notFound id) := by
    rw [RuleTable.rule, hwf.rule?_eq_none_iff.2 hundefined]
    rfl
  refine ⟨hundefined, ?_, ?_, fun scope name hid => ⟨fun production => ?_, ?_⟩,
    fun hop a book' hrun => ne_of_offers hwf h hop hrun⟩
  · apply Booking.ofBuild_error
    rw [lookup, get_bind]
    simp only [show book.session.table.rule id = _ from hrule]
    rfl
  · have hall : book.table.rules.toList.filter (·.id ≠ id) = book.table.rules.toList := by
      rw [List.filter_eq_self]
      intro r hr
      refine decide_eq_true fun hid => ?_
      rw [hwf.defined_iff.2 ⟨r, hr, hid⟩] at hundefined
      cases hundefined
    rw [hall]
    rfl
  · apply Booking.ofBuild_error
    rw [Scope.defineNamed, hid]
    exact bind_of_error (edit_error (if_pos htaken))
  · refine bind_of_error (Booking.ofBuild_error ?_)
    rw [Scope.reserveNamed, hid]
    exact bind_of_error (edit_error (RuleTable.reserve_eq_error htaken))

end Withheld

section Protocol

variable {book : ReservationBook} {r : Reservation}

theorem wellFormed_of_later (h : Later {} book) : book.table.WellFormed :=
  (h.advances RuleTable.wellFormed_empty).wellFormed

/-- An issued reservation is kept until it is spent. -/
theorem reserved_of_issued (h : Later {} book) (hissued : r ∈ book.issued)
    (hspent : r ∉ book.spent) : book.table.reserved.contains r.id = true := by
  rcases (h.advances RuleTable.wellFormed_empty).issued r hissued with hr | hr | hr
  · cases hr
  · exact hr
  · exact absurd hr hspent

theorem spend_eq_ok (hissued : r ∈ book.issued) (hspent : r ∉ book.spent)
    (hreserved : book.table.reserved.contains r.id = true) {production : String}
    (hp : production ≠ "") : Booking.spend r production book = .ok r.handle
      { book with
        session := { book.session with table := (book.table.release r.id).push r.id production }
        spent := book.spent ++ [r] } := by
  let opened : ReservationBook := { book with spent := book.spent ++ [r] }
  have hcommit : commit r production opened.session = .ok r.handle
      { book.session with table := (book.table.release r.id).push r.id production } :=
    commit_ok (RuleTable.commit_eq_ok hreserved hp)
  rw [Booking.spend, get_bind, if_pos ⟨hissued, hspent⟩]
  exact Booking.ofBuild_ok hcommit

theorem spend_empty (hissued : r ∈ book.issued) (hspent : r ∉ book.spent)
    (hreserved : book.table.reserved.contains r.id = true) :
    Booking.spend r "" book =
      .error (.emptyProduction r.id) { book with spent := book.spent ++ [r] } := by
  let opened : ReservationBook := { book with spent := book.spent ++ [r] }
  have hrefused : book.table.commit r.id "" = .error (.emptyProduction r.id) := by
    rw [RuleTable.commit, hreserved]
    rfl
  have hcommit : commit r "" opened.session = .error (.emptyProduction r.id) book.session :=
    bind_of_error (edit_error hrefused)
  rw [Booking.spend, get_bind, if_pos ⟨hissued, hspent⟩]
  exact Booking.ofBuild_error hcommit

/-- The protocol of reservations. Wherever a run stands, a reservation that was issued in it and has
not been committed is withheld from everything else. It can be committed then, which adds its rule
and nothing more; and if the production was empty, its id is withheld for ever. -/
theorem Later.reservation_protocol (hreach : Later {} book) (hissued : r ∈ book.issued)
    (hspent : r ∉ book.spent) : book.Withholds r.id ∧
      (∀ production, production ≠ "" → ∃ book',
        Booking.spend r production book = .ok r.handle book' ∧
          book'.table.rules.toList = book.table.rules.toList ++ [⟨r.id, production⟩]) ∧
      ∃ book', Booking.spend r "" book = .error (.emptyProduction r.id) book' ∧
        ∀ later, book'.Later later → later.Withholds r.id := by
  have hwf := wellFormed_of_later hreach
  have hreserved := reserved_of_issued hreach hissued hspent
  refine ⟨withholds_of_reserved hwf hreserved, fun production hp => ?_,
    _, spend_empty hissued hspent hreserved, fun later hlater => ?_⟩
  · exact ⟨_, spend_eq_ok hissued hspent hreserved hp, RuleTable.toList_rules_push⟩
  · have hadvances := hlater.advances (show RuleTable.WellFormed _ from hwf)
    refine withholds_of_reserved hadvances.wellFormed ?_
    refine (hadvances.reserved r hreserved).resolve_right fun ⟨hnot, _⟩ => hnot ?_
    exact List.mem_append_right _ (List.mem_singleton.2 rfl)

end Protocol

open Booking in
/-- A run in which an id is reserved that another scope would give out as its first automatic one,
and in which a fragment of a third scope refers to it and is refused a definition of it. -/
def heldReservation : Booking Unit := do
  let slot ← issue (Scope.reserveNamed ⟨"p"⟩ "1_0")
  let _ ← ofBuild (Scope.define ⟨"p_1"⟩ "\"x\"")
  let _ ← Booking.memoized "q" fun scope => do
    let half ← ofBuild (scope.define slot.text)
    let _ ← ofBuild (Scope.defineNamed ⟨"p"⟩ "1_0" "\"y\"")
    return concatenation [half.text, half.text]

theorem heldReservation_run : Booking.Run heldReservation :=
  .bind (.step (.slot (.reserveNamed _ _))) fun _ => .bind (.step (.rule (.define _ _))) fun _ =>
    .map (Booking.Run.memoized "q" fun scope => .bind (.step (.rule (.define scope _))) fun _ =>
      .map (.step (.rule (.defineNamed _ _ _))) _) _

/-- The reservation is still open behind the failed fragment, and its rule comes last. -/
theorem heldReservation_protocol :
    let book := finalState (heldReservation {})
    heldReservation {} = .error (.redefined "p_1_0") book ∧
      book.table.rules.toList = [⟨"p_1_1", "\"x\""⟩, ⟨"q_0", "<p_1_0>"⟩] ∧
      book.Withholds "p_1_0" ∧
      (∃ book', Booking.spend ⟨"p_1_0"⟩ "\"z\"" book = .ok ⟨"p_1_0"⟩ book' ∧
        book'.table.rules.toList = book.table.rules.toList ++ [⟨"p_1_0", "\"z\""⟩]) ∧
      ∃ book', Booking.spend ⟨"p_1_0"⟩ "" book = .error (.emptyProduction "p_1_0") book' ∧
        ∀ later, book'.Later later → later.Withholds "p_1_0" := by
  intro book
  have hissued : (⟨"p_1_0"⟩ : Reservation) ∈ book.issued := by decide +kernel
  have hspent : (⟨"p_1_0"⟩ : Reservation) ∉ book.spent := by decide +kernel
  have hreach : Later {} book := ⟨_, _, heldReservation_run, rfl⟩
  obtain ⟨hwithheld, hspend, hempty⟩ := hreach.reservation_protocol hissued hspent
  refine ⟨?_, ?_, hwithheld, hspend _ (by decide), hempty⟩
  · rfl
  · decide +kernel

end ReservationBook

end RecordGrammar
