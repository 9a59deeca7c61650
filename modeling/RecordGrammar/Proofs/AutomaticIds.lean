import RecordGrammar.Proofs.MemoizedBuilds
import RecordGrammar.Proofs.ReservationProtocol

/-! # Automatic ids

The search for an automatic id tries one number after the other, and nothing but the table makes it
stop: each round that does not end it has met another id that is taken. An id that has been handed
out is taken from then on, as a rule or as a reservation, and so is not met again under any stem. -/

namespace RecordGrammar

namespace RuleTable

/-- The search of a stem from a number on, with its rounds and the number that it stops at. -/
inductive Search (t : RuleTable) (stem : String) : Nat → Nat → Nat → Prop where
  | free {n} (h : t.taken (autoId stem n) = false) : Search t stem n 1 n
  | taken {n rounds found} (h : t.taken (autoId stem n) = true)
      (rest : Search t stem (n + 1) rounds found) : Search t stem n (rounds + 1) found

variable {t t' t'' : RuleTable} {stem : String}

theorem Search.is_free {n rounds found : Nat} (h : t.Search stem n rounds found) :
    t.taken (autoId stem found) = false := by
  induction h with
  | free h => exact h
  | taken _ _ ih => exact ih

/-- Where a free number is near enough, the search stops before it has used up its rounds. -/
theorem search_firstFree {rounds n : Nat}
    (h : ∃ k < rounds, t.taken (autoId stem (n + k)) = false) :
    ∃ used ≤ rounds, t.Search stem n used (t.firstFree stem rounds n) := by
  induction rounds generalizing n with
  | zero =>
    obtain ⟨k, hk, -⟩ := h
    exact absurd hk (Nat.not_lt_zero k)
  | succ rounds ih =>
    rw [firstFree]
    cases hn : t.taken (autoId stem n) with
    | false => exact ⟨1, by omega, .free hn⟩
    | true =>
      obtain ⟨k, hk, hfree⟩ := h
      have hne : k ≠ 0 := by
        rintro rfl
        rw [Nat.add_zero, hn] at hfree
        cases hfree
      have hnext : n + 1 + (k - 1) = n + k := by omega
      obtain ⟨used, hused, hsearch⟩ := ih ⟨k - 1, by omega, by rwa [hnext]⟩
      exact ⟨used + 1, by omega, .taken hn hsearch⟩

/-- The next automatic id is what the search finds from the counter on. -/
theorem WellFormed.search_freshId (h : t.WellFormed) (stem : String) :
    ∃ rounds n, rounds ≤ t.size + t.reserved.size + 1 ∧
      t.Search stem (t.counters.getD stem 0) rounds n ∧ (t.freshId stem).1 = autoId stem n := by
  obtain ⟨rounds, hrounds, hsearch⟩ := search_firstFree (h.exists_free stem (t.counters.getD stem 0))
  exact ⟨rounds, _, hrounds, hsearch, rfl⟩

/-- An operation on a table, with the automatic ids that it hands out. -/
inductive Hands : RuleTable → List String → RuleTable → Prop where
  | define (scope : Scope) (production : String) {s s' : Session} {rule : RuleHandle}
      (h : scope.define production s = .ok rule s') : Hands s.table [rule.id] s'.table
  | oneOrMore (scope : Scope) (element : String) {s s' : Session} {rule : RuleHandle}
      (h : scope.oneOrMore element s = .ok rule s') : Hands s.table [rule.id] s'.table
  | reserve (scope : Scope) {s s' : Session} {slot : Reservation}
      (h : scope.reserve s = .ok slot s') : Hands s.table [slot.id] s'.table
  | refused (scope : Scope) (production : String) {s s' : Session} {e : RuleError}
      (h : scope.define production s = .error e s') : Hands s.table [] s'.table
  | defineNamed (scope : Scope) (name production : String) (s : Session) :
      Hands s.table [] (finalState (scope.defineNamed name production s)).table
  | reserveNamed (scope : Scope) (name : String) (s : Session) :
      Hands s.table [] (finalState (scope.reserveNamed name s)).table
  | commit (r : Reservation) (production : String) (s : Session) :
      Hands s.table [] (finalState (RecordGrammar.commit r production s)).table

/-- A run of operations, whatever scopes they are made in, with all the automatic ids that they hand
out. -/
inductive HandsOut (t : RuleTable) : List String → RuleTable → Prop where
  | start : HandsOut t [] t
  | step {ids more : List String} {t' t'' : RuleTable} (before : HandsOut t ids t')
      (h : t'.Hands more t'') : HandsOut t (ids ++ more) t''

theorem HandsOut.append {ids more : List String} (h : t.HandsOut ids t')
    (h' : t'.HandsOut more t'') : t.HandsOut (ids ++ more) t'' := by
  induction h' with
  | start => rwa [List.append_nil]
  | step _ hlast ih =>
    rw [← List.append_assoc]
    exact ih.step hlast

theorem Hands.run {ids : List String} (h : t.Hands ids t') : ∃ ids, t.HandsOut ids t' :=
  ⟨[] ++ ids, .step .start h⟩

/-- Whatever is done to a table is such a run. -/
theorem handsOut_evolution : Evolution fun t t' => ∃ ids, t.HandsOut ids t' where
  refl t := ⟨[], .start⟩
  trans := fun ⟨_, h⟩ ⟨_, h'⟩ => ⟨_, h.append h'⟩
  step {α m} hm s := by
    cases hm with
    | look => exact ⟨[], .start⟩
    | note event => exact ⟨[], .start⟩
    | define scope production =>
      cases hrun : scope.define production s with
      | ok rule s' => exact (Hands.define scope production hrun).run
      | error e s' => exact (Hands.refused scope production hrun).run
    | defineNamed scope name production => exact (Hands.defineNamed scope name production s).run
    | reserve scope => exact (Hands.reserve scope (scope.reserve_eq s)).run
    | reserveNamed scope name => exact (Hands.reserveNamed scope name s).run
    | commit r production => exact (Hands.commit r production s).run

/-- Ids that were free in a table, each of them once, and are taken in another one, in which no id
has come free. -/
structure Supplies (t : RuleTable) (ids : List String) (t' : RuleTable) : Prop where
  wellFormed : t'.WellFormed
  taken (id : String) : t.taken id = true → t'.taken id = true
  nodup : ids.Nodup
  fresh (id : String) : id ∈ ids → t.taken id = false ∧ t'.taken id = true

namespace Supplies

theorem append {ids more : List String} (h : t.Supplies ids t') (h' : t'.Supplies more t'') :
    t.Supplies (ids ++ more) t'' where
  wellFormed := h'.wellFormed
  taken id hid := h'.taken id (h.taken id hid)
  nodup := by
    refine List.nodup_append.2 ⟨h.nodup, h'.nodup, fun id hid other hother => ?_⟩
    rintro rfl
    exact Bool.false_ne_true ((h'.fresh id hother).1.symm.trans (h.fresh id hid).2)
  fresh id hid := by
    rcases List.mem_append.1 hid with hid | hid
    · obtain ⟨hfree, htaken⟩ := h.fresh id hid
      exact ⟨hfree, h'.taken id htaken⟩
    · obtain ⟨hfree, htaken⟩ := h'.fresh id hid
      refine ⟨Bool.eq_false_iff.2 fun hold => ?_, htaken⟩
      exact Bool.false_ne_true (hfree.symm.trans (h.taken id hold))

theorem none (hwf : t'.WellFormed) (h : ∀ id, t.taken id = true → t'.taken id = true) :
    t.Supplies [] t' :=
  ⟨hwf, h, List.nodup_nil, fun _ hid => absurd hid List.not_mem_nil⟩

theorem of_retains (h : t.Retains t') : t.Supplies [] t' :=
  none h.wellFormed fun id hid => taken_iff.2 ((taken_iff.1 hid).imp (h.defined id) (h.reserved id))

theorem one {id : String} (h : t.Supplies [] t') (hfree : t.taken id = false)
    (htaken : t'.taken id = true) : t.Supplies [id] t' where
  wellFormed := h.wellFormed
  taken := h.taken
  nodup := List.nodup_singleton id
  fresh other hother := by
    rw [List.mem_singleton.1 hother]
    exact ⟨hfree, htaken⟩

end Supplies

end RuleTable

/-- A rule that has been defined is committed. -/
theorem Defines.committed {m : Build RuleHandle} (h : Defines m) {s s' : Session}
    {rule : RuleHandle} (hrun : m s = .ok rule s') : s'.table.defined rule.id = true := by
  have hpush (t : RuleTable) (id production : String) : (t.push id production).defined id = true := by
    simp [RuleTable.defined_push]
  cases h with
  | define scope production =>
    obtain ⟨rfl, t, ht, rfl⟩ := edit_eq_ok ((scope.define_eq production s).symm.trans hrun)
    obtain ⟨-, -, rfl⟩ := RuleTable.eq_of_insert ht
    exact hpush _ _ _
  | defineNamed scope name production =>
    obtain ⟨rfl, t, ht, rfl⟩ := edit_eq_ok hrun
    obtain ⟨-, -, rfl⟩ := RuleTable.eq_of_insert ht
    exact hpush _ _ _
  | oneOrMore scope element =>
    rw [Scope.oneOrMore_eq] at hrun
    cases hrun
    exact hpush _ _ _

namespace RuleTable

variable {t t' : RuleTable} {ids : List String}

/-- A reservation that is committed, of this table or of another one, gives no id free. -/
theorem commit_supplies (r : Reservation) (production : String) {s : Session}
    (hwf : s.table.WellFormed) :
    s.table.Supplies [] (finalState (RecordGrammar.commit r production s)).table := by
  rw [RecordGrammar.commit]
  rcases edit_cases (·.commit r.id production) s with ⟨t, ht, hedit⟩ | ⟨e, hedit⟩
  · have hwf' := (commit_grows ht).wellFormed hwf
    obtain ⟨-, -, rfl⟩ := eq_of_commit ht
    rw [bind_of_ok hedit]
    refine .none hwf' fun id hid => taken_iff.2 ?_
    by_cases hsame : id = r.id
    · exact .inl ((defined_push id).trans (by simp [hsame]))
    · refine (taken_iff.1 hid).imp (fun hid => ?_) fun hid => ?_
      · exact (defined_push id).trans (Bool.or_eq_true_iff.2 (.inr hid))
      · refine (reserved_push id).trans ((reserved_release _ _ _).trans ?_)
        rw [hid, Bool.and_true]
        exact decide_eq_true hsame
  · rw [bind_of_error hedit]
    exact .of_retains (.refl hwf)

theorem Hands.supplies (h : t.Hands ids t') (hwf : t.WellFormed) : t.Supplies ids t' := by
  have hkept {m : Build RuleHandle} (hm : Defines m) {s : Session} (hwf : s.table.WellFormed) :
      s.table.Supplies [] (finalState (m s)).table := .of_retains (hm.retains hwf)
  have hrule {m : Build RuleHandle} (hm : Defines m) {s s' : Session} {rule : RuleHandle}
      (hwf : s.table.WellFormed) (hrun : m s = .ok rule s') :
      s.table.Supplies [rule.id] s'.table := by
    have hsame := hkept hm hwf
    rw [hrun] at hsame
    exact hsame.one (hm.free hwf hrun) (taken_iff.2 (.inl (hm.committed hrun)))
  cases h with
  | define scope production hrun => exact hrule (.define scope production) hwf hrun
  | oneOrMore scope element hrun => exact hrule (.oneOrMore scope element) hwf hrun
  | @reserve scope s s' slot hrun =>
    have hclaims : Claims scope.reserve := .reserve scope
    obtain ⟨hfree, hreserved⟩ := hclaims.reserved hwf hrun
    have hsame := hclaims.retains hwf
    rw [hrun] at hsame
    exact (Supplies.of_retains hsame).one hfree (taken_iff.2 (.inr hreserved))
  | @refused scope production s s' e hrun =>
    have hsame := hkept (.define scope production) hwf
    rwa [hrun] at hsame
  | defineNamed scope name production s => exact hkept (.defineNamed scope name production) hwf
  | reserveNamed scope name s => exact .of_retains ((Claims.reserveNamed scope name).retains hwf)
  | commit r production s => exact commit_supplies r production hwf

/-- Every run hands out ids that were free before it, and none of them twice. -/
theorem HandsOut.supplies (h : t.HandsOut ids t') (hwf : t.WellFormed) : t.Supplies ids t' := by
  induction h with
  | start => exact .of_retains (.refl hwf)
  | step _ hlast ih => exact ih.append (hlast.supplies ih.wellFormed)

end RuleTable

/-- A definition is refused for an empty production, and for nothing else. -/
theorem Scope.define_eq_error_iff {s : Session} (hwf : s.table.WellFormed) (scope : Scope)
    (production : String) :
    (∃ e s', scope.define production s = .error e s') ↔ production = "" := by
  have hfree : (s.table.freshId scope.stem).2.taken (s.table.freshId scope.stem).1 = false :=
    hwf.freshId_free scope.stem
  rw [Scope.define_eq]
  by_cases hp : production = ""
  · rw [hp]
    exact iff_of_true ⟨_, _, bind_of_error (edit_error (RuleTable.insert_eq_error hfree))⟩ rfl
  · refine iff_of_false ?_ hp
    rintro ⟨e, s', hrun⟩
    rw [bind_of_ok (edit_ok (RuleTable.insert_eq_ok hfree hp))] at hrun
    cases hrun

namespace Workbench

variable {bench : Workbench}

/-- Automatic ids in whatever state a run over two empty tables has left them. The search of any
stem stops within one round more than there are rules and reservations, at an id that is neither
committed nor reserved; so definitions are refused for an empty production alone, and reservations
and repetitions never. From there on every run hands out other ids than those that are taken, and
no id twice, in whichever scopes it works. -/
theorem Later.automatic_ids_fresh (hreach : Workbench.Later {} bench) (side : Side) :
    (∀ stem, ∃ rounds n,
      rounds ≤ (bench.table side).size + (bench.table side).reserved.size + 1 ∧
      (bench.table side).Search stem ((bench.table side).counters.getD stem 0) rounds n ∧
      ((bench.table side).freshId stem).1 = stem ++ "_" ++ toString n ∧
      (bench.table side).defined (stem ++ "_" ++ toString n) = false ∧
      (bench.table side).reserved.contains (stem ++ "_" ++ toString n) = false) ∧
    (∀ (scope : Scope) production,
      (∃ e failed, onSide side (scope.define production) bench = .error e failed) ↔
        production = "") ∧
    (∀ scope : Scope, ∃ slot done, onSide side scope.reserve bench = .ok slot done) ∧
    (∀ (scope : Scope) element, ∃ rule done,
      onSide side (scope.oneOrMore element) bench = .ok rule done) ∧
    (∀ later, bench.Later later → ∃ ids, (bench.table side).HandsOut ids (later.table side)) ∧
    ∀ ids t, (bench.table side).HandsOut ids t →
      ids.Nodup ∧ ∀ id ∈ ids, (bench.table side).taken id = false := by
  have hwf : (bench.table side).WellFormed := hreach.wellFormed side
  refine ⟨fun stem => ?_, fun scope production => ?_, fun scope => ?_, fun scope element => ?_,
    fun later hlater => ?_, fun ids t hids => ?_⟩
  · obtain ⟨rounds, n, hrounds, hsearch, hid⟩ := hwf.search_freshId stem
    exact ⟨rounds, n, hrounds, hsearch, hid, RuleTable.taken_eq_false_iff.1 hsearch.is_free⟩
  · rw [← Scope.define_eq_error_iff (s := bench.session side) hwf scope production]
    constructor
    · rintro ⟨e, failed, hrun⟩
      obtain ⟨s, hs, -⟩ := onSide_eq_error hrun
      exact ⟨e, s, hs⟩
    · rintro ⟨e, s, hs⟩
      exact ⟨e, _, by rw [onSide, hs]⟩
  · exact ⟨_, _, by rw [onSide, Scope.reserve_eq]⟩
  · exact ⟨_, _, by rw [onSide, Scope.oneOrMore_eq]⟩
  · exact RuleTable.handsOut_evolution.later hlater side
  · have hsupplies := hids.supplies hwf
    exact ⟨hsupplies.nodup, fun id hid => (hsupplies.fresh id hid).1⟩

/-- Two names that another stem would number: one of them is reserved, and one committed. -/
def crowdedBench : Workbench := finalState (onSide .first (do
  let _ ← Scope.reserveNamed ⟨"p"⟩ "1_0"
  Scope.defineNamed ⟨"p"⟩ "1_1" "\"x\"") {})

/-- A definition, a reservation and a repetition, in two scopes. -/
theorem crowdedBench_handsOut :
    ∃ t, (crowdedBench.table .first).HandsOut ["p_1_2", "p_0", "p_1_3"] t := by
  let defined := finalState (Scope.define ⟨"p_1"⟩ "\"y\"" (crowdedBench.session .first))
  let reserved := finalState (Scope.reserve ⟨"p"⟩ defined)
  have hdefine : Scope.define ⟨"p_1"⟩ "\"y\"" (crowdedBench.session .first) =
    .ok ⟨"p_1_2"⟩ defined := rfl
  have hids : ["p_1_2", (defined.table.freshId "p").1, (reserved.table.freshId "p_1").1] =
      ["p_1_2", "p_0", "p_1_3"] := by
    decide +kernel
  rw [← hids]
  exact ⟨_, ((RuleTable.HandsOut.start.step (.define _ _ hdefine)).step
    (.reserve ⟨"p"⟩ (Scope.reserve_eq ⟨"p"⟩ defined))).step
      (.oneOrMore ⟨"p_1"⟩ "\"z\"" (Scope.oneOrMore_eq ⟨"p_1"⟩ "\"z\"" reserved))⟩

/-- The search meets everything that is taken before it stops, and the ids of a run in two scopes
are apart. -/
theorem crowdedBench_ids_fresh :
    let t := crowdedBench.table .first
    Workbench.Later {} crowdedBench ∧ t.Search "p_1" 0 3 2 ∧
      (∃ rounds n, rounds ≤ 3 ∧ t.Search "p_1" 0 rounds n ∧
        t.defined ("p_1" ++ "_" ++ toString n) = false ∧
        t.reserved.contains ("p_1" ++ "_" ++ toString n) = false) ∧
      (∃ e failed, onSide .first (Scope.define ⟨"p_1"⟩ "") crowdedBench = .error e failed) ∧
      ∃ ids t', t.HandsOut ids t' ∧ ids = ["p_1_2", "p_0", "p_1_3"] ∧ ids.Nodup := by
  intro t
  have hreach : Workbench.Later {} crowdedBench := ⟨_, _, .step (.table .first
    (.bind (.step (.reserveNamed _ _)) fun _ => .defineNamed _ _ _)), rfl⟩
  have hsearch : t.Search "p_1" 0 3 2 :=
    .taken (by decide +kernel) (.taken (by decide +kernel) (.free (by decide +kernel)))
  obtain ⟨hsearches, hdefine, -, -, -, hruns⟩ := hreach.automatic_ids_fresh .first
  obtain ⟨t', hrun⟩ := crowdedBench_handsOut
  obtain ⟨rounds, n, hrounds, hfound, -, hfree⟩ := hsearches "p_1"
  exact ⟨hreach, hsearch, ⟨rounds, n, hrounds, hfound, hfree⟩, (hdefine ⟨"p_1"⟩ "").2 rfl,
    _, t', hrun, rfl, (hruns _ t' hrun).1⟩

end Workbench

end RecordGrammar
