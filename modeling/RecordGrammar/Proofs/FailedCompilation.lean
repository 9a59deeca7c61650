import RecordGrammar.Proofs.CompileRuns
import RecordGrammar.Proofs.DerivedTexts

/-! # Compiling on the table that a failed compilation has left

A compilation that fails gives up its forward rules without committing them, and their ids stay
reserved in the table. -/

namespace RecordGrammar

/-- The rules of one table and, for the ids it has none for, those of another. -/
def RuleTable.readingOver (base t : RuleTable) : RuleReading := fun id =>
  ((base.rule? id).or (t.rule? id)).bind fun rule => readProduction rule.production

/-- Every rule that can be reached from an id has been committed. -/
def RuleTable.Complete (t : RuleTable) (start : String) : Prop :=
  ∀ id, t.reading.Leads start id → t.defined id = true

variable {broken sound : Registry} {root root' : String} {options options' : SchemaOptions}
  {e : SchemaError} {start : RuleHandle} {left alone : Session}

/-- After a failure a sound schema compiles to its own start rule, with everything that is reached
from it committed, exactly if the failure has left none of the rules of the schema reserved and
nothing that can be reached is missing from both tables. -/
theorem compile_after_failure_iff (hbroken : broken.factories = ∅) (hsound : sound.factories = ∅)
    (hfailed : Session.compile {} broken root options = (.error e, left))
    (halone : Session.compile {} sound root' options' = (.ok start, alone)) :
    (∃ after : Session, left.compile sound root' options' = (.ok start, after) ∧
      after.table.Complete start.id) ↔
    (∀ id, alone.table.defined id = true → left.table.reserved.contains id = false) ∧
      ∀ id, (left.table.readingOver alone.table).Leads start.id id →
        left.table.defined id = true ∨ alone.table.defined id = true := by
  have hleft : left.table.Settled := by
    have h := Session.compile_settled hbroken root options (s := {})
      RuleTable.settled_empty
    rwa [hfailed] at h
  have hwf := (Session.built_of_compile hsound halone).2.settled.wellFormed
  have hcomplete {after : Session} (hs : after.table.Settled)
      (hrules : ∀ id, after.table.rule? id = (left.table.rule? id).or (alone.table.rule? id)) :
      after.table.Complete start.id ↔
        ∀ id, (left.table.readingOver alone.table).Leads start.id id →
          left.table.defined id = true ∨ alone.table.defined id = true := by
    have hreading : after.table.reading = left.table.readingOver alone.table := by
      funext id
      rw [RuleTable.reading, RuleTable.readingOver, hrules]
    have hdefined (id : String) : after.table.defined id = true ↔
        left.table.defined id = true ∨ alone.table.defined id = true := by
      rw [hs.wellFormed.defined_eq_isSome, hrules, Option.isSome_or, Bool.or_eq_true,
        hleft.wellFormed.defined_eq_isSome, hwf.defined_eq_isSome]
    simp only [RuleTable.Complete, hreading, hdefined]
  rcases Session.compile_on hsound halone hleft with
    ⟨hapart, after, hc, hs, hrules, -⟩ | ⟨hapart, e', after, hc⟩
  · constructor
    · rintro ⟨after', hc', hdone⟩
      obtain rfl : after = after' := (Prod.mk.inj (hc.symm.trans hc')).2
      exact ⟨hapart, (hcomplete hs hrules).1 hdone⟩
    · rintro ⟨-, hreach⟩
      exact ⟨after, hc, (hcomplete hs hrules).2 hreach⟩
  · constructor
    · rintro ⟨after', hc', -⟩
      cases (Prod.mk.inj (hc.symm.trans hc')).1
    · rintro ⟨h, -⟩
      exact absurd h hapart

/-- A record that lists others of its kind, with further fields behind. -/
def successors (fields : List Field) : Registry where
  records := (∅ : Std.ExtTreeMap String RecordSchema).insert "A"
    ⟨⟨"next", .list (.record "A"), false, none⟩ :: fields, none⟩

/-- The session that is left when the record has a field that no list can be made of. -/
def brokenSuccessors : Session :=
  (Session.compile {} (successors [⟨"rest", .unknownList, false, none⟩]) "A" {}).2

set_option maxRecDepth 100000 in
private theorem brokenSuccessors_eq :
    Session.compile {} (successors [⟨"rest", .unknownList, false, none⟩]) "A" {} =
      (.error .unresolvedListElement, brokenSuccessors) :=
  eq_mk_of_fst (by decide +kernel)

set_option maxRecDepth 100000 in
private theorem compile_successors : Session.compile {} (successors []) "A" {} =
    (.ok ⟨"__bjo_c60e07bca8775799_decl"⟩, (Session.compile {} (successors []) "A" {}).2) :=
  eq_mk_of_fst (by decide +kernel)

set_option maxRecDepth 100000 in
/-- A forward rule that a failure has left reserved is refused to the next schema. -/
theorem successors_refused_after_failure :
    (Session.compile {} (successors [⟨"rest", .unknownList, false, none⟩]) "A" {}).1 =
      .error .unresolvedListElement ∧
    (∃ start, (Session.compile {} (successors []) "A" {}).1 = .ok start) ∧
    Collisionless (brokenSuccessors.log ++ (Session.compile {} (successors []) "A" {}).2.log) ∧
    (brokenSuccessors.compile (successors []) "A" {}).1 =
      .error (.rule (.redefined (forwardId "A"))) :=
  ⟨congrArg Prod.fst brokenSuccessors_eq, ⟨_, congrArg Prod.fst compile_successors⟩,
    by decide +kernel, by decide +kernel⟩

set_option maxRecDepth 100000 in
theorem successors_incomplete_after_failure : ∃ start : RuleHandle,
    (Session.compile {} (successors []) "A" {}).1 = .ok start ∧
      ¬∃ after : Session, brokenSuccessors.compile (successors []) "A" {} = (.ok start, after) ∧
        after.table.Complete start.id := by
  refine ⟨_, congrArg Prod.fst compile_successors, fun h => ?_⟩
  have hboth := (compile_after_failure_iff rfl rfl brokenSuccessors_eq compile_successors).1 h
  have hfree := hboth.1 (forwardId "A") (by decide +kernel)
  exact absurd hfree (by decide +kernel)

end RecordGrammar
