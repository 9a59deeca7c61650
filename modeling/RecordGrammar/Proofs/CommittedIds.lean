import RecordGrammar.Proofs.PlanActs
import RecordGrammar.Proofs.ScopedBuilds

/-! # The ids of the rules that block calls commit

The stem of a block is plain whatever the block is made from, since texts of any kind are only
hashed. So no character of an id that a block call commits has a meaning in a production. -/

namespace RecordGrammar

theorem declHandle_plain {stem : String} (h : PlainId stem) : PlainId (declHandle stem).id :=
  h.idOf (by decide)

/-- Each committed id is plain. -/
def RuleTable.IdsPlain (t : RuleTable) : Prop := ∀ id, t.defined id = true → PlainId id

theorem RuleTable.IdsPlain.push {t : RuleTable} {id : String} (h : t.IdsPlain) (hid : PlainId id)
    (production : String) : (t.push id production).IdsPlain := by
  intro other hother
  rw [defined_push, Bool.or_eq_true, decide_eq_true_eq] at hother
  rcases hother with rfl | hother
  · exact hid
  · exact h other hother

/-- A build under plain stems commits plain ids. -/
theorem ScopedProgram.idsPlain {stems : String → Prop} {α : Type} {m : Build α}
    (h : ScopedProgram stems m) (hstems : ∀ stem, stems stem → PlainId stem) (s : Session)
    (hs : s.table.IdsPlain) : (finalState (m s)).table.IdsPlain := by
  refine h.invariant (fun t t' _ hindex ht id hid => ?_) (fun t id production hid ht => ?_) s hs
  · rw [RuleTable.defined_eq, hindex, ← RuleTable.defined_eq] at hid
    exact ht id hid
  · refine ht.push ?_ production
    cases hid with
    | auto hstem n => exact (hstems _ hstem).idOf (.toString_nat n)
    | decl hstem => exact (hstems _ hstem).idOf (by decide)
    | digit => exact (by decide : PlainId FormatFragment.digitHandle.id)

namespace BlockCall

open MarkdownFragment (leadStem groupStem)

theorem leadStem_plain (lead : String) : PlainId (leadStem lead) :=
  .append (by decide) (memoKey_plain lead)

theorem stem_plain (call : BlockCall) : PlainId call.stem := by
  have hkeyed {tag : String} (htag : PlainId tag) (text : String) : PlainId (tag ++ memoKey text) :=
    htag.append (memoKey_plain text)
  cases call with
  | array | tuple | enumeration | object | inQuotes | entryList | maskedTime =>
    exact hkeyed (by decide) _
  | lineWithLead lead =>
    cases lead with
    | none => exact (by decide : PlainId "__bml")
    | some lead => exact leadStem_plain lead
  | heading | listItem => exact leadStem_plain _
  | bulletList bullet count =>
    have htag : PlainId bullet.tag := by cases bullet <;> decide
    have hstem : PlainId ("__bmul_" ++ bullet.tag ++ "_") :=
      .append (.append (by decide) htag) (by decide)
    exact hstem.append (.toString_nat count)
  | numberedList count => exact .append (by decide) (.toString_nat count)
  | null | number | string | boolean | line | paragraph | mailAddress =>
    simp only [stem]
    decide

theorem scopes_plain (call : BlockCall) : ∀ stem, call.Scopes stem → PlainId stem := by
  rintro _ (rfl | rfl | ⟨lead, rfl⟩ | ⟨production, rfl⟩)
  · exact call.stem_plain
  · decide
  · exact leadStem_plain lead
  · exact .append (by decide) (memoKey_plain production)

/-- Whatever calls are made, the ids that they commit are plain. -/
theorem after_idsPlain (calls : List BlockCall) : (after calls).table.IdsPlain := by
  induction calls using List.reverseRecOn with
  | nil => exact fun id hid => by simp [after, RuleTable.defined] at hid
  | append_singleton calls call ih =>
    rw [after_concat]
    exact call.build_scoped.idsPlain call.scopes_plain _ ih

end BlockCall

end RecordGrammar
