import RecordGrammar.Proofs.CompiledTable
import RecordGrammar.Proofs.RepeatedCalls
import RecordGrammar.Proofs.ScopedBuilds

/-! # What block calls leave in their table

A block that is a fragment finds its stem untouched or with its rules in place, whatever calls of
other blocks were made before. -/

namespace RecordGrammar

open FormatFragment (digitHandle digitRule)

/-- A table in which a fragment can be built or found. -/
structure Fragment.Ready (f : Fragment) (t : RuleTable) : Prop where
  wellFormed : t.WellFormed
  unreserved (id : String) : t.reserved.contains id = false
  digit : t.rule? digitHandle.id = none ∨ t.rule? digitHandle.id = some digitRule
  rules : t.HoldsRules f ∨ t.Untouched f.stem

namespace RuleTable

variable {f : Fragment} {t t' : RuleTable}

theorem HoldsRules.grows (h : t.HoldsRules f) (hgrows : t.Grows t') (hwf : t.WellFormed) :
    t'.HoldsRules f := by
  intro r hr
  obtain ⟨hmem, -⟩ := hwf.rule?_eq_some_iff.1 (h r hr)
  refine (hgrows.wellFormed hwf).rule?_eq_some_iff.2 ⟨?_, rfl⟩
  exact Array.mem_toList_iff.1 (hgrows.isPrefix.subset (Array.mem_toList_iff.2 hmem))

/-- A fragment keeps its rules, or stays untouched, while other stems are worked under. -/
theorem Spares.ready (hs : t.Spares f.stem t') (h : f.Ready t) : f.Ready t' where
  wellFormed := hs.wellFormed
  unreserved id := (hs.reserved id).trans (h.unreserved id)
  digit := by
    rcases hs.digit with he | he
    · rw [he]
      exact h.digit
    · exact .inr he
  rules := by
    rcases h.rules with hrules | hfree
    · refine .inl fun r hr => ?_
      rcases List.mem_append.1 hr with hshared | hown
      · obtain rfl := Fragment.id_of_mem_shared hshared
        exact hs.digit.elim (fun he => he.trans (hrules _ hr)) id
      · obtain ⟨x, hx, hid⟩ := Fragment.id_of_mem_rules hown
        rw [hid, hs.rule?_eq x hx, ← hid]
        exact hrules r hr
    · refine .inr ⟨hs.counter.trans hfree.counter, fun x hx hn => ?_⟩
      have htaken := taken_eq_false_iff.1 (hfree.free x hx hn)
      refine taken_eq_false_iff.2 ⟨?_, (hs.reserved _).trans htaken.2⟩
      rw [hs.wellFormed.defined_eq_isSome, hs.rule?_eq x hx, ← h.wellFormed.defined_eq_isSome]
      exact htaken.1

end RuleTable

namespace Fragment

theorem ready_empty (f : Fragment) : f.Ready {} where
  wellFormed := RuleTable.wellFormed_empty
  unreserved id := by simp
  digit := .inl (by simp [RuleTable.rule?_eq])
  rules := .inr ⟨by simp, fun x _ _ => by simp [RuleTable.taken, RuleTable.defined]⟩

variable {f : Fragment}

/-- What is gained of a fragment's rules, in a table that may have the digit already, is there. -/
theorem Ready.holdsRules_of_gains {t t' : RuleTable} (h : f.Ready t) (hu : t.Untouched f.stem)
    (hgains : t.Gains (f.shared ++ f.rules) t') : t'.HoldsRules f := by
  intro r hr
  rw [hgains.rule?_eq]
  have hfound : ((f.shared ++ f.rules).find? (·.id = r.id)) = some r := by
    obtain ⟨r', hr'⟩ := Option.isSome_iff_exists.1
      (List.find?_isSome.2 ⟨r, hr, by simp⟩ : ((f.shared ++ f.rules).find? (·.id = r.id)).isSome)
    rw [hr', rule_unique (fun _ => rfl) (List.mem_of_find?_eq_some hr') hr
      (by simpa using List.find?_some hr')]
  rw [hfound]
  rcases List.mem_append.1 hr with hshared | hown
  · obtain rfl := id_of_mem_shared hshared
    rcases h.digit with he | he <;> simp [show digitRule.id = digitHandle.id from rfl, he]
  · obtain ⟨x, hx, hid⟩ := id_of_mem_rules hown
    have hfree := (RuleTable.taken_eq_false_iff.1 (hu.free x hx (by simp))).1
    rw [hid, h.wellFormed.rule?_eq_none_iff.2 hfree, Option.none_or]

/-- A fragment that is ready goes through, and is there from then on. -/
theorem Ready.build {s : Session} (h : f.Ready s.table) (hp : f.layout.text ≠ "") :
    ∃ s', f.build s = .ok f.handle s' ∧ s'.table.HoldsRules f ∧ f.Ready s'.table := by
  rcases h.rules with hrules | hu
  · exact ⟨s.noting f.notes, hrules.build h.wellFormed, hrules, h⟩
  · obtain ⟨t, hrun, hadds⟩ := build_adds h.wellFormed hu (h.unreserved _) hp
    have hgains := hadds.gains h.wellFormed
    have hrules : t.HoldsRules f := h.holdsRules_of_gains hu hgains
    refine ⟨_, hrun, hrules, hadds.wellFormed, fun id => (hadds.reserved id).trans (h.unreserved id),
      ?_, .inl hrules⟩
    change t.rule? digitHandle.id = none ∨ t.rule? digitHandle.id = some digitRule
    rw [hgains.rule?_eq]
    cases hfound : (f.shared ++ f.rules).find? (·.id = digitHandle.id) with
    | none => simpa using h.digit
    | some r =>
      rw [eq_digitRule (List.mem_of_find?_eq_some hfound) (by simpa using List.find?_some hfound)]
      rcases h.digit with he | he <;> simp [he]

theorem not_inner_stem (f : Fragment) : ¬History.Inner f.stem := by
  refine History.not_inner (apart_append ?_ ?_ _)
  · cases f <;> simp only [tag] <;> decide
  · cases f <;> simp only [tag] <;> decide

end Fragment

namespace BlockCall

open MarkdownFragment (leadStem)

variable {f : Fragment} {calls more : List BlockCall} {call : BlockCall}

theorem stem_ne_bst (call : BlockCall) : call.stem ≠ "__bst" := by
  intro he
  have hlist := congrArg String.toList he
  cases call with
  | lineWithLead lead => cases lead <;> simp [stem, leadStem] at hlist
  | _ => simp [stem, leadStem] at hlist

/-- A call leaves another stem alone, unless other blocks are built from what is memoized there. -/
theorem build_spares (call : BlockCall) {stem : String} (hstem : stem ≠ call.stem)
    (hinner : ¬History.Inner stem) (hbst : stem ≠ "__bst") {s : Session} (hwf : s.table.WellFormed) :
    s.table.Spares stem (finalState (call.build s)).table := by
  have hscopes : ¬call.Scopes stem := fun h => h.elim hstem hinner
  have hdigit : ¬call.Scopes "__bst" := fun h =>
    h.elim (fun he => call.stem_ne_bst he.symm) (History.not_inner (by decide))
  exact call.build_scoped.spares hscopes hbst hdigit s hwf

/-- The fragment is ready after any calls, if those of its stem have built the fragment. -/
theorem ready_after (hp : f.layout.text ≠ "")
    (hcalls : ∀ call ∈ calls, call.stem = f.stem → call.build = f.build) :
    f.Ready (after calls).table := by
  induction calls using List.reverseRecOn with
  | nil => exact f.ready_empty
  | append_singleton calls call ih =>
    have hready := ih fun other ho => hcalls other (List.mem_append_left _ ho)
    rw [after_concat]
    by_cases hs : call.stem = f.stem
    · obtain ⟨s, hrun, -, hbuilt⟩ := hready.build hp
      rw [hcalls call (by simp) hs, hrun]
      exact hbuilt
    · have hspares := call.build_spares (Ne.symm hs) f.not_inner_stem f.stem_ne_bst hready.wellFormed
      exact hspares.ready hready

/-- A call that builds a fragment returns its rule, and the table has the rules of the fragment from
then on. -/
theorem answer_of_fragment (hp : f.layout.text ≠ "") (hcall : call.build = f.build)
    (hcalls : ∀ other ∈ calls, other.stem = f.stem → other.build = f.build) :
    answer calls call = some f.handle ∧
      (after (calls ++ call :: more)).table.HoldsRules f := by
  have hready : f.Ready (after calls).table := ready_after hp hcalls
  obtain ⟨s, hrun, hrules, hs⟩ := hready.build hp
  rw [← hcall] at hrun
  refine ⟨answer_of_ok hrun, ?_⟩
  have hgrows := (after_append (calls ++ [call]) more).2
  rw [List.append_assoc, List.singleton_append, after_concat, hrun] at hgrows
  exact hrules.grows hgrows hs.wellFormed

end BlockCall

end RecordGrammar
