import RecordGrammar.Proofs.BlockDecisions

/-! # Block calls after other block calls

A call that finds its rule in the table goes through unchecked. Only lists of entries share their
rules with calls that would be refused: the text they are keyed by does not tell an entry without a
lead or a body from one whose lead or body is empty. -/

namespace RecordGrammar.BlockCall

open MarkdownFragment

/-- What a call returns after some calls on an empty table, if it goes through. -/
def answer (calls : List BlockCall) (call : BlockCall) : Option RuleHandle :=
  call.build.run' (after calls)

theorem answer_of_ok {calls : List BlockCall} {call : BlockCall} {r : RuleHandle} {s : Session}
    (hrun : call.build (after calls) = .ok r s) : answer calls call = some r := by
  delta answer EStateM.run' EStateM.run
  rw [hrun]

theorem answer_of_error {calls : List BlockCall} {call : BlockCall} {e : RuleError} {s : Session}
    (hrun : call.build (after calls) = .error e s) : answer calls call = none := by
  delta answer EStateM.run' EStateM.run
  rw [hrun]

/-- Two lists that are keyed by the same text. -/
def Twin (call other : BlockCall) : Prop :=
  ∃ entries style entries' style', call = .entryList entries style ∧
    other = .entryList entries' style' ∧ listText entries style = listText entries' style'

/-- A list that is keyed like the call and would be accepted is among some calls. -/
def HasTwin (calls : List BlockCall) (call : BlockCall) : Prop :=
  ∃ twin ∈ calls, call.Twin twin ∧ twin.Acceptable

section History

variable {h : History} (hlog : Collisionless h.log) {calls : List BlockCall}

include hlog

/-- At every moment of a history its table is stocked. -/
theorem after_stocked (hcalls : calls ⊆ h.calls) (hruns : (after calls).log ⊆ h.log) :
    h.Stocked (after calls).table := by
  induction calls using List.reverseRecOn with
  | nil => exact h.stocked_empty
  | append_singleton calls call ih =>
    obtain ⟨hcalls, hcall⟩ := List.append_subset.1 hcalls
    have hs := ih hcalls (List.Subset.trans (after_append calls [call]).1.subset hruns)
    rw [after_concat] at hruns ⊢
    rcases h.ends_call hlog (hcall (List.mem_singleton_self call)) hs hruns with
      ⟨-, r, s, hrun, -, hextends⟩ | ⟨-, e, s, hrun, hextends⟩
    · rw [hrun]
      exact hextends.stocked
    · rw [hrun]
      exact hextends.stocked

end History

/-- A list that has gone through is in the table from then on. -/
theorem defined_of_entryList {entries : List ListEntry} {style : ListStyle} {s s' : Session}
    {r : RuleHandle} (hrun : MarkdownFragment.entryList entries style s = .ok r s') :
    s'.table.defined (handle (.entryList entries style)).id = true := by
  rw [MarkdownFragment.entryList, bind_of_ok (keyedStem_eq _ _ s)] at hrun
  exact (memoized_eq_ok hrun).2

/-- The history of some calls. -/
def historyOf (calls : List BlockCall) : History := ⟨calls, (after calls).log⟩

theorem after_log_subset {before calls : List BlockCall} (h : before <+: calls) :
    (after before).log ⊆ (historyOf calls).log := by
  obtain ⟨rest, rfl⟩ := h
  exact (after_append before rest).1.subset

/-- A call of a history, on the table that the calls before it have left. -/
theorem ends_after {before rest : List BlockCall} {call : BlockCall}
    (hlog : Collisionless (after (before ++ call :: rest)).log) :
    (historyOf (before ++ call :: rest)).Stocked (after before).table ∧
      (historyOf (before ++ call :: rest)).Ends (fun _ => True)
        (call.Acceptable ∨ (∃ entries style, call = .entryList entries style) ∧
          (after before).table.defined call.handle.id = true)
        (· = call.handle) call.build (after before) := by
  have hprefix : before ++ [call] <+: before ++ call :: rest := ⟨rest, by simp⟩
  have hs : (historyOf (before ++ call :: rest)).Stocked (after before).table :=
    after_stocked hlog (List.subset_append_left _ _) (after_log_subset (List.prefix_append _ _))
  refine ⟨hs, History.ends_call hlog (by simp [historyOf]) hs ?_⟩
  rw [← after_concat]
  exact after_log_subset hprefix

section Answer

variable {calls : List BlockCall} {call : BlockCall}
  (hlog : Collisionless (after (calls ++ [call])).log)

include hlog

/-- A twin that was acceptable has put its rule into the table. -/
theorem defined_of_hasTwin (htwin : HasTwin calls call) :
    (after calls).table.defined call.handle.id = true := by
  obtain ⟨twin, hmem, ⟨entries, style, entries', style', rfl, rfl, htext⟩, hacceptable⟩ := htwin
  obtain ⟨before, rest, rfl⟩ := List.append_of_mem hmem
  rw [List.append_assoc, List.cons_append] at hlog
  obtain ⟨hs, ⟨-, r, s, hrun, -, hextends⟩ | ⟨hrefused, -⟩⟩ := ends_after hlog
  · have hd := defined_of_entryList hrun
    have hgrows := (after_append (before ++ [entryList entries' style']) rest).2
    have hstem : stem (entryList entries style) = stem (entryList entries' style') := by
      simp only [stem, htext]
    rw [after_concat, hrun, List.append_assoc] at hgrows
    rw [handle, hstem]
    exact hgrows.defined hextends.stocked.wellFormed hd
  · exact absurd (.inl hacceptable) hrefused

/-- The rule that a list finds in its place is that of a list of the same text. -/
theorem acceptable_or_hasTwin (hlist : ∃ entries style, call = .entryList entries style)
    (hd : (after calls).table.defined call.handle.id = true) :
    call.Acceptable ∨ HasTwin calls call := by
  obtain ⟨entries, style, rfl⟩ := hlist
  obtain ⟨hs, -⟩ := ends_after hlog
  obtain ⟨rule, hrule⟩ := Option.isSome_iff_exists.1 (hs.wellFormed.defined_eq_isSome _ ▸ hd)
  have hkeyed : .keyed (listText entries style) ∈
      (historyOf (calls ++ [entryList entries style])).log := by
    have hprogram (scope : Scope) : TableProgram (do
        let items ← (markedEntries entries style).mapM fun entry =>
          listEntry scope entry.1 entry.2
        return concatenation (items.map RuleHandle.text)) :=
      .map (.mapM (fun _ => listEntry_program scope _ _) _) _
    rw [historyOf, after_concat]
    exact History.keyed_mem_log (hprogram _) _
  obtain ⟨entries', style', hmem, hacceptable, htext⟩ :=
    (hs.explained _ rule hrule "__bmil_" _ hkeyed rfl).list rfl
  rcases List.mem_append.1 hmem with hmem | hmem
  · exact .inr ⟨_, hmem, ⟨entries, style, entries', style', rfl, rfl, htext.symm⟩, hacceptable⟩
  · rw [← List.mem_singleton.1 hmem]
    exact .inl hacceptable

/-- A call goes through if it is acceptable, or if the rule of an acceptable list of its text is
there. -/
theorem answer_eq_some_iff (r : RuleHandle) : answer calls call = some r ↔
    (call.Acceptable ∨ HasTwin calls call) ∧ r = call.handle := by
  have hok : (call.Acceptable ∨ (∃ entries style, call = .entryList entries style) ∧
      (after calls).table.defined call.handle.id = true) ↔
        call.Acceptable ∨ HasTwin calls call := by
    constructor
    · rintro (hacceptable | ⟨hlist, hd⟩)
      · exact .inl hacceptable
      · exact acceptable_or_hasTwin hlog hlist hd
    · rintro (hacceptable | htwin)
      · exact .inl hacceptable
      · obtain ⟨twin, hmem, ⟨entries, style, _, _, hcall, -⟩, -⟩ := id htwin
        exact .inr ⟨⟨entries, style, hcall⟩, defined_of_hasTwin hlog htwin⟩
  rw [← hok]
  rcases (ends_after hlog).2 with ⟨hyes, r', s, hrun, rfl, -⟩ | ⟨hno, e, s, hrun, -⟩
  · rw [answer_of_ok hrun, iff_true_intro hyes, true_and, Option.some_inj, eq_comm]
  · rw [answer_of_error hrun, iff_false_intro hno, false_and]
    simp

end Answer

/-- What a call returns does not depend on the calls before it, unless it asks for an empty
production and an acceptable list that is keyed by the same text is among one's calls and not among
the other's. -/
theorem answer_eq_answer_iff {calls needed : List BlockCall} {call : BlockCall}
    (hcalls : Collisionless (after (calls ++ [call])).log)
    (hneeded : Collisionless (after (needed ++ [call])).log) :
    answer calls call = answer needed call ↔
      (call.Acceptable ∨ (HasTwin calls call ↔ HasTwin needed call)) := by
  have hiff : answer calls call = answer needed call ↔
      (call.Acceptable ∨ HasTwin calls call ↔ call.Acceptable ∨ HasTwin needed call) := by
    rw [Option.ext_iff]
    constructor
    · intro hsame
      have := hsame call.handle
      simpa [answer_eq_some_iff hcalls, answer_eq_some_iff hneeded] using this
    · intro hiff r
      rw [answer_eq_some_iff hcalls, answer_eq_some_iff hneeded, hiff]
  rw [hiff]
  by_cases hacceptable : call.Acceptable <;> simp [hacceptable]

/-- A list whose only entry has an empty lead is refused on an empty table, and goes through where a
list of one plain entry stands. -/
theorem empty_lead_after_plain_list :
    let plain := entryList [⟨none, none⟩] (.bulleted .star)
    let lead := entryList [⟨some "", none⟩] (.bulleted .star)
    Collisionless (after ([plain] ++ [lead])).log ∧ answer [] lead = none ∧
      answer [plain] lead = some ⟨"__bmil_10f7e91b6644739b_decl"⟩ := by
  decide +kernel

/-- The refusal of a list does not get in the way of the list that it shares its text with. -/
theorem plain_list_after_empty_lead :
    let plain := entryList [⟨none, none⟩] (.bulleted .star)
    let lead := entryList [⟨some "", none⟩] (.bulleted .star)
    Collisionless (after ([lead] ++ [plain])).log ∧ Collisionless (after ([] ++ [plain])).log ∧
      answer [lead] plain = answer [] plain := by
  intro plain lead
  have hlog : Collisionless (after ([lead] ++ [plain])).log := by decide +kernel
  have hlog' : Collisionless (after ([] ++ [plain])).log := by decide +kernel
  have hacceptable : plain.Acceptable := by simp [plain, Acceptable, ListEntry.Sound]
  exact ⟨hlog, hlog', (answer_eq_answer_iff hlog hlog').2 (.inl hacceptable)⟩

end RecordGrammar.BlockCall
