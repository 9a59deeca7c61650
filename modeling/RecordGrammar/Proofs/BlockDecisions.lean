import RecordGrammar.Proofs.BlockOutcomes

/-! # Which block calls go through

Each block function goes through exactly if it is asked for no empty production, whatever was built
before. Only for a list the rule of another list of the same text may stand in its place. -/

namespace RecordGrammar

open MarkdownFragment (ListEntry)

/-! ## Productions that are not empty -/

theorem alternation_ne_empty {alternatives : List String} (h : 2 ≤ alternatives.length) :
    alternation alternatives ≠ "" := by
  match alternatives, h with
  | _ :: _ :: _, _ => simp [alternation]

theorem concatenation_ne_empty {part : String} (h : part ≠ "") (parts : List String) :
    concatenation (part :: parts) ≠ "" := by
  simp [concatenation, h]

theorem terminal_ne_empty (raw : String) : terminal raw ≠ "" := (Piece.terminal raw).text_ne_empty

theorem concatenation_handles_ne_empty_iff {handles : List RuleHandle} :
    concatenation (handles.map RuleHandle.text) ≠ "" ↔ handles ≠ [] := by
  cases handles with
  | nil => simp [concatenation]
  | cons handle handles =>
    have hne : handle.text ≠ "" := (Piece.rule handle).text_ne_empty
    simp [concatenation, hne]

namespace History

variable {h : History} {asks : String → Prop}

/-! ## JSON -/

section Json

open JsonFragment

theorem null_decides : h.Decides (fun _ => True) True (· = declHandle "__bjn") null := by
  refine .done (.memoizedOther (fun _ => False) ?_ id fun _ => explains_of_apart (by decide))
  exact .pureText (terminal_ne_empty _)

theorem number_decides : h.Decides (fun _ => True) True (· = declHandle "__bjnu") number := by
  refine .done (.memoizedOther (fun _ => False) ?_ id fun _ => explains_of_apart (by decide))
  exact .andThen (.defines _ (alternation_ne_empty (by simp))) fun exponentMark =>
    .andThen (.defines _ (alternation_ne_empty (by decide))) fun nonzero =>
    .andThen (.defines _ (alternation_ne_empty (by simp))) fun sign =>
    .andThen (.defines _ (alternation_ne_empty (by simp))) fun digit =>
    .andThen (.oneOrMore _ _) fun digits =>
    .andThen (.defines _ (alternation_ne_empty (by simp))) fun integer =>
    .andThen (.defines _ (alternation_ne_empty (by simp))) fun signed =>
    .andThen (.defines _ (alternation_ne_empty (by simp))) fun exponent =>
    .andThen (.defines _ (concatenation_ne_empty (terminal_ne_empty _) _)) fun fraction =>
    .pureText (alternation_ne_empty (by simp))

theorem string_decides : h.Decides (fun _ => True) True (· = declHandle "__bjs") string := by
  refine .done (.memoizedOther (fun _ => False) ?_ id fun _ => explains_of_apart (by decide))
  exact .andThen (.defines _ (alternation_ne_empty (by decide))) fun hexDigit =>
    .andThen (.defines _ (concatenation_ne_empty (Piece.rule hexDigit).text_ne_empty _))
      fun codeUnit =>
    .andThen (.defines _ (alternation_ne_empty (by simp [escapeLetters]))) fun escapes =>
    .andThen (.defines _ (concatenation_ne_empty (terminal_ne_empty _) _)) fun escaped =>
    .andThen (.defines _ (alternation_ne_empty (by decide))) fun forbidden =>
    .andThen (.defines _ (Piece.except forbidden).text_ne_empty) fun unescaped =>
    .andThen (.defines _ (alternation_ne_empty (by simp))) fun character =>
    .andThen (.oneOrMore _ _) fun characters =>
    .pureText (alternation_ne_empty (by simp))

theorem boolean_decides : h.Decides (fun _ => True) True (· = declHandle "__bjb") boolean := by
  refine .done (.memoizedOther (fun _ => False) ?_ id fun _ => explains_of_apart (by decide))
  exact .pureText (alternation_ne_empty (by simp))

variable (hlog : Collisionless h.log)

include hlog

theorem array_decides (inner : RuleHandle) : h.Decides (fun _ => True) True
    (· = declHandle ("__bja_" ++ memoKey inner.text)) (array inner) := by
  refine .done (.memoizedForOther (fun _ => False) hlog (by decide) ?_ id)
  exact .andThen (.oneOrMore _ _) fun trail => .pureText (alternation_ne_empty (by simp))

theorem tuple_decides (members : List RuleHandle) : h.Decides (fun _ => True) True
    (· = declHandle ("__bji_" ++ memoKey ("[".intercalate (members.map RuleHandle.text))))
    (tuple members) := by
  refine .done (.memoizedForOther (fun _ => False) hlog (by decide) ?_ id)
  exact .pureText (concatenation_ne_empty (terminal_ne_empty _) _)

theorem inQuotes_decides (inner : RuleHandle) : h.Decides (fun _ => True) True
    (· = declHandle ("__bjq_" ++ memoKey inner.text)) (inQuotes inner) := by
  refine .done (.memoizedForOther (fun _ => False) hlog (by decide) ?_ id)
  exact .pureText (concatenation_ne_empty (terminal_ne_empty _) _)

theorem enumeration_decides (members : List String) :
    h.Decides (fun _ => True) (alternation members ≠ "")
      (· = declHandle ("__bje_" ++ memoKey (alternation members))) (enumeration members) :=
  .done (.memoizedText (fun _ => False) hlog (by decide) id (.pure Iff.rfl))

theorem object_decides {fields : List (String × RuleHandle)}
    (hcall : .object fields ∈ h.calls) : h.Decides (fun _ => True) True
    (· = declHandle ("__bjo_" ++ memoKey (objectText fields))) (object fields) := by
  have hbuild : h.Decides (fun _ => False) True (· = objectProduction fields)
      (Pure.pure (objectProduction fields)) := .pure rfl
  have hne : objectProduction fields ≠ "" := concatenation_ne_empty (terminal_ne_empty _) _
  refine .done (.of_iff (.memoizedFor (fun _ => False) hlog hbuild id ?_ ?_
    fun _ _ => ⟨trivial, trivial⟩) (by rw [true_and]))
  · rintro p rfl
    exact iff_of_true hne trivial
  · intro p _ hp _
    exact ⟨fun htag => absurd htag (by decide), fun htag => absurd htag (by decide),
      fun _ => ⟨fields, hcall, rfl, hp⟩⟩

end Json

/-! ## Markdown -/

section Markdown

open MarkdownFragment

/-- The stems of the blocks that other blocks are built from. -/
def Inner (stem : String) : Prop :=
  stem = "__bml" ∨ (∃ lead, stem = leadStem lead) ∨ ∃ production, stem = groupStem production

theorem not_inner {stem : String} (h : Apart ["__bml", "__bmg_"] stem) : ¬Inner stem := by
  rintro (rfl | ⟨lead, rfl⟩ | ⟨production, rfl⟩)
  · exact h "__bml" (by simp) (List.prefix_refl _)
  · exact h "__bml" (by simp) ⟨"p_".toList ++ (memoKey lead).toList, by simp [leadStem]⟩
  · exact h "__bmg_" (by simp) ⟨(memoKey production).toList, by simp [groupStem]⟩

theorem line_decides : h.Decides (· = "__bml") True (· = declHandle "__bml") line := by
  refine .within (.memoizedOther (fun _ => False) ?_ id fun _ => explains_of_apart (by decide))
    fun _ => by simp
  exact .andThen (.defines _ (terminal_ne_empty _)) fun newline =>
    .andThen (.oneOrMore _ _) fun body =>
    .pureText (concatenation_ne_empty (Piece.rule body).text_ne_empty _)

theorem paragraph_decides :
    h.Decides (fun _ => True) True (· = declHandle "__bmp") paragraph := by
  have hline : h.Decides Inner True (fun _ => True) line :=
    (line_decides.within fun _ he => .inl he).forget
  refine .done (.memoizedOther Inner ?_ (not_inner (by decide))
    fun _ => explains_of_apart (by decide))
  exact .andThen hline fun line => .andThen (.oneOrMore _ _) fun lines =>
    .pureText (concatenation_ne_empty (Piece.rule lines).text_ne_empty _)

theorem map_fst_markedEntries (entries : List ListEntry) (style : ListStyle) :
    (markedEntries entries style).map Prod.fst = entries := by
  simp [markedEntries, Function.comp_def]

theorem marker_ne_empty {entries : List ListEntry} {style : ListStyle} {entry : ListEntry × String}
    (hentry : entry ∈ markedEntries entries style) : entry.2 ≠ "" := by
  obtain ⟨k, -, rfl⟩ := List.mem_map.1 hentry
  cases style <;> exact terminal_ne_empty _

variable (hlog : Collisionless h.log)

include hlog

theorem leadLine_decides (lead : String) :
    h.Decides Inner (lead ≠ "") (· = declHandle (leadStem lead)) (leadLine lead) := by
  have hbuild : h.Decides (· = "__bml") (lead ≠ "") (· ≠ "") (do
      let lead ← Scope.define ⟨leadStem lead⟩ lead
      let line ← line
      return concatenation [lead.text, line.text]) := by
    exact ((Decides.define _ lead).bind fun lead => line_decides.forget.andThen fun line =>
      .pureText (concatenation_ne_empty (Piece.rule lead).text_ne_empty _)).of_iff
        (by rw [and_true])
  have hstem : leadStem lead ≠ "__bml" := by
    intro he
    have hlength := congrArg (fun t => t.toList.length) he
    simp [leadStem, memoKey_length] at hlength
  refine .mono (.memoizedFor (· = "__bml") hlog hbuild hstem (fun p hp => iff_of_true hp trivial)
    ?_ fun p hp => ⟨hp.nonempty (by decide), trivial⟩) ?_ (by rw [and_true]) fun _ => id
  · intro p hne _ _
    exact ⟨fun _ => hne, fun htag => absurd htag (by decide), fun htag => absurd htag (by decide)⟩
  · rintro stem (rfl | rfl)
    · exact .inl rfl
    · exact .inr (.inl ⟨lead, rfl⟩)

theorem grouped_decides (production : String) :
    h.Decides Inner (production ≠ "") (· = declHandle (groupStem production))
      (grouped production) := by
  refine .within (.memoizedText (fun _ => False) hlog (by decide) id (.pure Iff.rfl)) ?_
  rintro stem (hfalse | rfl)
  · exact hfalse.elim
  · exact .inr (.inr ⟨production, rfl⟩)

theorem markedLead_decides {marker : String} (hmarker : marker ≠ "") (lead : Option String) :
    h.Decides Inner (lead ≠ some "") (fun text => text = markedText marker lead ∧ text ≠ "")
      (markedLead marker lead) := by
  cases lead with
  | none => exact (Decides.pure ⟨rfl, hmarker⟩).of_iff (by simp)
  | some lead =>
    refine .of_iff ((grouped_decides hlog lead).followed (fun _ => .pure _) ?_) (by simp)
    rintro group rfl
    exact .pure ⟨rfl, concatenation_ne_empty hmarker _⟩

/-- A line behind a marker and what follows it. -/
theorem markedLine_decides {marker : String} (hmarker : marker ≠ "") (lead : Option String) :
    h.Decides Inner (lead ≠ some "") (· = declHandle (leadStem (markedText marker lead)))
      (markedLead marker lead >>= leadLine) := by
  refine (markedLead_decides hlog hmarker lead).followed leadLine_program ?_
  rintro text ⟨rfl, hne⟩
  exact (leadLine_decides hlog _).of_iff (iff_true_intro hne)

theorem heading_decides (level : Nat) (lead : Option String) : h.Decides Inner (lead ≠ some "")
    (· = declHandle (leadStem (markedText (headingMarker level) lead))) (heading level lead) :=
  markedLine_decides hlog (terminal_ne_empty _) lead

theorem listItem_decides (bullet : Bullet) (lead : Option String) :
    h.Decides Inner (lead ≠ some "")
      (· = declHandle (leadStem (markedText (terminal bullet.marker) lead)))
      (listItem bullet lead) :=
  markedLine_decides hlog (terminal_ne_empty _) lead

theorem leadLine_done {lead : String} (hlead : lead ≠ "") :
    h.Decides Inner True (fun _ => True) (leadLine lead) :=
  ((leadLine_decides hlog lead).of_iff (iff_true_intro hlead)).forget

theorem lineWithLead_decides (lead : Option String) :
    h.Decides Inner (lead ≠ some "") (· = declHandle (lead.elim "__bml" leadStem))
      (lineWithLead lead) := by
  cases lead with
  | none => exact (line_decides.within fun _ he => .inl he).of_iff (by simp)
  | some lead => exact (leadLine_decides hlog lead).of_iff (by simp)

theorem bulletList_decides (bullet : Bullet) (count : Nat) : h.Decides (fun _ => True) True
    (· = declHandle ("__bmul_" ++ bullet.tag ++ "_" ++ toString count))
    (bulletList bullet count) := by
  have hstem : "__bmul_" ++ bullet.tag ++ "_" ++ toString count =
      "__bmul_" ++ (bullet.tag ++ "_" ++ toString count) := by
    simp only [String.append_assoc]
  have hitem : h.Decides Inner True (fun _ => True) (listItem bullet none) :=
    ((listItem_decides hlog bullet none).of_iff (by simp)).forget
  refine .done (.memoizedOther Inner (.andThen hitem fun item => ?_) ?_ fun _ => ?_)
  · split
    · exact .andThen (.oneOrMore _ _) fun items => .pureText (Piece.rule items).text_ne_empty
    next hcount =>
      obtain ⟨n, rfl⟩ := Nat.exists_eq_succ_of_ne_zero hcount
      exact .pureText (concatenation_ne_empty (Piece.rule item).text_ne_empty _)
  · rw [hstem]
    exact not_inner (apart_append (by decide) (by decide) _)
  · rw [hstem]
    exact explains_of_apart (apart_append (by decide) (by decide) _)

theorem numberedList_decides (count : Nat) : h.Decides (fun _ => True) True
    (· = declHandle ("__bmnl_" ++ toString count)) (numberedList count) := by
  refine .done (.memoizedOther Inner ?_ (not_inner (apart_append (by decide) (by decide) _))
    fun _ => explains_of_apart (apart_append (by decide) (by decide) _))
  split
  · exact .andThen (.defines _ (alternation_ne_empty (by decide))) fun digit =>
      .andThen (.oneOrMore _ _) fun number =>
      .andThen (leadLine_done hlog
        (concatenation_ne_empty (Piece.rule number).text_ne_empty _)) fun item =>
      .andThen (.oneOrMore _ _) fun items => .pureText (Piece.rule items).text_ne_empty
  next hcount =>
    have hitems : h.Decides Inner True (fun items : List RuleHandle => items.length = count)
        ((List.range count).mapM fun k => leadLine (numberMarker (k + 1))) :=
      (Decides.mapM fun k _ => leadLine_done hlog (terminal_ne_empty _)).mono (fun _ => id)
        (by simp) (by simp)
    refine hitems.followed (fun _ => .pure _) fun items hlength => .pureText ?_
    rw [concatenation_handles_ne_empty_iff]
    rintro rfl
    exact hcount hlength.symm

theorem listEntry_decides (scope : Scope) (entry : ListEntry) {marker : String}
    (hmarker : marker ≠ "") :
    h.Decides Inner entry.Sound (fun _ => True) (listEntry scope entry marker) := by
  unfold listEntry ListEntry.Sound
  cases entry.body with
  | none =>
    refine .of_iff ((markedLead_decides hlog hmarker entry.lead).followed (fun _ => ?_) ?_)
      (by simp)
    · exact leadLine_program _
    · rintro lead ⟨-, hne⟩
      exact leadLine_done hlog hne
  | some body =>
    have hbody (lead : String) (hlead : lead = markedText marker entry.lead ∧ lead ≠ "") :
        h.Decides Inner (body ≠ "") (fun _ => True) (do
          let body ← grouped body
          scope.define (concatenation [lead, body.text, terminal "\n"])) :=
      (grouped_decides hlog body).followed (fun _ => .define _ _) fun _ _ =>
        .defines _ (concatenation_ne_empty hlead.2 _)
    refine .of_iff ((markedLead_decides hlog hmarker entry.lead).bindOf (fun _ => ?_) hbody)
      (by simp)
    exact (grouped_program body).bind fun _ => .define _ _

/-- The entries of a list, built one after the other. -/
theorem entries_decide (scope : Scope) (entries : List ListEntry) (style : ListStyle) :
    h.Decides Inner (∀ entry ∈ entries, entry.Sound) (fun p => p ≠ "" ↔ entries ≠ []) (do
      let items ← (markedEntries entries style).mapM fun entry =>
        listEntry scope entry.1 entry.2
      return concatenation (items.map RuleHandle.text)) := by
  have hsound : (∀ entry ∈ markedEntries entries style, entry.1.Sound) ↔
      ∀ entry ∈ entries, entry.Sound := by
    conv_rhs => rw [← map_fst_markedEntries entries style, List.forall_mem_map]
  have hitems := Decides.mapM fun entry (hentry : entry ∈ markedEntries entries style) =>
    listEntry_decides hlog scope entry.1 (marker_ne_empty hentry)
  refine .of_iff (hitems.followed (fun _ => .pure _) fun items hlength => .pure ?_) hsound
  rw [concatenation_handles_ne_empty_iff]
  conv_rhs => rw [← map_fst_markedEntries entries style]
  rw [← List.length_pos_iff, ← List.length_pos_iff, List.length_map, hlength]

/-- A list goes through if it may, and also if the rule of another list stands in its place. -/
theorem entryList_ends {entries : List ListEntry} {style : ListStyle}
    (hcall : .entryList entries style ∈ h.calls) {s : Session} (hs : h.Stocked s.table)
    (hruns : (finalState (entryList entries style s)).log ⊆ h.log) :
    h.Ends (fun _ => True)
      ((BlockCall.entryList entries style).Acceptable ∨
        s.table.defined (BlockCall.entryList entries style).handle.id = true)
      (· = (BlockCall.entryList entries style).handle) (entryList entries style) s := by
  have hbuild := entries_decide hlog ⟨"__bmil_" ++ memoKey (listText entries style)⟩ entries style
  have hkeyed : .keyed (listText entries style) ∈ h.log := hruns (keyed_mem_log hbuild.program s)
  rw [entryList, memoizedFor_eq] at hruns
  refine .of_eq (memoizedFor_eq s) ?_
  cases hd : s.table.defined (BlockCall.entryList entries style).handle.id with
  | true => exact .inl ⟨.inr rfl, _, _, memoized_of_defined hd, rfl, .refl hs⟩
  | false =>
    have hinner : ¬Inner ("__bmil_" ++ memoKey (listText entries style)) :=
      not_inner (apart_append (by decide) (by decide) _)
    refine .mono (memoized_ends hbuild hinner (fun _ hp => hp) ?_ hs hruns hd)
      (fun _ _ => trivial) (by simp [BlockCall.Acceptable, and_comm]) fun _ => id
    intro p hsound hp hne
    refine explains_keyed hlog hkeyed ⟨fun htag => absurd htag (by decide), fun _ => ?_,
      fun htag => absurd htag (by decide)⟩
    exact ⟨entries, style, hcall, ⟨hp.1 hne, hsound⟩, rfl⟩

end Markdown

/-! ## Formats -/

section Formats

open FormatFragment

theorem digit_decides : h.Decides asks True (· = digitHandle) digit := by
  refine ⟨digit_program, fun s hs _ => ?_⟩
  rw [Ends, digit, get_bind]
  by_cases hd : s.table.defined "__bst_d" = true
  · obtain ⟨r, hrule, hid⟩ := hs.wellFormed.rule_eq_ok hd
    rw [if_pos hd, lookup, get_bind]
    simp only [hrule]
    exact .inl ⟨trivial, _, s, rfl, congrArg RuleHandle.mk hid, .refl hs⟩
  · have hfree := RuleTable.taken_eq_false_iff.2 ⟨Bool.eq_false_iff.2 hd, hs.unreserved "__bst_d"⟩
    have hne : alternation (decimalDigits.map terminal) ≠ "" := alternation_ne_empty (by decide)
    rw [if_neg hd]
    refine .inl ⟨trivial, _, _, Scope.defineNamed_ok hfree hne, rfl, ?_⟩
    refine hs.push hs.wellFormed (fun _ => rfl) hs.unreserved (Bool.eq_false_iff.2 hd) ?_
    intro stem he
    obtain ⟨-, hname⟩ := Scope.idOf_inj underscore_not_mem_decl (by decide) he
    exact absurd hname (by decide)

theorem maskedTime_decides (hlog : Collisionless h.log) (mask : String) :
    h.Decides (fun _ => True) (mask ≠ "") (· = declHandle ("__bst_" ++ memoKey mask))
      (maskedTime mask) := by
  have htext : digitHandle.text.intercalate ((maskSegments mask.toList).map stretchText) = "" ↔
      mask = "" := by
    constructor
    · intro he
      apply eq_empty_of_text
      rw [← text_maskRow] at he
      simpa [maskLayout, Layout.text] using he
    · rintro rfl
      decide
  refine .done (.memoizedText (fun _ => False) hlog (by decide) id ?_)
  refine digit_decides.followed (fun digit => ?_) ?_
  · exact .map (.mapM segmentText_program _) _
  · rintro digit rfl
    have hsegments (s : Session) := mapM_logging segmentText_eq (maskSegments mask.toList) s
    refine (Decides.logging (.mapM segmentText_program _) hsegments).followed (fun _ => .pure _) ?_
    rintro segments rfl
    exact .pure htext

theorem mailAddress_decides :
    h.Decides (fun _ => True) True (· = declHandle "__bse") mailAddress := by
  refine .done (.memoizedOther (fun _ => False) ?_ id fun _ => explains_of_apart (by decide))
  exact .andThen (.defines _ (alternation_ne_empty (by decide))) fun letter =>
    .andThen (.defines _ (alternation_ne_empty (by decide))) fun digit =>
    .andThen (.defines _ (alternation_ne_empty (by simp))) fun alphanumeric =>
    .reserveThen _ (fun _ => alternation_ne_empty (by simp)) fun labelRest =>
    .andThen (.defines _ (optionalTail_ne_empty _ _)) fun label =>
    .andThen (.oneOrMore _ _) fun moreLabels =>
    .andThen (.defines _ (optionalTail_ne_empty _ _)) fun domain =>
    .andThen (.defines _ (alternation_ne_empty (by decide))) fun special =>
    .andThen (.defines _ (alternation_ne_empty (by simp))) fun allowed =>
    .reserveThen _ (fun _ => alternation_ne_empty (by simp)) fun localRest =>
    .andThen (.defines _ (optionalTail_ne_empty _ _)) fun mailbox =>
    .pureText (concatenation_ne_empty (Piece.rule mailbox).text_ne_empty _)

end Formats

section Calls

variable (hlog : Collisionless h.log)

include hlog

/-- A call that is not for a list goes through if it is acceptable, and only then. -/
theorem call_decides {call : BlockCall} (hcall : call ∈ h.calls)
    (hlist : ∀ entries style, call ≠ .entryList entries style) :
    h.Decides (fun _ => True) call.Acceptable (· = call.handle) call.build := by
  cases call with
  | null => exact null_decides
  | number => exact number_decides
  | string => exact string_decides
  | boolean => exact boolean_decides
  | array inner => exact array_decides hlog inner
  | tuple members => exact tuple_decides hlog members
  | enumeration members => exact enumeration_decides hlog members
  | object fields => exact object_decides hlog hcall
  | inQuotes inner => exact inQuotes_decides hlog inner
  | line => exact line_decides.done
  | lineWithLead lead => exact (lineWithLead_decides hlog lead).done
  | heading level lead => exact (heading_decides hlog level lead).done
  | listItem bullet lead => exact (listItem_decides hlog bullet lead).done
  | bulletList bullet count => exact bulletList_decides hlog bullet count
  | numberedList count => exact numberedList_decides hlog count
  | entryList entries style => exact absurd rfl (hlist entries style)
  | paragraph => exact paragraph_decides
  | maskedTime mask => exact maskedTime_decides hlog mask
  | mailAddress => exact mailAddress_decides

/-- A list also goes through if there is a rule in its place. -/
theorem ends_call {call : BlockCall} (hcall : call ∈ h.calls) {s : Session}
    (hs : h.Stocked s.table) (hruns : (finalState (call.build s)).log ⊆ h.log) :
    h.Ends (fun _ => True)
      (call.Acceptable ∨ (∃ entries style, call = .entryList entries style) ∧
        s.table.defined call.handle.id = true)
      (· = call.handle) call.build s := by
  by_cases hlist : ∃ entries style, call = .entryList entries style
  · obtain ⟨entries, style, rfl⟩ := hlist
    exact (entryList_ends hlog hcall hs hruns).mono (fun _ => id) (by simp) fun _ => id
  · have hother (entries : List ListEntry) (style : MarkdownFragment.ListStyle) :
        call ≠ .entryList entries style := fun he => hlist ⟨entries, style, he⟩
    exact ((call_decides hlog hcall hother).ends s hs hruns).mono (fun _ => id) (by simp [hlist])
      fun _ => id

end Calls

end History

end RecordGrammar
