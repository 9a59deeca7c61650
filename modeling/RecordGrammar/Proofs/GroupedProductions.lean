import RecordGrammar.Proofs.ListTexts

/-! # Productions that are given to markdown

A production that leads a line or stands in an entry gets a rule of its own, which is what the row
refers to. So its alternatives are taken apart before the row goes on, not across it. -/

namespace RecordGrammar

open MarkdownFragment

/-- The hashes of a heading, one more than its level, and a space. -/
def headingText (level : Nat) : String := String.ofList (List.replicate (level + 1) '#') ++ " "

/-- The text of the marker of the `k`-th item, counted from one. -/
def MarkdownFragment.ListStyle.markerText : ListStyle → Nat → String
  | .bulleted bullet, _ => bullet.marker
  | .numbered, k => toString k ++ ". "

namespace RuleTable

variable {t : RuleTable} {raw : String} {lead : Option String} {text : List Char}

/-- A text of the production that leads a line, if there is one. -/
def LeadText (t : RuleTable) (lead : Option String) (text : List Char) : Prop :=
  match lead with
  | none => text = []
  | some production => t.Produces production text

/-- A marker, a text of what follows it, and a line. -/
def LedLine (t : RuleTable) (marker : String) (lead : Option String) (text : List Char) : Prop :=
  ∃ before line, t.LeadText lead before ∧ IsLine line ∧ text = marker.toList ++ (before ++ line)

/-- An entry behind its marker: what follows the marker, and then a text of the body and a newline,
or a line. -/
def EntryText (t : RuleTable) (entry : ListEntry) (marker : String) (text : List Char) : Prop :=
  match entry.body with
  | none => t.LedLine marker entry.lead text
  | some body => ∃ before inside, t.LeadText entry.lead before ∧ t.Produces body inside ∧
      text = marker.toList ++ (before ++ (inside ++ ['\n']))

/-- The entries one after the other, each behind the marker of its place. -/
def EntriesText (t : RuleTable) (entries : List ListEntry) (style : ListStyle) (text : String) :
    Prop :=
  ∃ items : List String, List.Forall₂
    (fun entry item => t.EntryText entry.1 (style.markerText (entry.2 + 1)) item.toList)
    entries.zipIdx items ∧ text = String.join items

/-- A marker, and the rule of what follows it. -/
def markedRow (raw : String) (lead : Option String) : List Piece :=
  .terminal raw :: (lead.map fun production => .rule (declHandle (groupStem production))).toList

theorem markedRow_text (raw : String) (lead : Option String) :
    concatenation ((markedRow raw lead).map Piece.text) = markedText (terminal raw) lead := by
  cases lead <;> simp [markedRow, markedText, Piece.text]

theorem groupHandle_plain (production : String) :
    PlainId (declHandle (groupStem production)).id :=
  declHandle_plain (.append (by decide) (memoKey_plain production))

theorem markedRow_legible (hraw : holdsBothQuotes raw = false) :
    ∀ p ∈ markedRow raw lead, p.Legible := by
  refine List.forall_mem_cons.2 ⟨hraw, ?_⟩
  cases lead with
  | none => exact nofun
  | some production => exact List.forall_mem_singleton.2 (groupHandle_plain production).referable

/-- The row of a marker takes a text of the production whole. -/
theorem markedRow_derives (ht : t.Readable) (h : Ensures.GroupIn t lead) :
    RecordGrammar.Derives t.reading ((markedRow raw lead).map Piece.symbol) text ↔
      ∃ before, t.LeadText lead before ∧ text = raw.toList ++ before := by
  rw [markedRow, List.map_cons, Piece.symbol, Derives.terminal_cons_iff]
  refine exists_congr fun before => and_comm.trans (and_congr_left' ?_)
  cases lead with
  | none => exact Derives.nil_iff
  | some production => exact (h production rfl).texts ht

theorem produces_markedText (ht : t.Readable) (hraw : holdsBothQuotes raw = false)
    (h : Ensures.GroupIn t lead) : t.Produces (markedText (terminal raw) lead) text ↔
      ∃ before, t.LeadText lead before ∧ text = raw.toList ++ before := by
  rw [← markedRow_text]
  exact (produces_row _ (markedRow_legible hraw)).trans (markedRow_derives ht h)

/-- A marked row, the group of a body, and a newline. -/
theorem produces_markedBody {body : String} (ht : t.Readable) (hraw : holdsBothQuotes raw = false)
    (h : Ensures.GroupIn t lead) (hbody : t.Says (declHandle (groupStem body)) body) :
    t.Produces (concatenation [markedText (terminal raw) lead,
      (declHandle (groupStem body)).text, terminal "\n"]) text ↔
      ∃ before inside, t.LeadText lead before ∧ t.Produces body inside ∧
        text = raw.toList ++ (before ++ (inside ++ ['\n'])) := by
  let row := markedRow raw lead ++ [.rule (declHandle (groupStem body)), .terminal "\n"]
  have htext : concatenation [markedText (terminal raw) lead,
      (declHandle (groupStem body)).text, terminal "\n"] = concatenation (row.map Piece.text) := by
    rw [← markedRow_text]
    simp [row, concatenation, Piece.text]
  have hlegible : ∀ p ∈ row, p.Legible :=
    List.forall_mem_append.2 ⟨markedRow_legible hraw, List.forall_mem_cons.2
      ⟨(groupHandle_plain body).referable, List.forall_mem_singleton.2 (by decide)⟩⟩
  have hend (after : List Char) : RecordGrammar.Derives t.reading
      ([.rule (declHandle (groupStem body)).id] ++ [.terminal ['\n']]) after ↔
        ∃ inside, t.Produces body inside ∧ after = inside ++ ['\n'] :=
    Derives.closed_iff.trans (exists_congr fun _ => and_congr_left' (hbody.texts ht))
  rw [htext, produces_row _ hlegible, List.map_append, Derives.append_iff]
  constructor
  · rintro ⟨_, after, rfl, hfirst, hafter⟩
    obtain ⟨before, hbefore, rfl⟩ := (markedRow_derives ht h).1 hfirst
    obtain ⟨inside, hinside, rfl⟩ := (hend after).1 hafter
    exact ⟨before, inside, hbefore, hinside, List.append_assoc _ _ _⟩
  · rintro ⟨before, inside, hbefore, hinside, rfl⟩
    exact ⟨_, _, (List.append_assoc _ _ _).symm, (markedRow_derives ht h).2 ⟨before, hbefore, rfl⟩,
      (hend _).2 ⟨inside, hinside, rfl⟩⟩

end RuleTable

namespace MarkdownPart

variable {t : RuleTable} {raw : String} {item : RuleHandle}

/-- The item behind a marker and what follows it. -/
theorem ItemIn.texts_marked {lead : Option String} (ht : t.Readable)
    (hraw : holdsBothQuotes raw = false) (hgroup : Ensures.GroupIn t lead)
    (h : ItemIn t (markedText (terminal raw) lead) item) :
    PlainId item.id ∧ ∀ text, t.Texts item text ↔ t.LedLine raw lead text := by
  obtain ⟨hid, htexts⟩ := h.texts ht
  refine ⟨hid, fun text => (htexts text).trans ?_⟩
  simp only [RuleTable.produces_markedText ht hraw hgroup]
  constructor
  · rintro ⟨_, ⟨before, hbefore, rfl⟩, line, hline, rfl⟩
    exact ⟨before, line, hbefore, hline, List.append_assoc _ _ _⟩
  · rintro ⟨before, line, hbefore, hline, rfl⟩
    exact ⟨_, ⟨before, hbefore, rfl⟩, line, hline, (List.append_assoc _ _ _).symm⟩

/-- The rule of an entry derives the texts of the entry, whichever parts are given. -/
theorem entryIn_texts {entry : ListEntry} (ht : t.Readable) (hraw : holdsBothQuotes raw = false)
    (h : Ensures.EntryIn t (entry, terminal raw) item) :
    PlainId item.id ∧ ∀ text, t.Texts item text ↔ t.EntryText entry raw text := by
  obtain ⟨hlead, hbody, hitem⟩ := h
  unfold RuleTable.EntryText
  cases hentry : entry.body with
  | none =>
    simp only [hentry] at hitem
    exact hitem.texts_marked ht hraw hlead
  | some body =>
    simp only [hentry] at hbody hitem
    exact ⟨hitem.plain ht, fun text => (hitem.texts ht).trans
      (RuleTable.produces_markedBody ht hraw hlead (hbody body rfl))⟩

end MarkdownPart

namespace MarkdownFragment

theorem ListStyle.marker_eq (style : ListStyle) (k : Nat) :
    style.marker k = terminal (style.markerText k) := by
  cases style <;> rfl

theorem ListStyle.markerText_legible (style : ListStyle) (k : Nat) :
    holdsBothQuotes (style.markerText k) = false := by
  cases style with
  | bulleted bullet => exact MarkdownPart.marker_legible bullet
  | numbered => exact MarkdownPart.number_legible k

theorem headingText_legible (level : Nat) : holdsBothQuotes (headingText level) = false := by
  apply holdsBothQuotes_of_not_mem
  simp [headingText, List.mem_replicate]

end MarkdownFragment

namespace BlockCall

variable {calls : List BlockCall} {lead : Option String} {entries : List ListEntry}
  {style : ListStyle}

/-- A line behind a marker, if the production that follows the marker is not empty. -/
theorem markedLine_yields {call : BlockCall} {raw : String} (hraw : holdsBothQuotes raw = false)
    (hcall : call.build = markedLead (terminal raw) lead >>= leadLine)
    (hstem : call.stem = leadStem (markedText (terminal raw) lead)) (hacceptable : call.Acceptable)
    (hlog : Collisionless (after (calls ++ [call])).log) :
    Yields calls call fun t text => t.LedLine raw lead text.toList := by
  have hensures := Ensures.markedLine hlog (terminal raw) lead
  rw [← hcall] at hensures
  refine yields_of_ensures hlog hacceptable hensures fun t ht r ⟨hitem, hgroup⟩ text => ?_
  obtain ⟨-, htexts⟩ := hitem.texts_marked ht hraw hgroup
  rw [handle, hstem, ← hitem.1]
  exact htexts text.toList

/-- A list that is not memoized yet derives its entries. -/
theorem entryList_yields (hacceptable : (entryList entries style).Acceptable)
    (hlog : Collisionless (after (calls ++ [.entryList entries style])).log)
    (habsent : (after calls).table.defined (handle (.entryList entries style)).id = false) :
    Yields calls (.entryList entries style) fun t => t.EntriesText entries style := by
  have hfinal : (finalState ((entryList entries style).build (after calls))).log ⊆
      (after (calls ++ [.entryList entries style])).log := by
    rw [after_concat]
    exact List.Subset.refl _
  have hfaithful := after_faithful hlog (after_append calls [.entryList entries style]).1.subset
  refine yields_of_run hlog hacceptable
    ((entryList_run hlog entries style hfaithful hfinal).2 habsent) fun t ht hsaid text => ?_
  have hentries : t.SaysEach (handle (.entryList entries style))
      (fun entry => Ensures.EntryIn t (entry.1, terminal (style.markerText (entry.2 + 1))))
      entries.zipIdx := by
    simpa only [RuleTable.SaysEach, markedEntries, List.forall₂_map_left_iff,
      ListStyle.marker_eq] using hsaid
  have hok (entry : ListEntry × Nat) (_ : entry ∈ entries.zipIdx) (item : RuleHandle)
      (h : Ensures.EntryIn t (entry.1, terminal (style.markerText (entry.2 + 1))) item) :
      PlainId item.id ∧ ∀ text, t.Texts item text ↔
        t.EntryText entry.1 (style.markerText (entry.2 + 1)) text :=
    MarkdownPart.entryIn_texts ht (style.markerText_legible _) h
  refine (hentries.texts ht hok).trans (exists_strings_iff.trans ?_)
  simp only [List.forall₂_map_right_iff, toList_eq_flatten_iff]
  rfl

/-- Where no list was asked for, none is memoized. -/
theorem entryList_absent (hcalls : ∀ call ∈ calls, ∀ entries style, call ≠ .entryList entries style)
    (entries : List ListEntry) (style : ListStyle) :
    (after calls).table.defined (handle (.entryList entries style)).id = false := by
  induction calls using List.reverseRecOn with
  | nil => simp [after, RuleTable.defined]
  | append_singleton calls call ih =>
    obtain ⟨hbefore, hlast⟩ := List.forall_mem_append.1 hcalls
    have hcall : (entryList entries style).stem ≠ call.stem := by
      have hother := List.forall_mem_singleton.1 hlast
      intro he
      have hlist := congrArg String.toList he
      cases call with
      | entryList entries style => exact hother entries style rfl
      | lineWithLead lead => cases lead <;> simp [stem, leadStem] at hlist
      | _ => simp [stem, leadStem] at hlist
    have hinner : ¬History.Inner (entryList entries style).stem :=
      History.not_inner (apart_append (by decide) (by decide) _)
    have hwf := (after_readable calls).wellFormed
    have hspares := call.build_spares hcall hinner (stem_ne_bst _) hwf
    rw [after_concat, hspares.wellFormed.defined_eq_isSome]
    refine (congrArg Option.isSome (hspares.rule?_eq "decl" underscore_not_mem_decl)).trans ?_
    exact (hwf.defined_eq_isSome _).symm.trans (ih hbefore)

/-- After any calls headings, items and lists of entries go through and keep the productions that
they are given together. A heading and an item are their marker, a text of the production behind it
if there is one, and a line. A list that is not memoized yet is its entries in their order, each
behind its marker: a text of the production that leads it if there is one, and then a text of its
body and a newline, or a line if it has no body. -/
theorem productions_grouped (calls : List BlockCall) :
    (∀ level lead, lead ≠ some "" →
      Collisionless (after (calls ++ [.heading level lead])).log →
      Yields calls (.heading level lead) fun t text =>
        t.LedLine (headingText level) lead text.toList) ∧
    (∀ bullet lead, lead ≠ some "" →
      Collisionless (after (calls ++ [.listItem bullet lead])).log →
      Yields calls (.listItem bullet lead) fun t text =>
        t.LedLine bullet.marker lead text.toList) ∧
    (∀ entries style, entries ≠ [] → (∀ entry ∈ entries, entry.Sound) →
      (after calls).table.defined (handle (.entryList entries style)).id = false →
      Collisionless (after (calls ++ [.entryList entries style])).log →
      Yields calls (.entryList entries style) fun t => t.EntriesText entries style) :=
  ⟨fun level _ hlead hlog => markedLine_yields (headingText_legible level) rfl rfl hlead hlog,
    fun bullet _ hlead hlog =>
      markedLine_yields (MarkdownPart.marker_legible bullet) rfl rfl hlead hlog,
    fun _ _ hne hsound habsent hlog => entryList_yields ⟨hne, hsound⟩ hlog habsent⟩

/-- Two alternatives, which are given to several blocks. -/
def letterChoice : String := alternation [terminal "a", terminal "b"]

/-- A heading and a line that share the group of the alternatives. -/
def earlierChoices : List BlockCall :=
  [.heading 1 (some letterChoice), .lineWithLead (some letterChoice)]

/-- The four shapes of an entry. -/
def choiceEntries : List ListEntry :=
  [⟨none, none⟩, ⟨some letterChoice, none⟩, ⟨none, some letterChoice⟩,
    ⟨some letterChoice, some letterChoice⟩]

theorem earlierChoices_collisionless :
    Collisionless (after (earlierChoices ++ [.heading 0 (some letterChoice)])).log ∧
      Collisionless (after (earlierChoices ++ [.listItem .dash (some letterChoice)])).log ∧
      Collisionless (after (earlierChoices ++ [.entryList choiceEntries .numbered])).log := by
  decide +kernel

theorem letterChoice_produces (t : RuleTable) :
    t.Produces letterChoice ['a'] ∧ t.Produces letterChoice ['b'] := by
  have hread : readProduction letterChoice = some [[.terminal ['a']], [.terminal ['b']]] := by
    decide +kernel
  refine ⟨⟨_, hread, [.terminal ['a']], List.mem_cons_self, Derives.terminal_iff.2 rfl⟩,
    ⟨_, hread, [.terminal ['b']], ?_, Derives.terminal_iff.2 rfl⟩⟩
  exact List.mem_cons_of_mem _ List.mem_cons_self

/-- A heading that is led by alternatives does not end behind the first one, and each entry of a list
has its own choice of them. -/
theorem earlierChoices_yield :
    answer earlierChoices (.heading 0 (some letterChoice)) =
        some (handle (.heading 0 (some letterChoice))) ∧
      (let t := (after (earlierChoices ++ [.heading 0 (some letterChoice)])).table
       t.Derives (handle (.heading 0 (some letterChoice))) "# bx\n" ∧
        ¬t.Derives (handle (.heading 0 (some letterChoice))) "# a") ∧
      Yields earlierChoices (.listItem .dash (some letterChoice)) (fun t text =>
        t.LedLine "- " (some letterChoice) text.toList) ∧
      (after (earlierChoices ++ [.entryList choiceEntries .numbered])).table.Derives
        (handle (.entryList choiceEntries .numbered)) "1. x\n2. ax\n3. b\n4. ba\n" := by
  obtain ⟨hheadings, hitems, hlists⟩ := productions_grouped earlierChoices
  obtain ⟨hheading, hitem, hlist⟩ := earlierChoices_collisionless
  have hne : (some letterChoice) ≠ some "" := by decide +kernel
  have hsound : ∀ entry ∈ choiceEntries, entry.Sound := by
    simp [choiceEntries, ListEntry.Sound, show letterChoice ≠ "" by decide +kernel]
  have hyields := hheadings 0 _ hne hheading
  have hline : IsLine ['x', '\n'] := ⟨['x'], by decide, by decide, rfl⟩
  refine ⟨hyields.1, ⟨(hyields.2 [] _).2 ?_, fun h => ?_⟩, hitems .dash _ hne hitem,
    ((hlists _ _ (by decide) hsound (entryList_absent (by simp [earlierChoices]) _ _) hlist).2 [] _).2 ?_⟩
  · exact ⟨['b'], _, (letterChoice_produces _).2, hline, rfl⟩
  · obtain ⟨before, line, -, ⟨body, -, -, rfl⟩, htext⟩ := (hyields.2 [] _).1 h
    exact absurd (congrArg ('\n' ∈ ·) htext) (by simp)
  · refine ⟨["1. x\n", "2. ax\n", "3. b\n", "4. ba\n"], ?_, by decide +kernel⟩
    have hchoices := letterChoice_produces
      (after (earlierChoices ++ [.entryList choiceEntries .numbered])).table
    refine .cons ⟨[], _, rfl, hline, ?_⟩ (.cons ⟨['a'], _, hchoices.1, hline, ?_⟩
      (.cons ⟨[], ['b'], rfl, hchoices.2, ?_⟩ (.cons ⟨['b'], ['a'], hchoices.2, hchoices.1, ?_⟩ .nil)))
    all_goals decide +kernel

end BlockCall

end RecordGrammar
