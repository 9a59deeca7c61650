import RecordGrammar.Proofs.CompiledReading

/-! # The grammar text of a compiled schema

It has one line for each rule, each line is read back, and what a line refers to has a line. Texts
of the schema get into it as terminals, which are read back unless they hold both quotes. -/

namespace RecordGrammar

/-- A terminal with a text, or a reference to one of the rules. -/
def GrammarSymbol.Resolves (rules : List Rule) : GrammarSymbol → Prop
  | .terminal text => text ≠ []
  | .rule id => ∃ r ∈ rules, r.id = id
  | .exceptRule id => ∃ r ∈ rules, r.id = id
  | .exceptChars _ => False
  | .any => False

/-- A grammar whose text is the lines of some rules, with no id twice. Each line is read back as the
id of its rule and alternatives that are not empty, whose symbols all resolve. -/
structure Grammar.ReadsBack (g : Grammar) (rules : List Rule) : Prop where
  lines : g.text.toList.splitOn '\n' = rules.map fun r => r.line.toList
  ids_nodup : (rules.map Rule.id).Nodup
  read (r : Rule) : r ∈ rules → ∃ alternatives, readRule r.line = some (r.id, alternatives) ∧
    alternatives ≠ [] ∧ ∀ alternative ∈ alternatives,
      alternative ≠ [] ∧ ∀ symbol ∈ alternative, symbol.Resolves rules
  start : ∃ r ∈ rules, r.id = g.start

section Lines

theorem newline_not_mem_escapeChar (c : Char) : '\n' ∉ escapeChar c := by
  unfold escapeChar
  split
  · decide
  · decide
  · decide
  · decide
  · rename_i hc _ _ _
    simpa using Ne.symm hc

theorem newline_not_mem_escape (raw : String) : '\n' ∉ (escape raw).toList := by
  rw [escape, String.toList_ofList]
  intro h
  obtain ⟨c, -, hc⟩ := List.mem_flatMap.1 h
  exact newline_not_mem_escapeChar c hc

theorem mem_concatenation {c : Char} {parts : List String} :
    c ∈ (concatenation parts).toList ↔ ∃ part ∈ parts, c ∈ part.toList := by
  rw [concatenation, String.toList_join, List.mem_flatMap]

theorem mem_of_mem_intersperse {α : Type} {a separator : α} {l : List α}
    (h : a ∈ l.intersperse separator) : a = separator ∨ a ∈ l := by
  match l with
  | [] => cases h
  | [b] => exact .inr h
  | b :: b' :: l =>
    rw [List.intersperse_cons_cons, List.mem_cons, List.mem_cons] at h
    rcases h with rfl | rfl | h
    · exact .inr List.mem_cons_self
    · exact .inl rfl
    · exact (mem_of_mem_intersperse h).imp_right (List.mem_cons_of_mem b)

theorem newline_not_mem_alternation {alternatives : List String}
    (h : ∀ a ∈ alternatives, '\n' ∉ a.toList) : '\n' ∉ (alternation alternatives).toList := by
  rw [alternation, intercalate_eq_concatenation, mem_concatenation]
  rintro ⟨part, hpart, hc⟩
  rcases mem_of_mem_intersperse hpart with rfl | hpart
  · exact absurd hc (by decide)
  · exact h part hpart hc

theorem PlainId.newline_not_mem {id : String} (h : PlainId id) : '\n' ∉ id.toList :=
  h.not_mem (by decide)

/-- A piece is written on one line, whatever texts it holds. -/
theorem Piece.newline_not_mem {p : Piece} (h : ∀ handle ∈ p.references, PlainId handle.id) :
    '\n' ∉ p.text.toList := by
  cases p with
  | terminal raw =>
    have hquote : '\n' ∉ (if '"' ∈ raw.toList then "'" else "\"").toList := by
      split <;> decide
    simp [text, RecordGrammar.terminal, hquote, newline_not_mem_escape raw]
  | key name first =>
    have hkey : '\n' ∉ (escape (jsonString name)).toList.flatMap fun c =>
        if c = '\'' then ['\\', '\''] else [c] := by
      intro hmem
      obtain ⟨c, hc, hmem⟩ := List.mem_flatMap.1 hmem
      split at hmem
      · simp at hmem
      · exact newline_not_mem_escape _ (List.mem_singleton.1 hmem ▸ hc)
    have hseparator : '\n' ∉ (if first then "" else ", ").toList := by
      split <;> decide
    simp only [text, JsonFragment.keyTerminal, String.toList_append, String.toList_ofList,
      List.mem_append, not_or]
    exact ⟨⟨⟨by decide, hseparator⟩, hkey⟩, by decide⟩
  | rule handle =>
    have hid : PlainId handle.id := h handle (List.mem_singleton.2 rfl)
    simp [text, RuleHandle.text, hid.newline_not_mem]
  | except handle =>
    have hid : PlainId handle.id := h handle (List.mem_singleton.2 rfl)
    simp [text, exceptUnit, hid.newline_not_mem]

theorem Layout.newline_not_mem {layout : Layout}
    (h : ∀ row ∈ layout, ∀ p ∈ row, ∀ handle ∈ p.references, PlainId handle.id) :
    '\n' ∉ layout.text.toList := by
  refine newline_not_mem_alternation fun a ha => ?_
  obtain ⟨row, hrow, rfl⟩ := List.mem_map.1 ha
  rw [mem_concatenation]
  rintro ⟨part, hpart, hc⟩
  obtain ⟨p, hp, rfl⟩ := List.mem_map.1 hpart
  exact Piece.newline_not_mem (h row hrow p hp) hc

/-- A line is read as the id of its rule and what its production is read as. -/
theorem readRule_line {r : Rule} {alternatives : Alternatives} (hid : PlainId r.id)
    (h : readProduction r.production = some alternatives) :
    readRule r.line = some (r.id, alternatives) := by
  have hline : r.line.toList =
      ['<'] ++ (r.id.toList ++ '>' :: ("::=".toList ++ r.production.toList)) := by
    simp [Rule.line, Rule.handle, RuleHandle.text]
  have hrest : '>' :: ("::=".toList ++ r.production.toList) = ">::=".toList ++ r.production.toList := by
    simp
  rw [readRule, hline, Dialect.expect_append]
  simp only [Option.bind_eq_bind, Option.bind_some,
    Dialect.readUntil_append (hid.not_mem (c := '>') (by decide))]
  rw [hrest, Dialect.expect_append]
  simp [h]

/-- Lines without newlines in them are got back by splitting at the newlines. -/
theorem RuleTable.splitOn_text {t : RuleTable} (hne : t.rules.toList ≠ [])
    (h : ∀ r ∈ t.rules.toList, '\n' ∉ r.line.toList) :
    t.text.toList.splitOn '\n' = t.rules.toList.map fun r => r.line.toList := by
  have htext : t.text.toList = ['\n'].intercalate (t.rules.toList.map fun r => r.line.toList) := by
    rw [text, String.toList_intercalate, List.map_map]
    rfl
  rw [htext, List.splitOn_intercalate]
  · intro line hline
    obtain ⟨r, hr, rfl⟩ := List.mem_map.1 hline
    exact h r hr
  · simpa using hne

end Lines

/-- A layout that is read back as alternatives with something in them, all of whose references are
to rules of a kind. -/
structure Layout.Sound (known : String → Prop) (layout : Layout) : Prop where
  ne_nil : layout ≠ []
  row_ne_nil {row : List Piece} : row ∈ layout → row ≠ []
  legible : layout.Legible
  terminal_ne_empty {row : List Piece} {raw : String} :
    row ∈ layout → .terminal raw ∈ row → raw ≠ ""
  references {row : List Piece} {p : Piece} {handle : RuleHandle} :
    row ∈ layout → p ∈ row → handle ∈ p.references → known handle.id

theorem Layout.Sound.resolves {rules : List Rule} {layout : Layout}
    (h : layout.Sound fun id => ∃ r ∈ rules, r.id = id) :
    layout.symbols ≠ [] ∧ ∀ alternative ∈ layout.symbols,
      alternative ≠ [] ∧ ∀ symbol ∈ alternative, symbol.Resolves rules := by
  refine ⟨by simpa [symbols] using h.ne_nil, fun alternative ha => ?_⟩
  obtain ⟨row, hrow, rfl⟩ := List.mem_map.1 ha
  refine ⟨by simpa using h.row_ne_nil hrow, fun symbol hs => ?_⟩
  obtain ⟨p, hp, rfl⟩ := List.mem_map.1 hs
  cases p with
  | terminal raw => simpa [Piece.symbol, GrammarSymbol.Resolves] using h.terminal_ne_empty hrow hp
  | key name first => simp [Piece.symbol, GrammarSymbol.Resolves, Piece.keyText]
  | rule handle => exact h.references hrow hp (List.mem_singleton.2 rfl)
  | except handle => exact h.references hrow hp (List.mem_singleton.2 rfl)

section Fragments

/-- Alternatives with something in them, and no terminal without a text. -/
def Layout.Full (layout : Layout) : Prop := ∀ row ∈ layout, row ≠ [] ∧ .terminal "" ∉ row

instance (layout : Layout) : Decidable layout.Full :=
  inferInstanceAs (Decidable (∀ _ ∈ _, _ ∧ _))

theorem Literal.text_ne_empty (l : Literal) : l.text ≠ "" := by
  cases l with
  | bool b => cases b <;> decide
  | int n =>
    intro h
    have htext : (toString n.toInt).toList = [] := congrArg String.toList h
    rw [toList_toString_int, List.append_eq_nil_iff] at htext
    exact Nat.toDigits_ne_nil htext.2
  | string s =>
    intro h
    have htext : (jsonString s).toList = [] := congrArg String.toList h
    simp [jsonString] at htext

/-- The layouts of a fragment are full, unless there is nothing to write at all. -/
theorem Fragment.full_layouts (f : Fragment) :
    ∀ layout ∈ f.layouts, layout.text ≠ "" → layout.Full := by
  cases f with
  | number =>
    have hfull : ∀ layout ∈ layouts .number, layout.Full := by decide +kernel
    exact fun layout hl _ => hfull layout hl
  | string =>
    have hfull : ∀ layout ∈ layouts .string, layout.Full := by decide +kernel
    exact fun layout hl _ => hfull layout hl
  | boolean =>
    have hfull : ∀ layout ∈ layouts .boolean, layout.Full := by decide +kernel
    exact fun layout hl _ => hfull layout hl
  | mailAddress =>
    have hfull : ∀ layout ∈ layouts .mailAddress, layout.Full := by decide +kernel
    exact fun layout hl _ => hfull layout hl
  | array inner =>
    intro layout hl _
    simp only [layouts, helpers, JsonFragment.arrayHelpers, Fragment.layout,
      List.mem_append, List.mem_singleton] at hl
    rcases hl with rfl | rfl
    · simp [Layout.Full, Layout.repeated]
    · simp [Layout.Full, JsonFragment.arrayLayout]
  | inQuotes inner =>
    intro layout hl _
    obtain rfl : layout = JsonFragment.inQuotesLayout inner := List.mem_singleton.1 hl
    simp [Layout.Full, JsonFragment.inQuotesLayout]
  | tuple members =>
    intro layout hl _ row hrow
    obtain rfl : layout = JsonFragment.tupleLayout members := List.mem_singleton.1 hl
    obtain rfl := List.mem_singleton.1 hrow
    refine ⟨by simp, fun hempty => ?_⟩
    have hmember : .terminal "" ∈ (members.map Piece.rule).intersperse (.terminal ", ") := by
      simpa using hempty
    rcases tupleRow_pieces hmember with h | ⟨m, -, h⟩ <;> simp at h
  | object rows =>
    intro layout hl _ row hrow
    obtain rfl : layout = JsonFragment.objectLayout rows := List.mem_singleton.1 hl
    obtain rfl := List.mem_singleton.1 hrow
    refine ⟨by simp, fun hempty => ?_⟩
    have hmember : .terminal "" ∈ JsonFragment.objectRow true rows := by simpa using hempty
    rcases objectRow_pieces hmember with ⟨name, first, h⟩ | ⟨row, -, h⟩ <;> simp at h
  | enumeration literals =>
    intro layout hl _ row hrow
    obtain rfl : layout = Layout.ofTerminals (literals.map Literal.text) := List.mem_singleton.1 hl
    obtain ⟨raw, hraw, rfl⟩ := List.mem_map.1 hrow
    obtain ⟨l, -, rfl⟩ := List.mem_map.1 hraw
    refine ⟨by simp, fun hempty => ?_⟩
    exact l.text_ne_empty (Piece.terminal.inj (List.mem_singleton.1 hempty)).symm
  | maskedTime mask =>
    intro layout hl htext row hrow
    obtain rfl : layout = FormatFragment.maskLayout mask := List.mem_singleton.1 hl
    obtain rfl := List.mem_singleton.1 hrow
    refine ⟨fun hnil => htext ?_, fun hempty => ?_⟩
    · rw [Layout.text, FormatFragment.maskLayout, hnil]
      rfl
    · rcases maskRow_pieces hempty with h | ⟨segment, -, hne, h⟩
      · simp at h
      · have hsegment : segment = [] := by simpa using congrArg String.toList (Piece.terminal.inj h).symm
        exact hne hsegment

/-- The layouts of a fragment are sound where its own rules and those it is built from are known. -/
theorem Fragment.sound_layouts {f : Fragment} {known : String → Prop} (hf : f.Legible)
    (hinputs : ∀ h ∈ f.inputs, PlainId h.id ∧ known h.id)
    (hown : ∀ r ∈ f.shared ++ f.rules, known r.id) {layout : Layout} (hl : layout ∈ f.layouts)
    (htext : layout.text ≠ "") : layout.Sound known := by
  obtain ⟨hne, hfits⟩ := f.fits_layouts hf (fun h hh => (hinputs h hh).1.referable) layout hl
  have hfull := f.full_layouts layout hl htext
  refine ⟨hne, fun hrow => (hfull _ hrow).1, fun row hrow p hp => (hfits row hrow p hp).1,
    fun hrow hraw he => (hfull _ hrow).2 (he ▸ hraw), fun {row p handle} hrow hp hhandle => ?_⟩
  rcases (hfits row hrow p hp).2.1 handle hhandle with ⟨k, hk, rfl⟩ | hinput | hshared
  · have hhelper := f.helper_mem_rules (List.getElem?_eq_getElem hk)
    exact hown _ (List.mem_append_right _ hhelper)
  · exact (hinputs handle hinput).2
  · obtain ⟨r, hr, rfl⟩ := List.mem_map.1 hshared
    exact hown r (List.mem_append_left _ hr)

theorem id_plain_of_mem {f : Fragment} {r : Rule} (h : r ∈ f.shared ++ f.rules) : PlainId r.id := by
  rcases List.mem_append.1 h with h | h
  · rw [Fragment.id_of_mem_shared h]
    decide +kernel
  · rcases List.mem_append.1 h with h | h
    · obtain ⟨k, layout, -, rfl⟩ := mem_numberedRules_iff.1 h
      exact f.stem_plain.idOf (.toString_nat _)
    · rw [List.mem_singleton.1 h]
      exact f.handle_plain

end Fragments

section Warnings

variable {log : List Event}

/-- No text with both quotes has been turned into a terminal. -/
def Quiet (log : List Event) : Prop := ∀ raw, .ambiguousTerminal raw ∉ warningsOf log

theorem Quiet.holdsBothQuotes_eq_false {raw : String} (h : Quiet log)
    (hnotes : terminalNotes raw ⊆ log) : holdsBothQuotes raw = false := by
  refine Bool.eq_false_iff.2 fun hboth => h raw (List.mem_filterMap.2
    ⟨.warned (.ambiguousTerminal raw), hnotes ?_, rfl⟩)
  rw [terminalNotes, if_pos hboth]
  exact List.mem_singleton.2 rfl

theorem Literal.clear_of_holdsBothQuotes {l : Literal} (h : holdsBothQuotes l.text = false) :
    l.Clear := by
  cases l with
  | bool b => trivial
  | int n => trivial
  | string s =>
    intro hmem
    have hdouble : '"' ∈ (jsonString s).toList := by simp [jsonString]
    have hsingle : '\'' ∈ (jsonString s).toList := by
      simp only [jsonString, String.toList_ofList, List.mem_append, List.mem_cons, List.mem_flatMap]
      exact .inl (.inr ⟨'\'', hmem, by decide⟩)
    have hboth : holdsBothQuotes (jsonString s) = true := by
      simp [holdsBothQuotes, hdouble, hsingle]
    rw [show holdsBothQuotes (jsonString s) = false from h] at hboth
    cases hboth

/-- A fragment that has been built without a warning can be read back. -/
theorem Fragment.legible_of_quiet {registry : Registry} {root : String} {acts : List Act}
    {f : Fragment} (hfrom : f.From registry root acts) (h : Quiet log)
    (hnotes : f.notes ++ f.bodyNotes ⊆ log) : f.Legible := by
  cases f with
  | enumeration literals =>
    refine ⟨hfrom.1, fun l hl => Literal.clear_of_holdsBothQuotes (h.holdsBothQuotes_eq_false ?_)⟩
    intro event hevent
    refine hnotes (List.mem_append_left _ (List.mem_append_left _ ?_))
    exact List.mem_flatMap.2 ⟨l, hl, hevent⟩
  | maskedTime mask =>
    intro segment hsegment
    by_cases hempty : segment.isEmpty = true
    · rw [List.isEmpty_iff.1 hempty]
      decide
    · refine h.holdsBothQuotes_eq_false fun event hevent => hnotes (List.mem_append_right _ ?_)
      refine List.mem_flatMap.2 ⟨segment, hsegment, ?_⟩
      rwa [FormatFragment.stretchNotes, if_neg hempty]
  | _ => trivial

end Warnings

section Records

variable {acts : List Act} {σ σ' : CompileState} {a : Act}

/-- Where a rule has come from. What the build of a fragment notes is in the log. -/
def Noted (acts : List Act) (log : List Event) (r : Rule) : Prop :=
  (∃ f, .fragment f ∈ acts ∧ r ∈ f.shared ++ f.rules ∧ f.notes ++ f.bodyNotes ⊆ log) ∨
    ∃ name rule, .close name rule ∈ acts ∧ r = ⟨forwardId name, rule.text⟩

def CompileState.Recorded (acts : List Act) (σ : CompileState) : Prop :=
  ∀ id r, σ.table.rule? id = some r → r.id = id ∧ Noted acts σ.session.log r

namespace CompileState.Recorded

/-- A step records as long as the rules that it adds are noted. -/
theorem extend (h : σ.Recorded acts) (hlog : σ.session.log <+: σ'.session.log)
    (hrule : ∀ id r, σ'.table.rule? id = some r →
      σ.table.rule? id = some r ∨ r.id = id ∧ Noted acts σ'.session.log r) : σ'.Recorded acts := by
  intro id r hr
  rcases hrule id r hr with hold | hnew
  · obtain ⟨hid, hsource⟩ := h id r hold
    refine ⟨hid, hsource.imp_left ?_⟩
    rintro ⟨f, hf, hmem, hnotes⟩
    exact ⟨f, hf, hmem, List.Subset.trans hnotes hlog.subset⟩
  · exact hnew

theorem fragment {f : Fragment} (h : σ.Recorded acts) (hf : .fragment f ∈ acts) (htidy : σ.Tidy)
    (hrun : (Act.fragment f).run σ = .ok () σ') : σ'.Recorded acts := by
  rcases htidy.settled.fragments f with hholds | hu
  · have hd := (htidy.settled.holds_iff f).1 hholds
    rw [Act.run, bind_of_ok (liftBuild_ok (Fragment.build_of_holds hd))] at hrun
    cases hrun
    exact h.extend (List.prefix_append _ _) fun _ _ hr => .inl hr
  · rcases Fragment.build_of_untouched htidy.settled hu with ⟨-, t, hb, -, hgains⟩ | ⟨-, t, hb, -, -⟩
    · rw [Act.run, bind_of_ok (liftBuild_ok hb)] at hrun
      cases hrun
      refine h.extend (List.prefix_append _ _) fun id r hr => ?_
      rw [CompileState.table, Session.table_noting, hgains.rule?_eq] at hr
      refine (Option.or_eq_some_iff.1 hr).imp_right fun hadded => ?_
      obtain ⟨-, hnew⟩ := hadded
      refine ⟨?_, .inl ⟨f, hf, ?_, ?_⟩⟩
      · simpa using List.find?_some hnew
      · exact List.mem_of_find?_eq_some hnew
      · exact List.subset_append_right _ _
    · rw [Act.run, bind_of_error (liftBuild_error hb)] at hrun
      cases hrun

theorem step (h : σ.Recorded acts) (ha : a ∈ acts) (htidy : σ.Tidy)
    (hrun : a.run σ = .ok () σ') : σ'.Recorded acts ∧ σ'.Tidy := by
  rcases a.does htidy with ⟨v, u, hstep, hrun', hview, hran⟩ | ⟨-, e, u, hrun', -⟩
  · obtain rfl : u = σ' := (EStateM.Result.ok.inj (hrun'.symm.trans hrun)).2
    refine ⟨?_, hran.tidy⟩
    have hrule (id : String) : u.table.rule? id = v.rule? id :=
      congrFun (congrArg View.rule? hview) id
    cases a with
    | fragment f => exact h.fragment ha htidy hrun
    | forward name =>
      refine h.extend hran.log fun id r hr => .inl ?_
      rw [hrule] at hr
      rcases View.step_forward_eq_some hstep with ⟨rfl, -⟩ | ⟨rfl, -⟩ <;> exact hr
    | close name rule =>
      refine h.extend hran.log fun id r hr => ?_
      rw [hrule] at hr
      rcases View.step_close_eq_some hstep with ⟨rfl, -⟩ | ⟨rfl, -⟩
      · simp only [View.settle] at hr
        split at hr
        · rename_i hid
          cases hr
          exact .inr ⟨hid.symm, .inr ⟨name, rule, ha, rfl⟩⟩
        · exact .inl hr
      · exact .inl hr
  · rw [hrun'] at hrun
    cases hrun

theorem run {as : List Act} (h : σ.Recorded acts) (hsub : as ⊆ acts) (htidy : σ.Tidy)
    (hrun : runActs as σ = .ok () σ') : σ'.Recorded acts := by
  induction as generalizing σ with
  | nil =>
    cases hrun
    exact h
  | cons a as ih =>
    obtain ⟨_, u, ha, hrest⟩ := bind_eq_ok hrun
    obtain ⟨hmem, hsub⟩ := List.cons_subset.1 hsub
    obtain ⟨hu, htidy⟩ := h.step hmem htidy ha
    exact ih hu hsub htidy hrest

end CompileState.Recorded

end Records

section Compiled

variable {registry : Registry} {root : String} {options : SchemaOptions} {start : RuleHandle}
  {s : Session}

theorem digits_sound (known : String → Prop) : (Layout.ofTerminals decimalDigits).Sound known := by
  have hfull : Layout.Full (Layout.ofTerminals decimalDigits) := by decide +kernel
  refine ⟨by decide, fun hrow => (hfull _ hrow).1, by decide +kernel,
    fun hrow hraw he => (hfull _ hrow).2 (he ▸ hraw), fun {row p handle} hrow hp hhandle => ?_⟩
  obtain ⟨raw, -, rfl⟩ := List.mem_map.1 hrow
  obtain rfl := List.mem_singleton.1 hp
  cases hhandle

theorem reference_sound {known : String → Prop} {handle : RuleHandle} (hplain : PlainId handle.id)
    (hknown : known handle.id) : Layout.Sound known [[.rule handle]] := by
  refine ⟨by simp, by simp, fun row hrow p hp => ?_, fun {row raw} hrow hraw => ?_,
    fun {row p handle'} hrow hp h => ?_⟩
  · obtain rfl := List.mem_singleton.1 hrow
    obtain rfl := List.mem_singleton.1 hp
    exact hplain.referable
  · obtain rfl := List.mem_singleton.1 hrow
    cases List.mem_singleton.1 hraw
  · obtain rfl := List.mem_singleton.1 hrow
    obtain rfl := List.mem_singleton.1 hp
    obtain rfl := List.mem_singleton.1 h
    exact hknown

/-- What has been built is committed. -/
theorem Session.Built.committed_of_known (h : s.Built (schemaPlan registry root options).acts)
    {handle : RuleHandle} (hknown : KnownIn (schemaPlan registry root options).acts handle) :
    ∃ r ∈ s.table.rules.toList, r.id = handle.id := by
  have htakes : ∃ a ∈ (schemaPlan registry root options).acts, View.Takes a handle.id := by
    rcases hknown with ⟨f, hf, rfl⟩ | ⟨name, hname, rfl⟩
    · exact ⟨_, hf, _, List.mem_append_right _ f.handle_mem_rules, rfl⟩
    · exact ⟨_, hname, rfl⟩
  obtain ⟨a, ha, hid⟩ := htakes
  obtain ⟨r, hr⟩ := h.rule?_of_takes ha hid
  obtain ⟨hmem, hrid⟩ := h.settled.wellFormed.rule?_eq_some_iff.1 hr
  exact ⟨r, Array.mem_toList_iff.2 hmem, hrid⟩

/-- Every rule of a compiled schema is one of sound layout, unless there has been a warning. -/
theorem sound_of_compile (hf : registry.factories = ∅)
    (h : Session.compile {} registry root options = (.ok start, s)) (hquiet : Quiet s.log)
    {r : Rule} (hr : r ∈ s.table.rules.toList) : PlainId r.id ∧ ∃ layout : Layout,
      r.production = layout.text ∧ layout.Sound fun id => ∃ r ∈ s.table.rules.toList, r.id = id := by
  have hgrows := Session.compile_grows {} registry root options
  rw [h] at hgrows
  obtain ⟨houtcome, hbuilt⟩ := Session.built_of_compile hf h
  obtain ⟨-, σ, hrun, rfl⟩ := Session.compile_eq_ok hf RuleTable.wellFormed_empty h
  have hrecorded : σ.Recorded (schemaPlan registry root options).acts := by
    refine CompileState.Recorded.run (fun id r hr => ?_) (List.Subset.refl _)
      (CompileState.tidy_of_settled RuleTable.settled_empty) hrun
    simp [CompileState.table, RuleTable.rule?] at hr
  have hwf := hbuilt.settled.wellFormed
  have hmem := Array.mem_toList_iff.1 hr
  obtain ⟨-, ⟨f, hfact, hrule, hnotes⟩ | ⟨name, rule, hclose, rfl⟩⟩ :=
    hrecorded r.id r (hwf.rule?_eq_some_iff.2 ⟨hmem, rfl⟩)
  · refine ⟨id_plain_of_mem hrule, ?_⟩
    rcases List.mem_append.1 hrule with hshared | hown
    · refine ⟨Layout.ofTerminals decimalDigits, ?_, digits_sound _⟩
      rw [Fragment.id_of_mem_shared hshared]
      rfl
    · have hfrom := fragment_from houtcome hfact
      obtain ⟨layout, hlayout, htext⟩ := Fragment.rule_of_mem_rules hown
      refine ⟨layout, htext, Fragment.sound_layouts (Fragment.legible_of_quiet hfrom hquiet hnotes)
        (fun handle hi => ?_) (fun r' hr' => ?_) hlayout ?_⟩
      · have hknown := hfrom.inputs_known handle hi
        exact ⟨hknown.plain, hbuilt.committed_of_known hknown⟩
      · obtain ⟨r'', hr''⟩ := hbuilt.rule?_of_takes hfact ⟨r', hr', rfl⟩
        obtain ⟨hmem'', hid⟩ := hwf.rule?_eq_some_iff.1 hr''
        exact ⟨r'', Array.mem_toList_iff.2 hmem'', hid⟩
      · rw [← htext]
        exact hgrows.consistent.production_ne_empty r hmem
  · have hknown := known_of_close houtcome hclose
    refine ⟨forwardId_plain name, [[.rule rule]], ?_,
      reference_sound hknown.plain (hbuilt.committed_of_known hknown)⟩
    simp [Layout.text, alternation, concatenation, Piece.text]

/-- The grammar text of a compiled schema is closed and reads back, whatever its field names,
literals and masks are, unless a text with both quotes has been warned of. -/
theorem compileFresh_readsBack (hf : registry.factories = ∅) {g : Grammar} {log : List Event}
    (h : compileFresh registry root options = (.ok g, log)) (hquiet : Quiet log) :
    g.ReadsBack (Session.compile {} registry root options).2.table.rules.toList := by
  obtain ⟨start, s, hc, rfl, rfl⟩ := compileFresh_eq_ok_iff.1 h
  rw [hc]
  obtain ⟨houtcome, hbuilt⟩ := Session.built_of_compile hf hc
  have hgrows := Session.compile_grows {} registry root options
  rw [hc] at hgrows
  have hsound := @sound_of_compile registry root options start s hf hc hquiet
  have hstart : ∃ r ∈ s.table.rules.toList, r.id = start.id :=
    hbuilt.committed_of_known (Plan.known_bind houtcome fun _ _ => Plan.object_known)
  refine ⟨RuleTable.splitOn_text ?_ fun r hr => ?_, hgrows.consistent.ids_nodup,
    fun r hr => ?_, hstart⟩
  · obtain ⟨r, hr, -⟩ := hstart
    exact List.ne_nil_of_mem hr
  · obtain ⟨hid, layout, htext, hlayout⟩ := hsound hr
    have hline := Layout.newline_not_mem fun row hrow p hp handle hhandle =>
      have ⟨_, hr', hid'⟩ := hlayout.references hrow hp hhandle
      hid' ▸ (hsound hr').1
    simp [Rule.line, Rule.handle, RuleHandle.text, htext, hid.newline_not_mem, hline]
  · obtain ⟨hid, layout, htext, hlayout⟩ := hsound hr
    have hread := Layout.readProduction_text hlayout.legible hlayout.ne_nil
    exact ⟨layout.symbols, readRule_line hid (htext ▸ hread), hlayout.resolves⟩

/-- A recursive record whose names, literals and masks hold what has a meaning in a grammar text. -/
def awkward : Registry where
  records := (∅ : Std.ExtTreeMap String RecordSchema).insert "A" ⟨[
    ⟨"it's \"<a|b>\"\n\\", .list (.record "A"), false, none⟩,
    ⟨"|", .literal (.string "\"<\n|>\\"), false, none⟩,
    ⟨"<", .string, false, some (.time "%\n'|<%>\\")⟩], none⟩

set_option maxRecDepth 100000 in
theorem awkward_readsBack : ∃ g log, compileFresh awkward "A" {} = (.ok g, log) ∧
    g.start = "__bjo_7b89c4cf3139c9af_decl" ∧
    g.ReadsBack (Session.compile {} awkward "A" {}).2.table.rules.toList := by
  have hstart : (compileFresh awkward "A" {}).1.map Grammar.start =
      .ok "__bjo_7b89c4cf3139c9af_decl" := by decide +kernel
  have hwarnings : warningsOf (compileFresh awkward "A" {}).2 =
      [.forwardDeclared "A" ⟨"__bjr_559aead08264d579_decl"⟩] := by decide +kernel
  have hquiet : Quiet (compileFresh awkward "A" {}).2 := by simp [Quiet, hwarnings]
  cases hresult : (compileFresh awkward "A" {}).1 with
  | error e =>
    rw [hresult] at hstart
    cases hstart
  | ok g =>
    rw [hresult] at hstart
    have hrun := eq_mk_of_fst hresult
    exact ⟨g, _, hrun, Except.ok.inj hstart, compileFresh_readsBack rfl hrun hquiet⟩

end Compiled

end RecordGrammar
