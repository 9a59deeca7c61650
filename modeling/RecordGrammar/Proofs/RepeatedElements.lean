import RecordGrammar.Proofs.MemoizedBuilds
import RecordGrammar.Proofs.RowTexts
import RecordGrammar.Proofs.FragmentReading

/-! # Repetitions of arbitrary elements

The production of a repetition holds its element twice and its own id once. The element is text that
a client has written, so what it is read as has to be the same wherever it stands: a symbol is read
the same whatever follows it. The id holds a stem that a client has chosen, and nothing keeps it
from holding the character that ends a reference. -/

namespace RecordGrammar

namespace Dialect

variable {text after chars : List Char} {symbol : GrammarSymbol}

theorem eq_append_of_expect {pattern : List Char} (h : expect pattern text = some after) :
    text = pattern ++ after := by
  induction pattern generalizing text with
  | nil => exact Option.some.inj h
  | cons c pattern ih =>
    cases text with
    | nil => cases h
    | cons d text =>
      rw [expect] at h
      split at h
      · subst d
        rw [ih h, List.cons_append]
      · cases h

/-- Whether a pattern begins a text is seen up to the first stop, if the pattern holds no stop before
its end. -/
theorem expect_eq_none_of_stop {pattern : List Char} {stop : Char} (hpattern : stop ∉ pattern.dropLast)
    (h : expect pattern (chars ++ stop :: after) = none) (rest : List Char) :
    expect pattern (chars ++ stop :: rest) = none := by
  induction pattern generalizing chars with
  | nil => cases h
  | cons c pattern ih =>
    -- A pattern that goes on behind its first character does not begin with the stop.
    have hlast (hstop : c = stop) : pattern = [] := by
      cases pattern with
      | nil => rfl
      | cons d pattern =>
        rw [List.dropLast_cons_cons, List.mem_cons, not_or] at hpattern
        exact absurd hstop.symm hpattern.1
    have htail : stop ∉ pattern.dropLast := fun hmem => hpattern (by
      cases pattern with
      | nil => cases hmem
      | cons d pattern => exact List.mem_cons_of_mem c hmem)
    cases chars with
    | nil =>
      simp only [List.nil_append, expect] at h ⊢
      by_cases hc : c = stop
      · rw [if_pos hc, hlast hc] at h
        cases h
      · rw [if_neg hc]
    | cons d chars =>
      simp only [List.cons_append, expect] at h ⊢
      by_cases hc : c = d
      · rw [if_pos hc] at h ⊢
        exact ih htail h
      · rw [if_neg hc]

theorem eq_append_of_readUntil {stop : Char} (h : readUntil stop text = some (chars, after)) :
    stop ∉ chars ∧ ∃ rest, after = stop :: rest ∧ text = chars ++ stop :: rest := by
  induction text generalizing chars with
  | nil => cases h
  | cons c text ih =>
    rw [readUntil] at h
    split at h
    · subst c
      cases h
      exact ⟨List.not_mem_nil, text, rfl, rfl⟩
    · obtain ⟨⟨chars, _⟩, hread, he⟩ := Option.map_eq_some_iff.1 h
      cases he
      obtain ⟨hchars, rest, rfl, rfl⟩ := ih hread
      refine ⟨?_, rest, rfl, rfl⟩
      rw [List.mem_cons, not_or]
      exact ⟨Ne.symm ‹_›, hchars⟩

theorem ne_backslash_of_quote {quote : Char} (h : quote = '"' ∨ quote = '\'') : quote ≠ '\\' := by
  rintro rfl
  exact absurd h (by decide)

theorem eq_append_of_readQuoted {quote : Char} (hescape : quote ≠ '\\')
    (h : readQuoted quote text = some (chars, after)) : ∃ written, text = written ++ after ∧
      ∀ rest, readQuoted quote (written ++ rest) = some (chars, rest) := by
  obtain ⟨written, rfl, hwritten⟩ := (readQuoted_eq_some_iff hescape).1 h
  refine ⟨written ++ [quote], by simp, fun rest => ?_⟩
  rw [List.append_assoc, List.singleton_append]
  exact hwritten.read hescape rest

/-- A reference whose id is taken for no mark. -/
theorem Spells.reference {id : List Char} (hstop : '>' ∉ id)
    (hany : expect "any!>".toList (id ++ '>' :: after) = none)
    (hexcept : expect "except!(".toList (id ++ '>' :: after) = none) :
    Spells ('<' :: (id ++ ['>'])) (.rule (String.ofList id)) where
  read rest := by
    have hany := expect_eq_none_of_stop (by decide) hany rest
    have hexcept := expect_eq_none_of_stop (by decide) hexcept rest
    rw [List.cons_append, List.append_assoc, List.singleton_append]
    simp only [readSymbol, hany, hexcept, readUntil_append hstop]
    simp [expect]
  no_bar := by simp

theorem eq_append_of_readExcept (h : readExcept text = some (symbol, after)) :
    ∃ written, text = written ++ after ∧
      ∀ rest, readExcept (written ++ rest) = some (symbol, rest) := by
  fun_cases readExcept text with
  | case1 text =>
    simp only [readExcept, Option.bind_eq_bind, Option.bind_eq_some_iff] at h
    obtain ⟨⟨id, _⟩, hread, _, hclose, he⟩ := h
    cases he
    obtain ⟨hid, tail, rfl, rfl⟩ := eq_append_of_readUntil hread
    obtain ⟨-, rfl⟩ : True ∧ tail = ")>".toList ++ after := by
      have := eq_append_of_expect hclose
      simpa using this
    refine ⟨'[' :: (id ++ "])>".toList), by simp, fun rest => ?_⟩
    have hsplit : id ++ "])>".toList ++ rest = id ++ ']' :: (")>".toList ++ rest) := by simp
    rw [List.cons_append, hsplit]
    simp only [readExcept, readUntil_append hid]
    simp [expect]
  | case2 quote text hbracket hquote =>
    have hsome (text : List Char) : readExcept (quote :: text) =
        (readQuoted quote text).bind fun read => (expect ")>".toList read.2).map fun after =>
          (.exceptChars read.1, after) := by
      rw [readExcept.eq_2 _ _ hbracket, if_pos hquote]
      simp only [Option.map_eq_bind]
      rfl
    rw [hsome] at h
    simp only [Option.bind_eq_some_iff, Option.map_eq_some_iff] at h
    obtain ⟨⟨chars, _⟩, hread, _, hclose, he⟩ := h
    cases he
    obtain ⟨written, rfl, hwritten⟩ := eq_append_of_readQuoted (ne_backslash_of_quote hquote) hread
    obtain rfl := eq_append_of_expect hclose
    refine ⟨quote :: (written ++ ")>".toList), by simp, fun rest => ?_⟩
    rw [List.cons_append, hsome, List.append_assoc, hwritten]
    simp [expect]
  | case3 quote text hbracket hquote =>
    rw [readExcept.eq_2 _ _ hbracket, if_neg hquote] at h
    cases h
  | case4 => cases h

/-- What has been read as a symbol spells it, so it is read the same before anything else. -/
theorem Spells.of_readSymbol (h : readSymbol text = some (symbol, after)) :
    ∃ written, text = written ++ after ∧ Spells written symbol := by
  fun_cases readSymbol text with
  | case1 text after' hany =>
    simp only [readSymbol, hany] at h
    cases h
    obtain rfl := eq_append_of_expect hany
    refine ⟨"<any!>".toList, by simp, fun rest => ?_, by simp⟩
    simp [readSymbol, expect]
  | case2 text rest hexcept hany =>
    simp only [readSymbol, hany, hexcept] at h
    obtain rfl := eq_append_of_expect hexcept
    obtain ⟨written, rfl, hwritten⟩ := eq_append_of_readExcept h
    refine ⟨"<except!(".toList ++ written, by simp, fun rest => ?_, by simp⟩
    simp [readSymbol, expect, hwritten]
  | case3 text hexcept hany =>
    simp only [readSymbol, hany, hexcept, Option.bind_eq_bind, Option.bind_eq_some_iff] at h
    obtain ⟨⟨id, _⟩, hread, _, hclose, he⟩ := h
    cases he
    obtain ⟨hid, tail, rfl, rfl⟩ := eq_append_of_readUntil hread
    have htail := eq_append_of_expect hclose
    cases htail
    exact ⟨'<' :: (id ++ ['>']), by simp, .reference hid hany hexcept⟩
  | case4 quote text hbracket hquote =>
    have hsome (text : List Char) : readSymbol (quote :: text) =
        (readQuoted quote text).map fun read => (.terminal read.1, read.2) := by
      rw [readSymbol.eq_2 _ _ hbracket, if_pos hquote]
    rw [hsome] at h
    obtain ⟨⟨chars, _⟩, hread, he⟩ := Option.map_eq_some_iff.1 h
    cases he
    obtain ⟨written, rfl, hwritten⟩ := eq_append_of_readQuoted (ne_backslash_of_quote hquote) hread
    refine ⟨quote :: written, rfl, fun rest => ?_, ?_⟩
    · rw [List.cons_append, hsome, hwritten]
      rfl
    · rcases hquote with rfl | rfl <;> simp
  | case5 quote text hbracket hquote =>
    rw [readSymbol.eq_2 _ _ hbracket, if_neg hquote] at h
    cases h
  | case6 => cases h

/-- What has been read as alternatives is read so with more behind it, which joins the last of
them. -/
theorem ReadsAs.of_readAlternatives {fuel : Nat} {alternatives : Alternatives}
    (h : readAlternatives fuel text = some alternatives) :
    ∃ init last, alternatives = init ++ [last] ∧ ∀ {rest first others},
      ReadsAs rest (first :: others) → ReadsAs (text ++ rest) (init ++ (last ++ first) :: others) := by
  fun_induction readAlternatives fuel text generalizing alternatives with
  | case1 =>
    cases h
    exact ⟨[], [], rfl, id⟩
  | case2 => cases h
  | case3 fuel text ih =>
    obtain ⟨alternatives, hread, rfl⟩ := Option.map_eq_some_iff.1 h
    obtain ⟨init, last, rfl, hinit⟩ := ih hread
    exact ⟨[] :: init, last, rfl, fun hrest => (hinit hrest).bar⟩
  | case4 fuel text hnil hbar ih =>
    simp only [Option.bind_eq_bind, Option.bind_eq_some_iff] at h
    obtain ⟨⟨symbol, after⟩, hsymbol, alternatives, hread, h⟩ := h
    obtain ⟨init, last, rfl, hinit⟩ := ih _ hread
    obtain ⟨written, rfl, hwritten⟩ := Spells.of_readSymbol hsymbol
    cases init with
    | nil =>
      cases h
      refine ⟨[], symbol :: last, rfl, fun hrest => ?_⟩
      rw [List.append_assoc]
      exact hwritten.readsAs (hinit hrest)
    | cons first init =>
      cases h
      refine ⟨(symbol :: first) :: init, last, rfl, fun hrest => ?_⟩
      rw [List.append_assoc]
      exact hwritten.readsAs (hinit hrest)

end Dialect

/-- A scope whose automatic ids can be referred to: they neither end a reference early nor are taken
for an exception. -/
structure Scope.Referable (scope : Scope) : Prop where
  closed : '>' ∉ scope.stem.toList
  not_except : ¬"except!(".toList <+: scope.stem.toList

open Dialect

theorem Scope.Referable.spells {scope : Scope} (h : scope.Referable) (n : Nat) :
    Spells (RuleHandle.text ⟨RuleTable.autoId scope.stem n⟩).toList
      (.rule (RuleTable.autoId scope.stem n)) := by
  let id := RuleTable.autoId scope.stem n
  have hid : id.toList = scope.stem.toList ++ '_' :: (toString n).toList := by
    simp [id, RuleTable.autoId]
  have hstop : '>' ∉ id.toList := by
    rw [hid, List.mem_append, List.mem_cons, not_or, not_or]
    exact ⟨h.closed, by decide, (PlainId.toString_nat n).not_mem (by decide)⟩
  have hany : expect "any!>".toList (id.toList ++ '>' :: []) = none := by
    refine Option.eq_none_iff_forall_ne_some.2 fun after hafter => ?_
    have heq : id.toList ++ '>' :: [] = "any!>".toList ++ after := eq_append_of_expect hafter
    have hmark : id.toList = "any!".toList :=
      (append_cons_inj_of_first hstop (by decide : '>' ∉ "any!".toList) heq).1
    have hmem : '_' ∈ "any!".toList := by
      rw [← hmark, hid]
      simp
    exact absurd hmem (by decide)
  have hexcept : expect "except!(".toList (id.toList ++ '>' :: []) = none := by
    refine Option.eq_none_iff_forall_ne_some.2 fun after hafter => ?_
    have heq := eq_append_of_expect hafter
    rw [hid, List.append_assoc, List.append_eq_append_iff] at heq
    rcases heq with ⟨mark, hmark, hrest⟩ | ⟨rest, hstem, -⟩
    · cases mark with
      | nil => exact h.not_except (by simp [hmark])
      | cons c mark =>
        have hmem : '_' ∈ "except!(".toList := by
          rw [hmark, (List.cons.inj hrest).1]
          exact List.mem_append_right _ List.mem_cons_self
        exact absurd hmem (by decide)
    · exact h.not_except ⟨rest, hstem.symm⟩
  have hspells := Spells.reference hstop hany hexcept
  rw [String.ofList_toList] at hspells
  simpa [RuleHandle.text, id] using hspells

/-- The production of a repetition is read as its element, and as its element before itself. -/
theorem readProduction_optionalTail {element : String} {row : List GrammarSymbol}
    (hrow : readProduction element = some [row]) {handle : RuleHandle}
    (hhandle : Spells handle.text.toList (.rule handle.id)) :
    readProduction (optionalTail element handle.text) = some [row, row ++ [.rule handle.id]] := by
  obtain ⟨init, last, he, hread⟩ := ReadsAs.of_readAlternatives hrow
  obtain ⟨rfl, rfl⟩ : init = [] ∧ last = row := by
    cases init with
    | nil => exact ⟨rfl, (List.singleton_inj.1 he).symm⟩
    | cons first init => simp at he
  have hself : ReadsAs handle.text.toList [[.rule handle.id]] := by
    simpa using hhandle.readsAs readsAs_nil
  have hboth := hread (hread hself).bar
  have htext : (optionalTail element handle.text).toList =
      element.toList ++ '|' :: (element.toList ++ handle.text.toList) := by
    simp [optionalTail, alternation]
  rw [readProduction, htext]
  simpa using hboth _ (Nat.le_refl _)

namespace Workbench

variable {bench : Workbench}

/-- Repetitions in whatever state a run over two empty tables has left them. A repetition is always
made, adds one rule and leaves the reservations as they were; and where its scope can be referred to
and its element has no alternatives of its own, it derives what one or more texts of the element
make together. -/
theorem Later.oneOrMore_derives (hreach : Workbench.Later {} bench) (side : Side) (scope : Scope)
    (element : String) :
    ∃ rule done, onSide side (scope.oneOrMore element) bench = .ok rule done ∧
      (done.table side).rules.toList =
        (bench.table side).rules.toList ++ [⟨rule.id, optionalTail element rule.text⟩] ∧
      (∀ id, (done.table side).reserved.contains id = (bench.table side).reserved.contains id) ∧
      (scope.Referable → ∀ row, readProduction element = some [row] →
        ∀ text, (done.table side).Derives rule text ↔ ∃ parts : List String, parts ≠ [] ∧
          (∀ part ∈ parts, Derives (done.table side).reading row part.toList) ∧
          text = String.join parts) := by
  have hwf : (bench.table side).WellFormed := hreach.wellFormed side
  let id := ((bench.table side).freshId scope.stem).1
  let claimed := ((bench.table side).freshId scope.stem).2.claim id
  obtain ⟨hdefined, hreserved⟩ := RuleTable.taken_eq_false_iff.1 (hwf.freshId_free scope.stem)
  have hclaimed : claimed.WellFormed := (hwf.of_counters _).claim hdefined
  let production := optionalTail element (RuleHandle.text ⟨id⟩)
  let session : Session := ⟨(claimed.release id).push id production, (bench.session side).log⟩
  have hrun : onSide side (scope.oneOrMore element) bench =
      .ok ⟨id⟩ (bench.withSession session side) := by
    rw [onSide, Scope.oneOrMore_eq]
    rfl
  refine ⟨⟨id⟩, _, hrun, ?_, fun other => ?_, fun hscope row hrow text => ?_⟩
  · rw [table_withSession, RuleTable.toList_rules_push]
    rfl
  · rw [table_withSession, RuleTable.reserved_push, RuleTable.reserved_release,
      RuleTable.reserved_claim]
    by_cases hother : other = id
    · rw [hother]
      simpa using hreserved
    · rw [decide_eq_true hother, decide_eq_false hother, Bool.true_and, Bool.false_or]
      rfl
  · rw [table_withSession]
    have hrule : session.table.rule? id = some ⟨id, production⟩ := by
      rw [(hclaimed.release id).rule?_push, if_pos rfl]
    have hread := (RuleTable.reading_of_rule? hrule).trans
      (readProduction_optionalTail hrow (hscope.spells _))
    refine (Derives.repeated_iff hread).trans (exists_strings_iff.trans ?_)
    simp only [List.forall_mem_map, toList_eq_flatten_iff, ne_eq, List.map_eq_nil_iff]

/-- Pairs of a letter and a comma, in a table with a reservation in between. -/
def pairedBench : Workbench := finalState (onSide .first (do
  let _ ← Scope.define ⟨"p"⟩ "\"a\"|\"b\""
  Scope.reserve ⟨"p"⟩) {})

/-- The element refers to a rule with two alternatives, of which each text takes its own. -/
theorem pairedBench_derives :
    Workbench.Later {} pairedBench ∧ Scope.Referable ⟨"p"⟩ ∧
      readProduction "<p_0>\",\"" = some [[.rule "p_0", .terminal [',']]] ∧
      ∃ rule done, onSide .first (Scope.oneOrMore ⟨"p"⟩ "<p_0>\",\"") pairedBench = .ok rule done ∧
        done.first.rules.toList = [⟨"p_0", "\"a\"|\"b\""⟩,
          ⟨"p_2", "<p_0>\",\"|<p_0>\",\"<p_2>"⟩] ∧
        done.first.reserved.contains "p_1" = true ∧ done.first.Derives rule "a,b,a," := by
  have hreach : Workbench.Later {} pairedBench :=
    ⟨_, _, .step (.table .first (.bind (.define _ _) fun _ => .step (.reserve _))), rfl⟩
  have hscope : Scope.Referable ⟨"p"⟩ := ⟨by decide, by decide⟩
  have hread : readProduction "<p_0>\",\"" = some [[.rule "p_0", .terminal [',']]] := by
    decide +kernel
  obtain ⟨rule, done, hrun, hrules, hreserved, htexts⟩ :=
    hreach.oneOrMore_derives .first ⟨"p"⟩ "<p_0>\",\""
  have hdone : done =
      finalState (onSide .first (Scope.oneOrMore ⟨"p"⟩ "<p_0>\",\"") pairedBench) := by
    rw [hrun]
    rfl
  have hletter : done.first.reading "p_0" = some [[.terminal ['a']], [.terminal ['b']]] := by
    rw [hdone]
    decide +kernel
  have hpart {c : Char} (hc : c = 'a' ∨ c = 'b') :
      Derives done.first.reading [.rule "p_0", .terminal [',']] [c, ','] := by
    have hrow : [.terminal [c]] ∈ [[GrammarSymbol.terminal ['a']], [.terminal ['b']]] := by
      rcases hc with rfl | rfl <;> simp
    exact Derives.rule hletter hrow (.terminal .nil) (.terminal .nil)
  refine ⟨hreach, hscope, hread, rule, done, hrun, ?_, ?_, ?_⟩
  · rw [hdone]
    decide +kernel
  · exact (hreserved "p_1").trans (by decide +kernel)
  · refine (htexts hscope _ hread _).2 ⟨["a,", "b,", "a,"], by simp, ?_, by decide +kernel⟩
    simp only [List.forall_mem_cons]
    exact ⟨hpart (.inl rfl), hpart (.inr rfl), hpart (.inl rfl), by simp⟩

/-- In a scope that cannot be referred to, a repetition of a text that its element derives derives
nothing at all. -/
theorem unreferable_derives_nothing :
    ∃ rule done, onSide .first (Scope.oneOrMore ⟨"a>"⟩ "\"x\"") {} = .ok rule done ∧
      readProduction "\"x\"" = some [[.terminal ['x']]] ∧
      Derives done.first.reading [.terminal ['x']] "x".toList ∧
      ∀ text, ¬done.first.Derives rule text := by
  refine ⟨_, _, by rw [onSide, Scope.oneOrMore_eq], by decide +kernel, .terminal .nil,
    fun text h => ?_⟩
  obtain ⟨alternatives, hread, -⟩ := Derives.rule_iff.1 h
  have hnone : (finalState (onSide .first (Scope.oneOrMore ⟨"a>"⟩ "\"x\"") {})).first.reading
      "a>_0" = none := by
    decide +kernel
  cases hnone.symm.trans hread

end Workbench

end RecordGrammar
