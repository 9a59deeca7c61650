import RecordGrammar.Proofs.EnumerationKeys
import RecordGrammar.Proofs.NumeralTexts

/-! # The texts of a tree in any layout

A value is read from its text whatever stands behind it. So the text of an array or of an object is
put together from those of its parts, with space of any kind between them. -/

namespace RecordGrammar

instance (text : List Char) : Decidable (Blank text) := List.decidableBAll _ _

/-- The space inside the brackets of an array or of an object. -/
structure Spacing where
  /-- Behind the opening bracket. -/
  opening : List Char := []
  /-- Behind a comma. -/
  comma : List Char := []
  /-- Behind a colon. -/
  colon : List Char := []
  /-- Before the closing bracket. -/
  closing : List Char := []
  opening_blank : Blank opening := by decide
  comma_blank : Blank comma := by decide
  colon_blank : Blank colon := by decide
  closing_blank : Blank closing := by decide

namespace Spacing

def row (s : Spacing) (entries : List (List Char)) : List Char :=
  (',' :: s.comma).intercalate entries

theorem row_cons (s : Spacing) (entry : List Char) (entries : List (List Char)) :
    ∃ behind, s.row (entry :: entries) = entry ++ behind := by
  cases entries with
  | nil => exact ⟨[], by simp [row]⟩
  | cons second entries =>
    exact ⟨_, by rw [row, List.intercalate_cons_cons, List.append_assoc]⟩

def array (s : Spacing) (items : List (List Char)) : List Char :=
  '[' :: (s.opening ++ (s.row items ++ (s.closing ++ [']'])))

def member (s : Spacing) (f : String × List Char) : List Char :=
  (jsonString f.1).toList ++ (':' :: (s.colon ++ f.2))

def object (s : Spacing) (fields : List (String × List Char)) : List Char :=
  '\x7b' :: (s.opening ++ (s.row (fields.map s.member) ++ (s.closing ++ ['\x7d'])))

end Spacing

namespace JsonReader

/-- A text that is read as a tree, whatever ends it, as long as so many brackets as it nests may be
opened. -/
structure Reads (nesting : Nat) (text : List Char) (node : Node) : Prop where
  starts : ∃ c rest, text = c :: rest ∧ isSpace c = false ∧ c ≠ ']'
  reads : ∀ fuel levels rest, 2 * text.length ≤ fuel → nesting ≤ levels → Numeral.Ends rest →
    readValue fuel levels (text ++ rest) = some (node, rest)

variable {nesting : Nat} {text rest : List Char} {node : Node}

/-- A text has a character, so the reader has a step to take. -/
theorem Reads.of_step (hstarts : ∃ c rest, text = c :: rest ∧ isSpace c = false ∧ c ≠ ']')
    (hreads : ∀ fuel levels rest, 2 * text.length ≤ fuel + 1 → nesting ≤ levels →
      Numeral.Ends rest → readValue (fuel + 1) levels (text ++ rest) = some (node, rest)) :
    Reads nesting text node where
  starts := hstarts
  reads fuel levels rest hfuel := by
    obtain ⟨c, more, rfl, -⟩ := hstarts
    rw [List.length_cons] at hfuel
    obtain ⟨fuel, rfl⟩ := Nat.exists_eq_add_one.2 (show 0 < fuel by omega)
    exact hreads fuel levels rest hfuel

theorem Reads.mono {more : Nat} (h : Reads nesting text node) (hle : nesting ≤ more) :
    Reads more text node where
  starts := h.starts
  reads fuel levels rest hfuel hlevels := h.reads fuel levels rest hfuel (hle.trans hlevels)

theorem skipSpace_blank {space : List Char} (h : Blank space) (text : List Char) :
    skipSpace (space ++ text) = skipSpace text :=
  List.dropWhile_append_of_pos h

theorem skipSpace_cons {c : Char} (hc : isSpace c = false) (rest : List Char) :
    skipSpace (c :: rest) = c :: rest := by
  simp [skipSpace, hc]

theorem Reads.skipSpace (h : Reads nesting text node) (rest : List Char) :
    skipSpace (text ++ rest) = text ++ rest := by
  obtain ⟨c, more, rfl, hc, -⟩ := h.starts
  exact skipSpace_cons hc _

theorem Reads.ofJsonText? {s : String} (h : Reads nesting s.toList node)
    (hnesting : nesting ≤ 127) : Node.ofJsonText? s = some node := by
  have hread := h.reads (2 * s.toList.length + 1) 127 [] (by omega) hnesting Numeral.ends_nil
  have hskip := h.skipSpace []
  rw [List.append_nil] at hread hskip
  unfold Node.ofJsonText?
  dsimp only
  rw [hskip]
  exact Option.bind_eq_some_iff.2 ⟨(node, []), hread, rfl⟩

/-- A text that is read has as its value the value of the tree. -/
theorem Reads.ofText? {s : String} (h : Reads nesting s.toList node) (hnesting : nesting ≤ 127) :
    Json.ofText? s = node.toJson? := by
  rw [Json.ofText?, h.ofJsonText? hnesting, Option.bind_some]

/-- Whatever starts with a digit or a minus sign is read as a number. -/
theorem readValue_number {c : Char} (hc : c.isDigit = true ∨ c = '-') (fuel levels : Nat)
    (text : List Char) : readValue (fuel + 1) levels (c :: text) =
      (Numeral.read (c :: text)).bind fun r => some (r.1.value.elim .unreadable .ofNumber, r.2) := by
  unfold readValue
  -- What the other branches start with is neither a digit nor a minus sign.
  split
  all_goals first
    | rfl
    | simp_all

theorem reads_number (h : NumberText text) (hplus : text.head? ≠ some '+') {n : Numeral}
    (hread : ∀ rest, Numeral.Ends rest → Numeral.read (text ++ rest) = some (n, rest)) :
    Reads 0 text (n.value.elim .unreadable .ofNumber) := by
  obtain ⟨c, text, rfl⟩ := List.exists_cons_of_ne_nil h.ne_nil
  have hc : c.isDigit = true ∨ c = '-' :=
    h.head.imp_right fun hc => hc.resolve_left fun he => hplus (congrArg some he)
  refine .of_step ⟨c, text, rfl, ?_⟩ fun fuel levels rest _ _ hrest => ?_
  · have hall : ∀ c ∈ '-' :: "0123456789".toList, isSpace c = false ∧ c ≠ ']' :=
      forall_mem_of_all (by decide)
    exact hall c (List.mem_cons.2 (hc.symm.imp_right mem_decimal_iff.2))
  · rw [List.cons_append, readValue_number hc, ← List.cons_append, hread rest hrest]
    rfl

theorem ofText?_number {s : String} (h : NumberText s.toList) (hplus : s.toList.head? ≠ some '+')
    {n : Numeral} (hn : Numeral.read s.toList = some (n, [])) :
    Json.ofText? s = (n.value.elim .unreadable .ofNumber : Node).toJson? := by
  obtain ⟨n', hread⟩ := Numeral.read_append h hplus
  have hwhole := hread [] Numeral.ends_nil
  rw [List.append_nil, hn] at hwhole
  cases hwhole
  exact (reads_number h hplus hread).ofText? (Nat.zero_le _)

theorem reads_integer {k : Int} (hfits : -2 ^ 63 ≤ k ∧ k < 2 ^ 64) :
    Reads 0 (toString k).toList (.int k) := by
  obtain ⟨n, hvalue, hread⟩ := Numeral.read_integer hfits
  have hreads := reads_number (number_of_int k) (int_no_plus k) hread
  rwa [hvalue] at hreads

theorem reads_int (k : Int64) : Reads 0 (toString k.toInt).toList (.int k.toInt) :=
  reads_integer (int64_fits k)

/-- A number that is read back from its text alone is read back wherever the text stands. -/
theorem reads_back {number : JsonNumber} (h : Json.ofText? number.text = some (.number number)) :
    Reads 0 number.text.toList (.ofNumber number) := by
  have hshape : NumberText number.text.toList ∧ number.text.toList.head? ≠ some '+' := by
    cases number with
    | int k => exact ⟨number_of_int k, int_no_plus k⟩
    | float x => exact ⟨number_of_double x, double_no_plus x⟩
  obtain ⟨n, hread⟩ := Numeral.read_append hshape.1 hshape.2
  have hreads := reads_number hshape.1 hshape.2 hread
  have hvalue := (hreads.ofText? (Nat.zero_le _)).symm.trans h
  cases hn : n.value with
  | none =>
    rw [hn] at hvalue
    cases hvalue
  | some number' =>
    rw [hn] at hvalue hreads
    cases number' <;> cases hvalue <;> exact hreads

theorem reads_null : Reads 0 "null".toList .null :=
  .of_step ⟨'n', _, rfl, by decide⟩ fun _ _ _ _ _ _ => rfl

theorem reads_bool (b : Bool) : Reads 0 (if b then "true" else "false").toList (.bool b) := by
  cases b
  · exact .of_step ⟨'f', _, rfl, by decide⟩ fun _ _ _ _ _ _ => rfl
  · exact .of_step ⟨'t', _, rfl, by decide⟩ fun _ _ _ _ _ _ => rfl

/-- The text of a string is read as the string, up to its closing quote. -/
theorem readUnits_jsonString (s : String) (rest : List Char) : ∃ units,
    (jsonString s).toList ++ rest = '"' :: (s.toList.flatMap jsonEscapeChar ++ '"' :: rest) ∧
      readUnits (s.toList.flatMap jsonEscapeChar ++ '"' :: rest) = some (units, rest) ∧
      stringOf units = some s := by
  obtain ⟨units, hread, hchars⟩ := readUnits_escaped s.toList rest
  refine ⟨units, by simp [jsonString], hread, ?_⟩
  rw [stringOf, hchars, Option.map_some, String.ofList_toList]

theorem reads_string (s : String) : Reads 0 (jsonString s).toList (.string s) := by
  have hstarts : (jsonString s).toList = '"' :: (s.toList.flatMap jsonEscapeChar ++ ['"']) := by
    simp [jsonString]
  refine .of_step ⟨'"', _, hstarts, by decide⟩ fun fuel levels rest _ _ _ => ?_
  obtain ⟨units, htext, hread, hs⟩ := readUnits_jsonString s rest
  rw [htext, readValue, hread]
  simp [hs]

/-- No number goes on with space. -/
theorem ends_blank {space : List Char} (h : Blank space) (hrest : Numeral.Ends rest) :
    Numeral.Ends (space ++ rest) := by
  cases space with
  | nil => exact hrest
  | cons c space =>
    have hall : ∀ c ∈ [' ', '\n', '\t', '\r'],
        c.isDigit = false ∧ c ≠ '.' ∧ c ≠ 'e' ∧ c ≠ 'E' := forall_mem_of_all (by decide)
    have hc : c ∈ [' ', '\n', '\t', '\r'] := by
      simpa [isSpace, or_assoc] using h c List.mem_cons_self
    intro d hd
    cases hd
    exact hall c hc

variable (s : Spacing)

theorem readItems_blank {space : List Char} (h : Blank space) (fuel levels : Nat)
    (text : List Char) : readItems fuel levels (space ++ text) = readItems fuel levels text := by
  cases fuel with
  | zero => rfl
  | succ fuel => rw [readItems, readItems, skipSpace_blank h]

theorem readMembers_blank {space : List Char} (h : Blank space) (fuel levels : Nat)
    (text : List Char) :
    readMembers fuel levels (space ++ text) = readMembers fuel levels text := by
  cases fuel with
  | zero => rfl
  | succ fuel => rw [readMembers, readMembers, skipSpace_blank h]

/-- Items with commas between them are read one by one, up to the closing bracket. -/
theorem readItems_row {texts : List (List Char)} {nodes : List Node}
    (h : List.Forall₂ (Reads nesting) (text :: texts) (node :: nodes)) {fuel levels : Nat}
    (hfuel : 2 * (s.row (text :: texts)).length + 1 ≤ fuel) (hlevels : nesting ≤ levels)
    (rest : List Char) :
    readItems fuel levels (s.row (text :: texts) ++ (s.closing ++ ']' :: rest)) =
      some (node :: nodes, rest) := by
  induction texts generalizing text node nodes fuel with
  | nil =>
    obtain ⟨fuel, rfl⟩ := Nat.exists_eq_add_one.2 (show 0 < fuel by omega)
    obtain ⟨hfirst, hnil⟩ := List.forall₂_cons.1 h
    cases hnil
    rw [Spacing.row, List.intercalate_singleton] at hfuel ⊢
    have hread := hfirst.reads fuel levels (s.closing ++ ']' :: rest) (by omega) hlevels
      (ends_blank s.closing_blank (Numeral.ends_cons (by simp) rest))
    have hclose : skipSpace (s.closing ++ ']' :: rest) = ']' :: rest :=
      skipSpace_blank s.closing_blank _
    simp [readItems, hfirst.skipSpace, hread, hclose]
  | cons next texts ih =>
    obtain ⟨hfirst, hrest⟩ := List.forall₂_cons.1 h
    cases hrest with
    | cons hnext htail =>
      rw [Spacing.row, List.intercalate_cons_cons, ← Spacing.row] at hfuel ⊢
      simp only [List.length_append, List.length_cons] at hfuel
      obtain ⟨fuel, rfl⟩ := Nat.exists_eq_add_one.2 (show 0 < fuel by omega)
      have hread := hfirst.reads fuel levels
        (',' :: (s.comma ++ (s.row (next :: texts) ++ (s.closing ++ ']' :: rest)))) (by omega)
        hlevels (Numeral.ends_cons (by simp) _)
      have hmore := ih (.cons hnext htail) (show _ ≤ fuel by omega)
      rw [List.append_assoc, List.append_assoc, readItems, hfirst.skipSpace]
      exact Option.bind_eq_some_iff.2 ⟨_, hread,
        Option.bind_eq_some_iff.2 ⟨_, (readItems_blank s.comma_blank _ _ _).trans hmore, rfl⟩⟩

theorem readValue_brackets {fuel levels : Nat} {items : List Node} {text after : List Char}
    (hread : readItems fuel (levels - 1) (skipSpace text) = some (items, after))
    (hlevels : levels ≠ 0) (htext : (skipSpace text).head? ≠ some ']') :
    readValue (fuel + 1) levels ('[' :: text) = some (.sequence items, after) := by
  rw [readValue]
  split
  · rename_i hclose
    exact absurd (congrArg List.head? hclose) htext
  · simp [hread, hlevels]

theorem Reads.array {texts : List (List Char)} {nodes : List Node}
    (h : List.Forall₂ (Reads nesting) texts nodes) :
    Reads (nesting + 1) (s.array texts) (.sequence nodes) := by
  refine .of_step ⟨'[', _, rfl, by decide⟩ fun fuel levels rest hfuel hlevels _ => ?_
  simp only [Spacing.array, List.length_cons, List.length_append] at hfuel
  have hopen : levels ≠ 0 := by omega
  have htext : s.array texts ++ rest =
      '[' :: (s.opening ++ (s.row texts ++ (s.closing ++ ']' :: rest))) := by
    simp [Spacing.array]
  rw [htext]
  have hskip := skipSpace_blank s.opening_blank (s.row texts ++ (s.closing ++ ']' :: rest))
  cases h with
  | nil =>
    have hclose : JsonReader.skipSpace (s.row [] ++ (s.closing ++ ']' :: rest)) = ']' :: rest :=
      skipSpace_blank s.closing_blank _
    rw [readValue, hskip, hclose]
    simp [hopen]
  | @cons text node texts nodes hfirst hrest =>
    have hitems : readItems fuel (levels - 1)
        (s.row (text :: texts) ++ (s.closing ++ ']' :: rest)) = some (node :: nodes, rest) :=
      readItems_row s (.cons hfirst hrest) (by omega) (by omega) rest
    obtain ⟨c, more, hc, hspace, hnot⟩ := hfirst.starts
    obtain ⟨behind, hrow⟩ := s.row_cons text texts
    rw [hrow, List.append_assoc] at hskip hitems
    rw [hfirst.skipSpace] at hskip
    refine readValue_brackets ?_ hopen ?_
    · rw [hrow, List.append_assoc, hskip, hitems]
    · rw [hrow, List.append_assoc, hskip, hc]
      simpa using hnot

/-- Of a member the key is read, and behind the colon the value. -/
theorem member_read {f : String × List Char} (h : Reads nesting f.2 node) {fuel levels : Nat}
    (hfuel : 2 * (s.member f).length ≤ fuel) (hlevels : nesting ≤ levels)
    (hrest : Numeral.Ends rest) : ∃ inside units behind,
      skipSpace (s.member f ++ rest) = '"' :: inside ∧
        readUnits inside = some (units, ':' :: behind) ∧ stringOf units = some f.1 ∧
        readValue fuel levels (skipSpace behind) = some (node, rest) := by
  obtain ⟨units, hkey, hunits, hname⟩ :=
    readUnits_jsonString f.1 (':' :: (s.colon ++ (f.2 ++ rest)))
  have hread := h.reads fuel levels rest
    (by simp only [Spacing.member, List.length_append, List.length_cons] at hfuel; omega)
    hlevels hrest
  have htext : s.member f ++ rest =
      (jsonString f.1).toList ++ (':' :: (s.colon ++ (f.2 ++ rest))) := by
    simp [Spacing.member]
  refine ⟨_, units, _, ?_, hunits, hname, ?_⟩
  · rw [htext, hkey]
    rfl
  · rw [skipSpace_blank s.colon_blank, h.skipSpace, hread]

theorem readMembers_last {f : String × List Char} (h : Reads nesting f.2 node) {fuel levels : Nat}
    (hfuel : 2 * (s.member f).length ≤ fuel) (hlevels : nesting ≤ levels)
    (rest : List Char) :
    readMembers (fuel + 1) levels (s.member f ++ (s.closing ++ '\x7d' :: rest)) =
      some ([(some f.1, node)], rest) := by
  have hends : Numeral.Ends (s.closing ++ '\x7d' :: rest) :=
    ends_blank s.closing_blank (Numeral.ends_cons (by simp) rest)
  obtain ⟨inside, units, behind, htext, hunits, hname, hread⟩ :=
    member_read s h hfuel hlevels hends
  have hcolon : skipSpace (':' :: behind) = ':' :: behind := rfl
  have hclose : skipSpace (s.closing ++ '\x7d' :: rest) = '\x7d' :: rest :=
    skipSpace_blank s.closing_blank _
  simp [readMembers, htext, hunits, hcolon, hread, hclose, hname]

theorem readMembers_more {f : String × List Char} (h : Reads nesting f.2 node) {fuel levels : Nat}
    (hfuel : 2 * (s.member f).length ≤ fuel) (hlevels : nesting ≤ levels)
    {members : List (Option String × Node)} {after : List Char}
    (hmore : readMembers fuel levels rest = some (members, after)) :
    readMembers (fuel + 1) levels (s.member f ++ ',' :: (s.comma ++ rest)) =
      some ((some f.1, node) :: members, after) := by
  have hends : Numeral.Ends (',' :: (s.comma ++ rest)) := Numeral.ends_cons (by simp) _
  obtain ⟨inside, units, behind, htext, hunits, hname, hread⟩ :=
    member_read s h hfuel hlevels hends
  have hcolon : skipSpace (':' :: behind) = ':' :: behind := rfl
  have hcomma : skipSpace (',' :: (s.comma ++ rest)) = ',' :: (s.comma ++ rest) := rfl
  simp [readMembers, htext, hunits, hcolon, hread, hcomma, readMembers_blank s.comma_blank, hmore,
    hname]

/-- Fields, and the members that their texts are read as. -/
def Members (nesting : Nat) (fields : List (String × List Char)) (entries : List (String × Node)) :
    Prop :=
  List.Forall₂ (fun f e => e.1 = f.1 ∧ Reads nesting f.2 e.2) fields entries

/-- So are members, up to the closing brace. -/
theorem readMembers_row {f : String × List Char} {fields : List (String × List Char)}
    {e : String × Node} {entries : List (String × Node)}
    (h : Members nesting (f :: fields) (e :: entries)) {fuel levels : Nat}
    (hfuel : 2 * (s.row ((f :: fields).map s.member)).length + 1 ≤ fuel)
    (hlevels : nesting ≤ levels) (rest : List Char) :
    readMembers fuel levels
        (s.row ((f :: fields).map s.member) ++ (s.closing ++ '\x7d' :: rest)) =
      some ((e :: entries).map fun e => (some e.1, e.2), rest) := by
  induction fields generalizing f e entries fuel with
  | nil =>
    obtain ⟨fuel, rfl⟩ := Nat.exists_eq_add_one.2 (show 0 < fuel by omega)
    obtain ⟨⟨hname, hfirst⟩, hnil⟩ := List.forall₂_cons.1 h
    cases hnil
    rw [List.map_singleton, Spacing.row, List.intercalate_singleton] at hfuel ⊢
    rw [readMembers_last s hfirst (by omega) hlevels rest, ← hname]
    rfl
  | cons next fields ih =>
    obtain ⟨⟨hname, hfirst⟩, hrest⟩ := List.forall₂_cons.1 h
    cases hrest with
    | cons hnext htail =>
      rw [List.map_cons, List.map_cons, Spacing.row, List.intercalate_cons_cons, ← Spacing.row,
        ← List.map_cons] at hfuel ⊢
      simp only [List.length_append, List.length_cons] at hfuel
      obtain ⟨fuel, rfl⟩ := Nat.exists_eq_add_one.2 (show 0 < fuel by omega)
      have hmore := ih (.cons hnext htail) (show _ ≤ fuel by omega)
      rw [List.append_assoc, List.append_assoc, List.map_cons (a := e), hname]
      exact readMembers_more s hfirst (by omega) hlevels hmore

theorem mappingOf_some (entries : List (String × Node)) :
    mappingOf (entries.map fun e => (some e.1, e.2)) = .mapping entries := by
  have hnamed : (entries.map fun e => (some e.1, e.2)).mapM
      (fun m : Option String × Node => m.1.map (·, m.2)) = some entries := by
    induction entries with
    | nil => rfl
    | cons e entries ih => rw [List.map_cons, List.mapM_cons, ih]; rfl
  rw [mappingOf, hnamed]

theorem readValue_braces {fuel levels : Nat} {members : List (Option String × Node)}
    {text after : List Char}
    (hread : readMembers fuel (levels - 1) (skipSpace text) = some (members, after))
    (hlevels : levels ≠ 0) (htext : (skipSpace text).head? ≠ some '\x7d') :
    readValue (fuel + 1) levels ('\x7b' :: text) = some (mappingOf members, after) := by
  rw [readValue]
  split
  · rename_i hclose
    exact absurd (congrArg List.head? hclose) htext
  · simp [hread, hlevels]

theorem Reads.object {fields : List (String × List Char)} {entries : List (String × Node)}
    (h : Members nesting fields entries) :
    Reads (nesting + 1) (s.object fields) (.mapping entries) := by
  refine .of_step ⟨'\x7b', _, rfl, by decide⟩ fun fuel levels rest hfuel hlevels _ => ?_
  simp only [Spacing.object, List.length_cons, List.length_append] at hfuel
  have hopen : levels ≠ 0 := by omega
  have htext : s.object fields ++ rest = '\x7b' ::
      (s.opening ++ (s.row (fields.map s.member) ++ (s.closing ++ '\x7d' :: rest))) := by
    simp [Spacing.object]
  rw [htext]
  have hskip :=
    skipSpace_blank s.opening_blank (s.row (fields.map s.member) ++ (s.closing ++ '\x7d' :: rest))
  rw [← mappingOf_some]
  cases h with
  | nil =>
    have hclose : JsonReader.skipSpace (s.row [] ++ (s.closing ++ '\x7d' :: rest)) =
        '\x7d' :: rest := skipSpace_blank s.closing_blank _
    rw [List.map_nil] at hskip ⊢
    rw [readValue, hskip, hclose]
    simp [hopen]
  | @cons f e fields entries hfirst hrest =>
    have hmembers : readMembers fuel (levels - 1)
        (s.row ((f :: fields).map s.member) ++ (s.closing ++ '\x7d' :: rest)) =
          some ((e :: entries).map fun e => (some e.1, e.2), rest) :=
      readMembers_row s (.cons hfirst hrest) (by omega) (by omega) rest
    obtain ⟨behind, hrow⟩ := s.row_cons (s.member f) (fields.map s.member)
    rw [← List.map_cons] at hrow
    obtain ⟨inside, hquote⟩ : ∃ inside, s.member f = '"' :: inside := by
      simp [Spacing.member, jsonString]
    rw [hrow, hquote, List.cons_append, List.cons_append, skipSpace_cons (by decide)] at hskip
    rw [hrow, hquote, List.cons_append, List.cons_append] at hmembers
    refine readValue_braces ?_ hopen ?_
    · rw [hrow, hquote, List.cons_append, List.cons_append, hskip, hmembers]
    · rw [hrow, hquote, List.cons_append, List.cons_append, hskip]
      simp

end JsonReader

end RecordGrammar
