import RecordGrammar.Proofs.TableGrowth

/-! # What building a fragment adds to a table -/

namespace RecordGrammar

@[simp] theorem concatenation_singleton (text : String) : concatenation [text] = text := by
  simp [concatenation]

@[simp] theorem alternation_singleton (text : String) : alternation [text] = text := by
  simp [alternation]

theorem Piece.text_ne_empty (p : Piece) : p.text ≠ "" := by
  rw [ne_eq, ← String.toList_inj]
  cases p with
  | terminal raw =>
    simp only [text, RecordGrammar.terminal]
    split <;> simp
  | key name first => simp [text, JsonFragment.keyTerminal]
  | rule handle => simp [text, RuleHandle.text]
  | except handle => simp [text, exceptUnit]

namespace Layout

@[simp] theorem text_ofTerminals (texts : List String) :
    Layout.text (Layout.ofTerminals texts) = alternation (texts.map terminal) := by
  simp [Layout.text, Layout.ofTerminals, Function.comp_def, Piece.text]

/-- Some alternative has a piece in it, so that the production is not the empty text. -/
def Proper (layout : Layout) : Prop := ∃ row ∈ layout, row ≠ []

instance (layout : Layout) : Decidable layout.Proper := inferInstanceAs (Decidable (∃ _ ∈ _, _))

theorem Proper.cons {row : List Piece} {layout : Layout} (h : row ≠ []) :
    Proper (row :: layout) := ⟨row, List.mem_cons_self, h⟩

theorem Proper.append {layout layout' : Layout} (h : Proper layout) :
    Proper (layout ++ layout') :=
  have ⟨row, hrow, hne⟩ := h
  ⟨row, List.mem_append_left _ hrow, hne⟩

theorem ofTerminals_proper {texts : List String} (h : texts ≠ []) :
    (Layout.ofTerminals texts).Proper := by
  cases texts with
  | nil => exact absurd rfl h
  | cons raw texts => exact .cons (by simp)

theorem Proper.text_ne_empty {layout : Layout} (h : layout.Proper) : layout.text ≠ "" := by
  obtain ⟨row, hrow, hne⟩ := h
  have hconcat : concatenation (row.map Piece.text) ≠ "" := by
    cases row with
    | nil => exact absurd rfl hne
    | cons p row => simp [concatenation, p.text_ne_empty]
  simp only [Layout.text, alternation]
  induction layout with
  | nil => cases hrow
  | cons first rest ih =>
    cases rest with
    | nil =>
      obtain rfl : row = first := by simpa using hrow
      simpa using hconcat
    | cons second rest => simp

end Layout

namespace Builds

variable {α : Type} {stem : String} {n : Nat} {a : α} {layout : Layout} {new : List Layout}
  {rest : RuleHandle → Build α}

theorem define_then {production : String}
    (hrest : Builds stem (n + 1) (rest (helperHandle stem n)) a new)
    (hp : production = layout.text) (hne : layout.Proper) :
    Builds stem n (Scope.define ⟨stem⟩ production >>= rest) a (layout :: new) := by
  rw [hp]
  exact step (define hne.text_ne_empty) hrest

theorem pure_of_eq {production : String} (h : production = layout.text) :
    Builds stem n (Pure.pure production) layout.text [] := h ▸ pure production

theorem reserve_commit_then {production : Reservation → String}
    (hrest : Builds stem (n + 1) (rest (helperHandle stem n)) a new)
    (hp : production ⟨RuleTable.autoId stem n⟩ = layout.text) (hne : layout.Proper) :
    Builds stem n (Scope.reserve ⟨stem⟩ >>= fun slot => commit slot (production slot) >>= rest) a
      (layout :: new) := by
  rw [← bind_assoc]
  exact step (reserveCommit hp hne.text_ne_empty) hrest

theorem oneOrMore_then {row : List Piece} {element : String}
    (hrest : Builds stem (n + 1) (rest (helperHandle stem n)) a new)
    (hp : element = concatenation (row.map Piece.text)) :
    Builds stem n (Scope.oneOrMore ⟨stem⟩ element >>= rest) a
      (Layout.repeated row (helperHandle stem n) :: new) := by
  have hne : (Layout.repeated row (helperHandle stem n)).Proper :=
    ⟨_, List.mem_cons_of_mem _ List.mem_cons_self, by simp⟩
  refine step (reserveCommit ?_ hne.text_ne_empty) hrest
  simp [hp, optionalTail, Layout.repeated, Layout.text, concatenation, Piece.text, Reservation.text,
    Reservation.handle, helperHandle]

end Builds

namespace JsonFragment

theorem number_builds : ∃ body, number = memoized "__bjnu" body ∧
    Builds "__bjnu" 0 (body ⟨"__bjnu"⟩) numberLayout.text numberHelpers := by
  refine ⟨_, rfl, ?_⟩
  refine .define_then ?_ ?exponentMark (by decide)
  refine .define_then ?_ ?nonzero (by decide)
  refine .define_then ?_ ?sign (by decide)
  refine .define_then ?_ ?digit (by decide)
  refine .oneOrMore_then ?_ ?digits
  refine .define_then ?_ ?integer (by decide)
  refine .define_then ?_ ?signed (by decide)
  refine .define_then ?_ ?exponent (by decide)
  refine .define_then ?_ ?fraction (by decide)
  refine .pure_of_eq ?production
  all_goals simp [numberLayout, Layout.text, Layout.ofTerminals, Piece.text, Function.comp_def]

theorem string_builds : ∃ body, string = memoized "__bjs" body ∧
    Builds "__bjs" 0 (body ⟨"__bjs"⟩) stringLayout.text stringHelpers := by
  refine ⟨_, rfl, ?_⟩
  refine .define_then ?_ ?hexDigit (Layout.ofTerminals_proper (by decide))
  refine .define_then ?_ ?codeUnit (.cons (by simp))
  refine .define_then ?_ ?escapes (Layout.ofTerminals_proper (by decide)).append
  refine .define_then ?_ ?escaped (.cons (by simp))
  refine .define_then ?_ ?forbidden (Layout.ofTerminals_proper (by decide))
  refine .define_then ?_ ?unescaped (.cons (by simp))
  refine .define_then ?_ ?character (.cons (by simp))
  refine .oneOrMore_then ?_ ?characters
  refine .pure_of_eq ?production
  all_goals simp [stringLayout, Layout.text, Layout.ofTerminals, Piece.text, Function.comp_def]

theorem array_builds (inner : RuleHandle) : ∃ body,
    array inner = (keyedStem "__bja_" inner.text >>= fun stem => memoized stem body) ∧
    ∀ stem, Builds stem 0 (body ⟨stem⟩) (arrayLayout stem inner).text (arrayHelpers stem inner) := by
  refine ⟨_, rfl, fun stem => ?_⟩
  refine .oneOrMore_then ?_ ?trail
  refine .pure_of_eq ?production
  all_goals simp [arrayLayout, Layout.text, Piece.text]

end JsonFragment

namespace FormatFragment

theorem mailAddress_builds : ∃ body, mailAddress = memoized "__bse" body ∧
    Builds "__bse" 0 (body ⟨"__bse"⟩) mailLayout.text mailHelpers := by
  refine ⟨_, rfl, ?_⟩
  refine .define_then ?_ ?letter (Layout.ofTerminals_proper (by decide))
  refine .define_then ?_ ?digit (Layout.ofTerminals_proper (by decide))
  refine .define_then ?_ ?alphanumeric (.cons (by simp))
  refine .reserve_commit_then ?_ ?labelRest (.cons (by simp))
  refine .define_then ?_ ?label (.cons (by simp))
  refine .oneOrMore_then ?_ ?moreLabels
  refine .define_then ?_ ?domain (.cons (by simp))
  refine .define_then ?_ ?special (Layout.ofTerminals_proper (by decide))
  refine .define_then ?_ ?allowed (.cons (by simp))
  refine .reserve_commit_then ?_ ?localRest (.cons (by simp))
  refine .define_then ?_ ?mailbox (.cons (by simp))
  refine .pure_of_eq ?production
  all_goals simp [mailLayout, Layout.text, Layout.ofTerminals, Piece.text, Function.comp_def,
    optionalTail, concatenation, Reservation.text, Reservation.handle, helperHandle,
    String.append_assoc]

end FormatFragment

section Texts

theorem map_intersperse {α β : Type} (f : α → β) (a : α) (l : List α) :
    (l.intersperse a).map f = (l.map f).intersperse (f a) := by
  match l with
  | [] => rfl
  | [_] => rfl
  | _ :: b :: l => simp [map_intersperse f a (b :: l)]

theorem intercalate_eq_concatenation (separator : String) (texts : List String) :
    separator.intercalate texts = concatenation (texts.intersperse separator) := by
  rw [← String.toList_inj, String.toList_intercalate, List.intercalate, ← map_intersperse,
    concatenation, String.toList_join, List.flatMap_def]

theorem JsonFragment.text_tupleLayout (members : List RuleHandle) :
    (tupleLayout members).text = concatenation [RecordGrammar.terminal "[",
      (RecordGrammar.terminal ", ").intercalate (members.map RuleHandle.text),
      RecordGrammar.terminal "]"] := by
  rw [intercalate_eq_concatenation]
  simp [tupleLayout, Layout.text, concatenation, Piece.text, map_intersperse, Function.comp_def]

theorem JsonFragment.text_objectRow (first : Bool) (fields : List (String × RuleHandle)) :
    (objectRow first fields).map Piece.text = objectMembers first fields := by
  induction fields generalizing first with
  | nil => rfl
  | cons field fields ih => simp [objectRow, objectMembers, Piece.text, ih]

theorem JsonFragment.text_objectLayout (fields : List (String × RuleHandle)) :
    (objectLayout fields).text = concatenation ([RecordGrammar.terminal "\x7b"] ++
      objectMembers true fields ++ [RecordGrammar.terminal "\x7d"]) := by
  simp [objectLayout, Layout.text, Piece.text, text_objectRow]

theorem FormatFragment.maskSegments_ne_nil (chars : List Char) : maskSegments chars ≠ [] := by
  cases chars with
  | nil => simp [maskSegments]
  | cons c rest =>
    rw [maskSegments]
    split
    · simp
    · cases maskSegments rest <;> simp

/-- The text of a stretch of a mask. -/
def FormatFragment.stretchText (segment : List Char) : String :=
  concatenation ((segmentRow segment).map Piece.text)

theorem FormatFragment.text_maskRow (segments : List (List Char)) :
    concatenation ((maskRow segments).map Piece.text) =
      digitHandle.text.intercalate (segments.map stretchText) := by
  match segments with
  | [] => rfl
  | [segment] => simp [maskRow, stretchText]
  | segment :: second :: rest =>
    have ih := text_maskRow (second :: rest)
    rw [maskRow, List.map_append, List.map_cons, concatenation, String.join_append,
      String.join_cons]
    · rw [concatenation] at ih
      simp [ih, stretchText, concatenation, Piece.text, String.append_assoc]
    · simp

end Texts

section Logging

/-- What is noted of a text that becomes a terminal. -/
def terminalNotes (raw : String) : List Event :=
  if holdsBothQuotes raw then [.warned (.ambiguousTerminal raw)] else []

/-- The session with more events in its log. -/
def Session.noting (s : Session) (events : List Event) : Session :=
  { s with log := s.log ++ events }

@[simp] theorem Session.table_noting (s : Session) (events : List Event) :
    (s.noting events).table = s.table := rfl

@[simp] theorem Session.noting_nil (s : Session) : s.noting [] = s := by simp [Session.noting]

@[simp] theorem Session.noting_noting (s : Session) (events events' : List Event) :
    (s.noting events).noting events' = s.noting (events ++ events') := by
  simp [Session.noting]

theorem emitTerminal_eq (raw : String) (s : Session) :
    emitTerminal raw s = .ok (terminal raw) (s.noting (terminalNotes raw)) := by
  unfold emitTerminal terminalNotes
  split
  · rfl
  · simp [pure, EStateM.pure]

theorem keyedStem_eq (stem canonical : String) (s : Session) :
    keyedStem stem canonical s = .ok (stem ++ memoKey canonical) (s.noting [.keyed canonical]) :=
  rfl

/-- Steps that do nothing but log can be run one after the other. -/
theorem mapM_logging {α β : Type} {step : α → Build β} {value : α → β} {events : α → List Event}
    (h : ∀ a s, step a s = .ok (value a) (s.noting (events a))) (as : List α) (s : Session) :
    as.mapM step s = .ok (as.map value) (s.noting (as.flatMap events)) := by
  induction as generalizing s with
  | nil => simp [pure, EStateM.pure]
  | cons a as ih =>
    rw [List.mapM_cons, bind_of_ok (h a s), bind_of_ok (ih _)]
    simp [pure, EStateM.pure]

def FormatFragment.stretchNotes (segment : List Char) : List Event :=
  if segment.isEmpty then [] else terminalNotes (String.ofList segment)

theorem FormatFragment.segmentText_eq (segment : List Char) (s : Session) :
    segmentText segment s = .ok (stretchText segment) (s.noting (stretchNotes segment)) := by
  unfold segmentText stretchText segmentRow stretchNotes
  split
  · simp [pure, EStateM.pure, concatenation]
  · rw [emitTerminal_eq]
    simp [Piece.text]

end Logging

end RecordGrammar
