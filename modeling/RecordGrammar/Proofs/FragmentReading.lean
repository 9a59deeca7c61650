import RecordGrammar.Proofs.CompiledTable
import RecordGrammar.Proofs.DerivedTexts
import RecordGrammar.Proofs.ProductionReading

/-! # How the rules of fragments are read -/

namespace RecordGrammar

instance (layout : Layout) : Decidable layout.Legible :=
  inferInstanceAs (Decidable (∀ _ ∈ _, ∀ _ ∈ _, _))

/-- A literal whose JSON text holds no apostrophe. -/
def Literal.Clear : Literal → Prop
  | .string s => '\'' ∉ s.toList
  | _ => True

/-- A mask none of whose stretches of text holds both quotes. -/
def MaskClear (mask : String) : Prop :=
  ∀ segment ∈ FormatFragment.maskSegments mask.toList, holdsBothQuotes (String.ofList segment) = false

theorem apostrophe_not_mem_jsonString {s : String} (h : '\'' ∉ s.toList) :
    '\'' ∉ (jsonString s).toList := by
  have hchar {c : Char} (hc : c ≠ '\'') : '\'' ∉ jsonEscapeChar c := by
    have hdigit (n : Nat) (hn : n < 16) : hexDigit n ≠ '\'' := by
      have hall : ∀ k < 16, hexDigit k ≠ '\'' := by decide
      exact hall n hn
    unfold jsonEscapeChar
    split_ifs with _ _ _ _ _ _ _ hsmall <;> try decide
    · have h1 := hdigit (c.toNat / 16) (by omega)
      have h2 := hdigit (c.toNat % 16) (by omega)
      simp [Ne.symm h1, Ne.symm h2]
    · simpa using Ne.symm hc
  simp only [jsonString, String.toList_ofList, List.mem_append, List.mem_cons, List.mem_flatMap]
  rintro ((hc | ⟨c, hc, hmem⟩) | hc)
  · cases hc
  · exact hchar (fun he => h (he ▸ hc)) hmem
  · simp at hc

theorem toList_toString_int (n : Int) : (toString n).toList =
    (if n < 0 then ['-'] else []) ++ Nat.toDigits 10 n.natAbs := by
  cases n with
  | ofNat m =>
    have hm : ¬Int.ofNat m < 0 := Int.not_lt.2 (Int.natCast_nonneg m)
    rw [if_neg hm]
    exact Nat.toList_repr
  | negSucc m =>
    rw [if_pos (Int.negSucc_lt_zero m)]
    change ("-" ++ Nat.repr (m + 1)).toList = _
    rw [String.toList_append, Nat.toList_repr]
    rfl

theorem Literal.terminal_legible {l : Literal} (h : l.Clear) :
    holdsBothQuotes l.text = false := by
  suffices hmem : '\'' ∉ l.text.toList by simp [holdsBothQuotes, hmem]
  cases l with
  | bool b => cases b <;> decide
  | int n =>
    change '\'' ∉ (toString n.toInt).toList
    rw [toList_toString_int]
    intro hmem
    rcases List.mem_append.1 hmem with hmem | hmem
    · split at hmem <;> simp at hmem
    · exact absurd (Nat.isDigit_of_mem_toDigits (by decide) (by decide) hmem) (by decide)
  | string s => exact apostrophe_not_mem_jsonString h

/-- The rule that a piece excepts. -/
def Piece.excepted : Piece → List RuleHandle
  | .except handle => [handle]
  | _ => []

namespace Fragment

/-- The handles that a fragment is built from. -/
def inputs : Fragment → List RuleHandle
  | .array inner => [inner]
  | .tuple members => members
  | .object rows => rows.map Prod.snd
  | .inQuotes inner => [inner]
  | _ => []

/-- Every terminal of a fragment can be read back. -/
def Legible : Fragment → Prop
  | .enumeration literals => literals ≠ [] ∧ ∀ l ∈ literals, l.Clear
  | .maskedTime mask => MaskClear mask
  | _ => True

theorem helperHandle_plain (f : Fragment) (k : Nat) : PlainId (helperHandle f.stem k).id :=
  f.stem_plain.idOf (.toString_nat k)

theorem maskRow_pieces {segments : List (List Char)} {p : Piece}
    (h : p ∈ FormatFragment.maskRow segments) : p = .rule FormatFragment.digitHandle ∨
      ∃ segment ∈ segments, segment ≠ [] ∧ p = .terminal (String.ofList segment) := by
  have hsegment {segment : List Char} {p : Piece} (h : p ∈ FormatFragment.segmentRow segment) :
      segment ≠ [] ∧ p = .terminal (String.ofList segment) := by
    unfold FormatFragment.segmentRow at h
    split at h
    · cases h
    · rename_i hne
      exact ⟨by simpa using hne, List.mem_singleton.1 h⟩
  match segments with
  | [] => cases h
  | [segment] => exact .inr ⟨segment, by simp, hsegment h⟩
  | segment :: second :: rest =>
    rw [FormatFragment.maskRow, List.mem_append, List.mem_cons] at h
    · rcases h with h | h | h
      · exact .inr ⟨segment, by simp, hsegment h⟩
      · exact .inl h
      · refine (maskRow_pieces h).imp_right ?_
        rintro ⟨s, hs, he⟩
        exact ⟨s, List.mem_cons_of_mem _ hs, he⟩
    · simp

theorem objectRow_pieces {first : Bool} {rows : List (String × RuleHandle)} {p : Piece}
    (h : p ∈ JsonFragment.objectRow first rows) : (∃ name first, p = .key name first) ∨
      ∃ row ∈ rows, p = .rule row.2 := by
  induction rows generalizing first with
  | nil => cases h
  | cons row rows ih =>
    rw [JsonFragment.objectRow, List.mem_cons, List.mem_cons] at h
    rcases h with h | h | h
    · exact .inl ⟨_, _, h⟩
    · exact .inr ⟨row, List.mem_cons_self, h⟩
    · refine (ih h).imp_right ?_
      rintro ⟨r, hr, he⟩
      exact ⟨r, List.mem_cons_of_mem _ hr, he⟩

theorem tupleRow_pieces {members : List RuleHandle} {p : Piece}
    (h : p ∈ (members.map Piece.rule).intersperse (.terminal ", ")) :
    p = .terminal ", " ∨ ∃ m ∈ members, p = .rule m := by
  match members with
  | [] => cases h
  | [m] => exact .inr ⟨m, by simp, by simpa using h⟩
  | m :: m' :: rest =>
    rw [List.map_cons, List.map_cons, List.intersperse_cons_cons, List.mem_cons, List.mem_cons] at h
    rcases h with h | h | h
    · exact .inr ⟨m, by simp, h⟩
    · exact .inl h
    · have hrest : p ∈ ((m' :: rest).map Piece.rule).intersperse (.terminal ", ") := h
      refine (tupleRow_pieces hrest).imp_right ?_
      rintro ⟨r, hr, he⟩
      exact ⟨r, List.mem_cons_of_mem _ hr, he⟩

/-- The layouts of the rules that belong to a fragment alone. -/
def layouts (f : Fragment) : List Layout := f.helpers ++ [f.layout]

/-- A piece that is fit for the rules of a fragment. -/
def Fits (f : Fragment) (p : Piece) : Prop :=
  p.Legible ∧ (∀ h ∈ p.references, (∃ k < f.helpers.length, h = helperHandle f.stem k) ∨
    h ∈ f.inputs ∨ h ∈ f.shared.map Rule.handle) ∧
  ∀ h ∈ p.excepted, ∃ k < f.helpers.length, h = helperHandle f.stem k

private theorem fits_terminal {f : Fragment} {raw : String} (h : holdsBothQuotes raw = false) :
    f.Fits (.terminal raw) :=
  ⟨h, by simp [Piece.references], by simp [Piece.excepted]⟩

private theorem fits_input {f : Fragment} {handle : RuleHandle} (h : handle ∈ f.inputs)
    (hid : Referable handle.id) : f.Fits (.rule handle) :=
  ⟨hid, fun _ hh => .inr (.inl (by rwa [List.mem_singleton.1 hh])), by simp [Piece.excepted]⟩

private theorem fits_helper {f : Fragment} {k : Nat} (h : k < f.helpers.length) :
    f.Fits (.rule (helperHandle f.stem k)) :=
  ⟨(f.helperHandle_plain k).referable, fun _ hh => .inl ⟨k, h, List.mem_singleton.1 hh⟩,
    by simp [Piece.excepted]⟩

instance (f : Fragment) (p : Piece) : Decidable (f.Fits p) :=
  inferInstanceAs (Decidable (_ ∧ (∀ _ ∈ _, (∃ _, _ ∧ _) ∨ _ ∨ _) ∧ ∀ _ ∈ _, ∃ _, _ ∧ _))

/-- All pieces of a fragment fit it. -/
theorem fits_layouts {f : Fragment} (hf : f.Legible) (hinputs : ∀ h ∈ f.inputs, Referable h.id) :
    ∀ layout ∈ f.layouts, layout ≠ [] ∧ ∀ row ∈ layout, ∀ p ∈ row, f.Fits p := by
  cases f with
  | number => decide +kernel
  | string => decide +kernel
  | boolean => decide +kernel
  | mailAddress => decide +kernel
  | array inner =>
    have hinner : (array inner).Fits (.rule inner) :=
      fits_input (by simp [inputs]) (hinputs _ (by simp [inputs]))
    have htrail : (array inner).Fits (.rule (helperHandle (array inner).stem 0)) :=
      fits_helper (by simp [helpers, JsonFragment.arrayHelpers])
    have hterminal (raw : String) (h : holdsBothQuotes raw = false) :
        (array inner).Fits (.terminal raw) := fits_terminal h
    simp [layouts, helpers, layout, JsonFragment.arrayHelpers, JsonFragment.arrayLayout,
      Layout.repeated, hinner, htrail, hterminal ", " (by decide), hterminal "[]" (by decide),
      hterminal "[" (by decide), hterminal "]" (by decide)]
  | inQuotes inner =>
    have hinner : (inQuotes inner).Fits (.rule inner) :=
      fits_input (by simp [inputs]) (hinputs _ (by simp [inputs]))
    have hquote : (inQuotes inner).Fits (.terminal "\"") := fits_terminal (by decide)
    simp [layouts, helpers, layout, JsonFragment.inQuotesLayout, hinner, hquote]
  | tuple members =>
    intro layout hlayout
    obtain rfl : layout = JsonFragment.tupleLayout members := List.mem_singleton.1 hlayout
    refine ⟨by simp [JsonFragment.tupleLayout], fun row hrow p hp => ?_⟩
    obtain rfl := List.mem_singleton.1 hrow
    rcases List.mem_cons.1 hp with rfl | hp
    · exact fits_terminal (by decide)
    · rcases List.mem_append.1 hp with hp | hp
      · rcases tupleRow_pieces hp with rfl | ⟨m, hm, rfl⟩
        · exact fits_terminal (by decide)
        · exact fits_input hm (hinputs m hm)
      · obtain rfl := List.mem_singleton.1 hp
        exact fits_terminal (by decide)
  | enumeration literals =>
    intro layout hlayout
    obtain rfl : layout = Layout.ofTerminals (literals.map Literal.text) :=
      List.mem_singleton.1 hlayout
    refine ⟨by simp [Layout.ofTerminals, hf.1], fun row hrow p hp => ?_⟩
    obtain ⟨raw, hraw, rfl⟩ := List.mem_map.1 hrow
    obtain ⟨l, hl, rfl⟩ := List.mem_map.1 hraw
    obtain rfl := List.mem_singleton.1 hp
    exact fits_terminal (Literal.terminal_legible (hf.2 l hl))
  | object rows =>
    intro layout hlayout
    obtain rfl : layout = JsonFragment.objectLayout rows := List.mem_singleton.1 hlayout
    refine ⟨by simp [JsonFragment.objectLayout], fun row hrow p hp => ?_⟩
    obtain rfl := List.mem_singleton.1 hrow
    rcases List.mem_cons.1 hp with rfl | hp
    · exact fits_terminal (by decide)
    · rcases List.mem_append.1 hp with hp | hp
      · rcases objectRow_pieces hp with ⟨name, first, rfl⟩ | ⟨row, hrow, rfl⟩
        · exact ⟨trivial, by simp [Piece.references], by simp [Piece.excepted]⟩
        · have hmem : row.2 ∈ (object rows).inputs := List.mem_map_of_mem hrow
          exact fits_input hmem (hinputs _ hmem)
      · obtain rfl := List.mem_singleton.1 hp
        exact fits_terminal (by decide)
  | maskedTime mask =>
    intro layout hlayout
    obtain rfl : layout = FormatFragment.maskLayout mask := List.mem_singleton.1 hlayout
    refine ⟨by simp [FormatFragment.maskLayout], fun row hrow p hp => ?_⟩
    obtain rfl := List.mem_singleton.1 hrow
    rcases maskRow_pieces hp with rfl | ⟨segment, hsegment, -, rfl⟩
    · refine ⟨by decide +kernel, fun h hh => .inr (.inr ?_), by simp [Piece.excepted]⟩
      rw [List.mem_singleton.1 hh]
      simp [shared, FormatFragment.digitRule, Rule.handle]
    · exact fits_terminal (hf segment hsegment)

end Fragment

theorem mem_numberedRules_iff {stem : String} {n : Nat} {layouts : List Layout} {r : Rule} :
    r ∈ numberedRules stem n layouts ↔
      ∃ k layout, layouts[k]? = some layout ∧ r = ⟨RuleTable.autoId stem (n + k), layout.text⟩ := by
  induction layouts generalizing n with
  | nil => simp [numberedRules]
  | cons layout layouts ih =>
    rw [numberedRules, List.mem_cons, ih]
    constructor
    · rintro (rfl | ⟨k, l, hl, rfl⟩)
      · exact ⟨0, layout, rfl, rfl⟩
      · exact ⟨k + 1, l, hl, by rw [Nat.add_right_comm, Nat.add_assoc]⟩
    · rintro ⟨k, l, hl, rfl⟩
      cases k with
      | zero =>
        cases hl
        exact .inl rfl
      | succ k => exact .inr ⟨k, l, hl, by rw [Nat.add_right_comm, Nat.add_assoc]⟩

namespace Fragment

theorem rule_of_mem_rules {f : Fragment} {r : Rule} (h : r ∈ f.rules) :
    ∃ layout ∈ f.layouts, r.production = layout.text := by
  rcases List.mem_append.1 h with h | h
  · obtain ⟨k, layout, hl, rfl⟩ := mem_numberedRules_iff.1 h
    exact ⟨layout, List.mem_append_left _ (List.mem_of_getElem? hl), rfl⟩
  · rw [List.mem_singleton.1 h]
    exact ⟨f.layout, by simp [layouts], rfl⟩

theorem helper_mem_rules {f : Fragment} {k : Nat} {layout : Layout}
    (h : f.helpers[k]? = some layout) : ⟨(helperHandle f.stem k).id, layout.text⟩ ∈ f.rules :=
  List.mem_append_left _ (mem_numberedRules_iff.2 ⟨k, layout, h, by simp [helperHandle]⟩)

theorem handle_mem_rules (f : Fragment) : ⟨f.handle.id, f.layout.text⟩ ∈ f.rules := by
  simp [rules]

theorem From.inputs_known {registry : Registry} {root : String} {acts : List Act} {f : Fragment}
    (h : f.From registry root acts) : ∀ handle ∈ f.inputs, KnownIn acts handle := by
  intro handle hm
  cases f with
  | array inner => exact List.mem_singleton.1 hm ▸ h
  | tuple members => exact h handle hm
  | object rows =>
    obtain ⟨row, hrow, rfl⟩ := List.mem_map.1 hm
    exact (h row hrow).1
  | inQuotes inner => exact List.mem_singleton.1 hm ▸ h.1
  | _ => cases hm

end Fragment

/-- The texts of a schema that become terminals can be read back: no literal has an apostrophe, and
no stretch of a mask holds both quotes. -/
structure Registry.TextsClear (registry : Registry) (root : String) : Prop where
  literals (l : Literal) : registry.Reaches root (.literal l) → l.Clear
  masks (field : Field) (mask : String) : registry.ReachesField root field →
    field.format = some (.time mask) → MaskClear mask

theorem chain_textsClear (name : String) : (chain name).TextsClear "A" where
  literals l h := by simpa using reaches_chain h
  masks field mask h hformat := by simp [reachesField_chain h] at hformat

theorem Fragment.From.legible {registry : Registry} {root : String} {acts : List Act}
    {f : Fragment} (h : f.From registry root acts) (htexts : registry.TextsClear root) :
    f.Legible := by
  cases f with
  | enumeration literals => exact ⟨h.1, fun l hl => htexts.literals l (h.2 l hl)⟩
  | maskedTime mask =>
    obtain ⟨field, hfield, hformat⟩ := h
    exact htexts.masks field mask hfield hformat
  | _ => trivial

variable {t : RuleTable} {f : Fragment}

theorem RuleTable.reading_of_rule? {id : String} {r : Rule} (h : t.rule? id = some r) :
    t.reading id = readProduction r.production := by
  simp [RuleTable.reading, h]

theorem Fragment.reading_layout (hlegible : f.Legible) (hinputs : ∀ h ∈ f.inputs, Referable h.id)
    {layout : Layout} (hlayout : layout ∈ f.layouts) :
    readProduction layout.text = some layout.symbols := by
  obtain ⟨hne, hfits⟩ := f.fits_layouts hlegible hinputs layout hlayout
  exact Layout.readProduction_text (fun row hrow p hp => (hfits row hrow p hp).1) hne

/-- The rule of a fragment is read as its layout. -/
theorem RuleTable.HoldsRules.reading_handle (h : t.HoldsRules f) (hlegible : f.Legible)
    (hinputs : ∀ h ∈ f.inputs, Referable h.id) : t.reading f.handle.id = some f.layout.symbols := by
  rw [RuleTable.reading_of_rule? (h _ (List.mem_append_right _ f.handle_mem_rules))]
  exact Fragment.reading_layout hlegible hinputs (by simp [Fragment.layouts])

theorem RuleTable.HoldsRules.reading_helper (h : t.HoldsRules f) (hlegible : f.Legible)
    (hinputs : ∀ h ∈ f.inputs, Referable h.id) {k : Nat} {layout : Layout}
    (hk : f.helpers[k]? = some layout) :
    t.reading (helperHandle f.stem k).id = some layout.symbols := by
  rw [RuleTable.reading_of_rule? (h _ (List.mem_append_right _ (f.helper_mem_rules hk)))]
  exact Fragment.reading_layout hlegible hinputs (List.mem_append_left _ (List.mem_of_getElem? hk))

end RecordGrammar
