import RecordGrammar.Proofs.GrammarText
import Mathlib.Order.WellFounded

/-! # Progress in the grammar of a compiled schema

A reader that goes by references gets on as long as no rule derives the empty text and no rule is
met again before anything has been taken. That no rule is met again is seen on the ids: the first
reference of an alternative leads from a forward rule to an object, from the rule of a fragment to
its helpers, and from a helper to one that was made before it. -/

namespace RecordGrammar

namespace RuleReading

/-- An alternative of a rule starts with a reference. -/
def BeginsWith (rules : RuleReading) (id next : String) : Prop :=
  ∃ alternatives symbol rest, rules id = some alternatives ∧ symbol :: rest ∈ alternatives ∧
    symbol.reference? = some next

/-- An alternative of a rule refers to another rule behind symbols that derive a text. -/
def Meets (rules : RuleReading) (id : String) (text : List Char) (next : String) : Prop :=
  ∃ alternatives before symbol rest, rules id = some alternatives ∧
    before ++ symbol :: rest ∈ alternatives ∧ symbol.reference? = some next ∧
    Derives rules before text

/-- A way from rule to rule, with the text that is consumed on it. -/
inductive Descends (rules : RuleReading) (id : String) : List Char → String → Prop where
  | single {text next} : rules.Meets id text next → Descends rules id text next
  | tail {text text' next last} : Descends rules id text next → rules.Meets next text' last →
      Descends rules id (text ++ text') last

/-- Every alternative has something in it, and no terminal is without a text. -/
def Solid (rules : RuleReading) : Prop :=
  ∀ id alternatives, rules id = some alternatives → ∀ alternative ∈ alternatives,
    alternative ≠ [] ∧ .terminal [] ∉ alternative

variable {rules : RuleReading} {id next : String} {text : List Char}

theorem Solid.ne_nil (h : rules.Solid) {xs : List GrammarSymbol} (hxs : xs ≠ [])
    (hterminal : .terminal [] ∉ xs) (hd : Derives rules xs text) : text ≠ [] := by
  induction hd with
  | nil => exact absurd rfl hxs
  | @terminal raw after rest _ _ =>
    intro he
    rw [(List.append_eq_nil_iff.1 he).1] at hterminal
    exact hterminal List.mem_cons_self
  | rule found chosen _ _ ihbody _ =>
    obtain ⟨hne, hfull⟩ := h _ _ found _ chosen
    exact List.append_ne_nil_of_left_ne_nil (ihbody hne hfull) _
  | exceptRule _ _ _ _ => exact List.cons_ne_nil _ _
  | exceptChars _ _ _ => exact List.cons_ne_nil _ _
  | any _ _ => exact List.cons_ne_nil _ _

/-- Where nothing has been consumed the reference is the first symbol of its alternative. -/
theorem Solid.beginsWith (h : rules.Solid) (hmeets : rules.Meets id [] next) :
    rules.BeginsWith id next := by
  obtain ⟨alternatives, before, symbol, rest, found, chosen, href, hd⟩ := hmeets
  have hbefore : before = [] := by
    refine Classical.byContradiction fun hne => h.ne_nil hne (fun hmem => ?_) hd rfl
    exact (h _ _ found _ chosen).2 (List.mem_append_left _ hmem)
  rw [hbefore] at chosen
  exact ⟨alternatives, symbol, rest, found, chosen, href⟩

theorem Solid.transGen (h : rules.Solid) (hd : rules.Descends id text next) (htext : text = []) :
    Relation.TransGen rules.BeginsWith id next := by
  induction hd with
  | single hmeets => exact .single (h.beginsWith (htext ▸ hmeets))
  | tail _ hmeets ih =>
    obtain ⟨hfirst, hlast⟩ := List.append_eq_nil_iff.1 htext
    exact .tail (ih hfirst) (h.beginsWith (hlast ▸ hmeets))

end RuleReading

namespace Grammar

def lines (g : Grammar) : List String := (g.text.toList.splitOn '\n').map String.ofList

/-- What a grammar text says of an id. -/
def reading (g : Grammar) : RuleReading := fun id =>
  ((g.lines.filterMap readRule).find? (·.1 = id)).map Prod.snd

/-- A grammar all of whose lines are rules, in which nothing can be gone round without consuming
something. -/
structure Progresses (g : Grammar) : Prop where
  read (line : String) : line ∈ g.lines →
    ∃ id alternatives, readRule line = some (id, alternatives) ∧ g.reading id = some alternatives
  nonempty (id : String) : ¬Derives g.reading [.rule id] []
  acyclic (id : String) : ¬Relation.TransGen g.reading.BeginsWith id id
  consumes (id : String) (text : List Char) : g.reading.Descends id text id → text ≠ []

variable {g : Grammar} {id : String} {alternatives : Alternatives}

theorem line_of_reading (h : g.reading id = some alternatives) :
    ∃ line ∈ g.lines, readRule line = some (id, alternatives) := by
  obtain ⟨entry, hfind, rfl⟩ := Option.map_eq_some_iff.1 h
  obtain ⟨line, hline, hread⟩ := List.mem_filterMap.1 (List.mem_of_find?_eq_some hfind)
  have hid : entry.1 = id := by simpa using List.find?_some hfind
  exact ⟨line, hline, by rw [hread, ← hid]⟩

theorem map_fst_readRule {rules : List Rule}
    (h : ∀ r ∈ rules, ∃ alternatives, readRule r.line = some (r.id, alternatives)) :
    ((rules.map Rule.line).filterMap readRule).map Prod.fst = rules.map Rule.id := by
  induction rules with
  | nil => rfl
  | cons r rules ih =>
    obtain ⟨alternatives, hr⟩ := h r List.mem_cons_self
    have hrest := ih fun r' hr' => h r' (List.mem_cons_of_mem _ hr')
    rw [List.map_cons, List.filterMap_cons_some hr, List.map_cons, hrest, List.map_cons]

/-- A line is what its id is read as if no id has got two lines. -/
theorem reading_of_line (hnodup : ((g.lines.filterMap readRule).map Prod.fst).Nodup) {line : String}
    (hline : line ∈ g.lines) (hread : readRule line = some (id, alternatives)) :
    g.reading id = some alternatives := by
  have hmem : (id, alternatives) ∈ g.lines.filterMap readRule :=
    List.mem_filterMap.2 ⟨line, hline, hread⟩
  have hfound : ((g.lines.filterMap readRule).find? (·.1 = id)).isSome :=
    List.find?_isSome.2 ⟨_, hmem, by simp⟩
  obtain ⟨entry, hfind⟩ := Option.isSome_iff_exists.1 hfound
  have hid : entry.1 = id := by simpa using List.find?_some hfind
  obtain rfl := List.inj_on_of_nodup_map hnodup (List.mem_of_find?_eq_some hfind) hmem hid
  rw [reading, hfind]
  rfl

/-- A grammar whose lines are rules progresses if its rules are solid and their leading references
follow a relation that goes down. -/
theorem Progresses.of_wellFounded {R : String → String → Prop} (hR : WellFounded R)
    (hread : ∀ line ∈ g.lines, ∃ id alternatives,
      readRule line = some (id, alternatives) ∧ g.reading id = some alternatives)
    (hsolid : g.reading.Solid) (hleads : ∀ id next, g.reading.BeginsWith id next → R next id) :
    g.Progresses := by
  have hacyclic (id : String) : ¬Relation.TransGen g.reading.BeginsWith id id := by
    intro h
    have hdown : Relation.TransGen R id id :=
      Relation.transGen_swap.1 (Relation.TransGen.mono hleads id id h)
    exact hR.transGen.irrefl.irrefl id hdown
  refine ⟨hread, fun id hd => ?_, hacyclic, fun id text hd htext => ?_⟩
  · exact hsolid.ne_nil (List.cons_ne_nil _ _) (by simp) hd rfl
  · exact hacyclic id (hsolid.transGen hd htext)

end Grammar

/-- Where the leading references of the rules of a compiled schema go. -/
inductive LeadsTo : String → String → Prop where
  | helper (f : Fragment) {j k : Nat} (h : j < k) :
      LeadsTo (helperHandle f.stem k).id (helperHandle f.stem j).id
  | body (f : Fragment) (j : Nat) : LeadsTo f.handle.id (helperHandle f.stem j).id
  | digit (f : Fragment) : LeadsTo f.handle.id FormatFragment.digitHandle.id
  | forward (name : String) (rows : List (String × RuleHandle)) :
      LeadsTo (forwardId name) (Fragment.object rows).handle.id

namespace LeadsTo

theorem helperHandle_ne_decl (stem : String) (k : Nat) (scope : Scope) :
    (helperHandle stem k).id ≠ scope.idOf "decl" := by
  intro h
  exact toString_nat_ne_decl k
    (Scope.idOf_inj (underscore_not_mem_toString k) underscore_not_mem_decl h).2

theorem helperHandle_inj {stem stem' : String} {k k' : Nat}
    (h : (helperHandle stem k).id = (helperHandle stem' k').id) : stem = stem' ∧ k = k' := by
  obtain ⟨hscope, hname⟩ :=
    Scope.idOf_inj (underscore_not_mem_toString k) (underscore_not_mem_toString k') h
  exact ⟨congrArg Scope.stem hscope, toString_nat_inj hname⟩

/-- One leading reference further, told by the id it starts from. -/
theorem target_cases {id next : String} (h : LeadsTo id next) :
    (∃ (f : Fragment) (j k : Nat), j < k ∧ id = (helperHandle f.stem k).id ∧
      next = (helperHandle f.stem j).id) ∨
    (∃ f : Fragment, id = f.handle.id ∧
      ((∃ j, next = (helperHandle f.stem j).id) ∨ next = FormatFragment.digitHandle.id)) ∨
    ∃ name rows, id = forwardId name ∧ next = (Fragment.object rows).handle.id := by
  cases h with
  | @helper f j k h => exact .inl ⟨f, j, k, h, rfl, rfl⟩
  | body f j => exact .inr (.inl ⟨f, rfl, .inl ⟨j, rfl⟩⟩)
  | digit f => exact .inr (.inl ⟨f, rfl, .inr rfl⟩)
  | forward name rows => exact .inr (.inr ⟨name, rows, rfl, rfl⟩)

abbrev Down (next id : String) : Prop := LeadsTo id next

theorem acc_digit : Acc Down FormatFragment.digitHandle.id := by
  refine .intro _ fun next h => ?_
  rcases target_cases h with ⟨f, j, k, -, hid, -⟩ | ⟨f, hid, -⟩ | ⟨name, rows, hid, -⟩
  · exact absurd hid
      (FormatFragment.digitHandle_ne_idOf (underscore_not_mem_toString k) f.stem_ne_bst)
  · exact absurd hid (FormatFragment.digitHandle_ne_idOf underscore_not_mem_decl f.stem_ne_bst)
  · exact absurd hid (digitHandle_ne_forwardId name)

theorem acc_helper (stem : String) (k : Nat) : Acc Down (helperHandle stem k).id := by
  induction k using Nat.strongRecOn with
  | ind k ih =>
    refine .intro _ fun next h => ?_
    rcases target_cases h with ⟨f, j, k', hlt, hid, rfl⟩ | ⟨f, hid, -⟩ | ⟨name, rows, hid, -⟩
    · obtain ⟨rfl, rfl⟩ := helperHandle_inj hid
      exact ih j hlt
    · exact absurd hid (helperHandle_ne_decl stem k _)
    · exact absurd hid (helperHandle_ne_decl stem k _)

theorem acc_handle (f : Fragment) : Acc Down f.handle.id := by
  refine .intro _ fun next h => ?_
  rcases target_cases h with ⟨g, j, k, -, hid, -⟩ | ⟨g, -, ⟨j, rfl⟩ | rfl⟩ | ⟨name, rows, hid, -⟩
  · exact absurd hid.symm (helperHandle_ne_decl g.stem k _)
  · exact acc_helper g.stem j
  · exact acc_digit
  · exact absurd hid (RuleTable.forwardId_ne_idOf f name underscore_not_mem_decl)

/-- Leading references go down, whatever rules they are followed through. -/
theorem wellFounded : WellFounded Down := by
  refine ⟨fun id => .intro _ fun next h => ?_⟩
  rcases target_cases h with ⟨f, j, k, -, -, rfl⟩ | ⟨f, -, ⟨j, rfl⟩ | rfl⟩ | ⟨name, rows, -, rfl⟩
  · exact acc_helper f.stem j
  · exact acc_helper f.stem j
  · exact acc_digit
  · exact acc_handle (.object rows)

end LeadsTo

/-- The rules that the alternatives of a layout start with. -/
def Layout.leading (layout : Layout) : List RuleHandle :=
  layout.flatMap fun row => row.head?.toList.flatMap Piece.references

theorem Layout.leading_of_symbols {layout : Layout} {symbol : GrammarSymbol}
    {rest : List GrammarSymbol} {next : String} (h : symbol :: rest ∈ layout.symbols)
    (hnext : symbol.reference? = some next) : ∃ handle ∈ layout.leading, handle.id = next := by
  obtain ⟨row, hrow, hsymbols⟩ := List.mem_map.1 h
  cases row with
  | nil => cases hsymbols
  | cons p row =>
    obtain ⟨rfl, -⟩ := List.cons.inj hsymbols
    obtain ⟨handle, hhandle, hid⟩ := Piece.mem_references_of_symbol hnext
    exact ⟨handle, List.mem_flatMap.2 ⟨_, hrow, by simpa using hhandle⟩, hid⟩

@[simp] theorem Layout.leading_ofTerminals (texts : List String) :
    Layout.leading (Layout.ofTerminals texts) = [] := by
  simp [leading, ofTerminals, Piece.references]

namespace Fragment

/-- The first reference of an alternative of a helper is to one that was made before it. -/
theorem leading_helpers (f : Fragment) : ∀ entry ∈ f.helpers.zipIdx, ∀ handle ∈ entry.1.leading,
    ∃ j < entry.2, handle = helperHandle f.stem j := by
  cases f with
  | number => decide +kernel
  | string => decide +kernel
  | mailAddress => decide +kernel
  | array inner =>
    simp [helpers, JsonFragment.arrayHelpers, Layout.leading, Layout.repeated, Piece.references]
  | _ => simp [helpers]

theorem leading_maskRow (segments : List (List Char)) :
    ∀ handle ∈ Layout.leading [FormatFragment.maskRow segments],
      handle = FormatFragment.digitHandle := by
  intro handle hhandle
  obtain ⟨p, hp, hreference⟩ : ∃ p ∈ FormatFragment.maskRow segments, handle ∈ p.references := by
    cases hrow : FormatFragment.maskRow segments with
    | nil => simp [Layout.leading, hrow] at hhandle
    | cons p row => exact ⟨p, List.mem_cons_self, by simpa [Layout.leading, hrow] using hhandle⟩
  rcases maskRow_pieces hp with rfl | ⟨segment, -, -, rfl⟩
  · exact List.mem_singleton.1 hreference
  · cases hreference

/-- The first reference of an alternative of a fragment is to a helper of its own, or to the digit
that masks share. -/
theorem leading_layout (f : Fragment) : ∀ handle ∈ f.layout.leading,
    (∃ j, handle = helperHandle f.stem j) ∨ handle = FormatFragment.digitHandle := by
  cases f with
  | maskedTime mask => exact fun handle h => .inr (leading_maskRow _ handle h)
  | enumeration literals => simp [layout]
  | boolean => simp [layout, JsonFragment.booleanLayout]
  | number =>
    have hbounded : ∀ handle ∈ JsonFragment.numberLayout.leading,
        ∃ j < 9, handle = helperHandle "__bjnu" j := by decide +kernel
    exact fun handle h => .inl ((hbounded handle h).imp fun _ => And.right)
  | string =>
    have hbounded : ∀ handle ∈ JsonFragment.stringLayout.leading,
        ∃ j < 8, handle = helperHandle "__bjs" j := by decide +kernel
    exact fun handle h => .inl ((hbounded handle h).imp fun _ => And.right)
  | mailAddress =>
    have hbounded : ∀ handle ∈ FormatFragment.mailLayout.leading,
        ∃ j < 11, handle = helperHandle "__bse" j := by decide +kernel
    exact fun handle h => .inl ((hbounded handle h).imp fun _ => And.right)
  | array inner => simp [layout, JsonFragment.arrayLayout, Layout.leading, Piece.references]
  | tuple members => simp [layout, JsonFragment.tupleLayout, Layout.leading, Piece.references]
  | object rows => simp [layout, JsonFragment.objectLayout, Layout.leading, Piece.references]
  | inQuotes inner => simp [layout, JsonFragment.inQuotesLayout, Layout.leading, Piece.references]

/-- A rule of a fragment is written from a layout whose leading references go down. -/
theorem leads_of_mem_rules {f : Fragment} {r : Rule} (h : r ∈ f.rules) : ∃ layout ∈ f.layouts,
    r.production = layout.text ∧ ∀ handle ∈ layout.leading, LeadsTo r.id handle.id := by
  rcases List.mem_append.1 h with h | h
  · obtain ⟨k, layout, hk, rfl⟩ := mem_numberedRules_iff.1 h
    refine ⟨layout, List.mem_append_left _ (List.mem_of_getElem? hk), rfl, fun handle hh => ?_⟩
    have hentry : (layout, k) ∈ f.helpers.zipIdx := by
      rw [List.mk_mem_zipIdx_iff_getElem?]
      exact hk
    obtain ⟨j, hj, rfl⟩ := f.leading_helpers _ hentry handle hh
    rw [Nat.zero_add]
    exact .helper f hj
  · rw [List.mem_singleton.1 h]
    refine ⟨f.layout, by simp [layouts], rfl, fun handle hh => ?_⟩
    rcases f.leading_layout handle hh with ⟨j, rfl⟩ | rfl
    · exact .body f j
    · exact .digit f

end Fragment

section Compiled

variable {registry : Registry} {root : String} {options : SchemaOptions} {start : RuleHandle}
  {s : Session}

/-- A record is closed with the rule of an object. -/
theorem object_of_close (hok : (schemaPlan registry root options).outcome = .ok start)
    {name : String} {rule : RuleHandle}
    (h : .close name rule ∈ (schemaPlan registry root options).acts) :
    ∃ rows, rule = (Fragment.object rows).handle := by
  have hinvariant : ActInvariant registry root options (schemaPlan registry root options).acts
      fun _ as => ∀ name rule, .close name rule ∈ as →
        ∃ rows, rule = (Fragment.object rows).handle := by
    refine ⟨by simp, fun has hbs name rule h => ?_, by simp, by simp, ?_⟩
    · exact (List.mem_append.1 h).elim (has name rule) (hbs name rule)
    · intro stack name definition left rule _ _ hrule _ hbody n r hr
      rcases List.mem_append.1 hr with hr | hr
      · exact hbody n r hr
      · cases List.mem_singleton.1 hr
        obtain ⟨rows, -, hr, -⟩ := Plan.outcome_of_fragment hrule
        exact ⟨rows, hr⟩
  exact hinvariant.schemaPlan hok name rule h

/-- Every rule of a compiled schema has come from an act of its plan. -/
theorem noted_of_compile (hf : registry.factories = ∅)
    (h : Session.compile {} registry root options = (.ok start, s)) {r : Rule}
    (hr : r ∈ s.table.rules.toList) :
    Noted (schemaPlan registry root options).acts s.log r := by
  obtain ⟨-, hbuilt⟩ := Session.built_of_compile hf h
  obtain ⟨-, σ, hrun, rfl⟩ := Session.compile_eq_ok hf RuleTable.wellFormed_empty h
  have hrecorded : σ.Recorded (schemaPlan registry root options).acts := by
    refine CompileState.Recorded.run (fun id r hr => ?_) (List.Subset.refl _)
      (CompileState.tidy_of_settled RuleTable.settled_empty) hrun
    simp [CompileState.table, RuleTable.rule?] at hr
  have hmem := Array.mem_toList_iff.1 hr
  exact (hrecorded r.id r (hbuilt.settled.wellFormed.rule?_eq_some_iff.2 ⟨hmem, rfl⟩)).2

/-- The alternatives of a rule of a compiled schema start with what lies below it. -/
theorem leads_of_compile (hf : registry.factories = ∅)
    (h : Session.compile {} registry root options = (.ok start, s)) (hquiet : Quiet s.log)
    {r : Rule} (hr : r ∈ s.table.rules.toList) : ∃ layout : Layout,
      readProduction r.production = some layout.symbols ∧
        ∀ handle ∈ layout.leading, LeadsTo r.id handle.id := by
  obtain ⟨houtcome, -⟩ := Session.built_of_compile hf h
  rcases noted_of_compile hf h hr with ⟨f, hfact, hrule, hnotes⟩ | ⟨name, rule, hclose, rfl⟩
  · rcases List.mem_append.1 hrule with hshared | hown
    · refine ⟨Layout.ofTerminals decimalDigits, ?_, by simp⟩
      rw [Fragment.id_of_mem_shared hshared]
      exact Layout.readProduction_text (by decide +kernel) (by decide)
    · have hfrom := fragment_from houtcome hfact
      obtain ⟨layout, hlayout, htext, hleads⟩ := Fragment.leads_of_mem_rules hown
      refine ⟨layout, ?_, hleads⟩
      rw [htext]
      exact Fragment.reading_layout (Fragment.legible_of_quiet hfrom hquiet hnotes)
        (fun handle hi => (hfrom.inputs_known handle hi).plain.referable) hlayout
  · refine ⟨[[.rule rule]], readProduction_handle (known_of_close houtcome hclose).plain.referable,
      fun handle hh => ?_⟩
    obtain ⟨rows, rfl⟩ := object_of_close houtcome hclose
    obtain rfl : handle = (Fragment.object rows).handle := by
      simpa [Layout.leading, Piece.references] using hh
    exact .forward name rows

/-- The lines of a compiled schema are those of its rules. -/
theorem lines_of_compile (hf : registry.factories = ∅)
    (h : Session.compile {} registry root options = (.ok start, s)) (hquiet : Quiet s.log) :
    Grammar.lines ⟨start.id, s.table.text⟩ = s.table.rules.toList.map Rule.line := by
  obtain ⟨houtcome, hbuilt⟩ := Session.built_of_compile hf h
  obtain ⟨r, hr, -⟩ : ∃ r ∈ s.table.rules.toList, r.id = start.id :=
    hbuilt.committed_of_known (Plan.known_bind houtcome fun _ _ => Plan.object_known)
  have hsound {r : Rule} (hr : r ∈ s.table.rules.toList) := sound_of_compile hf h hquiet hr
  have hsplit := RuleTable.splitOn_text (List.ne_nil_of_mem hr) fun r hr => by
    obtain ⟨hid, layout, htext, hlayout⟩ := hsound hr
    have hproduction := Layout.newline_not_mem fun row hrow p hp handle hhandle =>
      have ⟨_, hr', hid'⟩ := hlayout.references hrow hp hhandle
      hid' ▸ (hsound hr').1
    simp [Rule.line, Rule.handle, RuleHandle.text, htext, hid.newline_not_mem, hproduction]
  simp [Grammar.lines, hsplit, Function.comp_def]

theorem readRule_of_compile (hf : registry.factories = ∅)
    (h : Session.compile {} registry root options = (.ok start, s)) (hquiet : Quiet s.log)
    {r : Rule} (hr : r ∈ s.table.rules.toList) : ∃ alternatives,
      readProduction r.production = some alternatives ∧
        readRule r.line = some (r.id, alternatives) := by
  obtain ⟨hid, layout, htext, hlayout⟩ := sound_of_compile hf h hquiet hr
  have hproduction := Layout.readProduction_text hlayout.legible hlayout.ne_nil
  rw [← htext] at hproduction
  exact ⟨layout.symbols, hproduction, readRule_line hid hproduction⟩

/-- The text of a compiled schema is read as its table is. -/
theorem reading_of_compile (hf : registry.factories = ∅)
    (h : Session.compile {} registry root options = (.ok start, s)) (hquiet : Quiet s.log) :
    (∀ line ∈ Grammar.lines ⟨start.id, s.table.text⟩, ∃ id alternatives,
      readRule line = some (id, alternatives) ∧
        Grammar.reading ⟨start.id, s.table.text⟩ id = some alternatives) ∧
    Grammar.reading ⟨start.id, s.table.text⟩ = s.table.reading := by
  have hgrows := Session.compile_grows {} registry root options
  rw [h] at hgrows
  have hwf : s.table.WellFormed := hgrows.wellFormed RuleTable.wellFormed_empty
  have hlines := lines_of_compile hf h hquiet
  have hread {r : Rule} (hr : r ∈ s.table.rules.toList) := readRule_of_compile hf h hquiet hr
  have hnodup :
      (((Grammar.lines ⟨start.id, s.table.text⟩).filterMap readRule).map Prod.fst).Nodup := by
    rw [hlines, Grammar.map_fst_readRule fun r hr => (hread hr).imp fun _ => And.right]
    exact hwf.ids_nodup
  have hreading {r : Rule} (hr : r ∈ s.table.rules.toList) {alternatives : Alternatives}
      (hline : readRule r.line = some (r.id, alternatives)) :
      Grammar.reading ⟨start.id, s.table.text⟩ r.id = some alternatives :=
    Grammar.reading_of_line hnodup (hlines ▸ List.mem_map_of_mem hr) hline
  refine ⟨fun line hline => ?_, ?_⟩
  · obtain ⟨r, hr, rfl⟩ := List.mem_map.1 (hlines ▸ hline)
    obtain ⟨alternatives, -, hline⟩ := hread hr
    exact ⟨r.id, alternatives, hline, hreading hr hline⟩
  · funext id
    ext alternatives
    constructor
    · intro h
      obtain ⟨line, hmem, hline⟩ := Grammar.line_of_reading h
      obtain ⟨r, hr, rfl⟩ := List.mem_map.1 (hlines ▸ hmem)
      obtain ⟨alternatives', hproduction, hline'⟩ := hread hr
      obtain ⟨rfl, rfl⟩ := Prod.mk.inj (Option.some.inj (hline'.symm.trans hline))
      have hrule := hwf.rule?_eq_some_iff.2 ⟨Array.mem_toList_iff.1 hr, rfl⟩
      rw [RuleTable.reading_of_rule? hrule]
      exact hproduction
    · intro h
      obtain ⟨r, hrule, hproduction⟩ := Option.bind_eq_some_iff.1 h
      obtain ⟨hmem, rfl⟩ := hwf.rule?_eq_some_iff.1 hrule
      obtain ⟨alternatives', hproduction', hline⟩ := hread (Array.mem_toList_iff.2 hmem)
      rw [hproduction] at hproduction'
      cases hproduction'
      exact hreading (Array.mem_toList_iff.2 hmem) hline

/-- The rules of a compiled schema are solid, and their leading references go down. -/
theorem solid_of_compile (hf : registry.factories = ∅)
    (h : Session.compile {} registry root options = (.ok start, s)) (hquiet : Quiet s.log) :
    s.table.reading.Solid ∧ ∀ id next, s.table.reading.BeginsWith id next → LeadsTo id next := by
  obtain ⟨-, hbuilt⟩ := Session.built_of_compile hf h
  have hrule {id : String} {alternatives : Alternatives}
      (hread : s.table.reading id = some alternatives) : ∃ r ∈ s.table.rules.toList, r.id = id ∧
        readProduction r.production = some alternatives := by
    obtain ⟨r, hr, hproduction⟩ := Option.bind_eq_some_iff.1 hread
    obtain ⟨hmem, hid⟩ := hbuilt.settled.wellFormed.rule?_eq_some_iff.1 hr
    exact ⟨r, Array.mem_toList_iff.2 hmem, hid, hproduction⟩
  constructor
  · intro id alternatives hread alternative ha
    obtain ⟨r, hr, -, hproduction⟩ := hrule hread
    obtain ⟨-, layout, htext, hsound⟩ := sound_of_compile hf h hquiet hr
    rw [htext, Layout.readProduction_text hsound.legible hsound.ne_nil] at hproduction
    cases hproduction
    obtain ⟨hne, hresolves⟩ := hsound.resolves.2 alternative ha
    exact ⟨hne, fun hempty => hresolves _ hempty rfl⟩
  · rintro id next ⟨alternatives, symbol, rest, hread, ha, hnext⟩
    obtain ⟨r, hr, rfl, hproduction⟩ := hrule hread
    obtain ⟨layout, hlayout, hleads⟩ := leads_of_compile hf h hquiet hr
    rw [hlayout] at hproduction
    cases hproduction
    obtain ⟨handle, hhandle, rfl⟩ := Layout.leading_of_symbols ha hnext
    exact hleads handle hhandle

/-- Grammars of schemas always make progress, whatever records refer to each other. -/
theorem compileFresh_progresses (hf : registry.factories = ∅) {g : Grammar} {log : List Event}
    (h : compileFresh registry root options = (.ok g, log)) (hquiet : Quiet log) :
    g.Progresses := by
  obtain ⟨start, s, hc, rfl, rfl⟩ := compileFresh_eq_ok_iff.1 h
  obtain ⟨hread, hreading⟩ := reading_of_compile hf hc hquiet
  obtain ⟨hsolid, hleads⟩ := solid_of_compile hf hc hquiet
  refine .of_wellFounded LeadsTo.wellFounded hread ?_ ?_
  · rw [hreading]
    exact hsolid
  · rw [hreading]
    exact hleads

end Compiled

/-- The list in a record that lists others of its kind. -/
def chainList : Fragment := .array ⟨forwardId "A"⟩

/-- A record that lists others of its kind. -/
def chainRecord : Fragment := .object [("next", chainList.handle)]

set_option maxRecDepth 100000 in
theorem acts_chain : (schemaPlan (chain "next") "A" {}).acts =
    [.forward "A", .fragment chainList, .fragment chainRecord, .close "A" chainRecord.handle] := by
  decide +kernel

/-- From the forward rule of such a record one gets back to that rule, but only with the start of an
object and of a list behind one. -/
theorem chain_descends {t : RuleTable} (h : t.HoldsActs (schemaPlan (chain "next") "A" {}).acts) :
    t.reading.Descends (forwardId "A") "\x7b\"next\": [".toList (forwardId "A") := by
  rw [acts_chain] at h
  obtain ⟨rule, hclose, hrule⟩ := h.forward (show Act.forward "A" ∈ _ from List.mem_cons_self)
  obtain rfl : rule = chainRecord.handle := by simpa using hclose
  have hforward : t.reading (forwardId "A") = some [[.rule chainRecord.handle.id]] := by
    rw [RuleTable.reading_of_rule? hrule]
    exact readProduction_handle chainRecord.handle_plain.referable
  have hrecord := (h.fragment (f := chainRecord) (by simp)).reading_handle trivial
    (by simpa [chainRecord, Fragment.inputs] using chainList.handle_plain.referable)
  have hlist := (h.fragment (f := chainList) (by simp)).reading_handle trivial
    (by simpa [chainList, Fragment.inputs] using (forwardId_plain "A").referable)
  have htoRecord : t.reading.Meets (forwardId "A") [] chainRecord.handle.id :=
    ⟨_, [], _, [], hforward, List.mem_singleton.2 rfl, rfl, .nil⟩
  have htoList : t.reading.Meets chainRecord.handle.id "\x7b\"next\": ".toList
      chainList.handle.id :=
    ⟨_, [_, _], _, _, hrecord, List.mem_singleton.2 rfl, rfl,
      Derives.terminal_append ['\x7b'] (Derives.terminal_iff.2 rfl)⟩
  have hback : t.reading.Meets chainList.handle.id ['['] (forwardId "A") :=
    ⟨_, [_], _, [_], hlist, List.mem_cons_of_mem _ List.mem_cons_self, rfl,
      Derives.terminal_iff.2 rfl⟩
  exact ((RuleReading.Descends.single htoRecord).tail htoList).tail hback

set_option maxRecDepth 100000 in
theorem chain_progresses : ∃ g log, compileFresh (chain "next") "A" {} = (.ok g, log) ∧
    g.Progresses ∧
    g.reading.Descends (forwardId "A") "\x7b\"next\": [".toList (forwardId "A") := by
  have hwarnings : warningsOf (Session.compile {} (chain "next") "A" {}).2.log =
      [.forwardDeclared "A" ⟨forwardId "A"⟩] := by decide +kernel
  have hquiet : Quiet (Session.compile {} (chain "next") "A" {}).2.log := by
    simp [Quiet, hwarnings]
  have hrun := compileFresh_eq_ok_iff.2 ⟨_, _, compile_chain, rfl, rfl⟩
  refine ⟨_, _, hrun, compileFresh_progresses rfl hrun hquiet, ?_⟩
  rw [(reading_of_compile rfl compile_chain hquiet).2]
  obtain ⟨houtcome, hbuilt⟩ := Session.built_of_compile rfl compile_chain
  have hclear := chain_namesClear (show '<' ∉ "next".toList by decide)
  exact chain_descends (hbuilt.holdsActs hclear houtcome collisionless_chain)

end RecordGrammar
