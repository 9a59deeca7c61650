import RecordGrammar.Proofs.FragmentReading

/-! # How the rules of a compiled schema are read -/

namespace RecordGrammar

theorem Piece.mem_references_of_symbol {p : Piece} {next : String}
    (h : p.symbol.reference? = some next) : ∃ handle ∈ p.references, handle.id = next := by
  cases p with
  | terminal raw => cases h
  | key name first => cases h
  | rule handle => exact ⟨handle, List.mem_singleton.2 rfl, Option.some.inj h⟩
  | except handle => exact ⟨handle, List.mem_singleton.2 rfl, Option.some.inj h⟩

theorem Piece.mem_excepted_of_symbol {p : Piece} {next : String} (h : p.symbol = .exceptRule next) :
    ∃ handle ∈ p.excepted, handle.id = next := by
  cases p with
  | except handle => exact ⟨handle, List.mem_singleton.2 rfl, GrammarSymbol.exceptRule.inj h⟩
  | _ => cases h

theorem Layout.mem_symbols {layout : Layout} {alternative : List GrammarSymbol}
    {symbol : GrammarSymbol} (ha : alternative ∈ layout.symbols) (hs : symbol ∈ alternative) :
    ∃ row ∈ layout, ∃ p ∈ row, p.symbol = symbol := by
  obtain ⟨row, hrow, rfl⟩ := List.mem_map.1 ha
  obtain ⟨p, hp, rfl⟩ := List.mem_map.1 hs
  exact ⟨row, hrow, p, hp, rfl⟩

theorem readProduction_handle {rule : RuleHandle} (h : Referable rule.id) :
    readProduction rule.text = some [[.rule rule.id]] := by
  have hlegible : Layout.Legible [[.rule rule]] := fun row hrow p hp => by
    obtain rfl := List.mem_singleton.1 hrow
    obtain rfl := List.mem_singleton.1 hp
    exact h
  have hread := Layout.readProduction_text hlegible (by simp)
  simpa [Layout.text, alternation, concatenation, Piece.text, Layout.symbols, Piece.symbol]
    using hread

section

variable {registry : Registry} {root : String} {options : SchemaOptions} {start : RuleHandle}
  {t : RuleTable}

/-- What a record is closed with is a rule that has been built. -/
theorem known_of_close (hok : (schemaPlan registry root options).outcome = .ok start)
    {name : String} {rule : RuleHandle}
    (h : .close name rule ∈ (schemaPlan registry root options).acts) :
    KnownIn (schemaPlan registry root options).acts rule := by
  let all := (schemaPlan registry root options).acts
  have hinvariant : ActInvariant registry root options all fun _ as =>
      ∀ name rule, .close name rule ∈ as → KnownIn all rule := by
    refine ⟨by simp, fun has hbs name rule h => ?_, by simp, by simp, ?_⟩
    · exact (List.mem_append.1 h).elim (has name rule) (hbs name rule)
    · intro stack name definition left rule _ _ hrule hall hbody n r hr
      rcases List.mem_append.1 hr with hr | hr
      · exact hbody n r hr
      · cases List.mem_singleton.1 hr
        exact (Plan.known_of_fragment hrule).mono hall
  exact hinvariant.schemaPlan hok name rule h

theorem RuleTable.HoldsActs.rule?_of_known {acts : List Act} (h : t.HoldsActs acts)
    {handle : RuleHandle} (hknown : KnownIn acts handle) : ∃ r, t.rule? handle.id = some r := by
  rcases hknown with ⟨f, hf, rfl⟩ | ⟨name, hname, rfl⟩
  · exact ⟨_, h.fragment hf _ (List.mem_append_right _ f.handle_mem_rules)⟩
  · obtain ⟨rule, -, hr⟩ := h.forward hname
    exact ⟨_, hr⟩

variable (hok : (schemaPlan registry root options).outcome = .ok start)
  (h : t.HoldsActs (schemaPlan registry root options).acts) (htexts : registry.TextsClear root)

include hok h htexts

/-- Every rule that is referred to in the table is there, and only helpers are excepted. -/
theorem RuleTable.HoldsActs.closed {id next : String} {alternatives : Alternatives}
    {alternative : List GrammarSymbol} {symbol : GrammarSymbol}
    (hread : t.reading id = some alternatives) (ha : alternative ∈ alternatives)
    (hs : symbol ∈ alternative) (hnext : symbol.reference? = some next) :
    (∃ r, t.rule? next = some r) ∧ (symbol = .exceptRule next → ∀ name, next ≠ forwardId name) := by
  obtain ⟨r, hr, hproduction⟩ := Option.bind_eq_some_iff.1 hread
  obtain ⟨-, ⟨f, hf, hmem⟩ | ⟨name, rule, -, hclose, rfl⟩⟩ := h.source hr
  · have hfrom := fragment_from hok hf
    have hlegible := hfrom.legible htexts
    have hknown := hfrom.inputs_known
    have hinputs : ∀ handle ∈ f.inputs, Referable handle.id :=
      fun m hm => (hknown m hm).plain.referable
    rcases List.mem_append.1 hmem with hshared | hrules
    · rw [Fragment.id_of_mem_shared hshared] at hproduction
      have hdigit : readProduction FormatFragment.digitRule.production =
          some (Layout.ofTerminals decimalDigits).symbols :=
        Layout.readProduction_text (by decide +kernel) (by decide)
      rw [hdigit] at hproduction
      cases hproduction
      obtain ⟨row, hrow, p, hp, rfl⟩ := Layout.mem_symbols ha hs
      obtain ⟨raw, -, rfl⟩ := List.mem_map.1 hrow
      obtain rfl := List.mem_singleton.1 hp
      cases hnext
    · obtain ⟨layout, hlayout, htext⟩ := Fragment.rule_of_mem_rules hrules
      rw [htext, Fragment.reading_layout hlegible hinputs hlayout] at hproduction
      cases hproduction
      obtain ⟨row, hrow, p, hp, rfl⟩ := Layout.mem_symbols ha hs
      obtain ⟨-, hreferences, hexcepted⟩ := (f.fits_layouts hlegible hinputs layout hlayout).2 row hrow p hp
      constructor
      · obtain ⟨handle, hhandle, rfl⟩ := Piece.mem_references_of_symbol hnext
        rcases hreferences handle hhandle with ⟨k, hk, rfl⟩ | hinput | hshared
        · have hhelper := f.helper_mem_rules (List.getElem?_eq_getElem hk)
          exact ⟨_, h.fragment hf _ (List.mem_append_right _ hhelper)⟩
        · exact h.rule?_of_known (hknown handle hinput)
        · obtain ⟨r, hr, rfl⟩ := List.mem_map.1 hshared
          exact ⟨r, h.fragment hf r (List.mem_append_left _ hr)⟩
      · intro hexcept name
        obtain ⟨handle, hhandle, rfl⟩ := Piece.mem_excepted_of_symbol hexcept
        obtain ⟨k, -, rfl⟩ := hexcepted handle hhandle
        exact RuleTable.forwardId_ne_idOf f name (underscore_not_mem_toString k)
  · rw [readProduction_handle (known_of_close hok hclose).plain.referable] at hproduction
    cases hproduction
    obtain rfl := List.mem_singleton.1 ha
    obtain rfl := List.mem_singleton.1 hs
    cases hnext
    exact ⟨h.rule?_of_known (known_of_close hok hclose), by simp⟩

end

end RecordGrammar
