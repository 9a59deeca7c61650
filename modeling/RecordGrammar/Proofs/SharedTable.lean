import RecordGrammar.Proofs.CompiledReading

/-! # Two schemas in one table

Fragments are found again by what they consist of, but the forward rule of a recursive record by the
name of the record alone. -/

namespace RecordGrammar

/-- An id as the forward rules have it. -/
def isForwardId (id : String) : Bool := "__bjr_".toList.isPrefixOf id.toList

theorem isForwardId_forwardId (name : String) : isForwardId (forwardId name) = true := by
  rw [isForwardId, List.isPrefixOf_iff_prefix]
  refine ⟨(memoKey name).toList ++ '_' :: "decl".toList, ?_⟩
  simp [forwardId, Scope.idOf]

/-- The rules of a table that is filled after another one. The forward rules that the other one has
are taken from there, and all further rules are its own, as far as it has them. -/
def RuleTable.readingAfter (base t : RuleTable) : RuleReading := fun id =>
  (if isForwardId id then (base.rule? id).or (t.rule? id)
    else (t.rule? id).or (base.rule? id)).bind fun rule => readProduction rule.production

/-- A rule derives the same texts in two tables. -/
def RuleTable.SameTexts (t t' : RuleTable) (id : String) : Prop :=
  ∀ text, t.Derives ⟨id⟩ text ↔ t'.Derives ⟨id⟩ text

theorem RuleTable.SameTexts.derives_iff {t t' : RuleTable} {id : String} (h : t.SameTexts t' id)
    (text : List Char) : RecordGrammar.Derives t.reading [.rule id] text ↔
      RecordGrammar.Derives t'.reading [.rule id] text := by
  simpa [RuleTable.Derives] using h (String.ofList text)

section

variable {first second : Registry} {root root' : String} {options options' : SchemaOptions}
  {start start' : RuleHandle} {s s' : Session}

/-- A rule that two schemas have in common is the same rule, unless it is a forward rule. -/
theorem rule_eq_of_shared (hok : (schemaPlan first root options).outcome = .ok start)
    (hok' : (schemaPlan second root' options').outcome = .ok start')
    (hnames : first.NamesClear root) (hnames' : second.NamesClear root')
    (hbuilt : s.Built (schemaPlan first root options).acts)
    (hbuilt' : s'.Built (schemaPlan second root' options').acts)
    (hlog : Collisionless (s.log ++ s'.log))
    (hholds : s.table.HoldsActs (schemaPlan first root options).acts)
    (hholds' : s'.table.HoldsActs (schemaPlan second root' options').acts) {id : String}
    {r r' : Rule} (hr : s.table.rule? id = some r) (hr' : s'.table.rule? id = some r')
    (hid : ∀ name, id ≠ forwardId name) : r = r' := by
  obtain ⟨he, ⟨f, hf, hmem⟩ | ⟨name, rule, -, -, rfl⟩⟩ := hholds.source hr
  · obtain ⟨he', ⟨g, hg, hmem'⟩ | ⟨name, rule, -, -, rfl⟩⟩ := hholds'.source hr'
    · refine Fragment.rule_eq_of_id_eq ((fragment_from hok hf).clear hnames)
        ((fragment_from hok' hg).clear hnames') (Fragment.canonical?_eq_of_stem_eq hlog ?_ ?_) hmem
        hmem' (he.trans he'.symm)
      · exact fun c hc => List.mem_append_left _ (hbuilt.keyed _ hf c hc)
      · exact fun c hc => List.mem_append_right _ (hbuilt'.keyed _ hg c hc)
    · exact absurd he'.symm (hid name)
  · exact absurd he.symm (hid name)

end

section Languages

variable {base t joint : RuleTable} (hjoint : ∀ id, joint.rule? id = (base.rule? id).or (t.rule? id))

include hjoint

theorem reading_of_base {id : String} (h : base.rule? id ≠ none) :
    joint.reading id = base.reading id := by
  obtain ⟨r, hr⟩ := Option.ne_none_iff_exists'.1 h
  simp [RuleTable.reading, hjoint, hr]

theorem reading_of_missing {id : String} (h : base.rule? id = none) :
    joint.reading id = t.reading id := by
  simp [RuleTable.reading, hjoint, h]

theorem reading_eq_readingAfter (hsame : ∀ id r r', base.rule? id = some r → t.rule? id = some r' →
      (∀ name, id ≠ forwardId name) → r = r') : joint.reading = base.readingAfter t := by
  funext id
  simp only [RuleTable.reading, RuleTable.readingAfter, hjoint]
  by_cases hid : isForwardId id = true
  · rw [if_pos hid]
  · rw [if_neg hid]
    cases hr : base.rule? id with
    | none => simp
    | some r =>
      cases hr' : t.rule? id with
      | none => rfl
      | some r' =>
        rw [hsame id r r' hr hr' fun name he => hid (he ▸ isForwardId_forwardId name)]

/-- In a table that refers to its own rules only nothing changes when others are put behind it. -/
theorem sameTexts_base (hclosed : ∀ id alternatives, base.reading id = some alternatives →
      ∀ alternative ∈ alternatives, ∀ symbol ∈ alternative, ∀ next,
        symbol.reference? = some next → base.rule? next ≠ none) {id : String}
    (h : base.rule? id ≠ none) : joint.SameTexts base id := by
  have hwithin : Derives.Within (fun id => base.rule? id ≠ none) (fun _ => True) [.rule id] := by
    intro symbol hs next hnext
    obtain rfl := List.mem_singleton.1 hs
    cases hnext
    exact ⟨h, fun _ => trivial⟩
  have hpart (id : String) (alternatives : Alternatives)
      (hread : base.reading id = some alternatives) (alternative : List GrammarSymbol)
      (ha : alternative ∈ alternatives) :
      Derives.Within (fun id => base.rule? id ≠ none) (fun _ => True) alternative :=
    fun symbol hs next hnext =>
      ⟨hclosed id alternatives hread alternative ha symbol hs next hnext, fun _ => trivial⟩
  intro text
  constructor
  · refine Derives.transfer (fun id hid _ => (reading_of_base hjoint hid).symm)
      (fun _ _ hk => absurd trivial hk) (fun id alternatives hid _ hread => ?_) hwithin
    exact hpart id alternatives ((reading_of_base hjoint hid).symm.trans hread)
  · exact Derives.transfer (fun id hid _ => reading_of_base hjoint hid)
      (fun _ _ hk => absurd trivial hk) (fun id alternatives _ _ hread =>
        hpart id alternatives hread) hwithin

end Languages

section

variable {first second : Registry} {root root' : String} {options options' : SchemaOptions}
  {start start' : RuleHandle} {s s' shared : Session}

/-- All rules of the second schema keep their texts exactly if its forward rules that the first one
has too derive the same there. -/
theorem sameTexts_iff_forward (hok : (schemaPlan first root options).outcome = .ok start)
    (hok' : (schemaPlan second root' options').outcome = .ok start')
    (htexts : first.TextsClear root) (htexts' : second.TextsClear root')
    (hholds : s.table.HoldsActs (schemaPlan first root options).acts)
    (hholds' : s'.table.HoldsActs (schemaPlan second root' options').acts)
    (hsame : ∀ id r r', s.table.rule? id = some r → s'.table.rule? id = some r' →
      (∀ name, id ≠ forwardId name) → r = r')
    (hjoint : ∀ id, shared.table.rule? id = (s.table.rule? id).or (s'.table.rule? id)) :
    (∀ id, s'.table.rule? id ≠ none → shared.table.SameTexts s'.table id) ↔
      ∀ name, s.table.rule? (forwardId name) ≠ none → s'.table.rule? (forwardId name) ≠ none →
        s.table.SameTexts s'.table (forwardId name) := by
  have hbase (id : String) (h : s.table.rule? id ≠ none) :
      shared.table.SameTexts s.table id := by
    refine sameTexts_base hjoint (fun id alternatives hread alternative ha symbol hs next hnext => ?_) h
    obtain ⟨r, hr⟩ := (hholds.closed hok htexts hread ha hs hnext).1
    simp [hr]
  constructor
  · intro h name hname hname' text
    exact (hbase _ hname text).symm.trans (h _ hname' text)
  · intro hforward id hid
    let part (id : String) : Prop := s'.table.rule? id ≠ none
    let kept (id : String) : Prop := s.table.rule? id = none ∨ ∀ name, id ≠ forwardId name
    have hreading (id : String) (hpart : part id) (hkept : kept id) :
        shared.table.reading id = s'.table.reading id := by
      rcases hkept with hnone | hplain
      · exact reading_of_missing hjoint hnone
      · obtain ⟨r', hr'⟩ := Option.ne_none_iff_exists'.1 hpart
        cases hr : s.table.rule? id with
        | none => exact reading_of_missing hjoint hr
        | some r => simp [RuleTable.reading, hjoint, hr, hr', hsame id r r' hr hr' hplain]
    have hother (id : String) (hpart : part id) (hkept : ¬kept id) :
        shared.table.SameTexts s'.table id := by
      obtain ⟨hin, name, rfl⟩ : s.table.rule? id ≠ none ∧ ∃ name, id = forwardId name := by
        simpa [kept] using hkept
      exact fun text => (hbase _ hin text).trans (hforward name hin hpart text)
    have hclosed (id : String) (alternatives : Alternatives)
        (hread : s'.table.reading id = some alternatives) (alternative : List GrammarSymbol)
        (ha : alternative ∈ alternatives) : Derives.Within part kept alternative := by
      intro symbol hs next hnext
      obtain ⟨⟨r, hr⟩, hexcept⟩ := hholds'.closed hok' htexts' hread ha hs hnext
      exact ⟨by simp [part, hr], fun he => .inr (hexcept he)⟩
    have hwithin : Derives.Within part kept [.rule id] := by
      intro symbol hs next hnext
      obtain rfl := List.mem_singleton.1 hs
      cases hnext
      exact ⟨hid, by simp⟩
    intro text
    constructor
    · refine Derives.transfer (fun id hp hk => (hreading id hp hk).symm)
        (fun id hp hk text => ((hother id hp hk).derives_iff text).1)
        (fun id alternatives hp hk hread => ?_) hwithin
      exact hclosed id alternatives ((hreading id hp hk).symm.trans hread)
    · exact Derives.transfer hreading
        (fun id hp hk text => ((hother id hp hk).derives_iff text).2)
        (fun id alternatives _ _ => hclosed id alternatives) hwithin

/-- A schema is compiled after another one to the start rule that it has on its own. The start keeps
its texts exactly if it keeps them when the forward rules are taken from the first schema, and all
rules do exactly if the forward rules that both schemas have derive the same in both. -/
theorem compile_after_other_iff (hf : first.factories = ∅) (hf' : second.factories = ∅)
    (hnames : first.NamesClear root) (hnames' : second.NamesClear root')
    (hfirst : Session.compile {} first root options = (.ok start, s))
    (hsecond : Session.compile {} second root' options' = (.ok start', s'))
    (hlog : Collisionless (s.log ++ s'.log)) :
    ∃ shared : Session, s.compile second root' options' = (.ok start', shared) ∧
      (shared.table.SameTexts s'.table start'.id ↔
        ∀ text, RecordGrammar.Derives (s.table.readingAfter s'.table) [.rule start'.id] text ↔
          RecordGrammar.Derives s'.table.reading [.rule start'.id] text) ∧
      (first.TextsClear root → second.TextsClear root' →
        ((∀ id, s'.table.rule? id ≠ none → shared.table.SameTexts s'.table id) ↔
          ∀ name, s.table.rule? (forwardId name) ≠ none →
            s'.table.rule? (forwardId name) ≠ none →
              s.table.SameTexts s'.table (forwardId name))) := by
  obtain ⟨hok, hbuilt⟩ := Session.built_of_compile hf hfirst
  obtain ⟨hok', hbuilt'⟩ := Session.built_of_compile hf' hsecond
  have hholds := hbuilt.holdsActs hnames hok hlog.of_append.1
  have hholds' := hbuilt'.holdsActs hnames' hok' hlog.of_append.2
  have hsame (id : String) (r r' : Rule) (hr : s.table.rule? id = some r)
      (hr' : s'.table.rule? id = some r') (hid : ∀ name, id ≠ forwardId name) : r = r' :=
    rule_eq_of_shared hok hok' hnames hnames' hbuilt hbuilt' hlog hholds hholds' hr hr' hid
  rcases Session.compile_on hf' hsecond hbuilt.settled with
    ⟨-, shared, hc, -, hjoint, -⟩ | ⟨hreserved, -⟩
  · refine ⟨shared, hc, ?_, fun htexts htexts' =>
      sameTexts_iff_forward hok hok' htexts htexts' hholds hholds' hsame hjoint⟩
    rw [← reading_eq_readingAfter hjoint hsame]
    constructor
    · exact fun h text => h.derives_iff text
    · exact fun h text => h text.toList
  · exact absurd (fun id _ => hbuilt.reserved id) hreserved

end

/-- The session after the compilation of a chain on an empty table. -/
def chainSession (name : String) : Session := (Session.compile {} (chain name) "A" {}).2

/-- The session after the compilation of one chain and then another. -/
def chainsSession (name name' : String) : Session :=
  ((chainSession name).compile (chain name') "A" {}).2

section Chains

/-- The rule of a chain: its only key, and the rule of the list behind it. -/
private def chainAlternatives (name list : String) : Alternatives :=
  [[.terminal ['\x7b'], .terminal (Piece.keyText name true), .rule list, .terminal ['\x7d']]]

private def listAlternatives (item trail : String) : Alternatives :=
  [[.terminal ['[', ']']], [.terminal ['['], .rule item, .terminal [']']],
    [.terminal ['['], .rule item, .rule trail, .terminal [']']]]

private abbrev nextId : String := "__bjo_c60e07bca8775799_decl"

private abbrev lastId : String := "__bjo_53db00b9f0c3b6f9_decl"

private abbrev listId : String := "__bja_6b19b9daac97260b_decl"

private abbrev trailId : String := "__bja_6b19b9daac97260b_0"

private theorem compile_next : Session.compile {} (chain "next") "A" {} =
    (.ok ⟨nextId⟩, chainSession "next") := by
  rw [chainSession]
  exact compile_chain

set_option maxRecDepth 100000 in
/-- The two compilations, and the rules that the first text with both keys is read by. -/
private theorem chains_compiled : (Session.compile {} (chain "last") "A" {}).1 = .ok ⟨lastId⟩ ∧
    Collisionless ((chainSession "next").log ++ (chainSession "last").log) ∧
    ((chainSession "last").table.reading lastId = some (chainAlternatives "last" listId) ∧
      (chainSession "last").table.reading listId =
        some (listAlternatives (forwardId "A") trailId) ∧
      (chainSession "last").table.reading (forwardId "A") = some [[.rule lastId]]) ∧
    ((chainsSession "next" "last").table.reading lastId =
        some (chainAlternatives "last" listId) ∧
      (chainsSession "next" "last").table.reading listId =
        some (listAlternatives (forwardId "A") trailId) ∧
      (chainsSession "next" "last").table.reading (forwardId "A") = some [[.rule nextId]] ∧
      (chainsSession "next" "last").table.reading nextId =
        some (chainAlternatives "next" listId)) ∧
    ∀ r ∈ (chainSession "last").table.rules, isForwardId r.id = true → r.id = forwardId "A" := by
  decide +kernel

private theorem compile_last : Session.compile {} (chain "last") "A" {} =
    (.ok ⟨lastId⟩, chainSession "last") := by
  rw [chainSession]
  exact eq_mk_of_fst chains_compiled.1

private theorem derives_chain {rules : RuleReading} {id name list : String} {text : List Char}
    (h : rules id = some (chainAlternatives name list)) :
    Derives rules [.rule id] text ↔ ∃ items, Derives rules [.rule list] items ∧
      text = ['\x7b'] ++ (Piece.keyText name true ++ (items ++ ['\x7d'])) := by
  rw [Derives.rule_iff]
  constructor
  · rintro ⟨alternatives, hread, alternative, halternative, hbody⟩
    cases h.symm.trans hread
    obtain rfl := List.mem_singleton.1 halternative
    obtain ⟨_, rfl, hkey⟩ := Derives.terminal_cons_iff.1 hbody
    obtain ⟨_, rfl, hlist⟩ := Derives.terminal_cons_iff.1 hkey
    obtain ⟨items, brace, rfl, hitems, hbrace⟩ := Derives.rule_cons_iff.1 hlist
    obtain rfl := Derives.terminal_iff.1 hbrace
    exact ⟨items, hitems, rfl⟩
  · rintro ⟨items, hitems, rfl⟩
    have hbrace : Derives rules [.terminal ['\x7d']] ['\x7d'] := Derives.terminal_iff.2 rfl
    have hkey := (hitems.append hbrace).terminal_append (Piece.keyText name true)
    exact ⟨_, h, _, List.mem_singleton_self _, hkey.terminal_append ['\x7b']⟩

/-- What a list can start with: nothing in it, or an item. -/
private theorem derives_list_first {rules : RuleReading} {id item trail : String}
    {text : List Char} (h : rules id = some (listAlternatives item trail))
    (ht : Derives rules [.rule id] text) : text = ['[', ']'] ∨
      ∃ first rest, Derives rules [.rule item] first ∧ text = ['['] ++ (first ++ rest) := by
  obtain ⟨alternatives, hread, alternative, halternative, hbody⟩ := Derives.rule_iff.1 ht
  cases h.symm.trans hread
  simp only [listAlternatives, List.mem_cons, List.not_mem_nil, or_false] at halternative
  rcases halternative with rfl | rfl | rfl
  · exact .inl (Derives.terminal_iff.1 hbody)
  all_goals
    obtain ⟨_, rfl, hitems⟩ := Derives.terminal_cons_iff.1 hbody
    obtain ⟨first, rest, rfl, hfirst, -⟩ := Derives.rule_cons_iff.1 hitems
    exact .inr ⟨first, rest, hfirst, rfl⟩

/-- A chain of one item, which is a chain of the other key. -/
private def mixedText : String := "\x7b\"last\": [\x7b\"next\": []\x7d]\x7d"

private theorem derives_mixed : (chainsSession "next" "last").table.Derives ⟨lastId⟩ mixedText := by
  obtain ⟨-, -, -, ⟨hlast, hlist, hforward, hnext⟩, -⟩ := chains_compiled
  have hempty : Derives (chainsSession "next" "last").table.reading [.rule listId] ['[', ']'] :=
    Derives.rule_iff.2 ⟨_, hlist, _, List.mem_cons_self, Derives.terminal_iff.2 rfl⟩
  have hitem := (derives_chain hnext).2 ⟨_, hempty, rfl⟩
  have hmet := Derives.rule_iff.2 ⟨_, hforward, _, List.mem_singleton.2 rfl, hitem⟩
  have hbracket : Derives (chainsSession "next" "last").table.reading [.terminal [']']] [']'] :=
    Derives.terminal_iff.2 rfl
  have hitems := Derives.rule_iff.2 ⟨_, hlist, _, List.mem_cons_of_mem _ List.mem_cons_self,
    (hmet.append hbracket).terminal_append ['[']⟩
  exact (derives_chain hlast).2 ⟨_, hitems, by decide⟩

private theorem not_derives_mixed : ¬(chainSession "last").table.Derives ⟨lastId⟩ mixedText := by
  intro h
  obtain ⟨-, -, ⟨hlast, hlist, hforward⟩, -⟩ := chains_compiled
  obtain ⟨items, hitems, htext⟩ := (derives_chain hlast).1 h
  rcases derives_list_first hlist hitems with rfl | ⟨first, rest, hfirst, rfl⟩
  · exact absurd htext (by decide)
  · obtain ⟨alternatives, hread, alternative, halternative, hbody⟩ := Derives.rule_iff.1 hfirst
    cases hforward.symm.trans hread
    obtain rfl := List.mem_singleton.1 halternative
    obtain ⟨inner, -, rfl⟩ := (derives_chain hlast).1 hbody
    simp [mixedText, Piece.keyText, jsonString, jsonEscapeChar] at htext

/-- After a chain of another key a chain derives items of that other one, since the forward rule of
both goes by the name of the record. -/
theorem chains_mixed_in_one_table : ∃ (start : RuleHandle) (text : String),
    (∃ other, (Session.compile {} (chain "next") "A" {}).1 = .ok other) ∧
    (Session.compile {} (chain "last") "A" {}).1 = .ok start ∧
    (chain "next").NamesClear "A" ∧ (chain "last").NamesClear "A" ∧
    (chain "next").TextsClear "A" ∧ (chain "last").TextsClear "A" ∧
    Collisionless ((chainSession "next").log ++ (chainSession "last").log) ∧
    (chainsSession "next" "last").table.Derives start text ∧
    ¬(chainSession "last").table.Derives start text :=
  ⟨⟨lastId⟩, mixedText, ⟨_, congrArg Prod.fst compile_next⟩, congrArg Prod.fst compile_last,
    chain_namesClear (by decide), chain_namesClear (by decide), chain_textsClear _,
    chain_textsClear _, chains_compiled.2.1, derives_mixed, not_derives_mixed⟩

theorem chains_forward_apart :
    ¬(chainSession "next").table.SameTexts (chainSession "last").table (forwardId "A") := by
  obtain ⟨shared, hc, -, hall⟩ := compile_after_other_iff (chain_factories "next")
    (chain_factories "last") (chain_namesClear (by decide)) (chain_namesClear (by decide))
    compile_next compile_last chains_compiled.2.1
  obtain ⟨-, -, ⟨hlast, -⟩, -, hforwards⟩ := chains_compiled
  intro hsame
  have hshared : chainsSession "next" "last" = shared := by rw [chainsSession, hc]
  have hwf := (Session.built_of_compile rfl compile_last).2.settled.wellFormed
  have hforward (name : String) (h : (chainSession "last").table.rule? (forwardId name) ≠ none) :
      forwardId name = forwardId "A" := by
    obtain ⟨r, hr⟩ := Option.ne_none_iff_exists'.1 h
    obtain ⟨hmem, hid⟩ := hwf.rule?_eq_some_iff.1 hr
    rw [← hid, hforwards r hmem (hid ▸ isForwardId_forwardId name)]
  have hcommitted : (chainSession "last").table.rule? lastId ≠ none := fun hnone => by
    simp [RuleTable.reading, hnone] at hlast
  have htexts := (hall (chain_textsClear _) (chain_textsClear _)).2
    (fun name _ h => (hforward name h).symm ▸ hsame) lastId hcommitted mixedText
  exact not_derives_mixed (htexts.1 (hshared ▸ derives_mixed))

end Chains

end RecordGrammar
