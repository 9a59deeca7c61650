import RecordGrammar.Proofs.CompileRuns
import RecordGrammar.Proofs.FragmentKeys

/-! # What a compilation on an empty table leaves in it -/

namespace RecordGrammar

namespace View

/-- Where a rule can come from. -/
def Source (acts : List Act) (r : Rule) : Prop :=
  (∃ f, .fragment f ∈ acts ∧ r ∈ f.shared ++ f.rules) ∨
    ∃ name rule, .forward name ∈ acts ∧ .close name rule ∈ acts ∧ r = ⟨forwardId name, rule.text⟩

/-- Every rule has a source among the acts, and so has every forward rule that waits. -/
structure Sourced (acts : List Act) (v : View) : Prop where
  rule (id : String) (r : Rule) : v.rule? id = some r → r.id = id ∧ Source acts r
  waiting (name : String) : v.waiting name = true → .forward name ∈ acts

variable {acts : List Act} {v v' : View} {a : Act}

theorem Sourced.step (h : v.Sourced acts) (ha : a ∈ acts) (hstep : v.step a = some v') :
    v'.Sourced acts := by
  cases a with
  | fragment f =>
    obtain ⟨rfl, -⟩ := step_fragment_eq_some hstep
    refine ⟨fun id r hr => ?_, h.waiting⟩
    rcases Option.or_eq_some_iff.1 hr with hold | ⟨-, hnew⟩
    · exact h.rule id r hold
    · exact ⟨by simpa using List.find?_some hnew, .inl ⟨f, ha, List.mem_of_find?_eq_some hnew⟩⟩
  | forward name =>
    rcases step_forward_eq_some hstep with ⟨rfl, -⟩ | ⟨rfl, -⟩
    · exact h
    · refine ⟨h.rule, fun n hn => ?_⟩
      simp only [await, Bool.or_eq_true, decide_eq_true_eq] at hn
      rcases hn with rfl | hn
      · exact ha
      · exact h.waiting n hn
  | close name rule =>
    rcases step_close_eq_some hstep with ⟨rfl, hw⟩ | ⟨rfl, -⟩
    · refine ⟨fun id r hr => ?_, fun n hn => ?_⟩
      · simp only [settle] at hr
        split at hr
        · rename_i hid
          cases hr
          exact ⟨hid.symm, .inr ⟨name, rule, h.waiting name hw, ha, rfl⟩⟩
        · exact h.rule id r hr
      · simp only [settle, Bool.and_eq_true] at hn
        exact h.waiting n hn.2
    · exact h

theorem Sourced.run {as : List Act} (h : v.Sourced acts) (hsub : as ⊆ acts)
    (hrun : v.run as = some v') : v'.Sourced acts :=
  run_invariant h hrun fun _ ha _ _ h hstep => h.step (hsub ha) hstep

/-- The ids that an act leaves taken. -/
def Takes : Act → String → Prop
  | .fragment f, id => ∃ r ∈ f.shared ++ f.rules, r.id = id
  | .forward name, id => id = forwardId name
  | .close _ _, _ => False

theorem taken_of_step {id : String} (hv : v.Coherent) (hstep : v.step a = some v')
    (hid : Takes a id) : v'.Taken id := by
  cases a with
  | fragment f =>
    obtain ⟨rfl, -⟩ := step_fragment_eq_some hstep
    obtain ⟨r, hr, rfl⟩ := hid
    have hfound : ((f.shared ++ f.rules).find? (·.id = r.id)).isSome :=
      List.find?_isSome.2 ⟨r, hr, by simp⟩
    exact .inr (by rw [gain, Option.isSome_or, hfound, Bool.or_true])
  | forward name =>
    obtain rfl : id = forwardId name := hid
    rcases step_forward_eq_some hstep with ⟨rfl, hw | hr⟩ | ⟨rfl, -⟩
    · exact .inl (hv.reserved_of_waiting name hw)
    · exact .inr hr
    · exact .inl (by simp [await])
  | close name rule => exact hid.elim

theorem taken_of_run {id : String} {as : List Act} (hv : v.Coherent) (hrun : v.run as = some v')
    (ha : a ∈ as) (hid : Takes a id) : v'.Taken id := by
  induction as generalizing v with
  | nil => cases ha
  | cons b as ih =>
    obtain ⟨u, hstep, hrest⟩ := Option.bind_eq_some_iff.1 hrun
    rcases List.mem_cons.1 ha with rfl | ha
    · exact (taken_of_step hv hstep hid).run hrest
    · exact ih (hv.step hstep) hrest ha

end View

/-- Every fragment of a schema owes what it is made of to the schema and to its acts. -/
theorem fragment_from {registry : Registry} {root : String} {options : SchemaOptions}
    {start : RuleHandle} (h : (schemaPlan registry root options).outcome = .ok start)
    {f : Fragment} (hf : .fragment f ∈ (schemaPlan registry root options).acts) :
    f.From registry root (schemaPlan registry root options).acts := by
  let all := (schemaPlan registry root options).acts
  have hinvariant : ActInvariant registry root options all fun _ as =>
      ∀ f : Fragment, .fragment f ∈ as → f.From registry root all := by
    refine ⟨by simp, fun has hbs f hf => ?_, fun _ g hg f hf => ?_, by simp, ?_⟩
    · exact (List.mem_append.1 hf).elim (has f) (hbs f)
    · cases List.mem_singleton.1 hf
      exact hg
    · intro _ _ _ _ _ _ _ _ _ hbody f hf
      exact hbody f (by simpa using hf)
  exact hinvariant.schemaPlan h f hf

/-- The names of the visible fields of a schema do not look like references. -/
def Registry.NamesClear (registry : Registry) (root : String) : Prop :=
  ∀ field, registry.ReachesField root field → '<' ∉ field.name.toList

/-- A record that lists others of its kind in its only field. -/
def chain (name : String) : Registry where
  records := (∅ : Std.ExtTreeMap String RecordSchema).insert "A"
    ⟨[⟨name, .list (.record "A"), false, none⟩], none⟩

theorem chain_factories (name : String) : (chain name).factories = ∅ := rfl

theorem record_chain {name other : String} {definition : RecordSchema}
    (h : (chain name).record other = .ok definition) :
    definition = ⟨[⟨name, .list (.record "A"), false, none⟩], none⟩ := by
  simp only [Registry.record, chain, Std.ExtTreeMap.getElem?_insert] at h
  split at h
  · exact (Except.ok.inj h).symm
  · simp at h

theorem reachesField_chain {name : String} {field : Field}
    (h : (chain name).ReachesField "A" field) :
    field = ⟨name, .list (.record "A"), false, none⟩ := by
  obtain ⟨other, definition, -, hrecord, hfield⟩ := h
  rw [record_chain hrecord] at hfield
  simpa [RecordSchema.visibleFields] using hfield

theorem reaches_chain {name : String} {type : FieldType} (h : (chain name).Reaches "A" type) :
    type = .record "A" ∨ type = .list (.record "A") := by
  induction h with
  | root => exact .inl rfl
  | element _ ih => simp_all
  | item _ _ ih => simp at ih
  | member _ _ ih => simp at ih
  | field hname hrecord hfield =>
    exact .inr (by rw [reachesField_chain ⟨_, _, hname, hrecord, hfield⟩])

theorem chain_namesClear {name : String} (h : '<' ∉ name.toList) : (chain name).NamesClear "A" := by
  intro field hfield
  rw [reachesField_chain hfield]
  exact h

set_option maxRecDepth 100000 in
theorem compile_chain : Session.compile {} (chain "next") "A" {} =
    (.ok ⟨"__bjo_c60e07bca8775799_decl"⟩, (Session.compile {} (chain "next") "A" {}).2) :=
  eq_mk_of_fst (by decide +kernel)

set_option maxRecDepth 100000 in
theorem collisionless_chain : Collisionless (Session.compile {} (chain "next") "A" {}).2.log := by
  decide +kernel

theorem Fragment.From.clear {registry : Registry} {root : String} {acts : List Act} {f : Fragment}
    (h : f.From registry root acts) (hnames : registry.NamesClear root) : f.Clear := by
  cases f with
  | tuple members => exact fun m hm => (h m hm).plain.referable.closed
  | object rows =>
    intro row hrow
    obtain ⟨hknown, field, hfield, hname⟩ := h row hrow
    exact ⟨hname ▸ hnames field hfield, hknown.plain.referable.closed⟩
  | _ => trivial

/-- A table that holds the very rules of a fragment. -/
def RuleTable.HoldsRules (t : RuleTable) (f : Fragment) : Prop :=
  ∀ r ∈ f.shared ++ f.rules, t.rule? r.id = some r

/-- A fragment with its rules in the table is built by looking its rule up. -/
theorem RuleTable.HoldsRules.build {f : Fragment} {s : Session} (h : s.table.HoldsRules f)
    (hwf : s.table.WellFormed) : f.build s = .ok f.handle (s.noting f.notes) := by
  have hdecl : (⟨f.handle.id, f.layout.text⟩ : Rule) ∈ f.shared ++ f.rules := by
    simp [Fragment.rules]
  refine Fragment.build_of_holds ?_
  rw [hwf.defined_eq_isSome, h _ hdecl, Option.isSome_some]

/-- What the table of a compilation holds, act by act. -/
structure RuleTable.HoldsActs (t : RuleTable) (acts : List Act) : Prop where
  fragment {f} : .fragment f ∈ acts → t.HoldsRules f
  forward {name} : .forward name ∈ acts → ∃ rule, .close name rule ∈ acts ∧
    t.rule? (forwardId name) = some ⟨forwardId name, rule.text⟩
  source {id r} : t.rule? id = some r → r.id = id ∧ View.Source acts r

theorem forwardId_inj {name name' : String} (h : forwardId name = forwardId name') :
    memoKey name = memoKey name' := by
  obtain ⟨hscope, -⟩ := Scope.idOf_inj underscore_not_mem_decl underscore_not_mem_decl h
  have hlist := congrArg (fun s => s.stem.toList) hscope
  simp only [String.toList_append] at hlist
  exact String.toList_inj.1 (List.append_cancel_left hlist)

/-- No other text that a log has hashed has the memo key of this one. -/
def KeyedApart (log : List Event) (text : String) : Prop :=
  ∀ other, .keyed other ∈ log → memoKey other = memoKey text → other = text

theorem Collisionless.apart {log : List Event} (hlog : Collisionless log) {text : String}
    (h : .keyed text ∈ log) : KeyedApart log text := fun other hother hkey =>
  hlog other (List.mem_filterMap.2 ⟨_, hother, rfl⟩) text (List.mem_filterMap.2 ⟨_, h, rfl⟩) hkey

theorem Fragment.canonical?_eq_of_apart {f g : Fragment} {log : List Event} {text : String}
    (hf : f.canonical? = some text) (hapart : KeyedApart log text)
    (hg : ∀ c, g.canonical? = some c → .keyed c ∈ log) (hs : g.stem = f.stem) :
    g.canonical? = some text := by
  obtain ⟨-, hkey⟩ := tag_eq_of_stem_eq hs
  rw [hf, Option.elim_some] at hkey
  cases hcg : g.canonical? with
  | none =>
    have hlength := memoKey_length text
    rw [hcg, Option.elim_none] at hkey
    simp [← hkey] at hlength
  | some c =>
    rw [hcg, Option.elim_some] at hkey
    rw [hapart c (hg c hcg) hkey]

theorem Fragment.canonical?_eq_of_stem_eq {f g : Fragment} {log : List Event}
    (hlog : Collisionless log) (hf : ∀ c, f.canonical? = some c → .keyed c ∈ log)
    (hg : ∀ c, g.canonical? = some c → .keyed c ∈ log) (hs : f.stem = g.stem) :
    f.canonical? = g.canonical? := by
  cases hcf : f.canonical? with
  | some c => exact (canonical?_eq_of_apart hcf (hlog.apart (hf c hcf)) hg hs.symm).symm
  | none =>
    cases hcg : g.canonical? with
    | none => rfl
    | some c =>
      exact hcf.symm.trans (canonical?_eq_of_apart hcg (hlog.apart (hg c hcg)) hf hs)

section

variable {registry : Registry} {root : String} {options : SchemaOptions} {start : RuleHandle}
  {s : Session}

/-- Whatever the acts of a compilation leave taken has been committed at its end. -/
theorem Session.Built.rule?_of_takes {acts : List Act} (h : s.Built acts) {a : Act} {id : String}
    (ha : a ∈ acts) (hid : View.Takes a id) : ∃ r, s.table.rule? id = some r := by
  have ht := View.taken_of_run RuleTable.settled_empty.coherent h.run ha hid
  refine Option.isSome_iff_exists.1 (ht.resolve_left fun hr => ?_)
  rw [show s.table.view.reserved id = false from h.reserved id] at hr
  cases hr

/-- Every rule that is left of acts on an empty table has a source among them. -/
theorem Session.Built.sourced {acts : List Act} (h : s.Built acts) :
    s.table.view.Sourced acts := by
  refine View.Sourced.run ⟨fun id r hr => ?_, fun name hw => ?_⟩ (List.Subset.refl _) h.run
  · simp [RuleTable.view, RuleTable.rule?] at hr
  · cases hw

/-- A fragment whose stem tells its rules among all that were built is in the table with them. -/
theorem Session.Built.holdsRules {acts : List Act} (h : s.Built acts) {f : Fragment}
    (hf : .fragment f ∈ acts)
    (hrules : ∀ g, .fragment g ∈ acts → g.stem = f.stem → g.rules = f.rules) :
    s.table.HoldsRules f := by
  intro r hr
  obtain ⟨r', hr'⟩ := h.rule?_of_takes hf ⟨r, hr, rfl⟩
  obtain ⟨hid, ⟨g, hg, hrg⟩ | ⟨name, rule, -, -, rfl⟩⟩ := h.sourced.rule _ _ hr'
  · rw [hr', Fragment.rule_unique (hrules g hg) hrg hr hid]
  · exact absurd hid.symm (forwardId_ne_of_mem hr name)

theorem Session.Built.holdsRules_of_apart {acts : List Act} (h : s.Built acts) {f : Fragment}
    (hf : .fragment f ∈ acts) {text : String} (hc : f.canonical? = some text)
    (hapart : KeyedApart s.log text) (hclear : ∀ g : Fragment, g.ctorIdx = f.ctorIdx → g.Clear) :
    s.table.HoldsRules f := by
  refine h.holdsRules hf fun g hg hs => ?_
  refine Fragment.rules_eq_of_canonical_eq (hclear g (Fragment.ctorIdx_eq_of_stem_eq hs))
    (hclear f rfl) hs ?_
  rw [hc]
  exact Fragment.canonical?_eq_of_apart hc hapart (h.keyed _ hg) hs

/-- Without collisions the table of a compilation holds exactly the rules of its acts. -/
theorem Session.Built.holdsActs (hnames : registry.NamesClear root)
    (hok : (schemaPlan registry root options).outcome = .ok start)
    (h : s.Built (schemaPlan registry root options).acts) (hlog : Collisionless s.log) :
    s.table.HoldsActs (schemaPlan registry root options).acts := by
  have hsourced := h.sourced
  refine ⟨fun {f} hf => ?_, fun {name} hname => ?_, fun {id r} => hsourced.rule id r⟩
  · refine h.holdsRules hf fun g hg hs => Fragment.rules_eq_of_canonical_eq
      ((fragment_from hok hg).clear hnames) ((fragment_from hok hf).clear hnames) hs ?_
    exact Fragment.canonical?_eq_of_stem_eq hlog (h.keyed _ hg) (h.keyed _ hf) hs
  · obtain ⟨r, hr⟩ := h.rule?_of_takes hname rfl
    obtain ⟨hid, ⟨g, hg, hrg⟩ | ⟨name', rule, hforward, hclose, rfl⟩⟩ := hsourced.rule _ _ hr
    · exact absurd hid (forwardId_ne_of_mem hrg name)
    · have hkeyed {n : String} (hn : .forward n ∈ (schemaPlan registry root options).acts) :
          n ∈ s.log.filterMap Event.keyed? :=
        List.mem_filterMap.2 ⟨_, h.keyed _ hn n rfl, rfl⟩
      obtain rfl := hlog name' (hkeyed hforward) name (hkeyed hname) (forwardId_inj hid)
      exact ⟨rule, hclose, hr⟩

end

end RecordGrammar
