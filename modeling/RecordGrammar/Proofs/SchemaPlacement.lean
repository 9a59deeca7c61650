import RecordGrammar.Proofs.CompiledReading
import RecordGrammar.Proofs.ScalarTexts

/-! # Which rule a type of a compiled schema stands at -/

namespace RecordGrammar

/-- A type that the compilation of a schema has met, and the handle it got there. -/
structure Registry.Placed (registry : Registry) (root : String) (options : SchemaOptions)
    (type : FieldType) (handle : RuleHandle) : Prop where
  reaches : registry.Reaches root type
  compiled : ∃ left stack, (Plan.type left ⟨registry, options, stack⟩ type).outcome = .ok handle ∧
    (Plan.type left ⟨registry, options, stack⟩ type).acts ⊆ (schemaPlan registry root options).acts

/-- The visible fields of a record, and the rows of the object that it was compiled to. -/
structure Registry.PlacedRows (registry : Registry) (root : String) (options : SchemaOptions)
    (definition : RecordSchema) (rows : List (String × RuleHandle)) : Prop where
  fragment : .fragment (.object rows) ∈ (schemaPlan registry root options).acts
  fields : List.Forall₂ (fun f row => row.1 = f.name ∧ f.checkOverride = .ok () ∧
    (f.format = none → registry.Placed root options f.type row.2)) definition.visibleFields rows

variable {registry : Registry} {root : String} {options : SchemaOptions}

/-- Where no field has a format, every row of an object stands for the type of its field. -/
theorem Registry.PlacedRows.types {definition : RecordSchema} {rows : List (String × RuleHandle)}
    (h : registry.PlacedRows root options definition rows)
    (hformat : ∀ f ∈ definition.visibleFields, f.format = none) :
    List.Forall₂ (fun f row => row.1 = f.name ∧ registry.Placed root options f.type row.2)
      definition.visibleFields rows :=
  ((List.forall₂_and_left _ _).2 ⟨hformat, h.fields⟩).imp fun _ _ ⟨hnone, hname, _, hplaced⟩ =>
    ⟨hname, hplaced hnone⟩

/-- What has been compiled of the fields of a record, one by one. -/
theorem Registry.PlacedRows.field {definition : RecordSchema} {rows : List (String × RuleHandle)}
    (h : registry.PlacedRows root options definition rows) :
    ∀ f ∈ definition.visibleFields, f.checkOverride = .ok () ∧
      (f.format = none → ∃ handle, registry.Placed root options f.type handle) := by
  intro f hf
  obtain ⟨row, -, -, hcheck, hplaced⟩ := exists_of_forall₂ h.fields.flip f hf
  exact ⟨hcheck, fun hnone => ⟨row.2, hplaced hnone⟩⟩

open Plan

/-- What a plan for several parts has produced, part by part. -/
theorem Plan.mapM_each {α β : Type} {p : α → Plan β} {as : List α} {bs : List β} {all : List Act}
    (h : (as.mapM p).outcome = .ok bs) (hall : (as.mapM p).acts ⊆ all) :
    List.Forall₂ (fun a b => a ∈ as ∧ (p a).outcome = .ok b ∧ (p a).acts ⊆ all) as bs := by
  refine (List.forall₂_and_left _ _).2 ⟨fun _ ha => ha, ?_⟩
  have hacts : ∀ a ∈ as, (p a).acts ⊆ all := fun a ha act hact => by
    rw [mapM_acts h] at hall
    exact hall (List.mem_flatMap.2 ⟨a, ha, hact⟩)
  have hboth := (List.forall₂_and_left _ _).2 ⟨hacts, mapM_outcome_ok_iff.1 h⟩
  exact hboth.imp fun _ _ hab => ⟨hab.2, hab.1⟩

/-- What the body of a record has been compiled to. -/
theorem placedRows_of_objectBody {left : Nat} {stack : List String} {name : String}
    {definition : RecordSchema} {rule : RuleHandle} (hname : registry.Reaches root (.record name))
    (hrecord : registry.record name = .ok definition)
    (h : (objectBody (type left) ⟨registry, options, stack⟩ definition).outcome = .ok rule)
    (hall : (objectBody (type left) ⟨registry, options, stack⟩ definition).acts ⊆
      (schemaPlan registry root options).acts) :
    ∃ rows, registry.PlacedRows root options definition rows ∧
      rule = (Fragment.object rows).handle := by
  obtain ⟨rows, hrows, hrule, hacts⟩ := outcome_of_fragment h
  unfold objectBody at hall
  rw [hacts] at hall
  obtain ⟨hfields, hfragment⟩ := List.append_subset.1 hall
  refine ⟨rows, ⟨hfragment (List.mem_singleton.2 rfl), (mapM_each hrows hfields).imp ?_⟩, hrule⟩
  rintro f row ⟨hf, hrow, hsub⟩
  obtain ⟨value, hvalue, hpure⟩ := bind_outcome_ok_iff.1 hrow
  rw [bind_of_outcome_ok hvalue] at hsub
  cases hpure
  obtain ⟨_, hcheck, htype⟩ := bind_outcome_ok_iff.1 hvalue
  refine ⟨rfl, hcheck, fun hformat => ⟨.field hname hrecord hf, left, stack, ?_⟩⟩
  unfold Plan.field at hsub
  rw [bind_of_outcome_ok hcheck] at hsub
  rw [hformat] at htype hsub
  have hcore := List.Subset.trans (List.subset_append_left _ _) hsub
  exact ⟨htype, List.Subset.trans (List.subset_append_right _ _) hcore⟩

/-- A record is met while it is under construction, or else it is constructed. -/
theorem Plan.object_cases {left : Nat} {stack : List String} {name : String} {handle : RuleHandle}
    {all : List Act}
    (h : (object (type left) ⟨registry, options, stack⟩ name).outcome = .ok handle)
    (hall : (object (type left) ⟨registry, options, stack⟩ name).acts ⊆ all) :
    (name ∈ stack ∧ handle = ⟨forwardId name⟩ ∧ .forward name ∈ all) ∨
      ∃ definition, registry.record name = .ok definition ∧
        (objectBody (type left) ⟨registry, options, stack ++ [name]⟩ definition).outcome =
          .ok handle ∧
        (objectBody (type left) ⟨registry, options, stack ++ [name]⟩ definition).acts ⊆ all := by
  unfold Plan.object Plan.record at h hall
  split at h
  · rename_i hstack
    rw [if_pos hstack] at hall
    split at h
    · rename_i hrecursion
      rw [if_pos hrecursion] at hall
      exact .inl ⟨hstack, (Except.ok.inj h).symm, hall (List.mem_singleton.2 rfl)⟩
    · cases h
  · rename_i hstack
    rw [if_neg hstack] at hall
    obtain ⟨definition, hdefinition, h⟩ := bind_outcome_ok_iff.1 h
    obtain ⟨rule, hrule, h⟩ := bind_outcome_ok_iff.1 h
    cases h
    rw [bind_of_outcome_ok hdefinition, bind_of_outcome_ok hrule] at hall
    exact .inr ⟨definition, hdefinition, hrule,
      (List.append_subset.1 (List.append_subset.1 hall).2).1⟩

section

variable {start : RuleHandle} {t : RuleTable}
  (hok : (schemaPlan registry root options).outcome = .ok start)
  (h : t.HoldsActs (schemaPlan registry root options).acts)

include hok

/-- A record that is closed has had its body compiled. -/
theorem body_of_close {name : String} {rule : RuleHandle}
    (hclose : .close name rule ∈ (schemaPlan registry root options).acts) :
    ∃ definition left stack, registry.Reaches root (.record name) ∧
      registry.record name = .ok definition ∧
      (objectBody (type left) ⟨registry, options, stack⟩ definition).outcome = .ok rule ∧
      (objectBody (type left) ⟨registry, options, stack⟩ definition).acts ⊆
        (schemaPlan registry root options).acts := by
  let all := (schemaPlan registry root options).acts
  have hinvariant : ActInvariant registry root options all fun _ as => ∀ name rule,
      .close name rule ∈ as → ∃ definition left stack, registry.Reaches root (.record name) ∧
        registry.record name = .ok definition ∧
        (objectBody (type left) ⟨registry, options, stack⟩ definition).outcome = .ok rule ∧
        (objectBody (type left) ⟨registry, options, stack⟩ definition).acts ⊆ all := by
    refine ⟨by simp, fun has hbs name rule h => ?_, by simp, by simp, ?_⟩
    · exact (List.mem_append.1 h).elim (has name rule) (hbs name rule)
    · intro stack name definition left rule hname hrecord hrule hall hbody n r hr
      rcases List.mem_append.1 hr with hr | hr
      · exact hbody n r hr
      · cases List.mem_singleton.1 hr
        exact ⟨definition, left, _, hname, hrecord, hrule, hall⟩
  exact hinvariant.schemaPlan hok name rule hclose

/-- What the forward rule of a record leads to. -/
theorem placedRows_of_close {name : String} {rule : RuleHandle}
    (hclose : .close name rule ∈ (schemaPlan registry root options).acts) :
    ∃ definition rows, registry.record name = .ok definition ∧
      registry.PlacedRows root options definition rows ∧ rule = (Fragment.object rows).handle := by
  obtain ⟨definition, left, stack, hname, hrecord, hrule, hall⟩ := body_of_close hok hclose
  obtain ⟨rows, hrows, he⟩ := placedRows_of_objectBody hname hrecord hrule hall
  exact ⟨definition, rows, hrecord, hrows, he⟩

include h

/-- The texts of a record are those of an object of its visible fields, wherever it is met. -/
theorem object_placed {left : Nat} {stack : List String} {name : String} {handle : RuleHandle}
    (hname : registry.Reaches root (.record name))
    (houtcome : (object (type left) ⟨registry, options, stack⟩ name).outcome = .ok handle)
    (hall : (object (type left) ⟨registry, options, stack⟩ name).acts ⊆
      (schemaPlan registry root options).acts) :
    ∃ definition rows, registry.record name = .ok definition ∧
      registry.PlacedRows root options definition rows ∧
        ∀ text, t.Texts handle text ↔ t.Texts (Fragment.object rows).handle text := by
  rcases object_cases houtcome hall with ⟨-, rfl, hforward⟩ | ⟨definition, hrecord, hrule, hbody⟩
  · obtain ⟨rule, hclose, hr⟩ := h.forward hforward
    obtain ⟨definition, rows, hrecord, hrows, rfl⟩ := placedRows_of_close hok hclose
    refine ⟨definition, rows, hrecord, hrows, fun text => ?_⟩
    have hread : t.reading (forwardId name) = some [[.rule (Fragment.object rows).handle.id]] := by
      rw [RuleTable.reading_of_rule? hr]
      exact readProduction_handle (Fragment.handle_plain _).referable
    refine Derives.rule_iff.trans ?_
    simp only [hread, Option.some.injEq, exists_eq_left', List.mem_singleton, exists_eq_left]
    rfl
  · obtain ⟨rows, hrows, rfl⟩ := placedRows_of_objectBody hname hrecord hrule hbody
    exact ⟨definition, rows, hrecord, hrows, fun text => Iff.rfl⟩

/-- The start rule stands for the root. -/
theorem start_placed : ∃ definition rows, registry.record root = .ok definition ∧
    registry.PlacedRows root options definition rows ∧
      ∀ text, t.Texts start text ↔ t.Texts (Fragment.object rows).handle text := by
  obtain ⟨definition, hrecord, hobject⟩ := bind_outcome_ok_iff.1 hok
  refine object_placed hok h .root hobject ?_
  unfold schemaPlan
  rw [bind_of_outcome_ok hrecord]
  exact List.subset_append_right _ _

theorem rows_texts {definition : RecordSchema} {rows : List (String × RuleHandle)}
    (hrows : registry.PlacedRows root options definition rows) {text : List Char} :
    t.Texts (Fragment.object rows).handle text ↔
      ∃ values, List.Forall₂ (fun row => t.Texts row.2) rows values ∧
        text = inBraces (List.zipWith (fun row => entryText row.1) rows values) := by
  refine object_texts (h.fragment hrows.fragment) fun row hrow => ?_
  exact ((fragment_from hok hrows.fragment).inputs_known _ (List.mem_map_of_mem hrow)).plain.referable

/-- The texts of a record type are those of an object of its visible fields. -/
theorem record_placed {name : String} {handle : RuleHandle}
    (hp : registry.Placed root options (.record name) handle) :
    ∃ definition rows, registry.record name = .ok definition ∧
      registry.PlacedRows root options definition rows ∧
        ∀ text, t.Texts handle text ↔ t.Texts (Fragment.object rows).handle text := by
  obtain ⟨hreaches, left, stack, houtcome, hall⟩ := hp
  cases left with
  | zero => cases houtcome
  | succ left => exact object_placed hok h hreaches houtcome hall

end

section

variable {t : RuleTable} {handle : RuleHandle} {text : List Char}

theorem Registry.Placed.plain {type : FieldType} (hp : registry.Placed root options type handle) :
    PlainId handle.id := by
  obtain ⟨-, left, stack, houtcome, -⟩ := hp
  exact (type_known houtcome).plain

/-- What a type is met as, one level into it. -/
theorem Registry.Placed.level {ty : FieldType} (hp : registry.Placed root options ty handle) :
    ∃ left stack, (typeLevel (type left) ⟨registry, options, stack⟩ ty).outcome = .ok handle ∧
      (typeLevel (type left) ⟨registry, options, stack⟩ ty).acts ⊆
        (schemaPlan registry root options).acts := by
  obtain ⟨-, left, stack, houtcome, hall⟩ := hp
  cases left with
  | zero => cases houtcome
  | succ left => exact ⟨left, stack, houtcome, hall⟩

/-- The types that nothing is compiled for. -/
theorem Registry.Placed.ne_marker {ty : FieldType} (hp : registry.Placed root options ty handle) :
    ty ≠ .variadic ∧ ty ≠ .unknownList := by
  obtain ⟨left, stack, houtcome, -⟩ := hp.level
  constructor <;> (rintro rfl; cases houtcome)

theorem Registry.Placed.element {element : FieldType}
    (hp : registry.Placed root options (.list element) handle) :
    ∃ inner, registry.Placed root options element inner ∧ handle = (Fragment.array inner).handle ∧
      .fragment (.array inner) ∈ (schemaPlan registry root options).acts := by
  obtain ⟨left, stack, houtcome, hall⟩ := hp.level
  rw [typeLevel] at houtcome hall
  obtain ⟨inner, hinner, rfl, hacts⟩ := outcome_of_fragment houtcome
  rw [hacts] at hall
  obtain ⟨helement, hfragment⟩ := List.append_subset.1 hall
  exact ⟨inner, ⟨.element hp.reaches, left, stack, hinner, helement⟩, rfl,
    hfragment (List.mem_singleton.2 rfl)⟩

theorem Registry.Placed.items {types : List FieldType}
    (hp : registry.Placed root options (.tuple types) handle) : checkTuple types = .ok () ∧
      ∃ members, List.Forall₂ (registry.Placed root options) types members ∧
        handle = (Fragment.tuple members).handle ∧
        .fragment (.tuple members) ∈ (schemaPlan registry root options).acts := by
  obtain ⟨left, stack, houtcome, hall⟩ := hp.level
  rw [typeLevel] at houtcome hall
  obtain ⟨_, hcheck, houtcome⟩ := bind_outcome_ok_iff.1 houtcome
  rw [bind_of_outcome_ok hcheck] at hall
  obtain ⟨members, hmembers, rfl, hacts⟩ := outcome_of_fragment houtcome
  rw [hacts] at hall
  obtain ⟨hitems, hfragment⟩ := List.append_subset.1 (List.append_subset.1 hall).2
  refine ⟨hcheck, members, (mapM_each hmembers hitems).imp ?_, rfl,
    hfragment (List.mem_singleton.2 rfl)⟩
  rintro ty m ⟨hitem, ho, hsub⟩
  exact ⟨.item hp.reaches hitem, left, stack, ho, hsub⟩

theorem Registry.Placed.literals {members : List FieldType}
    (hp : registry.Placed root options (.union members) handle) :
    ∃ literals, unionLiterals members = .ok literals ∧
      handle = (Fragment.enumeration literals).handle ∧
      .fragment (.enumeration literals) ∈ (schemaPlan registry root options).acts := by
  obtain ⟨left, stack, houtcome, hall⟩ := hp.level
  rw [typeLevel] at houtcome hall
  obtain ⟨literals, hliterals, rfl, hacts⟩ := outcome_of_fragment houtcome
  rw [hacts] at hall
  exact ⟨literals, hliterals, rfl, (List.append_subset.1 hall).2 (List.mem_singleton.2 rfl)⟩

/-- A forward rule of a schema that goes through is that of a record which is closed further on. -/
theorem closed_of_forward (hok : (schemaPlan registry root options).outcome = .ok handle)
    {name : String} (h : .forward name ∈ (schemaPlan registry root options).acts) :
    ∃ rule, .close name rule ∈ (schemaPlan registry root options).acts :=
  ((Act.closed_invariant registry root options _).schemaPlan hok).close_of_forward h

/-- A record that has been compiled, or is only referred to, has been constructed somewhere. -/
theorem Registry.Placed.body {start : RuleHandle}
    (hok : (schemaPlan registry root options).outcome = .ok start) {name : String}
    (hp : registry.Placed root options (.record name) handle) :
    ∃ definition left stack rule, registry.record name = .ok definition ∧
      (objectBody (type left) ⟨registry, options, stack⟩ definition).outcome = .ok rule ∧
      (objectBody (type left) ⟨registry, options, stack⟩ definition).acts ⊆
        (schemaPlan registry root options).acts := by
  obtain ⟨left, stack, houtcome, hall⟩ := hp.level
  rcases object_cases houtcome hall with ⟨-, -, hforward⟩ | ⟨definition, hrecord, hrule, hbody⟩
  · obtain ⟨rule, hclose⟩ := closed_of_forward hok hforward
    obtain ⟨definition, left, stack, -, hrecord, hrule, hbody⟩ := body_of_close hok hclose
    exact ⟨definition, left, stack, rule, hrecord, hrule, hbody⟩
  · exact ⟨definition, left, _, handle, hrecord, hrule, hbody⟩

theorem Registry.Placed.record {start : RuleHandle}
    (hok : (schemaPlan registry root options).outcome = .ok start) {name : String}
    (hp : registry.Placed root options (.record name) handle) :
    ∃ definition rows, registry.record name = .ok definition ∧
      registry.PlacedRows root options definition rows := by
  obtain ⟨definition, left, stack, rule, hrecord, hrule, hbody⟩ := hp.body hok
  obtain ⟨rows, hrows, -⟩ := placedRows_of_objectBody hp.reaches hrecord hrule hbody
  exact ⟨definition, rows, hrecord, hrows⟩

variable (h : t.HoldsActs (schemaPlan registry root options).acts)

include h

theorem list_placed {element : FieldType}
    (hp : registry.Placed root options (.list element) handle) :
    ∃ inner, registry.Placed root options element inner ∧
      ∀ text, t.Texts handle text ↔
        ∃ items, (∀ item ∈ items, t.Texts inner item) ∧ text = inBrackets items := by
  obtain ⟨inner, hplaced, rfl, hfragment⟩ := hp.element
  exact ⟨inner, hplaced, fun text => array_texts (h.fragment hfragment) hplaced.plain.referable⟩

theorem tuple_placed {types : List FieldType}
    (hp : registry.Placed root options (.tuple types) handle) : checkTuple types = .ok () ∧
      ∃ members, List.Forall₂ (registry.Placed root options) types members ∧
        ∀ text, t.Texts handle text ↔
          ∃ items, List.Forall₂ t.Texts members items ∧ text = inBrackets items := by
  obtain ⟨hcheck, members, hplaced, rfl, hfragment⟩ := hp.items
  refine ⟨hcheck, members, hplaced, fun text => tuple_texts (h.fragment hfragment) fun m hm => ?_⟩
  obtain ⟨ty, -, hty⟩ := exists_of_forall₂ hplaced m hm
  exact hty.plain.referable

theorem bool_placed (hp : registry.Placed root options .bool handle) :
    t.Texts handle text ↔ text = "true".toList ∨ text = "false".toList := by
  obtain ⟨left, stack, houtcome, hall⟩ := hp.level
  cases houtcome
  exact boolean_texts (h.fragment (hall (List.mem_singleton.2 rfl)))

theorem string_placed (hp : registry.Placed root options .string handle) :
    t.Texts handle text ↔ ∃ parts : List (List Char), (∀ part ∈ parts, StringPart part) ∧
      text = '"' :: (parts.flatten ++ ['"']) := by
  obtain ⟨left, stack, houtcome, hall⟩ := hp.level
  cases houtcome
  exact string_texts (h.fragment (hall (List.mem_singleton.2 rfl)))

theorem number_placed {ty : FieldType} (hty : ty = .int ∨ ty = .float)
    (hp : registry.Placed root options ty handle) : t.Texts handle text ↔ NumberText text := by
  obtain ⟨left, stack, houtcome, hall⟩ := hp.level
  rcases hty with rfl | rfl <;> cases houtcome <;>
    exact number_texts (h.fragment (hall (List.mem_singleton.2 rfl)))

theorem literal_placed {l : Literal} (hp : registry.Placed root options (.literal l) handle)
    (hclear : l.Clear) : t.Texts handle text ↔ text = l.text.toList := by
  obtain ⟨left, stack, houtcome, hall⟩ := hp.level
  cases houtcome
  simpa using enumeration_texts (h.fragment (hall (List.mem_singleton.2 rfl))) (by simp)
    (by simpa using hclear)

theorem union_placed {members : List FieldType}
    (hp : registry.Placed root options (.union members) handle)
    (hclear : ∀ l, registry.Reaches root (.literal l) → l.Clear) :
    ∃ literals, unionLiterals members = .ok literals ∧
      ∀ text, t.Texts handle text ↔ ∃ l ∈ literals, text = l.text.toList := by
  obtain ⟨literals, hliterals, rfl, hfragment⟩ := hp.literals
  obtain ⟨hne, rfl⟩ := unionLiterals_eq_ok hliterals
  refine ⟨literals, hliterals, fun text => enumeration_texts (h.fragment hfragment) hne fun l hl => ?_⟩
  exact hclear l (.member hp.reaches (List.mem_map_of_mem hl))

end

end RecordGrammar
