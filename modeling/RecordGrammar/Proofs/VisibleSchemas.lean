import RecordGrammar.Proofs.CompileRuns
import RecordGrammar.Proofs.PayloadDecoding

/-! # What compiling and decoding see of a registry

Both read the visible fields of the records that they come to, and nothing else. In particular it
makes no difference which of the records name the built-in factory: a record that is handed to it
comes out as the one that is written inline. -/

namespace RecordGrammar

/-- From a record, two registries show the same: whatever is reached has the same visible fields. -/
def Registry.ShowsAs (registry registry' : Registry) (root : String) : Prop :=
  ∀ name, registry.Reaches root (.record name) →
    (registry'.record name).map RecordSchema.visibleFields =
      (registry.record name).map RecordSchema.visibleFields

/-- Options with the same limits. The stem of the ids may be another one. -/
structure SchemaOptions.LimitsAs (options options' : SchemaOptions) : Prop where
  allowRecursion : options'.allowRecursion = options.allowRecursion
  maxDepth : options'.maxDepth = options.maxDepth

variable {registry registry' : Registry} {root : String} {options options' : SchemaOptions}

theorem Registry.ShowsAs.record_cases (h : registry.ShowsAs registry' root) {name : String}
    (hname : registry.Reaches root (.record name)) :
    (∃ definition definition', registry.record name = .ok definition ∧
      registry'.record name = .ok definition' ∧
      definition'.visibleFields = definition.visibleFields) ∨
    ∃ e, registry.record name = .error e ∧ registry'.record name = .error e := by
  have hname := h name hname
  cases hrecord : registry.record name with
  | ok definition =>
    cases hrecord' : registry'.record name with
    | ok definition' =>
      rw [hrecord, hrecord'] at hname
      exact .inl ⟨definition, definition', rfl, rfl, Except.ok.inj hname⟩
    | error e =>
      rw [hrecord, hrecord'] at hname
      cases hname
  | error e =>
    cases hrecord' : registry'.record name with
    | ok definition' =>
      rw [hrecord, hrecord'] at hname
      cases hname
    | error e' =>
      rw [hrecord, hrecord'] at hname
      exact .inr ⟨e, rfl, congrArg Except.error (Except.error.inj hname)⟩

namespace Plan

variable {here here' : CompileSite → FieldType → Plan RuleHandle}

/-- Types that can be reached have the same plan on every stack. -/
def Agree (registry registry' : Registry) (root : String) (options options' : SchemaOptions)
    (here here' : CompileSite → FieldType → Plan RuleHandle) : Prop :=
  ∀ stack ty, registry.Reaches root ty →
    here' ⟨registry', options', stack⟩ ty = here ⟨registry, options, stack⟩ ty

theorem Agree.object (hagree : Agree registry registry' root options options' here here')
    (h : registry.ShowsAs registry' root) (ho : options.LimitsAs options') (stack : List String)
    {name : String} (hname : registry.Reaches root (.record name)) :
    Plan.object here' ⟨registry', options', stack⟩ name =
      Plan.object here ⟨registry, options, stack⟩ name := by
  unfold Plan.object Plan.record
  rw [ho.allowRecursion]
  by_cases hstack : name ∈ stack
  · rw [if_pos hstack, if_pos hstack]
  rw [if_neg hstack, if_neg hstack]
  rcases h.record_cases hname with ⟨definition, definition', hrecord, hrecord', hfields⟩ |
    ⟨e, hrecord, hrecord'⟩
  · have hbody : objectBody here' ⟨registry', options', stack ++ [name]⟩ definition' =
        objectBody here ⟨registry, options, stack ++ [name]⟩ definition := by
      unfold objectBody fields
      rw [hfields]
      refine congrArg (· >>= _) (mapM_congr fun f hf => congrArg (· >>= _) ?_)
      unfold field
      rw [hagree (stack ++ [name]) f.type (.field hname hrecord hf)]
    have hstep (site : CompileSite) {d : RecordSchema} (hd : site.registry.record name = .ok d)
        (build : CompileSite → RecordSchema → Plan RuleHandle) :
        (ofExcept (site.registry.record name) >>= fun d =>
          build { site with stack := site.stack ++ [name] } d >>= fun rule =>
            ⟨[.close name rule], .ok rule⟩) =
          (build { site with stack := site.stack ++ [name] } d >>= fun rule =>
            (⟨[.close name rule], .ok rule⟩ : Plan RuleHandle)) := by
      rw [bind_of_outcome_ok (hd : (ofExcept _).outcome = _)]
      rfl
    rw [hstep ⟨registry', options', stack⟩ hrecord', hstep ⟨registry, options, stack⟩ hrecord,
      hbody]
  · rw [bind_of_outcome_error (hrecord' : (ofExcept _).outcome = _),
      bind_of_outcome_error (hrecord : (ofExcept _).outcome = _)]
    rfl

/-- The plan of a type sees the visible fields of what can be reached from it only. -/
theorem type_agree (h : registry.ShowsAs registry' root) (ho : options.LimitsAs options')
    (left : Nat) : Agree registry registry' root options options' (type left) (type left) := by
  induction left with
  | zero =>
    intro stack ty _
    rw [type, type, ho.maxDepth]
  | succ left ih =>
    intro stack ty hty
    cases ty with
    | int | float | string | bool | variadic | unknownList | literal value | union members => rfl
    | list element =>
      exact congrArg (· >>= _) (ih stack element hty.element)
    | tuple items =>
      refine congrArg (ofExcept (checkTuple items) >>= ·) (funext fun _ => congrArg (· >>= _) ?_)
      exact mapM_congr fun item hitem => ih stack item (hty.item hitem)
    | record name => exact ih.object h ho stack hty

end Plan

theorem schemaPlan_showsAs (h : registry.ShowsAs registry' root) (ho : options.LimitsAs options') :
    schemaPlan registry' root options' = schemaPlan registry root options := by
  have hobject := (Plan.type_agree h ho options.maxDepth).object h ho [] .root
  unfold schemaPlan
  rw [ho.maxDepth, hobject]
  rcases h.record_cases .root with ⟨definition, definition', hrecord, hrecord', -⟩ |
    ⟨e, hrecord, hrecord'⟩
  · rw [hrecord, hrecord']
    rfl
  · rw [hrecord, hrecord']

/-- A compilation is the same for registries that show the same, down to the log. -/
theorem Session.compile_showsAs (hf : registry.factories = ∅) (hf' : registry'.factories = ∅)
    (h : registry.ShowsAs registry' root) (ho : options.LimitsAs options') {s : Session}
    (hs : s.table.WellFormed) :
    s.compile registry' root options' = s.compile registry root options := by
  rw [Session.compile_eq hf' root options' hs, Session.compile_eq hf root options hs,
    schemaPlan_showsAs h ho]

namespace PayloadDecoder

variable {decode decode' : TypeDecoder}

/-- Values of types that can be reached are decoded the same everywhere, whichever record the
factory at work was asked for. -/
def Agree (registry registry' : Registry) (root : String) (options options' : SchemaOptions)
    (decode decode' : TypeDecoder) : Prop :=
  ∀ path asked asked' ty value, registry.Reaches root ty →
    decode' ⟨registry', options', path⟩ asked' ty value =
      decode ⟨registry, options, path⟩ asked ty value

theorem Agree.items (hagree : Agree registry registry' root options options' decode decode')
    (path : PayloadPath) (asked asked' : String) (i : Nat) {types : List FieldType}
    (htypes : ∀ ty ∈ types, registry.Reaches root ty) (values : List Json) :
    items decode' ⟨registry', options', path⟩ asked' i types values =
      items decode ⟨registry, options, path⟩ asked i types values := by
  induction types generalizing i values with
  | nil => rfl
  | cons ty types ih =>
    obtain ⟨hty, htypes⟩ := List.forall_mem_cons.1 htypes
    cases values with
    | nil => rfl
    | cons value values =>
      have hitem := hagree (path ++ [.index i]) asked asked' ty value hty
      have hrest := ih (i + 1) htypes values
      simp only [PayloadDecoder.items, DecodeSite.inside, hitem, hrest]

theorem Agree.object (hagree : Agree registry registry' root options options' decode decode')
    (h : registry.ShowsAs registry' root) (path : PayloadPath) (asked asked' : String)
    {name : String} (hname : registry.Reaches root (.record name)) (value : Json) :
    object decode' ⟨registry', options', path⟩ asked' name value =
      object decode ⟨registry, options, path⟩ asked name value := by
  unfold PayloadDecoder.object
  rcases h.record_cases hname with ⟨definition, definition', hrecord, hrecord', hfields⟩ |
    ⟨e, hrecord, hrecord'⟩
  · simp only [hrecord, hrecord']
    cases value with
    | object members =>
      have hmembers : definition'.visibleFields.mapM
            (field decode' ⟨registry', options', path⟩ asked' · members) =
          definition.visibleFields.mapM
            (field decode ⟨registry, options, path⟩ asked · members) := by
        rw [hfields]
        refine mapM_congr fun f hf => ?_
        have htype (value : Json) := hagree (path ++ [.field f.name]) asked asked' f.type value
          (.field hname hrecord hf)
        simp only [field, DecodeSite.inside, htype]
      exact congrArg (· >>= fun fields => .ok (DecodedValue.record name fields)) hmembers
    | _ => rfl
  · simp only [hrecord, hrecord']
    rfl

/-- Decoding sees the visible fields of what can be reached from a type only. -/
theorem type_agree (hf : registry.factories = ∅) (hf' : registry'.factories = ∅)
    (h : registry.ShowsAs registry' root) (ho : options.LimitsAs options') (left : Nat) :
    Agree registry registry' root options options' (type left) (type left) := by
  induction left with
  | zero =>
    intro path asked asked' ty value _
    rw [type, type, ho.maxDepth]
  | succ left ih =>
    intro path asked asked' ty value hty
    rw [type_succ, type_succ]
    cases ty with
    | int | float | string | bool | variadic | unknownList | literal l | union members => rfl
    | list element =>
      refine congrArg (DecodeSite.expect ⟨registry, options, path⟩ _ value value.array? >>= ·)
        (funext fun values =>
          congrArg (· >>= _) (ih.items path asked asked' 0 (fun ty hty' => ?_) _))
      obtain ⟨-, -, rfl⟩ := List.mem_map.1 hty'
      exact hty.element
    | tuple types =>
      have hitems (values : List Json) :
          items (type left) ⟨registry', options', path⟩ asked' 0 types values =
            items (type left) ⟨registry, options, path⟩ asked 0 types values :=
        ih.items path asked asked' 0 (fun ty => hty.item) values
      simp only [typeLevel]
      refine congrArg (ofSchema (checkTuple types) >>= ·) (funext fun _ => congrArg
        (DecodeSite.expect ⟨registry, options, path⟩ _ value value.array? >>= ·)
        (funext fun values => ?_))
      split
      · exact congrArg (· >>= _) (hitems values)
      · rfl
    | record name =>
      obtain ⟨other, hother⟩ := recordField_eq (levels left) ⟨registry, options, path⟩ hf asked name
        value
      obtain ⟨other', hother'⟩ := recordField_eq (levels left) ⟨registry', options', path⟩ hf'
        asked' name value
      exact hother'.trans ((ih.object h path other other' hty value).trans hother.symm)

end PayloadDecoder

/-- A payload is decoded the same by registries that show the same, or has the same error at the
same place. -/
theorem decodeRecord_showsAs (hf : registry.factories = ∅) (hf' : registry'.factories = ∅)
    (h : registry.ShowsAs registry' root) (ho : options.LimitsAs options') (value : Json) :
    decodeRecord registry' root options' value = decodeRecord registry root options value := by
  rw [PayloadDecoder.decodeRecord_eq hf root, PayloadDecoder.decodeRecord_eq hf' root, ho.maxDepth]
  exact (PayloadDecoder.type_agree hf hf' h ho _).object h [] root root .root value

/-- What cannot be seen from the root makes no difference: fields that are derived, records that
nothing visible leads to, and the stem of the ids. A schema compiles to the same grammar or fails
with the same error, and a payload is decoded to the same value or refused with the same error. -/
theorem compile_and_decode_showsAs (hf : registry.factories = ∅) (hf' : registry'.factories = ∅)
    (h : registry.ShowsAs registry' root) (ho : options.LimitsAs options') :
    compileFresh registry' root options' = compileFresh registry root options ∧
      ∀ value, decodeRecord registry' root options' value =
        decodeRecord registry root options value := by
  refine ⟨?_, decodeRecord_showsAs hf hf' h ho⟩
  unfold compileFresh
  rw [Session.compile_showsAs hf hf' h ho RuleTable.wellFormed_empty]

/-- The same records, of which those that are marked name the built-in factory. -/
def Registry.withMarkers (registry : Registry) (marked : String → Bool) : Registry :=
  { registry with
    records := registry.records.map fun name definition =>
      { definition with factory := if marked name then some .json else none } }

theorem Registry.record_withMarkers (registry : Registry) (marked : String → Bool) (name : String) :
    (registry.withMarkers marked).record name = (registry.record name).map fun definition =>
      { definition with factory := if marked name then some .json else none } := by
  rw [Registry.record, Registry.record, withMarkers, Std.ExtTreeMap.getElem?_map]
  cases registry.records[name]? <;> rfl

theorem Registry.showsAs_withMarkers (registry : Registry) (marked : String → Bool)
    (root : String) : registry.ShowsAs (registry.withMarkers marked) root := by
  intro name _
  rw [record_withMarkers]
  cases registry.record name <;> rfl

/-- To hand a record to the built-in factory is to write it inline. Whichever records name the
factory, a schema compiles to the same grammar or fails with the same error, and a payload is
decoded to the same value or refused with the same error at the same place. -/
theorem compile_and_decode_withMarkers (hf : registry.factories = ∅) (marked : String → Bool)
    (root : String) (options : SchemaOptions) :
    compileFresh (registry.withMarkers marked) root options = compileFresh registry root options ∧
      ∀ value, decodeRecord (registry.withMarkers marked) root options value =
        decodeRecord registry root options value := by
  have hshows := registry.showsAs_withMarkers marked root
  have hlimits : options.LimitsAs options := ⟨rfl, rfl⟩
  have hfactories : (registry.withMarkers marked).factories = ∅ := hf
  refine ⟨?_, decodeRecord_showsAs hf hfactories hshows hlimits⟩
  unfold compileFresh
  rw [Session.compile_showsAs hf hfactories hshows hlimits RuleTable.wellFormed_empty]

/-- Two records that lead to each other, the second of which names the built-in factory. -/
def household : Registry where
  records := ((∅ : Std.ExtTreeMap String RecordSchema).insert "Person"
    ⟨[⟨"pets", .list (.record "Pet"), false, none⟩], none⟩).insert "Pet"
    ⟨[⟨"owner", .record "Person", false, none⟩], some .json⟩

set_option maxRecDepth 100000 in
theorem compile_household : (Session.compile {} household "Person" {}).1 =
    .ok ⟨"__bjo_a1b5dda3974225ff_decl"⟩ := by
  decide +kernel

/-- The marker moves from the one record to the other. -/
theorem household_marked_otherwise :
    let moved := household.withMarkers (· = "Person")
    (Session.compile {} household "Person" {}).1 = .ok ⟨"__bjo_a1b5dda3974225ff_decl"⟩ ∧
      moved.factory? "Person" = some .json ∧ moved.factory? "Pet" = none ∧
      compileFresh moved "Person" {} = compileFresh household "Person" {} ∧
      ∀ value, decodeRecord moved "Person" {} value = decodeRecord household "Person" {} value := by
  intro moved
  have hfactories : household.factories = ∅ := rfl
  refine ⟨compile_household, by decide +kernel, by decide +kernel, ?_⟩
  exact compile_and_decode_withMarkers hfactories (· = "Person") "Person" {}

theorem record_household {name : String} {definition : RecordSchema}
    (h : household.record name = .ok definition) :
    (name = "Person" ∧ definition.visibleFields = [⟨"pets", .list (.record "Pet"), false, none⟩]) ∨
      (name = "Pet" ∧ definition.visibleFields = [⟨"owner", .record "Person", false, none⟩]) := by
  simp only [Registry.record, household, Std.ExtTreeMap.getElem?_insert] at h
  split_ifs at h with hpet hperson
  · cases h
    exact .inr ⟨(Std.LawfulEqOrd.eq_of_compare hpet).symm, rfl⟩
  · cases h
    exact .inl ⟨(Std.LawfulEqOrd.eq_of_compare hperson).symm, rfl⟩
  · simp at h

theorem reaches_household {ty : FieldType} (h : household.Reaches "Person" ty) :
    ty = .record "Person" ∨ ty = .list (.record "Pet") ∨ ty = .record "Pet" := by
  induction h with
  | root => exact .inl rfl
  | element _ ih => simp at ih; exact .inr (.inr ih)
  | item _ _ ih => simp at ih
  | member _ _ ih => simp at ih
  | field _ hrecord hfield _ =>
    rcases record_household hrecord with ⟨-, hfields⟩ | ⟨-, hfields⟩
    · rw [hfields, List.mem_singleton] at hfield
      exact .inr (.inl (congrArg Field.type hfield))
    · rw [hfields, List.mem_singleton] at hfield
      exact .inl (congrArg Field.type hfield)

/-- The household with a derived field more, which leads to a record that nothing visible leads to,
and without the marker. -/
def furnishedHousehold : Registry where
  records := (((∅ : Std.ExtTreeMap String RecordSchema).insert "Person"
    ⟨[⟨"home", .record "House", true, none⟩, ⟨"pets", .list (.record "Pet"), false, none⟩],
      none⟩).insert "Pet" ⟨[⟨"owner", .record "Person", false, none⟩], none⟩).insert "House"
    ⟨[⟨"rooms", .int, false, none⟩], none⟩

theorem household_showsAs_furnished : household.ShowsAs furnishedHousehold "Person" := by
  intro name hname
  rcases reaches_household hname with hperson | hlist | hpet
  · obtain rfl := FieldType.record.inj hperson
    decide +kernel
  · cases hlist
  · obtain rfl := FieldType.record.inj hpet
    decide +kernel

/-- The house that comes with the household, and another stem, are not seen. -/
theorem household_furnished :
    household.ShowsAs furnishedHousehold "Person" ∧
      SchemaOptions.LimitsAs {} { stem := "home" } ∧ furnishedHousehold ≠ household ∧
      (Session.compile {} household "Person" {}).1 = .ok ⟨"__bjo_a1b5dda3974225ff_decl"⟩ ∧
      compileFresh furnishedHousehold "Person" { stem := "home" } =
        compileFresh household "Person" {} ∧
      ∀ value, decodeRecord furnishedHousehold "Person" { stem := "home" } value =
        decodeRecord household "Person" {} value := by
  have hlimits : SchemaOptions.LimitsAs {} { stem := "home" } := ⟨rfl, rfl⟩
  refine ⟨household_showsAs_furnished, hlimits, by decide +kernel, compile_household, ?_⟩
  exact compile_and_decode_showsAs rfl rfl household_showsAs_furnished hlimits

end RecordGrammar
