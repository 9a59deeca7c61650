import RecordGrammar.Proofs.CompiledDecoding
import RecordGrammar.Proofs.DerivedPayloads
import Mathlib.Logic.Relation

/-! # How deep a payload can nest

The levels that compiling and decoding have left at a type are the same, unless the compiler has
cut off at a record under construction, or has put a format in the place of a string. -/

namespace RecordGrammar

/-- A part of a type, one step into it. -/
inductive Registry.Part (registry : Registry) : FieldType → FieldType → Prop where
  | element {element} : registry.Part (.list element) element
  | item {items item} : item ∈ items → registry.Part (.tuple items) item
  | member {members member} : member ∈ members → registry.Part (.union members) member
  | field {name definition field} : registry.record name = .ok definition →
      field ∈ definition.visibleFields → registry.Part (.record name) field.type

/-- No record that can be reached from a record can be reached from itself. -/
def Registry.Acyclic (registry : Registry) (root : String) : Prop :=
  ∀ name, registry.Reaches root (.record name) →
    ¬Relation.TransGen registry.Part (.record name) (.record name)

theorem Registry.Reaches.part {registry : Registry} {root : String} {ty part : FieldType}
    (h : registry.Reaches root ty) (hpart : registry.Part ty part) :
    registry.Reaches root part := by
  cases hpart with
  | element => exact .element h
  | item hitem => exact .item h hitem
  | member hmember => exact .member h hmember
  | field hrecord hfield => exact .field h hrecord hfield

/-- There is no recursion where the parts of a type rank below it. -/
theorem Registry.acyclic_of_rank {registry : Registry} {root : String} (rank : FieldType → Nat)
    (h : ∀ ty part, registry.Reaches root ty → registry.Part ty part → rank part < rank ty) :
    registry.Acyclic root := by
  intro name hname hcycle
  have hbelow : ∀ ty, Relation.TransGen registry.Part (.record name) ty →
      registry.Reaches root ty ∧ rank ty < rank (.record name) := by
    intro ty hty
    induction hty with
    | single hpart => exact ⟨hname.part hpart, h _ _ hname hpart⟩
    | tail _ hpart ih => exact ⟨ih.1.part hpart, (h _ _ ih.1 hpart).trans ih.2⟩
  exact absurd (hbelow _ hcycle).2 (lt_irrefl _)

/-- A record that a further level is left for has a field with a format. Decoding the value of the
field takes that level, whereas compiling the format takes none. -/
def Registry.FormatMet (registry : Registry) (root : String) (limit left : Nat) : Prop :=
  ∃ name definition field, registry.Meets root limit (left + 1) (.record name) ∧
    registry.record name = .ok definition ∧ field ∈ definition.visibleFields ∧
      field.format ≠ none

/-- The value of a field with a format has no level left. -/
def Registry.FormatBelowLimit (registry : Registry) (root : String) (limit : Nat) : Prop :=
  registry.FormatMet root limit 0

variable {registry : Registry} {root : String} {options : SchemaOptions} {start : RuleHandle}

section

open Plan

/-- A type that is compiled with as many levels left, inside records that it is a part of. -/
def Registry.CompiledAt (registry : Registry) (options : SchemaOptions) (left : Nat)
    (ty : FieldType) : Prop :=
  ∃ stack, (∀ name ∈ stack, Relation.TransGen registry.Part (.record name) ty) ∧
    ∃ handle, (Plan.type left ⟨registry, options, stack⟩ ty).outcome = .ok handle

/-- The fields of a record that is compiled, and not under construction further out. -/
theorem field_outcomes {left : Nat} {stack : List String} {name : String} {handle : RuleHandle}
    (hstack : name ∉ stack)
    (h : (Plan.type (left + 1) ⟨registry, options, stack⟩ (.record name)).outcome = .ok handle)
    {definition : RecordSchema} (hrecord : registry.record name = .ok definition) :
    ∀ f ∈ definition.visibleFields, ∃ rule,
      (field (Plan.type left) ⟨registry, options, stack ++ [name]⟩ f).outcome = .ok rule := by
  obtain ⟨hmem, -⟩ | ⟨definition', hrecord', hbody, -⟩ := object_cases h (List.Subset.refl _)
  · exact absurd hmem hstack
  · cases hrecord.symm.trans hrecord'
    obtain ⟨rows, hrows, -⟩ := outcome_of_fragment hbody
    intro f hf
    obtain ⟨row, -, hrow⟩ := exists_of_forall₂ (mapM_outcome_ok_iff.1 hrows).flip f hf
    obtain ⟨rule, hrule, -⟩ := bind_outcome_ok_iff.1 hrow
    exact ⟨rule, hrule⟩

theorem outcome_of_field {left : Nat} {site : CompileSite} {f : Field} {rule : RuleHandle}
    (h : (field (Plan.type left) site f).outcome = .ok rule) :
    f.checkOverride = .ok () ∧
      (f.format = none → (Plan.type left site f.type).outcome = .ok rule) := by
  obtain ⟨_, hcheck, h⟩ := bind_outcome_ok_iff.1 h
  refine ⟨hcheck, fun hnone => ?_⟩
  rwa [hnone] at h

section

variable (hok : (schemaPlan registry root options).outcome = .ok start)

include hok

/-- Without recursion the compiler has met every type with the levels that decoding has left there,
unless it is the type of a field with a format. -/
theorem compiledAt_of_meets (hacyclic : registry.Acyclic root) {left : Nat} {ty : FieldType}
    (h : registry.Meets root options.maxDepth left ty) :
    registry.CompiledAt options left ty ∨
      ty = .string ∧ registry.FormatMet root options.maxDepth left := by
  induction h with
  | root =>
    obtain ⟨definition, -, hobject⟩ := bind_outcome_ok_iff.1 hok
    exact .inl ⟨[], by simp, start, hobject⟩
  | element _ ih =>
    obtain ⟨stack, hstack, handle, houtcome⟩ := ih.resolve_right (by simp)
    obtain ⟨inner, hinner, -⟩ := outcome_of_fragment houtcome
    exact .inl ⟨stack, fun name hname => (hstack name hname).tail .element, inner, hinner⟩
  | item _ hitem ih =>
    obtain ⟨stack, hstack, handle, houtcome⟩ := ih.resolve_right (by simp)
    obtain ⟨_, -, houtcome⟩ := bind_outcome_ok_iff.1 houtcome
    obtain ⟨members, hmembers, -⟩ := outcome_of_fragment houtcome
    obtain ⟨member, -, hmember⟩ :=
      exists_of_forall₂ (mapM_outcome_ok_iff.1 hmembers).flip _ hitem
    exact .inl ⟨stack, fun name hname => (hstack name hname).tail (.item hitem), member, hmember⟩
  | @field left name definition f hname hrecord hfield ih =>
    obtain ⟨stack, hstack, handle, houtcome⟩ := ih.resolve_right (by simp)
    -- A record that is under construction would be a part of itself.
    have hnew : name ∉ stack := fun hmem => hacyclic name hname.reaches (hstack name hmem)
    obtain ⟨rule, hrule⟩ := field_outcomes hnew houtcome hrecord f hfield
    obtain ⟨hcheck, htype⟩ := outcome_of_field hrule
    by_cases hformat : f.format = none
    · refine .inl ⟨stack ++ [name], fun other hother => ?_, rule, htype hformat⟩
      rcases List.mem_append.1 hother with hother | hother
      · exact (hstack other hother).tail (.field hrecord hfield)
      · obtain rfl := List.mem_singleton.1 hother
        exact .single (.field hrecord hfield)
    · exact .inr ⟨Field.eq_string_of_format hcheck hformat, name, definition, f, hname, hrecord,
        hfield, hformat⟩

theorem formatBelowLimit_of_meets (hacyclic : registry.Acyclic root) {ty : FieldType}
    (h : registry.Meets root options.maxDepth 0 ty) :
    registry.FormatBelowLimit root options.maxDepth := by
  rcases compiledAt_of_meets hok hacyclic h with ⟨stack, -, handle, houtcome⟩ | ⟨-, hformat⟩
  · cases houtcome
  · exact hformat

end

end

/-- A decoding that nests too deep. -/
def Exceeds {α : Type} (limit : Nat) (result : Decoding α) : Prop :=
  ∃ path, result = .error (.depthExceeded path limit)

section

variable {α β : Type} {limit : Nat} {result : Decoding α}

theorem Exceeds.bind {f : α → Decoding β} (h : Exceeds limit result) :
    Exceeds limit (result >>= f) := by
  obtain ⟨path, rfl⟩ := h
  exact ⟨path, rfl⟩

/-- One of several that nests too deep is found, unless another is found before it. -/
theorem Exceeds.mapM {f : α → Decoding β} {as : List α} {a : α} (ha : a ∈ as)
    (h : Exceeds limit (f a)) (hfits : ∀ b ∈ as, Fits limit (f b)) :
    Exceeds limit (as.mapM f) := by
  induction as with
  | nil => cases ha
  | cons first rest ih =>
    obtain ⟨hfirst, hrest⟩ := List.forall_mem_cons.1 hfits
    rw [List.mapM_cons]
    rcases List.mem_cons.1 ha with rfl | ha
    · exact h.bind
    · rcases hfirst with ⟨b, hb⟩ | hexceeds
      · rw [hb]
        exact (ih ha hrest).bind (f := fun bs => pure (b :: bs))
      · exact Exceeds.bind hexceeds

theorem Exceeds.map {f : α → β} (h : Exceeds limit result) : Exceeds limit (f <$> result) := by
  rw [map_eq_pure_bind]
  exact h.bind

end

/-- A payload for a type that goes into everything the type consists of, down to the last level. -/
def Registry.filled (registry : Registry) : Nat → FieldType → Json
  | 0, _ => .null
  | left + 1, ty =>
    match ty with
    | .int | .float => .number (.int 0)
    | .string => .string ""
    | .bool => .bool false
    | .list element => .array [registry.filled left element]
    | .tuple items => .array (items.map (registry.filled left))
    | .literal l => l.toJson
    | .union (.literal l :: _) => l.toJson
    | .record name =>
      match registry.record name with
      | .ok definition =>
        .ofMembers (definition.visibleFields.map fun f => (f.name, registry.filled left f.type))
      | .error _ => .null
    | _ => .null

namespace PayloadDecoder

variable {site : DecodeSite} {other : String}

/-- Items that are made for their types, as steps of their own. -/
theorem items_map {decode : TypeDecoder} (i : Nat) (types : List FieldType)
    (value : FieldType → Json) :
    items decode site other i types (types.map value) =
      (types.zipIdx i).mapM fun t => decode (site.inside (.index t.2)) other t.1 (value t.1) := by
  induction types generalizing i with
  | nil => rfl
  | cons ty types ih => rw [List.map_cons, items, ih, List.zipIdx_cons, List.mapM_cons]

theorem type_list (left : Nat) (element : FieldType) (value : Json) :
    type (left + 1) site other (.list element) (.array [value]) =
      (fun d => .list [d]) <$> type left (site.inside (.index 0)) other element value :=
  calc type (left + 1) site other (.list element) (.array [value])
    _ = .list <$> items (type left) site other 0 [element] [value] := by
      rw [type_succ, map_eq_pure_bind]
      rfl
    _ = .list <$> [(element, 0)].mapM fun t =>
        type left (site.inside (.index t.2)) other t.1 value :=
      congrArg (DecodedValue.list <$> ·) (items_map 0 [element] fun _ => value)
    _ = _ := by simp

theorem type_tuple (left : Nat) {types : List FieldType} (hcheck : checkTuple types = .ok ())
    (value : FieldType → Json) :
    type (left + 1) site other (.tuple types) (.array (types.map value)) =
      .tuple <$> types.zipIdx.mapM fun t =>
        type left (site.inside (.index t.2)) other t.1 (value t.1) :=
  calc type (left + 1) site other (.tuple types) (.array (types.map value))
    _ = if (types.map value).length = types.length then do
          let decoded ← items (type left) site other 0 types (types.map value)
          return .tuple decoded
        else throw (.arity site.path types.length (types.map value)) := by
      rw [type_succ, typeLevel, hcheck]
      rfl
    _ = .tuple <$> items (type left) site other 0 types (types.map value) := by
      rw [if_pos (List.length_map _), map_eq_pure_bind]
    _ = _ := by rw [items_map]

/-- A record of distinct names, decoded from an object that is made for its fields. -/
theorem object_ofMembers {decode : TypeDecoder} {name : String} {definition : RecordSchema}
    (hrecord : site.registry.record name = .ok definition)
    (hcheck : ∀ f ∈ definition.visibleFields, f.checkOverride = .ok ())
    (hdistinct : (definition.visibleFields.map Field.name).Nodup) (value : FieldType → Json) :
    object decode site other name
        (.ofMembers (definition.visibleFields.map fun f => (f.name, value f.type))) =
      .record name <$> definition.visibleFields.mapM fun f =>
        (f.name, ·) <$> decode (site.inside (.field f.name)) other f.type (value f.type) := by
  obtain ⟨members, hmembers, hkept⟩ :=
    membersKept_ofMembers (definition.visibleFields.map fun f => (f.name, value f.type))
  have hlookup : ∀ f ∈ definition.visibleFields, members.lookup f.name = some (value f.type) :=
    fun f hf => hkept (by simpa [Function.comp_def] using hdistinct) _
      (List.mem_map_of_mem (f := fun f : Field => (f.name, value f.type)) hf)
  have hfields : definition.visibleFields.mapM (field decode site other · members) =
      definition.visibleFields.mapM fun f =>
        (f.name, ·) <$> decode (site.inside (.field f.name)) other f.type (value f.type) := by
    refine mapM_congr fun f hf => ?_
    rw [field, hcheck f hf, hlookup f hf, map_eq_pure_bind]
    rfl
  rw [hmembers, object, hrecord, map_eq_pure_bind, ← hfields]
  rfl

end PayloadDecoder

theorem Literal.holds_toJson (l : Literal) : l.holds l.toJson = true := Literal.holds_iff.2 rfl

section

open PayloadDecoder

variable (hf : registry.factories = ∅)
  (hok : (schemaPlan registry root options).outcome = .ok start)
  (hdistinct : registry.NamesDistinct root)

include hf hok hdistinct

/-- What has been made for a record is decoded field by field. -/
theorem type_record {left : Nat} {name : String} (hname : registry.Reaches root (.record name))
    (hcovered : registry.Covered root options (.record name)) {definition : RecordSchema}
    (hrecord : registry.record name = .ok definition) {site : DecodeSite}
    (hsite : site.registry = registry) (other : String) :
    ∃ other', PayloadDecoder.type (left + 1) site other (.record name)
        (registry.filled (left + 1) (.record name)) =
      .record name <$> definition.visibleFields.mapM fun f => (f.name, ·) <$>
        PayloadDecoder.type left (site.inside (.field f.name)) other' f.type
          (registry.filled left f.type) := by
  have hvalue : registry.filled (left + 1) (.record name) =
      .ofMembers (definition.visibleFields.map fun f => (f.name, registry.filled left f.type)) := by
    rw [Registry.filled, hrecord]
  obtain ⟨other', hobject⟩ := recordField_eq (levels left) site (by rw [hsite]; exact hf)
    other name (registry.filled (left + 1) (.record name))
  refine ⟨other', ?_⟩
  rw [type_succ]
  refine hobject.trans ?_
  rw [hvalue]
  exact object_ofMembers (by rw [hsite, hrecord]) (fun f hf => (hcovered.field hok hrecord hf).1)
    (hdistinct name definition hname hrecord) (registry.filled left)

/-- A value that has been made for a type is accepted, as far as it does not nest too deep. -/
theorem filled_fits {left : Nat} {ty : FieldType} (hty : registry.Reaches root ty)
    (hcovered : registry.Covered root options ty) (site : DecodeSite)
    (hsite : site.registry = registry) (other : String) :
    Fits site.options.maxDepth
      (PayloadDecoder.type left site other ty (registry.filled left ty)) := by
  induction left generalizing ty site other with
  | zero => exact .inr ⟨site.path, rfl⟩
  | succ left ih =>
    cases ty with
    | int | float | string | bool => rw [type_succ]; exact .ok _
    | variadic => exact absurd rfl hcovered.ne_marker.1
    | unknownList => exact absurd rfl hcovered.ne_marker.2
    | list element =>
      rw [Registry.filled, type_list]
      exact (ih (.element hty) hcovered.element (site.inside (.index 0)) hsite other).map
    | tuple types =>
      obtain ⟨hcheck, hitems⟩ := hcovered.items
      rw [Registry.filled, type_tuple left hcheck]
      refine Fits.map (.mapM fun t ht => ?_)
      have hitem : t.1 ∈ types := List.fst_mem_of_mem_zipIdx ht
      exact ih (.item hty hitem) (hitems t.1 hitem) (site.inside (.index t.2)) hsite other
    | literal l =>
      rw [type_succ]
      exact member_fits (List.mem_singleton.2 rfl) l.holds_toJson
    | union members =>
      obtain ⟨literals, hliterals⟩ := hcovered.literals
      obtain ⟨hne, rfl⟩ := unionLiterals_eq_ok hliterals
      obtain ⟨l, rest, rfl⟩ := List.exists_cons_of_ne_nil hne
      rw [type_succ, PayloadDecoder.typeLevel]
      simp only [hliterals]
      exact member_fits List.mem_cons_self l.holds_toJson
    | record name =>
      obtain ⟨definition, hrecord⟩ := hcovered.record hok
      obtain ⟨other', htype⟩ := type_record hf hok hdistinct hty hcovered hrecord hsite other
      rw [htype]
      refine Fits.map (.mapM fun f hfield => Fits.map ?_)
      exact ih (.field hty hrecord hfield) (hcovered.field hok hrecord hfield).2
        (site.inside (.field f.name)) hsite other'

/-- Where decoding can be at a type, the value made for the record at the root leads there: if the
one made for the type nests too deep, so does that of the root. -/
theorem exceeds_of_meets {left : Nat} {ty : FieldType}
    (h : registry.Meets root options.maxDepth left ty)
    (hexceeds : ∀ site other, site.registry = registry → site.options = options →
      Exceeds options.maxDepth
        (PayloadDecoder.type left site other ty (registry.filled left ty))) :
    Exceeds options.maxDepth (decodeRecord registry root options
      (registry.filled (options.maxDepth + 1) (.record root))) := by
  induction h with
  | root =>
    have hroot := hexceeds ⟨registry, options, []⟩ root rfl rfl
    rw [type_succ, PayloadDecoder.typeLevel, recordField, if_pos rfl] at hroot
    rw [decodeRecord_eq hf root]
    exact hroot
  | element _ ih =>
    refine ih fun site other hsite hoptions => ?_
    rw [Registry.filled, type_list]
    exact (hexceeds (site.inside (.index 0)) other hsite hoptions).map
  | @item left items item hmeets hitem ih =>
    refine ih fun site other hsite hoptions => ?_
    obtain ⟨hcheck, hitems⟩ := (covered_of_meets hok hmeets).items
    obtain ⟨i, hi⟩ := List.mem_iff_getElem?.1 hitem
    rw [Registry.filled, type_tuple left hcheck]
    refine Exceeds.map (.mapM (List.mk_mem_zipIdx_iff_getElem?.2 hi) ?_ fun t ht => ?_)
    · exact hexceeds (site.inside (.index i)) other hsite hoptions
    · have hmem : t.1 ∈ items := List.fst_mem_of_mem_zipIdx ht
      rw [← hoptions]
      exact filled_fits hf hok hdistinct (.item hmeets.reaches hmem) (hitems t.1 hmem)
        (site.inside (.index t.2)) hsite other
  | @field left name definition f hmeets hrecord hfield ih =>
    refine ih fun site other hsite hoptions => ?_
    have hcovered := covered_of_meets hok hmeets
    obtain ⟨other', htype⟩ :=
      type_record hf hok hdistinct hmeets.reaches hcovered hrecord hsite other
    rw [htype]
    refine Exceeds.map (.mapM hfield (Exceeds.map ?_) fun g hg => Fits.map ?_)
    · exact hexceeds (site.inside (.field f.name)) other' hsite hoptions
    · rw [← hoptions]
      exact filled_fits hf hok hdistinct (.field hmeets.reaches hrecord hg)
        (hcovered.field hok hrecord hg).2 (site.inside (.field g.name)) hsite other'

end

/-- Decoding by a schema that compiles, with the options that it is compiled with. It runs into no
schema error. Without recursion, it nests too deep only if a field with a format is below the last
level; and if there is one, some payload reaches it, where the names of fields are distinct. -/
theorem decodeRecord_of_compile (hf : registry.factories = ∅) {s : Session}
    (hcompile : Session.compile {} registry root options = (.ok start, s)) :
    (∀ value e, decodeRecord registry root options value ≠ .error (.schema e)) ∧
      (registry.Acyclic root →
        (¬registry.FormatBelowLimit root options.maxDepth → ∀ value path limit,
          decodeRecord registry root options value ≠ .error (.depthExceeded path limit)) ∧
        (registry.NamesDistinct root → registry.FormatBelowLimit root options.maxDepth →
          ∃ value path, decodeRecord registry root options value =
            .error (.depthExceeded path options.maxDepth))) := by
  obtain ⟨hok, -⟩ := Session.built_of_compile hf hcompile
  refine ⟨fun value => decodeRecord_ne_schema hok hf options value, fun hacyclic =>
    ⟨fun hnone value path limit he => ?_, fun hdistinct hformat => ?_⟩⟩
  · obtain ⟨ty, hmeets⟩ := PayloadDecoder.decodeRecord_blames hf root options value _ he
    exact hnone (formatBelowLimit_of_meets hok hacyclic hmeets)
  · obtain ⟨name, definition, f, hmeets, hrecord, hfield, -⟩ := hformat
    refine ⟨_, exceeds_of_meets hf hok hdistinct (.field hmeets hrecord hfield) ?_⟩
    intro site other _ hoptions
    exact ⟨site.path, by rw [← hoptions]; rfl⟩

/-- A record inside another one, with a mail address for its only field. -/
def contact : Registry where
  records := ((∅ : Std.ExtTreeMap String RecordSchema).insert "Mail"
    ⟨[⟨"address", .string, false, some .email⟩], none⟩).insert "Person"
    ⟨[⟨"mail", .record "Mail", false, none⟩], none⟩

theorem record_contact {name : String} {definition : RecordSchema}
    (h : contact.record name = .ok definition) :
    (name = "Person" ∧ definition = ⟨[⟨"mail", .record "Mail", false, none⟩], none⟩) ∨
      (name = "Mail" ∧ definition = ⟨[⟨"address", .string, false, some .email⟩], none⟩) := by
  simp only [Registry.record, contact, Std.ExtTreeMap.getElem?_insert] at h
  split_ifs at h with hperson hmail
  · exact .inl ⟨(Std.LawfulEqOrd.eq_of_compare hperson).symm, (Except.ok.inj h).symm⟩
  · exact .inr ⟨(Std.LawfulEqOrd.eq_of_compare hmail).symm, (Except.ok.inj h).symm⟩
  · simp at h

theorem contact_namesDistinct : contact.NamesDistinct "Person" := by
  intro name definition _ hrecord
  rcases record_contact hrecord with ⟨-, rfl⟩ | ⟨-, rfl⟩ <;> exact List.nodup_singleton _

theorem field_contact {name : String} {definition : RecordSchema} {f : Field}
    (hrecord : contact.record name = .ok definition) (hf : f ∈ definition.visibleFields) :
    (name = "Person" ∧ f = ⟨"mail", .record "Mail", false, none⟩) ∨
      (name = "Mail" ∧ f = ⟨"address", .string, false, some .email⟩) := by
  rcases record_contact hrecord with ⟨hname, rfl⟩ | ⟨hname, rfl⟩
  · exact .inl ⟨hname, List.mem_singleton.1 hf⟩
  · exact .inr ⟨hname, List.mem_singleton.1 hf⟩

theorem meets_contact {limit left : Nat} {ty : FieldType}
    (h : contact.Meets "Person" limit left ty) :
    (left = limit + 1 ∧ ty = .record "Person") ∨ (left = limit ∧ ty = .record "Mail") ∨
      (left + 1 = limit ∧ ty = .string) := by
  induction h with
  | root => exact .inl ⟨rfl, rfl⟩
  | element _ ih => simp at ih
  | item _ _ ih => simp at ih
  | field _ hrecord hfield ih =>
    rcases field_contact hrecord hfield with ⟨rfl, rfl⟩ | ⟨rfl, rfl⟩ <;> simp at ih ⊢ <;> omega

theorem contact_acyclic : contact.Acyclic "Person" := by
  have hreaches : ∀ ty, contact.Reaches "Person" ty →
      ty = .record "Person" ∨ ty = .record "Mail" ∨ ty = .string := by
    intro ty hty
    induction hty with
    | root => exact .inl rfl
    | element _ ih => simp at ih
    | item _ _ ih => simp at ih
    | member _ _ ih => simp at ih
    | field _ hrecord hfield _ =>
      rcases field_contact hrecord hfield with ⟨-, rfl⟩ | ⟨-, rfl⟩ <;> simp
  refine Registry.acyclic_of_rank
    (fun ty => if ty = .record "Person" then 2 else if ty = .record "Mail" then 1 else 0)
    fun ty part hty hpart => ?_
  cases hpart with
  | element => exact absurd (hreaches _ hty) (by simp)
  | item _ => exact absurd (hreaches _ hty) (by simp)
  | member _ => exact absurd (hreaches _ hty) (by simp)
  | field hrecord hfield =>
    rcases field_contact hrecord hfield with ⟨rfl, rfl⟩ | ⟨rfl, rfl⟩ <;> simp

theorem formatBelowLimit_contact {limit : Nat} :
    contact.FormatBelowLimit "Person" limit ↔ limit = 1 := by
  constructor
  · rintro ⟨name, definition, f, hmeets, hrecord, hfield, hformat⟩
    rcases field_contact hrecord hfield with ⟨rfl, rfl⟩ | ⟨rfl, rfl⟩
    · exact absurd rfl hformat
    · simpa [eq_comm] using meets_contact hmeets
  · rintro rfl
    have hperson : contact.record "Person" =
      .ok ⟨[⟨"mail", .record "Mail", false, none⟩], none⟩ := by decide +kernel
    have hmail : contact.record "Mail" =
      .ok ⟨[⟨"address", .string, false, some .email⟩], none⟩ := by decide +kernel
    exact ⟨"Mail", _, _, .field .root hperson (List.mem_singleton.2 rfl), hmail,
      List.mem_singleton.2 rfl, by simp⟩

theorem compile_contact {limit : Nat} (h : limit = 1 ∨ limit = 2) :
    (Session.compile {} contact "Person" { maxDepth := limit }).1 =
      .ok ⟨"__bjo_bebf258080551815_decl"⟩ := by
  rcases h with rfl | rfl <;> decide +kernel

/-- Two levels are enough for the inner record, whereas with a single one some payload nests too
deep. -/
theorem contact_decoded :
    ((∀ value e, decodeRecord contact "Person" { maxDepth := 2 } value ≠ .error (.schema e)) ∧
      ∀ value path limit, decodeRecord contact "Person" { maxDepth := 2 } value ≠
        .error (.depthExceeded path limit)) ∧
    ∃ value path, decodeRecord contact "Person" { maxDepth := 1 } value =
      .error (.depthExceeded path 1) := by
  have hone := eq_mk_of_fst (compile_contact (.inl rfl))
  have htwo := eq_mk_of_fst (compile_contact (.inr rfl))
  obtain ⟨hschema, hdepth⟩ := decodeRecord_of_compile (by rfl) htwo
  have hnone : ¬contact.FormatBelowLimit "Person" 2 := by simp [formatBelowLimit_contact]
  refine ⟨⟨hschema, (hdepth contact_acyclic).1 hnone⟩, ?_⟩
  exact ((decodeRecord_of_compile (by rfl) hone).2 contact_acyclic).2 contact_namesDistinct
    (formatBelowLimit_contact.2 rfl)

/-- With a single level the mail address in the inner record is compiled, and never decoded. -/
theorem contact_nests_too_deep :
    (∃ s, Session.compile {} contact "Person" { maxDepth := 1 } =
      (.ok ⟨"__bjo_bebf258080551815_decl"⟩, s)) ∧ contact.Acyclic "Person" ∧
    decodeRecord contact "Person" { maxDepth := 1 }
      (.object [("mail", .object [("address", .string "a@b.cd")])]) =
        .error (.depthExceeded [.field "mail", .field "address"] 1) := by
  refine ⟨⟨_, eq_mk_of_fst (compile_contact (.inl rfl))⟩, contact_acyclic, ?_⟩
  rfl

end RecordGrammar
