import RecordGrammar.Proofs.CompilePlan
import Mathlib.Data.List.Forall2

/-! # Which acts a plan is made of -/

namespace RecordGrammar

/-- The types that can be reached from a record through visible fields. -/
inductive Registry.Reaches (registry : Registry) (root : String) : FieldType → Prop where
  | root : registry.Reaches root (.record root)
  | element {element} : registry.Reaches root (.list element) → registry.Reaches root element
  | item {items item} : registry.Reaches root (.tuple items) → item ∈ items →
      registry.Reaches root item
  | member {members member} : registry.Reaches root (.union members) → member ∈ members →
      registry.Reaches root member
  | field {name definition field} : registry.Reaches root (.record name) →
      registry.record name = .ok definition → field ∈ definition.visibleFields →
      registry.Reaches root field.type

/-- The visible fields of the records that can be reached from a record. -/
def Registry.ReachesField (registry : Registry) (root : String) (field : Field) : Prop :=
  ∃ name definition, registry.Reaches root (.record name) ∧
    registry.record name = .ok definition ∧ field ∈ definition.visibleFields

theorem Registry.ReachesField.type {registry : Registry} {root : String} {field : Field}
    (h : registry.ReachesField root field) : registry.Reaches root field.type := by
  obtain ⟨name, definition, hname, hdefinition, hfield⟩ := h
  exact .field hname hdefinition hfield

/-- The handles that acts have produced. -/
def KnownIn (acts : List Act) (handle : RuleHandle) : Prop :=
  (∃ f, .fragment f ∈ acts ∧ handle = f.handle) ∨
    ∃ name, .forward name ∈ acts ∧ handle = ⟨forwardId name⟩

theorem KnownIn.mono {as bs : List Act} {handle : RuleHandle} (h : KnownIn as handle)
    (hsub : as ⊆ bs) : KnownIn bs handle :=
  h.imp (fun ⟨f, hf, he⟩ => ⟨f, hsub hf, he⟩) fun ⟨name, hn, he⟩ => ⟨name, hsub hn, he⟩

/-- What the fragments of a schema owe to it, and to acts that built what they consist of. -/
def Fragment.From (registry : Registry) (root : String) (acts : List Act) : Fragment → Prop
  | .array inner => KnownIn acts inner
  | .tuple members => ∀ m ∈ members, KnownIn acts m
  | .enumeration literals => literals ≠ [] ∧ ∀ l ∈ literals, registry.Reaches root (.literal l)
  | .object rows => ∀ row ∈ rows, KnownIn acts row.2 ∧
      ∃ field, registry.ReachesField root field ∧ field.name = row.1
  | .inQuotes inner => KnownIn acts inner ∧
      ∃ field, registry.ReachesField root field ∧ field.format.isSome
  | .maskedTime mask => ∃ field, registry.ReachesField root field ∧ field.format = some (.time mask)
  | .mailAddress => ∃ field, registry.ReachesField root field ∧ field.format = some .email
  | _ => True

theorem mapM_memberLiteral {members : List FieldType} {literals : List Literal}
    (h : members.mapM memberLiteral = .ok literals) : members = literals.map .literal := by
  induction members generalizing literals with
  | nil =>
    cases h
    rfl
  | cons member members ih =>
    rw [List.mapM_cons] at h
    cases member with
    | literal value =>
      cases hrest : members.mapM memberLiteral with
      | error e => simp [memberLiteral, hrest, bind, Except.bind] at h
      | ok rest =>
        simp only [memberLiteral, hrest, bind, Except.bind, pure, Except.pure] at h
        cases h
        simp [ih hrest]
    | _ => simp [memberLiteral, bind, Except.bind] at h

/-- A union that is accepted is one of its literals, and it has some. -/
theorem unionLiterals_eq_ok {members : List FieldType} {literals : List Literal}
    (h : unionLiterals members = .ok literals) :
    literals ≠ [] ∧ members = literals.map .literal := by
  unfold unionLiterals at h
  cases hm : members.mapM memberLiteral with
  | error e => simp [hm, bind, Except.bind] at h
  | ok all =>
    simp only [hm, bind, Except.bind] at h
    cases all with
    | nil => cases h
    | cons first rest =>
      simp only at h
      split at h
      · cases h
      · cases h
        exact ⟨by simp, mapM_memberLiteral hm⟩

/-- What is wrong with a schema as it stands: not that it comes back to a record, and nothing that a
table has refused. -/
def SchemaError.Static : SchemaError → Prop
  | .cycle _ => False
  | .rule _ => False
  | _ => True

section Checks

variable {e : SchemaError}

theorem Registry.record_static (registry : Registry) (name : String)
    (h : registry.record name = .error e) : e.Static := by
  unfold Registry.record at h
  cases hname : registry.records[name]? with
  | none =>
    rw [hname] at h
    cases h
    trivial
  | some definition =>
    rw [hname] at h
    cases h

theorem Field.checkOverride_static (f : Field) (h : f.checkOverride = .error e) : e.Static := by
  unfold Field.checkOverride at h
  split at h
  · cases h
    trivial
  · cases h

theorem checkTuple_static (items : List FieldType) (h : checkTuple items = .error e) :
    e.Static := by
  unfold checkTuple at h
  split at h
  · cases h
    trivial
  · split at h
    · cases h
      trivial
    · cases h

theorem mapM_memberLiteral_static (members : List FieldType)
    (h : members.mapM memberLiteral = .error e) : e.Static := by
  induction members with
  | nil => cases h
  | cons member members ih =>
    rw [List.mapM_cons] at h
    cases member with
    | literal value =>
      cases hrest : members.mapM memberLiteral with
      | ok rest => simp [hrest, memberLiteral, bind, Except.bind, pure, Except.pure] at h
      | error e' =>
        simp only [hrest, memberLiteral, bind, Except.bind] at h
        cases h
        exact ih hrest
    | _ =>
      simp only [memberLiteral, bind, Except.bind] at h
      cases h
      trivial

theorem unionLiterals_static (members : List FieldType) (h : unionLiterals members = .error e) :
    e.Static := by
  unfold unionLiterals at h
  cases hmembers : members.mapM memberLiteral with
  | error e' =>
    simp only [hmembers, bind, Except.bind] at h
    cases h
    exact mapM_memberLiteral_static members hmembers
  | ok literals =>
    simp only [hmembers, bind, Except.bind] at h
    cases literals with
    | nil =>
      cases h
      trivial
    | cons first rest =>
      simp only at h
      split at h
      · cases h
        trivial
      · cases h

end Checks

theorem Fragment.stem_plain (f : Fragment) : PlainId f.stem := by
  have htag : PlainId f.tag := by
    cases f <;> simp only [tag] <;> decide
  refine htag.append ?_
  cases f.canonical? with
  | none => exact fun c hc => by simp at hc
  | some c => exact memoKey_plain c

theorem Fragment.handle_plain (f : Fragment) : PlainId f.handle.id :=
  f.stem_plain.idOf (by decide)

theorem forwardId_plain (name : String) : PlainId (forwardId name) :=
  .idOf (.append (by decide) (memoKey_plain name)) (by decide)

theorem KnownIn.plain {acts : List Act} {handle : RuleHandle} (h : KnownIn acts handle) :
    PlainId handle.id := by
  rcases h with ⟨f, -, rfl⟩ | ⟨name, -, rfl⟩
  · exact f.handle_plain
  · exact forwardId_plain name

theorem exists_of_forall₂ {α β : Type} {R : α → β → Prop} {as : List α} {bs : List β}
    (h : List.Forall₂ R as bs) : ∀ b ∈ bs, ∃ a ∈ as, R a b := by
  induction h with
  | nil => simp
  | @cons a b as bs hab _ ih =>
    refine List.forall_mem_cons.2 ⟨⟨a, List.mem_cons_self, hab⟩, fun b hb => ?_⟩
    obtain ⟨a, ha, hab⟩ := ih b hb
    exact ⟨a, List.mem_cons_of_mem _ ha, hab⟩

theorem map_eq_of_forall₂ {α β γ : Type} {f : α → γ} {g : β → γ} {as : List α} {bs : List β}
    (h : List.Forall₂ (fun a b => f a = g b) as bs) : as.map f = bs.map g := by
  rw [← List.forall₂_eq_eq_eq]
  exact List.forall₂_map_left_iff.2 (List.forall₂_map_right_iff.2 h)

namespace Plan

variable {α β : Type}

theorem mapM_outcome_ok_iff {p : α → Plan β} {as : List α} {bs : List β} :
    (as.mapM p).outcome = .ok bs ↔ List.Forall₂ (fun a b => (p a).outcome = .ok b) as bs := by
  induction as generalizing bs with
  | nil => simp [eq_comm]
  | cons a as ih =>
    rw [List.mapM_cons, bind_outcome_ok_iff]
    constructor
    · rintro ⟨b, hb, hrest⟩
      obtain ⟨bs', hbs', hpure⟩ := bind_outcome_ok_iff.1 hrest
      cases hpure
      exact .cons hb (ih.1 hbs')
    · intro h
      cases h with
      | cons hb hbs =>
        exact ⟨_, hb, bind_outcome_ok_iff.2 ⟨_, ih.2 hbs, rfl⟩⟩

theorem mapM_acts {p : α → Plan β} {as : List α} {bs : List β} (h : (as.mapM p).outcome = .ok bs) :
    (as.mapM p).acts = as.flatMap fun a => (p a).acts := by
  induction as generalizing bs with
  | nil => rfl
  | cons a as ih =>
    rw [List.mapM_cons] at h ⊢
    obtain ⟨b, hb, hrest⟩ := bind_outcome_ok_iff.1 h
    obtain ⟨bs', hbs', hpure⟩ := bind_outcome_ok_iff.1 hrest
    rw [bind_of_outcome_ok hb, bind_of_outcome_ok hbs', ih hbs']
    simp

/-- A plan that ends with a fragment. -/
theorem outcome_of_fragment {p : Plan α} {f : α → Fragment} {r : RuleHandle}
    (h : (p >>= fun a => fragment (f a)).outcome = .ok r) :
    ∃ a, p.outcome = .ok a ∧ r = (f a).handle ∧
      (p >>= fun a => fragment (f a)).acts = p.acts ++ [.fragment (f a)] := by
  obtain ⟨a, ha, hr⟩ := bind_outcome_ok_iff.1 h
  exact ⟨a, ha, (Except.ok.inj hr).symm, by rw [bind_of_outcome_ok ha]; rfl⟩

theorem known_of_fragment {p : Plan α} {f : α → Fragment} {r : RuleHandle}
    (h : (p >>= fun a => fragment (f a)).outcome = .ok r) :
    KnownIn (p >>= fun a => fragment (f a)).acts r := by
  obtain ⟨a, -, hr, hacts⟩ := outcome_of_fragment h
  exact .inl ⟨f a, by simp [hacts], hr⟩

theorem known_bind {p : Plan α} {f : α → Plan RuleHandle} {r : RuleHandle}
    (hr : (p >>= f).outcome = .ok r)
    (h : ∀ a, p.outcome = .ok a → (f a).outcome = .ok r → KnownIn (f a).acts r) :
    KnownIn (p >>= f).acts r := by
  obtain ⟨a, ha, hr⟩ := bind_outcome_ok_iff.1 hr
  rw [bind_of_outcome_ok ha]
  exact (h a ha hr).mono (List.subset_append_right _ _)

variable {here : CompileSite → FieldType → Plan RuleHandle} {site : CompileSite} {r : RuleHandle}

theorem object_known {name : String} (h : (object here site name).outcome = .ok r) :
    KnownIn (object here site name).acts r := by
  unfold object record at h ⊢
  split at h
  · rename_i hstack
    rw [if_pos hstack]
    split at h
    · rename_i hrecursion
      rw [if_pos hrecursion]
      cases h
      exact .inr ⟨name, List.mem_singleton.2 rfl, rfl⟩
    · cases h
  · rename_i hstack
    rw [if_neg hstack]
    refine known_bind h fun definition _ h => ?_
    obtain ⟨rule, hrule, hr⟩ := bind_outcome_ok_iff.1 h
    cases hr
    rw [bind_of_outcome_ok hrule]
    exact (known_of_fragment hrule).mono (List.subset_append_left _ _)

/-- The handle of a type is one that its acts have produced. -/
theorem type_known {left : Nat} {ty : FieldType} (h : (type left site ty).outcome = .ok r) :
    KnownIn (type left site ty).acts r := by
  cases left with
  | zero => cases h
  | succ left =>
    cases ty with
    | int | float | string | bool | literal value =>
      cases h
      exact .inl ⟨_, List.mem_singleton.2 rfl, rfl⟩
    | variadic | unknownList => cases h
    | list element => exact known_of_fragment h
    | tuple items => exact known_bind h fun _ _ h => known_of_fragment h
    | union members => exact known_of_fragment h
    | record name => exact object_known h

theorem field_known {left : Nat} {f : Field} (h : (field (type left) site f).outcome = .ok r) :
    KnownIn (field (type left) site f).acts r := by
  refine known_bind h fun _ _ h => ?_
  cases hformat : f.format with
  | none =>
    simp only [hformat] at h ⊢
    exact type_known h
  | some format =>
    cases format with
    | time mask =>
      simp only [hformat] at h ⊢
      exact known_of_fragment h
    | email =>
      simp only [hformat] at h ⊢
      exact known_of_fragment h

/-- What a plan for several parts has produced for each of them. -/
theorem mapM_known {p : α → Plan β} {as : List α} {bs : List β} (h : (as.mapM p).outcome = .ok bs)
    {b : β} (hb : b ∈ bs) :
    ∃ a ∈ as, (p a).outcome = .ok b ∧ (p a).acts ⊆ (as.mapM p).acts := by
  obtain ⟨i, hi⟩ := List.getElem?_of_mem hb
  obtain ⟨hlength, hget⟩ := List.forall₂_iff_get.1 (mapM_outcome_ok_iff.1 h)
  obtain ⟨hlt, rfl⟩ := List.getElem?_eq_some_iff.1 hi
  refine ⟨as.get ⟨i, hlength ▸ hlt⟩, List.get_mem _ _, hget i (hlength ▸ hlt) hlt, ?_⟩
  rw [mapM_acts h]
  exact fun act hact => List.mem_flatMap.2 ⟨_, List.get_mem _ _, hact⟩

end Plan

open Plan in
/-- A property of some of the acts of a schema, given the stack they are done at. -/
structure ActInvariant (registry : Registry) (root : String) (options : SchemaOptions)
    (all : List Act) (Φ : List String → List Act → Prop) : Prop where
  nil (stack) : Φ stack []
  append {stack as bs} : Φ stack as → Φ stack bs → Φ stack (as ++ bs)
  fragment (stack) {f} : f.From registry root all → Φ stack [.fragment f]
  forward {stack name} : name ∈ stack → Φ stack [.forward name]
  close {stack name definition left rule} : registry.Reaches root (.record name) →
    registry.record name = .ok definition →
    (objectBody (type left) ⟨registry, options, stack ++ [name]⟩ definition).outcome = .ok rule →
    (objectBody (type left) ⟨registry, options, stack ++ [name]⟩ definition).acts ⊆ all →
    Φ (stack ++ [name])
      (objectBody (type left) ⟨registry, options, stack ++ [name]⟩ definition).acts →
    Φ stack ((objectBody (type left) ⟨registry, options, stack ++ [name]⟩ definition).acts ++
      [.close name rule])

namespace ActInvariant

open Plan

variable {registry : Registry} {root : String} {options : SchemaOptions} {all : List Act}
  {Φ : List String → List Act → Prop} {stack : List String} {α β : Type} {r : RuleHandle}

/-- The acts of a plan that goes through have the property. -/
def Keeps (all : List Act) (Φ : List String → List Act → Prop) (stack : List String)
    (p : Plan α) : Prop :=
  ∀ a, p.outcome = .ok a → p.acts ⊆ all → Φ stack p.acts

theorem keeps_bind (h : ActInvariant registry root options all Φ) {p : Plan α} {f : α → Plan β}
    (hp : Keeps all Φ stack p)
    (hf : ∀ a, p.outcome = .ok a → p.acts ⊆ all → Keeps all Φ stack (f a)) :
    Keeps all Φ stack (p >>= f) := by
  intro b hb hall
  obtain ⟨a, ha, hb⟩ := bind_outcome_ok_iff.1 hb
  rw [bind_of_outcome_ok ha] at hall ⊢
  obtain ⟨hleft, hright⟩ := List.append_subset.1 hall
  exact h.append (hp a ha hleft) (hf a ha hleft b hb hright)

theorem keeps_ofExcept (h : ActInvariant registry root options all Φ)
    (result : Except SchemaError α) : Keeps all Φ stack (ofExcept result) :=
  fun _ _ _ => h.nil stack

theorem keeps_pure (h : ActInvariant registry root options all Φ) (a : α) :
    Keeps all Φ stack (pure a : Plan α) := fun _ _ _ => h.nil stack

theorem keeps_fragment (h : ActInvariant registry root options all Φ) {f : Fragment}
    (hf : f.From registry root all) : Keeps all Φ stack (Plan.fragment f) :=
  fun _ _ _ => h.fragment stack hf

theorem keeps_mapM (h : ActInvariant registry root options all Φ) {p : α → Plan β} {as : List α}
    (hp : ∀ a ∈ as, Keeps all Φ stack (p a)) : Keeps all Φ stack (as.mapM p) :=
  mapM_holds (P := fun _ => Keeps all Φ stack) h.keeps_pure
    (fun _ _ _ hfirst hrest => h.keeps_bind hfirst fun b _ _ => hrest b) hp

/-- The compilations of types below a level have the property. -/
def KeepsTypes (registry : Registry) (root : String) (options : SchemaOptions) (all : List Act)
    (Φ : List String → List Act → Prop) (left : Nat) : Prop :=
  ∀ stack ty, registry.Reaches root ty →
    Keeps all Φ stack (type left ⟨registry, options, stack⟩ ty)

theorem keeps_quoted (h : ActInvariant registry root options all Φ) {f : Field}
    (hf : registry.ReachesField root f) (hformat : f.format.isSome) {inner : Fragment}
    (hinner : inner.From registry root all) :
    Keeps all Φ stack (do Plan.fragment (.inQuotes (← Plan.fragment inner))) := by
  refine h.keeps_bind (h.keeps_fragment hinner) fun handle hi hall => h.keeps_fragment ?_
  cases hi
  exact ⟨.inl ⟨inner, hall (List.mem_singleton.2 rfl), rfl⟩, f, hf, hformat⟩

theorem keeps_field (h : ActInvariant registry root options all Φ) {left : Nat}
    (ih : KeepsTypes registry root options all Φ left) {f : Field}
    (hf : registry.ReachesField root f) :
    Keeps all Φ stack (Plan.field (type left) ⟨registry, options, stack⟩ f) := by
  unfold Plan.field
  refine h.keeps_bind (h.keeps_ofExcept _) fun _ _ _ => ?_
  cases hformat : f.format with
  | none => exact ih stack f.type hf.type
  | some format =>
    cases format with
    | time mask => exact h.keeps_quoted hf (by simp [hformat]) ⟨f, hf, hformat⟩
    | email => exact h.keeps_quoted hf (by simp [hformat]) ⟨f, hf, hformat⟩

theorem keeps_objectBody (h : ActInvariant registry root options all Φ) {left : Nat}
    (ih : KeepsTypes registry root options all Φ left) {name : String}
    {definition : RecordSchema} (hname : registry.Reaches root (.record name))
    (hrecord : registry.record name = .ok definition) :
    Keeps all Φ stack (objectBody (type left) ⟨registry, options, stack⟩ definition) := by
  have hreach {f : Field} (hf : f ∈ definition.visibleFields) : registry.ReachesField root f :=
    ⟨name, definition, hname, hrecord, hf⟩
  refine h.keeps_bind (h.keeps_mapM fun f hf => ?_) fun rows hrows hall =>
    h.keeps_fragment fun row hrow => ?_
  · exact h.keeps_bind (h.keeps_field ih (hreach hf)) fun _ _ _ => h.keeps_pure _
  · obtain ⟨f, hf, houtcome, hsub⟩ := mapM_known hrows hrow
    obtain ⟨rule, hrule, hpure⟩ := bind_outcome_ok_iff.1 houtcome
    cases hpure
    rw [bind_of_outcome_ok hrule] at hsub
    have hacts := List.Subset.trans (List.subset_append_left _ _) (List.Subset.trans hsub hall)
    exact ⟨(field_known hrule).mono hacts, f, hreach hf, rfl⟩

theorem keeps_object (h : ActInvariant registry root options all Φ) {left : Nat}
    (ih : KeepsTypes registry root options all Φ left) {name : String}
    (hname : registry.Reaches root (.record name)) :
    Keeps all Φ stack (Plan.object (type left) ⟨registry, options, stack⟩ name) := by
  unfold Plan.object Plan.record
  split
  · split
    · exact fun _ _ _ => h.forward ‹_›
    · exact h.keeps_ofExcept _
  · intro r hr hall
    obtain ⟨definition, hdefinition, hr⟩ := bind_outcome_ok_iff.1 hr
    obtain ⟨rule, hrule, hr⟩ := bind_outcome_ok_iff.1 hr
    rw [bind_of_outcome_ok hdefinition, bind_of_outcome_ok hrule] at hall ⊢
    have hbody := (List.append_subset.1 (List.append_subset.1 hall).2).1
    exact h.close hname hdefinition hrule hbody
      (h.keeps_objectBody ih hname hdefinition rule hrule hbody)

theorem keeps_type (h : ActInvariant registry root options all Φ) (left : Nat) :
    KeepsTypes registry root options all Φ left := by
  induction left with
  | zero => exact fun stack ty _ => h.keeps_ofExcept _
  | succ left ih =>
    intro stack ty hty
    cases ty with
    | int | float | string | bool => exact h.keeps_fragment trivial
    | variadic | unknownList => exact h.keeps_ofExcept _
    | list element =>
      refine h.keeps_bind (ih stack element hty.element) fun inner hi hall => h.keeps_fragment ?_
      exact (type_known hi).mono hall
    | tuple items =>
      refine h.keeps_bind (h.keeps_ofExcept _) fun _ _ _ => h.keeps_bind
        (h.keeps_mapM fun item hitem => ih stack item (hty.item hitem)) fun rules hrules hall =>
          h.keeps_fragment fun m hm => ?_
      obtain ⟨item, -, houtcome, hsub⟩ := mapM_known hrules hm
      exact (type_known houtcome).mono (List.Subset.trans hsub hall)
    | literal value => exact h.keeps_fragment ⟨by simp, by simpa using hty⟩
    | union members =>
      refine h.keeps_bind (h.keeps_ofExcept _) fun literals hl _ => h.keeps_fragment ?_
      obtain ⟨hne, rfl⟩ := unionLiterals_eq_ok hl
      exact ⟨hne, fun l hl => hty.member (List.mem_map_of_mem hl)⟩
    | record name => exact h.keeps_object ih hty

/-- The acts of a schema that goes through have the property. -/
theorem schemaPlan
    (h : ActInvariant registry root options (RecordGrammar.schemaPlan registry root options).acts Φ)
    (hr : (RecordGrammar.schemaPlan registry root options).outcome = .ok r) :
    Φ [] (RecordGrammar.schemaPlan registry root options).acts := by
  refine h.keeps_bind (h.keeps_ofExcept _) (fun _ _ _ => ?_) r hr (List.Subset.refl _)
  exact h.keeps_object (h.keeps_type _) .root

end ActInvariant

end RecordGrammar
