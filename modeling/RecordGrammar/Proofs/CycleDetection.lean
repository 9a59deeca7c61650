import RecordGrammar.Proofs.PayloadDepth
import RecordGrammar.Proofs.VisibleSchemas
import Mathlib.Data.List.Chain

/-! # Compiling with recursion switched off

The records under construction form a trail, each referring to the next. Without recursion the
compiler stops where the trail comes back to one of them, and nowhere else on account of it. -/

namespace RecordGrammar

/-- The same options with recursion switched on. -/
abbrev SchemaOptions.permitting (options : SchemaOptions) : SchemaOptions :=
  { options with allowRecursion := true }

/-- A type mentions a record through lists and tuples. -/
inductive FieldType.Mentions (name : String) : FieldType → Prop where
  | record : Mentions name (.record name)
  | element {element} : Mentions name element → Mentions name (.list element)
  | item {items item} : item ∈ items → Mentions name item → Mentions name (.tuple items)

namespace Registry

/-- A record has a visible field whose type mentions the next one. -/
def Refers (registry : Registry) (name next : String) : Prop :=
  ∃ definition field, registry.record name = .ok definition ∧
    field ∈ definition.visibleFields ∧ field.type.Mentions next

/-- A way round from a record back to it on which no other one is met twice. -/
structure Cycle (registry : Registry) (root : String) (path : List String) : Prop where
  returns : ∃ name inner, path = name :: inner ++ [name]
  distinct : path.dropLast.Nodup
  linked : path.IsChain registry.Refers
  reached (name : String) : name ∈ path → registry.Reaches root (.record name)

/-- The records under construction on the way to a type: each refers to the next one, and the last
one to all that the type mentions. -/
structure Trail (registry : Registry) (root : String) (stack : List String) (ty : FieldType) :
    Prop where
  distinct : stack.Nodup
  linked : stack.IsChain registry.Refers
  stack_reached (name : String) : name ∈ stack → registry.Reaches root (.record name)
  reached : registry.Reaches root ty
  refers (name : String) : ty.Mentions name →
    ∀ last ∈ stack.getLast?, registry.Refers last name

end Registry

variable {registry : Registry} {root : String} {options : SchemaOptions} {stack : List String}
  {name : String} {ty : FieldType}

theorem dropWhile_ne_eq_cons (h : name ∈ stack) :
    ∃ inner, stack.dropWhile (· ≠ name) = name :: inner := by
  induction stack with
  | nil => cases h
  | cons first rest ih =>
    by_cases hfirst : first = name
    · exact ⟨rest, by simp [hfirst]⟩
    · obtain ⟨inner, hinner⟩ := ih ((List.mem_cons.1 h).resolve_left (Ne.symm hfirst))
      exact ⟨inner, by rw [List.dropWhile_cons_of_pos (by simpa using hfirst), hinner]⟩

namespace Registry.Trail

theorem start : registry.Trail root [] (.record root) :=
  ⟨List.nodup_nil, .nil, by simp, .root, by simp⟩

theorem element {element : FieldType} (h : registry.Trail root stack (.list element)) :
    registry.Trail root stack element :=
  ⟨h.distinct, h.linked, h.stack_reached, h.reached.element,
    fun name hname => h.refers name (.element hname)⟩

theorem item {items : List FieldType} {item : FieldType}
    (h : registry.Trail root stack (.tuple items)) (hitem : item ∈ items) :
    registry.Trail root stack item :=
  ⟨h.distinct, h.linked, h.stack_reached, h.reached.item hitem,
    fun name hname => h.refers name (.item hitem hname)⟩

/-- The trail with one record more. -/
theorem linked_append (h : registry.Trail root stack (.record name)) {kept : List String}
    (hkept : kept <:+ stack) : (kept ++ [name]).IsChain registry.Refers := by
  refine (h.linked.suffix hkept).append (List.isChain_singleton name) fun last hlast next hnext => ?_
  obtain rfl : name = next := by simpa using hnext
  have hlast : last ∈ stack.getLast? := by
    obtain ⟨before, rfl⟩ := hkept
    have hne : kept ≠ [] := by
      rintro rfl
      simp at hlast
    rwa [List.getLast?_append_of_ne_nil _ hne]
  exact h.refers name .record last hlast

theorem field (h : registry.Trail root stack (.record name)) (hstack : name ∉ stack)
    {definition : RecordSchema} (hrecord : registry.record name = .ok definition) {f : Field}
    (hf : f ∈ definition.visibleFields) : registry.Trail root (stack ++ [name]) f.type where
  distinct := by
    rw [List.nodup_append_comm]
    exact List.nodup_cons.2 ⟨hstack, h.distinct⟩
  linked := h.linked_append (List.suffix_refl stack)
  stack_reached other hother := by
    rcases List.mem_append.1 hother with hother | hother
    · exact h.stack_reached other hother
    · exact List.mem_singleton.1 hother ▸ h.reached
  reached := .field h.reached hrecord hf
  refers next hnext last hlast := by
    obtain rfl : name = last := by simpa using hlast
    exact ⟨definition, f, hrecord, hf, hnext⟩

/-- A trail that comes back to a record under construction has gone round in a cycle. -/
theorem cycle (h : registry.Trail root stack (.record name)) (hstack : name ∈ stack) :
    registry.Cycle root (stack.dropWhile (· ≠ name) ++ [name]) where
  returns := by
    obtain ⟨inner, hinner⟩ := dropWhile_ne_eq_cons hstack
    exact ⟨name, inner, by rw [hinner]⟩
  distinct := by
    rw [List.dropLast_concat]
    exact h.distinct.sublist (List.dropWhile_suffix _).sublist
  linked := h.linked_append (List.dropWhile_suffix _)
  reached other hother := by
    rcases List.mem_append.1 hother with hother | hother
    · exact h.stack_reached other ((List.dropWhile_suffix _).subset hother)
    · exact List.mem_singleton.1 hother ▸ h.reached

end Registry.Trail

namespace Plan

variable {α β : Type}

/-- A plan made with recursion off, beside the one made with recursion on. It ends with a cycle only
where there is one, it is the same plan as far as it goes through, and it never goes back to a
record under construction. -/
structure Guarded (registry : Registry) (root : String) (p p' : Plan α) : Prop where
  cycle (path : List String) : p.outcome = .error (.cycle path) → registry.Cycle root path
  same (a : α) : p.outcome = .ok a → p' = p
  no_forward (name : String) : .forward name ∉ p.acts

namespace Guarded

theorem ofExcept {result : Except SchemaError α} (h : ∀ e, result = .error e → e.Static) :
    Guarded registry root (.ofExcept result) (.ofExcept result) :=
  ⟨fun path hpath => (h (.cycle path) hpath).elim, fun _ _ => rfl, fun _ hname => by cases hname⟩

theorem pure (a : α) : Guarded registry root (Pure.pure a : Plan α) (Pure.pure a) :=
  ⟨fun _ h => (by cases h), fun _ _ => rfl, fun _ h => (by cases h)⟩

theorem fragment (f : Fragment) : Guarded registry root (.fragment f) (.fragment f) :=
  ⟨fun _ h => (by cases h), fun _ _ => rfl, fun _ h => (by simp [Plan.fragment] at h)⟩

theorem bind {p p' : Plan α} {f f' : α → Plan β} (h : Guarded registry root p p')
    (hf : ∀ a, p.outcome = .ok a → Guarded registry root (f a) (f' a)) :
    Guarded registry root (p >>= f) (p' >>= f') := by
  cases hp : p.outcome with
  | error e =>
    refine ⟨fun path hpath => ?_, fun b hb => ?_, fun name hname => ?_⟩
    · rw [bind_of_outcome_error hp] at hpath
      exact h.cycle path (hp.trans (congrArg Except.error (Except.error.inj hpath)))
    · rw [bind_of_outcome_error hp] at hb
      cases hb
    · rw [bind_of_outcome_error hp] at hname
      exact h.no_forward name hname
  | ok a =>
    have hfa := hf a hp
    refine ⟨fun path hpath => ?_, fun b hb => ?_, fun name hname => ?_⟩
    · rw [bind_of_outcome_ok hp] at hpath
      exact hfa.cycle path hpath
    · rw [bind_of_outcome_ok hp] at hb
      rw [h.same a hp, bind_of_outcome_ok hp, bind_of_outcome_ok hp, hfa.same b hb]
    · rw [bind_of_outcome_ok hp] at hname
      exact (List.mem_append.1 hname).elim (h.no_forward name) (hfa.no_forward name)

theorem mapM {p p' : α → Plan β} {as : List α}
    (h : ∀ a ∈ as, Guarded registry root (p a) (p' a)) :
    Guarded registry root (as.mapM p) (as.mapM p') :=
  mapM_related (R := fun _ => Guarded registry root) pure
    (fun _ _ _ _ _ h hf => h.bind fun a _ => hf a) h

end Guarded

end Plan

namespace Plan

section

variable {left : Nat}
  (ih : ∀ {stack ty}, registry.Trail root stack ty → Guarded registry root
    (type left ⟨registry, options, stack⟩ ty) (type left ⟨registry, options.permitting, stack⟩ ty))

include ih

theorem field_guarded {f : Field} (h : registry.Trail root stack f.type) :
    Guarded registry root (field (type left) ⟨registry, options, stack⟩ f)
      (field (type left) ⟨registry, options.permitting, stack⟩ f) := by
  refine .bind (.ofExcept fun _ => f.checkOverride_static) fun _ _ => ?_
  cases f.format with
  | none => exact ih h
  | some format =>
    cases format with
    | time mask => exact .bind (.fragment _) fun inner _ => .fragment (.inQuotes inner)
    | email => exact .bind (.fragment _) fun inner _ => .fragment (.inQuotes inner)

theorem object_guarded (hoff : options.allowRecursion = false)
    (h : registry.Trail root stack (.record name)) :
    Guarded registry root (object (type left) ⟨registry, options, stack⟩ name)
      (object (type left) ⟨registry, options.permitting, stack⟩ name) := by
  unfold object record
  by_cases hstack : name ∈ stack
  · rw [if_pos hstack, if_pos hstack, hoff]
    refine ⟨fun path hpath => ?_, fun _ h => (by cases h), fun _ h => (by cases h)⟩
    cases hpath
    exact h.cycle hstack
  · rw [if_neg hstack, if_neg hstack]
    refine .bind (.ofExcept fun _ => registry.record_static name) fun definition hrecord => ?_
    refine .bind (.bind (.mapM fun f hf => ?_) fun fields _ => .fragment (.object fields))
      fun rule _ => ⟨fun _ h => (by cases h), fun _ _ => rfl, fun _ h => (by simp at h)⟩
    exact .bind (field_guarded ih (h.field hstack hrecord hf)) fun rule _ => .pure (f.name, rule)

end

theorem type_guarded (hoff : options.allowRecursion = false) (left : Nat)
    (h : registry.Trail root stack ty) :
    Guarded registry root (type left ⟨registry, options, stack⟩ ty)
      (type left ⟨registry, options.permitting, stack⟩ ty) := by
  induction left generalizing stack ty with
  | zero =>
    refine .ofExcept fun _ h => ?_
    cases h
    trivial
  | succ left ih =>
    cases ty with
    | int | float | string | bool | literal value => exact .fragment _
    | variadic | unknownList =>
      refine .ofExcept fun _ h => ?_
      cases h
      trivial
    | list element => exact .bind (ih h.element) fun inner _ => .fragment (.array inner)
    | tuple items =>
      exact .bind (.ofExcept fun _ => checkTuple_static items) fun _ _ =>
        .bind (.mapM fun item hitem => ih (h.item hitem)) fun rules _ => .fragment (.tuple rules)
    | union members =>
      exact .bind (.ofExcept fun _ => unionLiterals_static members) fun literals _ =>
        .fragment (.enumeration literals)
    | record name => exact object_guarded ih hoff h

end Plan

theorem schemaPlan_guarded (hoff : options.allowRecursion = false) :
    Plan.Guarded registry root (schemaPlan registry root options)
      (schemaPlan registry root options.permitting) :=
  .bind (.ofExcept fun _ => registry.record_static root) fun _ _ =>
    Plan.object_guarded (fun h => Plan.type_guarded hoff _ h) hoff .start

/-! A schema that goes through with recursion off has none. -/

section Acyclic

open Plan

variable {left : Nat} {handle : RuleHandle} {part : FieldType}

/-- A type with parts that is compiled has them compiled, one level further down and inside the
record that it may be. -/
theorem compiled_part (hoff : options.allowRecursion = false)
    (h : (type left ⟨registry, options, stack⟩ ty).outcome = .ok handle)
    (hpart : registry.Part ty part) :
    (part = .string ∨ ∃ l, part = .literal l) ∨ ∃ left' stack' handle', left = left' + 1 ∧
      (type left' ⟨registry, options, stack'⟩ part).outcome = .ok handle' ∧
        stack ⊆ stack' ∧ ∀ name, ty = .record name → name ∈ stack' := by
  cases left with
  | zero => cases h
  | succ left =>
    cases hpart with
    | element =>
      obtain ⟨inner, hinner, -⟩ := outcome_of_fragment h
      exact .inr ⟨left, stack, inner, rfl, hinner, List.Subset.refl _, by simp⟩
    | item hitem =>
      obtain ⟨_, -, h⟩ := bind_outcome_ok_iff.1 h
      obtain ⟨members, hmembers, -⟩ := outcome_of_fragment h
      obtain ⟨member, -, hmember⟩ :=
        exists_of_forall₂ (mapM_outcome_ok_iff.1 hmembers).flip _ hitem
      exact .inr ⟨left, stack, member, rfl, hmember, List.Subset.refl _, by simp⟩
    | member hmember =>
      obtain ⟨literals, hliterals, -⟩ := outcome_of_fragment h
      obtain ⟨-, rfl⟩ := unionLiterals_eq_ok hliterals
      obtain ⟨l, -, rfl⟩ := List.mem_map.1 hmember
      exact .inl (.inr ⟨l, rfl⟩)
    | @field name definition f hrecord hf =>
      by_cases hstack : name ∈ stack
      · simp only [Plan.type, Plan.typeLevel, Plan.object, Plan.record, if_pos hstack, hoff] at h
        cases h
      · obtain ⟨rule, hrule⟩ := field_outcomes hstack h hrecord f hf
        obtain ⟨hcheck, htype⟩ := outcome_of_field hrule
        by_cases hformat : f.format = none
        · refine .inr ⟨left, stack ++ [name], rule, rfl, htype hformat,
            List.subset_append_left _ _, ?_⟩
          rintro _ ⟨⟩
          exact List.mem_append_right _ (List.mem_singleton.2 rfl)
        · exact .inl (.inl (Field.eq_string_of_format hcheck hformat))

theorem no_part_of_scalar (h : ty = .string ∨ ∃ l, ty = .literal l) : ¬registry.Part ty part := by
  rintro ⟨⟩ <;> simp at h

/-- A type that is compiled leads to none of the records under construction. -/
theorem not_back_to_stack (hoff : options.allowRecursion = false)
    (h : (type left ⟨registry, options, stack⟩ ty).outcome = .ok handle) (hname : name ∈ stack) :
    ¬Relation.ReflTransGen registry.Part ty (.record name) := by
  induction left generalizing stack ty handle with
  | zero => cases h
  | succ left ih =>
    intro hback
    rcases Relation.ReflTransGen.cases_head hback with rfl | ⟨part, hpart, hrest⟩
    · simp only [Plan.type, Plan.typeLevel, Plan.object, Plan.record, if_pos hname, hoff] at h
      cases h
    · rcases compiled_part hoff h hpart with hscalar | ⟨left', stack', handle', hleft, hrule, hsub, -⟩
      · rcases Relation.ReflTransGen.cases_head hrest with rfl | ⟨next, hnext, -⟩
        · simp at hscalar
        · exact no_part_of_scalar hscalar hnext
      · obtain rfl := Nat.succ.inj hleft
        exact ih hrule (hsub hname) hrest

/-- Whatever a schema that is compiled can reach has been compiled, unless it has no parts. -/
theorem compiled_of_reaches (hoff : options.allowRecursion = false)
    (hok : (schemaPlan registry root options).outcome = .ok handle)
    (h : registry.Reaches root ty) : (ty = .string ∨ ∃ l, ty = .literal l) ∨
      ∃ left stack handle, (type left ⟨registry, options, stack⟩ ty).outcome = .ok handle := by
  have hpart {ty part : FieldType} (ih : (ty = .string ∨ ∃ l, ty = .literal l) ∨
      ∃ left stack handle, (type left ⟨registry, options, stack⟩ ty).outcome = .ok handle)
      (hpart : registry.Part ty part) : (part = .string ∨ ∃ l, part = .literal l) ∨
      ∃ left stack handle, (type left ⟨registry, options, stack⟩ part).outcome = .ok handle := by
    rcases ih with hscalar | ⟨left, stack, handle, hrule⟩
    · exact absurd hpart (no_part_of_scalar hscalar)
    · exact (compiled_part hoff hrule hpart).imp_right fun ⟨left', stack', handle', _, hrule, _⟩ =>
        ⟨left', stack', handle', hrule⟩
  induction h with
  | root =>
    obtain ⟨definition, -, hobject⟩ := bind_outcome_ok_iff.1 hok
    exact .inr ⟨options.maxDepth + 1, [], handle, hobject⟩
  | element _ ih => exact hpart ih .element
  | item _ hitem ih => exact hpart ih (.item hitem)
  | member _ hmember ih => exact hpart ih (.member hmember)
  | field _ hrecord hfield ih => exact hpart ih (.field hrecord hfield)

theorem acyclic_of_outcome (hoff : options.allowRecursion = false)
    (hok : (schemaPlan registry root options).outcome = .ok handle) : registry.Acyclic root := by
  intro name hname hround
  obtain ⟨part, hpart, hback⟩ := Relation.TransGen.head'_iff.1 hround
  obtain ⟨left, stack, handle, hrule⟩ := (compiled_of_reaches hoff hok hname).resolve_left (by simp)
  rcases compiled_part hoff hrule hpart with hscalar | ⟨left', stack', handle', -, hrule, -, hmem⟩
  · rcases Relation.ReflTransGen.cases_head hback with rfl | ⟨next, hnext, -⟩
    · simp at hscalar
    · exact no_part_of_scalar hscalar hnext
  · exact not_back_to_stack hoff hrule (hmem name rfl) hback

end Acyclic

/-- A step that fails with errors of the table only. -/
def RaisesRule {α : Type} (m : Compile α) : Prop :=
  ∀ σ e σ', m σ = .error e σ' → ∃ e', e = .rule e'

namespace RaisesRule

variable {α β : Type}

theorem liftBuild (m : Build α) : RaisesRule (liftBuild m) := by
  intro σ e σ' h
  cases hm : m σ.session with
  | ok a s =>
    rw [liftBuild_ok hm] at h
    cases h
  | error e s =>
    rw [liftBuild_error hm] at h
    cases h
    exact ⟨_, rfl⟩

theorem bind {m : Compile α} {f : α → Compile β} (hm : RaisesRule m) (hf : ∀ a, RaisesRule (f a)) :
    RaisesRule (m >>= f) := by
  intro σ e σ' h
  cases hfirst : m σ with
  | ok a u =>
    rw [bind_of_ok hfirst] at h
    exact hf a u e σ' h
  | error e u =>
    rw [bind_of_error hfirst] at h
    cases h
    exact hm σ _ _ hfirst

theorem pure (a : α) : RaisesRule (Pure.pure a) := fun _ _ _ h => by cases h

theorem get : RaisesRule get := fun _ _ _ h => by cases h

theorem modify (f : CompileState → CompileState) : RaisesRule (modify f) := fun _ _ _ h => by
  cases h

theorem act (a : Act) : RaisesRule a.run := by
  cases a with
  | fragment f => exact .bind (liftBuild _) fun _ => pure ()
  | forward name =>
    refine .bind get fun σ => ?_
    cases σ.pending.lookup name with
    | some slot => exact pure ()
    | none =>
      refine .bind (.bind (liftBuild _) fun stem => .bind get fun σ => ?_) fun _ => pure ()
      split
      · exact liftBuild _
      · exact .bind (liftBuild _) fun slot => .bind (liftBuild _) fun _ =>
          .bind (modify _) fun _ => pure _
  | close name rule =>
    refine .bind get fun σ => ?_
    cases σ.pending.lookup name with
    | some slot => exact .bind (modify _) fun _ => .bind (liftBuild _) fun _ => pure ()
    | none => exact pure ()

theorem acts (acts : List Act) : RaisesRule (runActs acts) := by
  induction acts with
  | nil => exact pure ()
  | cons a acts ih => exact .bind (act a) fun _ => ih

end RaisesRule

/-- A compilation that fails with a cycle has found it in the schema. -/
theorem Session.outcome_of_cycle (hf : registry.factories = ∅) {s : Session}
    (hwf : s.table.WellFormed) {path : List String}
    (h : (s.compile registry root options).1 = .error (.cycle path)) :
    (schemaPlan registry root options).outcome = .error (.cycle path) := by
  rw [Session.compile_eq hf root options hwf] at h
  cases hacts : runActs (schemaPlan registry root options).acts ⟨s, []⟩ with
  | error e σ =>
    rw [hacts] at h
    obtain ⟨e', rfl⟩ := RaisesRule.acts _ _ _ _ hacts
    cases h
  | ok _ σ =>
    rw [hacts] at h
    exact h

/-- A cycle is a way from a record back to itself. -/
theorem FieldType.Mentions.parts (h : ty.Mentions name) :
    Relation.ReflTransGen registry.Part ty (.record name) := by
  induction h with
  | record => exact .refl
  | element _ ih => exact .head .element ih
  | item hitem _ ih => exact .head (.item hitem) ih

theorem Registry.Refers.parts {next : String} (h : registry.Refers name next) :
    Relation.TransGen registry.Part (.record name) (.record next) := by
  obtain ⟨definition, f, hrecord, hf, hmentions⟩ := h
  exact .head' (.field hrecord hf) hmentions.parts

theorem Registry.Cycle.not_acyclic {path : List String} (h : registry.Cycle root path) :
    ¬registry.Acyclic root := by
  obtain ⟨name, inner, rfl⟩ := h.returns
  have hround : ∀ (inner : List String) (first : String),
      (first :: inner ++ [name]).IsChain registry.Refers →
        Relation.TransGen registry.Part (.record first) (.record name) := by
    intro inner
    induction inner with
    | nil => exact fun first hlinked => hlinked.rel.parts
    | cons next inner ih =>
      intro first hlinked
      obtain ⟨hrefers, hrest⟩ := List.isChain_cons_cons.1 hlinked
      exact hrefers.parts.trans (ih next hrest)
  exact fun hacyclic => hacyclic name (h.reached name (by simp)) (hround inner name h.linked)

theorem compileFresh_eq_error {e : SchemaError}
    (h : (compileFresh registry root options).1 = .error e) :
    (Session.compile {} registry root options).1 = .error e := by
  cases hc : Session.compile {} registry root options with
  | mk result s =>
    rw [compileFresh, hc] at h
    cases result with
    | ok start => cases h
    | error e' => exact congrArg Except.error (Except.error.inj h)

/-- With recursion off there is no forward rule in what a schema compiles to. -/
theorem no_forward_rule (hf : registry.factories = ∅) (hoff : options.allowRecursion = false)
    {start : RuleHandle} {s : Session}
    (h : Session.compile {} registry root options = (.ok start, s)) {rule : Rule}
    (hrule : rule ∈ s.table.rules) (name : String) : rule.id ≠ forwardId name := by
  obtain ⟨-, hbuilt⟩ := Session.built_of_compile hf h
  have hfound : s.table.view.rule? rule.id = some rule :=
    hbuilt.settled.wellFormed.rule?_eq_some_iff.2 ⟨hrule, rfl⟩
  obtain ⟨-, ⟨f, -, hmem⟩ | ⟨other, -, hforward, -⟩⟩ := hbuilt.sourced.rule _ _ hfound
  · exact forwardId_ne_of_mem hmem name
  · exact absurd hforward ((schemaPlan_guarded hoff).no_forward other)

/-- The recursion switch is exact. With recursion off, a cycle that compiling fails with is one of
the schema; a schema that compiles has no recursion at all; and then it compiles to the same
grammar with recursion on, in which there is no forward rule. -/
theorem compile_without_recursion (hf : registry.factories = ∅) (root : String)
    (hoff : options.allowRecursion = false) :
    (∀ path, (compileFresh registry root options).1 = .error (.cycle path) →
      registry.Cycle root path) ∧
    ∀ grammar, (compileFresh registry root options).1 = .ok grammar →
      registry.Acyclic root ∧
      (compileFresh registry root options.permitting).1 = .ok grammar ∧
      ∀ rule ∈ (Session.compile {} registry root options.permitting).2.table.rules,
        ∀ name, rule.id ≠ forwardId name := by
  have hguarded : Plan.Guarded registry root (schemaPlan registry root options)
      (schemaPlan registry root options.permitting) := schemaPlan_guarded hoff
  refine ⟨fun path hpath => ?_, fun grammar hgrammar => ?_⟩
  · exact hguarded.cycle path (Session.outcome_of_cycle hf (s := {}) RuleTable.wellFormed_empty
      (compileFresh_eq_error hpath))
  · obtain ⟨start, s, hc, -⟩ := compileFresh_eq_ok_iff.1 (eq_mk_of_fst hgrammar)
    obtain ⟨houtcome, -⟩ := Session.built_of_compile hf hc
    have hsame : Session.compile {} registry root options.permitting =
        Session.compile {} registry root options := by
      rw [Session.compile_eq hf root _ RuleTable.wellFormed_empty,
        Session.compile_eq hf root _ RuleTable.wellFormed_empty, hguarded.same start houtcome]
    refine ⟨acyclic_of_outcome hoff houtcome, ?_, fun rule hrule name => ?_⟩
    · rw [← hgrammar, compileFresh, compileFresh, hsame]
    · rw [hsame, hc] at hrule
      exact no_forward_rule hf hoff hc hrule name

set_option maxRecDepth 100000 in
/-- Two records that lead to each other are reported, whichever of them is the root, and one inside
another compiles as with recursion on. -/
theorem household_cycle_and_contact :
    household.Cycle "Person" ["Person", "Pet", "Person"] ∧
      household.Cycle "Pet" ["Pet", "Person", "Pet"] ∧
      ∃ grammar, (compileFresh contact "Person" {}).1 = .ok grammar ∧ contact.Acyclic "Person" ∧
        grammar.start = "__bjo_bebf258080551815_decl" := by
  have hperson : (compileFresh household "Person" { allowRecursion := false }).1 =
    .error (.cycle ["Person", "Pet", "Person"]) := by decide +kernel
  have hpet : (compileFresh household "Pet" { allowRecursion := false }).1 =
    .error (.cycle ["Pet", "Person", "Pet"]) := by decide +kernel
  have hcontact : (compileFresh contact "Person" { allowRecursion := false }).1.map Grammar.start =
    .ok "__bjo_bebf258080551815_decl" := by decide +kernel
  refine ⟨(compile_without_recursion rfl "Person" rfl).1 _ hperson,
    (compile_without_recursion rfl "Pet" rfl).1 _ hpet, ?_⟩
  cases hresult : (compileFresh contact "Person" { allowRecursion := false }).1 with
  | error e =>
    rw [hresult] at hcontact
    cases hcontact
  | ok grammar =>
    rw [hresult] at hcontact
    obtain ⟨hacyclic, hon, -⟩ := (compile_without_recursion rfl "Person" rfl).2 grammar hresult
    exact ⟨grammar, hon, hacyclic, Except.ok.inj hcontact⟩

end RecordGrammar
