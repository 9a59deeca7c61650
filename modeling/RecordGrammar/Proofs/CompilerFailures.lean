import RecordGrammar.Proofs.CycleDetection

/-! # What a table can refuse the compiler

The compiler looks before it defines, and only forward rules are kept reserved by it. A table that
it starts on empty therefore refuses it two things only: a fragment that has no text, and the
forward rule of a record whose name has the memo key of another one. -/

namespace RecordGrammar

/-- No two records of a registry have names of the same memo key. -/
def Registry.NamesApart (registry : Registry) : Prop :=
  ∀ name ∈ registry.records, ∀ name' ∈ registry.records, memoKey name = memoKey name' → name = name'

/-- A visible field of a reachable record is a string with an empty mask. -/
def Registry.HasEmptyMask (registry : Registry) (root : String) : Prop :=
  ∃ field, registry.ReachesField root field ∧ field.type = .string ∧
    field.format = some (.time "")

section EmptyTexts

/-- The only mask without a text is the empty one: a percent sign has a digit on its side, and any
other character is written itself. -/
theorem FormatFragment.eq_empty_of_text {mask : String} (h : (maskLayout mask).text = "") :
    mask = "" := by
  apply Classical.byContradiction
  intro hne
  refine Layout.Proper.text_ne_empty ⟨_, List.mem_singleton.2 rfl, ?_⟩ h
  cases hchars : mask.toList with
  | nil => exact absurd (String.toList_inj.1 hchars) hne
  | cons c rest =>
    rw [maskSegments]
    cases hrest : maskSegments rest with
    | nil => exact absurd hrest (maskSegments_ne_nil rest)
    | cons segment segments =>
      by_cases hpercent : c = '%'
      · simp [hpercent, maskRow]
      · cases segments <;> simp [hpercent, maskRow, segmentRow]

/-- The fragments that have no text. -/
theorem Fragment.eq_of_text_empty {f : Fragment} (h : f.layout.text = "") :
    f = .maskedTime "" ∨ f = .enumeration [] := by
  cases f with
  | maskedTime mask => exact .inl (congrArg maskedTime (FormatFragment.eq_empty_of_text h))
  | enumeration literals =>
    cases literals with
    | nil => exact .inr rfl
    | cons l literals => exact absurd h (Layout.Proper.text_ne_empty (.cons (by simp)))
  | number | string | boolean | array | tuple | object | inQuotes | mailAddress =>
    exact absurd h (Layout.Proper.text_ne_empty (.cons (by simp)))

end EmptyTexts

namespace Plan

variable {registry : Registry} {root : String} {options : SchemaOptions} {stack : List String}
  {α β : Type}

/-- A plan that no table objects to, an empty mask apart: its checks are not of the table, it builds
no fragment without a text, and the records it comes back to are those of the registry. -/
structure Sanctioned (registry : Registry) (root : String) (p : Plan α) : Prop where
  outcome (e : RuleError) : p.outcome ≠ .error (.rule e)
  written (f : Fragment) : .fragment f ∈ p.acts → f.layout.text = "" →
    f = .maskedTime "" ∧ registry.HasEmptyMask root
  known (name : String) : .forward name ∈ p.acts → name ∈ registry.records

namespace Sanctioned

theorem ofExcept {result : Except SchemaError α} (h : ∀ e, result ≠ .error (.rule e)) :
    Sanctioned registry root (.ofExcept result) where
  outcome := h
  written f hf := by cases hf
  known name hname := by cases hname

theorem check {result : Except SchemaError α} (h : ∀ e, result = .error e → e.Static) :
    Sanctioned registry root (.ofExcept result) :=
  ofExcept fun e he => h (.rule e) he

theorem pure (a : α) : Sanctioned registry root (Pure.pure a : Plan α) where
  outcome e he := by cases he
  written f hf := by cases hf
  known name hname := by cases hname

theorem fragment {f : Fragment}
    (h : f.layout.text = "" → f = .maskedTime "" ∧ registry.HasEmptyMask root) :
    Sanctioned registry root (.fragment f) where
  outcome e he := by cases he
  written g hg := by
    cases List.mem_singleton.1 hg
    exact h
  known name hname := by simp [Plan.fragment] at hname

theorem bind {p : Plan α} {f : α → Plan β} (h : Sanctioned registry root p)
    (hf : ∀ a, p.outcome = .ok a → Sanctioned registry root (f a)) :
    Sanctioned registry root (p >>= f) := by
  cases hp : p.outcome with
  | error e =>
    rw [bind_of_outcome_error hp]
    refine ⟨fun e' he => h.outcome e' ?_, h.written, h.known⟩
    rw [hp]
    exact congrArg Except.error (Except.error.inj he)
  | ok a =>
    rw [bind_of_outcome_ok hp]
    have hfa := hf a hp
    refine ⟨hfa.outcome, fun g hg => ?_, fun name hname => ?_⟩
    · exact (List.mem_append.1 hg).elim (h.written g) (hfa.written g)
    · exact (List.mem_append.1 hname).elim (h.known name) (hfa.known name)

theorem mapM {p : α → Plan β} {as : List α} (h : ∀ a ∈ as, Sanctioned registry root (p a)) :
    Sanctioned registry root (as.mapM p) :=
  mapM_holds (P := fun _ => Sanctioned registry root) pure
    (fun _ _ _ h hf => h.bind fun a _ => hf a) h

/-- A fragment of another kind than masks and enumerations has a text. -/
theorem other {f : Fragment} (hmask : f ≠ .maskedTime "") (hliterals : f ≠ .enumeration []) :
    Sanctioned registry root (.fragment f) :=
  fragment fun h => ((Fragment.eq_of_text_empty h).elim hmask hliterals).elim

end Sanctioned

/-- The records under construction are those of the registry. -/
abbrev KnownStack (registry : Registry) (stack : List String) : Prop :=
  ∀ name ∈ stack, name ∈ registry.records

section Levels

variable {left : Nat} (ih : ∀ {stack ty}, KnownStack registry stack → registry.Reaches root ty →
  Sanctioned registry root (type left ⟨registry, options, stack⟩ ty))

include ih

theorem field_sanctioned (hstack : KnownStack registry stack) {f : Field}
    (hf : registry.ReachesField root f) :
    Sanctioned registry root (field (type left) ⟨registry, options, stack⟩ f) := by
  refine .bind (.check fun _ => f.checkOverride_static) fun _ hcheck => ?_
  cases hformat : f.format with
  | none => exact ih hstack hf.type
  | some format =>
    cases format with
    | time mask =>
      refine .bind (.fragment fun hempty => ?_) fun inner _ => .other (by simp) (by simp)
      obtain rfl := FormatFragment.eq_empty_of_text hempty
      exact ⟨rfl, f, hf, Field.eq_string_of_format hcheck (by simp [hformat]), hformat⟩
    | email => exact .bind (.other (by simp) (by simp)) fun inner _ => .other (by simp) (by simp)

theorem object_sanctioned (hstack : KnownStack registry stack) {name : String}
    (hname : registry.Reaches root (.record name)) :
    Sanctioned registry root (object (type left) ⟨registry, options, stack⟩ name) := by
  unfold object record
  split
  · rename_i hmem
    split
    · refine ⟨fun e he => (nomatch he), fun f hf => ?_, fun n hn => ?_⟩
      · simp at hf
      · obtain rfl : n = name := by simpa using hn
        exact hstack n hmem
    · exact .ofExcept fun e he => nomatch he
  · refine .bind (.check fun _ => registry.record_static name) fun definition hrecord => ?_
    have hstack' : KnownStack registry (stack ++ [name]) := by
      intro n hn
      rcases List.mem_append.1 hn with hn | hn
      · exact hstack n hn
      · exact List.mem_singleton.1 hn ▸ Registry.mem_records hrecord
    refine .bind (.bind (.mapM fun f hf => ?_) fun fields _ => .other (by simp) (by simp))
      fun rule _ => ⟨fun e he => (nomatch he), fun f hf => ?_, fun n hn => ?_⟩
    · exact .bind (field_sanctioned ih hstack' ⟨name, definition, hname, hrecord, hf⟩)
        fun rule _ => .pure (f.name, rule)
    · simp at hf
    · simp at hn

end Levels

theorem type_sanctioned (left : Nat) {ty : FieldType} (hstack : KnownStack registry stack)
    (hty : registry.Reaches root ty) :
    Sanctioned registry root (type left ⟨registry, options, stack⟩ ty) := by
  induction left generalizing stack ty with
  | zero => exact .ofExcept fun e he => nomatch he
  | succ left ih =>
    cases ty with
    | int | float | string | bool | literal value => exact .other (by simp) (by simp)
    | variadic | unknownList => exact .ofExcept fun e he => nomatch he
    | list element => exact .bind (ih hstack hty.element) fun inner _ => .other (by simp) (by simp)
    | tuple items =>
      exact .bind (.check fun _ => checkTuple_static items) fun _ _ =>
        .bind (.mapM fun item hitem => ih hstack (hty.item hitem)) fun rules _ =>
          .other (by simp) (by simp)
    | union members =>
      refine .bind (.check fun _ => unionLiterals_static members) fun literals hliterals => ?_
      exact .other (by simp) (by simpa using (unionLiterals_eq_ok hliterals).1)
    | record name => exact object_sanctioned ih hstack hty

end Plan

theorem schemaPlan_sanctioned (registry : Registry) (root : String) (options : SchemaOptions) :
    Plan.Sanctioned registry root (schemaPlan registry root options) :=
  .bind (.check fun _ => registry.record_static root) fun _ _ =>
    Plan.object_sanctioned (fun hstack hty => Plan.type_sanctioned _ hstack hty)
      (fun _ h => absurd h List.not_mem_nil) .root

section Refusals

variable {σ σ' : CompileState} {e : SchemaError}

/-- What a table refuses: the rule of a fragment without a text, or the forward rule of a record
that another one has got already. -/
def Refused (acts : List Act) (e : SchemaError) : Prop :=
  (∃ f, .fragment f ∈ acts ∧ f.layout.text = "" ∧ e = .rule (.emptyProduction f.handle.id)) ∨
    ∃ name name', .forward name ∈ acts ∧ .forward name' ∈ acts ∧ name ≠ name' ∧
      forwardId name = forwardId name'

/-- An act that fails has been refused. Nothing is reserved but for records that wait, and these
have been come back to. -/
theorem Act.refused_of_error {acts : List Act} {a : Act} (ha : a ∈ acts) (htidy : σ.Tidy)
    (howned : σ.view.Owned) (hsourced : σ.view.Sourced acts) (hrun : a.run σ = .error e σ') :
    Refused acts e := by
  cases a with
  | fragment f =>
    rcases htidy.settled.fragments f with hholds | huntouched
    · have hd := (htidy.settled.holds_iff f).1 hholds
      rw [Act.run, bind_of_ok (liftBuild_ok (Fragment.build_of_holds hd))] at hrun
      cases hrun
    · rcases Fragment.build_of_untouched htidy.settled huntouched with
        ⟨-, t, hbuild, -⟩ | ⟨hempty, t, hbuild, -⟩
      · rw [Act.run, bind_of_ok (liftBuild_ok hbuild)] at hrun
        cases hrun
      · rw [Act.run, bind_of_error (liftBuild_error hbuild)] at hrun
        cases hrun
        exact .inl ⟨f, ha, hempty, rfl⟩
  | forward name =>
    cases hw : σ.pending.lookup name with
    | some slot =>
      rw [run_forward_of_waiting (by simp [hw])] at hrun
      cases hrun
    | none =>
      rw [run_forward_of_not_waiting hw] at hrun
      by_cases hd : σ.table.defined (forwardId name) = true
      · rw [bind_of_ok (declareForward_of_defined htidy.settled.wellFormed hd)] at hrun
        cases hrun
      · have hd' := Bool.eq_false_iff.2 hd
        by_cases hr : σ.table.reserved.contains (forwardId name) = true
        · obtain ⟨name', hwaiting, hid⟩ := howned _ hr
          refine .inr ⟨name, name', ha, hsourced.waiting name' hwaiting, ?_, hid⟩
          rintro rfl
          simp [CompileState.view, hw] at hwaiting
        · have hfree := RuleTable.taken_eq_false_iff.2 ⟨hd', Bool.eq_false_iff.2 hr⟩
          rw [bind_of_ok (declareForward_of_free hfree)] at hrun
          cases hrun
  | close name rule =>
    cases hw : σ.pending.lookup name with
    | none =>
      rw [run_close_of_not_waiting hw] at hrun
      cases hrun
    | some slot =>
      have hslot := htidy.slot_id name slot hw
      rw [run_close_of_waiting rule hw hslot (htidy.reserved name (by simp [hw]))] at hrun
      cases hrun

theorem runActs_refused {all acts : List Act} (hsub : acts ⊆ all) (htidy : σ.Tidy)
    (howned : σ.view.Owned) (hsourced : σ.view.Sourced all)
    (hrun : runActs acts σ = .error e σ') : Refused all e := by
  induction acts generalizing σ with
  | nil => cases hrun
  | cons a acts ih =>
    obtain ⟨ha, hsub⟩ := List.cons_subset.1 hsub
    rcases a.does htidy with ⟨v, u, hstep, hact, rfl, hran⟩ | ⟨-, e', u, hact, -⟩
    · rw [runActs, bind_of_ok hact] at hrun
      exact ih hsub hran.tidy (howned.step hstep) (hsourced.step ha hstep) hrun
    · rw [runActs, bind_of_error hact] at hrun
      cases hrun
      exact Act.refused_of_error ha htidy howned hsourced hact

end Refusals

section Compiled

variable {registry : Registry} {root : String} {options : SchemaOptions}

/-- A compilation into an empty table that fails has been refused by it, or its plan ends so. -/
theorem Session.refused_of_compile (hf : registry.factories = ∅) {e : SchemaError}
    (h : (Session.compile {} registry root options).1 = .error e) :
    Refused (schemaPlan registry root options).acts e ∨
      (schemaPlan registry root options).outcome = .error e := by
  have htidy := CompileState.tidy_of_settled (s := {}) RuleTable.settled_empty
  rw [Session.compile_eq hf root options RuleTable.wellFormed_empty] at h
  cases hacts : runActs (schemaPlan registry root options).acts ⟨{}, []⟩ with
  | error e' σ =>
    rw [hacts] at h
    cases h
    refine .inl (runActs_refused (List.Subset.refl _) htidy RuleTable.view_empty_owned ?_ hacts)
    refine ⟨fun id r hr => ?_, fun name hw => ?_⟩
    · simp [CompileState.view, CompileState.table, RuleTable.rule?] at hr
    · simp [CompileState.view] at hw
  | ok _ σ =>
    rw [hacts] at h
    exact .inr h

/-- The only thing that an empty table ever refuses the compiler is the empty mask of a field. -/
theorem compileFresh_rule_error (hf : registry.factories = ∅) (hapart : registry.NamesApart)
    {e : RuleError} {log : List Event}
    (h : compileFresh registry root options = (.error (.rule e), log)) :
    e = .emptyProduction (Fragment.maskedTime "").handle.id ∧
      ∃ field, registry.ReachesField root field ∧ field.type = .string ∧
        field.format = some (.time "") := by
  have hplan := schemaPlan_sanctioned registry root options
  have hcompile := compileFresh_eq_error (congrArg Prod.fst h)
  rcases Session.refused_of_compile hf hcompile with
    (⟨f, hact, hempty, he⟩ | ⟨name, name', hname, hname', hne, hid⟩) | houtcome
  · obtain ⟨rfl, hmask⟩ := hplan.written f hact hempty
    exact ⟨SchemaError.rule.inj he, hmask⟩
  · have hsame := hapart name (hplan.known name hname) name' (hplan.known name' hname')
      (forwardId_inj hid)
    exact absurd hsame hne
  · exact absurd houtcome (hplan.outcome e)

end Compiled

/-- A record that lists others of its kind, each with a time of an empty mask. -/
def untimed : Registry where
  records := (∅ : Std.ExtTreeMap String RecordSchema).insert "A" ⟨[
    ⟨"next", .list (.record "A"), false, none⟩,
    ⟨"at", .string, false, some (.time "")⟩], none⟩

theorem untimed_namesApart : untimed.NamesApart := by
  intro name hname name' hname' _
  have hall {n : String} (h : n ∈ untimed.records) : n = "A" := by
    simpa [untimed, eq_comm (a := n)] using h
  rw [hall hname, hall hname']

set_option maxRecDepth 100000 in
theorem untimed_refused : ∃ log, compileFresh untimed "A" {} =
    (.error (.rule (.emptyProduction "__bst_e3b0c44298fc1c14_decl")), log) ∧
    "__bst_e3b0c44298fc1c14_decl" = (Fragment.maskedTime "").handle.id ∧
    ∃ field, untimed.ReachesField "A" field ∧ field.type = .string ∧
      field.format = some (.time "") := by
  have hresult : (compileFresh untimed "A" {}).1 =
      .error (.rule (.emptyProduction "__bst_e3b0c44298fc1c14_decl")) := by decide +kernel
  have hrun := eq_mk_of_fst hresult
  obtain ⟨he, hfield⟩ := compileFresh_rule_error rfl untimed_namesApart hrun
  exact ⟨_, hrun, RuleError.emptyProduction.inj he, hfield⟩

end RecordGrammar
