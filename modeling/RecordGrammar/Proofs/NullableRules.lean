import RecordGrammar.Proofs.CompileRuns
import RecordGrammar.Proofs.FragmentReading

/-! # The rules of records that may be null

They are memoized under stems that no fragment of a schema and no forward rule has, so that they can
be added to a table without getting in the way of what else is built into it. -/

namespace RecordGrammar

def nullHandle : RuleHandle := ⟨Scope.idOf ⟨"__bjn"⟩ "decl"⟩

def nullRule : Rule := ⟨nullHandle.id, Layout.text [[.terminal "null"]]⟩

/-- The handle of a record that may be null. -/
def nullableHandle (name : String) : RuleHandle := ⟨Scope.idOf ⟨"nullable_" ++ name⟩ "decl"⟩

/-- The rule of a record that may be null, `inner` being the rule of the record itself. -/
def nullableRule (name : String) (inner : RuleHandle) : Rule :=
  ⟨(nullableHandle name).id, Layout.text [[.rule inner], [.rule nullHandle]]⟩

/-- A stem that belongs to no fragment, no forward rule and not to the digit that masks share. -/
structure ForeignStem (stem : String) : Prop where
  fragment (f : Fragment) : f.stem ≠ stem
  forward (name : String) : stem ≠ "__bjr_" ++ memoKey name
  digit : stem ≠ "__bst"

theorem foreignStem_null : ForeignStem "__bjn" where
  fragment f h := by
    cases hc : f.canonical? with
    | none =>
      simp only [Fragment.stem, hc, Option.elim, String.append_empty] at h
      cases f <;> simp [Fragment.tag] at h hc
    | some c =>
      have hlength := congrArg (fun s => s.toList.length) h
      simp [Fragment.stem, hc, memoKey_length] at hlength
  forward name h := by
    have hlength := congrArg (fun s => s.toList.length) h
    simp [memoKey_length] at hlength
  digit := by decide

theorem Fragment.head?_stem (f : Fragment) : f.stem.toList.head? = some '_' := by
  rw [stem, String.toList_append]
  cases f <;> simp [tag]

theorem foreignStem_nullable (name : String) : ForeignStem ("nullable_" ++ name) where
  fragment f h := by
    have hhead := f.head?_stem
    simp [h] at hhead
  forward name h := by
    have hhead := congrArg (fun s => s.toList.head?) h
    simp at hhead
  digit h := by
    have hhead := congrArg (fun s => s.toList.head?) h
    simp at hhead

theorem nullHandle_ne_nullableHandle (name : String) :
    nullHandle.id ≠ (nullableHandle name).id := by
  intro h
  obtain ⟨hs, -⟩ := Scope.idOf_inj underscore_not_mem_decl underscore_not_mem_decl h
  have hhead := congrArg (fun s => s.stem.toList.head?) hs
  simp at hhead

theorem nullableHandle_inj {name name' : String}
    (h : (nullableHandle name).id = (nullableHandle name').id) : name = name' := by
  obtain ⟨hs, -⟩ := Scope.idOf_inj underscore_not_mem_decl underscore_not_mem_decl h
  have hlist := congrArg (fun s => s.stem.toList) hs
  simp only [String.toList_append] at hlist
  exact String.toList_inj.1 (List.append_cancel_left hlist)

namespace ForeignStem

variable {stem : String} (h : ForeignStem stem)

include h

theorem ne_of_mem {f : Fragment} {r : Rule} (hr : r ∈ f.shared ++ f.rules) :
    r.id ≠ Scope.idOf ⟨stem⟩ "decl" := by
  rcases List.mem_append.1 hr with hr | hr
  · rw [Fragment.id_of_mem_shared hr]
    exact FormatFragment.digitHandle_ne_idOf underscore_not_mem_decl h.digit
  · obtain ⟨x, hx, hid⟩ := Fragment.id_of_mem_rules hr
    intro he
    obtain ⟨hs, -⟩ := Scope.idOf_inj hx underscore_not_mem_decl (hid.symm.trans he)
    exact h.fragment f (congrArg Scope.stem hs)

theorem ne_forwardId (name : String) : Scope.idOf ⟨stem⟩ "decl" ≠ forwardId name := by
  intro he
  obtain ⟨hs, -⟩ := Scope.idOf_inj underscore_not_mem_decl underscore_not_mem_decl he
  exact h.forward name (congrArg Scope.stem hs)

/-- A rule of a foreign stem can be added to a table that is built into. -/
theorem settled_push {t : RuleTable} (ht : t.Settled) {production : String}
    (hfree : t.taken (Scope.idOf ⟨stem⟩ "decl") = false) :
    (t.push (Scope.idOf ⟨stem⟩ "decl") production).Settled where
  wellFormed := by
    obtain ⟨hd, hr⟩ := RuleTable.taken_eq_false_iff.1 hfree
    exact ht.wellFormed.push hd hr
  fragments f := by
    refine (ht.fragments f).imp (fun hf r hr => ?_) fun hu => ?_
    · rw [RuleTable.defined_push, hf r hr, Bool.or_true]
    · have hadds := (RuleTable.Adds.refl ht.wellFormed stem).push production hfree
      refine hu.of_adds ht.wellFormed hadds (h.fragment f) fun r hr x hx he => ?_
      obtain rfl := List.mem_singleton.1 hr
      obtain ⟨hs, -⟩ := Scope.idOf_inj underscore_not_mem_decl hx he
      exact h.fragment f (congrArg Scope.stem hs).symm
  reserved_forward id hid := ht.reserved_forward id (by rwa [← RuleTable.reserved_push])

theorem tidy_push {σ : CompileState} (hσ : σ.Tidy) {production : String}
    (hfree : σ.table.taken (Scope.idOf ⟨stem⟩ "decl") = false) :
    CompileState.Tidy { σ with session :=
      { σ.session with table := σ.table.push (Scope.idOf ⟨stem⟩ "decl") production } } :=
  hσ.with_session (h.settled_push hσ.settled hfree) (RuleTable.reserved_push) (List.prefix_refl _)

end ForeignStem

theorem readProduction_null : readProduction nullRule.production = some [[.terminal "null".toList]] :=
  Layout.readProduction_text (by decide +kernel) (by simp)

theorem readProduction_nullable {inner : RuleHandle} (h : Referable inner.id) (name : String) :
    readProduction (nullableRule name inner).production =
      some [[.rule inner.id], [.rule nullHandle.id]] := by
  have hlegible : Layout.Legible [[.rule inner], [.rule nullHandle]] := by
    intro row hrow p hp
    simp only [List.mem_cons, List.not_mem_nil, or_false] at hrow
    rcases hrow with rfl | rfl <;> obtain rfl := List.mem_singleton.1 hp
    · exact h
    · exact (PlainId.idOf (by decide) (by decide) : PlainId nullHandle.id).referable
  exact Layout.readProduction_text hlegible (by simp)

/-- The rule of a record that may be null can be referred to if the name does not end the
reference. -/
theorem nullableHandle_referable {name : String} (h : '>' ∉ name.toList) :
    Referable (nullableHandle name).id := by
  have hlist : (nullableHandle name).id.toList =
      "nullable_".toList ++ name.toList ++ "_decl".toList := by
    simp [nullableHandle, Scope.idOf]
  refine ⟨?_, ?_, ?_⟩
  · rw [hlist]
    simpa using h
  · rw [hlist]
    simp
  · rw [hlist]
    simp

end RecordGrammar
