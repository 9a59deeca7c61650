import RecordGrammar.Proofs.FragmentMemo

/-! # Tables that only fragments and forward rules have been built into -/

namespace RecordGrammar

namespace Fragment

theorem tag_length (f : Fragment) (h : f.canonical?.isSome) : f.tag.toList.length = 6 := by
  cases f <;> simp [canonical?] at h <;> simp only [tag] <;> decide

theorem tag_length_le (f : Fragment) : f.tag.toList.length ≤ 6 := by
  cases f <;> simp only [tag] <;> decide

/-- Two fragments of one stem are of one kind, and their memo keys agree. -/
theorem tag_eq_of_stem_eq {f g : Fragment} (h : f.stem = g.stem) : f.tag = g.tag ∧
    f.canonical?.elim "" memoKey = g.canonical?.elim "" memoKey := by
  have hlist := congrArg String.toList h
  simp only [stem, String.toList_append] at hlist
  have hlength := congrArg List.length hlist
  simp only [List.length_append] at hlength
  have hf := f.tag_length_le
  have hg := g.tag_length_le
  have htag : f.tag.toList.length = g.tag.toList.length := by
    cases hcf : f.canonical? with
    | none =>
      cases hcg : g.canonical? with
      | none => simpa [hcf, hcg] using hlength
      | some c =>
        simp only [hcf, hcg, Option.elim, memoKey_length] at hlength
        simp at hlength
        omega
    | some c =>
      cases hcg : g.canonical? with
      | none =>
        simp only [hcf, hcg, Option.elim, memoKey_length] at hlength
        simp at hlength
        omega
      | some c' => rw [f.tag_length (by simp [hcf]), g.tag_length (by simp [hcg])]
  obtain ⟨htag, hkey⟩ := List.append_inj hlist htag
  exact ⟨String.toList_inj.1 htag, String.toList_inj.1 hkey⟩

theorem stem_ne_bst (f : Fragment) : f.stem ≠ "__bst" := by
  intro h
  cases hc : f.canonical? with
  | none =>
    simp only [stem, hc, Option.elim, String.append_empty] at h
    cases f <;> simp [tag] at h hc
  | some c =>
    have hlength := congrArg (fun s => s.toList.length) h
    simp [stem, hc, memoKey_length] at hlength

theorem stem_ne_bjr (f : Fragment) (name : String) : f.stem ≠ "__bjr_" ++ memoKey name := by
  intro h
  have hlist := congrArg String.toList h
  cases hc : f.canonical? with
  | none =>
    have hlength := congrArg List.length hlist
    have := f.tag_length_le
    simp only [stem, hc, Option.elim, String.append_empty, String.toList_append,
      List.length_append, memoKey_length] at hlength
    simp at hlength
    omega
  | some c =>
    simp only [stem, hc, Option.elim, String.toList_append] at hlist
    obtain ⟨htag, -⟩ := List.append_inj hlist (f.tag_length (by simp [hc]))
    cases f <;> simp [tag] at htag hc

theorem ids_numberedRules (stem : String) (n : Nat) (layouts : List Layout) :
    (numberedRules stem n layouts).map Rule.id =
      (List.range' n layouts.length).map (RuleTable.autoId stem) := by
  induction layouts generalizing n with
  | nil => rfl
  | cons layout layouts ih => simp [numberedRules, ih, List.range'_succ]

/-- The ids of the rules that belong to a fragment alone. -/
theorem ids_rules (f : Fragment) : f.rules.map Rule.id =
    (List.range' 0 f.helpers.length).map (RuleTable.autoId f.stem) ++
      [Scope.idOf ⟨f.stem⟩ "decl"] := by
  simp [rules, ids_numberedRules, handle]

theorem id_of_mem_rules {f : Fragment} {r : Rule} (h : r ∈ f.rules) :
    ∃ x : String, '_' ∉ x.toList ∧ r.id = Scope.idOf ⟨f.stem⟩ x := by
  have hid : r.id ∈ f.rules.map Rule.id := List.mem_map_of_mem h
  rw [ids_rules, List.mem_append, List.mem_map, List.mem_singleton] at hid
  rcases hid with ⟨k, -, hk⟩ | hid
  · exact ⟨toString k, underscore_not_mem_toString k, hk.symm⟩
  · exact ⟨"decl", underscore_not_mem_decl, hid⟩

theorem id_of_mem_shared {f : Fragment} {r : Rule} (h : r ∈ f.shared) :
    r = FormatFragment.digitRule := by
  cases f <;> simp [shared] at h
  exact h

theorem digitHandle_ne_of_mem_rules {f : Fragment} {r : Rule} (h : r ∈ f.rules) :
    FormatFragment.digitHandle.id ≠ r.id := by
  obtain ⟨x, hx, hid⟩ := id_of_mem_rules h
  rw [hid]
  exact FormatFragment.digitHandle_ne_idOf hx f.stem_ne_bst

/-- There is one rule for the digit. -/
theorem eq_digitRule {f : Fragment} {r : Rule} (h : r ∈ f.shared ++ f.rules)
    (hid : r.id = FormatFragment.digitHandle.id) : r = FormatFragment.digitRule :=
  (List.mem_append.1 h).elim id_of_mem_shared fun hown =>
    absurd hid.symm (digitHandle_ne_of_mem_rules hown)

/-- How many helpers the fragments of a kind define. -/
private def helperCount (tag : String) : Nat :=
  if tag = "__bjnu" then 9 else if tag = "__bjs" then 8 else if tag = "__bja_" then 1
  else if tag = "__bse" then 11 else 0

private theorem length_helpers (f : Fragment) : f.helpers.length = helperCount f.tag := by
  cases f <;> simp only [tag, helperCount] <;> rfl

private theorem shared_eq (f : Fragment) :
    f.shared = if f.tag = "__bst_" then [FormatFragment.digitRule] else [] := by
  cases f <;> simp [tag, shared]

/-- Fragments of one stem have rules of the same ids. -/
theorem ids_eq_of_stem_eq {f g : Fragment} (h : f.stem = g.stem) :
    (f.shared ++ f.rules).map Rule.id = (g.shared ++ g.rules).map Rule.id := by
  have htag := (tag_eq_of_stem_eq h).1
  simp only [List.map_append, ids_rules, length_helpers, shared_eq, h, htag]

/-- A fragment without a text for its rule has no helpers either. -/
theorem helpers_eq_nil {f : Fragment} (h : f.layout.text = "") : f.helpers = [] := by
  refine Classical.byContradiction fun hne => Layout.Proper.text_ne_empty ?_ h
  cases f with
  | number => exact .cons (by simp)
  | string => exact .cons (by simp)
  | array inner => exact .cons (by simp)
  | mailAddress => exact .cons (by simp)
  | _ => exact absurd rfl hne

end Fragment

/-- The id of the rule that stands for a record inside its own construction. -/
def forwardId (name : String) : String := Scope.idOf ⟨"__bjr_" ++ memoKey name⟩ "decl"

theorem forwardId_ne_of_mem_rules {f : Fragment} {r : Rule} (h : r ∈ f.rules) (name : String) :
    r.id ≠ forwardId name := by
  obtain ⟨x, hx, hid⟩ := Fragment.id_of_mem_rules h
  intro he
  obtain ⟨hs, -⟩ := Scope.idOf_inj hx underscore_not_mem_decl (hid.symm.trans he)
  exact f.stem_ne_bjr name (congrArg Scope.stem hs)

theorem digitHandle_ne_forwardId (name : String) :
    FormatFragment.digitHandle.id ≠ forwardId name := by
  refine FormatFragment.digitHandle_ne_idOf underscore_not_mem_decl fun h => ?_
  have hlength := congrArg (fun s => s.toList.length) h
  simp [memoKey_length] at hlength

theorem forwardId_ne_of_mem {f : Fragment} {r : Rule} (h : r ∈ f.shared ++ f.rules)
    (name : String) : r.id ≠ forwardId name := by
  rcases List.mem_append.1 h with h | h
  · rw [Fragment.id_of_mem_shared h]
    exact digitHandle_ne_forwardId name
  · exact forwardId_ne_of_mem_rules h name

namespace RuleTable

/-- All rules of a fragment have been committed. -/
def Holds (t : RuleTable) (f : Fragment) : Prop :=
  ∀ r ∈ f.shared ++ f.rules, t.defined r.id = true

/-- A table as builds of fragments and of forward rules leave it, also when one of them has
failed. -/
structure Settled (t : RuleTable) : Prop where
  wellFormed : t.WellFormed
  fragments (f : Fragment) : t.Holds f ∨ t.Untouched f.stem
  reserved_forward (id : String) : t.reserved.contains id = true → ∃ name, id = forwardId name

theorem settled_empty : Settled {} where
  wellFormed := wellFormed_empty
  fragments _ := .inr ⟨by simp, fun x _ _ => by simp [taken, defined]⟩
  reserved_forward id h := by simp at h

theorem Settled.not_reserved {t : RuleTable} (h : t.Settled) {f : Fragment} {r : Rule}
    (hr : r ∈ f.shared ++ f.rules) : t.reserved.contains r.id = false := by
  rw [← Bool.not_eq_true]
  intro hc
  obtain ⟨name, hid⟩ := h.reserved_forward _ hc
  exact forwardId_ne_of_mem hr name hid

theorem Settled.digit_not_reserved {t : RuleTable} (h : t.Settled) :
    t.reserved.contains FormatFragment.digitHandle.id = false :=
  h.not_reserved (f := .maskedTime "") (r := FormatFragment.digitRule) (by simp [Fragment.shared])

theorem Holds.of_stem_eq {t : RuleTable} {f g : Fragment} (h : t.Holds f) (hs : f.stem = g.stem) :
    t.Holds g := by
  intro r hr
  have hid : r.id ∈ (f.shared ++ f.rules).map Rule.id := by
    rw [Fragment.ids_eq_of_stem_eq hs]
    exact List.mem_map_of_mem hr
  obtain ⟨r', hr', he⟩ := List.mem_map.1 hid
  exact he ▸ h r' hr'

/-- Adding rules of one fragment leaves a table settled if it ends with all of them or with
none. -/
theorem Settled.of_adds {t t' : RuleTable} {f : Fragment} {new : List Rule} (h : t.Settled)
    (hadds : t.Adds f.stem new t') (hnew : ∀ r ∈ new, r ∈ f.shared ++ f.rules)
    (hf : t'.Holds f ∨ t'.Untouched f.stem) : t'.Settled where
  wellFormed := hadds.wellFormed
  reserved_forward id hid := h.reserved_forward id (by rwa [← hadds.reserved])
  fragments g := by
    by_cases hs : f.stem = g.stem
    · exact hf.imp (·.of_stem_eq hs) fun hu => hs ▸ hu
    · rcases h.fragments g with hg | hg
      · refine .inl fun r hr => ?_
        rw [hadds.defined_eq h.wellFormed, hg r hr, Bool.true_or]
      · refine .inr (hg.of_adds h.wellFormed hadds (Ne.symm hs) fun r hr x hx => ?_)
        rcases List.mem_append.1 (hnew r hr) with hr | hr
        · rw [Fragment.id_of_mem_shared hr]
          exact FormatFragment.digitHandle_ne_idOf hx g.stem_ne_bst
        · obtain ⟨y, hy, hid⟩ := Fragment.id_of_mem_rules hr
          intro he
          obtain ⟨hscope, -⟩ := Scope.idOf_inj hy hx (hid.symm.trans he)
          exact hs (congrArg Scope.stem hscope)

/-- The rules of one table behind those of another, as far as lookups see it. A rule that is there
already is not replaced. -/
structure Gains (t : RuleTable) (new : List Rule) (t' : RuleTable) : Prop where
  rule?_eq (id : String) : t'.rule? id = (t.rule? id).or (new.find? (·.id = id))
  reserved (id : String) : t'.reserved.contains id = t.reserved.contains id

theorem WellFormed.or_find?_lacking {t : RuleTable} (h : t.WellFormed) (new rest : List Rule)
    (id : String) : (t.rule? id).or ((t.lacking new ++ rest).find? (·.id = id)) =
      (t.rule? id).or ((new ++ rest).find? (·.id = id)) := by
  cases hr : t.rule? id with
  | some r => rfl
  | none =>
    have hd : t.defined id = false := h.rule?_eq_none_iff.1 hr
    have hsame : (fun r : Rule => decide ((!t.defined r.id) = true ∧ decide (r.id = id) = true)) =
        fun r => decide (r.id = id) := by
      funext r
      by_cases he : r.id = id <;> simp [he, hd]
    simp only [Option.none_or, List.find?_append, lacking, List.find?_filter, hsame]

theorem Holds.gains {t : RuleTable} {f : Fragment} (h : t.Holds f) (hwf : t.WellFormed) :
    t.Gains (f.shared ++ f.rules) t where
  rule?_eq id := by
    cases hf : (f.shared ++ f.rules).find? (·.id = id) with
    | none => rw [Option.or_none]
    | some r =>
      have hid : r.id = id := by simpa using List.find?_some hf
      have hd := h r (List.mem_of_find?_eq_some hf)
      rw [hid, hwf.defined_eq_isSome, Option.isSome_iff_exists] at hd
      obtain ⟨r', hr'⟩ := hd
      simp [hr']
  reserved _ := rfl

theorem Adds.gains {t t' : RuleTable} {f : Fragment} (hwf : t.WellFormed)
    (h : t.Adds f.stem (t.lacking f.shared ++ f.rules) t') :
    t.Gains (f.shared ++ f.rules) t' where
  rule?_eq id := by
    rw [h.rule?_eq hwf]
    exact hwf.or_find?_lacking f.shared f.rules id
  reserved := h.reserved

theorem Settled.holds_iff {t : RuleTable} (h : t.Settled) (f : Fragment) :
    t.Holds f ↔ t.defined f.handle.id = true := by
  constructor
  · intro hf
    refine hf ⟨f.handle.id, f.layout.text⟩ ?_
    simp [Fragment.rules]
  · intro hd
    refine (h.fragments f).resolve_right fun hu => ?_
    have hfree := (taken_eq_false_iff.1 hu.decl_free).1
    rw [Fragment.handle] at hd
    simp [hfree] at hd

end RuleTable

namespace Fragment

theorem build_of_holds {f : Fragment} {s : Session} (h : s.table.defined f.handle.id = true) :
    f.build s = .ok f.handle (s.noting f.notes) := by
  obtain ⟨body, hbody⟩ := f.builtBy
  rw [hbody.build_eq, memoized, get_bind]
  exact congrFun (if_pos h) _

/-- The rules that a build adds to a table that has none of them. -/
private theorem mem_of_mem_lacking {f : Fragment} {t : RuleTable} {r : Rule}
    (h : r ∈ t.lacking f.shared ++ f.rules) : r ∈ f.shared ++ f.rules := by
  rw [List.mem_append] at h ⊢
  exact h.imp_left fun h => (List.mem_filter.1 h).1

/-- A fragment that is not in the table yet has its helpers built, and then its rule is committed. -/
theorem memo_of_untouched {f : Fragment} {s : Session} (hwf : s.table.WellFormed)
    (hu : s.table.Untouched f.stem)
    (hr : s.table.reserved.contains FormatFragment.digitHandle.id = false) : ∃ t : RuleTable,
    f.build s = Scope.defineNamed ⟨f.stem⟩ "decl" f.layout.text
        ({ s with table := t }.noting (f.notes ++ f.bodyNotes)) ∧
      s.table.Adds f.stem (s.table.lacking f.shared ++ numberedRules f.stem 0 f.helpers) t ∧
      t.UsedUpTo f.stem f.helpers.length := by
  obtain ⟨body, hbody⟩ := f.builtBy
  obtain ⟨t, hrun, hadds, hused⟩ := hbody.body_eq (s.noting f.notes) hwf hu hr
  refine ⟨t, ?_, hadds, hused⟩
  have hfree : (s.noting f.notes).table.defined (Scope.idOf ⟨f.stem⟩ "decl") = false :=
    (RuleTable.taken_eq_false_iff.1 hu.decl_free).1
  rw [hbody.build_eq, memoized, get_bind]
  refine (congrFun (if_neg (by simpa using hfree)) _).trans ?_
  rw [bind_of_ok hrun]
  simp [Session.noting]

/-- The build of a fragment that is not in the table yet, and has a text for its rule. -/
theorem build_adds {f : Fragment} {s : Session} (hwf : s.table.WellFormed)
    (hu : s.table.Untouched f.stem)
    (hr : s.table.reserved.contains FormatFragment.digitHandle.id = false)
    (hp : f.layout.text ≠ "") : ∃ t : RuleTable,
    f.build s = .ok f.handle ({ s with table := t }.noting (f.notes ++ f.bodyNotes)) ∧
      s.table.Adds f.stem (s.table.lacking f.shared ++ f.rules) t := by
  obtain ⟨t, hmemo, hadds, hused⟩ := memo_of_untouched hwf hu hr
  have hfree := hused.decl_free
  have hadds' := hadds.push f.layout.text hfree
  rw [List.append_assoc] at hadds'
  refine ⟨t.push (Scope.idOf ⟨f.stem⟩ "decl") f.layout.text, ?_, hadds'⟩
  rw [hmemo]
  exact Scope.defineNamed_ok hfree hp

/-- The build of a fragment that is not in the table yet. It fails only if there is no text for the
rule. -/
theorem build_of_untouched {f : Fragment} {s : Session} (h : s.table.Settled)
    (hu : s.table.Untouched f.stem) :
    (f.layout.text ≠ "" ∧ ∃ t : RuleTable,
      f.build s = .ok f.handle ({ s with table := t }.noting (f.notes ++ f.bodyNotes)) ∧
        t.Settled ∧ s.table.Gains (f.shared ++ f.rules) t) ∨
    (f.layout.text = "" ∧ ∃ t : RuleTable,
      f.build s = .error (.emptyProduction f.handle.id)
        ({ s with table := t }.noting (f.notes ++ f.bodyNotes)) ∧
        t.Settled ∧ s.table.Gains f.shared t) := by
  by_cases hp : f.layout.text = ""
  · obtain ⟨t, hmemo, hadds, hused⟩ := memo_of_untouched h.wellFormed hu h.digit_not_reserved
    refine .inr ⟨hp, t, ?_, ?_, ?_, hadds.reserved⟩
    · rw [hmemo, hp]
      exact Scope.defineNamed_empty hused.decl_free
    · rw [helpers_eq_nil hp] at hadds hused
      refine h.of_adds hadds (fun r hr => ?_) (.inr hused)
      rw [numberedRules, List.append_nil] at hr
      exact List.mem_append_left _ (List.mem_filter.1 hr).1
    · intro id
      rw [hadds.rule?_eq h.wellFormed, helpers_eq_nil hp, numberedRules]
      exact (h.wellFormed.or_find?_lacking f.shared [] id).trans (by rw [List.append_nil])
  · obtain ⟨t, hrun, hadds⟩ := build_adds h.wellFormed hu h.digit_not_reserved hp
    refine .inl ⟨hp, t, hrun, ?_, hadds.gains h.wellFormed⟩
    refine h.of_adds hadds (fun r hr => mem_of_mem_lacking hr) (.inl fun r hr => ?_)
    rw [hadds.defined_eq h.wellFormed]
    by_cases hd : s.table.defined r.id
    · rw [hd, Bool.true_or]
    · rw [Bool.or_eq_true, List.any_eq_true]
      refine .inr ⟨r, ?_, by simp⟩
      rw [List.mem_append] at hr ⊢
      exact hr.imp_left fun hr => List.mem_filter.2 ⟨hr, by simp [hd]⟩

end Fragment

end RecordGrammar
