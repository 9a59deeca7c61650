import RecordGrammar.Proofs.RowTexts
import RecordGrammar.Proofs.SettledTables
import Mathlib.Data.List.Nodup

/-! # The text behind a memo key determines the rules of the fragment -/

namespace RecordGrammar

theorem RuleHandle.text_inj {h h' : RuleHandle} (he : h.text = h'.text) : h = h' := by
  cases h
  cases h'
  simpa [RuleHandle.text] using he

theorem RuleHandle.toList_inj {h h' : RuleHandle} (he : h.id.toList = h'.id.toList) : h = h' :=
  congrArg RuleHandle.mk (String.toList_inj.1 he)

/-- The text that rows of names and references are keyed by, with a separator before each row. -/
def keyTail (separator : Char) (rows : List (String × RuleHandle)) : List Char :=
  rows.flatMap fun row => separator :: (row.1 ++ row.2.text).toList

section Rows

variable {separator : Char} {rows rows' : List (String × RuleHandle)}

theorem keyTail_cons (row : String × RuleHandle) (rows : List (String × RuleHandle)) :
    keyTail separator (row :: rows) = separator ::
      (row.1.toList ++ '<' :: (row.2.id.toList ++ '>' :: keyTail separator rows)) := by
  simp [keyTail, RuleHandle.text]

theorem keyTail_cons_ne_nil (row : String × RuleHandle) : keyTail separator (row :: rows) ≠ [] := by
  simp [keyTail]

theorem toList_intercalate_cons {joint : String} (hjoint : joint.toList = [separator])
    (row : String × RuleHandle) (rows : List (String × RuleHandle)) :
    separator :: (joint.intercalate ((row :: rows).map fun f => f.1 ++ f.2.text)).toList =
      keyTail separator (row :: rows) := by
  rw [String.toList_intercalate, hjoint, List.map_cons, List.map_cons, intercalate_cons]
  simp [keyTail, List.flatMap_map]

/-- Rows that are joined to the same text. -/
theorem keyTail_eq (joint : String) (hjoint : joint.toList = [separator])
    (h : joint.intercalate (rows.map fun f => f.1 ++ f.2.text) =
      joint.intercalate (rows'.map fun f => f.1 ++ f.2.text)) :
    keyTail separator rows = keyTail separator rows' := by
  have hne (row : String × RuleHandle) (rows : List (String × RuleHandle)) :
      joint.intercalate ((row :: rows).map fun f => f.1 ++ f.2.text) ≠ "" := by
    intro hempty
    have hlist := toList_intercalate_cons hjoint row rows
    rw [hempty, keyTail_cons] at hlist
    simp at hlist
  cases rows with
  | nil =>
    cases rows' with
    | nil => rfl
    | cons row' rows' => exact absurd h.symm (hne row' rows')
  | cons row rows =>
    cases rows' with
    | nil => exact absurd h (hne row rows)
    | cons row' rows' =>
      rw [← toList_intercalate_cons hjoint, ← toList_intercalate_cons hjoint, h]

/-- Rows of names and references are told by their texts, whatever stands between them: a name ends
at the first opening bracket and a reference at the first closing one. -/
theorem keyTail_inj (h : ∀ row ∈ rows, '<' ∉ row.1.toList ∧ '>' ∉ row.2.id.toList)
    (h' : ∀ row ∈ rows', '<' ∉ row.1.toList ∧ '>' ∉ row.2.id.toList)
    (he : keyTail separator rows = keyTail separator rows') : rows = rows' := by
  induction rows generalizing rows' with
  | nil =>
    cases rows' with
    | nil => rfl
    | cons row' rows' => exact absurd he.symm (keyTail_cons_ne_nil row')
  | cons row rows ih =>
    cases rows' with
    | nil => exact absurd he (keyTail_cons_ne_nil row)
    | cons row' rows' =>
      obtain ⟨⟨hname, hid⟩, hrows⟩ := List.forall_mem_cons.1 h
      obtain ⟨⟨hname', hid'⟩, hrows'⟩ := List.forall_mem_cons.1 h'
      rw [keyTail_cons, keyTail_cons] at he
      obtain ⟨heqname, he⟩ := append_cons_inj_of_first hname hname' (List.cons.inj he).2
      obtain ⟨heqid, he⟩ := append_cons_inj_of_first hid hid' he
      have hrow : row = row' :=
        Prod.ext (String.toList_inj.1 heqname) (RuleHandle.toList_inj heqid)
      rw [hrow, ih hrows hrows' he]

end Rows

/-- The members of a tuple are keyed as rows without names. -/
theorem tuple_keyTail_eq {members members' : List RuleHandle}
    (h : "[".intercalate (members.map RuleHandle.text) =
      "[".intercalate (members'.map RuleHandle.text)) :
    keyTail '[' (members.map fun m => ("", m)) = keyTail '[' (members'.map fun m => ("", m)) :=
  keyTail_eq "[" rfl (by simpa [Function.comp_def] using h)

theorem tuple_key_inj {members members' : List RuleHandle} (h : ∀ m ∈ members, '>' ∉ m.id.toList)
    (h' : ∀ m ∈ members', '>' ∉ m.id.toList) (he : "[".intercalate (members.map RuleHandle.text) =
      "[".intercalate (members'.map RuleHandle.text)) : members = members' := by
  have hrows {l : List RuleHandle} (hl : ∀ m ∈ l, '>' ∉ m.id.toList) :
      ∀ row ∈ l.map fun m => ("", m), '<' ∉ row.1.toList ∧ '>' ∉ row.2.id.toList :=
    List.forall_mem_map.2 fun m hm => ⟨by simp, hl m hm⟩
  have hsame := keyTail_inj (hrows h) (hrows h') (tuple_keyTail_eq he)
  exact (List.map_inj_right fun _ _ he => congrArg Prod.snd he).1 hsame

namespace Fragment

/-- The key of a fragment can be taken apart again. -/
def Clear : Fragment → Prop
  | .tuple members => ∀ m ∈ members, '>' ∉ m.id.toList
  | .object rows => ∀ row ∈ rows, '<' ∉ row.1.toList ∧ '>' ∉ row.2.id.toList
  | _ => True

/-- The position of the constructor that has a tag. -/
private def kindOf (tag : String) : Nat :=
  if tag = "__bjnu" then 0 else if tag = "__bjs" then 1 else if tag = "__bjb" then 2
  else if tag = "__bja_" then 3 else if tag = "__bji_" then 4 else if tag = "__bje_" then 5
  else if tag = "__bjo_" then 6 else if tag = "__bjq_" then 7 else if tag = "__bst_" then 8 else 9

private theorem ctorIdx_eq (f : Fragment) : f.ctorIdx = kindOf f.tag := by
  cases f <;> simp [tag, kindOf, Fragment.ctorIdx]

/-- The stem of a fragment tells its kind. -/
theorem ctorIdx_eq_of_stem_eq {f g : Fragment} (hs : f.stem = g.stem) : f.ctorIdx = g.ctorIdx := by
  rw [ctorIdx_eq, ctorIdx_eq, (tag_eq_of_stem_eq hs).1]

/-- Fragments of one kind that are keyed by the same text are the same, unless they are
enumerations, whose literals may share their texts. -/
theorem eq_of_canonical_eq {f g : Fragment} (hf : f.Clear) (hg : g.Clear) (hs : f.stem = g.stem)
    (hc : f.canonical? = g.canonical?) :
    f = g ∨ ∃ literals literals', f = .enumeration literals ∧ g = .enumeration literals' := by
  have hkind := ctorIdx_eq_of_stem_eq hs
  cases f <;> cases g <;> first | (simp [Fragment.ctorIdx] at hkind; done) | skip
  case number => exact .inl rfl
  case string => exact .inl rfl
  case boolean => exact .inl rfl
  case mailAddress => exact .inl rfl
  case array inner inner' => exact .inl (by rw [RuleHandle.text_inj (Option.some.inj hc)])
  case inQuotes inner inner' => exact .inl (by rw [RuleHandle.text_inj (Option.some.inj hc)])
  case maskedTime mask mask' => exact .inl (by rw [Option.some.inj hc])
  case tuple members members' => exact .inl (by rw [tuple_key_inj hf hg (Option.some.inj hc)])
  case object rows rows' =>
    exact .inl (by rw [keyTail_inj hf hg (keyTail_eq "," rfl (Option.some.inj hc))])
  case enumeration literals literals' => exact .inr ⟨literals, literals', rfl, rfl⟩

/-- Fragments of one kind that are keyed by the same text have the same rules. -/
theorem rules_eq_of_canonical_eq {f g : Fragment} (hf : f.Clear) (hg : g.Clear)
    (hs : f.stem = g.stem) (hc : f.canonical? = g.canonical?) : f.rules = g.rules := by
  obtain rfl | ⟨literals, literals', rfl, rfl⟩ := eq_of_canonical_eq hf hg hs hc
  · rfl
  · have htext : (enumeration literals).layout.text = (enumeration literals').layout.text := by
      simpa [layout, canonical?, Function.comp_def] using hc
    rw [rules, rules, handle, handle, hs, htext]
    rfl

theorem ids_rules_nodup (f : Fragment) : (f.rules.map Rule.id).Nodup := by
  rw [ids_rules, List.nodup_append]
  refine ⟨?_, by simp, ?_⟩
  · refine List.Nodup.map (fun m n he => ?_) List.nodup_range'
    rw [autoId_eq_idOf, autoId_eq_idOf] at he
    exact toString_nat_inj (Scope.idOf_inj (underscore_not_mem_toString m)
      (underscore_not_mem_toString n) he).2
  · intro x hx y hy he
    obtain ⟨k, -, rfl⟩ := List.mem_map.1 hx
    rw [List.mem_singleton] at hy
    rw [hy, autoId_eq_idOf] at he
    exact toString_nat_ne_decl k
      (Scope.idOf_inj (underscore_not_mem_toString k) underscore_not_mem_decl he).2

/-- Two rules of one id are the same if the stem of a fragment tells its rules. -/
theorem rule_unique {f g : Fragment} (hrules : f.stem = g.stem → f.rules = g.rules) {r r' : Rule}
    (hr : r ∈ f.shared ++ f.rules) (hr' : r' ∈ g.shared ++ g.rules) (hid : r.id = r'.id) :
    r = r' := by
  rcases List.mem_append.1 hr with hown | hr
  · rw [id_of_mem_shared hown] at hid ⊢
    exact (eq_digitRule hr' hid.symm).symm
  rcases List.mem_append.1 hr' with hown | hr'
  · rw [id_of_mem_shared hown] at hid
    exact absurd hid.symm (digitHandle_ne_of_mem_rules hr)
  · obtain ⟨x, hx, hxid⟩ := id_of_mem_rules hr
    obtain ⟨y, hy, hyid⟩ := id_of_mem_rules hr'
    obtain ⟨hscope, -⟩ := Scope.idOf_inj hx hy (hxid.symm.trans (hid.trans hyid))
    rw [← hrules (congrArg Scope.stem hscope)] at hr'
    exact List.inj_on_of_nodup_map f.ids_rules_nodup hr hr' hid

/-- The rules of two fragments agree on an id if the keys of the fragments do. -/
theorem rule_eq_of_id_eq {f g : Fragment} (hf : f.Clear) (hg : g.Clear)
    (hkey : f.stem = g.stem → f.canonical? = g.canonical?) {r r' : Rule}
    (hr : r ∈ f.shared ++ f.rules) (hr' : r' ∈ g.shared ++ g.rules) (hid : r.id = r'.id) :
    r = r' :=
  rule_unique (fun hs => rules_eq_of_canonical_eq hf hg hs (hkey hs)) hr hr' hid

end Fragment

end RecordGrammar
