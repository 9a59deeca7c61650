import RecordGrammar.RecordCompiler
import Std.Data.String.ToNat

/-! # Ids of rules: a stem, an underscore, and a suffix without one -/

namespace RecordGrammar

theorem append_cons_inj_of_first {α : Type} {c : α} {xs ys xs' ys' : List α} (hx : c ∉ xs)
    (hx' : c ∉ xs') (h : xs ++ c :: ys = xs' ++ c :: ys') : xs = xs' ∧ ys = ys' := by
  induction xs generalizing xs' with
  | nil =>
    cases xs' with
    | nil => exact ⟨rfl, by simpa using h⟩
    | cons b xs' =>
      obtain ⟨rfl, -⟩ := List.cons.inj h
      simp at hx'
  | cons a xs ih =>
    cases xs' with
    | nil =>
      obtain ⟨rfl, -⟩ := List.cons.inj h
      simp at hx
    | cons b xs' =>
      obtain ⟨rfl, htail⟩ := List.cons.inj h
      obtain ⟨rfl, hys⟩ := ih (by simp_all) (by simp_all) htail
      exact ⟨rfl, hys⟩

theorem append_cons_inj_of_last {α : Type} {c : α} {xs ys xs' ys' : List α} (hy : c ∉ ys)
    (hy' : c ∉ ys') (h : xs ++ c :: ys = xs' ++ c :: ys') : xs = xs' ∧ ys = ys' := by
  have hreverse := congrArg List.reverse h
  simp only [List.reverse_append, List.reverse_cons, List.append_assoc, List.singleton_append]
    at hreverse
  obtain ⟨hys, hxs⟩ := append_cons_inj_of_first (by simpa using hy) (by simpa using hy') hreverse
  exact ⟨List.reverse_inj.1 hxs, List.reverse_inj.1 hys⟩

/-- Two ids agree only if their stems and their suffixes do. -/
theorem Scope.idOf_inj {scope scope' : Scope} {name name' : String} (h : '_' ∉ name.toList)
    (h' : '_' ∉ name'.toList) (he : scope.idOf name = scope'.idOf name') :
    scope = scope' ∧ name = name' := by
  have hlist := congrArg String.toList he
  simp only [Scope.idOf, String.toList_append, List.append_assoc] at hlist
  obtain ⟨hstem, hname⟩ := append_cons_inj_of_last (c := '_') h h' hlist
  cases scope
  cases scope'
  exact ⟨congrArg Scope.mk (String.toList_inj.1 hstem), String.toList_inj.1 hname⟩

theorem autoId_eq_idOf (stem : String) (n : Nat) :
    RuleTable.autoId stem n = Scope.idOf ⟨stem⟩ (toString n) := rfl

theorem underscore_not_mem_toString (n : Nat) : '_' ∉ (toString n).toList := by
  intro h
  rw [show toString n = Nat.repr n from rfl, Nat.toList_repr] at h
  exact Nat.underscore_not_in_toDigits h

theorem toString_nat_inj {m n : Nat} (h : toString m = toString n) : m = n := Nat.repr_injective h

theorem underscore_not_mem_decl : '_' ∉ "decl".toList := by decide

theorem toString_nat_ne_decl (n : Nat) : toString n ≠ "decl" := by
  intro h
  have hd : 'd' ∈ (Nat.repr n).toList := by
    rw [show Nat.repr n = toString n from rfl, h]
    decide
  rw [Nat.toList_repr] at hd
  exact absurd (Nat.isDigit_of_mem_toDigits (by decide) (by decide) hd) (by decide)

/-- What a check of each character of a list shows. There are finitely many characters, so that
deciding the statement itself could go through all of them. -/
theorem forall_mem_of_all {P : Char → Prop} [DecidablePred P] {chars : List Char}
    (h : (chars.all fun c => decide (P c)) = true) : ∀ c ∈ chars, P c := by
  simpa using h

/-- A character that the ids of fragments are made of. None of them has a meaning in a
production. -/
def IsPlain (c : Char) : Prop := c.isAlphanum = true ∨ c = '_'

instance (c : Char) : Decidable (IsPlain c) := inferInstanceAs (Decidable (_ ∨ _))

def PlainId (id : String) : Prop := ∀ c ∈ id.toList, IsPlain c

instance (id : String) : Decidable (PlainId id) := List.decidableBAll _ _

theorem PlainId.append {s t : String} (hs : PlainId s) (ht : PlainId t) : PlainId (s ++ t) := by
  intro c hc
  rw [String.toList_append, List.mem_append] at hc
  exact hc.elim (hs c) (ht c)

theorem PlainId.not_mem {id : String} (h : PlainId id) {c : Char} (hc : ¬IsPlain c) :
    c ∉ id.toList := fun hm => hc (h c hm)

theorem PlainId.idOf {stem name : String} (hs : PlainId stem) (hn : PlainId name) :
    PlainId (Scope.idOf ⟨stem⟩ name) :=
  (hs.append (show PlainId "_" by decide)).append hn

theorem PlainId.toString_nat (n : Nat) : PlainId (toString n) := by
  intro c hc
  rw [show toString n = Nat.repr n from rfl, Nat.toList_repr] at hc
  have hd := Nat.isDigit_of_mem_toDigits (by decide) (by decide) hc
  exact .inl (by simp [Char.isAlphanum, hd])

/-- An id that is read back where it stands between angle brackets: its end is found, and it is not
taken for a mark. -/
structure Referable (id : String) : Prop where
  closed : '>' ∉ id.toList
  not_any : ¬"any!".toList <+: id.toList
  not_except : ¬"except!(".toList <+: id.toList

instance (id : String) : Decidable (Referable id) :=
  decidable_of_iff ('>' ∉ id.toList ∧ ¬"any!".toList <+: id.toList ∧ ¬"except!(".toList <+: id.toList)
    ⟨fun ⟨h, h', h''⟩ => ⟨h, h', h''⟩, fun h => ⟨h.closed, h.not_any, h.not_except⟩⟩

theorem PlainId.referable {id : String} (h : PlainId id) : Referable id := by
  have hmark : '!' ∉ id.toList := h.not_mem (by decide)
  exact ⟨h.not_mem (by decide), fun hany => hmark (hany.subset (by decide)),
    fun hexcept => hmark (hexcept.subset (by decide))⟩

private theorem hexDigit_isAlphanum {n : Nat} (h : n < 16) : (hexDigit n).isAlphanum = true := by
  have hall : ∀ k < 16, (hexDigit k).isAlphanum = true := by decide
  exact hall n h

theorem memoKey_isAlphanum (canonical : String) :
    ∀ c ∈ (memoKey canonical).toList, c.isAlphanum = true := by
  intro c hc
  simp only [memoKey, String.toList_ofList] at hc
  obtain ⟨w, -, hw⟩ := List.mem_flatMap.1 (List.mem_of_mem_take hc)
  obtain ⟨i, -, rfl⟩ := List.mem_map.1 hw
  exact hexDigit_isAlphanum (Nat.mod_lt _ (by decide))

theorem memoKey_plain (canonical : String) : PlainId (memoKey canonical) :=
  fun c hc => .inl (memoKey_isAlphanum canonical c hc)

theorem memoKey_length (canonical : String) : (memoKey canonical).toList.length = 16 := by
  simp [memoKey, Sha256.Words.toList, Sha256.hexWord]

end RecordGrammar
