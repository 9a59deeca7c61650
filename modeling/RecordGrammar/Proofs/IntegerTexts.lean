import RecordGrammar.Proofs.ConformingPayloads
import RecordGrammar.Proofs.ValueTexts

/-! # A number that is read as an integer is written as that integer

A fraction or an exponent makes a number a float, and so does the sign of a zero. -/

namespace RecordGrammar

namespace Numeral

theorem digitChar_value {c : Char} (hc : c.isDigit = true) :
    c.toNat - '0'.toNat < 10 ∧ Nat.digitChar (c.toNat - '0'.toNat) = c := by
  have hbounds : 48 ≤ c.toNat ∧ c.toNat ≤ 57 := by
    simpa [Char.isDigit, UInt32.le_iff_toNat_le] using hc
  have hzero : '0'.toNat = 48 := rfl
  have hlt : c.toNat - '0'.toNat < 10 := by omega
  refine ⟨hlt, Char.toNat_inj.1 ?_⟩
  rw [Nat.toNat_digitChar_of_lt_ten hlt]
  omega

/-- Digits are appended to the text of a positive number as they are gathered behind it. -/
theorem toDigits_foldl {digits : List Char} (h : ∀ c ∈ digits, c.isDigit = true) {n : Nat}
    (hn : 0 < n) : Nat.toDigits 10 ((digitValues digits).foldl (fun n d => 10 * n + d) n) =
      Nat.toDigits 10 n ++ digits := by
  induction digits generalizing n with
  | nil => simp [digitValues]
  | cons c digits ih =>
    obtain ⟨hc, h⟩ := List.forall_mem_cons.1 h
    obtain ⟨hlt, hchar⟩ := digitChar_value hc
    have hlast := Nat.toDigits_append_toDigits (b := 10) (by decide) hn hlt
    rw [Nat.toDigits_of_lt_base hlt, hchar] at hlast
    calc
      _ = Nat.toDigits 10 (10 * n + (c.toNat - '0'.toNat)) ++ digits := ih h (by omega)
      _ = Nat.toDigits 10 n ++ c :: digits := by rw [← hlast]; simp

/-- Digits without a leading zero are the text of the number they are read as. -/
theorem toDigits_ofDigits {whole : List Char} (h : WholeText whole) :
    Nat.toDigits 10 (ofDigits (digitValues whole)) = whole := by
  obtain ⟨⟨hne, hdigits⟩, hzero⟩ := h
  obtain ⟨c, rest, rfl⟩ := List.exists_cons_of_ne_nil hne
  obtain ⟨hc, hrest⟩ := List.forall_mem_cons.1 hdigits
  obtain ⟨hlt, hchar⟩ := digitChar_value hc
  by_cases hvalue : c.toNat - '0'.toNat = 0
  · obtain rfl := eq_zero_of_value hc hvalue
    rw [hzero rfl]
    rfl
  · have hfirst : ofDigits (digitValues (c :: rest)) =
        (digitValues rest).foldl (fun n d => 10 * n + d) (c.toNat - '0'.toNat) := by
      simp [ofDigits, digitValues]
    rw [hfirst, toDigits_foldl hrest (Nat.pos_of_ne_zero hvalue), Nat.toDigits_of_lt_base hlt, hchar]
    rfl

theorem eq_foldl_of_gather {start n : Nat} {digits : List Nat}
    (h : gather start digits = (n, [])) : n = digits.foldl (fun n d => 10 * n + d) start := by
  induction digits generalizing start with
  | nil => exact (Prod.mk.inj h).1.symm
  | cons d digits ih =>
    rw [gather] at h
    split_ifs at h
    · exact ih h
    · cases h

theorem value_eq_int_inv {n : Numeral} {k : Int} (h : n.value = some (.int k)) :
    n.fraction = [] ∧ n.exponent = none ∧ ∃ m : Nat, gather 0 n.whole = (m, []) ∧
      (n.negative = false ∧ k = m ∨ n.negative = true ∧ 0 < m ∧ k = -m) := by
  have hfloat {negative rank} : ¬float negative rank = some (.int k) := by
    intro hf
    obtain ⟨x, -, hx⟩ := Option.map_eq_some_iff.1 hf
    cases hx
  unfold value at h
  cases hgather : gather 0 n.whole with
  | mk m dropped =>
    have plain (hp : (dropped.isEmpty && n.fraction.isEmpty && n.exponent.isNone) = true) :
        dropped = [] ∧ n.fraction = [] ∧ n.exponent = none := by
      simpa [and_assoc] using hp
    simp only [hgather] at h
    split_ifs at h with hplain hsign hfits
    · obtain ⟨hd, hf, he⟩ := plain hplain
      exact ⟨hf, he, m, by rw [hd], .inl ⟨by simpa using hsign, by simpa using h.symm⟩⟩
    · obtain ⟨hd, hf, he⟩ := plain hplain
      exact ⟨hf, he, m, by rw [hd], .inr ⟨by simpa using hsign, hfits.1, by simpa using h.symm⟩⟩
    · exact absurd h hfloat
    · obtain ⟨rank, -, hrank⟩ := Option.bind_eq_some_iff.1 h
      exact absurd hrank hfloat

section

variable {n : Numeral} {sign whole fraction exponent : List Char} {k : Int}

/-- What is read as an integer is spelled as that integer is. -/
theorem Spells.text_of_int (h : n.Spells sign whole fraction exponent)
    (hvalue : n.value = some (.int k)) :
    sign ++ (whole ++ (fraction ++ exponent)) = (toString k).toList := by
  obtain ⟨hf, he, m, hgather, hk⟩ := value_eq_int_inv hvalue
  obtain ⟨rfl, -⟩ := h.fraction.resolve_right fun hr => hr.2 hf
  obtain ⟨rfl, -⟩ := h.exponent.resolve_right fun hr => hr.2 he
  have hwhole : whole = Nat.toDigits 10 m := by
    rw [eq_foldl_of_gather hgather, h.whole.2]
    exact (toDigits_ofDigits h.whole.1).symm
  rw [toList_toString_int, List.append_nil, List.append_nil, hwhole]
  rcases hk with ⟨hnegative, rfl⟩ | ⟨hnegative, hpos, rfl⟩
  · obtain ⟨rfl, -⟩ := h.sign.resolve_right (by simp [hnegative])
    simp
  · obtain ⟨rfl, -⟩ := h.sign.resolve_left (by simp [hnegative])
    simp [hpos]

end

end Numeral

/-- A plus sign in front is no part of JSON. -/
theorem PaddedText.no_plus {v : Json} {text : List Char} (h : PaddedText v text) :
    text.head? ≠ some '+' := by
  cases h with
  | @mk v before inner after opening inside _ =>
    cases before with
    | nil =>
      obtain ⟨c, rest, rfl, hopens⟩ := inside.opens
      intro hplus
      obtain rfl : c = '+' := Option.some.inj hplus
      cases v with
      | bool b => cases b <;> simp [Json.Opens] at hopens
      | _ => simp [Json.Opens] at hopens
    | cons c before =>
      intro hplus
      obtain rfl : c = '+' := Option.some.inj hplus
      exact absurd (opening '+' List.mem_cons_self) (by decide)

variable {text : String} {json : Json}

/-- A number of the grammar that is read as an integer is the text of that integer. -/
theorem eq_toString_of_ofText? {k : Int} (h : NumberText text.toList)
    (hread : Json.ofText? text = some (.number (.int k))) : text = toString k := by
  have hplus := (paddedText_of_ofText? hread).no_plus
  obtain ⟨n, hn⟩ := Numeral.read_append h hplus
  have hwhole := hn [] Numeral.ends_nil
  rw [List.append_nil] at hwhole
  have hvalue := (JsonReader.ofText?_number h hplus hwhole).symm.trans hread
  obtain ⟨sign, whole, fraction, exponent, hspells, htext⟩ := Numeral.read_sound hwhole
  cases hnumber : n.value with
  | none => simp [hnumber, Node.toJson?] at hvalue
  | some number =>
    cases number with
    | int m =>
      simp only [hnumber, Option.elim_some, Node.ofNumber, Node.toJson?, Option.some.injEq,
        Json.number.injEq, JsonNumber.int.injEq] at hvalue
      subst hvalue
      rw [List.append_nil, hspells.text_of_int hnumber] at htext
      exact String.toList_inj.1 htext
    | float x => simp [hnumber, Node.ofNumber, Node.toJson?] at hvalue

/-- Of the numbers of the grammar those decode as integers that are written as one of 64 bits. -/
theorem decodes_int_iff (h : NumberText text.toList) (hread : Json.ofText? text = some json)
    (left : Nat) (site : DecodeSite) (name : String) :
    (∃ decoded, PayloadDecoder.type (left + 1) site name .int json = .ok decoded) ↔
      ∃ k : Int64, text = (DecodedValue.int k).canonicalText := by
  have hdecode : PayloadDecoder.type (left + 1) site name .int json =
      (site.expect .int json json.int64?).map .int := by
    rw [PayloadDecoder.type_succ]
    rfl
  rw [hdecode]
  constructor
  · rintro ⟨decoded, hdecoded⟩
    obtain ⟨k, hk, -⟩ := Except.map_eq_ok_iff.1 hdecoded
    obtain rfl := Json.eq_of_int64? (DecodeSite.expect_eq_ok_iff.1 hk)
    exact ⟨k, eq_toString_of_ofText? h hread⟩
  · rintro ⟨k, rfl⟩
    obtain rfl : json = .number (.int k.toInt) :=
      Option.some.inj (hread.symm.trans (Json.ofText?_integer (int64_fits k)))
    exact ⟨.int k, Except.map_eq_ok_iff.2
      ⟨k, DecodeSite.expect_eq_ok_iff.2 (int64?_eq_some_iff.2 rfl), rfl⟩⟩

end RecordGrammar
