import RecordGrammar.Proofs.FragmentCalls
import RecordGrammar.Proofs.ScalarTexts

/-! # The e-mail addresses that the grammar derives -/

namespace RecordGrammar

/-- A character that may stand before the at sign, apart from a dot. -/
def MailChar (c : Char) : Prop := c.isAlphanum = true ∨ c ∈ "!#$%&*+-/=?^_~".toList

instance (c : Char) : Decidable (MailChar c) := inferInstanceAs (Decidable (_ ∨ _))

/-- What stands before the at sign. Dots are single, and none is at an edge. -/
structure LocalText (text : List Char) : Prop where
  ne_nil : text ≠ []
  chars : ∀ c ∈ text, MailChar c ∨ c = '.'
  head : text.head? ≠ some '.'
  last : text.getLast? ≠ some '.'
  single : ¬['.', '.'] <:+: text

/-- What stands between two dots behind the at sign. There is no hyphen at an edge. -/
structure LabelText (text : List Char) : Prop where
  ne_nil : text ≠ []
  chars : ∀ c ∈ text, c.isAlphanum = true ∨ c = '-'
  head : text.head? ≠ some '-'
  last : text.getLast? ≠ some '-'

def DomainText (text : List Char) : Prop :=
  ∃ labels, labels ≠ [] ∧ (∀ label ∈ labels, LabelText label) ∧ text = ['.'].intercalate labels

def MailText (text : String) : Prop :=
  ∃ front domain, LocalText front ∧ DomainText domain ∧ text.toList = front ++ '@' :: domain

section Edges

variable {c : Char} {text : List Char}

theorem MailChar.ne_dot (hc : MailChar c) : c ≠ '.' := by
  rintro rfl
  exact absurd hc (by decide)

namespace LocalText

theorem singleton (hc : MailChar c) : LocalText [c] := by
  refine ⟨by simp, by simpa using .inl hc, ?_, ?_, by simp [List.infix_cons_iff]⟩
  · simpa using hc.ne_dot
  · simpa using hc.ne_dot

theorem cons (hc : MailChar c) (h : LocalText text) : LocalText (c :: text) := by
  obtain ⟨d, rest, rfl⟩ := List.exists_cons_of_ne_nil h.ne_nil
  refine ⟨by simp, List.forall_mem_cons.2 ⟨.inl hc, h.chars⟩, by simpa using hc.ne_dot, ?_, ?_⟩
  · rw [List.getLast?_cons_cons]
    exact h.last
  · rw [List.infix_cons_iff, List.cons_prefix_cons]
    rintro (⟨hdot, -⟩ | hinfix)
    · exact hc.ne_dot hdot.symm
    · exact h.single hinfix

theorem cons_dot (hc : MailChar c) (h : LocalText text) : LocalText (c :: '.' :: text) := by
  obtain ⟨d, rest, rfl⟩ := List.exists_cons_of_ne_nil h.ne_nil
  have hchars := List.forall_mem_cons.2 ⟨.inr rfl, h.chars⟩
  refine ⟨by simp, List.forall_mem_cons.2 ⟨.inl hc, hchars⟩, by simpa using hc.ne_dot, ?_, ?_⟩
  · rw [List.getLast?_cons_cons, List.getLast?_cons_cons]
    exact h.last
  · rw [List.infix_cons_iff, List.infix_cons_iff]
    simp only [List.cons_prefix_cons]
    rintro (⟨hdot, -⟩ | ⟨-, hdot, -⟩ | hinfix)
    · exact hc.ne_dot hdot.symm
    · exact h.head (by rw [hdot, List.head?_cons])
    · exact h.single hinfix

theorem mailChar (h : LocalText (c :: text)) : MailChar c :=
  (h.chars c List.mem_cons_self).resolve_right (by simpa using h.head)

/-- Behind a character that is not a dot there is nothing, or another local part, or a dot and
another local part. -/
theorem tail (h : LocalText (c :: text)) :
    text = [] ∨ LocalText text ∨ ∃ rest, text = '.' :: rest ∧ LocalText rest := by
  obtain ⟨-, hchars, -, hlast, hsingle⟩ := h
  obtain ⟨-, hchars⟩ := List.forall_mem_cons.1 hchars
  cases text with
  | nil => exact .inl rfl
  | cons d rest =>
    rw [List.getLast?_cons_cons] at hlast
    have hsingle : ¬['.', '.'] <:+: d :: rest :=
      fun hinfix => hsingle (List.infix_cons_iff.2 (.inr hinfix))
    by_cases hd : d = '.'
    · subst hd
      have hne : rest ≠ [] := by
        rintro rfl
        exact hlast rfl
      obtain ⟨e, rest, rfl⟩ := List.exists_cons_of_ne_nil hne
      rw [List.getLast?_cons_cons] at hlast
      rw [List.infix_cons_iff, not_or] at hsingle
      obtain ⟨-, hchars⟩ := List.forall_mem_cons.1 hchars
      refine .inr (.inr ⟨e :: rest, rfl, hne, hchars, fun he => ?_, hlast, hsingle.2⟩)
      obtain rfl : e = '.' := by simpa using he
      exact hsingle.1 ⟨rest, rfl⟩
    · exact .inr (.inl ⟨by simp, hchars, by simpa using hd, hlast, hsingle⟩)

end LocalText

/-- The characters of a local part after the first, each with the dot that it may have before it. -/
theorem localText_iff : LocalText text ↔ ∃ (c : Char) (parts : List (List Char)), MailChar c ∧
    (∀ part ∈ parts, ∃ d, MailChar d ∧ (part = [d] ∨ part = ['.', d])) ∧
      text = c :: parts.flatten := by
  constructor
  · intro h
    induction hn : text.length using Nat.strong_induction_on generalizing text with
    | _ n ih =>
      subst hn
      obtain ⟨c, text, rfl⟩ := List.exists_cons_of_ne_nil h.ne_nil
      have hc := h.mailChar
      obtain rfl | htext | ⟨rest, rfl, hrest⟩ := h.tail
      · exact ⟨c, [], hc, by simp, rfl⟩
      · obtain ⟨d, parts, hd, hparts, rfl⟩ := ih _ (by simp) htext rfl
        exact ⟨c, [d] :: parts, hc, List.forall_mem_cons.2 ⟨⟨d, hd, .inl rfl⟩, hparts⟩, rfl⟩
      · have hshort : rest.length < (c :: '.' :: rest).length := by
          rw [List.length_cons, List.length_cons]
          omega
        obtain ⟨d, parts, hd, hparts, rfl⟩ := ih _ hshort hrest rfl
        exact ⟨c, ['.', d] :: parts, hc, List.forall_mem_cons.2 ⟨⟨d, hd, .inr rfl⟩, hparts⟩, rfl⟩
  · rintro ⟨c, parts, hc, hparts, rfl⟩
    induction parts generalizing c with
    | nil => exact .singleton hc
    | cons part parts ih =>
      obtain ⟨⟨d, hd, hpart⟩, htail⟩ := List.forall_mem_cons.1 hparts
      have hrest := ih d hd htail
      rcases hpart with rfl | rfl
      · exact hrest.cons hc
      · exact hrest.cons_dot hc

theorem labelText_iff : LabelText text ↔ (∃ c, c.isAlphanum = true ∧ text = [c]) ∨
    ∃ first middle last, first.isAlphanum = true ∧ last.isAlphanum = true ∧
      (∀ c ∈ middle, c.isAlphanum = true ∨ c = '-') ∧ text = first :: (middle ++ [last]) := by
  constructor
  · rintro ⟨hne, hchars, hhead, hlast⟩
    obtain ⟨first, rest, rfl⟩ := List.exists_cons_of_ne_nil hne
    obtain ⟨hfirst, hrest⟩ := List.forall_mem_cons.1 hchars
    have hfirst := hfirst.resolve_right (by simpa using hhead)
    obtain rfl | ⟨middle, last, rfl⟩ := rest.eq_nil_or_concat'
    · exact .inl ⟨first, hfirst, rfl⟩
    · obtain ⟨hmiddle, hend⟩ := List.forall_mem_append.1 hrest
      rw [← List.cons_append, List.getLast?_concat] at hlast
      have hend := (List.forall_mem_singleton.1 hend).resolve_right (by simpa using hlast)
      exact .inr ⟨first, middle, last, hfirst, hend, hmiddle, rfl⟩
  · have hhyphen {c : Char} (hc : c.isAlphanum = true) : c ≠ '-' := by
      rintro rfl
      exact absurd hc (by decide)
    rintro (⟨c, hc, rfl⟩ | ⟨first, middle, last, hfirst, hlast, hmiddle, rfl⟩)
    · exact ⟨by simp, by simp [hc], by simpa using hhyphen hc, by simpa using hhyphen hc⟩
    · refine ⟨by simp, ?_, by simpa using hhyphen hfirst, ?_⟩
      · simp only [List.forall_mem_cons, List.forall_mem_append]
        exact ⟨.inl hfirst, hmiddle, .inl hlast, by simp⟩
      · rw [← List.cons_append, List.getLast?_concat]
        simpa using hhyphen hlast

end Edges

theorem mem_letters_iff {c : Char} : c ∈ FormatFragment.letters ↔ c.isAlpha = true := by
  refine mem_iff_of_small (·.isAlpha = true) 123 ?_ (fun c hc => ?_) ?_
  · exact forall_mem_of_all (by decide)
  · have hupper (h : c.isUpper = true) : c.toNat ≤ 90 := (of_decide_eq_true h).2
    have hlower (h : c.isLower = true) : c.toNat ≤ 122 :=
      of_decide_eq_true (Bool.and_eq_true_iff.1 h).2
    rcases Bool.or_eq_true_iff.1 hc with h | h
    · exact Nat.lt_of_le_of_lt (hupper h) (by decide)
    · exact Nat.lt_of_le_of_lt (hlower h) (by decide)
  · decide

section Rules

variable {t : RuleTable} {text : List Char} (hf : t.HoldsRules .mailAddress)

include hf

private theorem mail_helper {k : Nat} {layout : Layout}
    (hk : FormatFragment.mailHelpers[k]? = some layout) :
    t.reading (helperHandle "__bse" k).id = some layout.symbols :=
  hf.reading_helper trivial (by simp [Fragment.inputs]) hk

private theorem mail_helper_iff {k : Nat} {layout : Layout}
    (hk : FormatFragment.mailHelpers[k]? = some layout) :
    Derives t.reading [.rule (helperHandle "__bse" k).id] text ↔
      ∃ row ∈ layout.symbols, Derives t.reading row text :=
  helper_texts_iff hf trivial (by simp [Fragment.inputs]) hk

private theorem alphanumeric_texts (text : List Char) :
    Derives t.reading [.rule (helperHandle "__bse" 2).id] text ↔
      ∃ c, c.isAlphanum = true ∧ text = [c] := by
  have hletter : Derives t.reading [.rule (helperHandle "__bse" 0).id] text ↔
      ∃ c, c.isAlpha = true ∧ text = [c] := by
    refine (mail_helper_iff hf (k := 0) rfl).trans (ofTerminals_texts.trans ?_)
    simp [mem_letters_iff]
  have hdigit : Derives t.reading [.rule (helperHandle "__bse" 1).id] text ↔
      ∃ c, c.isDigit = true ∧ text = [c] :=
    (mail_helper_iff hf (k := 1) rfl).trans decimalDigits_texts
  have hrows : Derives t.reading [.rule (helperHandle "__bse" 2).id] text ↔
      Derives t.reading [.rule (helperHandle "__bse" 0).id] text ∨
        Derives t.reading [.rule (helperHandle "__bse" 1).id] text :=
    (mail_helper_iff hf (k := 2) rfl).trans either_texts
  rw [hrows, hletter, hdigit, ← exists_or]
  simp only [Char.isAlphanum, Bool.or_eq_true, or_and_right]

/-- Letters, digits and hyphens, and then a letter or a digit. -/
private theorem labelRest_texts (text : List Char) :
    Derives t.reading [.rule (helperHandle "__bse" 3).id] text ↔
      ∃ middle last, last.isAlphanum = true ∧ (∀ c ∈ middle, c.isAlphanum = true ∨ c = '-') ∧
        text = middle ++ [last] := by
  have hone := alphanumeric_texts hf
  have hread := mail_helper hf (k := 3) rfl
  have hpart (part : List Char) : (∃ step ∈ [[.rule (helperHandle "__bse" 2).id], [.terminal ['-']]],
      Derives t.reading step part) ↔ ∃ c : Char, (c.isAlphanum = true ∨ c = '-') ∧ part = [c] := by
    simp [hone, Derives.terminal_iff, or_and_right, exists_or]
  refine (Derives.rounds_iff [[.rule (helperHandle "__bse" 2).id], [.terminal ['-']]]
    [[.rule (helperHandle "__bse" 2).id]] hread ?_).trans ?_
  · simp [Layout.symbols, Piece.symbol, or_assoc]
  simp only [Derives.Rounds, hpart, forall_mem_exists_iff, List.mem_singleton, exists_eq_left, hone]
  constructor
  · rintro ⟨_, _, _, hnil, ⟨middle, hmiddle, rfl⟩, ⟨last, hlast, rfl⟩, rfl⟩
    obtain rfl := Derives.nil_iff.1 hnil
    exact ⟨middle, last, hlast, hmiddle, by rw [flatten_singletons, List.nil_append]⟩
  · rintro ⟨middle, last, hlast, hmiddle, rfl⟩
    exact ⟨[], _, _, .nil, ⟨middle, hmiddle, rfl⟩, ⟨last, hlast, rfl⟩,
      by rw [flatten_singletons, List.nil_append]⟩

private theorem label_texts (text : List Char) :
    Derives t.reading [.rule (helperHandle "__bse" 4).id] text ↔ LabelText text := by
  refine (mail_helper_iff hf (k := 4) rfl).trans (optionalTail_texts.trans ?_)
  simp only [alphanumeric_texts hf, labelRest_texts hf, labelText_iff]
  refine or_congr_right ⟨?_, ?_⟩
  · rintro ⟨_, _, rfl, ⟨first, hfirst, rfl⟩, middle, last, hlast, hmiddle, rfl⟩
    exact ⟨first, middle, last, hfirst, hlast, hmiddle, rfl⟩
  · rintro ⟨first, middle, last, hfirst, hlast, hmiddle, rfl⟩
    exact ⟨[first], _, rfl, ⟨first, hfirst, rfl⟩, middle, last, hlast, hmiddle, rfl⟩

private theorem domain_texts (text : List Char) :
    Derives t.reading [.rule (helperHandle "__bse" 6).id] text ↔ DomainText text := by
  have hread : t.reading (helperHandle "__bse" 5).id =
      some [.terminal ['.'] :: [.rule (helperHandle "__bse" 4).id],
        .terminal ['.'] :: [.rule (helperHandle "__bse" 4).id] ++
          [.rule (helperHandle "__bse" 5).id]] :=
    mail_helper hf (k := 5) rfl
  have hrows : Derives t.reading [.rule (helperHandle "__bse" 6).id] text ↔
      Derives t.reading [.rule (helperHandle "__bse" 4).id] text ∨
        Derives t.reading ([.rule (helperHandle "__bse" 4).id] ++
          [.rule (helperHandle "__bse" 5).id]) text := by
    refine (mail_helper_iff hf rfl).trans ?_
    simp [Layout.symbols, Piece.symbol]
  rw [hrows, Derives.trail_iff hread]
  simp only [label_texts hf]
  constructor
  · rintro ⟨label, labels, hlabel, hlabels, rfl⟩
    exact ⟨label :: labels, by simp, List.forall_mem_cons.2 ⟨hlabel, hlabels⟩, rfl⟩
  · rintro ⟨labels, hne, hlabels, rfl⟩
    obtain ⟨label, labels, rfl⟩ := List.exists_cons_of_ne_nil hne
    obtain ⟨hlabel, hlabels⟩ := List.forall_mem_cons.1 hlabels
    exact ⟨label, labels, hlabel, hlabels, rfl⟩

private theorem allowed_texts (text : List Char) :
    Derives t.reading [.rule (helperHandle "__bse" 8).id] text ↔ ∃ c, MailChar c ∧ text = [c] := by
  have hspecial : Derives t.reading [.rule (helperHandle "__bse" 7).id] text ↔
      ∃ c ∈ FormatFragment.specials, text = [c] := by
    refine (mail_helper_iff hf (k := 7) rfl).trans (ofTerminals_texts.trans ?_)
    simp
  have hrows : Derives t.reading [.rule (helperHandle "__bse" 8).id] text ↔
      Derives t.reading [.rule (helperHandle "__bse" 7).id] text ∨
        Derives t.reading [.rule (helperHandle "__bse" 2).id] text :=
    (mail_helper_iff hf (k := 8) rfl).trans either_texts
  have hmail (c : Char) : MailChar c ↔ c ∈ FormatFragment.specials ∨ c.isAlphanum = true := or_comm
  simp only [hrows, hspecial, alphanumeric_texts hf, hmail, or_and_right, exists_or]

private theorem localRest_texts (text : List Char) :
    Derives t.reading [.rule (helperHandle "__bse" 9).id] text ↔
      ∃ parts : List (List Char), parts ≠ [] ∧
        (∀ part ∈ parts, ∃ d, MailChar d ∧ (part = [d] ∨ part = ['.', d])) ∧
          text = parts.flatten := by
  have hread := mail_helper hf (k := 9) rfl
  have hpart (part : List Char) : (∃ row ∈ [[.rule (helperHandle "__bse" 8).id],
      [.terminal ['.'], .rule (helperHandle "__bse" 8).id]], Derives t.reading row part) ↔
        ∃ d, MailChar d ∧ (part = [d] ∨ part = ['.', d]) := by
    simp only [List.mem_cons, List.not_mem_nil, or_false, exists_eq_or_imp, exists_eq_left,
      Derives.terminal_cons_iff, allowed_texts hf, and_or_left, exists_or]
    refine or_congr_right ⟨?_, ?_⟩
    · rintro ⟨_, rfl, d, hd, rfl⟩
      exact ⟨d, hd, rfl⟩
    · rintro ⟨d, hd, rfl⟩
      exact ⟨[d], rfl, d, hd, rfl⟩
  refine (Derives.repeated_rows_iff [[.rule (helperHandle "__bse" 8).id],
    [.terminal ['.'], .rule (helperHandle "__bse" 8).id]] hread ?_).trans ?_
  · simp [Layout.symbols, Piece.symbol, or_assoc]
  · simp only [hpart]

private theorem local_texts (text : List Char) :
    Derives t.reading [.rule (helperHandle "__bse" 10).id] text ↔ LocalText text := by
  refine (mail_helper_iff hf (k := 10) rfl).trans (optionalTail_texts.trans ?_)
  simp only [allowed_texts hf, localRest_texts hf, localText_iff]
  constructor
  · rintro (⟨c, hc, rfl⟩ | ⟨_, _, rfl, ⟨c, hc, rfl⟩, parts, -, hparts, rfl⟩)
    · exact ⟨c, [], hc, by simp, rfl⟩
    · exact ⟨c, parts, hc, hparts, rfl⟩
  · rintro ⟨c, parts, hc, hparts, rfl⟩
    by_cases hne : parts = []
    · exact .inl ⟨c, hc, by rw [hne]; rfl⟩
    · exact .inr ⟨[c], _, rfl, ⟨c, hc, rfl⟩, parts, hne, hparts, rfl⟩

/-- The texts of the rule for mail addresses. -/
theorem mail_texts : t.Texts Fragment.mailAddress.handle text ↔
    ∃ front domain, LocalText front ∧ DomainText domain ∧ text = front ++ '@' :: domain := by
  have hrows : t.Texts Fragment.mailAddress.handle text ↔
      Derives t.reading [.rule (helperHandle "__bse" 10).id, .terminal ['@'],
        .rule (helperHandle "__bse" 6).id] text := by
    refine (texts_iff hf trivial (by simp [Fragment.inputs])).trans ?_
    simp [Fragment.layout, FormatFragment.mailLayout, Layout.symbols, Piece.symbol]
  rw [hrows, Derives.rule_cons_iff]
  simp only [Derives.terminal_cons_iff, local_texts hf, domain_texts hf]
  constructor
  · rintro ⟨front, _, rfl, hfront, domain, rfl, hdomain⟩
    exact ⟨front, domain, hfront, hdomain, rfl⟩
  · rintro ⟨front, domain, hfront, hdomain, rfl⟩
    exact ⟨front, _, rfl, hfront, domain, rfl, hdomain⟩

end Rules

namespace BlockCall

/-- After any calls the block for mail addresses derives a local part and a domain with an at sign
between them. -/
theorem mailAddress_derives_iff (calls more : List BlockCall) :
    answer calls .mailAddress = some (declHandle "__bse") ∧ ∀ text : String,
      (after (calls ++ .mailAddress :: more)).table.Derives (declHandle "__bse") text ↔
        MailText text := by
  have hcall : BlockCall.mailAddress.fragment? = some .mailAddress := rfl
  obtain ⟨hanswer, hrules⟩ := answer_of_unkeyed hcall
    (Layout.Proper.text_ne_empty (.cons (by simp))) rfl calls more
  exact ⟨hanswer, fun text => mail_texts hrules⟩

end BlockCall

end RecordGrammar
