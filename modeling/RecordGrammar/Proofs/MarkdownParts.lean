import RecordGrammar.Proofs.CommittedIds
import RecordGrammar.Proofs.FragmentCalls

/-! # The rules behind memoized markdown

A part of markdown is found in a table under its stem, and nothing is looked at but the id. What
lets it be found there all the same is that whoever has committed the rule of a stem has committed
the rules that it needs before. -/

namespace RecordGrammar

open MarkdownFragment

theorem forall₂_replicate_iff {α β : Type} {R : α → β → Prop} {a : α} {n : Nat} {bs : List β} :
    List.Forall₂ R (List.replicate n a) bs ↔ bs.length = n ∧ ∀ b ∈ bs, R a b := by
  induction n generalizing bs with
  | zero => simp +contextual
  | succ n ih =>
    cases bs with
    | nil => simp [List.replicate_succ]
    | cons b bs => simp [List.replicate_succ, ih, and_left_comm]

namespace RuleTable

variable {t t' : RuleTable} {handle : RuleHandle} {production lead : String}

/-- A rule that is committed. -/
def Says (t : RuleTable) (handle : RuleHandle) (production : String) : Prop :=
  ⟨handle.id, production⟩ ∈ t.rules.toList

theorem says_push (t : RuleTable) (id production : String) :
    (t.push id production).Says ⟨id⟩ production := by
  rw [Says, toList_rules_push]
  exact List.mem_append_right _ List.mem_cons_self

/-- A line, with the rules of the characters in it. -/
def SaysLine (t : RuleTable) : Prop :=
  ∃ newline body : RuleHandle, t.Says newline (terminal "\n") ∧
    t.Says body (optionalTail (exceptUnit (.rule newline)) body.text) ∧
    t.Says (declHandle "__bml") (concatenation [body.text, terminal "\n"])

/-- A line behind a production, which has a rule of its own. -/
def SaysLeadLine (t : RuleTable) (lead : String) : Prop :=
  t.SaysLine ∧ ∃ before : RuleHandle, t.Says before lead ∧
    t.Says (declHandle (leadStem lead))
      (concatenation [before.text, (declHandle "__bml").text])

/-- One or more of an item. -/
def SaysMany (t : RuleTable) (handle item : RuleHandle) : Prop :=
  t.Says handle (optionalTail item.text handle.text)

/-- One item for each entry of a list, in their order. -/
def SaysEach {α : Type} (t : RuleTable) (handle : RuleHandle) (ok : α → RuleHandle → Prop)
    (entries : List α) : Prop :=
  ∃ items, List.Forall₂ ok entries items ∧
    t.Says handle (concatenation (items.map RuleHandle.text))

section Later

variable (hsub : t.rules.toList ⊆ t'.rules.toList)

include hsub

theorem Says.later (h : t.Says handle production) : t'.Says handle production := hsub h

theorem SaysLine.later (h : t.SaysLine) : t'.SaysLine := by
  obtain ⟨newline, body, hnewline, hbody, hline⟩ := h
  exact ⟨newline, body, hnewline.later hsub, hbody.later hsub, hline.later hsub⟩

theorem SaysLeadLine.later (h : t.SaysLeadLine lead) : t'.SaysLeadLine lead := by
  obtain ⟨hline, before, hbefore, hlead⟩ := h
  exact ⟨hline.later hsub, before, hbefore.later hsub, hlead.later hsub⟩

theorem SaysEach.later {α : Type} {ok ok' : α → RuleHandle → Prop} {entries : List α}
    (h : t.SaysEach handle ok entries) (hok : ∀ entry item, ok entry item → ok' entry item) :
    t'.SaysEach handle ok' entries := by
  obtain ⟨items, hitems, hsaid⟩ := h
  exact ⟨items, hitems.imp hok, hsaid.later hsub⟩

end Later

end RuleTable

/-- What markdown is memoized as. -/
inductive MarkdownPart where
  | line
  | leadLine (lead : String)
  | grouped (production : String)
  | bulletList (bullet : Bullet) (count : Nat)
  | numberedList (count : Nat)
  | paragraph

namespace MarkdownPart

def stem : MarkdownPart → String
  | line => "__bml"
  | leadLine lead => leadStem lead
  | grouped production => groupStem production
  | bulletList bullet count => "__bmul_" ++ bullet.tag ++ "_" ++ toString count
  | numberedList count => "__bmnl_" ++ toString count
  | paragraph => "__bmp"

def handle (part : MarkdownPart) : RuleHandle := declHandle part.stem

/-- The text that the memo key of a part is cut from, if it has one. -/
def canonical? : MarkdownPart → Option String
  | leadLine lead => some lead
  | grouped production => some production
  | _ => none

/-- The item behind a marker of a list. -/
def ItemIn (t : RuleTable) (marker : String) (item : RuleHandle) : Prop :=
  item = declHandle (leadStem marker) ∧ t.SaysLeadLine marker

/-- The rule of a part is committed, and so are those that it refers to. -/
def Stands (t : RuleTable) : MarkdownPart → Prop
  | line => t.SaysLine
  | leadLine lead => t.SaysLeadLine lead
  | grouped production => t.Says (declHandle (groupStem production)) production
  | bulletList bullet count =>
    if count = 0 then
      ∃ item items, ItemIn t (terminal bullet.marker) item ∧ t.SaysMany items item ∧
        t.Says (handle (bulletList bullet count)) items.text
    else
      t.SaysEach (handle (bulletList bullet count)) (ItemIn t)
        (List.replicate count (terminal bullet.marker))
  | numberedList count =>
    if count = 0 then
      ∃ digit number item items : RuleHandle,
        t.Says digit (alternation (decimalDigits.map terminal)) ∧ t.SaysMany number digit ∧
        ItemIn t (concatenation [number.text, terminal ". "]) item ∧ t.SaysMany items item ∧
        t.Says (handle (numberedList count)) items.text
    else
      t.SaysEach (handle (numberedList count)) (fun k => ItemIn t (numberMarker (k + 1)))
        (List.range count)
  | paragraph => t.SaysLine ∧ ∃ lines : RuleHandle, t.SaysMany lines (declHandle "__bml") ∧
      t.Says (handle paragraph) (concatenation [lines.text, terminal "\n"])

/-- The text of a part's memo key is in a log. -/
def Noted (log : List Event) (part : MarkdownPart) : Prop :=
  ∀ canonical, part.canonical? = some canonical → .keyed canonical ∈ log

theorem ItemIn.later {t t' : RuleTable} {marker : String} {item : RuleHandle}
    (hsub : t.rules.toList ⊆ t'.rules.toList) (h : ItemIn t marker item) : ItemIn t' marker item :=
  ⟨h.1, h.2.later hsub⟩

theorem Stands.later {t t' : RuleTable} {part : MarkdownPart}
    (hsub : t.rules.toList ⊆ t'.rules.toList) (h : part.Stands t) : part.Stands t' := by
  cases part with
  | line => exact RuleTable.SaysLine.later hsub h
  | leadLine lead => exact RuleTable.SaysLeadLine.later hsub h
  | grouped production => exact hsub h
  | bulletList bullet count =>
    simp only [Stands] at h ⊢
    split at h
    next hcount =>
      obtain ⟨item, items, hitem, hitems, hlist⟩ := h
      rw [if_pos hcount]
      exact ⟨item, items, hitem.later hsub, hsub hitems, hsub hlist⟩
    next hcount =>
      rw [if_neg hcount]
      exact h.later hsub fun _ _ => .later hsub
  | numberedList count =>
    simp only [Stands] at h ⊢
    split at h
    next hcount =>
      obtain ⟨digit, number, item, items, hdigit, hnumber, hitem, hitems, hlist⟩ := h
      rw [if_pos hcount]
      exact ⟨digit, number, item, items, hsub hdigit, hsub hnumber, hitem.later hsub, hsub hitems,
        hsub hlist⟩
    next hcount =>
      rw [if_neg hcount]
      exact h.later hsub fun _ _ => .later hsub
  | paragraph =>
    obtain ⟨hline, lines, hlines, hparagraph⟩ := h
    exact ⟨hline.later hsub, lines, hsub hlines, hsub hparagraph⟩

/-- Without collisions a stem is that of one part only. -/
theorem eq_of_stem_eq {log : List Event} {part part' : MarkdownPart} (hlog : Collisionless log)
    (hpart : part.Noted log) (hpart' : part'.Noted log) (h : part.stem = part'.stem) :
    part = part' := by
  have hsame {tag text text' : String} (htext : .keyed text ∈ log) (htext' : .keyed text' ∈ log)
      (h : tag ++ memoKey text = tag ++ memoKey text') : text = text' :=
    hlog text (List.mem_filterMap.2 ⟨_, htext, rfl⟩) text'
      (List.mem_filterMap.2 ⟨_, htext', rfl⟩) (tag_memoKey_inj h).2
  have hlist := congrArg String.toList h
  cases part <;> cases part'
  case line.line => rfl
  case paragraph.paragraph => rfl
  case leadLine.leadLine lead lead' =>
    rw [hsame (hpart lead rfl) (hpart' lead' rfl) h]
  case grouped.grouped production production' =>
    rw [hsame (hpart production rfl) (hpart' production' rfl) h]
  case numberedList.numberedList count count' =>
    simp only [stem, String.toList_append, List.append_cancel_left_eq, String.toList_inj] at hlist
    rw [toString_nat_inj hlist]
  case bulletList.bulletList bullet count bullet' count' =>
    obtain rfl : bullet = bullet' := by
      cases bullet <;> cases bullet' <;> first | rfl | simp [stem, Bullet.tag] at hlist
    simp only [stem, String.toList_append, List.append_cancel_left_eq, String.toList_inj] at hlist
    rw [toString_nat_inj hlist]
  all_goals simp [stem, leadStem, groupStem] at hlist

theorem stem_begins (part : MarkdownPart) : "__bm".toList <+: part.stem.toList := by
  cases part <;> simp [stem, leadStem, groupStem]

end MarkdownPart

/-- A table in which every part that is noted and memoized stands. -/
def RuleTable.Faithful (log : List Event) (t : RuleTable) : Prop :=
  ∀ part : MarkdownPart, part.Noted log → t.defined part.handle.id = true → part.Stands t

namespace RuleTable.Faithful

variable {log : List Event} {t t' : RuleTable}

theorem empty (log : List Event) : Faithful log {} := by
  intro part _ hd
  simp [defined] at hd

theorem of_rules (hrules : t'.rules = t.rules) (hindex : t'.index = t.index)
    (h : t.Faithful log) : t'.Faithful log := by
  intro part hnoted hd
  rw [defined_eq, hindex, ← defined_eq] at hd
  exact (h part hnoted hd).later (by rw [hrules]; exact List.Subset.refl _)

/-- A rule may be committed that is no part's. -/
theorem push {id : String} (h : t.Faithful log) (hid : ∀ part : MarkdownPart, part.handle.id ≠ id)
    (production : String) : (t.push id production).Faithful log := by
  intro part hnoted hd
  rw [defined_push, Bool.or_eq_true, decide_eq_true_iff] at hd
  refine (h part hnoted (hd.resolve_left (hid part))).later ?_
  rw [toList_rules_push]
  exact List.subset_append_left _ _

/-- The rule of a part may be committed where the part then stands. -/
theorem push_part {part : MarkdownPart} {production : String} (hlog : Collisionless log)
    (h : t.Faithful log) (hnoted : part.Noted log)
    (hstands : part.Stands (t.push part.handle.id production)) :
    (t.push part.handle.id production).Faithful log := by
  intro other hother hd
  rw [defined_push, Bool.or_eq_true, decide_eq_true_iff] at hd
  rcases hd with hd | hd
  · rwa [MarkdownPart.eq_of_stem_eq hlog hother hnoted (declHandle_inj hd)]
  · refine (h other hother hd).later ?_
    rw [toList_rules_push]
    exact List.subset_append_left _ _

end RuleTable.Faithful

/-- A table whose rules can all be looked up and referred to. -/
structure RuleTable.Readable (t : RuleTable) : Prop where
  wellFormed : t.WellFormed
  idsPlain : t.IdsPlain

/-- A build that keeps a table faithful and, where it goes through, leaves its rules behind for good:
what is said of its result is said of every table that the one it leaves grows into. -/
structure Ensures (log : List Event) {α : Type} (m : Build α) (post : α → RuleTable → Prop) :
    Prop where
  program : TableProgram m
  run (s : Session) : s.table.Faithful log → (finalState (m s)).log ⊆ log →
    (finalState (m s)).table.Faithful log ∧
      ∀ a s', m s = .ok a s' → ∀ t, s'.table.Grows t → post a t

namespace Ensures

variable {log : List Event} {α β : Type} {m : Build α} {f : α → Build β}
  {mid : α → RuleTable → Prop} {post : β → RuleTable → Prop}

theorem mono {post' : β → RuleTable → Prop} {m : Build β} (hm : Ensures log m post)
    (h : ∀ b t, post b t → post' b t) : Ensures log m post' where
  program := hm.program
  run s hs hlog :=
    have ⟨hfaithful, hpost⟩ := hm.run s hs hlog
    ⟨hfaithful, fun b s' hrun t ht => h b t (hpost b s' hrun t ht)⟩

theorem pure {b : β} (h : ∀ t, post b t) : Ensures log (Pure.pure b) post where
  program := .pure b
  run s hs _ := by
    refine ⟨hs, fun b' s' hrun t _ => ?_⟩
    cases hrun
    exact h t

/-- What is said of the first result may be used for the second one, whose table is a later one. -/
theorem bind (hm : Ensures log m mid)
    (hf : ∀ a, Ensures log (f a) fun b t => mid a t → post b t) :
    Ensures log (m >>= f) post where
  program := hm.program.bind fun a => (hf a).program
  run s hs hlog := by
    cases hrun : m s with
    | ok a u =>
      rw [bind_of_ok hrun] at hlog ⊢
      have hfirst : (finalState (m s)).log ⊆ log := by
        rw [hrun]
        exact List.Subset.trans ((hf a).program.log_extends u).subset hlog
      obtain ⟨hu, hmid⟩ := hm.run s hs hfirst
      rw [hrun] at hu
      obtain ⟨hfinal, hpost⟩ := (hf a).run u hu hlog
      refine ⟨hfinal, fun b s' hb t ht => hpost b s' hb t ht (hmid a u hrun t ?_)⟩
      have hgrows := (hf a).program.table_grows u
      rw [hb] at hgrows
      exact hgrows.trans ht
    | error e u =>
      rw [bind_of_error hrun] at hlog ⊢
      obtain ⟨hu, -⟩ := hm.run s hs (by rwa [hrun])
      rw [hrun] at hu
      exact ⟨hu, nofun⟩

theorem map {g : α → β} (hm : Ensures log m mid) (h : ∀ a t, mid a t → post (g a) t) :
    Ensures log (do let a ← m; return g a) post :=
  hm.bind fun a => pure fun t => h a t

theorem mapM {f : α → Build β} {ok : RuleTable → α → β → Prop} {as : List α}
    (h : ∀ a ∈ as, Ensures log (f a) fun b t => ok t a b) :
    Ensures log (as.mapM f) fun bs t => List.Forall₂ (ok t) as bs := by
  induction as with
  | nil =>
    rw [List.mapM_nil]
    exact pure fun _ => .nil
  | cons a as ih =>
    obtain ⟨ha, has⟩ := List.forall_mem_cons.1 h
    rw [List.mapM_cons]
    exact ha.bind fun b => (ih has).map fun bs t hbs hb => .cons hb hbs

/-- A rule under an automatic id, which is no part's. -/
theorem define (scope : Scope) (production : String) :
    Ensures log (scope.define production) fun r t => t.Says r production := by
  refine ⟨.define scope production, fun s hs _ => ?_⟩
  let t := (s.table.freshId scope.stem).2
  have ht : t.Faithful log := hs.of_rules rfl rfl
  rw [Scope.define_eq]
  rcases edit_cases (·.insert (s.table.freshId scope.stem).1 production)
    ({ s with table := t } : Session) with ⟨t', hinsert, hedit⟩ | ⟨e, hedit⟩
  · obtain ⟨-, -, rfl⟩ := RuleTable.eq_of_insert hinsert
    rw [bind_of_ok hedit]
    refine ⟨ht.push (fun part => History.declHandle_ne_autoId _ _ _) production,
      fun r s' hrun t ht => ?_⟩
    cases hrun
    exact (RuleTable.says_push _ _ _).later ht.isPrefix.subset
  · rw [bind_of_error hedit]
    exact ⟨ht, nofun⟩

theorem oneOrMore (scope : Scope) (element : String) :
    Ensures log (scope.oneOrMore element) fun r t => t.Says r (optionalTail element r.text) := by
  refine ⟨.oneOrMore scope element, fun s hs _ => ?_⟩
  let id := (s.table.freshId scope.stem).1
  have ht : (((s.table.freshId scope.stem).2.claim id).release id).Faithful log :=
    hs.of_rules rfl rfl
  rw [Scope.oneOrMore_eq]
  refine ⟨ht.push (fun part => History.declHandle_ne_autoId _ _ _) _, fun r s' hrun t ht => ?_⟩
  cases hrun
  exact (RuleTable.says_push _ _ _).later ht.isPrefix.subset

/-- A build under the memo key of a text. -/
theorem keyed {tag text : String} {rest : String → Build β}
    (hprogram : TableProgram (rest (tag ++ memoKey text)))
    (h : .keyed text ∈ log → Ensures log (rest (tag ++ memoKey text)) post) :
    Ensures log (keyedStem tag text >>= rest) post := by
  refine ⟨History.keyedAt_program hprogram, fun s hs hlog => ?_⟩
  rw [bind_of_ok (keyedStem_eq tag text s)] at hlog ⊢
  have hnoted := hlog ((hprogram.log_extends (s.noting [.keyed text])).subset
    (List.mem_append_right _ List.mem_cons_self))
  exact (h hnoted).run (s.noting [.keyed text]) hs hlog

section Memoized

variable {build : Scope → Build String}

/-- The rule of a stem, in a table that it leaves faithful. -/
theorem decl_run {stem production : String} {s : Session} (hs : s.table.Faithful log)
    (hpush : s.table.Grows (s.table.push (declHandle stem).id production) →
      (s.table.push (declHandle stem).id production).Faithful log) :
    (finalState (Scope.defineNamed ⟨stem⟩ "decl" production s)).table.Faithful log ∧
      ∀ r s', Scope.defineNamed ⟨stem⟩ "decl" production s = .ok r s' → ∀ t, s'.table.Grows t →
        s.table.Grows t ∧ r = declHandle stem ∧ t.Says r production := by
  have hgrows := (Program.defineNamed ⟨stem⟩ "decl" production).table_grows s
  rw [Scope.defineNamed, show Scope.idOf ⟨stem⟩ "decl" = (declHandle stem).id from rfl] at hgrows ⊢
  rcases edit_cases (·.insert (declHandle stem).id production) s with ⟨t, ht, hedit⟩ | ⟨e, hedit⟩
  · obtain ⟨-, -, rfl⟩ := RuleTable.eq_of_insert ht
    rw [bind_of_ok hedit] at hgrows ⊢
    refine ⟨hpush hgrows, fun r s' hrun t ht => ?_⟩
    cases hrun
    exact ⟨hgrows.trans ht, rfl, (RuleTable.says_push _ _ _).later ht.isPrefix.subset⟩
  · rw [bind_of_error hedit]
    refine ⟨hs, fun r s' hrun => ?_⟩
    cases hrun

/-- A rule under its name that is no part's. -/
theorem decl {stem : String} (hstem : ∀ part : MarkdownPart, part.stem ≠ stem)
    (production : String) : Ensures log (Scope.defineNamed ⟨stem⟩ "decl" production) fun r t =>
      r = declHandle stem ∧ t.Says r production := by
  refine ⟨.defineNamed _ _ _, fun s hs _ => ?_⟩
  have hid (part : MarkdownPart) : part.handle.id ≠ (declHandle stem).id :=
    fun he => hstem part (declHandle_inj he)
  obtain ⟨hfaithful, hpost⟩ := decl_run hs fun _ => hs.push hid production
  exact ⟨hfaithful, fun r s' hrun t ht => (hpost r s' hrun t ht).2⟩

/-- A part is found where it stands, or built so that it stands. -/
theorem memoized (hlog : Collisionless log) (part : MarkdownPart) (hnoted : part.Noted log)
    (hbuild : Ensures log (build ⟨part.stem⟩) fun production t =>
      t.Says part.handle production → part.Stands t) :
    Ensures log (RecordGrammar.memoized part.stem build) fun r t =>
      r = part.handle ∧ part.Stands t := by
  refine ⟨.memoizedAt part.stem hbuild.program, fun s hs hlogs => ?_⟩
  cases hd : s.table.defined part.handle.id with
  | true =>
    rw [History.memoized_of_defined hd]
    refine ⟨hs, fun r s' hrun t ht => ?_⟩
    cases hrun
    exact ⟨rfl, (hs part hnoted hd).later ht.isPrefix.subset⟩
  | false =>
    rw [History.memoized_of_absent hd] at hlogs ⊢
    cases hrun : build ⟨part.stem⟩ s with
    | ok production u =>
      rw [bind_of_ok hrun] at hlogs ⊢
      have hdecl : u.log <+: _ :=
        (Program.defineNamed ⟨part.stem⟩ "decl" production).log_extends u
      obtain ⟨hu, hpost⟩ := hbuild.run s hs (by
        rw [hrun]
        exact List.Subset.trans hdecl.subset hlogs)
      rw [hrun] at hu
      obtain ⟨hfaithful, hdecls⟩ := decl_run hu fun hgrows =>
        hu.push_part hlog hnoted (hpost production u hrun _ hgrows (RuleTable.says_push _ _ _))
      refine ⟨hfaithful, fun r s' hr t ht => ?_⟩
      obtain ⟨hgrows, rfl, hsaid⟩ := hdecls r s' hr t ht
      exact ⟨rfl, hpost production u hrun t hgrows hsaid⟩
    | error e u =>
      rw [bind_of_error hrun] at hlogs ⊢
      obtain ⟨hu, -⟩ := hbuild.run s hs (by rwa [hrun])
      rw [hrun] at hu
      exact ⟨hu, nofun⟩

/-- A memoized build that is no part, in a table that does not hold it yet. -/
theorem memoizedOther {stem : String} (hstem : ∀ part : MarkdownPart, part.stem ≠ stem)
    {made : String → RuleTable → Prop} (hbuild : Ensures log (build ⟨stem⟩) made) {s : Session}
    (hs : s.table.Faithful log)
    (hlogs : (finalState (RecordGrammar.memoized stem build s)).log ⊆ log) :
    (finalState (RecordGrammar.memoized stem build s)).table.Faithful log ∧
      (s.table.defined (declHandle stem).id = false →
        ∀ r s', RecordGrammar.memoized stem build s = .ok r s' → ∀ t, s'.table.Grows t →
          ∃ production, made production t ∧ t.Says (declHandle stem) production) := by
  cases hd : s.table.defined (declHandle stem).id with
  | true =>
    rw [History.memoized_of_defined hd]
    exact ⟨hs, nofun⟩
  | false =>
    rw [History.memoized_of_absent hd] at hlogs ⊢
    have hdecl : Ensures log (build ⟨stem⟩ >>= Scope.defineNamed ⟨stem⟩ "decl") fun _ t =>
        ∃ production, made production t ∧ t.Says (declHandle stem) production :=
      hbuild.bind fun production => (decl hstem production).mono fun r t ⟨hr, hsaid⟩ hmade =>
        ⟨production, hmade, hr ▸ hsaid⟩
    obtain ⟨hfaithful, hpost⟩ := hdecl.run s hs hlogs
    exact ⟨hfaithful, fun _ => hpost⟩

end Memoized

/-! ### The blocks of markdown -/

section Markdown

/-- The groups of the productions that are given. -/
def GroupIn (t : RuleTable) (production : Option String) : Prop :=
  ∀ text ∈ production, t.Says (declHandle (groupStem text)) text

/-- The rule of an entry behind its marker. -/
def EntryIn (t : RuleTable) (entry : ListEntry × String) (item : RuleHandle) : Prop :=
  GroupIn t entry.1.lead ∧ GroupIn t entry.1.body ∧ match entry.1.body with
    | some body => t.Says item (concatenation [markedText entry.2 entry.1.lead,
        (declHandle (groupStem body)).text, terminal "\n"])
    | none => MarkdownPart.ItemIn t (markedText entry.2 entry.1.lead) item

variable (hlog : Collisionless log)

include hlog

theorem line : Ensures log MarkdownFragment.line fun r t =>
    r = declHandle "__bml" ∧ t.SaysLine := by
  refine memoized hlog .line nofun ?_
  exact .bind (define _ _) fun newline => .map (oneOrMore _ _) fun body t hbody hnewline hline =>
    ⟨newline, body, hnewline, hbody, hline⟩

theorem leadLine (lead : String) :
    Ensures log (MarkdownFragment.leadLine lead) fun r t => MarkdownPart.ItemIn t lead r := by
  refine keyed (.memoizedAt _ (.bind (.define _ _) fun _ => .map line_program _)) fun hnoted =>
    memoized hlog (.leadLine lead) (fun _ hc => Option.some.inj hc ▸ hnoted) ?_
  refine .bind (define _ _) fun before => .map (line hlog) fun r t hr hbefore hlead => ?_
  obtain ⟨rfl, hline⟩ := hr
  exact ⟨hline, before, hbefore, hlead⟩

theorem grouped (production : String) : Ensures log (MarkdownFragment.grouped production) fun r t =>
    r = declHandle (groupStem production) ∧ t.Says r production := by
  refine .mono (keyed (.memoizedAt _ (.pure _)) fun hnoted =>
    memoized hlog (.grouped production) (fun _ hc => Option.some.inj hc ▸ hnoted) ?_) ?_
  · exact pure fun _ => id
  · rintro _ t ⟨rfl, hsaid⟩
    exact ⟨rfl, hsaid⟩

theorem markedLead (marker : String) (lead : Option String) :
    Ensures log (MarkdownFragment.markedLead marker lead) fun text t =>
      text = markedText marker lead ∧ GroupIn t lead := by
  cases lead with
  | none => exact pure fun _ => ⟨rfl, nofun⟩
  | some lead =>
    refine .map (grouped hlog lead) fun r t hr => ?_
    obtain ⟨rfl, hsaid⟩ := hr
    exact ⟨rfl, fun text htext => Option.some.inj htext ▸ hsaid⟩

/-- A line behind a marker and what follows it. -/
theorem markedLine (marker : String) (lead : Option String) :
    Ensures log (MarkdownFragment.markedLead marker lead >>= MarkdownFragment.leadLine) fun r t =>
      MarkdownPart.ItemIn t (markedText marker lead) r ∧ GroupIn t lead := by
  refine .bind (markedLead hlog marker lead) fun text => .mono (leadLine hlog text) ?_
  rintro r t hitem ⟨rfl, hgroup⟩
  exact ⟨hitem, hgroup⟩

theorem listItem (bullet : Bullet) : Ensures log (MarkdownFragment.listItem bullet none) fun r t =>
    MarkdownPart.ItemIn t (terminal bullet.marker) r :=
  .mono (markedLine hlog _ none) fun _ _ h => h.1

theorem bulletList (bullet : Bullet) (count : Nat) :
    Ensures log (MarkdownFragment.bulletList bullet count) fun r t =>
      r = (MarkdownPart.bulletList bullet count).handle ∧
        (MarkdownPart.bulletList bullet count).Stands t := by
  refine memoized hlog (.bulletList bullet count) nofun (.bind (listItem hlog bullet) fun item => ?_)
  simp only [MarkdownPart.Stands]
  split
  · exact .map (oneOrMore _ _) fun items t hitems hitem hlist =>
      ⟨item, items, hitem, hitems, hlist⟩
  · refine pure fun t hitem hlist => ⟨List.replicate count item, ?_, ?_⟩
    · refine forall₂_replicate_iff.2 ⟨List.length_replicate, fun r hr => ?_⟩
      rwa [List.eq_of_mem_replicate hr]
    · rwa [List.map_replicate]

theorem numberedList (count : Nat) : Ensures log (MarkdownFragment.numberedList count) fun r t =>
    r = (MarkdownPart.numberedList count).handle ∧ (MarkdownPart.numberedList count).Stands t := by
  refine memoized hlog (.numberedList count) nofun ?_
  simp only [MarkdownPart.Stands]
  split
  · exact .bind (define _ _) fun digit => .bind (oneOrMore _ _) fun number =>
      .bind (leadLine hlog _) fun item => .map (oneOrMore _ _)
        fun items t hitems hitem hnumber hdigit hlist =>
          ⟨digit, number, item, items, hdigit, hnumber, hitem, hitems, hlist⟩
  · exact .map (mapM fun k _ => leadLine hlog _) fun items t hitems hlist => ⟨items, hitems, hlist⟩

theorem paragraph : Ensures log MarkdownFragment.paragraph fun r t =>
    r = MarkdownPart.paragraph.handle ∧ MarkdownPart.paragraph.Stands t := by
  refine memoized hlog .paragraph nofun ?_
  refine .bind (line hlog) fun line => .map (oneOrMore _ _) ?_
  rintro lines t hlines ⟨rfl, hline⟩ hparagraph
  exact ⟨hline, lines, hlines, hparagraph⟩

theorem listEntry (scope : Scope) (entry : ListEntry) (marker : String) :
    Ensures log (MarkdownFragment.listEntry scope entry marker) fun r t =>
      EntryIn t (entry, marker) r := by
  refine .bind (markedLead hlog marker entry.lead) fun text => ?_
  cases hbody : entry.body with
  | none =>
    refine .mono (leadLine hlog text) ?_
    rintro r t hitem ⟨rfl, hgroup⟩
    refine ⟨hgroup, ?_, ?_⟩ <;> simp only [hbody]
    · exact nofun
    · exact hitem
  | some body =>
    refine .bind (grouped hlog body) fun group => .mono (define _ _) ?_
    rintro r t hsaid ⟨rfl, hgroup⟩ ⟨rfl, hlead⟩
    refine ⟨hlead, ?_, ?_⟩ <;> simp only [hbody]
    · exact fun text htext => Option.some.inj htext ▸ hgroup
    · exact hsaid

/-- The entries of a list, built one after the other. -/
theorem entries (scope : Scope) (entries : List ListEntry) (style : ListStyle) :
    Ensures log (do
        let items ← (markedEntries entries style).mapM fun entry =>
          MarkdownFragment.listEntry scope entry.1 entry.2
        return concatenation (items.map RuleHandle.text)) fun production t =>
      ∃ items, List.Forall₂ (EntryIn t) (markedEntries entries style) items ∧
        production = concatenation (items.map RuleHandle.text) :=
  .map (mapM fun entry _ => listEntry hlog scope entry.1 entry.2) fun items _ hitems =>
    ⟨items, hitems, rfl⟩

end Markdown

end Ensures

namespace BlockCall

variable {log : List Event}

theorem part_stem_ne {call : BlockCall} (h : call.IsMarkdown = false) (part : MarkdownPart) :
    part.stem ≠ call.stem := by
  intro he
  have hpart := part.stem_begins
  rw [he] at hpart
  cases call <;> simp [stem, IsMarkdown] at h hpart

theorem part_stem_ne_entryList (entries : List ListEntry) (style : ListStyle)
    (part : MarkdownPart) : part.stem ≠ "__bmil_" ++ memoKey (listText entries style) := by
  intro he
  have hlist := congrArg String.toList he
  cases part <;> simp [MarkdownPart.stem, leadStem, groupStem] at hlist

/-- A list of entries that is not in the table yet is built from its entries. -/
theorem entryList_run (hlog : Collisionless log) (entries : List ListEntry) (style : ListStyle)
    {s : Session} (hs : s.table.Faithful log)
    (hlogs : (finalState ((entryList entries style).build s)).log ⊆ log) :
    (finalState ((entryList entries style).build s)).table.Faithful log ∧
      (s.table.defined (handle (.entryList entries style)).id = false →
        ∀ r s', (entryList entries style).build s = .ok r s' → ∀ t, s'.table.Grows t →
          t.SaysEach (handle (.entryList entries style)) (Ensures.EntryIn t)
            (markedEntries entries style)) := by
  have hbuild := Ensures.entries hlog ⟨"__bmil_" ++ memoKey (listText entries style)⟩ entries style
  rw [build, MarkdownFragment.entryList, bind_of_ok (keyedStem_eq _ _ s)] at hlogs ⊢
  obtain ⟨hfaithful, hpost⟩ := Ensures.memoizedOther (part_stem_ne_entryList entries style)
    hbuild (s := s.noting [.keyed (listText entries style)]) hs hlogs
  refine ⟨hfaithful, fun hd r s' hrun t ht => ?_⟩
  obtain ⟨_, ⟨items, hitems, rfl⟩, hsaid⟩ := hpost hd r s' hrun t ht
  exact ⟨items, hitems, hsaid⟩

/-- Every call keeps a table faithful, even if it fails. -/
theorem build_faithful (hlog : Collisionless log) (call : BlockCall) {s : Session}
    (hs : s.table.Faithful log) (hlogs : (finalState (call.build s)).log ⊆ log) :
    (finalState (call.build s)).table.Faithful log := by
  cases hm : call.IsMarkdown with
  | false =>
    have hscoped : ScopedProgram (· = call.stem) call.build :=
      build_scopedIn rfl fun hmarkdown => absurd hmarkdown (by rw [hm]; decide)
    refine hscoped.invariant (P := (·.Faithful log)) (fun _ _ hrules hindex => .of_rules hrules hindex)
      (fun t id production hid ht => ht.push (fun part => ?_) production) s hs
    cases hid with
    | auto => exact History.declHandle_ne_autoId _ _ _
    | decl hstem =>
      subst hstem
      exact fun he => part_stem_ne hm part (declHandle_inj he)
    | digit =>
      refine Ne.symm (FormatFragment.digitHandle_ne_idOf underscore_not_mem_decl fun he => ?_)
      exact absurd (he ▸ part.stem_begins) (by decide)
  | true =>
    cases call with
    | line => exact ((Ensures.line hlog).run s hs hlogs).1
    | lineWithLead lead =>
      cases lead with
      | none => exact ((Ensures.line hlog).run s hs hlogs).1
      | some lead => exact ((Ensures.leadLine hlog lead).run s hs hlogs).1
    | heading level lead => exact ((Ensures.markedLine hlog _ lead).run s hs hlogs).1
    | listItem bullet lead => exact ((Ensures.markedLine hlog _ lead).run s hs hlogs).1
    | bulletList bullet count => exact ((Ensures.bulletList hlog bullet count).run s hs hlogs).1
    | numberedList count => exact ((Ensures.numberedList hlog count).run s hs hlogs).1
    | entryList entries style => exact (entryList_run hlog entries style hs hlogs).1
    | paragraph => exact ((Ensures.paragraph hlog).run s hs hlogs).1
    | _ => cases hm

/-- At every moment of some calls their table is faithful. -/
theorem after_faithful (hlog : Collisionless log) {calls : List BlockCall}
    (hlogs : (after calls).log ⊆ log) : (after calls).table.Faithful log := by
  induction calls using List.reverseRecOn with
  | nil => exact .empty log
  | append_singleton calls call ih =>
    have hs := ih (List.Subset.trans (after_append calls [call]).1.subset hlogs)
    rw [after_concat] at hlogs ⊢
    exact call.build_faithful hlog hs hlogs

theorem after_readable (calls : List BlockCall) : (after calls).table.Readable :=
  ⟨(after_append [] calls).2.wellFormed RuleTable.wellFormed_empty, after_idsPlain calls⟩

variable {calls : List BlockCall} {call : BlockCall} {texts : RuleTable → String → Prop}
  (hlog : Collisionless (after (calls ++ [call])).log) (hacceptable : call.Acceptable)
  {holds : RuleTable → Prop}

include hlog hacceptable

/-- What a call leaves behind decides what its rule derives from then on. -/
theorem yields_of_run
    (hrun : ∀ r s, call.build (after calls) = .ok r s → ∀ t, s.table.Grows t → holds t)
    (htexts : ∀ t : RuleTable, t.Readable → holds t → ∀ text : String,
      t.Derives call.handle text ↔ texts t text) : Yields calls call texts := by
  rcases (ends_after hlog).2 with ⟨-, _, s, hok, rfl, -⟩ | ⟨hrefused, -⟩
  · refine ⟨answer_of_ok hok, fun more text => htexts _ (after_readable _) ?_ text⟩
    have hgrows := (after_append (calls ++ [call]) more).2
    rw [after_concat, hok, List.append_assoc, List.singleton_append] at hgrows
    exact hrun _ s hok _ hgrows
  · exact absurd (.inl hacceptable) hrefused

theorem yields_of_ensures {post : RuleHandle → RuleTable → Prop}
    (h : Ensures (after (calls ++ [call])).log call.build post)
    (htexts : ∀ t : RuleTable, t.Readable → ∀ r, post r t → ∀ text : String,
      t.Derives call.handle text ↔ texts t text) : Yields calls call texts := by
  have hfinal : (finalState (call.build (after calls))).log ⊆ (after (calls ++ [call])).log := by
    rw [after_concat]
    exact List.Subset.refl _
  have hfaithful := after_faithful hlog (after_append calls [call]).1.subset
  obtain ⟨-, hpost⟩ := h.run (after calls) hfaithful hfinal
  have hrun (r : RuleHandle) (s : Session) (h : call.build (after calls) = .ok r s) (t : RuleTable)
      (ht : s.table.Grows t) : ∃ r, post r t :=
    ⟨r, hpost r s h t ht⟩
  exact yields_of_run hlog hacceptable hrun fun t ht ⟨r, hr⟩ => htexts t ht r hr

end BlockCall

end RecordGrammar
