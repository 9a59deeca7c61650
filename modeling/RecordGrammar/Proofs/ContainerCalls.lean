import RecordGrammar.Proofs.CommittedIds
import RecordGrammar.Proofs.ContainerKeys
import RecordGrammar.Proofs.FragmentCalls

/-! # The texts of containers after other block calls

A container is found or built under the memo key of a text that its names and references are joined
to. The rule in its place is its own if that text can be taken apart again: if no id that a tuple or
an object takes holds `>`, and no name of a field holds `<`. Otherwise the rule may be that of
another list, and then it does not derive the layout that was asked for. -/

namespace RecordGrammar

/-- Any number of texts of a rule, in brackets. -/
def ArrayText (inner : RuleHandle) (t : RuleTable) (text : String) : Prop :=
  ∃ items : List String, (∀ item ∈ items, t.Derives inner item) ∧
    text = "[" ++ ", ".intercalate items ++ "]"

/-- One text of each rule in their order, in brackets. -/
def TupleText (members : List RuleHandle) (t : RuleTable) (text : String) : Prop :=
  ∃ items : List String, List.Forall₂ t.Derives members items ∧
    text = "[" ++ ", ".intercalate items ++ "]"

/-- The JSON text of each name in their order, with a text of its rule behind it, in braces. -/
def ObjectText (fields : List (String × RuleHandle)) (t : RuleTable) (text : String) : Prop :=
  ∃ values : List String, List.Forall₂ (fun field => t.Derives field.2) fields values ∧
    text = "\x7b" ++ ", ".intercalate
      (List.zipWith (fun field value => jsonString field.1 ++ ": " ++ value) fields values) ++ "\x7d"

section Texts

variable {t : RuleTable}

theorem toList_eq_inBrackets_iff {text : String} {items : List String} :
    text.toList = inBrackets (items.map String.toList) ↔
      text = "[" ++ ", ".intercalate items ++ "]" := by
  rw [← String.toList_inj]
  simp [inBrackets, joined, String.toList_intercalate]

theorem toList_eq_inBraces_iff {text : String} {entries : List String} :
    text.toList = inBraces (entries.map String.toList) ↔
      text = "\x7b" ++ ", ".intercalate entries ++ "\x7d" := by
  rw [← String.toList_inj]
  simp [inBraces, joined, String.toList_intercalate]

theorem derives_array_iff {inner : RuleHandle} (ht : t.HoldsRules (.array inner))
    (hinner : Referable inner.id) (text : String) :
    t.Derives (Fragment.array inner).handle text ↔ ArrayText inner t text := by
  refine (array_texts ht hinner).trans (exists_strings_iff.trans ?_)
  simp only [List.forall_mem_map, toList_eq_inBrackets_iff]
  rfl

theorem derives_tuple_iff {members : List RuleHandle} (ht : t.HoldsRules (.tuple members))
    (hmembers : ∀ m ∈ members, Referable m.id) (text : String) :
    t.Derives (Fragment.tuple members).handle text ↔ TupleText members t text := by
  refine (tuple_texts ht hmembers).trans (exists_strings_iff.trans ?_)
  simp only [List.forall₂_map_right_iff, toList_eq_inBrackets_iff]
  rfl

theorem objectText_iff {fields : List (String × RuleHandle)} (text : String) :
    ObjectText fields t text ↔ RowTexts t.Texts fields text.toList := by
  have hentries (values : List String) : List.zipWith (fun row => entryText row.1) fields
      (values.map String.toList) = (List.zipWith (fun field value =>
        jsonString field.1 ++ ": " ++ value) fields values).map String.toList := by
    simp [List.zipWith_map_right, List.map_zipWith, entryText]
  refine Iff.symm (exists_strings_iff.trans ?_)
  simp only [List.forall₂_map_right_iff, hentries, toList_eq_inBraces_iff]
  rfl

theorem derives_object_iff {fields : List (String × RuleHandle)}
    (ht : t.HoldsRules (.object fields))
    (hfields : ∀ field ∈ fields, Referable field.2.id) (text : String) :
    t.Derives (Fragment.object fields).handle text ↔ ObjectText fields t text :=
  (object_texts ht hfields).trans (objectText_iff text).symm

/-- A tuple that has the key of another one and derives any text is that tuple. -/
theorem tuple_eq_of_derives {asked members : List RuleHandle}
    (hkey : (Fragment.tuple asked).canonical? = (Fragment.tuple members).canonical?)
    (hmembers : ∀ m ∈ members, PlainId m.id) (ht : t.HoldsRules (.tuple asked))
    (hsome : ∃ text, t.Derives (Fragment.tuple asked).handle text) : asked = members := by
  have hjoined : "[".intercalate (asked.map RuleHandle.text) =
      "[".intercalate (members.map RuleHandle.text) := Option.some.inj hkey
  have hids : ∀ m ∈ asked, Referable m.id ∨ m.Broken := fun m hm =>
    referable_or_broken (by decide) (List.forall_mem_map.2 fun m hm => ⟨by simp, hmembers m hm⟩)
      (tuple_keyTail_eq hjoined) (List.mem_map_of_mem hm)
  obtain ⟨text, htext⟩ := hsome
  have hreferable : ∀ m ∈ asked, Referable m.id := by
    by_contra hnot
    exact ht.not_texts_of_broken (Fragment.tuple_unreadable hids hnot) text htext
  exact tuple_key_inj (fun m hm => (hreferable m hm).closed)
    (fun m hm => (hmembers m hm).referable.closed) hjoined

/-- An object that has the key of another one and derives its texts, of which there are some, is
that object. -/
theorem object_eq_of_derives {asked fields : List (String × RuleHandle)}
    (hkey : (Fragment.object asked).canonical? = (Fragment.object fields).canonical?)
    (hfields : ∀ field ∈ fields, '<' ∉ field.1.toList ∧ PlainId field.2.id)
    (ht : t.HoldsRules (.object asked)) (hsome : ∃ text, ObjectText fields t text)
    (hsame : ∀ text, t.Derives (Fragment.object asked).handle text ↔ ObjectText fields t text) :
    asked = fields := by
  have hrows : keyTail ',' asked = keyTail ',' fields :=
    keyTail_eq "," rfl (Option.some.inj hkey)
  have hids : ∀ row ∈ asked, Referable row.2.id ∨ row.2.Broken := fun row hrow =>
    referable_or_broken (by decide) hfields hrows hrow
  obtain ⟨text, htext⟩ := hsome
  have hreferable : ∀ row ∈ asked, Referable row.2.id := by
    by_contra hnot
    exact ht.not_texts_of_broken (Fragment.object_unreadable hids hnot) text ((hsame text).2 htext)
  have htexts (text : List Char) : RowTexts t.Texts asked text ↔ RowTexts t.Texts fields text := by
    have hiff := (derives_object_iff ht hreferable _).symm.trans (hsame (String.ofList text))
    rwa [objectText_iff, objectText_iff, String.toList_ofList] at hiff
  exact rows_eq_of_rowTexts hrows (fun row hrow => (hreferable row hrow).closed)
    (fun field hfield => (hfields field hfield).2.referable.closed)
    ⟨_, (htexts _).2 ((objectText_iff text).1 htext)⟩ htexts

end Texts

namespace BlockCall

/-- A call goes through whatever was asked for before. Its rule derives the texts that are given
from then on if no other list has built the rule, and, where there is such a text, only then. -/
structure YieldsAsBuilt (calls : List BlockCall) (call : BlockCall)
    (texts : RuleTable → String → Prop) : Prop where
  answered : answer calls call = some call.handle
  yields : builder calls call = call → Yields calls call texts
  built : (∃ more text, texts (after (calls ++ call :: more)).table text) →
    Yields calls call texts → builder calls call = call

section Calls

variable {f : Fragment} {call : BlockCall} {calls : List BlockCall}
  {texts : RuleTable → String → Prop}

/-- It is enough that no other fragment of the kind and the key derives the same texts. -/
theorem yieldsAsBuilt (hcall : call.fragment? = some f)
    (hp : ∀ g : Fragment, g.ctorIdx = f.ctorIdx → g.layout.text ≠ "") (hacceptable : call.Acceptable)
    (hlog : Collisionless (after (calls ++ [call])).log)
    (htexts : ∀ t : RuleTable, t.HoldsRules f → ∀ text : String,
      t.Derives f.handle text ↔ texts t text)
    (hbuilt : ∀ g : Fragment, g.ctorIdx = f.ctorIdx → g.canonical? = f.canonical? →
      ∀ t : RuleTable, t.HoldsRules g → (∃ text, texts t text) →
        (∀ text, t.Derives g.handle text ↔ texts t text) → g = f) :
    YieldsAsBuilt calls call texts := by
  have hanswer : answer calls call = some call.handle :=
    (answer_eq_some_iff hlog _).2 ⟨.inl hacceptable, rfl⟩
  have hstem := stem_of_fragment? hcall
  refine ⟨hanswer, fun hbuilder => ⟨hanswer, fun more text => ?_⟩, ?_⟩
  · rw [handle, hstem]
    exact htexts _ (holdsRules_of_builder (hbuilder.symm ▸ hcall) (hp f rfl) more) text
  · rintro ⟨more, text, htext⟩ hyields
    obtain ⟨g, hg, hs, hc⟩ := exists_fragment_of_builder hcall hlog
    have hkind := Fragment.ctorIdx_eq_of_stem_eq hs
    have hhandle : g.handle = call.handle := by
      rw [Fragment.handle, hs, handle, hstem]
      rfl
    have hsame := hbuilt g hkind hc _ (holdsRules_of_builder hg (hp g hkind) more) ⟨text, htext⟩
    rw [hhandle] at hsame
    exact fragment?_inj (hsame (hyields.2 more) ▸ hg) hcall

end Calls

section Containers

variable {calls : List BlockCall} {inner : RuleHandle} {members : List RuleHandle}
  {fields : List (String × RuleHandle)} {g : Fragment}

private theorem exists_tuple (h : g.ctorIdx = (Fragment.tuple members).ctorIdx) :
    ∃ asked, g = .tuple asked := by
  cases g with
  | tuple asked => exact ⟨asked, rfl⟩
  | _ => simp [Fragment.ctorIdx] at h

private theorem exists_object (h : g.ctorIdx = (Fragment.object fields).ctorIdx) :
    ∃ asked, g = .object asked := by
  cases g with
  | object asked => exact ⟨asked, rfl⟩
  | _ => simp [Fragment.ctorIdx] at h

private theorem tuple_proper (members : List RuleHandle) : (Fragment.tuple members).layout.text ≠ "" :=
  Layout.Proper.text_ne_empty (.cons (by simp))

private theorem object_proper (fields : List (String × RuleHandle)) :
    (Fragment.object fields).layout.text ≠ "" :=
  Layout.Proper.text_ne_empty (.cons (by simp))

theorem array_yields (hinner : (after calls).table.defined inner.id = true)
    (hlog : Collisionless (after (calls ++ [.array inner])).log) :
    Yields calls (.array inner) (ArrayText inner) := by
  have hcall : (BlockCall.array inner).fragment? = some (.array inner) := rfl
  refine yields_of_collisionless hcall (Layout.Proper.text_ne_empty (.cons (by simp))) hlog trivial
    (fun _ _ g _ hkind => ?_)
    fun t ht => derives_array_iff ht (after_idsPlain calls _ hinner).referable
  cases g with
  | array => trivial
  | _ => simp [Fragment.ctorIdx] at hkind

theorem tuple_yields (hmembers : ∀ m ∈ members, (after calls).table.defined m.id = true)
    (hearlier : ∀ earlier, .tuple earlier ∈ calls → ∀ m ∈ earlier, '>' ∉ m.id.toList)
    (hlog : Collisionless (after (calls ++ [.tuple members])).log) :
    Yields calls (.tuple members) (TupleText members) := by
  have hcall : (BlockCall.tuple members).fragment? = some (.tuple members) := rfl
  have href (m : RuleHandle) (hm : m ∈ members) : Referable m.id :=
    (after_idsPlain calls _ (hmembers m hm)).referable
  refine yields_of_collisionless hcall (tuple_proper members) hlog (fun m hm => (href m hm).closed)
    (fun other hother g hg hkind => ?_) fun t ht => derives_tuple_iff ht href
  obtain ⟨earlier, rfl⟩ := exists_tuple hkind
  obtain rfl : other = .tuple earlier := fragment?_inj hg rfl
  exact hearlier earlier hother

theorem object_yields (hfields : ∀ field ∈ fields, '<' ∉ field.1.toList ∧
      (after calls).table.defined field.2.id = true)
    (hearlier : ∀ earlier, .object earlier ∈ calls → ∀ field ∈ earlier,
      '<' ∉ field.1.toList ∧ '>' ∉ field.2.id.toList)
    (hlog : Collisionless (after (calls ++ [.object fields])).log) :
    Yields calls (.object fields) (ObjectText fields) := by
  have hcall : (BlockCall.object fields).fragment? = some (.object fields) := rfl
  have href (field : String × RuleHandle) (hfield : field ∈ fields) : Referable field.2.id :=
    (after_idsPlain calls _ (hfields field hfield).2).referable
  have hclear (field : String × RuleHandle) (hfield : field ∈ fields) :
      '<' ∉ field.1.toList ∧ '>' ∉ field.2.id.toList :=
    ⟨(hfields field hfield).1, (href field hfield).closed⟩
  refine yields_of_collisionless hcall (object_proper fields) hlog hclear
    (fun other hother g hg hkind => ?_) fun t ht => derives_object_iff ht href
  obtain ⟨earlier, rfl⟩ := exists_object hkind
  obtain rfl : other = .object earlier := fragment?_inj hg rfl
  exact hearlier earlier hother

theorem tuple_yieldsAsBuilt (hmembers : ∀ m ∈ members, (after calls).table.defined m.id = true)
    (hlog : Collisionless (after (calls ++ [.tuple members])).log) :
    YieldsAsBuilt calls (.tuple members) (TupleText members) := by
  have hplain (m : RuleHandle) (hm : m ∈ members) : PlainId m.id :=
    after_idsPlain calls _ (hmembers m hm)
  refine yieldsAsBuilt (f := .tuple members) rfl (fun g hkind => ?_) trivial hlog
    (fun t ht => derives_tuple_iff ht fun m hm => (hplain m hm).referable)
    fun g hkind hkey t ht hsome hsame => ?_
  · obtain ⟨asked, rfl⟩ := exists_tuple hkind
    exact tuple_proper asked
  · obtain ⟨asked, rfl⟩ := exists_tuple hkind
    rw [tuple_eq_of_derives hkey hplain ht (hsome.imp fun text => (hsame text).2)]

theorem object_yieldsAsBuilt (hfields : ∀ field ∈ fields, '<' ∉ field.1.toList ∧
      (after calls).table.defined field.2.id = true)
    (hlog : Collisionless (after (calls ++ [.object fields])).log) :
    YieldsAsBuilt calls (.object fields) (ObjectText fields) := by
  have hplain (field : String × RuleHandle) (hfield : field ∈ fields) :
      '<' ∉ field.1.toList ∧ PlainId field.2.id :=
    ⟨(hfields field hfield).1, after_idsPlain calls _ (hfields field hfield).2⟩
  refine yieldsAsBuilt (f := .object fields) rfl (fun g hkind => ?_) trivial hlog
    (fun t ht => derives_object_iff ht fun field hfield => (hplain field hfield).2.referable)
    fun g hkind hkey t ht hsome hsame => ?_
  · obtain ⟨asked, rfl⟩ := exists_object hkind
    exact object_proper asked
  · obtain ⟨asked, rfl⟩ := exists_object hkind
    rw [object_eq_of_derives hkey hplain ht hsome hsame]

end Containers

/-- After any calls an array of a committed rule goes through, and from then on it derives the
canonical layout of the texts of that rule. A tuple of committed rules and an object of committed
rules under names without `<` go through as well. Each derives its layout if its rule has not been
built from another list of the same key before, and only then if the layout has a text at all. There
is no such list if the ids that all tuples before were made from hold no `>`, or for an object, if
the ids of all objects before hold no `>` and their names no `<`. -/
theorem containers_yield_iff (calls : List BlockCall) :
    (∀ inner : RuleHandle, (after calls).table.defined inner.id = true →
      Collisionless (after (calls ++ [.array inner])).log →
        Yields calls (.array inner) (ArrayText inner)) ∧
    (∀ members : List RuleHandle, (∀ m ∈ members, (after calls).table.defined m.id = true) →
      Collisionless (after (calls ++ [.tuple members])).log →
        YieldsAsBuilt calls (.tuple members) (TupleText members) ∧
        ((∀ earlier, .tuple earlier ∈ calls → ∀ m ∈ earlier, '>' ∉ m.id.toList) →
          Yields calls (.tuple members) (TupleText members))) ∧
    ∀ fields : List (String × RuleHandle), (∀ field ∈ fields, '<' ∉ field.1.toList ∧
        (after calls).table.defined field.2.id = true) →
      Collisionless (after (calls ++ [.object fields])).log →
        YieldsAsBuilt calls (.object fields) (ObjectText fields) ∧
        ((∀ earlier, .object earlier ∈ calls → ∀ field ∈ earlier,
          '<' ∉ field.1.toList ∧ '>' ∉ field.2.id.toList) →
          Yields calls (.object fields) (ObjectText fields)) :=
  ⟨fun _ => array_yields,
    fun _ hmembers hlog => ⟨tuple_yieldsAsBuilt hmembers hlog,
      fun hearlier => tuple_yields hmembers hearlier hlog⟩,
    fun _ hfields hlog => ⟨object_yieldsAsBuilt hfields hlog,
      fun hearlier => object_yields hfields hearlier hlog⟩⟩

/-- An object under names without `<` gets the rule of an earlier one, whose only name holds a
reference and a comma. -/
theorem object_after_one_of_its_key :
    let together := [("a<__bjn_decl>,b", ⟨"__bjb_decl"⟩)]
    let apart : List (String × RuleHandle) := [("a", ⟨"__bjn_decl"⟩), ("b", ⟨"__bjb_decl"⟩)]
    let rule : RuleHandle := ⟨"__bjo_f02638b90c718954_decl"⟩
    let calls := [null, boolean, object together]
    Collisionless (after (calls ++ [object apart])).log ∧
      (∀ field ∈ apart, '<' ∉ field.1.toList ∧ PlainId field.2.id ∧
        (after calls).table.defined field.2.id = true) ∧
      answer calls (object apart) = some rule ∧
      (after (calls ++ [object apart])).table.rule? rule.id =
        some ⟨rule.id, JsonFragment.objectProduction together⟩ ∧
      ¬Yields calls (object apart) (ObjectText apart) := by
  intro together apart rule calls
  have hlog : Collisionless (after (calls ++ [object apart])).log := by decide +kernel
  have hfields : ∀ field ∈ apart, '<' ∉ field.1.toList ∧ PlainId field.2.id ∧
      (after calls).table.defined field.2.id = true := by decide +kernel
  obtain ⟨hnull, hboolean⟩ :
      (after (calls ++ [object apart])).table.reading "__bjn_decl" =
          some [[.terminal "null".toList]] ∧
        (after (calls ++ [object apart])).table.reading "__bjb_decl" =
          some [[.terminal "true".toList], [.terminal "false".toList]] := by decide +kernel
  have htext : ObjectText apart (after (calls ++ [object apart])).table
      "\x7b\"a\": null, \"b\": true\x7d" := by
    refine ⟨["null", "true"], .cons ?_ (.cons ?_ .nil), by decide⟩
    · exact Derives.rule_iff.2 ⟨_, hnull, _, List.mem_cons_self, Derives.terminal_iff.2 rfl⟩
    · exact Derives.rule_iff.2 ⟨_, hboolean, _, List.mem_cons_self, Derives.terminal_iff.2 rfl⟩
  refine ⟨hlog, hfields, by decide +kernel, by decide +kernel, fun hyields => ?_⟩
  have hown : builder calls (object apart) = object apart :=
    (object_yieldsAsBuilt (fun field hfield => ⟨(hfields field hfield).1, (hfields field hfield).2.2⟩)
      hlog).built ⟨[], _, htext⟩ hyields
  revert hown
  decide +kernel

/-- Calls that leave a tuple and an object in the table. -/
def mixedCalls : List BlockCall :=
  [null, boolean, .tuple [⟨"__bjb_decl"⟩], .object [("b", ⟨"__bjn_decl"⟩)]]

/-- Rows with an empty name, and with one that is escaped. -/
def mixedFields : List (String × RuleHandle) :=
  [("", ⟨"__bjb_decl"⟩), ("it's\n\"b\"", handle (.tuple [⟨"__bjb_decl"⟩]))]

theorem mixedCalls_collisionless :
    Collisionless (after (mixedCalls ++ [.array ⟨"__bjn_decl"⟩])).log ∧
      Collisionless (after (mixedCalls ++ [.tuple [⟨"__bjn_decl"⟩, ⟨"__bjb_decl"⟩]])).log ∧
      Collisionless (after (mixedCalls ++ [.object mixedFields])).log := by
  decide +kernel

/-- The hypotheses hold of containers of each kind after another tuple and another object. -/
theorem mixedCalls_yield :
    (Collisionless (after (mixedCalls ++ [.array ⟨"__bjn_decl"⟩])).log ∧
      Collisionless (after (mixedCalls ++ [.tuple [⟨"__bjn_decl"⟩, ⟨"__bjb_decl"⟩]])).log ∧
      Collisionless (after (mixedCalls ++ [.object mixedFields])).log) ∧
    Yields mixedCalls (.array ⟨"__bjn_decl"⟩) (ArrayText ⟨"__bjn_decl"⟩) ∧
      Yields mixedCalls (.tuple [⟨"__bjn_decl"⟩, ⟨"__bjb_decl"⟩])
        (TupleText [⟨"__bjn_decl"⟩, ⟨"__bjb_decl"⟩]) ∧
      Yields mixedCalls (.object mixedFields) (ObjectText mixedFields) := by
  obtain ⟨harray, htuple, hobject⟩ := containers_yield_iff mixedCalls
  obtain ⟨hlog, hlog', hlog''⟩ := mixedCalls_collisionless
  refine ⟨⟨hlog, hlog', hlog''⟩, harray _ (by decide +kernel) hlog,
    (htuple _ (by decide +kernel) hlog').2 ?_, (hobject _ (by decide +kernel) hlog'').2 ?_⟩
  · intro earlier hearlier
    obtain rfl : earlier = [⟨"__bjb_decl"⟩] := by simpa [mixedCalls] using hearlier
    decide
  · intro earlier hearlier
    obtain rfl : earlier = [("b", ⟨"__bjn_decl"⟩)] := by simpa [mixedCalls] using hearlier
    decide

end BlockCall

end RecordGrammar
