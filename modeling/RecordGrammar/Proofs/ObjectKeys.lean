import RecordGrammar.Proofs.FragmentCalls
import Mathlib.Logic.Relation

/-! # The objects that share a rule

The text that an object is keyed by is cut into its fields again by the references and the commas
behind them. A name may hold a reference and a comma itself, so that there may be several ways to
cut it. -/

namespace RecordGrammar

open Relation (ReflTransGen)

/-- The id is read back from where it stands between angle brackets. -/
def RuleHandle.Bracketed (handle : RuleHandle) : Prop :=
  '<' ∉ handle.id.toList ∧ '>' ∉ handle.id.toList

/-- A name that a reference with a comma behind it stands in. -/
def HoldsReference (name : String) : Prop :=
  ∃ (before after : String) (handle : RuleHandle), handle.Bracketed ∧
    name = before ++ handle.text ++ "," ++ after

theorem not_holdsReference {name : String} (h : '<' ∉ name.toList) : ¬HoldsReference name := by
  rintro ⟨before, after, handle, -, rfl⟩
  simp [RuleHandle.text] at h

namespace JsonFragment

/-- A field is taken into the name of the one behind it. -/
inductive Absorbs : List (String × RuleHandle) → List (String × RuleHandle) → Prop
  | head {name next : String} {value value' : RuleHandle} {rest : List (String × RuleHandle)}
      (h : value.Bracketed) : Absorbs ((name, value) :: (next, value') :: rest)
        ((name ++ value.text ++ "," ++ next, value') :: rest)
  | tail {field : String × RuleHandle} {rest rest' : List (String × RuleHandle)}
      (h : Absorbs rest rest') : Absorbs (field :: rest) (field :: rest')

/-- Fields that are cut from the same finest ones. -/
def CutAlike (fields fields' : List (String × RuleHandle)) : Prop :=
  ∃ finest, ReflTransGen Absorbs finest fields ∧ ReflTransGen Absorbs finest fields'

theorem CutAlike.refl (fields : List (String × RuleHandle)) : CutAlike fields fields :=
  ⟨fields, .refl, .refl⟩

theorem CutAlike.symm {fields fields' : List (String × RuleHandle)} (h : CutAlike fields fields') :
    CutAlike fields' fields :=
  have ⟨finest, h, h'⟩ := h
  ⟨finest, h', h⟩

theorem CutAlike.cons {fields fields' : List (String × RuleHandle)} (h : CutAlike fields fields')
    (field : String × RuleHandle) : CutAlike (field :: fields) (field :: fields') := by
  obtain ⟨finest, h, h'⟩ := h
  exact ⟨field :: finest, h.lift (field :: ·) fun _ _ => .tail,
    h'.lift (field :: ·) fun _ _ => .tail⟩

theorem CutAlike.absorb {fields fields' fields'' : List (String × RuleHandle)}
    (h : CutAlike fields fields') (ha : Absorbs fields' fields'') : CutAlike fields fields'' :=
  have ⟨finest, h, h'⟩ := h
  ⟨finest, h, h'.tail ha⟩

/-- What follows the first field. -/
def restText (rest : List (String × RuleHandle)) : List Char :=
  if rest = [] then [] else ',' :: (objectText rest).toList

theorem toList_objectText_cons (name : String) (value : RuleHandle)
    (rest : List (String × RuleHandle)) : (objectText ((name, value) :: rest)).toList =
      name.toList ++ '<' :: (value.id.toList ++ '>' :: restText rest) := by
  cases rest <;> simp [objectText, restText, RuleHandle.text]

theorem length_objectText_lt (field : String × RuleHandle) (rest : List (String × RuleHandle)) :
    (objectText rest).toList.length < (objectText (field :: rest)).toList.length := by
  have hrest : (objectText rest).toList.length ≤ (restText rest).length := by
    cases rest <;> simp [restText, objectText]
  rw [toList_objectText_cons]
  simp only [List.length_append, List.length_cons]
  omega

theorem Absorbs.objectText_eq {fields fields' : List (String × RuleHandle)}
    (h : Absorbs fields fields') : objectText fields = objectText fields' := by
  induction h with
  | @head name next value value' rest h =>
    rw [← String.toList_inj, toList_objectText_cons, toList_objectText_cons, restText,
      if_neg (List.cons_ne_nil _ _), toList_objectText_cons]
    simp [RuleHandle.text]
  | @tail field rest rest' h ih =>
    have hnil : rest = [] ↔ rest' = [] := by cases h <;> simp
    rw [← String.toList_inj, toList_objectText_cons, toList_objectText_cons, restText, restText, ih]
    simp only [hnil]

theorem CutAlike.objectText_eq {fields fields' : List (String × RuleHandle)}
    (h : CutAlike fields fields') : objectText fields = objectText fields' := by
  have hsteps {finest fields : List (String × RuleHandle)}
      (h : ReflTransGen Absorbs finest fields) : objectText finest = objectText fields := by
    induction h with
    | refl => rfl
    | tail _ h ih => exact ih.trans h.objectText_eq
  obtain ⟨finest, h, h'⟩ := h
  exact (hsteps h).symm.trans (hsteps h')

end JsonFragment

/-- A text that begins with a reference holds another one at its beginning or behind it. -/
theorem reference_split {ids ids' ys ys' zs : List Char} (hopen : '<' ∉ ids) (hclosed : '>' ∉ ids)
    (hclosed' : '>' ∉ ids')
    (h : '<' :: (ids ++ '>' :: ys) = zs ++ '<' :: (ids' ++ '>' :: ys')) :
    (zs = [] ∧ ids = ids' ∧ ys = ys') ∨
      ∃ ws, zs = '<' :: (ids ++ '>' :: ws) ∧ ys = ws ++ '<' :: (ids' ++ '>' :: ys') := by
  cases zs with
  | nil =>
    obtain ⟨hids, hys⟩ := append_cons_inj_of_first hclosed hclosed' (List.cons.inj h).2
    exact .inl ⟨rfl, hids, hys⟩
  | cons c zs =>
    obtain ⟨rfl, htail⟩ := List.cons.inj h
    rcases List.append_eq_append_iff.1 htail with ⟨ws, rfl, hws⟩ | ⟨ws, rfl, hws⟩
    · cases ws with
      | nil => simp at hws
      | cons c ws =>
        obtain ⟨rfl, hys⟩ := List.cons.inj hws
        exact .inr ⟨ws, rfl, hys⟩
    · cases ws with
      | nil => simp at hws
      | cons c ws =>
        obtain ⟨rfl, -⟩ := List.cons.inj hws
        simp at hopen

namespace JsonFragment

variable {fields fields' : List (String × RuleHandle)}

/-- No id of a field would end its reference early. -/
def Bracketed (fields : List (String × RuleHandle)) : Prop := ∀ field ∈ fields, field.2.Bracketed

theorem objectText_cons_ne_empty (field : String × RuleHandle) :
    objectText (field :: fields) ≠ "" := by
  intro h
  have hlist := congrArg String.toList h
  rw [toList_objectText_cons] at hlist
  simp at hlist

theorem objectText_eq_of_restText {rest rest' : List (String × RuleHandle)}
    (h : restText rest = restText rest') : objectText rest = objectText rest' := by
  unfold restText at h
  split at h
  next hnil =>
    split at h
    next hnil' => rw [hnil, hnil']
    · cases h
  · split at h
    · cases h
    · exact String.toList_inj.1 (List.cons.inj h).2

/-- Fields that are keyed by the same text, and whose first names do not agree, the second of them
being the longer one. -/
theorem cutAlike_of_longer {name name' : String} {value value' : RuleHandle}
    {rest rest' : List (String × RuleHandle)} {ws : List Char} (hvalue : value.Bracketed)
    (ih : ∀ {next : String}, objectText rest = objectText ((next, value') :: rest') →
      CutAlike rest ((next, value') :: rest'))
    (hname : name'.toList = name.toList ++ '<' :: (value.id.toList ++ '>' :: ws))
    (hrest : restText rest = ws ++ '<' :: (value'.id.toList ++ '>' :: restText rest')) :
    CutAlike ((name, value) :: rest) ((name', value') :: rest') := by
  rw [restText] at hrest
  split at hrest
  · simp at hrest
  cases ws with
  | nil => simp at hrest
  | cons c ws =>
    obtain ⟨rfl, htext⟩ := List.cons.inj hrest
    have hnext : CutAlike rest ((String.ofList ws, value') :: rest') := by
      apply ih
      rw [← String.toList_inj, toList_objectText_cons, htext, String.toList_ofList]
      rfl
    have hname' : name' = name ++ value.text ++ "," ++ String.ofList ws := by
      rw [← String.toList_inj, hname]
      simp [RuleHandle.text]
    rw [hname']
    exact (hnext.cons (name, value)).absorb (.head hvalue)

/-- The text of an object tells its fields up to how they are cut. -/
theorem cutAlike_of_objectText_eq (h : Bracketed fields) (h' : Bracketed fields')
    (he : objectText fields = objectText fields') : CutAlike fields fields' := by
  induction hn : (objectText fields).toList.length using Nat.strong_induction_on
    generalizing fields fields' with
  | _ n ih =>
  cases fields with
  | nil =>
    cases fields' with
    | nil => exact .refl []
    | cons field' rest' => exact absurd he.symm (objectText_cons_ne_empty field')
  | cons field rest =>
    cases fields' with
    | nil => exact absurd he (objectText_cons_ne_empty field)
    | cons field' rest' =>
      obtain ⟨name, value⟩ := field
      obtain ⟨name', value'⟩ := field'
      obtain ⟨hvalue, hrest⟩ := List.forall_mem_cons.1 h
      obtain ⟨hvalue', hrest'⟩ := List.forall_mem_cons.1 h'
      have hshort := length_objectText_lt (name, value) rest
      have hshort' := length_objectText_lt (name', value') rest'
      rw [hn] at hshort
      rw [← he, hn] at hshort'
      have hsame (hname : name.toList = name'.toList) (hid : value.id.toList = value'.id.toList)
          (htext : restText rest = restText rest') :
          CutAlike ((name, value) :: rest) ((name', value') :: rest') := by
        rw [String.toList_inj.1 hname, RuleHandle.toList_inj hid]
        exact (ih _ hshort hrest hrest' (objectText_eq_of_restText htext) rfl).cons _
      have hlist := congrArg String.toList he
      rw [toList_objectText_cons, toList_objectText_cons] at hlist
      rcases List.append_eq_append_iff.1 hlist with ⟨zs, hname, hzs⟩ | ⟨zs, hname, hzs⟩
      · rcases reference_split hvalue.1 hvalue.2 hvalue'.2 hzs with ⟨rfl, hid, htext⟩ |
          ⟨ws, rfl, htext⟩
        · exact hsame (by simpa using hname.symm) hid htext
        · refine cutAlike_of_longer hvalue (fun hnext => ?_) hname htext
          exact ih _ hshort hrest (List.forall_mem_cons.2 ⟨hvalue', hrest'⟩) hnext rfl
      · rcases reference_split hvalue'.1 hvalue'.2 hvalue.2 hzs with ⟨rfl, hid, htext⟩ |
          ⟨ws, rfl, htext⟩
        · exact hsame (by simpa using hname) hid.symm htext.symm
        · refine .symm (cutAlike_of_longer hvalue' (fun hnext => ?_) hname htext)
          exact ih _ hshort' hrest' (List.forall_mem_cons.2 ⟨hvalue, hrest⟩) hnext rfl

theorem objectText_eq_iff (h : Bracketed fields) (h' : Bracketed fields') :
    objectText fields = objectText fields' ↔ CutAlike fields fields' :=
  ⟨cutAlike_of_objectText_eq h h', CutAlike.objectText_eq⟩

/-- No name of a field holds a reference. -/
def NamesPlain (fields : List (String × RuleHandle)) : Prop :=
  ∀ field ∈ fields, ¬HoldsReference field.1

theorem Absorbs.not_namesPlain (h : Absorbs fields fields') : ¬NamesPlain fields' := by
  induction h with
  | head h => exact fun hplain => hplain _ List.mem_cons_self ⟨_, _, _, h, rfl⟩
  | tail h ih =>
    exact fun hplain => ih fun field hfield => hplain field (List.mem_cons_of_mem _ hfield)

/-- Fields without references in their names are cut in one way only. -/
theorem CutAlike.eq_of_namesPlain (h : CutAlike fields fields') (hplain : NamesPlain fields)
    (hplain' : NamesPlain fields') : fields = fields' := by
  have hfinest {finest fields : List (String × RuleHandle)}
      (h : ReflTransGen Absorbs finest fields) (hplain : NamesPlain fields) : finest = fields := by
    rcases h.cases_tail with rfl | ⟨other, -, hlast⟩
    · rfl
    · exact absurd hplain hlast.not_namesPlain
  obtain ⟨finest, h, h'⟩ := h
  exact (hfinest h hplain).symm.trans (hfinest h' hplain')

end JsonFragment

namespace BlockCall

open JsonFragment

variable {calls : List BlockCall} {fields fields' : List (String × RuleHandle)}

/-- The rule has the production that is made from the fields. -/
def MadeFrom (t : RuleTable) (rule : RuleHandle) (fields : List (String × RuleHandle)) : Prop :=
  t.rule? rule.id = some ⟨rule.id, objectProduction fields⟩

/-- An object that has been asked for is keyed in the log, and its rule is committed. -/
theorem keyed_and_defined_of_object (hlog : Collisionless (after calls).log)
    (hcall : object fields ∈ calls) : .keyed (objectText fields) ∈ (after calls).log ∧
      (after calls).table.defined (handle (object fields)).id = true := by
  refine ⟨keyed_mem_after (f := .object fields) hcall rfl rfl, ?_⟩
  obtain ⟨before, rest, rfl⟩ := List.append_of_mem hcall
  have hgrows := (after_append (before ++ [object fields]) rest).2
  obtain ⟨hs, ⟨-, r, s, hrun, -, hextends⟩ | ⟨hrefused, -⟩⟩ := ends_after hlog
  · rw [after_concat, hrun, List.append_assoc, List.singleton_append] at hgrows
    change JsonFragment.object fields (after before) = _ at hrun
    rw [JsonFragment.object, History.memoizedFor_eq] at hrun
    exact hgrows.defined hextends.stocked.wellFormed (memoized_eq_ok hrun).2
  · exact absurd (.inl trivial) hrefused

/-- The rule of an object is made from fields that were asked for and are keyed by the same text. -/
theorem exists_madeFrom (hlog : Collisionless (after calls).log) (hcall : object fields ∈ calls) :
    ∃ asked, object asked ∈ calls ∧ objectText asked = objectText fields ∧
      MadeFrom (after calls).table (handle (object fields)) asked := by
  have hs : (historyOf calls).Stocked (after calls).table :=
    after_stocked hlog (List.Subset.refl _) (List.Subset.refl _)
  obtain ⟨hkeyed, hd⟩ := keyed_and_defined_of_object hlog hcall
  obtain ⟨rule, hrule⟩ := Option.isSome_iff_exists.1 (hs.wellFormed.defined_eq_isSome _ ▸ hd)
  obtain ⟨asked, hasked, htext, hproduction⟩ :=
    (hs.explained _ rule hrule "__bjo_" _ hkeyed rfl).object rfl
  refine ⟨asked, hasked, htext, ?_⟩
  rw [MadeFrom, hrule, ← hproduction, ← hs.wellFormed.rule?_id hrule]

/-- Objects share a rule exactly if their fields are cut alike. -/
theorem handle_object_eq_iff (h : Bracketed fields) (h' : Bracketed fields')
    (hlog : Collisionless (after calls).log) (hcall : object fields ∈ calls)
    (hcall' : object fields' ∈ calls) :
    handle (object fields) = handle (object fields') ↔ CutAlike fields fields' := by
  rw [← objectText_eq_iff h h']
  constructor
  · intro he
    have hstem := declHandle_inj (congrArg RuleHandle.id he)
    obtain ⟨-, hkey⟩ := tag_memoKey_inj hstem
    have hkeyed {fields : List (String × RuleHandle)} (hcall : object fields ∈ calls) :
        objectText fields ∈ (after calls).log.filterMap Event.keyed? :=
      List.mem_filterMap.2 ⟨_, (keyed_and_defined_of_object hlog hcall).1, rfl⟩
    exact hlog _ (hkeyed hcall) _ (hkeyed hcall') hkey
  · intro he
    simp only [handle, stem, he]

/-- Two objects, one after the other on a table that block calls have left, get one rule exactly if
their fields are cut alike, and the rule is made from fields of the same text that were asked for.
As long as no name holds a reference with a comma behind it, different fields get different rules,
each made from the fields that it was asked for. -/
theorem object_rules_apart_iff (h : Bracketed fields) (h' : Bracketed fields')
    (hlog : Collisionless (after (calls ++ [object fields, object fields'])).log) :
    ∃ rule rule', answer calls (object fields) = some rule ∧
      answer (calls ++ [object fields]) (object fields') = some rule' ∧
      (rule = rule' ↔ CutAlike fields fields') ∧
      (∃ asked, object asked ∈ calls ++ [object fields, object fields'] ∧
        objectText asked = objectText fields ∧
        MadeFrom (after (calls ++ [object fields, object fields'])).table rule asked) ∧
      (∃ asked, object asked ∈ calls ++ [object fields, object fields'] ∧
        objectText asked = objectText fields' ∧
        MadeFrom (after (calls ++ [object fields, object fields'])).table rule' asked) ∧
      ((∀ asked, object asked ∈ calls ++ [object fields, object fields'] →
          Bracketed asked ∧ NamesPlain asked) →
        (rule = rule' ↔ fields = fields') ∧
        MadeFrom (after (calls ++ [object fields, object fields'])).table rule fields ∧
        MadeFrom (after (calls ++ [object fields, object fields'])).table rule' fields') := by
  have hsplit : calls ++ [object fields, object fields'] =
      calls ++ [object fields] ++ [object fields'] := by simp
  have hfirst : Collisionless (after (calls ++ [object fields])).log := by
    obtain ⟨later, hlater⟩ := (after_append (calls ++ [object fields]) [object fields']).1
    rw [hsplit, ← hlater] at hlog
    exact hlog.of_append.1
  have hcall : object fields ∈ calls ++ [object fields, object fields'] := by simp
  have hcall' : object fields' ∈ calls ++ [object fields, object fields'] := by simp
  obtain ⟨asked, hasked, htext, hmade⟩ := exists_madeFrom hlog hcall
  obtain ⟨asked', hasked', htext', hmade'⟩ := exists_madeFrom hlog hcall'
  have hiff := handle_object_eq_iff h h' hlog hcall hcall'
  refine ⟨_, _, (answer_eq_some_iff hfirst _).2 ⟨.inl trivial, rfl⟩,
    (answer_eq_some_iff (hsplit ▸ hlog) _).2 ⟨.inl trivial, rfl⟩, hiff,
    ⟨asked, hasked, htext, hmade⟩, ⟨asked', hasked', htext', hmade'⟩, fun hplain => ?_⟩
  have hown {asked fields : List (String × RuleHandle)}
      (hasked : Bracketed asked ∧ NamesPlain asked) (hfields : Bracketed fields ∧ NamesPlain fields)
      (htext : objectText asked = objectText fields) : asked = fields :=
    (cutAlike_of_objectText_eq hasked.1 hfields.1 htext).eq_of_namesPlain hasked.2 hfields.2
  refine ⟨hiff.trans ⟨fun hcut => ?_, fun he => he ▸ .refl fields⟩, ?_, ?_⟩
  · exact hcut.eq_of_namesPlain (hplain _ hcall).2 (hplain _ hcall').2
  · exact hown (hplain _ hasked) (hplain _ hcall) htext ▸ hmade
  · exact hown (hplain _ hasked') (hplain _ hcall') htext' ▸ hmade'

/-- The second of two different objects gets the rule of the first. -/
theorem objects_cut_alike :
    let apart := [("a", ⟨"__bjn_decl"⟩), ("b", ⟨"__bjb_decl"⟩)]
    let together := [("a<__bjn_decl>,b", ⟨"__bjb_decl"⟩)]
    let rule : RuleHandle := ⟨"__bjo_f02638b90c718954_decl"⟩
    let calls := [null, boolean]
    Collisionless (after (calls ++ [object apart, object together])).log ∧ apart ≠ together ∧
      answer calls (object apart) = some rule ∧
      answer (calls ++ [object apart]) (object together) = some rule ∧
      (after (calls ++ [object apart, object together])).table.rule? rule.id =
        some ⟨rule.id, objectProduction apart⟩ ∧
      objectProduction together ≠ objectProduction apart := by
  decide +kernel

/-- Two objects with names of their own. -/
theorem objects_of_plain_names :
    let first := [("a", ⟨"__bjn_decl"⟩)]
    let second := [("b", ⟨"__bjn_decl"⟩)]
    Bracketed first ∧ Bracketed second ∧
      Collisionless (after ([null] ++ [object first, object second])).log ∧
      ∃ rule rule', answer [null] (object first) = some rule ∧
        answer ([null] ++ [object first]) (object second) = some rule' ∧ rule ≠ rule' := by
  intro first second
  have hnull : RuleHandle.Bracketed ⟨"__bjn_decl"⟩ := ⟨by decide, by decide⟩
  have hplain (name : String) (hname : '<' ∉ name.toList) :
      Bracketed [(name, ⟨"__bjn_decl"⟩)] ∧ NamesPlain [(name, ⟨"__bjn_decl"⟩)] :=
    ⟨List.forall_mem_singleton.2 hnull, List.forall_mem_singleton.2 (not_holdsReference hname)⟩
  have hfirst := hplain "a" (by decide)
  have hsecond := hplain "b" (by decide)
  have hlog : Collisionless (after ([null] ++ [object first, object second])).log := by
    decide +kernel
  obtain ⟨rule, rule', hrule, hrule', -, -, -, hapart⟩ :=
    object_rules_apart_iff hfirst.1 hsecond.1 hlog
  have hasked : ∀ asked, object asked ∈ [null] ++ [object first, object second] →
      Bracketed asked ∧ NamesPlain asked := by
    intro asked hasked
    have hmem : asked = first ∨ asked = second := by simpa using hasked
    rcases hmem with rfl | rfl
    · exact hfirst
    · exact hsecond
  have hne : first ≠ second := by decide
  have hrules : rule ≠ rule' := fun he => hne ((hapart hasked).1.1 he)
  exact ⟨hfirst.1, hsecond.1, hlog, rule, rule', hrule, hrule', hrules⟩

end BlockCall

end RecordGrammar
