import RecordGrammar.Proofs.FragmentBuilding

/-! # Building a fragment, memo included

A fragment is built when its rule is not in the table yet. Either way the table then holds the rules
of the fragment, and nothing else has been added to it. -/

namespace RecordGrammar

namespace RuleTable

/-- Those of some rules that are not in the table. -/
def lacking (t : RuleTable) (rules : List Rule) : List Rule := rules.filter (!t.defined ·.id)

theorem Adds.push {t t' : RuleTable} {stem id : String} {new : List Rule}
    (h : t.Adds stem new t') (production : String) (hfree : t'.taken id = false) :
    t.Adds stem (new ++ [⟨id, production⟩]) (t'.push id production) := by
  obtain ⟨hd, hr⟩ := taken_eq_false_iff.1 hfree
  exact
    { wellFormed := h.wellFormed.push hd hr
      rules := by rw [toList_rules_push, h.rules, List.append_assoc]
      reserved := h.reserved
      counters := h.counters }

theorem UsedUpTo.of_adds {t t' : RuleTable} {stem stem' : String} {n : Nat} {new : List Rule}
    (hwf : t.WellFormed) (h : t.UsedUpTo stem n) (hadds : t.Adds stem' new t') (hne : stem ≠ stem')
    (hnew : ∀ r ∈ new, ∀ x, '_' ∉ x.toList → r.id ≠ Scope.idOf ⟨stem⟩ x) : t'.UsedUpTo stem n where
  counter := (hadds.counters stem hne).trans h.counter
  free x hx hn := by
    rw [hadds.taken_eq hwf, h.free x hx hn, Bool.false_or, List.any_eq_false]
    intro r hr
    simpa using hnew r hr x hx

end RuleTable

namespace FormatFragment

theorem digitHandle_ne_idOf {stem x : String} (hx : '_' ∉ x.toList) (hstem : stem ≠ "__bst") :
    digitHandle.id ≠ Scope.idOf ⟨stem⟩ x := by
  intro h
  have hd : '_' ∉ "d".toList := by decide
  obtain ⟨hs, -⟩ := Scope.idOf_inj hd hx (show Scope.idOf ⟨"__bst"⟩ "d" = _ from h)
  exact hstem (congrArg Scope.stem hs).symm

theorem digitRule_production_ne_empty : digitRule.production ≠ "" :=
  have h : decimalDigits ≠ [] := by decide
  (Layout.ofTerminals_proper h).text_ne_empty

/-- The digit that all masks share is added by the first of them. -/
theorem digit_eq {s : Session} (hwf : s.table.WellFormed)
    (hr : s.table.reserved.contains digitHandle.id = false) {stem : String}
    (h : s.table.Untouched stem) (hstem : stem ≠ "__bst") : ∃ t : RuleTable,
    digit s = .ok digitHandle { s with table := t } ∧
      s.table.Adds stem (s.table.lacking [digitRule]) t ∧ t.Untouched stem := by
  by_cases hd : s.table.defined "__bst_d"
  · obtain ⟨r, hrule, hid⟩ := hwf.rule_eq_ok hd
    refine ⟨s.table, ?_, ?_, h⟩
    · rw [digit, get_bind, if_pos hd, lookup, get_bind]
      simp only [hrule]
      exact congrArg (fun id => EStateM.Result.ok (RuleHandle.mk id) s) hid
    · simpa [RuleTable.lacking, digitRule, digitHandle, hd] using RuleTable.Adds.refl hwf stem
  · have hfree : s.table.taken digitHandle.id = false :=
      RuleTable.taken_eq_false_iff.2 ⟨by simpa [digitHandle] using hd, hr⟩
    have hadds (stem : String) :
        s.table.Adds stem [digitRule] (s.table.push digitHandle.id digitRule.production) :=
      (RuleTable.Adds.refl hwf stem).push _ hfree
    refine ⟨s.table.push digitHandle.id digitRule.production, ?_, ?_, ?_⟩
    · have hproduction : alternation (decimalDigits.map terminal) = digitRule.production := by
        simp [digitRule]
      rw [digit, get_bind, if_neg hd, hproduction]
      exact Scope.defineNamed_ok hfree digitRule_production_ne_empty
    · simpa [RuleTable.lacking, digitRule, digitHandle, hd] using hadds stem
    · refine h.of_adds hwf (hadds "__bst") hstem fun r hr x hx => ?_
      obtain rfl : r = digitRule := by simpa using hr
      exact digitHandle_ne_idOf hx hstem

end FormatFragment

namespace Fragment

/-- What is noted before the memo of a fragment is looked up. -/
def notes (f : Fragment) : List Event :=
  (match f with
    | .enumeration literals => literals.flatMap fun l => terminalNotes l.text
    | _ => []) ++ f.canonical?.toList.map .keyed

/-- What is noted while the rules of a fragment are built. -/
def bodyNotes : Fragment → List Event
  | .maskedTime mask =>
    (FormatFragment.maskSegments mask.toList).flatMap FormatFragment.stretchNotes
  | _ => []

/-- The build of a fragment as a memo around `body`, which does what the layouts say. -/
structure BuiltBy (f : Fragment) (body : Scope → Build String) : Prop where
  build_eq (s : Session) : f.build s = memoized f.stem body (s.noting f.notes)
  body_eq (s : Session) (hwf : s.table.WellFormed) (h : s.table.Untouched f.stem)
    (hr : s.table.reserved.contains FormatFragment.digitHandle.id = false) :
    ∃ t : RuleTable,
      body ⟨f.stem⟩ s = .ok f.layout.text ({ s with table := t }.noting f.bodyNotes) ∧
        s.table.Adds f.stem (s.table.lacking f.shared ++ numberedRules f.stem 0 f.helpers) t ∧
        t.UsedUpTo f.stem f.helpers.length

theorem BuiltBy.of_builds {f : Fragment} {body : Scope → Build String}
    (hbuild : ∀ s, f.build s = memoized f.stem body (s.noting f.notes)) (hshared : f.shared = [])
    (hnotes : f.bodyNotes = []) (h : Builds f.stem 0 (body ⟨f.stem⟩) f.layout.text f.helpers) :
    f.BuiltBy body where
  build_eq := hbuild
  body_eq s hwf hu _ := by
    obtain ⟨t, hrun, hadds, hused⟩ := h s hwf hu
    refine ⟨t, by rw [hrun, hnotes, Session.noting_nil], ?_, by simpa using hused⟩
    simpa [hshared, RuleTable.lacking] using hadds

private theorem memoized_of_keyed {tag canonical : String} {body : Scope → Build String}
    (s : Session) : (keyedStem tag canonical >>= fun stem => memoized stem body) s =
      memoized (tag ++ memoKey canonical) body (s.noting [.keyed canonical]) :=
  bind_of_ok (keyedStem_eq tag canonical s)

private theorem enumeration_build (literals : List Literal) (s : Session) :
    (enumeration literals).build s = memoized (enumeration literals).stem
      (fun _ => pure (alternation (literals.map fun l => terminal l.text)))
      (s.noting (enumeration literals).notes) := by
  have hterminals := mapM_logging (fun l : Literal => emitTerminal_eq l.text) literals s
  rw [build, bind_of_ok hterminals, JsonFragment.enumeration, memoized_of_keyed,
    Session.noting_noting]
  rfl

theorem maskedTime_builtBy (mask : String) : ∃ body, (maskedTime mask).BuiltBy body := by
  refine ⟨_, fun s => memoized_of_keyed s, fun s hwf h hr => ?_⟩
  have hstem : (maskedTime mask).stem ≠ "__bst" := by
    intro he
    have := congrArg (fun t => t.toList.length) he
    simp [stem, tag] at this
  obtain ⟨t, hdigit, hadds, hu⟩ := FormatFragment.digit_eq hwf hr h hstem
  refine ⟨t, ?_, ?_, hu⟩
  · rw [bind_of_ok hdigit, bind_of_ok (mapM_logging FormatFragment.segmentText_eq _ _)]
    have htext := FormatFragment.text_maskRow (FormatFragment.maskSegments mask.toList)
    simp [layout, bodyNotes, FormatFragment.maskLayout, Layout.text, htext, pure, EStateM.pure]
  · simpa [helpers, numberedRules, shared] using hadds

/-- Every fragment is a memo around a build that does what its layouts say. -/
theorem builtBy (f : Fragment) : ∃ body, f.BuiltBy body := by
  cases f with
  | number =>
    obtain ⟨body, hbuild, h⟩ := JsonFragment.number_builds
    exact ⟨body, .of_builds (fun s => by rw [build, hbuild]; simp [notes, canonical?, stem, tag]) rfl rfl h⟩
  | string =>
    obtain ⟨body, hbuild, h⟩ := JsonFragment.string_builds
    exact ⟨body, .of_builds (fun s => by rw [build, hbuild]; simp [notes, canonical?, stem, tag]) rfl rfl h⟩
  | boolean =>
    refine ⟨_, .of_builds (fun s => by simp [notes, canonical?, stem, tag, build]; rfl) rfl rfl
      (.pure_of_eq ?_)⟩
    simp [layout, JsonFragment.booleanLayout]
  | array inner =>
    obtain ⟨body, hbuild, h⟩ := JsonFragment.array_builds inner
    exact ⟨body, .of_builds (fun s => by rw [build, hbuild]; exact memoized_of_keyed s) rfl rfl (h _)⟩
  | tuple members =>
    exact ⟨_, .of_builds (fun s => memoized_of_keyed s) rfl rfl
      (.pure_of_eq (JsonFragment.text_tupleLayout members).symm)⟩
  | enumeration literals =>
    exact ⟨_, .of_builds (enumeration_build literals) rfl rfl
      (.pure_of_eq (by simp [layout, Function.comp_def]))⟩
  | object fields =>
    exact ⟨_, .of_builds (fun s => memoized_of_keyed s) rfl rfl
      (.pure_of_eq (JsonFragment.text_objectLayout fields).symm)⟩
  | inQuotes inner =>
    exact ⟨_, .of_builds (fun s => memoized_of_keyed s) rfl rfl
      (.pure_of_eq (by simp [layout, JsonFragment.inQuotesLayout, Layout.text, Piece.text]))⟩
  | maskedTime mask => exact maskedTime_builtBy mask
  | mailAddress =>
    obtain ⟨body, hbuild, h⟩ := FormatFragment.mailAddress_builds
    exact ⟨body, .of_builds (fun s => by rw [build, hbuild]; simp [notes, canonical?, stem, tag]) rfl rfl h⟩

end Fragment

end RecordGrammar
