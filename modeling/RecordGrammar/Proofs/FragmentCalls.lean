import RecordGrammar.Proofs.BlockTables

/-! # Block calls that build fragments

The first call of a stem builds its rule, and every later one finds that rule. So a call for a
fragment returns the rule of the fragment, and the rule is there from then on, if the calls of its
stem that were made before it were all for the same fragment. -/

namespace RecordGrammar

namespace Fragment

variable {f g : Fragment}

/-- Where nothing is keyed, the stem tells the fragment. -/
theorem eq_of_unkeyed (hf : f.canonical? = none) (hs : g.stem = f.stem) : g = f := by
  have hkind := ctorIdx_eq_of_stem_eq hs
  cases f with
  | number | string | boolean | mailAddress =>
    cases g <;> first | rfl | simp [Fragment.ctorIdx] at hkind
  | _ => simp [canonical?] at hf

/-- The stem of a fragment is not that of a part of markdown. -/
theorem stem_not_markdown (f : Fragment) : ¬"__bm".toList <+: f.stem.toList := by
  have hapart : Apart ["__bm"] f.stem := by
    refine apart_append ?_ ?_ _ <;> cases f <;> simp only [tag] <;> decide
  exact hapart _ (List.mem_singleton_self _)

/-- Only the stem of an enumeration is that of one. -/
theorem stem_not_enumeration (hf : ∀ literals, f ≠ .enumeration literals) :
    ¬"__bje_".toList <+: f.stem.toList := by
  have hapart : Apart ["__bje_"] f.stem := by
    refine apart_append ?_ ?_ _ <;> cases f <;> first
      | exact absurd rfl (hf _)
      | (simp only [tag]; decide)
  exact hapart _ (List.mem_singleton_self _)

end Fragment

namespace BlockCall

open MarkdownFragment (leadStem)

/-- The fragment that a call is for. A call gives the members of an enumeration as production text,
not as literals. -/
def fragment? : BlockCall → Option Fragment
  | number => some .number
  | string => some .string
  | boolean => some .boolean
  | array inner => some (.array inner)
  | tuple members => some (.tuple members)
  | object fields => some (.object fields)
  | inQuotes inner => some (.inQuotes inner)
  | maskedTime mask => some (.maskedTime mask)
  | mailAddress => some .mailAddress
  | _ => none

variable {f : Fragment} {call : BlockCall} {calls : List BlockCall}

theorem build_of_fragment? (h : call.fragment? = some f) : call.build = f.build := by
  cases call <;> cases h <;> rfl

theorem stem_of_fragment? (h : call.fragment? = some f) : call.stem = f.stem := by
  cases call <;> cases h <;>
    simp [stem, Fragment.stem, Fragment.tag, Fragment.canonical?, JsonFragment.objectText]

/-- No two calls are for one fragment. -/
theorem fragment?_inj {other : BlockCall} (h : call.fragment? = some f)
    (ho : other.fragment? = some f) : call = other := by
  cases call <;> cases h <;> cases other <;> cases ho <;> rfl

theorem not_enumeration_of_fragment? (h : call.fragment? = some f) (literals : List Literal) :
    f ≠ .enumeration literals := by
  cases call <;> cases h <;> simp

/-- A call of the stem of a fragment is for a fragment. -/
theorem exists_fragment_of_stem_eq (hs : call.stem = f.stem)
    (hf : ∀ literals, f ≠ .enumeration literals) : ∃ g, call.fragment? = some g := by
  have hmarkdown := f.stem_not_markdown
  rw [← hs] at hmarkdown
  cases call with
  | null =>
    have hprefix : f.tag.toList <+: "__bjn".toList :=
      ⟨_, (String.toList_append).symm.trans (congrArg String.toList hs.symm)⟩
    exfalso
    revert hprefix
    cases f <;> simp only [Fragment.tag] <;> decide
  | enumeration members =>
    refine absurd ?_ (Fragment.stem_not_enumeration hf)
    simp [← hs, stem]
  | lineWithLead lead => cases lead <;> simp [stem, leadStem] at hmarkdown
  | line | heading | listItem | bulletList | numberedList | entryList | paragraph =>
    simp [stem, leadStem] at hmarkdown
  | _ => exact ⟨_, rfl⟩

/-- The text that a call is keyed by is noted. -/
theorem keyed_of_fragment? (h : call.fragment? = some f) {canonical : String}
    (hc : f.canonical? = some canonical) (s : Session) :
    .keyed canonical ∈ (finalState (call.build s)).log := by
  cases call <;> cases h <;> cases hc
  case array => exact History.keyed_mem_log (.map (.oneOrMore _ _) _) s
  case tuple => exact History.keyed_mem_log (.pure _) s
  case object => exact History.keyed_mem_log (.pure _) s
  case inQuotes => exact History.keyed_mem_log (.pure _) s
  case maskedTime =>
    exact History.keyed_mem_log (.bind FormatFragment.digit_program fun _ =>
      .map (.mapM FormatFragment.segmentText_program _) _) s

theorem keyed_mem_after (hmem : call ∈ calls) (h : call.fragment? = some f) {canonical : String}
    (hc : f.canonical? = some canonical) : .keyed canonical ∈ (after calls).log := by
  obtain ⟨before, rest, rfl⟩ := List.append_of_mem hmem
  have hlater := (after_append (before ++ [call]) rest).1.subset
  rw [after_concat, List.append_assoc, List.singleton_append] at hlater
  exact hlater (keyed_of_fragment? h hc _)

/-- After some calls a further one goes through, and from then on its rule derives exactly the texts
that are given. -/
def Yields (calls : List BlockCall) (call : BlockCall) (texts : RuleTable → String → Prop) : Prop :=
  answer calls call = some call.handle ∧ ∀ (more : List BlockCall) (text : String),
    (after (calls ++ call :: more)).table.Derives call.handle text ↔
      texts (after (calls ++ call :: more)).table text

/-- The rule of a fragment is built where no earlier call of its stem was for another one. -/
theorem answer_of_alone (hcall : call.fragment? = some f) (hp : f.layout.text ≠ "")
    (halone : ∀ other ∈ calls, ∀ g, other.fragment? = some g → g.stem = f.stem → g = f)
    (more : List BlockCall) : answer calls call = some call.handle ∧
      (after (calls ++ call :: more)).table.HoldsRules f := by
  rw [handle, stem_of_fragment? hcall]
  refine answer_of_fragment hp (build_of_fragment? hcall) fun other hother hs => ?_
  obtain ⟨g, hg⟩ := exists_fragment_of_stem_eq hs (not_enumeration_of_fragment? hcall)
  rw [build_of_fragment? hg, halone other hother g hg ((stem_of_fragment? hg).symm.trans hs)]

/-- The first call of the stem of a call, which has built the rule that the call returns. -/
def builder (calls : List BlockCall) (call : BlockCall) : BlockCall :=
  (calls.find? (·.stem = call.stem)).getD call

theorem find?_builder (calls : List BlockCall) (call : BlockCall) :
    (calls ++ [call]).find? (·.stem = call.stem) = some (builder calls call) := by
  rw [builder, List.find?_append]
  cases calls.find? (·.stem = call.stem) <;> simp

theorem stem_builder (calls : List BlockCall) (call : BlockCall) :
    (builder calls call).stem = call.stem := by
  simpa using List.find?_some (find?_builder calls call)

/-- After a call the rules of the fragment that its stem was built for are there. -/
theorem holdsRules_of_builder (hbuilder : (builder calls call).fragment? = some f)
    (hp : f.layout.text ≠ "") (more : List BlockCall) :
    (after (calls ++ call :: more)).table.HoldsRules f := by
  obtain ⟨-, before, later, hsplit, hbefore⟩ :=
    List.find?_eq_some_iff_append.1 (find?_builder calls call)
  have hfirst : ∀ other ∈ before, ∀ g, other.fragment? = some g → g.stem = f.stem → g = f := by
    intro other hother g hg hs
    have hstem : other.stem = call.stem := by
      rw [stem_of_fragment? hg, hs, ← stem_of_fragment? hbuilder, stem_builder]
    simpa [hstem] using hbefore other hother
  have hcalls : calls ++ call :: more = before ++ builder calls call :: (later ++ more) := by
    rw [← List.singleton_append, ← List.append_assoc, hsplit, List.append_assoc, List.cons_append]
  rw [hcalls]
  exact (answer_of_alone hbuilder hp hfirst (later ++ more)).2

/-- Without collisions the stem of a call was built for a fragment of the same key. -/
theorem exists_fragment_of_builder (hcall : call.fragment? = some f)
    (hlog : Collisionless (after (calls ++ [call])).log) : ∃ g,
      (builder calls call).fragment? = some g ∧ g.stem = f.stem ∧ g.canonical? = f.canonical? := by
  have hs := (stem_builder calls call).trans (stem_of_fragment? hcall)
  obtain ⟨g, hg⟩ := exists_fragment_of_stem_eq hs (not_enumeration_of_fragment? hcall)
  rw [stem_of_fragment? hg] at hs
  refine ⟨g, hg, hs, Fragment.canonical?_eq_of_stem_eq hlog (fun _ => ?_) (fun _ => ?_) hs⟩
  · exact keyed_mem_after (List.mem_of_find?_eq_some (find?_builder calls call)) hg
  · exact keyed_mem_after (by simp) hcall

/-- The rule of a fragment that is not keyed is built whatever calls were made before. -/
theorem answer_of_unkeyed (hcall : call.fragment? = some f) (hp : f.layout.text ≠ "")
    (hkey : f.canonical? = none) (calls more : List BlockCall) :
    answer calls call = some call.handle ∧
      (after (calls ++ call :: more)).table.HoldsRules f :=
  answer_of_alone hcall hp (fun _ _ _ _ hs => Fragment.eq_of_unkeyed hkey hs) more

theorem yields_of_alone (hcall : call.fragment? = some f) (hp : f.layout.text ≠ "")
    (halone : ∀ other ∈ calls, ∀ g, other.fragment? = some g → g.stem = f.stem → g = f)
    {texts : RuleTable → String → Prop}
    (htexts : ∀ t : RuleTable, t.HoldsRules f → ∀ text : String,
      t.Derives f.handle text ↔ texts t text) : Yields calls call texts := by
  refine ⟨(answer_of_alone hcall hp halone []).1, fun more text => ?_⟩
  rw [handle, stem_of_fragment? hcall]
  exact htexts _ (answer_of_alone hcall hp halone more).2 text

/-- Without collisions the calls of one stem are all for one fragment, if the keys of the fragments
of its kind can be taken apart again. -/
theorem yields_of_collisionless (hcall : call.fragment? = some f) (hp : f.layout.text ≠ "")
    (hlog : Collisionless (after (calls ++ [call])).log) (hf : f.Clear)
    (hclear : ∀ other ∈ calls, ∀ g, other.fragment? = some g → g.ctorIdx = f.ctorIdx → g.Clear)
    {texts : RuleTable → String → Prop} (htexts : ∀ t : RuleTable, t.HoldsRules f →
      ∀ text : String, t.Derives f.handle text ↔ texts t text) : Yields calls call texts := by
  refine yields_of_alone hcall hp (fun other hother g hg hs => ?_) htexts
  have hc := Fragment.canonical?_eq_of_stem_eq hlog
    (fun _ => keyed_mem_after (List.mem_append_left _ hother) hg)
    (fun _ => keyed_mem_after (by simp) hcall) hs
  have hg' := hclear other hother g hg (Fragment.ctorIdx_eq_of_stem_eq hs)
  obtain heq | ⟨literals, _, rfl, -⟩ := Fragment.eq_of_canonical_eq hg' hf hs hc
  · exact heq
  · exact absurd rfl (not_enumeration_of_fragment? hg literals)

end BlockCall

end RecordGrammar
