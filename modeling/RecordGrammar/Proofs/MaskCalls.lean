import RecordGrammar.Proofs.FragmentCalls
import RecordGrammar.Proofs.MaskTexts

/-! # The texts of a mask after other block calls -/

namespace RecordGrammar

/-- A masked text, position by position. -/
theorem masked_iff {mask text : String} : Masked mask text ↔ text.length = mask.length ∧
    ∀ (i : Nat) (place c : Char), mask.toList[i]? = some place → text.toList[i]? = some c →
      Fills place c := by
  rw [Masked, List.forall₂_iff_get]
  refine and_congr (by rw [String.length_toList, String.length_toList, eq_comm])
    ⟨fun h i place c hplace hc => ?_, fun h i hi hi' => ?_⟩
  · obtain ⟨hi, rfl⟩ := List.getElem?_eq_some_iff.1 hplace
    obtain ⟨hi', rfl⟩ := List.getElem?_eq_some_iff.1 hc
    exact h i hi hi'
  · exact h i _ _ (List.getElem?_eq_getElem hi) (List.getElem?_eq_getElem hi')

namespace BlockCall

variable {calls : List BlockCall} {mask : String}

/-- A call for a mask goes through after any calls, and its rule derives the texts of the length of
the mask that have a digit at each percent sign and the mask's own character elsewhere. This takes
that no stretch of the mask holds both quotes, and that no mask of an earlier call collides with
it. -/
theorem maskedTime_yields (hmask : mask ≠ "") (hclear : MaskClear mask)
    (hkeys : ∀ other, .maskedTime other ∈ calls → memoKey other = memoKey mask → other = mask) :
    Yields calls (.maskedTime mask) fun _ text => text.length = mask.length ∧
      ∀ (i : Nat) (place c : Char), mask.toList[i]? = some place → text.toList[i]? = some c →
        if place = '%' then c.isDigit = true else c = place := by
  have hcall : (BlockCall.maskedTime mask).fragment? = some (.maskedTime mask) := rfl
  refine yields_of_alone hcall (fun h => hmask (FormatFragment.eq_empty_of_text h)) ?_ ?_
  · intro other hother g hg hs
    have hkind := Fragment.ctorIdx_eq_of_stem_eq hs
    cases g with
    | maskedTime mask' =>
      obtain rfl : other = .maskedTime mask' := fragment?_inj hg rfl
      have hkey : memoKey mask' = memoKey mask := by
        simpa [Fragment.stem, Fragment.tag, Fragment.canonical?] using hs
      rw [hkeys mask' hother hkey]
    | _ => simp [Fragment.ctorIdx] at hkind
  · intro t ht text
    have htexts : t.Derives (Fragment.maskedTime mask).handle text ↔ Masked mask text :=
      mask_texts ht hclear
    exact htexts.trans masked_iff

/-- A mask with signs at its edges and next to each other, and characters that are escaped. -/
def raggedMask : String := "%%'\n%\t\\\"%"

/-- The hypotheses hold after calls for another mask and for a string. -/
theorem raggedMask_yields :
    (raggedMask ≠ "" ∧ MaskClear raggedMask ∧ memoKey "%%" ≠ memoKey raggedMask) ∧
    Yields [.maskedTime "%%", .string] (.maskedTime raggedMask) fun _ text =>
      text.length = raggedMask.length ∧
        ∀ (i : Nat) (place c : Char), raggedMask.toList[i]? = some place →
          text.toList[i]? = some c → if place = '%' then c.isDigit = true else c = place := by
  have hclear : MaskClear raggedMask := by
    unfold MaskClear
    decide +kernel
  have hkeys : memoKey "%%" ≠ memoKey raggedMask := by decide +kernel
  refine ⟨⟨by decide, hclear, hkeys⟩,
    maskedTime_yields (by decide) hclear fun other hother hkey => ?_⟩
  obtain rfl : other = "%%" := by simpa using hother
  exact absurd hkey hkeys

end BlockCall

end RecordGrammar
