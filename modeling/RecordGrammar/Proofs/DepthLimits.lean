import RecordGrammar.Proofs.PayloadDepth
import Mathlib.Data.List.Infix

/-! # What a lower depth limit takes away

The limit is how many levels there are to descend. A walk with fewer levels goes the same way as one
with more, up to the first place where it has none left; there it fails, and nothing that the other
walk meets further on is seen. -/

namespace RecordGrammar

/-- The same options with another depth limit. -/
abbrev SchemaOptions.limited (options : SchemaOptions) (limit : Nat) : SchemaOptions :=
  { options with maxDepth := limit }

variable {registry : Registry} {root : String} {options : SchemaOptions} {α β : Type} {d d' : Nat}

namespace Plan

/-- A plan under the limit `d`, beside the one under a higher limit. Either they are the same, or
the first one goes through the first acts of the other and ends at the limit. -/
inductive CutOff (d : Nat) (p p' : Plan α) : Prop where
  | same : p' = p → CutOff d p p'
  | cut : p.acts <+: p'.acts → p.outcome = .error (.depthExceeded d) → CutOff d p p'

namespace CutOff

theorem refl (p : Plan α) : CutOff d p p := .same rfl

theorem bind {p p' : Plan α} {f f' : α → Plan β} (h : CutOff d p p')
    (hf : ∀ a, CutOff d (f a) (f' a)) : CutOff d (p >>= f) (p' >>= f') := by
  cases h with
  | same h =>
    rw [h]
    cases hp : p.outcome with
    | error e =>
      rw [bind_of_outcome_error hp, bind_of_outcome_error hp]
      exact refl _
    | ok a =>
      rw [bind_of_outcome_ok hp, bind_of_outcome_ok hp]
      cases hf a with
      | same h =>
        rw [h]
        exact refl _
      | cut hacts hend => exact .cut ((List.prefix_append_right_inj _).2 hacts) hend
  | cut hacts hend =>
    rw [bind_of_outcome_error hend]
    refine .cut (hacts.trans ?_) rfl
    cases hp' : p'.outcome with
    | error e =>
      rw [bind_of_outcome_error hp']
    | ok a =>
      rw [bind_of_outcome_ok hp']
      exact List.prefix_append _ _

theorem mapM {f f' : α → Plan β} {as : List α} (h : ∀ a ∈ as, CutOff d (f a) (f' a)) :
    CutOff d (as.mapM f) (as.mapM f') :=
  mapM_related (R := fun _ => CutOff d) (fun _ => refl _) (fun _ _ _ _ _ h hf => h.bind hf) h

end CutOff

variable {here here' : CompileSite → FieldType → Plan RuleHandle}

theorem object_cutOff
    (h : ∀ stack ty, CutOff d (here ⟨registry, options.limited d, stack⟩ ty)
      (here' ⟨registry, options.limited d', stack⟩ ty)) (stack : List String) (name : String) :
    CutOff d (object here ⟨registry, options.limited d, stack⟩ name)
      (object here' ⟨registry, options.limited d', stack⟩ name) := by
  unfold object record
  split
  · exact .refl _
  · refine (CutOff.refl _).bind fun definition => .bind (.bind (.mapM fun f _ => ?_) fun rows => ?_)
      fun rule => .refl _
    · refine .bind (.bind (.refl _) fun _ => ?_) fun rule => .refl _
      cases f.format with
      | none => exact h (stack ++ [name]) f.type
      | some format => cases format <;> exact .refl _
    · exact .refl _

/-- The plan of a type with fewer levels left is cut off from the one with more. -/
theorem type_cutOff {left left' : Nat} (hleft : left ≤ left') (stack : List String)
    (ty : FieldType) : CutOff d (type left ⟨registry, options.limited d, stack⟩ ty)
      (type left' ⟨registry, options.limited d', stack⟩ ty) := by
  induction left generalizing left' stack ty with
  | zero => exact .cut List.nil_prefix rfl
  | succ left ih =>
    obtain ⟨left', rfl⟩ := Nat.exists_eq_add_one_of_ne_zero (by omega : left' ≠ 0)
    have hbelow := ih (Nat.le_of_succ_le_succ hleft)
    cases ty with
    | int | float | string | bool | variadic | unknownList | literal value | union members =>
      exact .refl _
    | list element => exact (hbelow stack element).bind fun inner => .refl _
    | tuple items =>
      exact (CutOff.refl _).bind fun _ => (CutOff.mapM fun item _ => hbelow stack item).bind
        fun rules => .refl _
    | record name => exact object_cutOff hbelow stack name

end Plan

theorem schemaPlan_cutOff (hd : d ≤ d') :
    Plan.CutOff d (schemaPlan registry root (options.limited d))
      (schemaPlan registry root (options.limited d')) :=
  (Plan.CutOff.refl _).bind fun _ => Plan.object_cutOff (Plan.type_cutOff hd) [] root

/-- Acts that are cut off fail where the others do, if they fail before. -/
theorem Plan.CutOff.perform {p p' : Plan α} (h : CutOff d p p') (σ : CompileState) :
    p'.perform σ = p.perform σ ∨ ∃ σ', p.perform σ = .error (.depthExceeded d) σ' := by
  cases h with
  | same h => exact .inl (by rw [h])
  | cut hacts hend =>
    obtain ⟨later, hlater⟩ := hacts
    unfold Plan.perform
    cases hrun : runActs p.acts σ with
    | ok _ σ' =>
      refine .inr ⟨σ', ?_⟩
      rw [bind_of_ok hrun, hend]
      rfl
    | error e σ' =>
      have hrun' : runActs p'.acts σ = .error e σ' := by
        rw [← hlater, runActs_append, bind_of_error hrun]
      exact .inl (by rw [bind_of_error hrun, bind_of_error hrun'])

/-- A compilation that does not end at its limit is the same under a higher one, down to the log,
and whatever the table held before. -/
theorem Session.compile_limited (hf : registry.factories = ∅) {s : Session}
    (hs : s.table.WellFormed) (hd : d ≤ d') :
    s.compile registry root (options.limited d') = s.compile registry root (options.limited d) ∨
      (s.compile registry root (options.limited d)).1 = .error (.depthExceeded d) := by
  have hsane := CompileState.sane_of_wellFormed hs
  unfold Session.compile
  rw [compileRecord_follows hf root _ _ hsane, compileRecord_follows hf root _ _ hsane]
  rcases (schemaPlan_cutOff hd).perform ⟨s, []⟩ with hsame | ⟨σ', hend⟩
  · exact .inl (by rw [hsame])
  · exact .inr (by rw [hend])

/-- A decoding under the limit `d`, beside the one under a higher limit. Either they are the same,
or the first one nests too deep. -/
def DecodingCut (d : Nat) (result result' : Decoding α) : Prop :=
  result' = result ∨ Exceeds d result

namespace DecodingCut

theorem refl (result : Decoding α) : DecodingCut d result result := .inl rfl

theorem bind {result result' : Decoding α} {f f' : α → Decoding β}
    (h : DecodingCut d result result') (hf : ∀ a, DecodingCut d (f a) (f' a)) :
    DecodingCut d (result >>= f) (result' >>= f') := by
  rcases h with rfl | h
  · cases result' with
    | error e => exact refl _
    | ok a => exact hf a
  · exact .inr h.bind

theorem mapM {f f' : α → Decoding β} {as : List α} (h : ∀ a ∈ as, DecodingCut d (f a) (f' a)) :
    DecodingCut d (as.mapM f) (as.mapM f') :=
  mapM_related (R := fun _ => DecodingCut d) (fun _ => refl _) (fun _ _ _ _ _ h hf => h.bind hf) h

end DecodingCut

namespace PayloadDecoder

/-- Values are decoded the same at every place by a walk with more levels, as far as the one with
fewer gets, whichever record the factory at work was asked for. -/
def Cut (registry : Registry) (options : SchemaOptions) (d d' : Nat)
    (decode decode' : TypeDecoder) : Prop :=
  ∀ path asked asked' ty value,
    DecodingCut d (decode ⟨registry, options.limited d, path⟩ asked ty value)
      (decode' ⟨registry, options.limited d', path⟩ asked' ty value)

variable {decode decode' : TypeDecoder}

theorem Cut.items (h : Cut registry options d d' decode decode') (path : PayloadPath)
    (asked asked' : String) (i : Nat) (types : List FieldType) (values : List Json) :
    DecodingCut d
      (PayloadDecoder.items decode ⟨registry, options.limited d, path⟩ asked i types values)
      (PayloadDecoder.items decode' ⟨registry, options.limited d', path⟩ asked' i types
        values) := by
  induction types generalizing i values with
  | nil => exact .refl _
  | cons ty types ih =>
    cases values with
    | nil => exact .refl _
    | cons value values =>
      exact (h (path ++ [.index i]) asked asked' ty value).bind fun item =>
        (ih (i + 1) values).bind fun rest => .refl _

theorem Cut.object (h : Cut registry options d d' decode decode') (path : PayloadPath)
    (asked asked' name : String) (value : Json) : DecodingCut d
      (PayloadDecoder.object decode ⟨registry, options.limited d, path⟩ asked name value)
      (PayloadDecoder.object decode' ⟨registry, options.limited d', path⟩ asked' name value) := by
  refine (DecodingCut.refl _).bind fun definition => ?_
  cases value with
  | object members =>
    refine (DecodingCut.mapM fun f _ => (DecodingCut.refl _).bind fun _ => ?_).bind fun fields =>
      .refl _
    cases members.lookup f.name with
    | none => exact .refl _
    | some value =>
      exact (h (path ++ [.field f.name]) asked asked' f.type value).bind fun decoded => .refl _
  | _ => exact .refl _

/-- Decoding at a type with fewer levels left is cut off from decoding with more. -/
theorem type_cut (hf : registry.factories = ∅) {left left' : Nat} (hleft : left ≤ left') :
    Cut registry options d d' (type left) (type left') := by
  induction left generalizing left' with
  | zero => exact fun path asked asked' ty value => .inr ⟨path, rfl⟩
  | succ left ih =>
    intro path asked asked' ty value
    obtain ⟨left', rfl⟩ := Nat.exists_eq_add_one_of_ne_zero (by omega : left' ≠ 0)
    have hbelow : Cut registry options d d' (type left) (type left') :=
      ih (Nat.le_of_succ_le_succ hleft)
    rw [type_succ, type_succ]
    cases ty with
    | int | float | string | bool | variadic | unknownList | literal l | union members =>
      exact .refl _
    | list element =>
      exact (DecodingCut.refl _).bind fun values =>
        (hbelow.items path asked asked' 0 _ values).bind fun decoded => .refl _
    | tuple types =>
      refine (DecodingCut.refl _).bind fun _ => (DecodingCut.refl _).bind fun values => ?_
      dsimp only
      split
      · exact (hbelow.items path asked asked' 0 types values).bind fun decoded => .refl _
      · exact .refl _
    | record name =>
      obtain ⟨other, hother⟩ := recordField_eq (levels left) ⟨registry, options.limited d, path⟩ hf
        asked name value
      obtain ⟨other', hother'⟩ := recordField_eq (levels left')
        ⟨registry, options.limited d', path⟩ hf asked' name value
      rw [typeLevel, typeLevel, hother, hother']
      exact hbelow.object path other other' name value

end PayloadDecoder

/-- A decoding that does not end at its limit is the same under a higher one. -/
theorem decodeRecord_limited (hf : registry.factories = ∅) (hd : d ≤ d') (value : Json) :
    DecodingCut d (decodeRecord registry root (options.limited d) value)
      (decodeRecord registry root (options.limited d') value) := by
  rw [PayloadDecoder.decodeRecord_eq hf root, PayloadDecoder.decodeRecord_eq hf root]
  exact (PayloadDecoder.type_cut hf hd).object [] root root root value

/-- The depth limit only cuts off. What compiling and decoding end in under a limit, unless they
come to it, they end in under every higher one: the same grammar or the same error, and the same
value or the same error at the same place. -/
theorem compile_and_decode_limited (hf : registry.factories = ∅) (root : String)
    (options : SchemaOptions) (hd : d ≤ d') :
    ((∀ limit, (compileFresh registry root (options.limited d)).1 ≠ .error (.depthExceeded limit)) →
      compileFresh registry root (options.limited d') =
        compileFresh registry root (options.limited d)) ∧
    ∀ value, (∀ path limit, decodeRecord registry root (options.limited d) value ≠
        .error (.depthExceeded path limit)) →
      decodeRecord registry root (options.limited d') value =
        decodeRecord registry root (options.limited d) value := by
  constructor
  · intro hend
    unfold compileFresh at hend ⊢
    rcases Session.compile_limited hf (s := {}) RuleTable.wellFormed_empty hd with hsame | hcut
    · rw [hsame]
    · rw [eq_mk_of_fst hcut] at hend
      exact absurd rfl (hend d)
  · intro value hend
    apply (decodeRecord_limited hf hd value).resolve_right
    rintro ⟨path, hcut⟩
    exact hend path d hcut

/-- Two levels are enough for the mail address, so it is decoded the same with more of them; and
where it is missing, it is missing with more of them. -/
theorem contact_limited :
    compileFresh contact "Person" (SchemaOptions.limited {} 64) =
        compileFresh contact "Person" (SchemaOptions.limited {} 2) ∧
      decodeRecord contact "Person" (SchemaOptions.limited {} 64)
          (.object [("mail", .object [("address", .string "a@b.cd")])]) =
        .ok (.record "Person" [("mail", .record "Mail" [("address", .string "a@b.cd")])]) ∧
      decodeRecord contact "Person" (SchemaOptions.limited {} 64)
          (.object [("mail", .object [])]) =
        .error (.missingField [.field "mail", .field "address"] (.object [])) := by
  have hcompile : (Session.compile {} contact "Person" (SchemaOptions.limited {} 2)).1 =
    .ok ⟨"__bjo_bebf258080551815_decl"⟩ := compile_contact (.inr rfl)
  have hfactories : contact.factories = ∅ := rfl
  obtain ⟨hgrammar, hdecoded⟩ :=
    compile_and_decode_limited hfactories "Person" {} (by decide : 2 ≤ 64)
  refine ⟨hgrammar fun limit he => ?_, hdecoded _ fun path limit he => ?_,
    hdecoded _ fun path limit he => ?_⟩
  · rw [compileFresh, eq_mk_of_fst hcompile] at he
    cases he
  · cases he
  · cases he

end RecordGrammar
