import RecordGrammar.Proofs.NumberReading

/-! # A payload that is read is one of the JSON grammar -/

namespace RecordGrammar

namespace JsonReader

/-- The units that the text between the quotes of a string writes. -/
inductive UnitsText : List Char → List StringUnit → Prop where
  | nil : UnitsText [] []
  | plain {c rest units} (hc : c ≠ '"' ∧ c ≠ '\\' ∧ 32 ≤ c.toNat) (tail : UnitsText rest units) :
      UnitsText (c :: rest) (.char c :: units)
  | letter {c d rest units} (hc : escaped? c = some d) (tail : UnitsText rest units) :
      UnitsText ('\\' :: c :: rest) (.char d :: units)
  | code {a b c d n rest units} (hn : hexNumber? [a, b, c, d] = some n)
      (tail : UnitsText rest units) :
      UnitsText ('\\' :: 'u' :: a :: b :: c :: d :: rest) (.code n :: units)

theorem readUnits_sound {text after : List Char} {units : List StringUnit}
    (h : readUnits text = some (units, after)) :
    ∃ body, text = body ++ '"' :: after ∧ UnitsText body units := by
  fun_induction readUnits text generalizing units after with
  | case1 => cases h
  | case2 rest =>
    cases h
    exact ⟨[], rfl, .nil⟩
  | case3 a b c d rest ih =>
    obtain ⟨n, hn, h⟩ := Option.bind_eq_some_iff.1 h
    obtain ⟨⟨more, behind⟩, hmore, h⟩ := Option.bind_eq_some_iff.1 h
    cases h
    obtain ⟨body, rfl, hbody⟩ := ih hmore
    exact ⟨_, rfl, .code hn hbody⟩
  | case4 c rest _ ih =>
    obtain ⟨d, hd, h⟩ := Option.bind_eq_some_iff.1 h
    obtain ⟨⟨more, behind⟩, hmore, h⟩ := Option.bind_eq_some_iff.1 h
    cases h
    obtain ⟨body, rfl, hbody⟩ := ih hmore
    exact ⟨_, rfl, .letter hd hbody⟩
  | case5 => cases h
  | case6 c rest hquote _ _ hc ih =>
    obtain ⟨⟨more, behind⟩, hmore, h⟩ := Option.bind_eq_some_iff.1 h
    cases h
    obtain ⟨body, rfl, hbody⟩ := ih hmore
    refine ⟨_, rfl, .plain ⟨fun he => hquote he, fun he => hc (.inr he), ?_⟩ hbody⟩
    exact Nat.le_of_not_lt fun hlt => hc (.inl hlt)

theorem UnitsText.body {text : List Char} {units : List StringUnit} (h : UnitsText text units)
    {chars : List Char} (hchars : characters units = some chars) : StringBody text chars := by
  fun_induction characters units generalizing text chars with
  | case1 =>
    cases hchars
    cases h
    exact .nil
  | case2 c rest ih =>
    obtain ⟨more, hmore, rfl⟩ := Option.map_eq_some_iff.1 hchars
    cases h with
    | plain hc tail => exact .plain hc (ih tail hmore)
    | letter hc tail => exact .letter hc (ih tail hmore)
  | case3 high low rest hhigh hlow code =>
    rename_i ih
    obtain ⟨more, hmore, rfl⟩ := Option.map_eq_some_iff.1 hchars
    cases h with
    | code hn tail =>
      cases tail with
      | code hn' tail => exact .pair hn hn' ⟨hhigh, hlow⟩ (ih tail hmore)
  | case4 => cases hchars
  | case5 => cases hchars
  | case6 high low rest hhigh hlow ih =>
    obtain ⟨more, hmore, rfl⟩ := Option.map_eq_some_iff.1 hchars
    cases h with
    | code hn tail =>
      exact .code hn ⟨Bool.eq_false_iff.2 hhigh, Bool.eq_false_iff.2 hlow⟩ (ih tail hmore)
  | case7 => cases hchars
  | case8 unit rest _ halone ih =>
    obtain ⟨more, hmore, rfl⟩ := Option.map_eq_some_iff.1 hchars
    cases h with
    | code hn tail =>
      simp only [Bool.or_eq_true, not_or, Bool.not_eq_true] at halone
      exact .code hn halone (ih tail hmore)

/-- A string that is read is what its text denotes. -/
theorem stringText_of_readUnits {text after : List Char} {units : List StringUnit}
    (h : readUnits text = some (units, after)) :
    ∃ quoted, '"' :: text = quoted ++ after ∧
      ∀ s, stringOf units = some s → StringText s quoted := by
  obtain ⟨body, rfl, hbody⟩ := readUnits_sound h
  refine ⟨'"' :: (body ++ ['"']), by simp, fun s hs => ?_⟩
  obtain ⟨chars, hchars, rfl⟩ := Option.map_eq_some_iff.1 hs
  exact ⟨body, chars, hbody.body hchars, rfl, rfl⟩

theorem blank_before (text : List Char) :
    ∃ space, Blank space ∧ text = space ++ skipSpace text :=
  ⟨text.takeWhile isSpace, fun _ hc => List.mem_takeWhile_imp hc,
    List.takeWhile_append_dropWhile.symm⟩

end JsonReader

theorem lookup_insertMember {α : Type} {members : List (String × α)} {key name : String}
    {value : α} : (insertMember key value members).lookup name =
      if name = key then some value else members.lookup name := by
  induction members with
  | nil => exact lookup_cons_ite
  | cons m members ih =>
    obtain ⟨k, v⟩ := m
    rw [insertMember, lookup_cons_ite]
    split_ifs with hless heq hname hname' <;> simp_all [lookup_cons_ite]

theorem lookup_foldl_other {entries sorted : List (String × Json)} {name : String}
    (h : name ∉ entries.map Prod.fst) :
    (entries.foldl (fun sorted m => insertMember m.1 m.2 sorted) sorted).lookup name =
      sorted.lookup name := by
  induction entries generalizing sorted with
  | nil => rfl
  | cons m entries ih =>
    simp only [List.map_cons, List.mem_cons, not_or] at h
    rw [List.foldl_cons, ih h.2, lookup_insertMember, if_neg h.1]

theorem lookup_foldl {entries sorted : List (String × Json)}
    (h : (entries.map Prod.fst).Nodup) : ∀ e ∈ entries,
      (entries.foldl (fun sorted m => insertMember m.1 m.2 sorted) sorted).lookup e.1 =
        some e.2 := by
  induction entries generalizing sorted with
  | nil => simp
  | cons m entries ih =>
    rw [List.map_cons, List.nodup_cons] at h
    refine List.forall_mem_cons.2 ⟨?_, ih h.2⟩
    rw [List.foldl_cons, lookup_foldl_other h.1, lookup_insertMember, if_pos rfl]

/-- An object of distinct members keeps them all. -/
theorem membersKept_ofMembers (entries : List (String × Json)) : ∃ members,
    Json.ofMembers entries = .object members ∧ MembersKept entries members :=
  ⟨_, rfl, fun h => lookup_foldl h⟩

theorem Blank.append {xs ys : List Char} (hx : Blank xs) (hy : Blank ys) : Blank (xs ++ ys) :=
  fun c hc => (List.mem_append.1 hc).elim (hx c) (hy c)

section

variable {space text : List Char} (hspace : Blank space)

include hspace

theorem PaddedText.after_blank {v : Json} (h : PaddedText v text) :
    PaddedText v (space ++ text) := by
  obtain ⟨opening, inside, closing⟩ := h
  rw [← List.append_assoc]
  exact .mk (hspace.append opening) inside closing

theorem ItemsText.after_blank {vs : List Json} (h : ItemsText vs text) :
    ItemsText vs (space ++ text) := by
  cases h with
  | one item => exact .one (item.after_blank hspace)
  | cons item tail =>
    rw [← List.append_assoc]
    exact .cons (item.after_blank hspace) tail

theorem KeyText.after_blank {key : String} (h : KeyText key text) : KeyText key (space ++ text) := by
  obtain ⟨before, quoted, after, hbefore, hquoted, hafter, rfl⟩ := h
  exact ⟨space ++ before, quoted, after, hspace.append hbefore, hquoted, hafter, by simp⟩

theorem MembersText.after_blank {entries : List (String × Json)} (h : MembersText entries text) :
    MembersText entries (space ++ text) := by
  cases h with
  | one hkey value =>
    rw [← List.append_assoc]
    exact .one (hkey.after_blank hspace) value
  | cons hkey value tail =>
    rw [← List.append_assoc]
    exact .cons (hkey.after_blank hspace) value tail

end

namespace JsonReader

/-- What is read as a value has the text that was read. -/
def ValuesSound (fuel : Nat) : Prop :=
  ∀ levels text node after v, readValue fuel levels text = some (node, after) →
    node.toJson? = some v → ∃ token, text = token ++ after ∧ JsonText v token

def ItemsSound (fuel : Nat) : Prop :=
  ∀ levels text nodes after vs, readItems fuel levels text = some (nodes, after) →
    Node.itemsToJson? nodes = some vs → ∃ token, text = token ++ ']' :: after ∧ ItemsText vs token

def MembersSound (fuel : Nat) : Prop :=
  ∀ levels text members after named entries,
    readMembers fuel levels text = some (members, after) →
    members.mapM (fun m => m.1.map (·, m.2)) = some named →
    Node.entriesToJson? named = some entries →
      ∃ token, text = token ++ '\x7d' :: after ∧ MembersText entries token

variable {fuel : Nat}

private theorem array_sound (hitems : ItemsSound fuel) {levels : Nat} {rest after : List Char}
    {node : Node} {v : Json} (h : readValue (fuel + 1) levels ('[' :: rest) = some (node, after))
    (hv : node.toJson? = some v) : ∃ token, '[' :: rest = token ++ after ∧ JsonText v token := by
  obtain ⟨space, hspace, hrest⟩ := blank_before rest
  rw [readValue] at h
  split at h
  · rename_i behind hskip
    cases h
    split_ifs at hv with hlevels
    · cases hv
    · cases hv
      exact ⟨_, by rw [hrest, hskip]; simp, .emptyArray hspace⟩
  · obtain ⟨⟨items, behind⟩, hread, h⟩ := Option.bind_eq_some_iff.1 h
    cases h
    split_ifs at hv with hlevels
    · cases hv
    · obtain ⟨vs, hvs, rfl⟩ := Option.map_eq_some_iff.1 hv
      obtain ⟨token, htoken, hinside⟩ := hitems _ _ _ _ _ hread hvs
      exact ⟨_, by rw [hrest, htoken]; simp, .array (hinside.after_blank hspace)⟩

private theorem object_sound (hmembers : MembersSound fuel) {levels : Nat}
    {rest after : List Char} {node : Node} {v : Json}
    (h : readValue (fuel + 1) levels ('\x7b' :: rest) = some (node, after))
    (hv : node.toJson? = some v) :
    ∃ token, '\x7b' :: rest = token ++ after ∧ JsonText v token := by
  obtain ⟨space, hspace, hrest⟩ := blank_before rest
  rw [readValue] at h
  split at h
  · rename_i behind hskip
    cases h
    split_ifs at hv with hlevels
    · cases hv
    · cases hv
      exact ⟨_, by rw [hrest, hskip]; simp, .emptyObject hspace⟩
  · obtain ⟨⟨members, behind⟩, hread, h⟩ := Option.bind_eq_some_iff.1 h
    cases h
    split_ifs at hv with hlevels
    · cases hv
    · unfold mappingOf at hv
      split at hv
      · rename_i named hnamed
        obtain ⟨entries, hentries, rfl⟩ := Option.map_eq_some_iff.1 hv
        obtain ⟨token, htoken, hinside⟩ := hmembers _ _ _ _ _ _ hread hnamed hentries
        obtain ⟨members, hobject, hkept⟩ := membersKept_ofMembers entries
        rw [hobject]
        exact ⟨_, by rw [hrest, htoken]; simp, .object (hinside.after_blank hspace) hkept⟩
      · cases hv

theorem readValue_sound (hitems : ItemsSound fuel) (hmembers : MembersSound fuel) :
    ValuesSound (fuel + 1) := by
  intro levels text node after v h hv
  have h' := h
  unfold readValue at h
  split at h
  · cases h
  · cases h
    cases hv
    exact ⟨_, rfl, .null⟩
  · cases h
    cases hv
    exact ⟨_, rfl, .bool true⟩
  · cases h
    cases hv
    exact ⟨_, rfl, .bool false⟩
  · obtain ⟨⟨units, behind⟩, hunits, h⟩ := Option.bind_eq_some_iff.1 h
    cases h
    obtain ⟨quoted, htext, hquoted⟩ := stringText_of_readUnits hunits
    cases hs : stringOf units with
    | none =>
      rw [hs] at hv
      cases hv
    | some s =>
      rw [hs] at hv
      cases hv
      exact ⟨quoted, htext, .string (hquoted s hs)⟩
  · exact array_sound hitems h' hv
  · exact object_sound hmembers h' hv
  · obtain ⟨⟨numeral, behind⟩, hread, h⟩ := Option.bind_eq_some_iff.1 h
    cases h
    cases hnumber : numeral.value with
    | none =>
      rw [hnumber] at hv
      cases hv
    | some number =>
      rw [hnumber] at hv
      have hnode : v = .number number := by
        cases number <;> exact (Option.some.inj hv).symm
      rw [hnode]
      exact Numeral.jsonText_of_read hread hnumber

private theorem padded_sound (hvalues : ValuesSound fuel) {levels : Nat} {text after : List Char}
    {node : Node} {v : Json} (h : readValue fuel levels (skipSpace text) = some (node, after))
    (hv : node.toJson? = some v) :
    ∃ token, text = token ++ skipSpace after ∧ PaddedText v token := by
  obtain ⟨before, hbefore, htext⟩ := blank_before text
  obtain ⟨behind, hbehind, hafter⟩ := blank_before after
  obtain ⟨token, htoken, hjson⟩ := hvalues _ _ _ _ _ h hv
  refine ⟨before ++ (token ++ behind), ?_, .mk hbefore hjson hbehind⟩
  rw [htext, htoken]
  simp [← hafter]

theorem readItems_sound (hvalues : ValuesSound fuel) (hitems : ItemsSound fuel) :
    ItemsSound (fuel + 1) := by
  intro levels text nodes after vs h hvs
  rw [readItems] at h
  obtain ⟨⟨item, behind⟩, hitem, h⟩ := Option.bind_eq_some_iff.1 h
  dsimp only at h
  split at h
  · rename_i rest hskip
    obtain ⟨⟨more, last⟩, hmore, h⟩ := Option.bind_eq_some_iff.1 h
    cases h
    obtain ⟨v, hv, hvs⟩ := Option.bind_eq_some_iff.1 hvs
    obtain ⟨others, hothers, hvs⟩ := Option.bind_eq_some_iff.1 hvs
    cases hvs
    obtain ⟨token, rfl, hpadded⟩ := padded_sound hvalues hitem hv
    obtain ⟨tail, rfl, hinside⟩ := hitems _ _ _ _ _ hmore hothers
    exact ⟨_, by rw [hskip]; simp, .cons hpadded hinside⟩
  · rename_i rest hskip
    cases h
    obtain ⟨v, hv, hvs⟩ := Option.bind_eq_some_iff.1 hvs
    cases hvs
    obtain ⟨token, rfl, hpadded⟩ := padded_sound hvalues hitem hv
    exact ⟨_, by rw [hskip], .one hpadded⟩
  · cases h

private theorem key_sound {text rest behind after : List Char} {units : List StringUnit}
    (hquote : skipSpace text = '"' :: rest) (hunits : readUnits rest = some (units, behind))
    (hcolon : skipSpace behind = ':' :: after) :
    ∃ token, text = token ++ ':' :: after ∧
      ∀ key, stringOf units = some key → KeyText key token := by
  obtain ⟨before, hbefore, htext⟩ := blank_before text
  obtain ⟨between, hbetween, hbehind⟩ := blank_before behind
  obtain ⟨quoted, hquoted, hstring⟩ := stringText_of_readUnits hunits
  refine ⟨before ++ (quoted ++ between), ?_, fun key hkey =>
    ⟨before, quoted, between, hbefore, hstring key hkey, hbetween, rfl⟩⟩
  rw [htext, hquote, hquoted, hbehind, hcolon]
  simp

private theorem entries_cons {key : Option String} {value : Node}
    {members : List (Option String × Node)} {named : List (String × Node)}
    {entries : List (String × Json)}
    (hnamed : ((key, value) :: members).mapM (fun m => m.1.map (·, m.2)) = some named)
    (hentries : Node.entriesToJson? named = some entries) :
    ∃ k v others rest, key = some k ∧ value.toJson? = some v ∧
      members.mapM (fun m => m.1.map (·, m.2)) = some others ∧
      Node.entriesToJson? others = some rest ∧ entries = (k, v) :: rest := by
  rw [List.mapM_cons] at hnamed
  obtain ⟨m, hm, hnamed⟩ := Option.bind_eq_some_iff.1 hnamed
  obtain ⟨others, hothers, hnamed⟩ := Option.bind_eq_some_iff.1 hnamed
  obtain ⟨k, hk, rfl⟩ := Option.map_eq_some_iff.1 hm
  cases hnamed
  obtain ⟨v, hv, hentries⟩ := Option.bind_eq_some_iff.1 hentries
  obtain ⟨rest, hrest, hentries⟩ := Option.bind_eq_some_iff.1 hentries
  cases hentries
  exact ⟨k, v, others, rest, hk, hv, hothers, hrest, rfl⟩

theorem readMembers_sound (hvalues : ValuesSound fuel) (hmembers : MembersSound fuel) :
    MembersSound (fuel + 1) := by
  intro levels text members after named entries h hnamed hentries
  rw [readMembers] at h
  split at h
  · rename_i rest hquote
    obtain ⟨⟨units, behind⟩, hunits, h⟩ := Option.bind_eq_some_iff.1 h
    dsimp only at h
    split at h
    · rename_i rest' hcolon
      obtain ⟨keyText, rfl, hkey⟩ := key_sound hquote hunits hcolon
      obtain ⟨⟨value, last⟩, hvalue, h⟩ := Option.bind_eq_some_iff.1 h
      dsimp only at h
      split at h
      · rename_i more hcomma
        obtain ⟨⟨others, final⟩, hothers, h⟩ := Option.bind_eq_some_iff.1 h
        cases h
        obtain ⟨k, v, named', rest, hk, hv, hnamed', hrest, rfl⟩ := entries_cons hnamed hentries
        obtain ⟨token, rfl, hpadded⟩ := padded_sound hvalues hvalue hv
        obtain ⟨tail, rfl, hinside⟩ := hmembers _ _ _ _ _ _ hothers hnamed' hrest
        exact ⟨_, by rw [hcomma]; simp, .cons (hkey k hk) hpadded hinside⟩
      · rename_i more hclose
        cases h
        obtain ⟨k, v, named', rest, hk, hv, hnamed', hrest, rfl⟩ := entries_cons hnamed hentries
        cases hnamed'
        cases hrest
        obtain ⟨token, rfl, hpadded⟩ := padded_sound hvalues hvalue hv
        exact ⟨_, by rw [hclose]; simp, .one (hkey k hk) hpadded⟩
      · cases h
    · cases h
  · cases h

/-- Each of the three readers is sound whatever bounds its recursion. -/
theorem readers_sound (fuel : Nat) : ValuesSound fuel ∧ ItemsSound fuel ∧ MembersSound fuel := by
  induction fuel with
  | zero =>
    refine ⟨fun levels text node after v h => ?_, fun levels text nodes after vs h => ?_,
      fun levels text members after named entries h => ?_⟩ <;> cases h
  | succ fuel ih =>
    obtain ⟨hvalues, hitems, hmembers⟩ := ih
    exact ⟨readValue_sound hitems hmembers, readItems_sound hvalues hitems,
      readMembers_sound hvalues hmembers⟩

end JsonReader

open JsonReader in
/-- The reader accepts only texts of the JSON grammar, as the values that they denote. -/
theorem paddedText_of_ofText? {text : String} {v : Json} (h : Json.ofText? text = some v) :
    PaddedText v text.toList := by
  obtain ⟨node, hnode, hv⟩ := Option.bind_eq_some_iff.1 h
  obtain ⟨⟨node', after⟩, hread, hnode⟩ := Option.bind_eq_some_iff.1 hnode
  dsimp only at hnode
  split_ifs at hnode with hempty
  cases hnode
  obtain ⟨token, htoken, hpadded⟩ := padded_sound (readers_sound _).1 hread hv
  rw [htoken, List.isEmpty_iff.1 hempty, List.append_nil]
  exact hpadded

end RecordGrammar
