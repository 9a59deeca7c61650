import RecordGrammar.Proofs.FactoryConstructions

/-! # The compilers of records as constructions

What the built-in factory and the other ones do is a construction: their fragments keep clear of the
ids of forward rules, and all else is records and levels. -/

namespace RecordGrammar

/-- Steps that neither define nor reserve nor give up an id of a forward rule. -/
def Clear {α : Type} (m : Build α) : Prop :=
  ∀ s id, InForwardSpace id →
    (finalState (m s)).table.defined id = s.table.defined id ∧
      (finalState (m s)).table.reserved.contains id = s.table.reserved.contains id

/-- A stem none of whose ids are those of forward rules. -/
def ClearStem (stem : String) : Prop := ∀ x, ¬InForwardSpace (Scope.idOf ⟨stem⟩ x)

theorem Foreign.of_clear {α : Type} {m : Build α} (hp : TableProgram m) (hc : Clear m) :
    Foreign m := ⟨hp, fun s id hid => (hc s id hid).1, fun s id hid => (hc s id hid).2⟩

namespace Clear

variable {α β : Type}

theorem pure (a : α) : Clear (Pure.pure a : Build α) := fun _ _ _ => ⟨rfl, rfl⟩

theorem throw (e : RuleError) : Clear (MonadExcept.throw e : Build α) := fun _ _ _ => ⟨rfl, rfl⟩

theorem get : Clear get := fun _ _ _ => ⟨rfl, rfl⟩

theorem note (event : Event) : Clear (note event) := fun _ _ _ => ⟨rfl, rfl⟩

/-- Steps that depend on a result, of which only what can come out matters. -/
theorem bind_of_result {m : Build α} {f : α → Build β} (hm : Clear m)
    (hf : ∀ s a s', m s = .ok a s' → Clear (f a)) : Clear (m >>= f) := by
  intro s id hid
  have hfirst := hm s id hid
  cases h : m s with
  | error e s' =>
    rw [h] at hfirst
    rw [bind_of_error h]
    exact hfirst
  | ok a s' =>
    rw [h] at hfirst
    rw [bind_of_ok h]
    obtain ⟨hd, hr⟩ := hf s a s' h s' id hid
    exact ⟨hd.trans hfirst.1, hr.trans hfirst.2⟩

theorem bind {m : Build α} {f : α → Build β} (hm : Clear m) (hf : ∀ a, Clear (f a)) :
    Clear (m >>= f) := hm.bind_of_result fun _ a _ _ => hf a

theorem map {m : Build α} (hm : Clear m) (f : α → β) : Clear (do let a ← m; return f a) :=
  hm.bind fun a => pure (f a)

theorem mapM {f : α → Build β} (h : ∀ a, Clear (f a)) (as : List α) : Clear (as.mapM f) :=
  mapM_holds (P := fun _ => Clear) pure (fun _ _ _ hm hf => hm.bind hf) fun a _ => h a

/-- An edit of the table at an id that no forward rule has. -/
theorem edit {change : RuleTable → Except RuleError RuleTable}
    (h : ∀ t t' id, change t = .ok t' → InForwardSpace id →
      t'.defined id = t.defined id ∧ t'.reserved.contains id = t.reserved.contains id) :
    Clear (edit change) := by
  intro s id hid
  rcases edit_cases change s with ⟨t, ht, hedit⟩ | ⟨e, hedit⟩
  · rw [hedit]
    exact h _ _ id ht hid
  · rw [hedit]
    exact ⟨rfl, rfl⟩

section Scopes

variable {stem : String} (h : ClearStem stem)

include h

theorem insert (x production : String) :
    Clear (RecordGrammar.edit (·.insert (Scope.idOf ⟨stem⟩ x) production)) := by
  refine edit fun t t' id ht hid => ?_
  obtain ⟨-, -, rfl⟩ := RuleTable.eq_of_insert ht
  have hne : id ≠ Scope.idOf ⟨stem⟩ x := fun he => h x (he ▸ hid)
  rw [RuleTable.defined_push, RuleTable.reserved_push]
  simp [hne]

theorem defineNamed (x production : String) : Clear (Scope.defineNamed ⟨stem⟩ x production) :=
  (insert h x production).map _

omit h in
theorem freshId (scope : Scope) : Clear scope.freshId := fun _ _ _ => ⟨rfl, rfl⟩

omit h in
theorem freshId_eq {s s' : Session} {id : String} (hid : Scope.freshId ⟨stem⟩ s = .ok id s') :
    ∃ n : Nat, id = Scope.idOf ⟨stem⟩ (toString n) := by
  cases hid
  exact ⟨_, rfl⟩

theorem define (production : String) : Clear (Scope.define ⟨stem⟩ production) := by
  refine (freshId ⟨stem⟩).bind_of_result fun s id s' hid => ?_
  obtain ⟨n, rfl⟩ := freshId_eq hid
  exact (insert h _ production).map _

theorem reserve : Clear (Scope.reserve ⟨stem⟩) := by
  refine (freshId ⟨stem⟩).bind_of_result fun s id s' hid => ?_
  obtain ⟨n, rfl⟩ := freshId_eq hid
  refine bind (fun s id hid => ⟨rfl, ?_⟩) fun _ => pure _
  have hne : id ≠ Scope.idOf ⟨stem⟩ (toString n) := fun he => h _ (he ▸ hid)
  exact (RuleTable.reserved_claim s.table _ id).trans (by rw [decide_eq_false hne, Bool.false_or])

theorem commit (x production : String) : Clear (commit ⟨Scope.idOf ⟨stem⟩ x⟩ production) := by
  refine (edit fun t t' id ht hid => ?_).map _
  obtain ⟨-, -, rfl⟩ := RuleTable.eq_of_commit ht
  have hne : id ≠ Scope.idOf ⟨stem⟩ x := fun he => h x (he ▸ hid)
  rw [RuleTable.defined_push, RuleTable.reserved_push, RuleTable.reserved_release]
  simp [hne, RuleTable.release, RuleTable.defined]

/-- An automatic id is reserved and then committed. -/
theorem reserve_commit {production : Reservation → String} {rest : RuleHandle → Build α}
    (hrest : ∀ r, Clear (rest r)) :
    Clear (Scope.reserve ⟨stem⟩ >>= fun slot =>
      RecordGrammar.commit slot (production slot) >>= rest) := by
  refine (reserve h).bind_of_result fun s slot s' hslot => ?_
  obtain ⟨id, u, hid, hrest'⟩ := bind_eq_ok hslot
  obtain ⟨n, rfl⟩ := freshId_eq hid
  cases hrest'
  exact (commit h _ _).bind hrest

theorem oneOrMore (element : String) : Clear (Scope.oneOrMore ⟨stem⟩ element) := by
  have hcommit : Clear (Scope.reserve ⟨stem⟩ >>= fun slot =>
      RecordGrammar.commit slot (optionalTail element slot.text) >>= Pure.pure) :=
    reserve_commit h pure
  rw [Scope.oneOrMore]
  simpa only [bind_pure] using hcommit

theorem memoized {build : Scope → Build String} (hbuild : Clear (build ⟨stem⟩)) :
    Clear (memoized stem build) := by
  refine get.bind fun s => ?_
  split
  · exact pure _
  · exact hbuild.bind fun production => defineNamed h "decl" production

end Scopes

theorem lookup (id : String) : Clear (RecordGrammar.lookup id) := by
  refine get.bind fun s => ?_
  cases s.table.rule id with
  | ok rule => exact pure _
  | error e => exact throw _

theorem emitTerminal (raw : String) : Clear (RecordGrammar.emitTerminal raw) := by
  unfold RecordGrammar.emitTerminal
  split
  · exact (note _).map _
  · exact pure _

theorem keyed {tag canonical : String} {rest : String → Build α}
    (h : Clear (rest (tag ++ memoKey canonical))) : Clear (keyedStem tag canonical >>= rest) := by
  refine ((note _).map _).bind_of_result fun s stem s' hstem => ?_
  cases hstem
  exact h

end Clear

theorem clearStem_of_take {stem : String} (hlength : 5 ≤ stem.toList.length)
    (h : (stem.toList ++ ['_']).take 6 ≠ "__bjr_".toList) : ClearStem stem := by
  rintro x ⟨rest, hrest⟩
  refine h ?_
  have hid : (Scope.idOf ⟨stem⟩ x).toList = stem.toList ++ ['_'] ++ x.toList := by
    simp [Scope.idOf]
  have htake := congrArg (List.take 6) hrest
  rw [hid, List.take_append_of_le_length (by simp), List.take_append_of_le_length (by simp; omega)]
    at htake
  exact htake.symm

theorem clearStem_keyed {tag : String} (hlength : tag.toList.length = 6)
    (h : tag.toList ≠ "__bjr_".toList) (canonical : String) :
    ClearStem (tag ++ memoKey canonical) := by
  refine clearStem_of_take (by simp [hlength]; omega) ?_
  rwa [String.toList_append, List.append_assoc, List.take_append_of_le_length (by omega),
    List.take_of_length_le (by omega)]

theorem clearStem_of_first {kind : String} (name : String)
    (h : kind.toList.head?.any (· ≠ '_') = true) : ClearStem (kind ++ name) := by
  rintro x ⟨rest, hrest⟩
  cases hkind : kind.toList with
  | nil => simp [hkind] at h
  | cons first others =>
    have hfirst : first = '_' := by simpa [Scope.idOf, hkind] using (congrArg List.head? hrest).symm
    simp [hkind, hfirst] at h

namespace JsonFragment

theorem null_clear : Clear null := .memoized (clearStem_of_take (by decide) (by decide)) (.pure _)

theorem number_clear : Clear number :=
  have h : ClearStem "__bjnu" := clearStem_of_take (by decide) (by decide)
  .memoized h (.bind (.define h _) fun _ => .bind (.define h _) fun _ => .bind (.define h _) fun _ =>
    .bind (.define h _) fun _ => .bind (.oneOrMore h _) fun _ => .bind (.define h _) fun _ =>
    .bind (.define h _) fun _ => .bind (.define h _) fun _ => .map (.define h _) _)

theorem string_clear : Clear string :=
  have h : ClearStem "__bjs" := clearStem_of_take (by decide) (by decide)
  .memoized h (.bind (.define h _) fun _ => .bind (.define h _) fun _ => .bind (.define h _) fun _ =>
    .bind (.define h _) fun _ => .bind (.define h _) fun _ => .bind (.define h _) fun _ =>
    .bind (.define h _) fun _ => .map (.oneOrMore h _) _)

theorem boolean_clear : Clear boolean :=
  .memoized (clearStem_of_take (by decide) (by decide)) (.pure _)

theorem array_clear (inner : RuleHandle) : Clear (array inner) :=
  have h : ClearStem ("__bja_" ++ memoKey inner.text) :=
    clearStem_keyed (by decide) (by decide) inner.text
  .keyed (.memoized h (.map (.oneOrMore h _) _))

theorem tuple_clear (members : List RuleHandle) : Clear (tuple members) :=
  .keyed (.memoized (clearStem_keyed (by decide) (by decide) _) (.pure _))

theorem enumeration_clear (members : List String) : Clear (enumeration members) :=
  .keyed (.memoized (clearStem_keyed (by decide) (by decide) _) (.pure _))

theorem object_clear (fields : List (String × RuleHandle)) : Clear (object fields) :=
  .keyed (.memoized (clearStem_keyed (by decide) (by decide) _) (.pure _))

theorem literals_clear (literals : List Literal) : Clear (do
    JsonFragment.enumeration (← literals.mapM fun l => emitTerminal l.text)) := by
  refine .bind (.mapM (fun l => ?_) _) fun _ => enumeration_clear _
  exact .emitTerminal l.text

theorem inQuotes_clear (inner : RuleHandle) : Clear (inQuotes inner) :=
  .keyed (.memoized (clearStem_keyed (by decide) (by decide) _) (.pure _))

end JsonFragment

namespace FormatFragment

theorem digit_clear : Clear digit := by
  refine .bind .get fun s => ?_
  split
  · exact .lookup _
  · exact .defineNamed (clearStem_of_take (by decide) (by decide)) _ _

theorem segmentText_clear (segment : List Char) : Clear (segmentText segment) := by
  unfold segmentText
  split
  · exact .pure _
  · exact .emitTerminal _

theorem maskedTime_clear (mask : String) : Clear (maskedTime mask) :=
  .keyed (.memoized (clearStem_keyed (by decide) (by decide) _) (.bind digit_clear fun _ =>
    .map (.mapM segmentText_clear _) _))

theorem mailAddress_clear : Clear mailAddress :=
  have h : ClearStem "__bse" := clearStem_of_take (by decide) (by decide)
  .memoized h (.bind (.define h _) fun _ => .bind (.define h _) fun _ => .bind (.define h _) fun _ =>
    .reserve_commit h fun _ => .bind (.define h _) fun _ => .bind (.oneOrMore h _) fun _ =>
    .bind (.define h _) fun _ => .bind (.define h _) fun _ => .bind (.define h _) fun _ =>
    .reserve_commit h fun _ => .map (.define h _) _)

end FormatFragment

section Factories

variable (name : String)

theorem fixed_clear : Clear (memoized ("fixed_" ++ name) fun _ => return terminal "x") :=
  .memoized (clearStem_of_first name (by decide)) (.pure _)

theorem nullable_clear (inner : RuleHandle) :
    Clear (memoized ("nullable_" ++ name) fun _ => do
      let null ← JsonFragment.null
      return alternation [inner.text, null.text]) :=
  .memoized (clearStem_of_first name (by decide)) (.map JsonFragment.null_clear _)

end Factories

namespace Construction

variable {α β : Type}

def bind : {α : Type} → Construction α → (α → Construction β) → Construction β
  | _, .pure a, f => f a
  | _, .throw e, _ => .throw e
  | _, .table m foreign next, f => .table m foreign fun b => (next b).bind f
  | _, .record name build next, f => .record name build fun rule => (next rule).bind f
  | _, .descend inner next, f => .descend inner fun b => (next b).bind f

theorem run_bind (tree : Construction α) (f : α → Construction β) (site : CompileSite)
    (left : Nat) :
    (tree.bind f).run site left = tree.run site left >>= fun a => (f a).run site left := by
  induction tree with
  | pure a => exact (pure_bind a fun a => (f a).run site left).symm
  | throw e => rfl
  | table m foreign next ih => simp only [bind, run, ih, bind_assoc]
  | record name build next _ ih => simp only [bind, run, ih, bind_assoc]
  | descend inner next _ ih => simp only [bind, run, ih, bind_assoc]

end Construction

open RecordCompiler

/-- What a construction stands for, whichever records are under construction. -/
def Constructed (registry : Registry) (options : SchemaOptions) (left : Nat) {α : Type}
    (m : CompileSite → Compile α) : Prop :=
  ∃ tree : Construction α, ∀ stack,
    tree.run ⟨registry, options, stack⟩ left = m ⟨registry, options, stack⟩

namespace Constructed

variable {registry : Registry} {options : SchemaOptions} {left : Nat} {α β : Type}

theorem pure (a : α) : Constructed registry options left fun _ => Pure.pure a :=
  ⟨.pure a, fun _ => rfl⟩

theorem throw (e : SchemaError) :
    Constructed registry options left fun _ => (MonadExcept.throw e : Compile α) :=
  ⟨.throw e, fun _ => rfl⟩

theorem require (e : Except SchemaError α) :
    Constructed registry options left fun _ => require e := by
  cases e with
  | ok a => exact pure a
  | error e => exact throw e

theorem build {m : Build α} (hp : TableProgram m) (hc : Clear m) :
    Constructed registry options left fun _ => liftBuild m :=
  ⟨.table m (.of_clear hp hc) .pure, fun _ => bind_pure _⟩

theorem bind {m : CompileSite → Compile α} {f : α → CompileSite → Compile β}
    (hm : Constructed registry options left m) (hf : ∀ a, Constructed registry options left (f a)) :
    Constructed registry options left fun site => m site >>= fun a => f a site := by
  obtain ⟨tree, htree⟩ := hm
  choose next hnext using hf
  refine ⟨tree.bind next, fun stack => ?_⟩
  rw [tree.run_bind, htree]
  exact bind_congr fun a => hnext a stack

theorem congr {m m' : CompileSite → Compile α} (hm : Constructed registry options left m)
    (h : ∀ stack, m' ⟨registry, options, stack⟩ = m ⟨registry, options, stack⟩) :
    Constructed registry options left m' := by
  obtain ⟨tree, htree⟩ := hm
  exact ⟨tree, fun stack => (htree stack).trans (h stack).symm⟩

theorem map {m : CompileSite → Compile α} (hm : Constructed registry options left m) (f : α → β) :
    Constructed registry options left fun site => do let a ← m site; return f a :=
  hm.bind fun a => pure (f a)

theorem mapM {f : CompileSite → α → Compile β}
    (hf : ∀ a, Constructed registry options left fun site => f site a) (as : List α) :
    Constructed registry options left fun site => as.mapM (f site) := by
  induction as with
  | nil => exact pure []
  | cons a as ih =>
    simp only [List.mapM_cons]
    exact (hf a).bind fun b => ih.map (b :: ·)

theorem record {build : CompileSite → RecordSchema → Compile RuleHandle} (name : String)
    (h : ∀ definition, Constructed registry options left fun site => build site definition) :
    Constructed registry options left fun site => site.record name build := by
  choose tree htree using h
  refine ⟨.record name tree .pure, fun stack => ?_⟩
  refine (bind_pure _).trans ?_
  unfold CompileSite.record
  simp only [htree]

theorem descend {inner : CompileSite → Compile α}
    (h : Constructed registry options left inner) :
    Constructed registry options (left + 1) inner := by
  obtain ⟨tree, htree⟩ := h
  exact ⟨.descend tree .pure, fun stack => (bind_pure _).trans (htree stack)⟩

section Types

variable {compiler : TypeCompiler}
  (hc : ∀ root ty, Constructed registry options left fun site => compiler site root ty)

include hc

theorem field (root : String) (f : Field) :
    Constructed registry options left fun site => RecordCompiler.field compiler site root f := by
  refine .bind (require _) fun _ => ?_
  cases f.format with
  | none => exact hc root f.type
  | some format =>
    cases format with
    | time mask =>
      exact build (.bind (FormatFragment.maskedTime_program mask) fun _ =>
        JsonFragment.inQuotes_program _) (.bind (FormatFragment.maskedTime_clear mask) fun _ =>
        JsonFragment.inQuotes_clear _)
    | email =>
      exact build (.bind FormatFragment.mailAddress_program fun _ =>
        JsonFragment.inQuotes_program _) (.bind FormatFragment.mailAddress_clear fun _ =>
        JsonFragment.inQuotes_clear _)

theorem object (root name : String) :
    Constructed registry options left fun site => RecordCompiler.object compiler site root name :=
  record name fun _ => .bind (.mapM (fun f => .map (field hc root f) _) _) fun _ =>
    build (JsonFragment.object_program _) (JsonFragment.object_clear _)

end Types

section Levels

variable (hstem : ClearStem options.stem)
  (hc : ∀ n ≤ left, ∀ root ty, Constructed registry options n fun site =>
    RecordCompiler.type n site root ty)

include hstem hc

theorem delegate (name : String) (factory : Factory) : Constructed registry options left
    fun site => RecordCompiler.delegate (levels left) site name factory := by
  have hhere := hc left (Nat.le_refl left)
  cases factory <;> simp only [RecordCompiler.delegate]
  case json => exact object hhere name name
  case fixed => exact build (.memoized _ fun _ => .pure _) (fixed_clear name)
  case nullable =>
    have hnull (inner : RuleHandle) : Constructed registry options left fun _ => liftBuild
        (memoized ("nullable_" ++ name) fun _ => do
          let null ← JsonFragment.null
          return alternation [inner.text, null.text]) :=
      build (.memoized _ fun _ => .map JsonFragment.null_program _) (nullable_clear name inner)
    cases left with
    | zero => exact .bind (throw (.depthExceeded options.maxDepth)) hnull
    | succ deeper => exact .bind (descend (object (hc deeper (Nat.le_succ deeper)) name name)) hnull
  case masked mask =>
    exact build (.bind (FormatFragment.maskedTime_program mask) fun _ =>
      JsonFragment.inQuotes_program _) (.bind (FormatFragment.maskedTime_clear mask) fun _ =>
      JsonFragment.inQuotes_clear _)
  case boxed other =>
    exact record name fun _ => .bind (object hhere other other) fun _ =>
      build (JsonFragment.tuple_program _) (JsonFragment.tuple_clear _)
  case plain =>
    let text := name ++ "@" ++ toString options.maxDepth
    have hprogram : TableProgram (emitTerminal text >>= Scope.define ⟨options.stem⟩) :=
      .bind (.emitTerminal text) fun _ => .define ⟨options.stem⟩ _
    exact build hprogram (.bind (.emitTerminal text) fun _ => .define hstem _)

theorem typeLevel (root : String) (ty : FieldType) : Constructed registry options left
    fun site => RecordCompiler.typeLevel (levels left) site root ty := by
  have hhere := hc left (Nat.le_refl left)
  cases ty <;> simp only [RecordCompiler.typeLevel]
  case int => exact build JsonFragment.number_program JsonFragment.number_clear
  case float => exact build JsonFragment.number_program JsonFragment.number_clear
  case string => exact build JsonFragment.string_program JsonFragment.string_clear
  case bool => exact build JsonFragment.boolean_program JsonFragment.boolean_clear
  case variadic => exact throw _
  case unknownList => exact throw _
  case list element =>
    exact .bind (hhere root element) fun _ =>
      build (JsonFragment.array_program _) (JsonFragment.array_clear _)
  case tuple items =>
    exact .bind (require _) fun _ => .bind (.mapM (hhere root) items) fun _ =>
      build (JsonFragment.tuple_program _) (JsonFragment.tuple_clear _)
  case literal value =>
    exact build (JsonFragment.literals_program [value]) (JsonFragment.literals_clear [value])
  case union members =>
    exact .bind (require _) fun literals =>
      build (JsonFragment.literals_program literals) (JsonFragment.literals_clear literals)
  case record name =>
    cases hf : (if name = root then none else registry.factory? name) with
    | none =>
      exact (object hhere root name).congr fun stack => by
        simp only [RecordCompiler.recordField, hf]
        rfl
    | some factory =>
      exact (delegate hstem hc name factory).congr fun stack => by
        simp only [RecordCompiler.recordField, hf]

end Levels

/-- By strong induction, as a nullable record is compiled two levels further down. -/
theorem type (hstem : ClearStem options.stem) (left : Nat) (root : String) (ty : FieldType) :
    Constructed registry options left fun site => RecordCompiler.type left site root ty := by
  induction left using Nat.strongRecOn generalizing root ty with
  | _ left ih =>
    cases left with
    | zero => exact throw (.depthExceeded options.maxDepth)
    | succ left =>
      simp only [RecordCompiler.type_succ]
      exact descend (typeLevel hstem (fun n hn => ih n (Nat.lt_succ_of_le hn)) root ty)

end Constructed

/-- A compilation is a construction, whichever factories are attached to records. -/
theorem compileRecord_constructed (registry : Registry) (root : String) {options : SchemaOptions}
    (hstem : ClearStem options.stem) : ∃ tree : Construction RuleHandle,
      tree.run ⟨registry, options, []⟩ options.maxDepth = compileRecord registry root options := by
  have h : Constructed registry options options.maxDepth fun site =>
      require (registry.record root) >>= fun _ =>
        delegate (levels options.maxDepth) site root (registry.factoryOrJson root) :=
    .bind (.require _) fun _ => .delegate hstem (fun n _ => .type hstem n) root _
  obtain ⟨tree, htree⟩ := h
  exact ⟨tree, htree []⟩

end RecordGrammar
