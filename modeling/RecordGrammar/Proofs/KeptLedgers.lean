import RecordGrammar.Proofs.CompileLedgers

/-! # The ledger of a whole compilation -/

namespace RecordGrammar

/-- Records are objects, some of which may be null, there are no formats, and names and literals are
read back where they stand in rules. -/
structure Registry.JsonOrNull (registry : Registry) (root : String) : Prop where
  factory {name factory} : registry.factory? name = some factory →
    factory = .json ∨ factory = .nullable
  format {f} : registry.ReachesField root f → f.format = none
  literal {l} : registry.Reaches root (.literal l) → l.Clear
  field : registry.NamesClear root
  nullable {name} : registry.Reaches root (.record name) →
    registry.factory? name = some .nullable → '>' ∉ name.toList

section Referable

variable {registry : Registry} {root asked name : String} {ledger : List Entry}
  {rule : RuleHandle}

theorem Written.referable (hjustified : ∀ e ∈ ledger, e.Justified registry root ledger)
    (h : Written ledger asked name rule) : Referable rule.id := by
  rcases h with hbuilt | ⟨-, rfl⟩
  · obtain ⟨-, -, definition, rows, -, -, -, rfl⟩ := hjustified _ hbuilt
    exact (Fragment.handle_plain _).referable
  · exact (forwardId_plain name).referable

theorem Delegated.referable (hschema : registry.JsonOrNull root)
    (hjustified : ∀ e ∈ ledger, e.Justified registry root ledger)
    (hname : registry.Reaches root (.record name)) {factory : Factory}
    (hfactory : registry.factoryOrJson name = factory) (h : Delegated ledger name factory rule) :
    Referable rule.id := by
  cases h with
  | json hwritten => exact hwritten.referable hjustified
  | nullable hwrapped =>
    refine nullableHandle_referable (hschema.nullable hname ?_)
    cases hf : registry.factory? name <;> simp [Registry.factoryOrJson, hf] at hfactory
    rw [hfactory]

theorem Stands.referable (hschema : registry.JsonOrNull root)
    (hjustified : ∀ e ∈ ledger, e.Justified registry root ledger) {type : FieldType}
    (htype : registry.Reaches root type) (h : Stands registry ledger asked type rule) :
    Referable rule.id := by
  cases h with
  | inlined _ hwritten => exact hwritten.referable hjustified
  | handedOff _ hfactory hrule =>
    exact hrule.referable hschema hjustified htype (by simp [Registry.factoryOrJson, hfactory])
  | _ => exact (Fragment.handle_plain _).referable

end Referable

/-- A step that keeps a ledger of what it does, which ends in `P` if the step goes through. -/
def Keeps {α : Type} (registry : Registry) (root : String) (stack : List String)
    (ledger : List Entry) (m : Compile α) (P : List Entry → α → Prop) : Prop :=
  ∀ σ a σ', Kept registry root stack ledger σ → m σ = .ok a σ' →
    ∃ ledger', ledger ⊆ ledger' ∧ Kept registry root stack ledger' σ' ∧ P ledger' a

namespace Keeps

variable {registry : Registry} {root : String} {stack : List String} {ledger : List Entry}

section Steps

variable {α β : Type} {m : Compile α} {P : List Entry → α → Prop} {Q : List Entry → β → Prop}

theorem pure {a : α} (h : P ledger a) : Keeps registry root stack ledger (Pure.pure a) P := by
  intro σ _ _ hkept hrun
  cases hrun
  exact ⟨ledger, List.Subset.refl _, hkept, h⟩

theorem throw (e : SchemaError) : Keeps registry root stack ledger (throw e) P := by
  intro σ _ _ _ hrun
  cases hrun

theorem require {result : Except SchemaError α} (h : ∀ a, result = .ok a → P ledger a) :
    Keeps registry root stack ledger (RecordGrammar.require result) P := by
  cases result with
  | ok a => exact pure (h a rfl)
  | error e => exact throw e

theorem bind {f : α → Compile β} (hm : Keeps registry root stack ledger m P)
    (hf : ∀ ledger' a, ledger ⊆ ledger' → P ledger' a →
      Keeps registry root stack ledger' (f a) Q) :
    Keeps registry root stack ledger (m >>= f) Q := by
  intro σ b σ' hkept hrun
  obtain ⟨a, u, ha, hb⟩ := bind_eq_ok hrun
  obtain ⟨ledger', hsub, hkept', hP⟩ := hm σ a u hkept ha
  obtain ⟨ledger'', hsub', hkept'', hQ⟩ := hf ledger' a hsub hP u b σ' hkept' hb
  exact ⟨ledger'', List.Subset.trans hsub hsub', hkept'', hQ⟩

theorem mapM {f : α → Compile β} {R : α → List Entry → β → Prop}
    (hmono : ∀ a b l l', l ⊆ l' → R a l b → R a l' b) {as : List α}
    (hf : ∀ a ∈ as, ∀ ledger', ledger ⊆ ledger' → Keeps registry root stack ledger' (f a) (R a)) :
    Keeps registry root stack ledger (as.mapM f) fun l bs => List.Forall₂ (R · l ·) as bs := by
  induction as generalizing ledger with
  | nil => exact pure .nil
  | cons a as ih =>
    obtain ⟨ha, has⟩ := List.forall_mem_cons.1 hf
    rw [List.mapM_cons]
    refine (ha ledger (List.Subset.refl _)).bind fun l b hsub hb => ?_
    refine (ih fun a' ha' l' hsub' => has a' ha' l' (List.Subset.trans hsub hsub')).bind
      fun l' bs hsub' hbs => ?_
    exact pure (.cons (hmono a b l l' hsub' hb) hbs)

/-- A step after which an entry is justified that says nothing of the state. -/
theorem note {e : α → Entry} (hm : Keeps registry root stack ledger m P)
    (hstanding : ∀ a σ, (e a).Standing σ)
    (hjustified : ∀ l a, (∀ e' ∈ l, e'.Justified registry root l) → P l a →
      (e a).Justified registry root l) :
    Keeps registry root stack ledger m fun l a => e a ∈ l := by
  intro σ a σ' hkept hrun
  obtain ⟨ledger', hsub, hkept', hP⟩ := hm σ a σ' hkept hrun
  have he := hjustified ledger' a (fun _ he' => hkept'.justified he') hP
  exact ⟨e a :: ledger', List.Subset.trans hsub (List.subset_cons_self _ _),
    hkept'.note (hstanding a σ') he, List.mem_cons_self⟩

/-- A fragment is built, which justifies what comes of it. -/
theorem fragment {f : Fragment} {R : List Entry → RuleHandle → Prop}
    (hclear : (∀ e ∈ ledger, e.Justified registry root ledger) → f.Clear)
    (hentered : ∀ l, ledger ⊆ l → .fragment f ∈ l → R l f.handle) :
    Keeps registry root stack ledger (liftBuild f.build) R := by
  intro σ r σ' hkept hrun
  obtain ⟨rfl, hkept'⟩ := hkept.fragment (hclear fun _ he => hkept.justified he) hrun
  exact ⟨.fragment f :: ledger, List.subset_cons_self _ _, hkept',
    hentered _ (List.subset_cons_self _ _) List.mem_cons_self⟩

end Steps

variable (registry root) in
/-- A compiler of types that enters every type it compiles. -/
def Meets (options : SchemaOptions) (compile : TypeCompiler) : Prop :=
  ∀ stack ledger asked type, registry.Works root stack asked type →
    Keeps registry root stack ledger (compile ⟨registry, options, stack⟩ asked type)
      fun l rule => .met asked type rule ∈ l

section Records

variable {options : SchemaOptions} {asked name : String} {compile : TypeCompiler}
  (hschema : registry.JsonOrNull root)

include hschema

theorem field (h : Meets registry root options compile) {f : Field}
    (hf : registry.ReachesField root f) (hworks : registry.Works root stack asked f.type) :
    Keeps registry root stack ledger
      (RecordCompiler.field compile ⟨registry, options, stack⟩ asked f)
      fun l rule => .met asked f.type rule ∈ l := by
  unfold RecordCompiler.field
  rw [hschema.format hf]
  exact (require (P := fun _ _ => True) fun _ _ => trivial).bind
    fun l _ _ _ => h stack l asked f.type hworks

/-- The object of a record, built from the rules of its visible fields. -/
theorem objectBody (h : Meets registry root options compile)
    (hworks : registry.Works root stack asked (.record name)) (hnew : name ∉ stack)
    (hname : registry.Inlines asked name) {definition : RecordSchema}
    (hrecord : registry.record name = .ok definition) :
    Keeps registry root (stack ++ [name]) ledger (do
      let fields ← definition.visibleFields.mapM fun f => do
        let rule ← RecordCompiler.field compile ⟨registry, options, stack ++ [name]⟩ asked f
        return (f.name, rule)
      liftBuild (JsonFragment.object fields)) fun l rule => .built asked name rule ∈ l := by
  have hreaches {f : Field} (hf : f ∈ definition.visibleFields) : registry.ReachesField root f :=
    ⟨name, definition, hworks.reaches, hrecord, hf⟩
  have hrow {l : List Entry} {f : Field} (hf : f ∈ definition.visibleFields) :
      Keeps registry root (stack ++ [name]) l (do
        let rule ← RecordCompiler.field compile ⟨registry, options, stack ++ [name]⟩ asked f
        return (f.name, rule)) fun l row => row.1 = f.name ∧ .met asked f.type row.2 ∈ l :=
    (field hschema h (hreaches hf) (hworks.field hnew hname hrecord hf)).bind
      fun l' rule _ hrule => pure ⟨rfl, hrule⟩
  have hrows : Keeps registry root (stack ++ [name]) ledger
      (definition.visibleFields.mapM fun f => do
        let rule ← RecordCompiler.field compile ⟨registry, options, stack ++ [name]⟩ asked f
        return (f.name, rule)) fun l rows => List.Forall₂ (fun f row => row.1 = f.name ∧
          .met asked f.type row.2 ∈ l) definition.visibleFields rows :=
    mapM (fun _ _ _ _ hsub hrow => ⟨hrow.1, hsub hrow.2⟩) fun f hf l _ => hrow hf
  refine note (P := fun l rule => ∃ rows, List.Forall₂ (fun f row => row.1 = f.name ∧
      .met asked f.type row.2 ∈ l) definition.visibleFields rows ∧
      .fragment (.object rows) ∈ l ∧ rule = (Fragment.object rows).handle)
    (hrows.bind fun l rows _ hrows => fragment (f := .object rows) (fun hjustified row hrow => ?_)
      fun l' hsub hf => ?_) (fun _ _ => trivial) fun l rule _ hrule => ?_
  · obtain ⟨f, hf, hfname, hmet⟩ := exists_of_forall₂ hrows row hrow
    exact ⟨hfname ▸ hschema.field f (hreaches hf), (hjustified _ hmet).2.1.closed⟩
  · exact ⟨rows, hrows.imp fun _ _ hrow => ⟨hrow.1, hsub hrow.2⟩, hf, rfl⟩
  · exact ⟨⟨stack, hworks, hnew⟩, hname, definition, _, hrecord, hrule.choose_spec⟩

/-- A record that is written out is built, or it is referred to while it is under construction. -/
theorem object (h : Meets registry root options compile)
    (hworks : registry.Works root stack asked (.record name)) (hname : registry.Inlines asked name) :
    Keeps registry root stack ledger
      (RecordCompiler.object compile ⟨registry, options, stack⟩ asked name)
      fun l rule => Written l asked name rule := by
  intro σ rule σ' hkept hrun
  unfold RecordCompiler.object CompileSite.record at hrun
  split at hrun
  · obtain ⟨rfl, hkept'⟩ := hkept.forward hworks ‹_› hrun
    exact ⟨_, List.subset_cons_self _ _, hkept', .inr ⟨List.mem_cons_self, rfl⟩⟩
  · obtain ⟨definition, u, hrequire, hrun⟩ := bind_eq_ok hrun
    obtain ⟨built, u', hbody, hrun⟩ := bind_eq_ok hrun
    obtain ⟨_, u'', hclose, hpure⟩ := bind_eq_ok hrun
    cases hpure
    cases hrecord : registry.record name with
    | error e =>
      rw [hrecord] at hrequire
      cases hrequire
    | ok definition' =>
      rw [hrecord] at hrequire
      cases hrequire
      obtain ⟨l, hsub, hkept', hbuilt⟩ :=
        objectBody hschema h hworks ‹_› hname hrecord _ _ _ (hkept.opened name) hbody
      obtain ⟨l', hsub', hkept''⟩ := hkept'.close hbuilt hclose
      exact ⟨l', List.Subset.trans hsub hsub', hkept'', .inl (hsub' hbuilt)⟩

/-- The compilers of a level enter what they compile. -/
def LevelsMeet (registry : Registry) (root : String) (options : SchemaOptions) (levels : Levels) :
    Prop :=
  Meets registry root options levels.here ∧
    ∀ below, levels.below = some below → Meets registry root options below

theorem delegate {levels : Levels} (h : LevelsMeet registry root options levels)
    (hworks : registry.Works root stack name (.record name)) {factory : Factory}
    (hfactory : factory = .json ∨ factory = .nullable) :
    Keeps registry root stack ledger
      (RecordCompiler.delegate levels ⟨registry, options, stack⟩ name factory)
      fun l rule => Delegated l name factory rule := by
  rcases hfactory with rfl | rfl
  · intro σ rule σ' hkept hrun
    obtain ⟨l, hsub, hkept', hwritten⟩ := object hschema h.1 hworks (.inl rfl) _ _ _ hkept hrun
    exact ⟨l, hsub, hkept', .json hwritten⟩
  · unfold RecordCompiler.delegate
    cases hbelow : levels.below with
    | none => exact (throw (P := fun _ _ => False) _).bind fun _ _ _ hfalse => hfalse.elim
    | some below =>
      refine (object hschema (h.2 below hbelow) hworks (.inl rfl)).bind
        fun l inner _ hwritten σ rule σ' hkept hrun => ?_
      obtain ⟨rfl, l', hsub, hkept', hwrapped⟩ := hkept.wrap hwritten hrun
      exact ⟨l', hsub, hkept', .nullable hwrapped⟩

theorem recordField {levels : Levels} (h : LevelsMeet registry root options levels)
    (hworks : registry.Works root stack asked (.record name)) :
    Keeps registry root stack ledger
      (RecordCompiler.recordField levels ⟨registry, options, stack⟩ asked name)
      fun l rule => Stands registry l asked (.record name) rule := by
  intro σ rule σ' hkept hrun
  unfold RecordCompiler.recordField at hrun
  by_cases hname : registry.Inlines asked name
  · have hnone : (if name = asked then none else registry.factory? name) = none := by
      rcases hname with rfl | hnone
      · exact if_pos rfl
      · simp [hnone]
    rw [hnone] at hrun
    obtain ⟨l, hsub, hkept', hwritten⟩ := object hschema h.1 hworks hname _ _ _ hkept hrun
    exact ⟨l, hsub, hkept', .inlined hname hwritten⟩
  · obtain ⟨hne, hsome⟩ := not_or.1 hname
    obtain ⟨factory, hfactory⟩ := Option.ne_none_iff_exists'.1 hsome
    rw [if_neg hne, hfactory] at hrun
    obtain ⟨l, hsub, hkept', hrule⟩ := delegate hschema h (hworks.handOff hname)
      (hschema.factory hfactory) _ _ _ hkept hrun
    exact ⟨l, hsub, hkept', .handedOff hname hfactory hrule⟩

/-- One level of a type: its rule is put together from what has been entered for its parts. -/
theorem typeLevel {levels : Levels} (h : LevelsMeet registry root options levels) {type : FieldType}
    (hworks : registry.Works root stack asked type) :
    Keeps registry root stack ledger
      (RecordCompiler.typeLevel levels ⟨registry, options, stack⟩ asked type)
      fun l rule => Stands registry l asked type rule := by
  have hscalar {f : Fragment} (hclear : f.Clear)
      (hstands : ∀ l, .fragment f ∈ l → Stands registry l asked type f.handle) :
      Keeps registry root stack ledger (liftBuild f.build)
        fun l rule => Stands registry l asked type rule :=
    fragment (fun _ => hclear) fun l _ hf => hstands l hf
  cases type with
  | int => exact hscalar (f := .number) trivial fun _ => .int
  | float => exact hscalar (f := .number) trivial fun _ => .float
  | string => exact hscalar (f := .string) trivial fun _ => .string
  | bool => exact hscalar (f := .boolean) trivial fun _ => .bool
  | variadic => exact throw _
  | unknownList => exact throw _
  | literal value => exact hscalar (f := .enumeration [value]) trivial fun _ => .literal
  | list element =>
    refine (h.1 stack ledger asked element hworks.element).bind fun l inner _ hinner => ?_
    exact fragment (f := .array inner) (fun _ => trivial) fun l' hsub hf => .list (hsub hinner) hf
  | tuple items =>
    refine (require (P := fun _ _ => True) fun _ _ => trivial).bind fun l _ _ _ => ?_
    refine (mapM (R := fun item l rule => .met asked item rule ∈ l)
      (fun _ _ _ _ hsub hmet => hsub hmet) fun item hitem l' _ =>
        h.1 stack l' asked item (hworks.item hitem)).bind fun l' inners _ hinners => ?_
    refine fragment (f := .tuple inners) (fun hjustified m hm => ?_) fun l'' hsub hf =>
      .tuple (hinners.imp fun _ _ hmet => hsub hmet) hf
    obtain ⟨item, -, hmet⟩ := exists_of_forall₂ hinners m hm
    exact (hjustified _ hmet).2.1.closed
  | union members =>
    refine (require (P := fun _ literals => unionLiterals members = .ok literals)
      fun _ => id).bind fun l literals _ hliterals => ?_
    exact fragment (f := .enumeration literals) (fun _ => trivial) fun _ _ hf =>
      .union hliterals hf
  | record name => exact recordField hschema h hworks

omit hschema in
theorem levels {left : Nat}
    (h : ∀ deeper ≤ left, Meets registry root options (RecordCompiler.type deeper)) :
    LevelsMeet registry root options (RecordCompiler.levels left) := by
  refine ⟨h left (Nat.le_refl left), fun below hbelow => ?_⟩
  cases left with
  | zero => cases hbelow
  | succ deeper =>
    cases hbelow
    exact h deeper (Nat.le_succ deeper)

theorem type (left : Nat) : Meets registry root options (RecordCompiler.type left) := by
  induction left using Nat.strongRecOn with
  | ind left ih =>
    intro stack ledger asked type hworks
    cases left with
    | zero => exact throw _
    | succ left =>
      have hlevels := levels fun deeper hle => ih deeper (Nat.lt_succ_of_le hle)
      rw [RecordCompiler.type_succ]
      exact (typeLevel hschema hlevels hworks).note (fun _ _ => trivial)
        fun l rule hjustified hstands =>
          ⟨hworks.reaches, hstands.referable hschema hjustified hworks.reaches, hstands⟩

/-- The compilation of a record keeps a ledger, which tells what its start rule is. -/
theorem compileRecord : Keeps registry root [] ledger (compileRecord registry root options)
    fun l start => Delegated l root (registry.factoryOrJson root) start := by
  have hfactory : registry.factoryOrJson root = .json ∨ registry.factoryOrJson root = .nullable := by
    unfold Registry.factoryOrJson
    cases hf : registry.factory? root with
    | none => exact .inl rfl
    | some factory => exact hschema.factory hf
  exact (require (P := fun _ _ => True) fun _ _ => trivial).bind fun l _ _ _ =>
    delegate hschema (levels fun deeper _ => type hschema deeper) .root hfactory

end Records

end Keeps

/-- What a table holds of what a ledger says. -/
structure RuleTable.HoldsLedger (t : RuleTable) (ledger : List Entry) : Prop where
  fragment {f} : .fragment f ∈ ledger → t.HoldsRules f
  forward {asked name} : .forward asked name ∈ ledger → ∃ rule, .closed name rule ∈ ledger ∧
    t.rule? (forwardId name) = some ⟨forwardId name, rule.text⟩
  null : .null ∈ ledger → t.rule? nullHandle.id = some nullRule
  wrapped {name inner} : .wrapped name inner ∈ ledger → ∃ inner', .wrapped name inner' ∈ ledger ∧
    t.rule? (nullableHandle name).id = some (nullableRule name inner')

/-- Once nothing is under construction any more, the table holds all that has been written down,
provided that no two memo keys collide. -/
theorem Kept.holdsLedger {registry : Registry} {root : String} {ledger : List Entry}
    {σ : CompileState} (h : Kept registry root [] ledger σ)
    (hlog : Collisionless σ.session.log) : σ.table.HoldsLedger ledger := by
  have hfound {id : String} (hid : σ.table.defined id = true) :
      ∃ r, σ.table.rule? id = some r ∧ r.id = id ∧ ∃ e ∈ ledger, r ∈ e.rules := by
    rw [h.tidy.settled.wellFormed.defined_eq_isSome, Option.isSome_iff_exists] at hid
    obtain ⟨r, hr⟩ := hid
    exact ⟨r, hr, h.sourced hr⟩
  refine ⟨fun {f} hf r hr => ?_, fun {asked name} hname => ?_, fun hnull => ?_,
    fun {name inner} hwrapped => ?_⟩
  · obtain ⟨hholds, hkeyed⟩ := h.standing hf
    obtain ⟨r', hr', hid, e, he, hmem⟩ := hfound (hholds r hr)
    obtain ⟨g, rfl, hmem⟩ := Entry.eq_fragment hmem hr hid
    rw [hr', Fragment.rule_eq_of_id_eq (h.justified he) (h.justified hf)
      (Fragment.canonical?_eq_of_stem_eq hlog (h.standing he).2 hkeyed) hmem hr hid]
  · obtain ⟨hforwards, hkeyed⟩ := h.standing hname
    obtain ⟨r, hr, hid, e, he, hmem⟩ := hfound (hforwards.resolve_left fun hw =>
      List.not_mem_nil (h.waiting hw))
    obtain ⟨other, rule, rfl, hother⟩ := Entry.eq_closed hmem hid
    have hkey {n : String} (hn : .keyed n ∈ σ.session.log) :
        n ∈ σ.session.log.filterMap Event.keyed? := List.mem_filterMap.2 ⟨_, hn, rfl⟩
    obtain rfl := hlog other (hkey (h.standing he)) name (hkey hkeyed) (forwardId_inj hother)
    rw [List.mem_singleton.1 hmem] at hr
    exact ⟨rule, he, hr⟩
  · obtain ⟨r, hr, hid, e, he, hmem⟩ := hfound (h.standing hnull)
    obtain rfl := Entry.eq_null hmem hid
    rw [hr, List.mem_singleton.1 hmem]
  · obtain ⟨r, hr, hid, e, he, hmem⟩ := hfound (h.standing hwrapped)
    obtain ⟨inner', rfl⟩ := Entry.eq_wrapped hmem hid
    rw [List.mem_singleton.1 hmem] at hr
    exact ⟨inner', he, hr⟩

/-- What a compilation that goes through leaves in an empty table is accounted for. -/
theorem ledger_of_compile {registry : Registry} {root : String} {options : SchemaOptions}
    {start : RuleHandle} {s : Session} (hschema : registry.JsonOrNull root)
    (hcompile : Session.compile {} registry root options = (.ok start, s))
    (hlog : Collisionless s.log) : ∃ ledger, s.table.HoldsLedger ledger ∧
      (∀ e ∈ ledger, e.Justified registry root ledger) ∧
      Delegated ledger root (registry.factoryOrJson root) start := by
  unfold Session.compile at hcompile
  cases hrun : compileRecord registry root options { session := {} } with
  | error e σ =>
    rw [hrun] at hcompile
    cases hcompile
  | ok rule σ =>
    rw [hrun] at hcompile
    cases hcompile
    obtain ⟨ledger, -, hkept, hstart⟩ :=
      Keeps.compileRecord hschema _ _ _ (Kept.empty registry root) hrun
    exact ⟨ledger, hkept.holdsLedger hlog, fun _ he => hkept.justified he, hstart⟩

end RecordGrammar
