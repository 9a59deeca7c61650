import RecordGrammar.Proofs.CycleDetection
import RecordGrammar.Proofs.EnumerationKeys
import RecordGrammar.Proofs.RecordShapes

/-! # Structural sharing

A rule is named by a hash of what it is made from. So types of one shape meet in one rule, whatever
records they come from; and as far as the hash does not collide, types that meet in a rule are of
one shape. -/

namespace RecordGrammar

/-- A fragment whose key has been noted, and can be taken apart again. -/
structure Fragment.Noted (log : List Event) (f : Fragment) : Prop where
  clear : f.Clear
  keyed (canonical : String) : f.canonical? = some canonical → .keyed canonical ∈ log

variable {log : List Event}

/-- Fragments that end in the same rule are the same, unless a hash has collided. -/
theorem Fragment.Noted.eq_of_handle_eq (hlog : Collisionless log) {f g : Fragment}
    (hf : f.Noted log) (hg : g.Noted log) (h : f.handle = g.handle) : f = g := by
  obtain ⟨hscope, -⟩ := Scope.idOf_inj underscore_not_mem_decl underscore_not_mem_decl
    (RuleHandle.mk.inj h)
  have hstem : f.stem = g.stem := congrArg Scope.stem hscope
  have hc := Fragment.canonical?_eq_of_stem_eq hlog hf.keyed hg.keyed hstem
  obtain heq | ⟨literals, literals', rfl, rfl⟩ :=
    Fragment.eq_of_canonical_eq hf.clear hg.clear hstem hc
  · exact heq
  · rw [enumeration_key_inj (Option.some.inj hc)]

theorem FieldFormat.fragment_inj {format format' : FieldFormat}
    (h : format.fragment = format'.fragment) : format = format' := by
  cases format <;> cases format' <;> simp_all [FieldFormat.fragment]

namespace Shape

/-- The fragments of a shape have all been noted. -/
def Noted (log : List Event) (shape : Shape) : Prop := ∀ f ∈ shape.fragments, f.Noted log

theorem Noted.mono {log' : List Event} {shape : Shape} (h : shape.Noted log) (hsub : log ⊆ log') :
    shape.Noted log' :=
  fun f hf => ⟨(h f hf).clear, fun canonical hc => hsub ((h f hf).keyed canonical hc)⟩

theorem Noted.element {inner : Shape} (h : (list inner).Noted log) : inner.Noted log := by
  intro f hf
  exact h f (by rw [fragments]; exact List.mem_append_left _ hf)

theorem Noted.item {items : List Shape} (h : (tuple items).Noted log) :
    ∀ item ∈ items, item.Noted log := by
  intro item hitem f hf
  refine h f ?_
  rw [fragments, itemFragments_eq]
  exact List.mem_append_left _ (List.mem_flatMap.2 ⟨item, hitem, hf⟩)

theorem Noted.field {fields : List (String × Shape)} (h : (record fields).Noted log) :
    ∀ f ∈ fields, f.2.Noted log := by
  intro field hfield f hf
  refine h f ?_
  rw [fragments, fieldFragments_eq]
  exact List.mem_append_left _ (List.mem_flatMap.2 ⟨field, hfield, hf⟩)

theorem Noted.format {inner : FieldFormat} (h : (formatted inner).Noted log) :
    inner.fragment.Noted log :=
  h _ (by simp [fragments])

theorem Noted.fragment_eq (hlog : Collisionless log) {a b : Shape} (ha : a.Noted log)
    (hb : b.Noted log) (h : a.handle = b.handle) : a.fragment = b.fragment :=
  (ha _ a.fragment_mem_fragments).eq_of_handle_eq hlog (hb _ b.fragment_mem_fragments) h

mutual

/-- A rule tells the shape that it stands for. -/
theorem eq_of_handle_eq (hlog : Collisionless log) : (a b : Shape) → a.Noted log → b.Noted log →
    a.handle = b.handle → a = b
  | .number, b, ha, hb, h => by
    have hsame := ha.fragment_eq hlog hb h
    cases b <;> simp [fragment] at hsame
    rfl
  | .string, b, ha, hb, h => by
    have hsame := ha.fragment_eq hlog hb h
    cases b <;> simp [fragment] at hsame
    rfl
  | .bool, b, ha, hb, h => by
    have hsame := ha.fragment_eq hlog hb h
    cases b <;> simp [fragment] at hsame
    rfl
  | .oneOf literals, b, ha, hb, h => by
    have hsame := ha.fragment_eq hlog hb h
    cases b <;> simp [fragment] at hsame
    rw [hsame]
  | .formatted format, b, ha, hb, h => by
    have hsame := ha.fragment_eq hlog hb h
    cases b <;> simp only [fragment, Fragment.inQuotes.injEq, reduceCtorEq] at hsame
    rw [FieldFormat.fragment_inj (ha.format.eq_of_handle_eq hlog hb.format hsame)]
  | .list element, b, ha, hb, h => by
    have hsame := ha.fragment_eq hlog hb h
    cases b <;> simp only [fragment, Fragment.array.injEq, reduceCtorEq] at hsame
    rw [eq_of_handle_eq hlog element _ ha.element hb.element hsame]
  | .tuple items, b, ha, hb, h => by
    have hsame := ha.fragment_eq hlog hb h
    cases b <;> simp only [fragment, Fragment.tuple.injEq, reduceCtorEq] at hsame
    rw [eq_of_handles_eq hlog items _ ha.item hb.item hsame]
  | .record fields, b, ha, hb, h => by
    have hsame := ha.fragment_eq hlog hb h
    cases b <;> simp only [fragment, Fragment.object.injEq, reduceCtorEq] at hsame
    rw [eq_of_rows_eq hlog fields _ ha.field hb.field hsame]

theorem eq_of_handles_eq (hlog : Collisionless log) : (as bs : List Shape) →
    (∀ a ∈ as, a.Noted log) → (∀ b ∈ bs, b.Noted log) → handles as = handles bs → as = bs
  | [], [], _, _, _ => rfl
  | [], _ :: _, _, _, h => by cases h
  | _ :: _, [], _, _, h => by cases h
  | a :: as, b :: bs, has, hbs, h => by
    obtain ⟨ha, has⟩ := List.forall_mem_cons.1 has
    obtain ⟨hb, hbs⟩ := List.forall_mem_cons.1 hbs
    obtain ⟨hfirst, hrest⟩ := List.cons.inj h
    rw [eq_of_handle_eq hlog a b ha hb hfirst, eq_of_handles_eq hlog as bs has hbs hrest]

theorem eq_of_rows_eq (hlog : Collisionless log) : (as bs : List (String × Shape)) →
    (∀ a ∈ as, a.2.Noted log) → (∀ b ∈ bs, b.2.Noted log) → rows as = rows bs → as = bs
  | [], [], _, _, _ => rfl
  | [], _ :: _, _, _, h => by cases h
  | _ :: _, [], _, _, h => by cases h
  | (name, a) :: as, (name', b) :: bs, has, hbs, h => by
    obtain ⟨ha, has⟩ := List.forall_mem_cons.1 has
    obtain ⟨hb, hbs⟩ := List.forall_mem_cons.1 hbs
    obtain ⟨hfirst, hrest⟩ := List.cons.inj h
    obtain ⟨hname, hvalue⟩ := Prod.mk.inj hfirst
    rw [hname, eq_of_handle_eq hlog a b ha hb hvalue, eq_of_rows_eq hlog as bs has hbs hrest]

end

end Shape

section Compile

variable {registry registry' : Registry} {root root' : String} {options options' : SchemaOptions}
  {start start' : RuleHandle} {s s' t t' : Session}

/-- A record that is compiled, on whatever table, has one shape, and starts at the rule of it. -/
theorem shape_of_compile (hf : registry.factories = ∅) (hs : s.table.WellFormed)
    (h : s.compile registry root options = (.ok start, s')) (hacyclic : registry.Acyclic root)
    (hnames : registry.NamesClear root) : ∃ shape, registry.HasShape (.record root) shape ∧
      start = shape.handle ∧ shape.Noted s'.log := by
  have hok := (Session.compile_eq_ok hf hs h).1
  obtain ⟨shape, hshape, hstart, hbuilt⟩ := shape_of_schemaPlan hacyclic hok
  refine ⟨shape, hshape, hstart, fun f hfragment => ⟨?_, fun canonical hc => ?_⟩⟩
  · exact (fragment_from hok (hbuilt f hfragment)).clear hnames
  · exact Session.keyed_of_compile hf hs h (hbuilt f hfragment) hc

/-- Structural sharing is exact. Two records without recursion, of one registry or of two, each have
one shape; and when they are compiled into one table, or into two, their start rules are the same
just where their shapes are the same. This takes a hash that does not collide on what has been
hashed, and names of fields without an opening angle bracket. -/
theorem compile_start_eq_iff (hf : registry.factories = ∅) (hf' : registry'.factories = ∅)
    (hs : s.table.WellFormed) (ht : t.table.WellFormed)
    (h : s.compile registry root options = (.ok start, s'))
    (h' : t.compile registry' root' options' = (.ok start', t'))
    (hacyclic : registry.Acyclic root) (hacyclic' : registry'.Acyclic root')
    (hnames : registry.NamesClear root) (hnames' : registry'.NamesClear root')
    (hlog : Collisionless (s'.log ++ t'.log)) :
    (∃! shape, registry.HasShape (.record root) shape) ∧
      (∃! shape, registry'.HasShape (.record root') shape) ∧
      ∀ shape shape', registry.HasShape (.record root) shape →
        registry'.HasShape (.record root') shape' → (start = start' ↔ shape = shape') := by
  obtain ⟨a, ha, rfl, hnoted⟩ := shape_of_compile hf hs h hacyclic hnames
  obtain ⟨b, hb, rfl, hnoted'⟩ := shape_of_compile hf' ht h' hacyclic' hnames'
  refine ⟨⟨a, ha, fun _ h => h.unique ha⟩, ⟨b, hb, fun _ h => h.unique hb⟩, ?_⟩
  intro shape shape' hshape hshape'
  obtain rfl := hshape.unique ha
  obtain rfl := hshape'.unique hb
  constructor
  · intro hstart
    have hnoted := hnoted.mono (List.subset_append_left s'.log t'.log)
    have hnoted' := hnoted'.mono (List.subset_append_right s'.log t'.log)
    exact Shape.eq_of_handle_eq hlog shape shape' hnoted hnoted' hstart
  · rintro rfl
    rfl

/-- An invoice and a receipt whose totals are written down in two ways that come to the same. -/
def books : Registry where
  records := ((((∅ : Std.ExtTreeMap String RecordSchema).insert "Money"
    ⟨[⟨"units", .int, false, none⟩, ⟨"currency", .literal (.string "EUR"), false, none⟩],
      none⟩).insert "Amount" ⟨[⟨"units", .float, false, none⟩,
      ⟨"currency", .union [.literal (.string "EUR")], false, none⟩], none⟩).insert "Invoice"
    ⟨[⟨"total", .record "Money", false, none⟩], none⟩).insert "Receipt"
    ⟨[⟨"total", .record "Amount", false, none⟩], none⟩

theorem books_namesClear (root : String) : books.NamesClear root := by
  rintro field ⟨name, definition, -, hrecord, hfield⟩
  simp only [Registry.record, books, Std.ExtTreeMap.getElem?_insert] at hrecord
  split_ifs at hrecord
  · cases hrecord
    obtain rfl : field = _ := List.mem_singleton.1 hfield
    decide
  · cases hrecord
    obtain rfl : field = _ := List.mem_singleton.1 hfield
    decide
  · cases hrecord
    simp [RecordSchema.visibleFields] at hfield
    rcases hfield with rfl | rfl <;> decide
  · cases hrecord
    simp [RecordSchema.visibleFields] at hfield
    rcases hfield with rfl | rfl <;> decide
  · simp at hrecord

set_option maxRecDepth 100000 in
/-- Both are compiled with recursion switched off, so there is none in them. -/
theorem books_compiled :
    (Session.compile {} books "Invoice" { allowRecursion := false }).1 =
        .ok ⟨"__bjo_69ba06944b6d34fa_decl"⟩ ∧
      ((Session.compile {} books "Invoice" { allowRecursion := false }).2.compile books "Receipt"
          { allowRecursion := false }).1 = .ok ⟨"__bjo_69ba06944b6d34fa_decl"⟩ ∧
      Collisionless ((Session.compile {} books "Invoice" { allowRecursion := false }).2.log ++
        ((Session.compile {} books "Invoice" { allowRecursion := false }).2.compile books "Receipt"
          { allowRecursion := false }).2.log) := by
  decide +kernel

/-- The receipt is compiled into the table of the invoice, and starts at the same rule. -/
theorem books_share_a_rule :
    let first := Session.compile {} books "Invoice" { allowRecursion := false }
    let second := first.2.compile books "Receipt" { allowRecursion := false }
    first.1 = .ok ⟨"__bjo_69ba06944b6d34fa_decl"⟩ ∧
      second.1 = .ok ⟨"__bjo_69ba06944b6d34fa_decl"⟩ ∧
      ∃! shape, books.HasShape (.record "Invoice") shape ∧
        books.HasShape (.record "Receipt") shape := by
  have hempty : (Session.table {}).WellFormed := RuleTable.wellFormed_empty
  have hwf := (Session.compile_grows {} books "Invoice" { allowRecursion := false }).wellFormed
    hempty
  obtain ⟨hstart, hstart', hlog⟩ := books_compiled
  have hfirst := eq_mk_of_fst hstart
  have hsecond := eq_mk_of_fst hstart'
  have hinvoice : books.Acyclic "Invoice" :=
    acyclic_of_outcome rfl (Session.compile_eq_ok rfl hempty hfirst).1
  have hreceipt : books.Acyclic "Receipt" :=
    acyclic_of_outcome rfl (Session.compile_eq_ok rfl hwf hsecond).1
  obtain ⟨⟨a, ha, hunique⟩, ⟨b, hb, -⟩, hiff⟩ := compile_start_eq_iff rfl rfl hempty hwf
    hfirst hsecond hinvoice hreceipt (books_namesClear _) (books_namesClear _) hlog
  obtain rfl := (hiff a b ha hb).1 rfl
  exact ⟨hstart, hstart', a, ⟨ha, hb⟩, fun shape hshape => hunique shape hshape.1⟩

end Compile

end RecordGrammar
