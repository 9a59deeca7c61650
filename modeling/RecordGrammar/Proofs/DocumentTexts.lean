import RecordGrammar.Proofs.ReencodedPayloads
import RecordGrammar.Proofs.ValueTexts
import RecordGrammar.SchemaLoading

/-! # A schema document is read back from its text

The reader of each part of a document undoes its writer: the mapping of a structure names each
member once, an alternative is told by its name, a list without an element by its null, and a
literal by what kind of scalar it is. So the reader of a whole document undoes the writer of it, and
the JSON reader gives the tree that was written. -/

namespace RecordGrammar

namespace SchemaReader

theorem mapM_map_some {α β γ : Type} {f : β → Option γ} {g : α → β} {k : α → γ} {as : List α}
    (h : ∀ a ∈ as, f (g a) = some (k a)) : (as.map g).mapM f = some (as.map k) := by
  induction as with
  | nil => rfl
  | cons a as ih =>
    obtain ⟨hfirst, hrest⟩ := List.forall_mem_cons.1 h
    rw [List.map_cons, List.mapM_cons, hfirst, ih hrest]
    rfl

theorem filter_key {entries : List (String × Node)} (h : (entries.map Prod.fst).Nodup) :
    ∀ e ∈ entries, entries.filter (·.1 == e.1) = [e] := by
  induction entries with
  | nil => simp
  | cons first rest ih =>
    rw [List.map_cons, List.nodup_cons] at h
    refine List.forall_mem_cons.2 ⟨?_, fun e he => ?_⟩
    · have hnone : rest.filter (·.1 == first.1) = [] :=
        List.filter_eq_nil_iff.2 fun e he hkey => h.1 (List.mem_map.2 ⟨e, he, by simpa using hkey⟩)
      rw [List.filter_cons_of_pos (by simp), hnone]
    · have hother : first.1 ≠ e.1 := fun hkey => h.1 (List.mem_map.2 ⟨e, he, hkey.symm⟩)
      rw [List.filter_cons_of_neg (by simpa using hother), ih h.2 e he]

/-- A mapping that has each member once has them all. -/
theorem members?_mapping {kind : DocumentKind} {names : List String}
    {entries : List (String × Node)} (hnames : names.Nodup) (h : entries.map Prod.fst = names) :
    members? kind names (.mapping entries) = some (entries.map fun e => some e.2) := by
  subst h
  rw [members?]
  refine mapM_map_some fun e he => ?_
  rw [filter_key hnames e he]

theorem literal?_toNode (l : Literal) : literal? l.toJson.toNode = some l := by
  cases l with
  | bool b => rfl
  | int n =>
    show (int64? n.toInt).map Literal.int = _
    rw [int64?_toInt, Option.map_some]
  | string s => rfl

/-- No type is written as null, which stands for an element left open. -/
theorem isUnit_type (t : FieldType) : isUnit .json (SchemaWriter.type t).toNode = false := by
  cases t <;> rfl

mutual

theorem type?_toNode : (t : FieldType) → type? .json (SchemaWriter.type t).toNode = some t
  | .int => rfl
  | .float => rfl
  | .string => rfl
  | .bool => rfl
  | .variadic => rfl
  | .unknownList => rfl
  | .list element => by
    show (if _ ∧ isUnit .json (SchemaWriter.type element).toNode = true then _ else
      (type? .json (SchemaWriter.type element).toNode).map FieldType.list) = _
    rw [isUnit_type, type?_toNode element]
    rfl
  | .tuple items => by
    show (types? .json (Json.itemsToNodes (SchemaWriter.types items))).map FieldType.tuple = _
    rw [types?_toNodes items, Option.map_some]
  | .literal value => by
    show (literal? value.toJson.toNode).map FieldType.literal = _
    rw [literal?_toNode, Option.map_some]
  | .union members => by
    show (types? .json (Json.itemsToNodes (SchemaWriter.types members))).map FieldType.union = _
    rw [types?_toNodes members, Option.map_some]
  | .record _ => rfl

theorem types?_toNodes : (types : List FieldType) →
    types? .json (Json.itemsToNodes (SchemaWriter.types types)) = some types
  | [] => rfl
  | t :: rest => by
    rw [SchemaWriter.types, Json.itemsToNodes, types?, type?_toNode t, types?_toNodes rest]
    rfl

end

@[simp] theorem default?_some {α : Type} (otherwise : α) (read : Node → Option α) (node : Node) :
    default? otherwise read (some node) = read node := rfl

theorem nullable?_toNode {α : Type} {read : Node → Option α} {write : α → Json}
    (hread : ∀ a, read (write a).toNode = some a) (hnull : ∀ a, (write a).toNode ≠ .null)
    (o : Option α) : nullable? read (o.elim .null write).toNode = some o := by
  cases o with
  | none => rfl
  | some a =>
    show nullable? read (write a).toNode = _
    rw [nullable?, hread, Option.map_some]
    exact hnull a

theorem format?_toNode (f : FieldFormat) :
    format? .json (SchemaWriter.format f).toNode = some f := by
  cases f <;> rfl

theorem factory?_toNode (f : BuiltinFactory) :
    factory? .json (SchemaWriter.factory f).toNode = some f := by
  cases f
  rfl

theorem field?_toNode (f : Field) : field? .json (SchemaWriter.field f).toNode = some f := by
  have hmembers : members? .json ["name", "type", "derived", "format"]
      (SchemaWriter.field f).toNode =
        some [some (.string f.name), some (SchemaWriter.type f.type).toNode,
          some (.bool f.derived), some (f.format.elim .null SchemaWriter.format).toNode] :=
    members?_mapping (by decide) rfl
  have hformat := nullable?_toNode format?_toNode
    (fun f => by cases f <;> simp [SchemaWriter.format, Json.toNode]) f.format
  rw [field?, hmembers]
  simp [string?, type?_toNode, bool?, hformat]

theorem record?_toNode (r : RecordSchema) :
    record? .json (SchemaWriter.record r).toNode = some r := by
  have hmembers : members? .json ["fields", "factory"] (SchemaWriter.record r).toNode =
      some [some (.sequence (Json.itemsToNodes (r.fields.map SchemaWriter.field))),
        some (r.factory.elim .null SchemaWriter.factory).toNode] :=
    members?_mapping (by decide) rfl
  have hfields : (Json.itemsToNodes (r.fields.map SchemaWriter.field)).mapM (field? .json) =
      some r.fields := by
    rw [Json.itemsToNodes_eq, List.map_map]
    exact (mapM_map_some fun f _ => field?_toNode f).trans (congrArg some (List.map_id _))
  have hfactory := nullable?_toNode factory?_toNode
    (fun f => by cases f; simp [SchemaWriter.factory, Json.toNode]) r.factory
  rw [record?, hmembers]
  simp [items?, hfields, hfactory]

theorem size?_natCast {n : Nat} (h : n < UInt64.size) : size? (.int n) = some n := by
  rw [size?, if_pos ⟨Int.natCast_nonneg n, Int.ofNat_lt.2 h⟩, Int.toNat_natCast]

theorem options?_toNode {o : SchemaOptions} (h : o.maxDepth < UInt64.size) :
    options? .json (SchemaWriter.options o).toNode = some o := by
  have hmembers : members? .json ["prefix", "allow_recursion", "max_depth"]
      (SchemaWriter.options o).toNode =
        some [some (.string o.stem), some (.bool o.allowRecursion), some (.int o.maxDepth)] :=
    members?_mapping (by decide) rfl
  rw [options?, hmembers, Option.bind_eq_bind, Option.bind_some]
  dsimp only
  rw [default?_some, default?_some, default?_some, size?_natCast h]
  rfl

/-- A map is made again of the entries that are listed of it. -/
theorem foldl_insert_toList (records : Std.ExtTreeMap String RecordSchema) :
    records.toList.foldl (fun records d => records.insert d.1 d.2) ∅ = records := by
  rw [← Std.ExtTreeMap.insertMany_list_eq_foldl]
  refine Std.ExtTreeMap.ext_getElem? fun name => ?_
  cases hname : records[name]? with
  | some definition =>
    exact Std.ExtTreeMap.getElem?_insertMany_list_of_mem Std.ReflCmp.compare_self
      Std.ExtTreeMap.distinct_keys_toList
      (Std.ExtTreeMap.mem_toList_iff_getElem?_eq_some.2 hname)
  | none =>
    have hother : (records.toList.map Prod.fst).contains name = false := by
      simpa [Std.ExtTreeMap.mem_toList_iff_getElem?_eq_some] using hname
    rw [Std.ExtTreeMap.getElem?_insertMany_list_of_contains_eq_false hother]
    exact Std.ExtTreeMap.getElem?_empty

theorem records?_toNode (records : Std.ExtTreeMap String RecordSchema) :
    records? .json (.mapping (Json.membersToNodes
      (records.toList.map fun r => (r.1, SchemaWriter.record r.2)))) = some records := by
  have hentries : (Json.membersToNodes
      (records.toList.map fun r => (r.1, SchemaWriter.record r.2))).mapM
        (fun e => (record? .json e.2).map (e.1, ·)) = some records.toList := by
    rw [Json.membersToNodes_eq, List.map_map]
    refine (mapM_map_some fun r _ => ?_).trans (congrArg some (List.map_id _))
    simp [record?_toNode]
  rw [records?, hentries]
  exact congrArg some (foldl_insert_toList records)

theorem document?_toNode {document : SchemaDocument}
    (h : document.options.maxDepth < UInt64.size) :
    document? .json document.toJson.toNode = some document := by
  have hmembers : members? .json ["root", "options", "records"] document.toJson.toNode =
      some [some (.string document.root), some (SchemaWriter.options document.options).toNode,
        some (.mapping (Json.membersToNodes
          (document.records.toList.map fun r => (r.1, SchemaWriter.record r.2))))] :=
    members?_mapping (by decide) rfl
  rw [document?, hmembers, Option.bind_eq_bind, Option.bind_some]
  dsimp only
  rw [default?_some, default?_some, options?_toNode h, records?_toNode]
  rfl

end SchemaReader

namespace SchemaWriter

theorem literal_readsBack (l : Literal) : l.toJson.NumbersReadBack := by
  cases l with
  | bool b => trivial
  | int k => exact Json.ofText?_integer (int64_fits k)
  | string s => trivial

mutual

theorem type_readsBack : (t : FieldType) → (type t).NumbersReadBack
  | .int => trivial
  | .float => trivial
  | .string => trivial
  | .bool => trivial
  | .variadic => trivial
  | .unknownList => ⟨trivial, trivial⟩
  | .list element => ⟨type_readsBack element, trivial⟩
  | .tuple items => ⟨types_readBack items, trivial⟩
  | .literal value => ⟨literal_readsBack value, trivial⟩
  | .union members => ⟨types_readBack members, trivial⟩
  | .record _ => ⟨trivial, trivial⟩

theorem types_readBack : (ts : List FieldType) → Json.ItemsReadBack (types ts)
  | [] => trivial
  | t :: rest => ⟨type_readsBack t, types_readBack rest⟩

end

theorem field_readsBack (f : Field) : (field f).NumbersReadBack := by
  refine ⟨trivial, type_readsBack f.type, trivial, ?_, trivial⟩
  rcases f.format with _ | _ | _ <;> simp [format, Json.NumbersReadBack, Json.MembersReadBack]

theorem record_readsBack (r : RecordSchema) : (record r).NumbersReadBack := by
  have hfactory : (r.factory.elim .null factory).NumbersReadBack := by
    rcases r.factory with _ | _ <;> trivial
  exact ⟨Json.itemsReadBack_iff.2 (List.forall_mem_map.2 fun f _ => field_readsBack f), hfactory,
    trivial⟩

theorem options_readsBack {o : SchemaOptions} (h : o.maxDepth < 2 ^ 64) :
    (options o).NumbersReadBack :=
  ⟨trivial, trivial, Json.ofText?_integer (by omega), trivial⟩

/-- The numbers of a document are read back: the literals of its types, and its depth limit. -/
theorem document_readsBack {document : SchemaDocument} (h : document.options.maxDepth < 2 ^ 64) :
    document.toJson.NumbersReadBack :=
  ⟨trivial, options_readsBack h,
    Json.membersReadBack_iff.2 (List.forall_mem_map.2 fun r _ => record_readsBack r.2), trivial⟩

theorem field_nesting_le {f : Field} {n : Nat} (h : (type f.type).nesting ≤ n + 1) :
    (field f).nesting ≤ n + 2 := by
  have hformat : (f.format.elim .null format).nesting ≤ n + 1 := by
    rcases f.format with _ | _ | _ <;> simp [format, Json.nesting, Json.membersNesting]
  simp only [field, Json.nesting, Json.membersNesting]
  omega

theorem record_nesting_le {r : RecordSchema} {n : Nat}
    (h : ∀ f ∈ r.fields, (type f.type).nesting ≤ n + 1) : (record r).nesting ≤ n + 4 := by
  have hfields : Json.itemsNesting (r.fields.map field) ≤ n + 2 :=
    Json.itemsNesting_le_iff.2 (List.forall_mem_map.2 fun f hf => field_nesting_le (h f hf))
  have hfactory : (r.factory.elim .null factory).nesting = 0 := by
    rcases r.factory with _ | _ <;> rfl
  simp only [record, Json.nesting, Json.membersNesting]
  omega

/-- Around a type in a document five brackets are open. -/
theorem document_nesting_le {document : SchemaDocument} {n : Nat}
    (h : ∀ r ∈ document.records.toList, ∀ f ∈ r.2.fields, (type f.type).nesting ≤ n + 1) :
    document.toJson.nesting ≤ n + 6 := by
  have hrecords : Json.membersNesting
      (document.records.toList.map fun r => (r.1, record r.2)) ≤ n + 4 :=
    Json.membersNesting_le_iff.2 (List.forall_mem_map.2 fun r hr => record_nesting_le (h r hr))
  simp only [SchemaDocument.toJson, options, Json.nesting, Json.membersNesting]
  omega

end SchemaWriter

namespace SchemaDocument

/-- In any layout the text of a document is read as the document, its formats not yet checked. -/
theorem ofText?_layout {document : SchemaDocument} {write : Nat → Json → List Char}
    (hlayout : Json.IsLayout write) (hnesting : document.toJson.nesting ≤ 127)
    (hdepth : document.options.maxDepth < 2 ^ 64) {text : String}
    (htext : text.toList = write 0 document.toJson) : ofText? .json text = some document := by
  have hreads := hlayout.reads 0 document.toJson (SchemaWriter.document_readsBack hdepth)
  rw [← htext] at hreads
  rw [ofText?, hreads.ofJsonText? hnesting, Option.bind_some, ofNode?,
    SchemaReader.document?_toNode hdepth]

theorem parse_of_ofText? {document : SchemaDocument} {kind : DocumentKind} {text : String}
    (hread : ofText? kind text = some document) (hchecked : document.checkFormats = .ok ()) :
    parse kind text = .ok document := by
  rw [parse, hread]
  dsimp only
  rw [hchecked]

end SchemaDocument

/-- A schema document survives its JSON text, written without any space or over several lines.
Whatever its records, types and options are, it is loaded again if its formats are right, its depth
limit fits 64 bits, and no type nests deeper than the reader goes, where five brackets are open
before the type begins. -/
theorem SchemaDocument.parse_toJson {document : SchemaDocument}
    (hchecked : document.checkFormats = .ok ())
    (hnesting : ∀ r ∈ document.records.toList, ∀ f ∈ r.2.fields,
      (SchemaWriter.type f.type).nesting + 5 < 128)
    (hdepth : document.options.maxDepth < 2 ^ 64) :
    parse .json document.toJson.compact = .ok document ∧
      parse .json (document.toJson.indented 0) = .ok document := by
  have hbrackets : document.toJson.nesting ≤ 121 + 6 :=
    SchemaWriter.document_nesting_le fun r hr f hf => by
      have hf := hnesting r hr f hf
      omega
  exact ⟨parse_of_ofText? (ofText?_layout Json.compact_isLayout hbrackets hdepth rfl) hchecked,
    parse_of_ofText? (ofText?_layout Json.indented_isLayout hbrackets hdepth rfl) hchecked⟩

/-- A record whose name is not plain, with a list left open, a union of literals of all kinds and
of no types, and a depth limit that no signed integer is. -/
theorem sensor_document_read :
    let sensor : RecordSchema := {
      fields := [
        { name := "units", type := .list (.tuple []) },
        { name := "any", type := .unknownList, derived := true },
        { name := "mode", type := .union [.literal (.bool true), .literal (.int (-7)),
          .literal (.string "null"), .variadic, .union []] },
        { name := "at", type := .string, format := some (.time "%%:%%") },
        { name := "owner", type := .string, format := some .email },
        { name := "next", type := .record "Sensor\n" }]
      factory := some .json }
    let document : SchemaDocument := {
      root := "Sensor\n"
      options := { allowRecursion := false, maxDepth := 2 ^ 64 - 1 }
      records := (∅ : Std.ExtTreeMap String RecordSchema).insert "Sensor\n" sensor }
    SchemaDocument.parse .json document.toJson.compact = .ok document ∧
      SchemaDocument.parse .json (document.toJson.indented 0) = .ok document := by
  intro sensor document
  exact SchemaDocument.parse_toJson (by decide +kernel) (by decide +kernel) (by decide +kernel)

end RecordGrammar
