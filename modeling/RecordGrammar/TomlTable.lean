import RecordGrammar.DocumentNode

/-! # The tables of a TOML document while it is read

What may still be added to a table depends on how it came about. -/

namespace RecordGrammar

/-- A table has a header of its own, lies on the path of another header, or lies on the path of a
dotted key. -/
inductive TableOrigin where
  | header
  | onPath
  | dotted
  deriving DecidableEq, Repr

/-- An entry is a closed value, a table, or the tables that headers have put into an array. -/
inductive TableEntry where
  | value (node : Node)
  | table (origin : TableOrigin) (entries : List (String × TableEntry))
  | tables (elements : List (List (String × TableEntry)))
  deriving Repr

/-- A key of one part at least. -/
structure KeyPath where
  parents : List String
  name : String
  deriving DecidableEq, Repr

abbrev TableEntries := List (String × TableEntry)

namespace TableEntries

/-- Replaces the entry of a key, or adds one, unless the change refuses what it finds. -/
def change (key : String) (update : Option TableEntry → Option TableEntry) :
    TableEntries → Option TableEntries
  | [] => (update none).map fun entry => [(key, entry)]
  | (k, entry) :: rest =>
    if k = key then (update (some entry)).map fun entry => (k, entry) :: rest
    else (change key update rest).map ((k, entry) :: ·)

/-- Changes the table at the end of a path, making the tables on it that are not yet there. In an
array it takes the last table. A dotted key does not enter a table that has a header. -/
def descend (way : TableOrigin) (update : TableOrigin → TableEntries → Option TableEntries) :
    List String → TableOrigin → TableEntries → Option TableEntries
  | [], origin, entries => update origin entries
  | key :: path, _, entries => entries.change key fun
    | none => (descend way update path way []).map (.table way)
    | some (.value _) => none
    | some (.table origin inner) =>
      if way = .dotted ∧ origin = .header then none
      else (descend way update path origin inner).map (.table origin)
    | some (.tables elements) =>
      match elements.getLast? with
      | some last => (descend way update path .header last).map fun last =>
        .tables (elements.dropLast ++ [last])
      | none => none

/-- Adds an entry that is not yet there. -/
def add (key : String) (entry : TableEntry) (entries : TableEntries) : Option TableEntries :=
  entries.change key fun
    | none => some entry
    | some _ => none

/-- Gives a key a value. The table that a dotted key ends in is one that dotted keys made. -/
def assign (key : KeyPath) (node : Node) : TableEntries → Option TableEntries :=
  descend .dotted (fun origin entries =>
    if key.parents.isEmpty ∨ origin = .dotted then entries.add key.name (.value node) else none)
    key.parents .header

/-- Opens a table under its header, which only a table on the path of others may have had. -/
def openTable (key : KeyPath) : TableEntries → Option TableEntries :=
  descend .onPath (fun _ entries => entries.change key.name fun
    | none => some (.table .header [])
    | some (.table .onPath inner) => some (.table .header inner)
    | some _ => none) key.parents .header

/-- Opens one more table in an array of tables. -/
def openElement (key : KeyPath) : TableEntries → Option TableEntries :=
  descend .onPath (fun _ entries => entries.change key.name fun
    | none => some (.tables [[]])
    | some (.tables elements) => some (.tables (elements ++ [[]]))
    | some _ => none) key.parents .header

/-- Gives a key a value in the table that was opened last. -/
def assignAt (opened : List String) (key : KeyPath) (node : Node) :
    TableEntries → Option TableEntries :=
  descend .onPath (fun _ entries => entries.assign key node) opened .header

end TableEntries

mutual

def TableEntry.toNode : TableEntry → Node
  | .value node => node
  | .table _ entries => .mapping (entriesToNodes entries)
  | .tables elements => .sequence (elementsToNodes elements)

def entriesToNodes : List (String × TableEntry) → List (String × Node)
  | [] => []
  | (key, entry) :: rest => (key, entry.toNode) :: entriesToNodes rest

def elementsToNodes : List (List (String × TableEntry)) → List Node
  | [] => []
  | entries :: rest => .mapping (entriesToNodes entries) :: elementsToNodes rest

end

def TableEntries.toNode (entries : TableEntries) : Node := .mapping (entriesToNodes entries)

end RecordGrammar
