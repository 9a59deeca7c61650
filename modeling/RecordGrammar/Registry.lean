import RecordGrammar.SchemaError
import Std.Data.ExtTreeMap

/-! # Records by name, and the factories attached to them -/

namespace RecordGrammar

/-- How a record is compiled and decoded where it is not written inline.

* `json`: as a JSON object of its visible fields.
* `fixed`: the text `x`, and any value is read as that string.
* `nullable`: null or the object one level deeper.
* `masked`: a string of the mask; any string is read.
* `boxed`: an array of one item, an object of another record.
* `plain`: a new rule each time, for the name and the depth limit. -/
inductive Factory where
  | json
  | fixed
  | nullable
  | masked (mask : String)
  | boxed (inner : String)
  | plain
  deriving DecidableEq, Repr

def BuiltinFactory.factory : BuiltinFactory → Factory
  | .json => .json

structure Registry where
  records : Std.ExtTreeMap String RecordSchema := ∅
  /-- Factories of records that exist or may yet exist. -/
  factories : Std.ExtTreeMap String Factory := ∅
  deriving DecidableEq

namespace Registry

def record (r : Registry) (name : String) : Except SchemaError RecordSchema :=
  (r.records[name]?).elim (.error (.unknownRecord name)) .ok

theorem record_eq_ok_iff {r : Registry} {name : String} {definition : RecordSchema} :
    r.record name = .ok definition ↔ r.records[name]? = some definition := by
  unfold record
  cases r.records[name]? <;> simp

theorem mem_records {r : Registry} {name : String} {definition : RecordSchema}
    (h : r.record name = .ok definition) : name ∈ r.records := by
  rw [← Std.ExtTreeMap.isSome_getElem?_iff_mem, record_eq_ok_iff.1 h]
  rfl

def attach (r : Registry) (name : String) (factory : Factory) : Registry :=
  { r with factories := r.factories.insert name factory }

/-- The factory of a record. One attached to it wins over the one named in its definition. -/
def factory? (r : Registry) (name : String) : Option Factory :=
  r.factories[name]? <|> (r.records[name]?.bind RecordSchema.factory).map BuiltinFactory.factory

def factoryOrJson (r : Registry) (name : String) : Factory := (r.factory? name).getD .json

/-- The same records without the factories named in their definitions. -/
def withoutMarkers (r : Registry) : Registry :=
  { r with records := r.records.map fun _ definition => { definition with factory := none } }

end Registry

end RecordGrammar
