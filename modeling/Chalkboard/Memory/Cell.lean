import Chalkboard.Memory.ArrayStore
import Chalkboard.Memory.Dict
import Chalkboard.Program

/-! # Cells and frames

A cell is what a name stands for: a declared type, whether it is a constant, and what it holds,
which is a single value, an array, or a record with cells of its own. A frame holds the cells of one
scope under upper-case names.
-/

namespace Chalkboard

/-- The form under which a name is known, so that letter case does not matter. -/
def key (name : String) : String := Text.upper name

mutual

inductive Storage where
  | scalar (value : Value)
  | array (store : ArrayStore)
  | record (fields : Dict Cell)

structure Cell where
  type : String
  isConstant : Bool
  storage : Storage

end

abbrev Frame := Dict Cell

inductive Shape where
  | scalar
  | array
  | record
deriving DecidableEq

def Shape.text : Shape → String
  | scalar => "a scalar"
  | array => "an array"
  | record => "a record"

namespace Storage

def shape : Storage → Shape
  | scalar _ => .scalar
  | array _ => .array
  | record _ => .record

def scalarValue? : Storage → Option Value
  | scalar v => some v
  | _ => none

end Storage

namespace Cell

def scalar (type : String) (v : Value) : Cell := ⟨type, false, .scalar v⟩

def constant (v : Value) : Cell := ⟨"CONSTANT", true, .scalar v⟩

def array (store : ArrayStore) : Cell := ⟨"ARRAY", false, .array store⟩

def ofRecordType (t : RecordType) : Cell :=
  ⟨t.name, false, .record (.ofList (t.fields.map fun f =>
    (key f.name, scalar f.type (.default f.type))))⟩

def shape (cell : Cell) : Shape := cell.storage.shape

def scalarValue? (cell : Cell) : Option Value := cell.storage.scalarValue?

/-- Make the cell hold one value, and keep its type and whether it is a constant. -/
def setScalar (v : Value) (cell : Cell) : Cell := { cell with storage := .scalar v }

def setElement (i : Int) (v : Value) (cell : Cell) : Cell :=
  match cell.storage with
  | .array store => { cell with storage := .array (store.set i v) }
  | _ => cell

def setField (field : String) (v : Value) (cell : Cell) : Cell :=
  match cell.storage with
  | .record fields => { cell with storage := .record (fields.modify (key field) (setScalar v)) }
  | _ => cell

end Cell

end Chalkboard
