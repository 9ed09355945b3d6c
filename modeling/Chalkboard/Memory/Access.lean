import Chalkboard.Memory.Environment
import Chalkboard.RuntimeError

/-! # Reading and writing memory

Each access either does what it says or gives the error that stands in its way.
-/

namespace Chalkboard.Environment

variable (env : Environment)

def read (name : String) (field : Option String) : Except RuntimeError Value :=
  match env.lookup? name with
  | none => .error (.undeclared name)
  | some cell =>
    match field, cell.storage with
    | none, .scalar v => .ok v
    | none, _ => .error (.notScalar name cell.shape)
    | some field, .record fields =>
      match (fields.get? (key field)).bind Cell.scalarValue? with
      | some v => .ok v
      | none => .error (.noField name field)
    | some field, _ => .error (.noField name field)

def checkWritable (name : String) : Except RuntimeError Unit :=
  match env.lookup? name with
  | none => .error (.undeclared name)
  | some cell => if cell.isConstant then .error (.constantAssigned name) else .ok ()

def store (name : String) (field : Option String) (v : Value) : Except RuntimeError Environment :=
  match env.lookup? name with
  | none => .error (.undeclared name)
  | some cell =>
    if cell.isConstant then .error (.constantAssigned name)
    else match field, cell.storage with
      | none, .scalar _ => .ok (env.update name (.setScalar v))
      | none, _ => .error (.notScalar name cell.shape)
      | some field, .record fields =>
        match (fields.get? (key field)).bind Cell.scalarValue? with
        | some _ => .ok (env.update name (.setField field v))
        | none => .error (.noField name field)
      | some field, _ => .error (.noField name field)

def array (name : String) : Except RuntimeError ArrayStore :=
  match env.lookup? name with
  | none => .error (.undeclared name)
  | some cell =>
    match cell.storage with
    | .array store => .ok store
    | _ => .error (.notArray name)

def index (name : String) (v : Value) : Except RuntimeError Int :=
  match v.index? with
  | some i => .ok i
  | none => .error (.indexNotWhole name v.toText)

def readElement (name : String) (at_ : Value) : Except RuntimeError Value := do
  let store ← env.array name
  let i ← index name at_
  match store.get? i with
  | some v => .ok v
  | none => .error (.outOfBounds name i store.lower store.upper)

/-- Write an element. A name that is no array is left alone. -/
def storeElement (name : String) (i : Int) (v : Value) : Environment :=
  env.update name (.setElement i v)

def declare (names : List String) (type : String) : Environment :=
  names.foldl (fun env name =>
    if env.current.contains (key name) then env else env.bind name (env.newCell type)) env

def bound (name : String) (v : Value) : Except RuntimeError Int :=
  match v.index? with
  | some i => .ok i
  | none => .error (.boundNotWhole name v.toText)

/-- Declare arrays; names of the current frame keep what they have. Errors name the first array. -/
def declareArrays (names : List String) (lower upper : Value) (elementType : String) :
    Except RuntimeError Environment := do
  let first := names.headD ""
  let lower ← bound first lower
  let upper ← bound first upper
  if ArrayStore.maxSize ≤ ArrayStore.saturatingSub upper lower then
    .error (.tooManyElements first)
  else
    .ok (names.foldl (fun env name =>
      if env.current.contains (key name) then env
      else env.bind name (.array (.create lower upper elementType))) env)

/-- Declare a constant. One that is a constant already keeps its value. -/
def declareConstant (name : String) (v : Value) : Except RuntimeError Environment :=
  match env.current.get? (key name) with
  | none => .ok (env.bind name (.constant v))
  | some cell => if cell.isConstant then .ok env else .error (.alreadyVariable name)

/-- Make a name of the current frame the counter of a loop, whatever it was before. -/
def bindCounter (name : String) (v : Value) : Except RuntimeError Environment :=
  if (env.current.get? (key name)).any Cell.isConstant then .error (.constantAssigned name)
  else .ok (env.bind name (.scalar "INTEGER" v))

def readCounter (name : String) : Except RuntimeError Float :=
  match env.current.get? (key name) with
  | none => .error (.undeclared name)
  | some cell =>
    match cell.scalarValue? with
    | some v => .ok v.toNumber
    | none => .error (.notScalar name cell.shape)

def writeCounter (name : String) (x : Float) : Environment :=
  env.setCurrent (env.current.modify (key name) (.setScalar (.number x)))

/-- The frame of a call: every parameter holds its argument, or null if there are too few. -/
def ofArguments (params : List Param) (args : List Value) : Frame :=
  let values := args ++ List.replicate (params.length - args.length) .null
  .ofList ((params.zip values).map fun (param, v) => (key param.name, .scalar param.type v))

end Chalkboard.Environment
