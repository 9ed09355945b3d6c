import Chalkboard.Memory.Cell

/-! # Environments

Global memory, the frames of the subroutines that are being called, and the declared types and
subroutines. A name means what the innermost frame says, and else what global memory says; the
frames in between are out of sight.
-/

namespace Chalkboard

structure Environment where
  globals : Frame
  /-- The frames of the active calls, the innermost first. -/
  frames : List Frame
  types : Dict RecordType
  subroutines : Dict Subroutine

namespace Environment

def empty : Environment := ⟨.empty, [], .empty, .empty⟩

def declareType (env : Environment) (t : RecordType) : Environment :=
  { env with types := env.types.insert (key t.name) t }

def declareSubroutine (env : Environment) (s : Subroutine) : Environment :=
  { env with subroutines := env.subroutines.insert (key s.name) s }

/-- Empty memory with the declarations of a program; of several with one name the last counts. -/
def ofProgram (p : Program) : Environment :=
  p.subroutines.foldl declareSubroutine (p.recordTypes.foldl declareType empty)

def type? (env : Environment) (name : String) : Option RecordType := env.types.get? (key name)

def subroutine? (env : Environment) (name : String) : Option Subroutine :=
  env.subroutines.get? (key name)

/-- A new cell of the named type: a record if it is a record type, a variable otherwise. -/
def newCell (env : Environment) (type : String) : Cell :=
  match env.type? type with
  | some t => .ofRecordType t
  | none => .scalar type (.default type)

def depth (env : Environment) : Nat := env.frames.length

def current (env : Environment) : Frame := env.frames.head?.getD env.globals

def setCurrent (env : Environment) (frame : Frame) : Environment :=
  match env.frames with
  | [] => { env with globals := frame }
  | _ :: frames => { env with frames := frame :: frames }

def bind (env : Environment) (name : String) (cell : Cell) : Environment :=
  env.setCurrent (env.current.insert (key name) cell)

def push (env : Environment) (frame : Frame) : Environment :=
  { env with frames := frame :: env.frames }

def pop (env : Environment) : Environment :=
  { env with frames := env.frames.tail }

def lookup? (env : Environment) (name : String) : Option Cell :=
  match env.frames.head?.bind (·.get? (key name)) with
  | some cell => some cell
  | none => env.globals.get? (key name)

def update (env : Environment) (name : String) (f : Cell → Cell) : Environment :=
  match env.frames with
  | [] => { env with globals := env.globals.modify (key name) f }
  | frame :: frames =>
    if frame.contains (key name) then { env with frames := frame.modify (key name) f :: frames }
    else { env with globals := env.globals.modify (key name) f }

end Environment

end Chalkboard
