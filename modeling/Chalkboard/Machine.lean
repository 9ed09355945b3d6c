import Chalkboard.Memory.Environment
import Chalkboard.RuntimeError

/-! # The machine

The state of a run: memory, the answers that are still to be read, a value on its way back to the
caller, and what has happened so far. A step that stops keeps the state in which it stopped.
-/

namespace Chalkboard

inductive Event where
  | asked (name : String)
  | printed (line : String)
  /-- A subroutine was entered; this is the environment with its frame. -/
  | entered (env : Environment)
  | completed (stmt : Stmt) (env : Environment)

structure Machine where
  env : Environment
  answers : List String
  /-- The value of a `RETURN` that is on its way out of its subroutine. -/
  returning : Option Value
  /-- What has happened, the latest first. -/
  history : List Event

/-- Why a run did not come to its end: an error, or a loop that went round too often. -/
inductive Stop where
  | error (e : RuntimeError)
  | unfinished

abbrev Exec := EStateM Stop Machine

namespace Machine

def start (answers : List String) : Machine := ⟨.empty, answers, none, []⟩

def load (p : Program) (m : Machine) : Machine :=
  { m with env := .ofProgram p, returning := none }

def events (m : Machine) : List Event := m.history.reverse

def record (e : Event) (m : Machine) : Machine := { m with history := e :: m.history }

def enter (frame : Frame) (m : Machine) : Machine :=
  record (.entered (m.env.push frame)) { m with env := m.env.push frame, returning := none }

def leave (caller m : Machine) : Machine :=
  { m with env := m.env.pop, returning := caller.returning }

end Machine

namespace Event

def printed? : Event → Option String
  | printed line => some line
  | _ => none

def asked? : Event → Option String
  | asked name => some name
  | _ => none

def completed? : Event → Option (Stmt × Environment)
  | completed stmt env => some (stmt, env)
  | _ => none

end Event

namespace Exec

variable {α : Type}

def fail (e : RuntimeError) : Exec α := throw (.error e)

def lift (r : Except RuntimeError α) : Exec α :=
  match r with
  | .ok a => pure a
  | .error e => fail e

def reading (f : Environment → Except RuntimeError α) : Exec α :=
  fun m => lift (f m.env) m

def changing (f : Environment → Except RuntimeError Environment) : Exec Unit :=
  fun m => match f m.env with
    | .ok env => .ok () { m with env := env }
    | .error e => .error (.error e) m

def print (line : String) : Exec Unit := modify (Machine.record (.printed line))

def ask (name : String) : Exec String :=
  fun m =>
    let m := m.record (.asked name)
    match m.answers with
    | answer :: answers => .ok answer { m with answers := answers }
    | [] => .error (.error (.noInput name)) m

/-- Run the work of a statement and record that it is completed. While a value is being returned,
nothing is done. -/
def completing (stmt : Stmt) (work : Exec Unit) : Exec Unit :=
  fun m =>
    if m.returning.isSome then .ok () m
    else match work m with
      | .ok () m => .ok () (m.record (.completed stmt m.env))
      | .error stop m => .error stop m

def iterate : Nat → Exec Bool → Exec Unit
  | 0, _ => throw .unfinished
  | n + 1, round => fun m =>
    match round m with
    | .ok true m => iterate n round m
    | .ok false m => .ok () m
    | .error stop m => .error stop m

/-- Run the body of a subroutine in a frame of its own and hand back what it returned. The frame is
left on every way out. -/
def activation (frame : Frame) (body : Exec Unit) : Exec Value :=
  fun m =>
    match body (m.enter frame) with
    | .ok () after => .ok (after.returning.getD .null) (m.leave after)
    | .error stop after => .error stop (m.leave after)

end Exec

end Chalkboard
