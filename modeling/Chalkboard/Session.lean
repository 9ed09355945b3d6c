import Chalkboard.Error
import Chalkboard.Machine.Run

/-! # Runs and sessions

A run of a program text, and a session of several runs and evaluations on one machine. Each run
begins with empty memory, but goes on with the answers that are left.
-/

namespace Chalkboard

namespace Machine

def memory (m : Machine) : Frame := m.env.globals

def outputOf (events : List Event) : List String := events.filterMap Event.printed?

def promptsOf (events : List Event) : List String := events.filterMap Event.asked?

def completedOf (events : List Event) : List (Stmt × Environment) :=
  events.filterMap Event.completed?

def output (m : Machine) : List String := outputOf m.events

def prompts (m : Machine) : List String := promptsOf m.events

/-- The statements that came to their end, each with global memory as it then was. -/
def trace (m : Machine) : List (Stmt × Frame) :=
  (completedOf m.events).map fun (stmt, env) => (stmt, env.globals)

/-- What has happened after an earlier state of the same machine. -/
def eventsSince (before m : Machine) : List Event :=
  (m.history.take (m.history.length - before.history.length)).reverse

end Machine

def Outcome.error? : Outcome → Option Error
  | failed e => some (.runtime e)
  | _ => none

def runSource (source : String) (answers : List String) : Except Error (Outcome × Machine) :=
  (Program.ofSource source).map fun p => (Machine.start answers).runProgram p

def outputOfSource (source : String) (answers : List String) : Except Error (List String) :=
  match runSource source answers with
  | .error e => .error e
  | .ok (outcome, m) =>
    match outcome.error? with
    | some e => .error e
    | none => .ok m.output

/-- A line of the talk between a program and its user. Without a user, nobody is asked. -/
def Event.spoken? (user : Bool) : Event → Option String
  | asked name => if user then some ("? " ++ name) else none
  | printed line => some ("> " ++ line)
  | entered .. | completed .. => none

def Machine.transcript (m : Machine) (user : Bool) : List String :=
  m.events.filterMap (Event.spoken? user)

namespace Session

inductive Step where
  | run (source : String)
  | evaluate (source : String)

structure Report where
  error : Option Error
  value : Option Value
  machine : Machine

def step (m : Machine) : Step → Report
  | .run source =>
    match Program.ofSource source with
    | .error e => ⟨some e, none, m⟩
    | .ok p =>
      let (outcome, m) := m.runProgram p
      ⟨outcome.error?, none, m⟩
  | .evaluate source =>
    match Expr.ofSource source with
    | .error e => ⟨some e, none, m⟩
    | .ok e =>
      match e.evaluate manyRounds m with
      | .ok v m => ⟨none, some v, m⟩
      | .error (.error e) m => ⟨some (.runtime e), none, m⟩
      | .error .unfinished m => ⟨none, none, m⟩

end Session

end Chalkboard
