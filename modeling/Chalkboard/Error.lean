import Chalkboard.Diagnostic
import Chalkboard.Parser.Program
import Chalkboard.RuntimeError
import Chalkboard.Token.Scanner

/-! # Errors

A program text can fail to scan, to parse or to run. Only a running program fails without a place in
the text.
-/

namespace Chalkboard

inductive Error where
  | stray (s : Stray)
  | parse (e : ParseError)
  | runtime (e : RuntimeError)

def Stray.message (s : Stray) : String :=
  let char := s.char
  let line := s.position.line
  let column := s.position.column
  s!"Unexpected symbol '{char}' at line {line}, column {column}"

def Stray.diagnostic (s : Stray) : Diagnostic where
  code := "E0001"
  message := s.message
  label := some ⟨s.span, "no token starts with this character"⟩
  notes := []

def ParseError.message (e : ParseError) : String :=
  match e.line with
  | some line => e.cause.message ++ " at line " ++ toString line
  | none => e.cause.message ++ " at end of input"

def ParseError.diagnostic (e : ParseError) : Diagnostic where
  code := "E0101"
  message := e.message
  label := some ⟨e.span, if e.line.isSome then "" else "input ends here"⟩
  notes := []

def RuntimeError.notes : RuntimeError → List Note
  | outOfBounds _ _ lower upper => [.note s!"valid indices are {lower} to {upper}"]
  | procedureInExpression name => [.help ("use `CALL " ++ name ++ "` as a statement instead")]
  | _ => []

def RuntimeError.diagnostic (e : RuntimeError) : Diagnostic where
  code := e.code
  message := e.message
  label := none
  notes := e.notes

namespace Error

def stage : Error → String
  | stray _ => "Syntax"
  | parse _ => "Parse"
  | runtime _ => "Runtime"

def message : Error → String
  | stray s => "Syntax error: " ++ s.message
  | parse e => "Parse error: " ++ e.message
  | runtime e => "Runtime error: " ++ e.message

def line : Error → Option Nat
  | stray s => some s.position.line
  | parse e => e.line
  | runtime _ => none

def diagnostic : Error → Diagnostic
  | stray s => s.diagnostic
  | parse e => e.diagnostic
  | runtime e => e.diagnostic

end Error

def Program.ofSource (source : String) : Except Error Program :=
  match scan source with
  | .error s => .error (.stray s)
  | .ok ts =>
    match Program.parse source.utf8ByteSize ts with
    | .error e => .error (.parse e)
    | .ok p => .ok p

/-- Read the expression that a text begins with. -/
def Expr.ofSource (source : String) : Except Error Expr :=
  match scan source with
  | .error s => .error (.stray s)
  | .ok ts =>
    match Expr.parse source.utf8ByteSize ts with
    | .error e => .error (.parse e)
    | .ok e => .ok e

end Chalkboard
