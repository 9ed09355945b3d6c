import Chalkboard.Parser.Stmt

/-! # Reading programs

A program is read item by item until the tokens run out. The first token that does not fit is
reported with its line, and the end of the text if it ends too early.
-/

namespace Chalkboard

namespace Parser

/-- A parameter, which may be marked as passed by reference or by value. -/
def param : Parser Param := do
  let byRef ← acceptKeyword .BYREF
  unless byRef do
    let _ ← acceptKeyword .BYVAL
  let s ← name
  symbol .colon
  return ⟨s, ← typeName, byRef⟩

def params : Parser (List Param) := do
  if ← acceptSymbol .leftParen then
    let params ← if ← atSymbol .rightParen then pure [] else commaList param
    symbol .rightParen
    pure params
  else pure []

/-- `DECLARE a, b : type` inside a record type. -/
def fieldDecls : Parser (List FieldDecl) := do
  unless ← acceptKeyword .DECLARE do
    stuck .expectedField
  let names ← commaList name
  symbol .colon
  let type ← typeName
  pure (names.map fun s => ⟨s, type⟩)

def recordType : Parser RecordType := do
  keyword .TYPE
  let s ← name
  let fields ← manyWhile (isOpen [.ENDTYPE]) fieldDecls
  keyword .ENDTYPE
  pure ⟨s, fields.flatten⟩

variable (limit : Nat)

def procedure : Parser Subroutine := do
  keyword .PROCEDURE
  let s ← name
  let ps ← params
  let body ← block limit limit [.ENDPROCEDURE]
  keyword .ENDPROCEDURE
  pure ⟨s, ps, none, body⟩

def function : Parser Subroutine := do
  keyword .FUNCTION
  let s ← name
  let ps ← params
  keyword .RETURNS
  let type ← typeName
  let body ← block limit limit [.ENDFUNCTION]
  keyword .ENDFUNCTION
  pure ⟨s, ps, some type, body⟩

def item : Parser Item := do
  match ← peek with
  | some (.keyword .PROCEDURE) => return .subroutine (← procedure limit)
  | some (.keyword .FUNCTION) => return .subroutine (← function limit)
  | some (.keyword .TYPE) => return .recordType (← recordType)
  | _ => return .statement (← statement limit limit)

def program : Parser Program := do
  return ⟨← manyWhile (!·.isEmpty) (item limit)⟩

end Parser

structure ParseError where
  cause : Parser.Cause
  line : Option Nat
  span : Span

def ParseError.ofStuck (sourceSize : Nat) (s : Parser.Stuck) : ParseError :=
  match s.rest with
  | [] => ⟨s.cause, none, ⟨sourceSize, sourceSize⟩⟩
  | t :: _ => ⟨s.cause, some t.line, t.span⟩

/-- Run a parser on the tokens of a text of so many bytes, and ignore the tokens it leaves. -/
def Parser.parse {α : Type} (p : Parser α) (sourceSize : Nat) (ts : List Located) :
    Except ParseError α :=
  match p ts with
  | .ok (a, _) => .ok a
  | .error s => .error (.ofStuck sourceSize s)

def Program.parse (sourceSize : Nat) (ts : List Located) : Except ParseError Program :=
  (Parser.program Parser.nestingLimit).parse sourceSize ts

/-- The expression at the beginning of the tokens. -/
def Expr.parse (sourceSize : Nat) (ts : List Located) : Except ParseError Expr :=
  (Parser.expression Parser.nestingLimit Parser.nestingLimit).parse sourceSize ts

end Chalkboard
