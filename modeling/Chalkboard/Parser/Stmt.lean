import Chalkboard.Parser.Expr

/-! # Reading statements

A statement ends where the next one begins; nothing separates them. A block runs up to its closing
word and takes one nesting level. The statement of a `CASE` clause takes none, so the recursion into
clauses runs on the tokens instead.
-/

namespace Chalkboard.Parser

section

variable (expression : Parser Expr)

/-- `DECLARE a, b : type`, or of an array with its bounds. -/
def declaration : Parser Stmt := do
  keyword .DECLARE
  let names ← commaList name
  symbol .colon
  if ← acceptKeyword .ARRAY then
    symbol .leftBracket
    let lower ← expression
    symbol .colon
    let upper ← expression
    symbol .rightBracket
    keyword .OF
    return .declareArray names lower upper (← typeName)
  else
    return .declare names (← typeName)

def constant : Parser Stmt := do
  keyword .CONSTANT
  let s ← name
  symbol .assign
  return .constant s (← expression)

def assignment : Parser Stmt := do
  let s ← name
  symbol .assign
  return .assign s none (← expression)

def fieldAssignment : Parser Stmt := do
  let s ← name
  symbol .dot
  let field ← name
  symbol .assign
  return .assign s (some field) (← expression)

def elementAssignment : Parser Stmt := do
  let s ← name
  symbol .leftBracket
  let index ← expression
  symbol .rightBracket
  symbol .assign
  return .assignElement s index (← expression)

def invocation : Parser Stmt := do
  let s ← name
  let args ← if ← atSymbol .leftParen then arguments expression else pure []
  pure (.call s args)

/-- What a name begins: an assignment, as the token after it tells, or a call. -/
def namedStatement : Parser Stmt := do
  match ← peekSecond with
  | some (.symbol .assign) => assignment expression
  | some (.symbol .leftBracket) => elementAssignment expression
  | some (.symbol .dot) => fieldAssignment expression
  | _ => invocation expression

def output : Parser Stmt := do
  keyword .OUTPUT
  return .output (← commaList expression)

variable (block : List Keyword → Parser (List Stmt))

def conditional : Parser Stmt := do
  keyword .IF
  let condition ← expression
  keyword .THEN
  let yes ← block [.ELSE, .ENDIF]
  let no ← if ← acceptKeyword .ELSE then block [.ENDIF] else pure []
  keyword .ENDIF
  pure (.ifElse condition yes no)

def whileLoop : Parser Stmt := do
  keyword .WHILE
  let condition ← expression
  keyword .DO
  let body ← block [.ENDWHILE]
  keyword .ENDWHILE
  pure (.whileDo condition body)

def repeatLoop : Parser Stmt := do
  keyword .REPEAT
  let body ← block [.UNTIL]
  keyword .UNTIL
  return .repeatUntil body (← expression)

/-- After `NEXT`, take a name if it stands on the same line. -/
def counterAfterNext (line : Option Nat) : Parser Unit := do
  match ← peek with
  | some (.name _) => if (← peekLine) = line then skip
  | _ => pure ()

def forLoop : Parser Stmt := do
  keyword .FOR
  let counter ← name
  symbol .assign
  let start ← expression
  keyword .TO
  let stop ← expression
  let step ← if ← acceptKeyword .STEP then expression else pure (.literal (.number 1.0))
  let body ← block [.NEXT]
  let line ← peekLine
  keyword .NEXT
  counterAfterNext line
  pure (.forTo counter start stop step body)

def clause (statement : Parser Stmt) : Parser (Expr × Stmt) := do
  let value ← expression
  symbol .colon
  return (value, ← statement)

def selection (statement : Parser Stmt) : Parser Stmt := do
  keyword .CASE
  keyword .OF
  let subject ← name
  let clauses ← manyWhile (isOpen [.OTHERWISE, .ENDCASE]) (clause expression statement)
  let otherwise ← if ← acceptKeyword .OTHERWISE then block [.ENDCASE] else pure []
  keyword .ENDCASE
  pure (.caseOf subject clauses otherwise)

def statementWith (inner : Parser Stmt) : Parser Stmt := do
  match ← peek with
  | none => stuck .expectedStatement
  | some (.keyword .DECLARE) => declaration expression
  | some (.keyword .CONSTANT) => constant expression
  | some (.keyword .OUTPUT) => output expression
  | some (.keyword .INPUT) =>
    skip
    return .input (← name)
  | some (.keyword .IF) => conditional expression block
  | some (.keyword .WHILE) => whileLoop expression block
  | some (.keyword .REPEAT) => repeatLoop expression block
  | some (.keyword .FOR) => forLoop expression block
  | some (.keyword .CASE) => selection expression block inner
  | some (.keyword .CALL) =>
    skip
    invocation expression
  | some (.keyword .RETURN) =>
    skip
    return .giveBack (← expression)
  | some (.keyword k) => stuck (.unexpectedKeyword k)
  | some (.name _) => namedStatement expression
  | some t => stuck (.unexpectedToken t)

/-- A statement of at most as many tokens as there are in `bound`. -/
def statementUpTo (bound : List Located) : Parser Stmt :=
  match bound with
  | [] => stuck .expectedStatement
  | _ :: bound => statementWith expression block (statementUpTo bound)

end

variable (limit : Nat)

def statement : Nat → Parser Stmt
  | 0 => fun ts =>
    statementUpTo (expression limit 0) (fun _ => stuck (.tooDeep limit)) ts ts
  | d + 1 => fun ts =>
    statementUpTo (expression limit (d + 1))
      (fun closers => manyWhile (isOpen closers) (statement d)) ts ts

def block (d : Nat) (closers : List Keyword) : Parser (List Stmt) :=
  match d with
  | 0 => stuck (.tooDeep limit)
  | d + 1 => manyWhile (isOpen closers) (statement limit d)

end Chalkboard.Parser
