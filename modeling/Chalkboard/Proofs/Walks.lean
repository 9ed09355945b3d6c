import Chalkboard.Parser.Program

/-! # Reading with a cursor and a counter

The parser can also be told as a walk over the tokens: a cursor goes forward over a list that stays
as it is, a counter says how many levels are open, and loops and functions go on as they have to.
Nothing here ends by itself. A loop is given as many rounds as there are tokens, and functions may
only call each other so deep; a walk that would go on beyond that is endless.
-/

namespace Chalkboard

/-- All tokens of a text of so many bytes, how many of them are taken, and how many levels are
open. -/
structure Walker where
  tokens : List Located
  size : Nat
  taken : Nat
  depth : Nat

namespace Walker

/-- Before the first token. -/
def start (size : Nat) (tokens : List Located) : Walker := ⟨tokens, size, 0, 0⟩

def rest (w : Walker) : List Located := w.tokens.drop w.taken

def left (w : Walker) : Nat := w.rest.length

def levels (w : Walker) : Nat := Parser.nestingLimit - w.depth

def move (w : Walker) (k : Nat) : Walker := { w with taken := w.taken + k }

def errorHere (w : Walker) (cause : Parser.Cause) : ParseError :=
  ⟨cause, w.rest.head?.map Located.line, (w.rest.head?.map Located.span).getD ⟨w.size, w.size⟩⟩

end Walker

/-- Why a walk stops before its end. -/
inductive Halt where
  | refused (e : ParseError)
  | endless

abbrev Walk (α : Type) := EStateM Halt Walker α

namespace Walk

open Chalkboard.Parser (Cause startsWithSymbol startsWithKeyword isOpen typeKeywords nestingLimit
  unaryOp? binaryOp?)

/-! ## Single tokens -/

section

variable {α : Type}

def refuse (cause : Cause) : Walk α := fun w => .error (.refused (w.errorHere cause)) w

def endless : Walk α := fun w => .error .endless w

/-- The tokens that are not taken yet. -/
def here : Walk (List Located) := fun w => .ok w.rest w

/-- As many rounds as a loop may go. -/
def rounds : Walk Nat := fun w => .ok w.tokens.length w

def peek : Walk (Option Token) := return (← here).head?.map Located.token

def peekSecond : Walk (Option Token) := return (← here).tail.head?.map Located.token

def peekLine : Walk (Option Nat) := return (← here).head?.map Located.line

/-- Move the cursor over the next token, if there is one. -/
def advance : Walk Unit := fun w => .ok () (if w.taken < w.tokens.length then w.move 1 else w)

def atSymbol (s : Symbol) : Walk Bool := return startsWithSymbol s (← here)

def atKeyword (k : Keyword) : Walk Bool := return startsWithKeyword k (← here)

def acceptSymbol (s : Symbol) : Walk Bool := do
  if ← atSymbol s then
    advance
    pure true
  else pure false

def acceptKeyword (k : Keyword) : Walk Bool := do
  if ← atKeyword k then
    advance
    pure true
  else pure false

def symbol (s : Symbol) : Walk Unit := do
  if ← atSymbol s then advance else refuse (.expectedSymbol s)

def keyword (k : Keyword) : Walk Unit := do
  if ← atKeyword k then advance else refuse (.expectedKeyword k)

def name : Walk String := do
  match ← peek with
  | some (.name s) =>
    advance
    pure s
  | _ => refuse .expectedName

def typeName : Walk String := do
  match ← peek with
  | some (.name s) =>
    advance
    pure s
  | some (.keyword k) =>
    if k ∈ typeKeywords then
      advance
      pure k.text
    else refuse .expectedType
  | _ => refuse .expectedType

/-- Walk one level deeper, and come up again however the walk ends. -/
def nested (m : Walk α) : Walk α := fun w =>
  if nestingLimit ≤ w.depth then refuse (.tooDeep nestingLimit) w
  else match m { w with depth := w.depth + 1 } with
    | .ok a w => .ok a { w with depth := w.depth - 1 }
    | .error halt w => .error halt { w with depth := w.depth - 1 }

/-! ## Loops -/

def goWhile (goesOn : List Located → Bool) (m : Walk α) : Nat → Walk (List α)
  | 0 => do
    if goesOn (← here) then endless else pure []
  | rounds + 1 => do
    if goesOn (← here) then
      let a ← m
      let as ← goWhile goesOn m rounds
      pure (a :: as)
    else pure []

def manyWhile (goesOn : List Located → Bool) (m : Walk α) : Walk (List α) := do
  goWhile goesOn m (← rounds)

def goAfterComma (m : Walk α) : Nat → Walk (List α)
  | 0 => do
    if ← atSymbol .comma then endless else pure []
  | rounds + 1 => do
    if ← acceptSymbol .comma then
      let a ← m
      let as ← goAfterComma m rounds
      pure (a :: as)
    else pure []

/-- One item or more, with commas between them. The first one is a round of its own. -/
def commaList (m : Walk α) : Walk (List α) := do
  let a ← m
  let as ← goAfterComma m ((← rounds) - 1)
  pure (a :: as)

end

/-! ## Expressions -/

section

variable (expression : Walk Expr)

def arguments : Walk (List Expr) := do
  symbol .leftParen
  let args ← if ← atSymbol .rightParen then pure [] else commaList expression
  symbol .rightParen
  pure args

def named (s : String) : Walk Expr := do
  match ← peek with
  | some (.symbol .leftBracket) =>
    advance
    let index ← expression
    symbol .rightBracket
    pure (.element s index)
  | some (.symbol .leftParen) => return .call s (← arguments expression)
  | some (.symbol .dot) =>
    advance
    return .var s (some (← name))
  | _ => pure (.var s none)

def primary : Walk Expr := do
  match ← peek with
  | none => refuse .expectedExpression
  | some (.number x _) =>
    advance
    pure (.literal (.number x))
  | some (.text s) =>
    advance
    pure (.literal (.text s))
  | some (.keyword .TRUE) =>
    advance
    pure (.literal (.bool true))
  | some (.keyword .FALSE) =>
    advance
    pure (.literal (.bool false))
  | some (.symbol .leftParen) =>
    advance
    let e ← expression
    symbol .rightParen
    pure e
  | some (.name s) =>
    advance
    named expression s
  | some t => refuse (.unexpectedOperand t)

end

/-- The next operator, if it is one of at least the given level. -/
def operatorFrom (level : Nat) : Walk (Option BinaryOp) :=
  return ((← peek).bind binaryOp?).filter fun op => level ≤ op.level

/-- Continue `left` by the operators of at least the given level, each with what `binary` reads
after it. -/
def chain (binary : Nat → Walk Expr) (level : Nat) : Nat → Expr → Walk Expr
  | 0, left => do
    match ← operatorFrom level with
    | some _ => endless
    | none => pure left
  | rounds + 1, left => do
    match ← operatorFrom level with
    | some op =>
      advance
      let right ← binary (op.level + 1)
      chain binary level rounds (.binary op left right)
    | none => pure left

/-- Operands joined by operators of at least the given level. -/
def binary (unary : Walk Expr) : Nat → Nat → Walk Expr
  | 0, _ => endless
  | calls + 1, level => do
    let first ← unary
    chain (binary unary calls) level (← rounds) first

def unaryWith (unary expression : Walk Expr) : Walk Expr := do
  match (← peek).bind unaryOp? with
  | some op =>
    advance
    return .unary op (← nested unary)
  | none => primary expression

def unary : Nat → Walk Expr
  | 0 => endless
  | calls + 1 => unaryWith (unary calls) (nested (binary (unary calls) calls 1))

def expression (calls : Nat) : Walk Expr := nested (binary (unary calls) calls 1)

/-! ## Statements -/

section

variable (expression : Walk Expr)

def declaration : Walk Stmt := do
  keyword .DECLARE
  let names ← commaList name
  symbol .colon
  if ← acceptKeyword .ARRAY then
    symbol .leftBracket
    let lower ← expression
    symbol .colon
    let upper ← expression
    symbol .rightBracket
    keyword .OF
    return .declareArray names lower upper (← typeName)
  else
    return .declare names (← typeName)

def constant : Walk Stmt := do
  keyword .CONSTANT
  let s ← name
  symbol .assign
  return .constant s (← expression)

def assignment : Walk Stmt := do
  let s ← name
  symbol .assign
  return .assign s none (← expression)

def fieldAssignment : Walk Stmt := do
  let s ← name
  symbol .dot
  let field ← name
  symbol .assign
  return .assign s (some field) (← expression)

def elementAssignment : Walk Stmt := do
  let s ← name
  symbol .leftBracket
  let index ← expression
  symbol .rightBracket
  symbol .assign
  return .assignElement s index (← expression)

def invocation : Walk Stmt := do
  let s ← name
  let args ← if ← atSymbol .leftParen then arguments expression else pure []
  pure (.call s args)

def namedStatement : Walk Stmt := do
  match ← peekSecond with
  | some (.symbol .assign) => assignment expression
  | some (.symbol .leftBracket) => elementAssignment expression
  | some (.symbol .dot) => fieldAssignment expression
  | _ => invocation expression

def output : Walk Stmt := do
  keyword .OUTPUT
  return .output (← commaList expression)

variable (body : List Keyword → Walk (List Stmt))

def conditional : Walk Stmt := do
  keyword .IF
  let condition ← expression
  keyword .THEN
  let yes ← body [.ELSE, .ENDIF]
  let no ← if ← acceptKeyword .ELSE then body [.ENDIF] else pure []
  keyword .ENDIF
  pure (.ifElse condition yes no)

def whileLoop : Walk Stmt := do
  keyword .WHILE
  let condition ← expression
  keyword .DO
  let body ← body [.ENDWHILE]
  keyword .ENDWHILE
  pure (.whileDo condition body)

def repeatLoop : Walk Stmt := do
  keyword .REPEAT
  let body ← body [.UNTIL]
  keyword .UNTIL
  return .repeatUntil body (← expression)

def counterAfterNext (line : Option Nat) : Walk Unit := do
  match ← peek with
  | some (.name _) => if (← peekLine) = line then advance
  | _ => pure ()

def forLoop : Walk Stmt := do
  keyword .FOR
  let counter ← name
  symbol .assign
  let start ← expression
  keyword .TO
  let stop ← expression
  let step ← if ← acceptKeyword .STEP then expression else pure (.literal (.number 1.0))
  let body ← body [.NEXT]
  let line ← peekLine
  keyword .NEXT
  counterAfterNext line
  pure (.forTo counter start stop step body)

def clause (statement : Walk Stmt) : Walk (Expr × Stmt) := do
  let value ← expression
  symbol .colon
  return (value, ← statement)

def selection (statement : Walk Stmt) : Walk Stmt := do
  keyword .CASE
  keyword .OF
  let subject ← name
  let clauses ← manyWhile (isOpen [.OTHERWISE, .ENDCASE]) (clause expression statement)
  let otherwise ← if ← acceptKeyword .OTHERWISE then body [.ENDCASE] else pure []
  keyword .ENDCASE
  pure (.caseOf subject clauses otherwise)

def statementWith (inner : Walk Stmt) : Walk Stmt := do
  match ← peek with
  | none => refuse .expectedStatement
  | some (.keyword .DECLARE) => declaration expression
  | some (.keyword .CONSTANT) => constant expression
  | some (.keyword .OUTPUT) => output expression
  | some (.keyword .INPUT) =>
    advance
    return .input (← name)
  | some (.keyword .IF) => conditional expression body
  | some (.keyword .WHILE) => whileLoop expression body
  | some (.keyword .REPEAT) => repeatLoop expression body
  | some (.keyword .FOR) => forLoop expression body
  | some (.keyword .CASE) => selection expression body inner
  | some (.keyword .CALL) =>
    advance
    invocation expression
  | some (.keyword .RETURN) =>
    advance
    return .giveBack (← expression)
  | some (.keyword k) => refuse (.unexpectedKeyword k)
  | some (.name _) => namedStatement expression
  | some t => refuse (.unexpectedToken t)

end

/-- The statements before one of the closing words. -/
def body (statement : Walk Stmt) (closers : List Keyword) : Walk (List Stmt) :=
  nested (manyWhile (isOpen closers) statement)

def statement : Nat → Walk Stmt
  | 0 => endless
  | calls + 1 =>
    statementWith (expression (calls + 1)) (body (statement calls)) (statement calls)

/-! ## Programs -/

def param : Walk Param := do
  let byRef ← acceptKeyword .BYREF
  unless byRef do
    let _ ← acceptKeyword .BYVAL
  let s ← name
  symbol .colon
  return ⟨s, ← typeName, byRef⟩

def params : Walk (List Param) := do
  if ← acceptSymbol .leftParen then
    let params ← if ← atSymbol .rightParen then pure [] else commaList param
    symbol .rightParen
    pure params
  else pure []

def fieldDecls : Walk (List FieldDecl) := do
  unless ← acceptKeyword .DECLARE do
    refuse .expectedField
  let names ← commaList name
  symbol .colon
  let type ← typeName
  pure (names.map fun s => ⟨s, type⟩)

def recordType : Walk RecordType := do
  keyword .TYPE
  let s ← name
  let fields ← manyWhile (isOpen [.ENDTYPE]) fieldDecls
  keyword .ENDTYPE
  pure ⟨s, fields.flatten⟩

section

variable (body : List Keyword → Walk (List Stmt))

def procedure : Walk Subroutine := do
  keyword .PROCEDURE
  let s ← name
  let ps ← params
  let body ← body [.ENDPROCEDURE]
  keyword .ENDPROCEDURE
  pure ⟨s, ps, none, body⟩

def function : Walk Subroutine := do
  keyword .FUNCTION
  let s ← name
  let ps ← params
  keyword .RETURNS
  let type ← typeName
  let body ← body [.ENDFUNCTION]
  keyword .ENDFUNCTION
  pure ⟨s, ps, some type, body⟩

end

def item (calls : Nat) : Walk Item := do
  match ← peek with
  | some (.keyword .PROCEDURE) => return .subroutine (← procedure (body (statement calls)))
  | some (.keyword .FUNCTION) => return .subroutine (← function (body (statement calls)))
  | some (.keyword .TYPE) => return .recordType (← recordType)
  | _ => return .statement (← statement calls)

def program (calls : Nat) : Walk Program := do
  return ⟨← manyWhile (!·.isEmpty) (item calls)⟩

/-- What a walk over all tokens of a text says, if functions call each other no deeper than there
are tokens. -/
def parse (size : Nat) (tokens : List Located) : Except Halt Program :=
  match program (tokens.length + 1) (.start size tokens) with
  | .ok p _ => .ok p
  | .error halt _ => .error halt

end Walk

end Chalkboard
