import Chalkboard.Token

/-! # Parsers

A parser takes tokens from the front and returns what is left of them. When it gets stuck it says
why, and keeps the tokens from the offending one on. No parser looks at anything but the tokens, the
line of a `NEXT` aside, so a program may be laid out freely.
-/

namespace Chalkboard

namespace Parser

/-- Why no program goes on like this. -/
inductive Cause where
  | expectedSymbol (s : Symbol)
  | expectedKeyword (k : Keyword)
  | expectedName
  | expectedType
  | expectedField
  | expectedStatement
  | expectedExpression
  | unexpectedKeyword (k : Keyword)
  | unexpectedToken (t : Token)
  | unexpectedOperand (t : Token)
  | tooDeep (limit : Nat)

def Cause.message : Cause → String
  | expectedSymbol s => "Expected '" ++ s.text ++ "'"
  | expectedKeyword k => "Expected " ++ k.text
  | expectedName => "Expected identifier"
  | expectedType => "Expected data type"
  | expectedField => "Expected DECLARE or ENDTYPE"
  | expectedStatement => "Expected statement"
  | expectedExpression => "Expected expression"
  | unexpectedKeyword k => "Unexpected " ++ k.text
  | unexpectedToken t => "Unexpected '" ++ t.toText ++ "'"
  | unexpectedOperand t => "Unexpected '" ++ t.toText ++ "' in expression"
  | tooDeep limit => "Nesting exceeds the maximum depth of " ++ toString limit

/-- A parse that cannot go on: the cause, and the tokens from the offending one on. -/
structure Stuck where
  cause : Cause
  rest : List Located

end Parser

abbrev Parser (α : Type) := StateT (List Located) (Except Parser.Stuck) α

namespace Parser

def stuck {α : Type} (cause : Cause) : Parser α :=
  fun ts => .error ⟨cause, ts⟩

def peek : Parser (Option Token) :=
  fun ts => .ok (ts.head?.map Located.token, ts)

def peekSecond : Parser (Option Token) :=
  fun ts => .ok (ts.tail.head?.map Located.token, ts)

def peekLine : Parser (Option Nat) :=
  fun ts => .ok (ts.head?.map Located.line, ts)

def skip : Parser Unit :=
  fun ts => .ok ((), ts.tail)

def startsWithSymbol (s : Symbol) : List Located → Bool
  | ⟨.symbol s', _, _⟩ :: _ => s' == s
  | _ => false

def startsWithKeyword (k : Keyword) : List Located → Bool
  | ⟨.keyword k', _, _⟩ :: _ => k' == k
  | _ => false

def atSymbol (s : Symbol) : Parser Bool :=
  fun ts => .ok (startsWithSymbol s ts, ts)

def atKeyword (k : Keyword) : Parser Bool :=
  fun ts => .ok (startsWithKeyword k ts, ts)

def acceptSymbol (s : Symbol) : Parser Bool :=
  fun ts => if startsWithSymbol s ts then .ok (true, ts.tail) else .ok (false, ts)

def acceptKeyword (k : Keyword) : Parser Bool :=
  fun ts => if startsWithKeyword k ts then .ok (true, ts.tail) else .ok (false, ts)

def symbol (s : Symbol) : Parser Unit :=
  fun ts => if startsWithSymbol s ts then .ok ((), ts.tail) else .error ⟨.expectedSymbol s, ts⟩

def keyword (k : Keyword) : Parser Unit :=
  fun ts => if startsWithKeyword k ts then .ok ((), ts.tail) else .error ⟨.expectedKeyword k, ts⟩

def name : Parser String
  | ⟨.name s, _, _⟩ :: ts => .ok (s, ts)
  | ts => .error ⟨.expectedName, ts⟩

def typeKeywords : List Keyword := [.INTEGER, .REAL, .STRING, .BOOLEAN, .CHAR, .DATE]

/-- The name of a built-in type, in upper case, or of a record type, as it is written. -/
def typeName : Parser String
  | ⟨.name s, _, _⟩ :: ts => .ok (s, ts)
  | ts@(⟨.keyword k, _, _⟩ :: rest) =>
    if k ∈ typeKeywords then .ok (k.text, rest) else .error ⟨.expectedType, ts⟩
  | ts => .error ⟨.expectedType, ts⟩

variable {α : Type}

def repeatWhile (goesOn : List Located → Bool) (p : Parser α) (bound : List Located) :
    Parser (List α) :=
  match bound with
  | [] => pure []
  | _ :: bound => do
    if goesOn (← get) then
      let a ← p
      let as ← repeatWhile goesOn p bound
      pure (a :: as)
    else pure []

/-- Repeat `p` as long as the tokens go on. There are at most as many rounds as tokens. -/
def manyWhile (goesOn : List Located → Bool) (p : Parser α) : Parser (List α) :=
  fun ts => repeatWhile goesOn p ts ts

def repeatAfterComma (p : Parser α) (bound : List Located) : Parser (List α) :=
  match bound with
  | [] => pure []
  | _ :: bound => do
    if ← acceptSymbol .comma then
      let a ← p
      let as ← repeatAfterComma p bound
      pure (a :: as)
    else pure []

def commaList (p : Parser α) : Parser (List α) := do
  let a ← p
  let as ← fun ts => repeatAfterComma p ts ts
  pure (a :: as)

/-- There are tokens left, and no closing word is next. -/
def isOpen (closers : List Keyword) (ts : List Located) : Bool :=
  !ts.isEmpty && !closers.any (startsWithKeyword · ts)

end Parser

end Chalkboard
