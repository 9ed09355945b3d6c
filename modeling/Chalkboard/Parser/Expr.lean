import Chalkboard.Parser.Basic
import Chalkboard.Program

/-! # Reading expressions

Operators of a higher level bind tighter, and every level groups to the left. Parentheses, brackets,
argument lists and prefixed operators count as one nesting level each, and only so many are allowed;
the number of levels that are left is what the recursion runs on.
-/

namespace Chalkboard

def BinaryOp.level : BinaryOp → Nat
  | or => 1
  | and => 2
  | eq | notEq | less | greater | lessEq | greaterEq => 3
  | add | sub | concat => 4
  | mul | div | intDiv | mod | pow => 5

namespace Parser

def nestingLimit : Nat := 100

def binaryOp? : Token → Option BinaryOp
  | .keyword .OR => some .or
  | .keyword .AND => some .and
  | .keyword .DIV => some .intDiv
  | .keyword .MOD => some .mod
  | .symbol .eq => some .eq
  | .symbol .notEq => some .notEq
  | .symbol .less => some .less
  | .symbol .greater => some .greater
  | .symbol .lessEq => some .lessEq
  | .symbol .greaterEq => some .greaterEq
  | .symbol .plus => some .add
  | .symbol .minus => some .sub
  | .symbol .ampersand => some .concat
  | .symbol .star => some .mul
  | .symbol .slash => some .div
  | .symbol .caret => some .pow
  | _ => none

def unaryOp? : Token → Option UnaryOp
  | .keyword .NOT => some .not
  | .symbol .minus => some .neg
  | _ => none

section

variable (expression : Parser Expr)

def arguments : Parser (List Expr) := do
  symbol .leftParen
  let args ← if ← atSymbol .rightParen then pure [] else commaList expression
  symbol .rightParen
  pure args

/-- What a name begins: an element, a call, a field, or just a variable. -/
def named (s : String) : Parser Expr := do
  match ← peek with
  | some (.symbol .leftBracket) =>
    skip
    let index ← expression
    symbol .rightBracket
    pure (.element s index)
  | some (.symbol .leftParen) => return .call s (← arguments expression)
  | some (.symbol .dot) =>
    skip
    return .var s (some (← name))
  | _ => pure (.var s none)

def primary : Parser Expr := do
  match ← peek with
  | none => stuck .expectedExpression
  | some (.number x _) =>
    skip
    pure (.literal (.number x))
  | some (.text s) =>
    skip
    pure (.literal (.text s))
  | some (.keyword .TRUE) =>
    skip
    pure (.literal (.bool true))
  | some (.keyword .FALSE) =>
    skip
    pure (.literal (.bool false))
  | some (.symbol .leftParen) =>
    skip
    let e ← expression
    symbol .rightParen
    pure e
  | some (.name s) =>
    skip
    named expression s
  | some t => stuck (.unexpectedOperand t)

end

def operandWith (operand expression : Parser Expr) : Parser Expr := do
  match (← peek).bind unaryOp? with
  | some op =>
    skip
    return .unary op (← operand)
  | none => primary expression

/-- Continue `left` by the operators of at least the given level, at most one for each token of
`bound`. -/
def climbFrom (operand : Parser Expr) (bound : List Located) (level : Nat) (left : Expr) :
    Parser Expr :=
  match bound with
  | [] => pure left
  | _ :: bound => do
    match (← peek).bind binaryOp? with
    | some op =>
      if level ≤ op.level then
        skip
        let first ← operand
        let right ← climbFrom operand bound (op.level + 1) first
        climbFrom operand bound level (.binary op left right)
      else pure left
    | none => pure left

def climb (operand : Parser Expr) : Parser Expr := do
  let first ← operand
  fun ts => climbFrom operand ts 1 first ts

section

variable (limit : Nat)

/-- An operand below which so many further levels may be nested. -/
def operand : Nat → Parser Expr
  | 0 => operandWith (stuck (.tooDeep limit)) (stuck (.tooDeep limit))
  | d + 1 => operandWith (operand d) (climb (operand d))

def expression : Nat → Parser Expr
  | 0 => stuck (.tooDeep limit)
  | d + 1 => climb (operand limit d)

end

end Parser

end Chalkboard
