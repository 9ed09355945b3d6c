import Chalkboard.Value

/-! # Operators

The operators of expressions, and what they make of any two values.
-/

namespace Chalkboard

inductive BinaryOp where
  | or | and
  | eq | notEq | less | greater | lessEq | greaterEq
  | add | sub | concat
  | mul | div | intDiv | mod | pow
deriving DecidableEq

inductive UnaryOp where
  | not | neg
deriving DecidableEq

namespace Value

/-- `+` joins if one side is a text, and adds otherwise. -/
def add : Value → Value → Value
  | a@(text _), b | a, b@(text _) => text (a.toText ++ b.toText)
  | a, b => number (a.toNumber + b.toNumber)

/-- A comparison holds if the order is defined and accepted. -/
def ordered (accept : Ordering → Bool) (a b : Value) : Value :=
  bool ((order a b).any accept)

end Value

def BinaryOp.apply (op : BinaryOp) (a b : Value) : Value :=
  match op with
  | or => .bool (a.isTrue || b.isTrue)
  | and => .bool (a.isTrue && b.isTrue)
  | eq => .bool (a.same b)
  | notEq => .bool (!a.same b)
  | less => .ordered (· == .lt) a b
  | greater => .ordered (· == .gt) a b
  | lessEq => .ordered (· != .gt) a b
  | greaterEq => .ordered (· != .lt) a b
  | add => a.add b
  | sub => .number (a.toNumber - b.toNumber)
  | concat => .text (a.toText ++ b.toText)
  | mul => .number (a.toNumber * b.toNumber)
  | div => .number (a.toNumber / b.toNumber)
  | intDiv => .number (a.toNumber / b.toNumber).floor
  | mod => .number (Double.remainder a.toNumber b.toNumber)
  | pow => .number (a.toNumber.pow b.toNumber)

def UnaryOp.apply (op : UnaryOp) (a : Value) : Value :=
  match op with
  | not => .bool (!a.isTrue)
  | neg => .number (-a.toNumber)

end Chalkboard
