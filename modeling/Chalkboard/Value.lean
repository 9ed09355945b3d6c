import Chalkboard.Number.Layout
import Chalkboard.Text.Basic

/-! # Values

A program computes with truth values, numbers and texts. The null value stands for what was never
given: a missing argument, or the result of a subroutine that returned nothing. Every operator first
reads its operands as what it needs, so that no combination of values is an error.
-/

namespace Chalkboard

inductive Value where
  | null
  | bool (b : Bool)
  | number (x : Float)
  | text (s : String)

namespace Value

/-- Numbers in the lines of a program are written without an exponent from a millionth up to, and
without, ten to the twenty-first, and whole numbers there with all their digits. -/
def numberLayout : NumberLayout where
  tie := .up
  positional e := -6 ≤ e && e < 21
  exactWhole := true
  wholeTail := ""
  exponentSign := "+"
  infinity := "Infinity"

def toText : Value → String
  | null => ""
  | bool true => "TRUE"
  | bool false => "FALSE"
  | number x => numberLayout.render x
  | text s => s

def default (type : String) : Value :=
  let type := Text.upper type
  if type = "INTEGER" ∨ type = "REAL" then number 0.0
  else if type = "BOOLEAN" then bool false
  else text ""

/-- The number of a text in which nothing but a numeral can stand. -/
def parseNumeric (s : String) : Option Float :=
  if s.toList.all Numeral.isNumeric then Numeral.double? s else none

/-- The value of a text that was typed in. A text that is no number stays as it stands. -/
def ofAnswer (s : String) : Value :=
  let trimmed := Text.trim s
  if trimmed = "" then number 0.0
  else match parseNumeric trimmed with
    | some x => number x
    | none => text s

def toNumber : Value → Float
  | null => Double.nan
  | bool b => if b then 1.0 else 0.0
  | number x => x
  | text s =>
    let trimmed := Text.trim s
    if trimmed = "" then 0.0 else (parseNumeric trimmed).getD Double.nan

def isTrue : Value → Bool
  | null => false
  | bool b => b
  | number x => x != 0.0 && !x.isNaN
  | text s => s != ""

/-- Equality within one kind of value. Numbers are compared as numbers, so that zero has no sign
and the undefined number differs from itself. -/
def same : Value → Value → Bool
  | null, null => true
  | bool a, bool b => a == b
  | number x, number y => x == y
  | text s, text t => s == t
  | _, _ => false

def orderNumbers (x y : Float) : Option Ordering :=
  if x < y then some .lt else if x == y then some .eq else if y < x then some .gt else none

/-- Two texts are ordered by their characters, all other pairs as numbers. -/
def order : Value → Value → Option Ordering
  | text s, text t => some (compare s t)
  | a, b => orderNumbers a.toNumber b.toNumber

end Value

end Chalkboard
