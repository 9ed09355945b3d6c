import Chalkboard.Number.Double

/-! # Decimal numerals

The written numbers: an optional sign, digits with at most one point among or beside them, and an
optional exponent. A numeral stands for the double nearest to it. Beside the numerals there are
words for the doubles that no numeral is close to.
-/

namespace Chalkboard

structure Numeral where
  negative : Bool
  significand : Nat
  exponent : Int
deriving DecidableEq

namespace Numeral

def digitValue (c : Char) : Nat := c.toNat - '0'.toNat

/-- The number of digits in a base, the least significant first. -/
def ofDigits (base : Nat) : List Nat → Nat
  | [] => 0
  | d :: ds => d + base * ofDigits base ds

/-- Join each two neighbouring digits into one digit of the squared base. -/
def pairUp (base : Nat) : List Nat → List Nat
  | a :: b :: ds => (a + base * b) :: pairUp base ds
  | ds => ds

theorem ofDigits_pairUp (base : Nat) (ds : List Nat) :
    ofDigits (base * base) (pairUp base ds) = ofDigits base ds := by
  fun_induction pairUp base ds with
  | case1 a b ds ih =>
    simp only [ofDigits, ih]
    rw [Nat.mul_add, Nat.mul_assoc, Nat.add_assoc]
  | case2 ds h =>
    match ds with
    | [] => rfl
    | [d] => simp [ofDigits]
    | a :: b :: ds => exact absurd rfl (h a b ds)

/-- The number of digits by joining them in pairs up to `n` times, so that few large numbers are
multiplied. -/
def joinDigits : Nat → Nat → List Nat → Nat
  | 0, base, ds => ofDigits base ds
  | _ + 1, _, [] => 0
  | _ + 1, _, [d] => d
  | n + 1, base, ds => joinDigits n (base * base) (pairUp base ds)

theorem joinDigits_eq (n base : Nat) (ds : List Nat) :
    joinDigits n base ds = ofDigits base ds := by
  fun_induction joinDigits n base ds with
  | case1 => rfl
  | case2 => rfl
  | case3 => simp [ofDigits]
  | case4 n base ds _ _ ih => rw [ih, ofDigits_pairUp]

def digitsValue (digits : List Char) : Nat :=
  joinDigits 64 10 (digits.reverse.map digitValue)

theorem digitsValue_append_singleton (digits : List Char) (c : Char) :
    digitsValue (digits ++ [c]) = 10 * digitsValue digits + digitValue c := by
  simp only [digitsValue, joinDigits_eq, List.reverse_append, List.reverse_singleton,
    List.singleton_append, List.map_cons, ofDigits]
  omega

/-- The size of an exponent. Once it has come to 65536, further digits are passed over. -/
def exponentSize (digits : List Char) : Nat :=
  digits.foldl (fun n c => if n < 65536 then 10 * n + digitValue c else n) 0

def splitSign : List Char → Bool × List Char
  | '+' :: cs => (false, cs)
  | '-' :: cs => (true, cs)
  | cs => (false, cs)

/-- A fraction in front: a point and any digits after it. -/
def splitFraction : List Char → List Char × List Char
  | '.' :: cs => (cs.takeWhile Char.isDigit, cs.dropWhile Char.isDigit)
  | cs => ([], cs)

def exponent? : List Char → Option Int
  | [] => some 0
  | c :: cs =>
    if c = 'e' ∨ c = 'E' then
      let (negative, digits) := splitSign cs
      if digits ≠ [] ∧ digits.all Char.isDigit then
        some (if negative then -Int.ofNat (exponentSize digits)
          else Int.ofNat (exponentSize digits))
      else none
    else none

def read? (cs : List Char) : Option Numeral :=
  let (negative, cs) := splitSign cs
  let whole := cs.takeWhile Char.isDigit
  let (fraction, rest) := splitFraction (cs.dropWhile Char.isDigit)
  if whole = [] ∧ fraction = [] then none
  else (exponent? rest).map fun e =>
    ⟨negative, digitsValue (whole ++ fraction), e - Int.ofNat fraction.length⟩

/-- The nearest double. Numerals far outside the range of the doubles are settled by their number of
bits, so that no power of ten is larger than it has to be. -/
def toDouble (n : Numeral) : Float :=
  let bits := Int.ofNat n.significand.log2
  if n.significand = 0 ∨ bits / 3 + 1 + n.exponent ≤ -324 then Double.zero n.negative
  else if 308 < 3 * bits / 10 + n.exponent then Double.infinity n.negative
  else Double.nearest n.negative (n.significand * Nat.pow 10 n.exponent.toNat)
    (Nat.pow 10 (-n.exponent).toNat)

def special? (cs : List Char) : Option Float :=
  let (negative, word) := splitSign cs
  let word := word.map Char.toLower
  if word = "inf".toList ∨ word = "infinity".toList then some (Double.infinity negative)
  else if word = "nan".toList then some Double.nan
  else none

/-- The double that a whole text is written for, as a word or as a numeral. -/
def double? (s : String) : Option Float :=
  special? s.toList <|> (read? s.toList).map toDouble

def isNumeric (c : Char) : Bool :=
  c.isDigit || c == '.' || c == '-' || c == '+' || c == 'e' || c == 'E'

end Numeral

end Chalkboard
