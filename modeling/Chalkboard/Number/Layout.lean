import Chalkboard.Number.Shortest

/-! # Layouts of numbers

How a double is written: with or without an exponent, with or without a fraction that is zero, and
by what words for the numbers that have no digits. Each kind of output has a layout of its own.
-/

namespace Chalkboard

structure NumberLayout where
  tie : Tie
  /-- The exponents of the first digit for which the number is written without an exponent. -/
  positional : Int → Bool
  /-- Whether a whole number without an exponent is written with all its digits, not the fewest. -/
  exactWhole : Bool
  wholeTail : String
  exponentSign : String
  infinity : String

namespace NumberLayout

def zeros (n : Int) : List Char := List.replicate n.toNat '0'

def plain (layout : NumberLayout) (d : Digits) : String :=
  let width := Int.ofNat d.chars.length
  if d.point ≤ 0 then "0." ++ String.ofList (zeros (-d.point) ++ d.chars)
  else if width ≤ d.point then String.ofList (d.chars ++ zeros (d.point - width)) ++
    layout.wholeTail
  else String.ofList (d.chars.take d.point.toNat ++ '.' :: d.chars.drop d.point.toNat)

def scientific (layout : NumberLayout) (d : Digits) : String :=
  let mantissa := match d.chars with
    | first :: second :: rest => first :: '.' :: second :: rest
    | chars => chars
  let sign := if 0 ≤ d.exponent then layout.exponentSign else ""
  String.ofList mantissa ++ "e" ++ sign ++ toString d.exponent

def magnitude (layout : NumberLayout) (m : Nat) (q : Int) : String :=
  let d := Shortest.digits layout.tie m q
  if layout.positional d.exponent then
    if layout.exactWhole && m % Nat.pow 2 (-q).toNat == 0 then
      toString (m * Nat.pow 2 q.toNat / Nat.pow 2 (-q).toNat) ++ layout.wholeTail
    else layout.plain d
  else layout.scientific d

/-- Write a double. Zero has no sign. -/
def render (layout : NumberLayout) (x : Float) : String :=
  match Double.parts x with
  | .nan => "NaN"
  | .infinite negative => (if negative then "-" else "") ++ layout.infinity
  | .finite negative m q =>
    if m = 0 then "0" ++ layout.wholeTail
    else (if negative then "-" else "") ++ layout.magnitude m q

end NumberLayout

end Chalkboard
