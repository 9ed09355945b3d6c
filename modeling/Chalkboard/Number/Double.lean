/-! # Doubles as exact numbers

A finite double is a sign with a natural number times a power of two. Taking it apart and rounding
an exact quotient to the nearest double are inverse to each other; everything that has to be exact
about numbers is computed between the two.
-/

namespace Chalkboard.Double

/-- What a double stands for: a finite one for `m · 2 ^ q`, with a sign. -/
inductive Parts where
  | nan
  | infinite (negative : Bool)
  | finite (negative : Bool) (m : Nat) (q : Int)
deriving DecidableEq

def leastExponent : Int := -1074

def parts (x : Float) : Parts :=
  let bits := x.toBits.toNat
  let negative := decide (Nat.pow 2 63 ≤ bits)
  let field : Nat := bits / Nat.pow 2 52 % Nat.pow 2 11
  let fraction := bits % Nat.pow 2 52
  if field = 2047 then
    if fraction = 0 then .infinite negative else .nan
  else if field = 0 then .finite negative fraction leastExponent
  else .finite negative (fraction + Nat.pow 2 52) (leastExponent + Int.ofNat (field - 1))

def infinityBits : Nat := 2047 * Nat.pow 2 52

def ofMagnitude (negative : Bool) (bits : Nat) : Float :=
  Float.ofBits (UInt64.ofNat (if negative then Nat.pow 2 63 + bits else bits))

def zero (negative : Bool) : Float := ofMagnitude negative 0

def infinity (negative : Bool) : Float := ofMagnitude negative infinityBits

def nan : Float := 0.0 / 0.0

/-- The quotient rounded to the nearest natural number, a half to the even one. -/
def roundDiv (n d : Nat) : Nat :=
  match compare (2 * (n % d)) d with
  | .lt => n / d
  | .eq => n / d + n / d % 2
  | .gt => n / d + 1

/-- The exponent of the largest power of two that is at most `n / d`. -/
def log2Ratio (n d : Nat) : Int :=
  let guess : Int := Int.ofNat n.log2 - Int.ofNat d.log2
  if d * Nat.pow 2 guess.toNat ≤ n * Nat.pow 2 (-guess).toNat then guess else guess - 1

/-- The magnitude bits of the double nearest to `n / d`. A carry of the rounding runs over into the
exponent field, and past the largest finite double stands infinity. -/
def nearestBits (n d : Nat) : Nat :=
  let q := max leastExponent (log2Ratio n d - 52)
  let m := roundDiv (n * Nat.pow 2 (-q).toNat) (d * Nat.pow 2 q.toNat)
  min ((q - leastExponent).toNat * Nat.pow 2 52 + m) infinityBits

def nearest (negative : Bool) (n d : Nat) : Float :=
  if n = 0 then zero negative else ofMagnitude negative (nearestBits n d)

def toInt? (x : Float) : Option Int :=
  match parts x with
  | .finite negative m q =>
    if m % Nat.pow 2 (-q).toNat = 0 then
      let magnitude := Int.ofNat (m * Nat.pow 2 q.toNat / Nat.pow 2 (-q).toNat)
      some (if negative then -magnitude else magnitude)
    else none
  | _ => none

/-- The exact remainder of the division that rounds toward zero. It has the sign of the dividend. -/
def remainder (x y : Float) : Float :=
  match parts x, parts y with
  | .finite negative m q, .finite _ n r =>
    if n = 0 then nan
    else
      let least := min q r
      let rest := (m * Nat.pow 2 (q - least).toNat) % (n * Nat.pow 2 (r - least).toNat)
      nearest negative (rest * Nat.pow 2 least.toNat) (Nat.pow 2 (-least).toNat)
  | .finite .., .infinite _ => x
  | _, _ => nan

end Chalkboard.Double
