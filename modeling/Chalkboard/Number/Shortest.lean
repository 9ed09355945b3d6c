import Chalkboard.Number.Numeral
import Chalkboard.Text.Basic

/-! # The fewest digits that read back

The decimals that read back as a given double fill an interval around it. Among the decimals of the
interval with the fewest digits the nearest is chosen.
-/

namespace Chalkboard

inductive Tie where
  | up
  | toEven
deriving DecidableEq

def Tie.choose : Tie → Nat → Nat
  | .up, c => c + 1
  | .toEven, c => c + c % 2

/-- Digits without zeros at the end, and the number of digits before the decimal point, which is
negative if zeros follow the point. -/
structure Digits where
  chars : List Char
  point : Int
deriving DecidableEq

namespace Digits

def ofScaled (c : Nat) (e : Int) : Digits :=
  let chars := Nat.toDigits 10 c
  ⟨Text.dropEndWhile (· == '0') chars, Int.ofNat chars.length + e⟩

def exponent (d : Digits) : Int := d.point - 1

end Digits

namespace Shortest

def digitCount (n : Nat) : Nat := (Nat.toDigits 10 n).length

/-- The exponent of the largest power of ten that is at most `n / d`. -/
def log10Ratio (n d : Nat) : Int :=
  let guess : Int := Int.ofNat (digitCount n) - Int.ofNat (digitCount d)
  if d * Nat.pow 10 guess.toNat ≤ n * Nat.pow 10 (-guess).toNat then guess else guess - 1

/-- Twice the distance, in quarters of the last binary place, from `m · 2 ^ q` down to the lower end
of the interval that reads back: below a power of two the doubles lie twice as close. -/
def gapBelow (m : Nat) (q : Int) : Nat :=
  if m = Nat.pow 2 52 ∧ Double.leastExponent < q then 1 else 2

/-- Factors that make numbers on the grid `10 ^ g` and quarters of `2 ^ q` comparable: `c · 10 ^ g`
is to `x · 2 ^ (q - 2)` as `c` times the first is to `x` times the second. -/
def scales (q g : Int) : Nat × Nat :=
  (Nat.pow 10 g.toNat * Nat.pow 2 (2 - q).toNat, Nat.pow 2 (q - 2).toNat * Nat.pow 10 (-g).toNat)

def readsBack (m : Nat) (q g : Int) (c : Nat) : Bool :=
  let (s, t) := scales q g
  let low := (4 * m - gapBelow m q) * t
  let high := (4 * m + 2) * t
  if m % 2 = 0 then decide (low ≤ c * s ∧ c * s ≤ high) else decide (low < c * s ∧ c * s < high)

def floorOnGrid (m : Nat) (q g : Int) : Nat :=
  let (s, t) := scales q g
  4 * m * t / s

def nearestOnGrid (tie : Tie) (m : Nat) (q g : Int) : Nat :=
  let (s, t) := scales q g
  let c := floorOnGrid m q g
  match compare (2 * (4 * m * t)) ((2 * c + 1) * s) with
  | .lt => c
  | .eq => tie.choose c
  | .gt => c + 1

/-- The neighbour on the grid `10 ^ g` that reads back, the nearer one if both do. -/
def onGrid? (tie : Tie) (m : Nat) (q g : Int) : Option Nat :=
  let c := floorOnGrid m q g
  match readsBack m q g c, readsBack m q g (c + 1) with
  | true, true => some (nearestOnGrid tie m q g)
  | true, false => some c
  | false, true => some (c + 1)
  | false, false => none

/-- Try ever finer grids; the last one is fine enough for every double. -/
def search (tie : Tie) (m : Nat) (q g : Int) : Nat → Nat × Int
  | 0 => (nearestOnGrid tie m q g, g)
  | n + 1 =>
    match onGrid? tie m q g with
    | some c => (c, g)
    | none => search tie m q (g - 1) n

/-- The shortest digits of `m · 2 ^ q`, for a positive `m`. At most seventeen are needed. -/
def digits (tie : Tie) (m : Nat) (q : Int) : Digits :=
  let (c, e) := search tie m q (log10Ratio (m * Nat.pow 2 q.toNat) (Nat.pow 2 (-q).toNat)) 16
  .ofScaled c e

end Shortest

end Chalkboard
