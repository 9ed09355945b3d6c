import Std.Data.TreeMap
import Std.Data.TreeMap.Slice
import Chalkboard.Value

/-! # Arrays

An array has a slot for every index between its bounds from the start. Writes are accepted at any
index: one that lies out of bounds gets a slot of its own, which is kept but never read.
-/

namespace Chalkboard

structure ArrayStore where
  lower : Int
  upper : Int
  elementType : String
  slots : Std.TreeMap Int Value

namespace ArrayStore

def maxSize : Nat := 1000000

def indices (lower upper : Int) : List Int :=
  (List.range (upper - lower + 1).toNat).map fun n => lower + Int.ofNat n

def create (lower upper : Int) (elementType : String) : ArrayStore :=
  let default := Value.default elementType
  ⟨lower, upper, elementType, .ofList ((indices lower upper).map (·, default))⟩

def inBounds (a : ArrayStore) (i : Int) : Bool := a.lower ≤ i && i ≤ a.upper

def get? (a : ArrayStore) (i : Int) : Option Value :=
  if a.inBounds i then a.slots[i]? else none

def set (a : ArrayStore) (i : Int) (v : Value) : ArrayStore :=
  { a with slots := a.slots.insert i v }

/-- The slots between the bounds. Reversed bounds are no range that can be asked for. -/
def between (a : ArrayStore) (_ : a.lower ≤ a.upper) : List (Int × Value) :=
  a.slots[a.lower...=a.upper].toList

def size (a : ArrayStore) : Nat :=
  if h : a.upper < a.lower then 0 else (a.between (Int.not_lt.mp h)).length

def elements (a : ArrayStore) : List (Int × Value) :=
  if h : a.upper < a.lower then [] else a.between (Int.not_lt.mp h)

/-- The difference of two integers, held at the ends of the 64-bit range. -/
def saturatingSub (x y : Int) : Int :=
  max Int64.minValue.toInt (min Int64.maxValue.toInt (x - y))

theorem inBounds_iff (a : ArrayStore) (i : Int) :
    a.inBounds i = true ↔ a.lower ≤ i ∧ i ≤ a.upper := by
  simp [inBounds]

theorem getElem?_slots_set (a : ArrayStore) (i j : Int) (v : Value) :
    (a.set i v).slots[j]? = if i = j then some v else a.slots[j]? := by
  simp [set, Std.TreeMap.getElem?_insert]

theorem get?_set (a : ArrayStore) (i j : Int) (v : Value) :
    (a.set i v).get? j = if i = j ∧ a.inBounds j = true then some v else a.get? j := by
  show (if a.inBounds j then (a.set i v).slots[j]? else none) = _
  rw [getElem?_slots_set]
  by_cases hb : a.inBounds j = true <;> by_cases h : i = j <;> simp [get?, hb, h]

theorem between_eq (a : ArrayStore) (h : a.lower ≤ a.upper) :
    a.between h = a.slots.toList.filter fun slot => a.inBounds slot.1 := by
  rw [between, Std.TreeMap.toList_rcc compare]
  refine List.filter_congr fun slot _ => ?_
  simp [inBounds, Std.isGE_compare, Std.isLE_compare]

end ArrayStore

/-- The index that a value stands for: a whole number of 64 bits. -/
def Value.index? (v : Value) : Option Int :=
  (Double.toInt? v.toNumber).filter fun i => i.natAbs < Nat.pow 2 63

end Chalkboard
