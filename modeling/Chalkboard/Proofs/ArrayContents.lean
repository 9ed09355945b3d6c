import Chalkboard.Memory.Access
import Chalkboard.Proofs.ArraySlots
import Chalkboard.Report.Memory

/-! # The contents of arrays

After any writes, an array is a map on the indices between its bounds: an index stands for what was
written there last, or for the default of the element type. What is written out of bounds keeps a
slot of its own, which reads, the size, the elements and both formats of memory never show.
-/

namespace Chalkboard

namespace Dict

/-- What is shown of entries does not tell apart two values that are shown alike under the key. -/
theorem map_insertEntry_congr {α β : Type} (f : String × α → β) {key : String} {a b : α}
    (h : f (key, a) = f (key, b)) (entries : List (String × α)) :
    (insertEntry key a entries).map f = (insertEntry key b entries).map f := by
  induction entries with
  | nil => simp only [insertEntry, List.map_cons, h]
  | cons entry rest ih =>
    by_cases hk : entry.1 = key
    · simp only [insertEntry, hk, if_true, List.map_cons, h]
    · simp only [insertEntry, hk, if_false, List.map_cons, ih]

theorem isEmpty_insertEntry {α : Type} (key : String) (a : α) (entries : List (String × α)) :
    (insertEntry key a entries).isEmpty = false := by
  cases entries with
  | nil => rfl
  | cons entry rest =>
    simp only [insertEntry]
    split <;> rfl

end Dict

theorem Json.ofCells_eq_map (cells : List (String × Cell)) :
    Json.ofCells cells = cells.map fun entry => (entry.1, Json.ofCell entry.2) := by
  induction cells with
  | nil => rfl
  | cons entry cells ih => rw [Json.ofCells, ih, List.map_cons]

namespace ArrayStore

variable {a b : ArrayStore}

def setAll (a : ArrayStore) (writes : List (Int × Value)) : ArrayStore :=
  writes.foldl (fun a w => a.set w.1 w.2) a

/-- The value that comes last at an index among the writes. -/
def lastAt (writes : List (Int × Value)) (i : Int) : Option Value := writes.reverse.lookup i

theorem lastAt_cons (w : Int × Value) (writes : List (Int × Value)) (i : Int) :
    lastAt (w :: writes) i = (lastAt writes i).or (if w.1 = i then some w.2 else none) := by
  obtain ⟨j, v⟩ := w
  rw [lastAt, List.reverse_cons, List.lookup_append]
  congr 1
  by_cases h : j = i
  · subst h
    simp
  · have hb : (i == j) = false := beq_eq_false_iff_ne.mpr (Ne.symm h)
    rw [List.lookup_cons, hb, if_neg h]
    rfl

@[simp] theorem lower_setAll (a : ArrayStore) (writes : List (Int × Value)) :
    (a.setAll writes).lower = a.lower := by
  induction writes generalizing a with
  | nil => rfl
  | cons w writes ih => exact ih (a.set w.1 w.2)

@[simp] theorem upper_setAll (a : ArrayStore) (writes : List (Int × Value)) :
    (a.setAll writes).upper = a.upper := by
  induction writes generalizing a with
  | nil => rfl
  | cons w writes ih => exact ih (a.set w.1 w.2)

@[simp] theorem elementType_setAll (a : ArrayStore) (writes : List (Int × Value)) :
    (a.setAll writes).elementType = a.elementType := by
  induction writes generalizing a with
  | nil => rfl
  | cons w writes ih => exact ih (a.set w.1 w.2)

theorem inBounds_setAll (a : ArrayStore) (writes : List (Int × Value)) (i : Int) :
    (a.setAll writes).inBounds i = a.inBounds i := by
  simp [inBounds]

/-- By induction on the writes: each one hides what was at its index before. -/
theorem getElem?_slots_setAll (a : ArrayStore) (writes : List (Int × Value)) (i : Int) :
    (a.setAll writes).slots[i]? = (lastAt writes i).or a.slots[i]? := by
  induction writes generalizing a with
  | nil => rfl
  | cons w writes ih =>
    have hset : (a.set w.1 w.2).slots[i]? =
        (if w.1 = i then some w.2 else none).or a.slots[i]? := by
      rw [getElem?_slots_set]
      split <;> rfl
    calc ((a.set w.1 w.2).setAll writes).slots[i]?
        = (lastAt writes i).or (a.set w.1 w.2).slots[i]? := ih _
      _ = (lastAt (w :: writes) i).or a.slots[i]? := by
        rw [hset, lastAt_cons, Option.or_assoc]

theorem Covered.setAll (h : a.Covered) (writes : List (Int × Value)) :
    (a.setAll writes).Covered := by
  induction writes generalizing a with
  | nil => exact h
  | cons w writes ih => exact ih (h.set w.1 w.2)

/-- What a new array holds after writes: between its bounds the defaults underneath, elsewhere only
what was written. -/
theorem getElem?_slots_setAll_create (lower upper : Int) (type : String)
    (writes : List (Int × Value)) (i : Int) :
    ((create lower upper type).setAll writes).slots[i]? =
      if lower ≤ i ∧ i ≤ upper then some ((lastAt writes i).getD (.default type))
      else lastAt writes i := by
  rw [getElem?_slots_setAll, getElem?_slots_create]
  split
  · cases lastAt writes i <;> rfl
  · exact Option.or_none

theorem lastAt_filter {p : Int → Bool} {i : Int} (h : p i = true) (writes : List (Int × Value)) :
    lastAt (writes.filter fun w => p w.1) i = lastAt writes i := by
  induction writes with
  | nil => rfl
  | cons w writes ih =>
    rw [List.filter_cons, lastAt_cons, ← ih]
    split
    · rw [lastAt_cons]
    · rename_i hw
      have hne : w.1 ≠ i := by
        rintro rfl
        exact hw h
      rw [if_neg hne, Option.or_none]

/-- Arrays that nothing but their slots out of bounds tells apart. -/
structure Alike (a b : ArrayStore) : Prop where
  lower : a.lower = b.lower
  upper : a.upper = b.upper
  elementType : a.elementType = b.elementType
  slots : ∀ i, a.inBounds i = true → a.slots[i]? = b.slots[i]?

theorem Alike.inBounds (h : Alike a b) (i : Int) : a.inBounds i = b.inBounds i := by
  rw [ArrayStore.inBounds, ArrayStore.inBounds, h.lower, h.upper]

theorem Alike.get? (h : Alike a b) (i : Int) : a.get? i = b.get? i := by
  rw [ArrayStore.get?, ArrayStore.get?, ← h.inBounds]
  split
  · exact h.slots i ‹_›
  · rfl

/-- Both lists ascend, so it is enough that they have the same members. -/
theorem Alike.elements (h : Alike a b) : a.elements = b.elements := by
  have : Std.Irrefl fun s t : Int × Value => s.1 < t.1 := ⟨fun s => lt_irrefl s.1⟩
  apply a.pairwise_elements.eq_of_mem_iff b.pairwise_elements
  rintro ⟨i, v⟩
  rw [mem_elements, mem_elements, ← h.inBounds, and_congr_right_iff]
  intro hi
  rw [h.slots i hi]

theorem Alike.size (h : Alike a b) : a.size = b.size := by
  rw [size_eq_length, size_eq_length, h.elements]

theorem Alike.row (h : Alike a b) (name : String) :
    Table.row name (.array a) = Table.row name (.array b) := by
  simp only [Table.row, Cell.array, Table.cellType, Table.cellValue, h.lower, h.upper,
    h.elementType, h.elements]

theorem Alike.ofCell (h : Alike a b) : Json.ofCell (.array a) = Json.ofCell (.array b) := by
  simp only [Cell.array, Json.ofCell, Json.ofArray, h.lower, h.upper, h.elements]

/-- Neither format of memory tells them apart, whatever else memory holds. -/
theorem Alike.render (h : Alike a b) (format : MemoryFormat) (compact : Bool) (memory : Frame)
    (name : String) :
    format.render compact (memory.insert name (.array a)) =
      format.render compact (memory.insert name (.array b)) := by
  cases format with
  | table =>
    have hrows := Dict.map_insertEntry_congr (a := .array a) (b := .array b)
      (fun entry : String × Cell => Table.row entry.1 entry.2) (h.row name) memory.entries
    simp only [MemoryFormat.render, Table.render, Table.rows, Dict.insert, Dict.isEmpty_insertEntry,
      hrows]
  | json =>
    have hmembers := Dict.map_insertEntry_congr (a := .array a) (b := .array b)
      (fun entry : String × Cell => (entry.1, Json.ofCell entry.2))
      (congrArg (Prod.mk name) h.ofCell) memory.entries
    simp only [MemoryFormat.render, Json.ofMemory, Json.ofCells_eq_map, Dict.insert, hmembers]

theorem alike_setAll_filter (a : ArrayStore) (writes : List (Int × Value)) :
    Alike (a.setAll writes)
      (a.setAll (writes.filter fun w => a.lower ≤ w.1 ∧ w.1 ≤ a.upper)) := by
  constructor
  · rw [lower_setAll, lower_setAll]
  · rw [upper_setAll, upper_setAll]
  · rw [elementType_setAll, elementType_setAll]
  · intro i hi
    rw [inBounds_setAll, inBounds_iff] at hi
    have hlast := lastAt_filter (p := fun i => a.lower ≤ i ∧ i ≤ a.upper) (decide_eq_true hi) writes
    rw [getElem?_slots_setAll, getElem?_slots_setAll, hlast]

end ArrayStore

namespace Environment

variable (env : Environment)

/-- Between bounds that are whole numbers, their difference decides alone. -/
theorem declareArrays_of_index? {lower upper : Int} {l u : Value} (names : List String)
    (type : String) (hl : l.index? = some lower) (hu : u.index? = some upper) :
    (ArrayStore.maxSize ≤ ArrayStore.saturatingSub upper lower →
      env.declareArrays names l u type = .error (.tooManyElements (names.headD ""))) ∧
    (ArrayStore.saturatingSub upper lower < ArrayStore.maxSize →
      ∃ env', env.declareArrays names l u type = .ok env') := by
  simp only [declareArrays, bound, hl, hu]
  constructor
  · intro h
    exact if_pos h
  · intro h
    exact ⟨_, if_neg (Int.not_le.mpr h)⟩

theorem declareArrays_tooMany_iff {lower upper : Int} {l u : Value} (names : List String)
    (type : String) (hl : l.index? = some lower) (hu : u.index? = some upper) :
    env.declareArrays names l u type = .error (.tooManyElements (names.headD "")) ↔
      ArrayStore.maxSize ≤ ArrayStore.saturatingSub upper lower := by
  obtain ⟨hmany, hok⟩ := env.declareArrays_of_index? names type hl hu
  constructor
  · intro herror
    by_contra hsize
    obtain ⟨env', henv⟩ := hok (Int.not_le.mp hsize)
    rw [henv] at herror
    cases herror
  · exact hmany

theorem declareArrays_ok_iff {lower upper : Int} {l u : Value} (names : List String)
    (type : String) (hl : l.index? = some lower) (hu : u.index? = some upper) :
    (∃ env', env.declareArrays names l u type = .ok env') ↔
      ArrayStore.saturatingSub upper lower < ArrayStore.maxSize := by
  obtain ⟨hmany, hok⟩ := env.declareArrays_of_index? names type hl hu
  constructor
  · rintro ⟨env', henv⟩
    by_contra hsize
    rw [hmany (Int.not_lt.mp hsize)] at henv
    cases henv
  · exact hok

end Environment

open ArrayStore in
/-- After any writes, a read between the bounds gives what was written last or else the default, and
the elements are the indices between the bounds in ascending order with these values. They are the
slots between the bounds, and writes elsewhere change nothing of what is read, counted or shown.
Declarations are refused exactly if the array would have more than a million elements. -/
theorem array_is_defaulted_map (lower upper : Int) (type : String) (writes : List (Int × Value)) :
    let a := (create lower upper type).setAll writes
    let b := (create lower upper type).setAll (writes.filter fun w => lower ≤ w.1 ∧ w.1 ≤ upper)
    let held i := (lastAt writes i).getD (Value.default type)
    (∀ i, a.get? i = if lower ≤ i ∧ i ≤ upper then some (held i) else none) ∧
    ((∀ i v, (i, v) ∈ a.elements ↔ (lower ≤ i ∧ i ≤ upper) ∧ v = held i) ∧
      a.elements.Pairwise fun s t => s.1 < t.1) ∧
    (a.size = max 0 (upper - lower + 1) ∧ a.size = a.elements.length) ∧
    ((∀ i, a.slots[i]? = if lower ≤ i ∧ i ≤ upper then some (held i) else lastAt writes i) ∧
      (a.slots.toList.Pairwise fun s t => s.1 < t.1) ∧
      (a.slots.toList.filter fun s => lower ≤ s.1 ∧ s.1 ≤ upper) = a.elements) ∧
    ((∀ i, a.get? i = b.get? i) ∧ a.size = b.size ∧ a.elements = b.elements ∧
      ∀ (format : MemoryFormat) (compact : Bool) (memory : Frame) (name : String),
        format.render compact (memory.insert name (.array a)) =
          format.render compact (memory.insert name (.array b))) ∧
    (1000000 ≤ saturatingSub upper lower ↔ 1000000 < max 0 (upper - lower + 1)) ∧
    ∀ (env : Environment) (names : List String) (l u : Value),
      l.index? = some lower → u.index? = some upper →
      (env.declareArrays names l u type = .error (.tooManyElements (names.headD "")) ↔
        1000000 ≤ saturatingSub upper lower) ∧
      ((∃ env', env.declareArrays names l u type = .ok env') ↔
        max 0 (upper - lower + 1) ≤ 1000000) := by
  intro a b held
  have hlower : a.lower = lower := lower_setAll ..
  have hupper : a.upper = upper := upper_setAll ..
  have hwithin : ∀ i, a.inBounds i = decide (lower ≤ i ∧ i ≤ upper) := by
    intro i
    rw [inBounds, hlower, hupper, Bool.decide_and]
  have hslots : ∀ i, a.slots[i]? =
      if lower ≤ i ∧ i ≤ upper then some (held i) else lastAt writes i :=
    getElem?_slots_setAll_create lower upper type writes
  have hcovered : a.Covered := (covered_create lower upper type).setAll writes
  have halike : Alike a b := alike_setAll_filter (create lower upper type) writes
  have hdifference := saturatingSub_lt_maxSize_iff lower upper
  simp only [maxSize] at hdifference
  refine ⟨?_, ⟨?_, a.pairwise_elements⟩, ⟨?_, a.size_eq_length⟩, ⟨hslots, a.pairwise_toList, ?_⟩,
    ⟨halike.get?, halike.size, halike.elements, halike.render⟩, by omega, ?_⟩
  · intro i
    by_cases hi : lower ≤ i ∧ i ≤ upper
    · simp [get?, hwithin, hslots, hi]
    · simp [get?, hwithin, hi]
  · intro i v
    rw [mem_elements, hwithin, decide_eq_true_eq, hslots, and_congr_right_iff]
    intro hi
    rw [if_pos hi, Option.some_inj, eq_comm]
  · rw [hcovered.size, hlower, hupper, Int.ofNat_toNat, max_comm]
  · simpa only [hwithin] using a.elements_eq.symm
  · intro env names l u hl hu
    rw [env.declareArrays_tooMany_iff names type hl hu, env.declareArrays_ok_iff names type hl hu]
    simp only [maxSize]
    omega

open ArrayStore in
/-- The largest array that is allowed, written at both of its ends and at both ends of the 64-bit
range. -/
theorem array_is_defaulted_map_largest :
    let l : Value := .number (-1)
    let u : Value := .number 999998
    let writes := [(-1, .text "a"), (Int64.maxValue.toInt, .text "b"), (999998, .text "c"),
      (Int64.minValue.toInt, .text "d"), (-1, .null)]
    let a := (create (-1) 999998 "STRING").setAll writes
    (l.index? = some (-1) ∧ u.index? = some 999998) ∧
    (∃ env, Environment.empty.declareArrays ["a"] l u "STRING" = .ok env) ∧
    a.size = 1000000 ∧ a.get? (-1) = some .null ∧ a.get? 0 = some (.default "STRING") ∧
    a.get? Int64.minValue.toInt = none ∧ a.slots[Int64.maxValue.toInt]? = some (.text "b") := by
  intro l u writes a
  have hl : l.index? = some (-1) := by decide
  have hu : u.index? = some 999998 := by decide
  obtain ⟨hget, _, hsize, hslots, _, _, hdeclare⟩ := array_is_defaulted_map (-1) 999998 "STRING" writes
  refine ⟨⟨hl, hu⟩, ?_, ?_, hget (-1), hget 0, hget _, hslots.1 _⟩
  · exact (hdeclare _ ["a"] l u hl hu).2.mpr (by decide)
  · exact Int.ofNat.inj (hsize.1.trans (by decide))

end Chalkboard
