import Mathlib.Data.List.Sort
import Chalkboard.Memory.ArrayStore

/-! # The slots of arrays

An array is a map from indices to values, and its elements are a range of that map. From the start
the range has an entry for each index between the bounds, and a write never takes one out, so that
the elements are those indices with their values and nothing else is counted.
-/

namespace Chalkboard.ArrayStore

variable {a : ArrayStore} {lower upper i : Int} {v : Value}

theorem mem_indices : i ∈ indices lower upper ↔ lower ≤ i ∧ i ≤ upper := by
  simp only [indices, List.mem_map, List.mem_range, Int.ofNat_eq_natCast]
  constructor
  · rintro ⟨n, hn, rfl⟩
    omega
  · rintro ⟨hl, hu⟩
    exact ⟨(i - lower).toNat, by omega, by omega⟩

theorem pairwise_indices (lower upper : Int) : (indices lower upper).Pairwise (· < ·) := by
  rw [indices, List.pairwise_map]
  apply List.pairwise_lt_range.imp
  intro m n h
  show lower + Int.ofNat m < lower + Int.ofNat n
  simp only [Int.ofNat_eq_natCast]
  omega

@[simp] theorem length_indices (lower upper : Int) :
    (indices lower upper).length = (upper - lower + 1).toNat := by
  simp [indices]

theorem getElem?_slots_create (lower upper : Int) (type : String) (i : Int) :
    (create lower upper type).slots[i]? =
      if lower ≤ i ∧ i ≤ upper then some (.default type) else none := by
  split
  · rename_i hi
    have hmem : (i, Value.default type) ∈ (indices lower upper).map (·, Value.default type) :=
      List.mem_map_of_mem (mem_indices.mpr hi)
    refine Std.TreeMap.getElem?_ofList_of_mem Std.compare_self ?_ hmem
    rw [List.pairwise_map]
    apply (pairwise_indices lower upper).imp
    intro m n h
    rw [compare_eq_iff_eq]
    exact ne_of_lt h
  · rename_i hi
    apply Std.TreeMap.getElem?_ofList_of_contains_eq_false
    simpa [mem_indices] using hi

theorem pairwise_toList (a : ArrayStore) : a.slots.toList.Pairwise fun s t => s.1 < t.1 :=
  Std.TreeMap.ordered_keys_toList.imp compare_lt_iff_lt.mp

/-- The elements are the slots between the bounds; reversed bounds have none between them. -/
theorem elements_eq (a : ArrayStore) :
    a.elements = a.slots.toList.filter fun slot => a.inBounds slot.1 := by
  unfold elements
  split
  · rename_i h
    symm
    rw [List.filter_eq_nil_iff]
    intro slot _
    rw [inBounds_iff]
    omega
  · exact between_eq a _

theorem size_eq_length (a : ArrayStore) : a.size = a.elements.length := by
  unfold size elements
  split <;> rfl

theorem mem_elements : (i, v) ∈ a.elements ↔ a.inBounds i = true ∧ a.slots[i]? = some v := by
  rw [elements_eq, List.mem_filter, Std.TreeMap.mem_toList_iff_getElem?_eq_some, and_comm]

theorem pairwise_elements (a : ArrayStore) : a.elements.Pairwise fun s t => s.1 < t.1 := by
  rw [elements_eq]
  exact a.pairwise_toList.filter _

/-- There is a slot for each index between the bounds. -/
def Covered (a : ArrayStore) : Prop :=
  ∀ i, a.lower ≤ i → i ≤ a.upper → ∃ v, a.slots[i]? = some v

theorem covered_create (lower upper : Int) (type : String) : (create lower upper type).Covered := by
  intro i hl hu
  exact ⟨.default type, by rw [getElem?_slots_create, if_pos ⟨hl, hu⟩]⟩

theorem Covered.set (h : a.Covered) (i : Int) (v : Value) : (a.set i v).Covered := by
  intro j hl hu
  rw [getElem?_slots_set]
  split
  · exact ⟨v, rfl⟩
  · exact h j hl hu

theorem Covered.get? (h : a.Covered) (hl : a.lower ≤ i) (hu : i ≤ a.upper) :
    ∃ v, a.slots[i]? = some v ∧ a.get? i = some v := by
  obtain ⟨v, hv⟩ := h i hl hu
  exact ⟨v, hv, by rw [ArrayStore.get?, if_pos ((inBounds_iff a i).mpr ⟨hl, hu⟩), hv]⟩

theorem Covered.get?_eq_none_iff (h : a.Covered) :
    a.get? i = none ↔ ¬(a.lower ≤ i ∧ i ≤ a.upper) := by
  constructor
  · rintro hnone ⟨hl, hu⟩
    obtain ⟨v, -, hv⟩ := h.get? hl hu
    rw [hnone] at hv
    cases hv
  · intro hb
    rw [← inBounds_iff] at hb
    rw [ArrayStore.get?, if_neg hb]

/-- Two ascending lists with the same indices are the same. -/
theorem Covered.keys_elements (h : a.Covered) :
    a.elements.map Prod.fst = indices a.lower a.upper := by
  have hpairwise : (a.elements.map Prod.fst).Pairwise (· < ·) :=
    List.pairwise_map.mpr a.pairwise_elements
  apply hpairwise.eq_of_mem_iff (pairwise_indices a.lower a.upper)
  intro i
  rw [List.mem_map, mem_indices]
  constructor
  · rintro ⟨⟨j, v⟩, hj, rfl⟩
    exact (inBounds_iff a j).mp (mem_elements.mp hj).1
  · rintro ⟨hl, hu⟩
    obtain ⟨v, hv⟩ := h i hl hu
    exact ⟨(i, v), mem_elements.mpr ⟨(inBounds_iff a i).mpr ⟨hl, hu⟩, hv⟩, rfl⟩

theorem Covered.size (h : a.Covered) : a.size = (a.upper - a.lower + 1).toNat := by
  rw [size_eq_length, ← List.length_map Prod.fst, h.keys_elements, length_indices]

/-- Only differences far beyond the allowed size are held at the ends of the range. -/
theorem saturatingSub_lt_maxSize_iff (lower upper : Int) :
    saturatingSub upper lower < maxSize ↔ (upper - lower + 1).toNat ≤ maxSize := by
  rw [saturatingSub, Int64.toInt_minValue, Int64.toInt_maxValue]
  simp only [maxSize]
  omega

end Chalkboard.ArrayStore
