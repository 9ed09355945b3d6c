import Mathlib.Algebra.Order.Field.Power
import Mathlib.Data.Int.Log
import Mathlib.Data.Rat.Cast.Order
import Mathlib.Data.Rat.Floor
import Mathlib.Tactic.FieldSimp
import Mathlib.Tactic.NormNum
import Mathlib.Tactic.Positivity
import Mathlib.Tactic.Linarith
import Chalkboard.Number.Shortest
import Chalkboard.Proofs.DoubleParts

/-! # The interval of a double

The rational numbers that are nearer to a double than to its neighbours fill an interval around it,
which is shorter below a power of two. The comparisons and divisions of the conversion are made on
natural numbers; here they are read as comparisons of rationals, and every numeral with a value in
the interval of a double is converted to that double.
-/

namespace Chalkboard

theorem zpow_eq_div (b : ℕ) (k : ℤ) : (b : ℚ) ^ k = (b : ℚ) ^ k.toNat / (b : ℚ) ^ (-k).toNat := by
  obtain ⟨n, rfl | rfl⟩ := k.eq_nat_or_neg <;> simp

theorem cast_mul_div (n b : ℕ) (k : ℤ) :
    ((n * b ^ k.toNat : ℕ) : ℚ) / ((b ^ (-k).toNat : ℕ) : ℚ) = n * (b : ℚ) ^ k := by
  rw [zpow_eq_div, ← mul_div_assoc]
  push_cast
  rfl

namespace Double

variable {n d m : ℕ} {q : ℤ} {v : ℚ}

theorem scaled_le_iff {b : ℕ} (hb : 1 < b) (hd : 0 < d) (k : ℤ) :
    d * b ^ k.toNat ≤ n * b ^ (-k).toNat ↔ (b : ℚ) ^ k ≤ n / d := by
  have hb : (0 : ℚ) < b := by exact_mod_cast Nat.zero_lt_of_lt hb
  have hd : (0 : ℚ) < d := by exact_mod_cast hd
  rw [zpow_eq_div, div_le_div_iff₀ (by positivity) hd, mul_comm d]
  exact_mod_cast Iff.rfl

theorem cast_scaled_div (n d : ℕ) (q : ℤ) :
    ((n * 2 ^ (-q).toNat : ℕ) : ℚ) / ((d * 2 ^ q.toNat : ℕ) : ℚ) = n / d / 2 ^ q := by
  have hpow := zpow_eq_div 2 q
  push_cast at hpow ⊢
  rw [hpow]
  field_simp

theorem log_div_bounds {b i j : ℕ} (hb : 1 < b) (hn : b ^ i ≤ n ∧ n < b ^ (i + 1))
    (hd : b ^ j ≤ d ∧ d < b ^ (j + 1)) :
    (i : ℤ) - j - 1 ≤ Int.log b (n / d : ℚ) ∧ Int.log b (n / d : ℚ) < (i : ℤ) - j + 1 := by
  have hb0 : (b : ℚ) ≠ 0 := by positivity
  have hn' : (b : ℚ) ^ (i : ℤ) ≤ n ∧ (n : ℚ) < b ^ ((i : ℤ) + 1) := by exact_mod_cast hn
  have hd' : (b : ℚ) ^ (j : ℤ) ≤ d ∧ (d : ℚ) < b ^ ((j : ℤ) + 1) := by exact_mod_cast hd
  have hn0 : (0 : ℚ) < n := lt_of_lt_of_le (by positivity) hn'.1
  have hd0 : (0 : ℚ) < d := lt_of_lt_of_le (by positivity) hd'.1
  have hv : (0 : ℚ) < n / d := by positivity
  constructor
  · rw [← Int.zpow_le_iff_le_log hb hv, le_div_iff₀ hd0]
    calc (b : ℚ) ^ ((i : ℤ) - j - 1) * d ≤ b ^ ((i : ℤ) - j - 1) * b ^ ((j : ℤ) + 1) := by
          gcongr
          exact hd'.2.le
      _ = b ^ (i : ℤ) := by
          rw [← zpow_add₀ hb0]
          ring_nf
      _ ≤ n := hn'.1
  · rw [← Int.lt_zpow_iff_log_lt hb hv, div_lt_iff₀ hd0]
    calc (n : ℚ) < b ^ ((i : ℤ) + 1) := hn'.2
      _ = b ^ ((i : ℤ) - j + 1) * b ^ (j : ℤ) := by
          rw [← zpow_add₀ hb0]
          ring_nf
      _ ≤ b ^ ((i : ℤ) - j + 1) * d := by
          gcongr
          exact hd'.1

/-- A quotient has the logarithm that its two sides lead to, or one less. -/
theorem log_ratio {b i j : ℕ} (hb : 1 < b) (hn : b ^ i ≤ n ∧ n < b ^ (i + 1))
    (hd : b ^ j ≤ d ∧ d < b ^ (j + 1)) {guess : ℤ} (hguess : guess = i - j) :
    (if d * b ^ guess.toNat ≤ n * b ^ (-guess).toNat then guess else guess - 1) =
      Int.log b (n / d : ℚ) := by
  subst hguess
  have hn0 : 0 < n := lt_of_lt_of_le (by positivity) hn.1
  have hd0 : 0 < d := lt_of_lt_of_le (by positivity) hd.1
  have hv : (0 : ℚ) < n / d := by positivity
  obtain ⟨hlow, hhigh⟩ := log_div_bounds hb hn hd
  simp only [scaled_le_iff hb hd0, Int.zpow_le_iff_le_log hb hv]
  split <;> omega

theorem log2Ratio_eq (hn : 0 < n) (hd : 0 < d) : log2Ratio n d = Int.log 2 (n / d : ℚ) :=
  log_ratio (by decide) ⟨Nat.log2_self_le hn.ne', Nat.lt_log2_self⟩
    ⟨Nat.log2_self_le hd.ne', Nat.lt_log2_self⟩ rfl

/-- The numbers from `below` under `m` to a half above it. The two ends are among them if `m` is
even. -/
structure Around (m : ℕ) (below w : ℚ) : Prop where
  low : m - below ≤ w
  high : w ≤ m + 1 / 2
  inner : m % 2 = 1 → m - below < w ∧ w < m + 1 / 2

/-- The interval of `m`, for a quotient, in natural numbers. -/
theorem Around.scaled (hd : 0 < d) (h : Around m (1 / 2) (n / d)) :
    2 * (m * d) ≤ 2 * n + d ∧ 2 * n ≤ 2 * (m * d) + d ∧
      (m % 2 = 1 → 2 * (m * d) < 2 * n + d ∧ 2 * n < 2 * (m * d) + d) := by
  have hd' : (0 : ℚ) < d := by exact_mod_cast hd
  refine ⟨?_, ?_, ?_⟩
  · have hlow := h.low
    rw [le_div_iff₀ hd'] at hlow
    have hlow : (2 * (m * d) : ℚ) ≤ 2 * n + d := by linarith
    exact_mod_cast hlow
  · have hhigh := h.high
    rw [div_le_iff₀ hd'] at hhigh
    have hhigh : (2 * n : ℚ) ≤ 2 * (m * d) + d := by linarith
    exact_mod_cast hhigh
  · intro hm
    obtain ⟨hlow, hhigh⟩ := h.inner hm
    rw [lt_div_iff₀ hd'] at hlow
    rw [div_lt_iff₀ hd'] at hhigh
    have hlow : (2 * (m * d) : ℚ) < 2 * n + d := by linarith
    have hhigh : (2 * n : ℚ) < 2 * (m * d) + d := by linarith
    exact ⟨by exact_mod_cast hlow, by exact_mod_cast hhigh⟩

/-- A multiple of `d` that is no further than a half of `d` from `k * d + r` is one of the two
around it. -/
theorem eq_or_eq_succ {k r : ℕ} (hr : r < d) (hlow : 2 * (m * d) ≤ 2 * (k * d + r) + d)
    (hhigh : 2 * (k * d + r) ≤ 2 * (m * d) + d) : m = k ∨ m = k + 1 := by
  by_contra hne
  rcases Nat.lt_or_ge m k with hlt | hge
  · have hle : (m + 1) * d ≤ k * d := Nat.mul_le_mul_right d hlt
    rw [Nat.add_mul] at hle
    omega
  · have hle : (k + 2) * d ≤ m * d := Nat.mul_le_mul_right d (by omega)
    rw [Nat.add_mul] at hle
    omega

theorem roundDiv_eq (hd : 0 < d) (h : Around m (1 / 2) (n / d)) : roundDiv n d = m := by
  obtain ⟨hlow, hhigh, hodd⟩ := h.scaled hd
  have hdiv : n / d * d + n % d = n := Nat.div_add_mod' n d
  have hmod : n % d < d := Nat.mod_lt n hd
  unfold roundDiv
  generalize n / d = k at hdiv
  generalize n % d = r at hdiv hmod
  subst hdiv
  obtain rfl | rfl := eq_or_eq_succ hmod hlow hhigh
  · split
    · rfl
    · rename_i heq
      rw [Nat.compare_eq_eq] at heq
      have heven : ¬ m % 2 = 1 := fun hm => by have := hodd hm; omega
      omega
    · rename_i hgt
      rw [Nat.compare_eq_gt] at hgt
      omega
  · rw [Nat.add_mul] at hlow hhigh hodd
    split
    · rename_i hlt
      rw [Nat.compare_eq_lt] at hlt
      omega
    · rename_i heq
      rw [Nat.compare_eq_eq] at heq
      have heven : ¬ (k + 1) % 2 = 1 := fun hm => by have := hodd hm; omega
      omega
    · rfl

/-- The numbers whose nearest double is `m · 2 ^ q`, for a canonical `m` and `q`. -/
def IsNearest (m : ℕ) (q : ℤ) (v : ℚ) : Prop :=
  Around m (Shortest.gapBelow m q / 4) (v / 2 ^ q)

/-- The interval is nowhere wider than what is rounded to `m`. -/
theorem IsNearest.around (h : IsNearest m q v) : Around m (1 / 2) (v / 2 ^ q) := by
  have hgap : (Shortest.gapBelow m q : ℚ) / 4 ≤ 1 / 2 := by
    unfold Shortest.gapBelow
    split <;> norm_num
  obtain ⟨hlow, hhigh, hinner⟩ := h
  constructor
  · linarith
  · exact hhigh
  · intro hm
    obtain ⟨hlow, hhigh⟩ := hinner hm
    constructor
    · linarith
    · exact hhigh

theorem isNearest_self (m : ℕ) (q : ℤ) : IsNearest m q (m * 2 ^ q) := by
  have hgap : (0 : ℚ) < Shortest.gapBelow m q / 4 := by
    unfold Shortest.gapBelow
    split <;> norm_num
  rw [IsNearest, mul_div_cancel_right₀ _ (by positivity)]
  constructor
  · linarith
  · linarith
  · intro _
    constructor <;> linarith

theorem IsNearest.pos (h : IsNearest m q v) (hm : 0 < m) : 0 < v := by
  have hlow := h.around.low
  have hm : (1 : ℚ) ≤ m := by exact_mod_cast hm
  have hw : 0 < v / 2 ^ q := by linarith
  exact (div_pos_iff_of_pos_right (by positivity)).mp hw

theorem le_log_iff (hv : 0 < v) (k : ℕ) : k + q ≤ Int.log 2 v ↔ 2 ^ k ≤ v / 2 ^ q := by
  rw [← Int.zpow_le_iff_le_log (by decide) hv, le_div_iff₀ (by positivity)]
  push_cast
  rw [zpow_add₀ (by norm_num), zpow_natCast]

theorem log_lt_iff (hv : 0 < v) (k : ℕ) : Int.log 2 v < k + q ↔ v / 2 ^ q < 2 ^ k := by
  rw [← not_le, ← not_le, le_log_iff hv]

/-- Below a power of two the numbers of the interval have a smaller exponent, and with it they are
rounded up to that power. -/
theorem IsNearest.carry (h : IsNearest m q v) (hm : 0 < m) (hnormal : 2 ^ 52 ≤ m)
    (hq : leastExponent < q) (hlt : v / 2 ^ q < 2 ^ 52) :
    m = 2 ^ 52 ∧ Int.log 2 v = 51 + q ∧ Around (2 ^ 53) (1 / 2) (v / 2 ^ (q - 1)) := by
  have hv := h.pos hm
  have hpower : m = 2 ^ 52 := by
    have hlow := h.around.low
    have : (m : ℚ) < 2 ^ 52 + 1 := by linarith
    have : m < 2 ^ 52 + 1 := by exact_mod_cast this
    omega
  have hgap : Shortest.gapBelow m q = 1 := if_pos ⟨hpower, hq⟩
  have hlow : (2 : ℚ) ^ 52 - 1 / 4 ≤ v / 2 ^ q := by
    have hlow := h.low
    rw [hgap, hpower] at hlow
    exact_mod_cast hlow
  have hlog : 51 + q ≤ Int.log 2 v ∧ Int.log 2 v < 52 + q := by
    constructor
    · apply (le_log_iff hv 51).mpr
      linarith
    · exact (log_lt_iff hv 52).mpr hlt
  have htwice : v / 2 ^ (q - 1) = 2 * (v / 2 ^ q) := by
    rw [zpow_sub_one₀ (by norm_num)]
    field_simp
  refine ⟨hpower, by omega, ?_⟩
  rw [htwice]
  constructor
  · push_cast
    linarith
  · push_cast
    linarith
  · intro hodd
    cases hodd

/-- A number in the interval of a double is rounded with the exponent of that double, or with the
one before it. -/
theorem IsNearest.exponent (h : IsNearest m q v) (hm : 0 < m) (hcanonical : Canonical m q) :
    max leastExponent (Int.log 2 v - 52) = q ∨
      m = 2 ^ 52 ∧ max leastExponent (Int.log 2 v - 52) = q - 1 ∧
      Around (2 ^ 53) (1 / 2) (v / 2 ^ (q - 1)) := by
  have hv := h.pos hm
  have hleast : leastExponent = -1074 := rfl
  have hle := hcanonical.le
  have habove : Int.log 2 v < 53 + q := by
    apply (log_lt_iff hv 53).mpr
    have hhigh := h.around.high
    have hlt : (m : ℚ) + 1 ≤ 2 ^ 53 := by exact_mod_cast hcanonical.lt
    linarith
  by_cases hpower : 2 ^ 52 ≤ v / 2 ^ q
  · have hbelow : 52 + q ≤ Int.log 2 v := (le_log_iff hv 52).mpr hpower
    exact .inl (by omega)
  · have hlt := lt_of_not_ge hpower
    have hbelow : Int.log 2 v < 52 + q := (log_lt_iff hv 52).mpr hlt
    by_cases hq : q = -1074
    · exact .inl (by omega)
    · have hnormal : 2 ^ 52 ≤ m := hcanonical.normal.resolve_right hq
      obtain ⟨hpower, hlog, hcarry⟩ := h.carry hm hnormal (by omega) hlt
      exact .inr ⟨hpower, by omega, hcarry⟩

theorem nearestBits_eq (hn : 0 < n) (hd : 0 < d) (hm : 0 < m) (hcanonical : Canonical m q)
    (hq : q ≤ 971)
    (h : IsNearest m q (n / d)) : nearestBits n d = (q - leastExponent).toNat * 2 ^ 52 + m := by
  have hle := hcanonical.le
  have hlt := hcanonical.lt
  unfold nearestBits
  dsimp only [Nat.pow_eq]
  rw [log2Ratio_eq hn hd]
  have hround : ∀ {k : ℕ} {r : ℤ}, Around k (1 / 2) (n / d / 2 ^ r) →
      roundDiv (n * 2 ^ (-r).toNat) (d * 2 ^ r.toNat) = k := by
    intro k r hk
    apply roundDiv_eq
    · positivity
    · rw [cast_scaled_div]
      exact hk
  have hinfinity : (q - leastExponent).toNat * 2 ^ 52 + m ≤ infinityBits := by
    change _ ≤ 2047 * 2 ^ 52
    unfold leastExponent
    omega
  rcases h.exponent hm hcanonical with hexponent | ⟨rfl, hexponent, hcarry⟩
  · rw [hexponent, hround h.around, Nat.min_eq_left hinfinity]
  · have hleast : leastExponent ≤ q - 1 := hexponent ▸ le_max_left _ _
    have hstep : (q - 1 - leastExponent).toNat * 2 ^ 52 + 2 ^ 53 =
        (q - leastExponent).toNat * 2 ^ 52 + 2 ^ 52 := by omega
    rw [hexponent, hround hcarry, hstep, Nat.min_eq_left hinfinity]

theorem least_lt : 2 ^ 1075 < 10 ^ 324 := by decide +kernel

theorem greatest_lt : 2 ^ 1024 < 10 ^ 309 := by decide +kernel

theorem IsNearest.bounds (h : IsNearest m q v) (hm : 0 < m) (hcanonical : Canonical m q)
    (hq : q ≤ 971) : (10 : ℚ) ^ (-324 : ℤ) < v ∧ v < 10 ^ (309 : ℤ) := by
  have hlow : 1 / 2 ≤ v / 2 ^ q := by
    have hlow := h.around.low
    have hm : (1 : ℚ) ≤ m := by exact_mod_cast hm
    linarith
  have hhigh : v / 2 ^ q < 2 ^ 53 := by
    have hhigh := h.around.high
    have hlt : (m : ℚ) + 1 ≤ 2 ^ 53 := by exact_mod_cast hcanonical.lt
    linarith
  rw [le_div_iff₀ (by positivity)] at hlow
  rw [div_lt_iff₀ (by positivity)] at hhigh
  have hleast : (2 : ℚ) ^ 1075 < 10 ^ 324 := by exact_mod_cast least_lt
  have hgreatest : (2 : ℚ) ^ 1024 < 10 ^ 309 := by exact_mod_cast greatest_lt
  constructor
  · calc (10 : ℚ) ^ (-324 : ℤ) = (10 ^ 324)⁻¹ := by rw [zpow_neg, zpow_ofNat]
      _ < (2 ^ 1075)⁻¹ := inv_strictAnti₀ (by positivity) hleast
      _ = 1 / 2 * 2 ^ (-1074 : ℤ) := by
          rw [zpow_neg, zpow_ofNat, pow_succ, mul_inv, mul_comm, one_div]
      _ ≤ 1 / 2 * 2 ^ q :=
          mul_le_mul_of_nonneg_left (zpow_le_zpow_right₀ one_le_two hcanonical.le) (by norm_num)
      _ ≤ v := hlow
  · calc v < 2 ^ 53 * 2 ^ q := hhigh
      _ ≤ 2 ^ 53 * 2 ^ (971 : ℤ) :=
          mul_le_mul_of_nonneg_left (zpow_le_zpow_right₀ one_le_two hq) (by norm_num)
      _ = 2 ^ 1024 := by rw [zpow_ofNat, ← pow_add]
      _ < 10 ^ (309 : ℤ) := by rwa [zpow_ofNat]

end Double

namespace Numeral

def value (n : Numeral) : ℚ := n.significand * 10 ^ n.exponent

theorem lt_pow_log2 (s : ℕ) : s < 10 ^ (s.log2 / 3 + 1) :=
  calc s < 2 ^ (s.log2 + 1) := Nat.lt_log2_self
    _ ≤ 2 ^ (3 * (s.log2 / 3 + 1)) := Nat.pow_le_pow_right (by decide) (by omega)
    _ = 8 ^ (s.log2 / 3 + 1) := Nat.pow_mul ..
    _ ≤ 10 ^ (s.log2 / 3 + 1) := Nat.pow_le_pow_left (by decide) _

theorem pow_log2_le {s : ℕ} (hs : 0 < s) : 10 ^ (3 * s.log2 / 10) ≤ s := by
  have hcube : (10 ^ (3 * s.log2 / 10)) ^ 3 ≤ (2 ^ s.log2) ^ 3 :=
    calc (10 ^ (3 * s.log2 / 10)) ^ 3 = (10 ^ 3) ^ (3 * s.log2 / 10) := Nat.pow_right_comm ..
      _ ≤ (2 ^ 10) ^ (3 * s.log2 / 10) := Nat.pow_le_pow_left (by decide) _
      _ = 2 ^ (10 * (3 * s.log2 / 10)) := (Nat.pow_mul ..).symm
      _ ≤ 2 ^ (s.log2 * 3) := Nat.pow_le_pow_right (by decide) (by omega)
      _ = (2 ^ s.log2) ^ 3 := Nat.pow_mul ..
  exact ((Nat.pow_le_pow_iff_left (by decide)).mp hcube).trans (Nat.log2_self_le hs.ne')

theorem value_le (n : Numeral) : n.value ≤ 10 ^ ((n.significand.log2 / 3 + 1 : ℕ) + n.exponent) :=
  calc n.value ≤ (10 : ℚ) ^ (n.significand.log2 / 3 + 1) * 10 ^ n.exponent := by
        unfold value
        gcongr
        exact_mod_cast (lt_pow_log2 n.significand).le
    _ = 10 ^ ((n.significand.log2 / 3 + 1 : ℕ) + n.exponent) := by
        rw [zpow_add₀ (by norm_num), zpow_natCast]

theorem le_value {n : Numeral} (hs : 0 < n.significand) :
    10 ^ ((3 * n.significand.log2 / 10 : ℕ) + n.exponent) ≤ n.value :=
  calc (10 : ℚ) ^ ((3 * n.significand.log2 / 10 : ℕ) + n.exponent) =
        (10 : ℚ) ^ (3 * n.significand.log2 / 10) * 10 ^ n.exponent := by
        rw [zpow_add₀ (by norm_num), zpow_natCast]
    _ ≤ n.value := by
        unfold value
        gcongr
        exact_mod_cast pow_log2_le hs

/-- A numeral in the interval of a double is converted to that double. -/
theorem toDouble_eq {n : Numeral} {m : ℕ} {q : ℤ} (hm : 0 < m) (hcanonical : Double.Canonical m q)
    (hq : q ≤ 971) (h : Double.IsNearest m q n.value) :
    n.toDouble = Double.ofMagnitude n.negative ((q - Double.leastExponent).toNat * 2 ^ 52 + m) := by
  obtain ⟨hlow, hhigh⟩ := h.bounds hm hcanonical hq
  have hs : 0 < n.significand := by
    rw [Nat.pos_iff_ne_zero]
    intro hzero
    have hpos := h.pos hm
    simp [value, hzero] at hpos
  -- neither of the early answers is given to a numeral in the range of the doubles
  have hsmall : ¬ Int.ofNat n.significand.log2 / 3 + 1 + n.exponent ≤ -324 := by
    intro hexponent
    apply absurd (hlow.trans_le n.value_le) (not_lt_of_ge _)
    gcongr
    · norm_num
    · exact_mod_cast hexponent
  have hlarge : ¬ 308 < 3 * Int.ofNat n.significand.log2 / 10 + n.exponent := by
    intro hexponent
    apply absurd ((le_value hs).trans_lt hhigh) (not_lt_of_ge _)
    gcongr
    · norm_num
    · exact_mod_cast hexponent
  unfold toDouble
  dsimp only [Nat.pow_eq]
  rw [if_neg (by omega), if_neg hlarge, Double.nearest, if_neg (by positivity),
    Double.nearestBits_eq _ _ hm hcanonical hq]
  · rw [cast_mul_div]
    exact h
  · positivity
  · positivity

end Numeral

end Chalkboard
