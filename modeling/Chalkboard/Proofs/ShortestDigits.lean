import Mathlib.Data.Int.Log
import Mathlib.Data.List.TakeWhile
import Chalkboard.Proofs.NearestDouble

/-! # The shortest digits lie in the interval

The search for the shortest digits of a double compares multiples of a power of ten with the ends of
the double's interval. Whatever grid it stops at, the decimal that it takes lies in the interval; on
the last grid, with seventeen digits, the nearer neighbour is always close enough.
-/

namespace Chalkboard

theorem Tie.choose_cases (tie : Tie) (c : ℕ) : tie.choose c = c ∨ tie.choose c = c + 1 := by
  cases tie with
  | up => exact .inr rfl
  | toEven =>
    rcases Nat.mod_two_eq_zero_or_one c with heven | hodd
    · exact .inl (by rw [choose, heven, Nat.add_zero])
    · exact .inr (by rw [choose, hodd])

namespace Shortest

open Double

variable {m : ℕ} {q g : ℤ} {tie : Tie}

def step (q g : ℤ) : ℚ := 10 ^ g / 2 ^ q

theorem step_pos (q g : ℤ) : 0 < step q g := by
  unfold step
  positivity

theorem scales_pos (q g : ℤ) : 0 < (scales q g).1 ∧ 0 < (scales q g).2 := by
  unfold scales
  dsimp only [Nat.pow_eq]
  constructor <;> positivity

theorem scales_eq (q g : ℤ) : ((scales q g).1 : ℚ) = 4 * step q g * (scales q g).2 := by
  have hten : (10 : ℚ) ^ g = 10 ^ g.toNat / 10 ^ (-g).toNat := zpow_eq_div 10 g
  have htwo : (2 : ℚ) ^ (2 - q) = 2 ^ (2 - q).toNat / 2 ^ (q - 2).toNat := by
    rw [← Int.neg_sub 2 q]
    exact zpow_eq_div 2 (2 - q)
  have hfour : (4 : ℚ) / 2 ^ q = 2 ^ (2 - q) := by
    rw [zpow_sub₀ (by norm_num)]
    norm_num
  unfold scales step
  push_cast [Nat.pow_eq]
  rw [← mul_div_assoc, mul_comm 4, mul_div_assoc, hfour, hten, htwo]
  field_simp

/-- Quarters of `2 ^ q` and multiples of `10 ^ g` are compared by their scaled numbers. -/
theorem scaled_le_iff (a c : ℕ) :
    (a * (scales q g).2 ≤ c * (scales q g).1 ↔ (a : ℚ) / 4 ≤ c * step q g) ∧
      (c * (scales q g).1 ≤ a * (scales q g).2 ↔ (c : ℚ) * step q g ≤ a / 4) := by
  have hpos : (0 : ℚ) < (scales q g).2 := by exact_mod_cast (scales_pos q g).2
  have hscaled : (c : ℚ) * (scales q g).1 = c * step q g * 4 * (scales q g).2 := by
    rw [scales_eq]
    ring
  constructor
  · rw [div_le_iff₀ (by norm_num), ← mul_le_mul_iff_left₀ hpos, ← hscaled]
    exact_mod_cast Iff.rfl
  · rw [le_div_iff₀ (by norm_num), ← mul_le_mul_iff_left₀ hpos, ← hscaled]
    exact_mod_cast Iff.rfl

theorem scaled_lt_iff (a c : ℕ) :
    (a * (scales q g).2 < c * (scales q g).1 ↔ (a : ℚ) / 4 < c * step q g) ∧
      (c * (scales q g).1 < a * (scales q g).2 ↔ (c : ℚ) * step q g < a / 4) := by
  obtain ⟨hle, hge⟩ := scaled_le_iff (q := q) (g := g) a c
  constructor
  · rw [← not_le, ← not_le, hge]
  · rw [← not_le, ← not_le, hle]

theorem isNearest_iff (c : ℕ) :
    IsNearest m q (c * 10 ^ g) ↔ Around m (gapBelow m q / 4) (c * step q g) := by
  rw [IsNearest, mul_div_assoc]
  rfl

theorem gapBelow_le (m : ℕ) (q : ℤ) : gapBelow m q ≤ 2 := by
  unfold gapBelow
  split <;> omega

/-- What is said to read back is what lies in the interval. -/
theorem readsBack_iff (hm : 0 < m) (c : ℕ) :
    readsBack m q g c = true ↔ IsNearest m q (c * 10 ^ g) := by
  have hlow : ((4 * m - gapBelow m q : ℕ) : ℚ) / 4 = m - gapBelow m q / 4 := by
    have hgap := gapBelow_le m q
    rw [Nat.cast_sub (by omega)]
    push_cast
    ring
  have hhigh : ((4 * m + 2 : ℕ) : ℚ) / 4 = m + 1 / 2 := by
    push_cast
    ring
  rw [isNearest_iff]
  unfold readsBack
  dsimp only
  split
  · rename_i heven
    rw [decide_eq_true_iff, (scaled_le_iff _ _).1, (scaled_le_iff _ _).2, hlow, hhigh]
    constructor
    · rintro ⟨hlow, hhigh⟩
      exact ⟨hlow, hhigh, fun hodd => by omega⟩
    · intro h
      exact ⟨h.low, h.high⟩
  · rename_i hodd
    rw [decide_eq_true_iff, (scaled_lt_iff _ _).1, (scaled_lt_iff _ _).2, hlow, hhigh]
    constructor
    · intro h
      exact ⟨h.1.le, h.2.le, fun _ => h⟩
    · intro h
      exact h.inner (by omega)

theorem floorOnGrid_spec (m : ℕ) (q g : ℤ) :
    floorOnGrid m q g * step q g ≤ m ∧ m < (floorOnGrid m q g + 1) * step q g := by
  have hquarters : ((4 * m : ℕ) : ℚ) / 4 = m := by
    push_cast
    ring
  have hfloor : floorOnGrid m q g = 4 * m * (scales q g).2 / (scales q g).1 := rfl
  constructor
  · rw [← hquarters, ← (scaled_le_iff _ _).2, hfloor]
    exact Nat.div_mul_le_self _ _
  · have hlt : 4 * m * (scales q g).2 < (floorOnGrid m q g + 1) * (scales q g).1 := by
      rw [hfloor, Nat.add_mul, Nat.one_mul]
      exact Nat.lt_div_mul_add (scales_pos q g).1
    rw [(scaled_lt_iff _ _).1, hquarters] at hlt
    exact_mod_cast hlt

theorem nearestOnGrid_spec (tie : Tie) (m : ℕ) (q g : ℤ) :
    (nearestOnGrid tie m q g = floorOnGrid m q g ∨
      nearestOnGrid tie m q g = floorOnGrid m q g + 1) ∧
      m - step q g / 2 ≤ nearestOnGrid tie m q g * step q g ∧
      nearestOnGrid tie m q g * step q g ≤ m + step q g / 2 := by
  obtain ⟨hfloor, hceil⟩ := floorOnGrid_spec m q g
  -- twice the number is compared with twice the middle between the neighbours
  obtain ⟨hle, hge⟩ := scaled_le_iff (q := q) (g := g) (8 * m) (2 * floorOnGrid m q g + 1)
  rw [show 8 * m * (scales q g).2 = 2 * (4 * m * (scales q g).2) by ring] at hle hge
  push_cast at hle hge
  have hbelow : (m : ℚ) ≤ floorOnGrid m q g * step q g + step q g / 2 →
      m - step q g / 2 ≤ floorOnGrid m q g * step q g ∧
        floorOnGrid m q g * step q g ≤ m + step q g / 2 := by
    have hpos := step_pos q g
    intro h
    constructor <;> linarith
  have habove : floorOnGrid m q g * step q g + step q g / 2 ≤ m →
      m - step q g / 2 ≤ (floorOnGrid m q g + 1 : ℕ) * step q g ∧
        (floorOnGrid m q g + 1 : ℕ) * step q g ≤ m + step q g / 2 := by
    intro h
    push_cast
    constructor <;> linarith
  unfold nearestOnGrid
  dsimp only
  split
  · rename_i hlt
    have hmiddle := hle.mp (Nat.compare_eq_lt.mp hlt).le
    exact ⟨.inl rfl, hbelow (by linarith)⟩
  · rename_i heq
    have hmiddle := hle.mp (Nat.compare_eq_eq.mp heq).le
    have hmiddle' := hge.mp (Nat.compare_eq_eq.mp heq).ge
    obtain hchoice | hchoice := tie.choose_cases (floorOnGrid m q g)
    · rw [hchoice]
      exact ⟨.inl rfl, hbelow (by linarith)⟩
    · rw [hchoice]
      exact ⟨.inr rfl, habove (by linarith)⟩
  · rename_i hgt
    have hmiddle := hge.mp (Nat.compare_eq_gt.mp hgt).le
    exact ⟨.inr rfl, habove (by linarith)⟩

theorem onGrid?_isNearest (hm : 0 < m) {c : ℕ} (h : onGrid? tie m q g = some c) :
    IsNearest m q (c * 10 ^ g) := by
  rw [← readsBack_iff hm]
  unfold onGrid? at h
  dsimp only at h
  split at h
  · rename_i hfloor hceil
    cases h
    rcases (nearestOnGrid_spec tie m q g).1 with hnearest | hnearest
    · rw [hnearest, hfloor]
    · rw [hnearest, hceil]
  · rename_i hfloor _
    cases h
    exact hfloor
  · rename_i _ hceil
    cases h
    exact hceil
  · cases h

/-- A grid of seventeen digits is fine enough for every double. -/
theorem nearestOnGrid_isNearest (hlt : m < 2 ^ 53) (h : (10 : ℚ) ^ (g + 16) ≤ m * 2 ^ q) :
    IsNearest m q (nearestOnGrid tie m q g * 10 ^ g) := by
  have hstep : step q g * 10 ^ 16 ≤ m := by
    rw [zpow_add₀ (by norm_num), ← div_le_iff₀ (by positivity)] at h
    unfold step
    calc (10 : ℚ) ^ g / 2 ^ q * 10 ^ 16 = 10 ^ g * 10 ^ (16 : ℤ) / 2 ^ q := by
          rw [zpow_ofNat]
          ring
      _ ≤ m := h
  have hpos := step_pos q g
  have hhalf : step q g / 2 < gapBelow m q / 4 ∧ step q g / 2 < 1 / 2 := by
    have hm : (m : ℚ) ≤ 2 ^ 53 := by exact_mod_cast hlt.le
    constructor
    · unfold gapBelow
      split
      · rename_i hpower
        have hm : (m : ℚ) = 2 ^ 52 := by exact_mod_cast hpower.1
        push_cast
        linarith
      · push_cast
        linarith
    · linarith
  obtain ⟨-, hbelow, habove⟩ := nearestOnGrid_spec tie m q g
  rw [isNearest_iff]
  constructor
  · linarith
  · linarith
  · intro _
    constructor <;> linarith

/-- The search ends in the interval. With `n` grids left, it has gone `16 - n` steps down from a
grid with one digit. -/
theorem search_isNearest (hm : 0 < m) (hlt : m < 2 ^ 53) {n : ℕ}
    (h : (10 : ℚ) ^ (g - n + 16) ≤ m * 2 ^ q) :
    IsNearest m q ((search tie m q g n).1 * 10 ^ (search tie m q g n).2) := by
  induction n generalizing g with
  | zero =>
    apply nearestOnGrid_isNearest hlt
    simpa using h
  | succ n ih =>
    unfold search
    split
    · rename_i c hc
      exact onGrid?_isNearest hm hc
    · apply ih
      rw [show g - 1 - n + 16 = g - (n + 1 : ℕ) + 16 by push_cast; ring]
      exact h

theorem digitCount_pos (n : ℕ) : 0 < digitCount n :=
  List.length_pos_of_ne_nil Nat.toDigits_ne_nil

theorem digitCount_spec {n : ℕ} (hn : 0 < n) :
    10 ^ (digitCount n - 1) ≤ n ∧ n < 10 ^ (digitCount n - 1 + 1) := by
  have hpos := digitCount_pos n
  constructor
  · rcases Nat.eq_zero_or_pos (digitCount n - 1) with hone | hmore
    · rw [hone]
      exact hn
    · rw [← not_lt, ← Nat.length_toDigits_le_iff (by decide) hmore, not_le]
      exact Nat.sub_one_lt hpos.ne'
  · rw [Nat.sub_add_cancel hpos, ← Nat.length_toDigits_le_iff (by decide) hpos]
    exact le_rfl

theorem log10Ratio_eq {n d : ℕ} (hn : 0 < n) (hd : 0 < d) :
    log10Ratio n d = Int.log 10 (n / d : ℚ) := by
  apply log_ratio (by decide) (digitCount_spec hn) (digitCount_spec hd)
  have hn := digitCount_pos n
  have hd := digitCount_pos d
  rw [Int.ofNat_eq_natCast, Int.ofNat_eq_natCast]
  omega

/-- The shortest digits are those of a decimal that is nearest to the double. -/
theorem exists_scaled (tie : Tie) (hm : 0 < m) (hlt : m < 2 ^ 53) :
    ∃ c e, digits tie m q = .ofScaled c e ∧ IsNearest m q (c * 10 ^ e) := by
  have hgrid : (10 : ℚ) ^ (log10Ratio (m * 2 ^ q.toNat) (2 ^ (-q).toNat) - (16 : ℕ) + 16) ≤
      m * 2 ^ q := by
    have hpos : (0 : ℚ) < m * 2 ^ q := by positivity
    rw [log10Ratio_eq (by positivity) (by positivity), cast_mul_div]
    push_cast
    rw [sub_add_cancel]
    exact_mod_cast Int.zpow_log_le_self (b := 10) (by decide) hpos
  exact ⟨_, _, rfl, search_isNearest hm hlt hgrid⟩

end Shortest

namespace Numeral

theorem digitsValue_append (digits more : List Char) :
    digitsValue (digits ++ more) = digitsValue digits * 10 ^ more.length + digitsValue more := by
  induction more using List.reverseRecOn with
  | nil => simp [digitsValue, joinDigits]
  | append_singleton more c ih =>
    rw [← List.append_assoc, digitsValue_append_singleton, digitsValue_append_singleton, ih,
      List.length_append, List.length_singleton]
    ring

theorem digitsValue_replicate (n : ℕ) : digitsValue (List.replicate n '0') = 0 := by
  induction n with
  | zero => rfl
  | succ n ih =>
    rw [List.replicate_succ', digitsValue_append_singleton, ih]
    rfl

theorem digitsValue_eq_ofDigitChars (digits : List Char) :
    digitsValue digits = Nat.ofDigitChars 10 digits 0 := by
  induction digits using List.reverseRecOn with
  | nil => rfl
  | append_singleton digits c ih =>
    rw [digitsValue_append_singleton, ih, Nat.ofDigitChars, Nat.ofDigitChars, List.foldl_append]
    rfl

theorem digitsValue_toDigits (n : ℕ) : digitsValue (Nat.toDigits 10 n) = n := by
  rw [digitsValue_eq_ofDigitChars, Nat.ofDigitChars_ten_toDigits]

end Numeral

namespace Digits

open Numeral

/-- The number that digits are written for. -/
def value (d : Digits) : ℚ := digitsValue d.chars * 10 ^ (d.point - d.chars.length)

/-- There are digits, and nothing else. -/
structure Proper (d : Digits) : Prop where
  ne_nil : d.chars ≠ []
  digit : ∀ c ∈ d.chars, c.isDigit = true

theorem exists_zeros (cs : List Char) :
    ∃ n, cs = Text.dropEndWhile (· == '0') cs ++ List.replicate n '0' := by
  have hzero : ∀ c ∈ cs.reverse.takeWhile (· == '0'), c = '0' := by
    intro c hc
    have h := List.mem_takeWhile_imp hc
    exact beq_iff_eq.mp h
  refine ⟨(cs.reverse.takeWhile (· == '0')).length, ?_⟩
  rw [Text.dropEndWhile, ← List.reverse_replicate, ← List.eq_replicate_of_mem hzero,
    ← List.reverse_append, List.takeWhile_append_dropWhile, List.reverse_reverse]

theorem ofScaled_value (c : ℕ) (e : ℤ) : (ofScaled c e).value = c * 10 ^ e := by
  obtain ⟨n, hn⟩ := exists_zeros (Nat.toDigits 10 c)
  have hchars : (ofScaled c e).chars = Text.dropEndWhile (· == '0') (Nat.toDigits 10 c) := rfl
  have hpoint : (ofScaled c e).point = (Nat.toDigits 10 c).length + e := rfl
  rw [← hchars] at hn
  have hvalue : digitsValue (ofScaled c e).chars * 10 ^ n = c := by
    have hvalue := digitsValue_toDigits c
    rw [hn, digitsValue_append, digitsValue_replicate, List.length_replicate] at hvalue
    exact hvalue
  have hlength : (ofScaled c e).point - (ofScaled c e).chars.length = n + e := by
    rw [hpoint, hn, List.length_append, List.length_replicate]
    push_cast
    ring
  rw [value, hlength, zpow_add₀ (by norm_num), zpow_natCast, ← mul_assoc]
  exact_mod_cast congrArg (fun k : ℕ => (k : ℚ) * 10 ^ e) hvalue

theorem ofScaled_proper {c : ℕ} (hc : 0 < c) (e : ℤ) : (ofScaled c e).Proper := by
  obtain ⟨n, hn⟩ := exists_zeros (Nat.toDigits 10 c)
  constructor
  · intro hnil
    have hvalue := digitsValue_toDigits c
    have hnil : Text.dropEndWhile (· == '0') (Nat.toDigits 10 c) = [] := hnil
    rw [hn, hnil, List.nil_append, digitsValue_replicate] at hvalue
    omega
  · intro d hd
    apply Nat.isDigit_of_mem_toDigits (by decide) le_rfl
    rw [hn]
    exact List.mem_append_left _ hd

theorem ofScaled_exponent {c : ℕ} (hc : 0 < c) (e : ℤ) :
    (ofScaled c e).exponent = Int.log 10 ((c : ℚ) * 10 ^ e) := by
  obtain ⟨hlow, hhigh⟩ := Shortest.digitCount_spec hc
  have hpos := Shortest.digitCount_pos c
  have hv : (0 : ℚ) < c * 10 ^ e := by positivity
  have hlow : ((10 : ℕ) : ℚ) ^ ((Shortest.digitCount c - 1 : ℕ) + e) ≤ c * 10 ^ e := by
    rw [zpow_add₀ (by norm_num), zpow_natCast]
    push_cast
    gcongr
    exact_mod_cast hlow
  have hhigh : (c : ℚ) * 10 ^ e < ((10 : ℕ) : ℚ) ^ ((Shortest.digitCount c - 1 + 1 : ℕ) + e) := by
    rw [zpow_add₀ (by norm_num), zpow_natCast]
    push_cast
    gcongr
    exact_mod_cast hhigh
  rw [Int.zpow_le_iff_le_log (by decide) hv] at hlow
  rw [Int.lt_zpow_iff_log_lt (by decide) hv] at hhigh
  have hexponent : (ofScaled c e).exponent = Shortest.digitCount c + e - 1 := rfl
  omega

end Digits

end Chalkboard
