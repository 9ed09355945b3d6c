import Mathlib.Tactic.Ring
import Chalkboard.Proofs.DoubleBits

/-! # Sums of doubles

The exact value of a double is a whole number of units, of which the smallest positive double is
one. Rounding never goes past a double, so a sum lies on the side of its first number to which the
second one points, or is the first number itself. A number that is added again and again thus comes
to a double that it leaves as it is.
-/

namespace Chalkboard.Double

open Float.Model Float.Model.UnpackedFloat

section Rounding

theorem mantissa_shiftRight (em : ExtendedMantissa) (k : Nat) :
    (em >>> k).mantissa = em.mantissa / 2 ^ k := by
  induction k with
  | zero => exact (Nat.div_one _).symm
  | succ k ih =>
    show (em >>> k).mantissa / 2 = _
    rw [ih, Nat.div_div_eq_div_mul, Nat.pow_succ]

/-- Nothing is lost of a multiple of what is shifted out. -/
theorem shiftRight_of_dvd {m k : Nat} (h : 2 ^ k ∣ m) :
    ExtendedMantissa.mk m false false >>> k = ⟨m / 2 ^ k, false, false⟩ := by
  induction k with
  | zero =>
    rw [Nat.pow_zero, Nat.div_one]
    rfl
  | succ k ih =>
    have hdvd : 2 ^ k ∣ m := Nat.dvd_trans (Nat.pow_dvd_pow 2 (Nat.le_succ k)) h
    have heven : m / 2 ^ k % 2 = 0 := by
      obtain ⟨c, rfl⟩ := h
      rw [Nat.pow_succ, Nat.mul_assoc, Nat.mul_div_cancel_left _ (Nat.two_pow_pos k)]
      exact Nat.mul_mod_right 2 c
    show ExtendedMantissa.shiftRightOne (ExtendedMantissa.mk m false false >>> k) = _
    rw [ih hdvd, ExtendedMantissa.shiftRightOne, heven, Nat.div_div_eq_div_mul, Nat.pow_succ]
    rfl

theorem le_roundedMantissa (em : ExtendedMantissa) : em.mantissa ≤ em.roundedMantissa := by
  obtain ⟨m, r, s⟩ := em
  cases r <;> cases s <;> simp [ExtendedMantissa.roundedMantissa, ExtendedMantissa.accuracy,
    Accuracy.roundToNearestEven]

theorem roundedMantissa_le (em : ExtendedMantissa) : em.roundedMantissa ≤ em.mantissa + 1 := by
  obtain ⟨m, r, s⟩ := em
  cases r <;> cases s <;> simp [ExtendedMantissa.roundedMantissa, ExtendedMantissa.accuracy,
    Accuracy.roundToNearestEven]
  omega

/-- A mantissa from which some bits are shifted out -/
def rounded (m k : Nat) : Nat :=
  (ExtendedMantissa.ofMantissaAndAccuracy m .exact >>> k).roundedMantissa

theorem le_rounded {m k c : Nat} (h : c * 2 ^ k ≤ m) : c ≤ rounded m k := by
  have hc : c ≤ m / 2 ^ k := (Nat.le_div_iff_mul_le (Nat.two_pow_pos k)).mpr h
  have hround := le_roundedMantissa (ExtendedMantissa.ofMantissaAndAccuracy m .exact >>> k)
  rw [mantissa_shiftRight] at hround
  exact Nat.le_trans hc hround

theorem rounded_le {m k c : Nat} (h : m ≤ c * 2 ^ k) : rounded m k ≤ c := by
  by_cases hdvd : 2 ^ k ∣ m
  · have hexact : rounded m k = m / 2 ^ k := by
      show (ExtendedMantissa.mk m false false >>> k).roundedMantissa = _
      rw [shiftRight_of_dvd hdvd]
      rfl
    rw [hexact]
    exact Nat.div_le_of_le_mul (by rwa [Nat.mul_comm])
  · have hround := roundedMantissa_le (ExtendedMantissa.ofMantissaAndAccuracy m .exact >>> k)
    rw [mantissa_shiftRight] at hround
    have hlt : m / 2 ^ k < c := by
      rw [Nat.div_lt_iff_lt_mul (Nat.two_pow_pos k)]
      exact Nat.lt_of_le_of_ne h fun heq => hdvd ⟨c, by rw [heq, Nat.mul_comm]⟩
    exact Nat.le_trans hround hlt

theorem targetExponent_eq (m : Nat) (e : Int) :
    Format.binary64.targetExponent (totalExponent m e) = max (m.log2 + e - 52) (-1074) := by
  show max ((m.log2 : Int) + 1 + e - (1 + 52 : Nat)) (-1074) = _
  omega

theorem shiftToTargetExponent_exact {m : Nat} {e : Int} (hm : m ≤ 2 ^ 53) (he : -1074 ≤ e) :
    shiftToTargetExponent Format.binary64 m e .exact =
      if m < 2 ^ 53 then (⟨m, false, false⟩, e) else (⟨2 ^ 52, false, false⟩, e + 1) := by
  unfold shiftToTargetExponent
  simp only [targetExponent_eq, shiftToExponent]
  split
  · rename_i hlt
    have hlog : m.log2 ≤ 52 := by
      by_cases hzero : m = 0
      · simp [hzero]
      · have := (Nat.log2_lt hzero).mpr hlt
        omega
    have hshift : (max ((m.log2 : Int) + e - 52) (-1074) - e).toNat = 0 := by omega
    rw [hshift]
    simp only [Int.ofNat_zero, Int.add_zero]
    rfl
  · obtain rfl : m = 2 ^ 53 := by omega
    have hshift : (max (((2 ^ 53 : Nat).log2 : Int) + e - 52) (-1074) - e).toNat = 1 := by
      rw [Nat.log2_two_pow]
      omega
    rw [hshift]
    rfl

theorem rounded_le_of_target {m : Nat} {e t : Int} (ht : t = max (m.log2 + e - 52) (-1074))
    (he : e ≤ t) : rounded m (t - e).toNat ≤ 2 ^ 53 := by
  apply rounded_le
  have hlog : m < 2 ^ (m.log2 + 1) := Nat.lt_log2_self
  have hpow : 2 ^ (m.log2 + 1) ≤ 2 ^ (53 + (t - e).toNat) :=
    Nat.pow_le_pow_right (by decide) (by omega)
  rw [← Nat.pow_add]
  omega

/-- Rounding to the target exponent `t`, by so many bits as the exponent falls short of it. -/
theorem roundWithAccuracy_exact (s : Sign) {m : Nat} {e t : Int}
    (ht : t = max (m.log2 + e - 52) (-1074)) (he : e ≤ t) (hpos : 0 < rounded m (t - e).toNat) :
    roundWithAccuracy Format.binary64 s m e .exact =
      if rounded m (t - e).toNat < 2 ^ 53 then .finite s (rounded m (t - e).toNat) t hpos
      else .finite s (2 ^ 52) (t + 1) (Nat.two_pow_pos 52) := by
  have hfirst : shiftToTargetExponent Format.binary64 m e .exact =
      (ExtendedMantissa.ofMantissaAndAccuracy m .exact >>> (t - e).toNat, t) := by
    unfold shiftToTargetExponent
    simp only [targetExponent_eq, ← ht, shiftToExponent, Prod.mk.injEq, true_and]
    omega
  have hsecond := shiftToTargetExponent_exact (rounded_le_of_target ht he) (e := t) (by omega)
  unfold rounded at hsecond hpos ⊢
  unfold roundWithAccuracy
  rw [hfirst]
  dsimp only
  rw [hsecond]
  by_cases hlt : (ExtendedMantissa.ofMantissaAndAccuracy m .exact >>>
    (t - e).toNat).roundedMantissa < 2 ^ 53
  · rw [if_pos hlt, if_pos hlt]
    exact dif_neg (Nat.ne_of_gt hpos)
  · rw [if_neg hlt, if_neg hlt]
    rfl

/-- How many of the smallest doubles make up a finite number. -/
def magnitude (m : Nat) (e : Int) : Nat := m * 2 ^ (e + 1074).toNat

theorem magnitude_pos {m : Nat} (hm : 0 < m) (e : Int) : 0 < magnitude m e :=
  Nat.mul_pos hm (Nat.two_pow_pos _)

/-- A number of 53 bits that is no larger than the exact one is no larger than the rounded one: it
is a multiple of the last bit kept, or has a smaller first bit. -/
theorem le_rounded_scaled {c f m q k : Nat} (hc : c < 2 ^ 53) (hlow : 2 ^ 52 * 2 ^ k ≤ m)
    (h : c * 2 ^ f ≤ m * 2 ^ q) : c * 2 ^ f ≤ rounded m k * 2 ^ (q + k) := by
  by_cases hf : q + k ≤ f
  · obtain ⟨d, rfl⟩ := Nat.exists_eq_add_of_le hf
    have hscaled : c * 2 ^ (q + k + d) = c * 2 ^ d * 2 ^ (q + k) := by ring
    have hbits : c * 2 ^ d * 2 ^ k ≤ m := by
      apply Nat.le_of_mul_le_mul_right _ (Nat.two_pow_pos q)
      calc c * 2 ^ d * 2 ^ k * 2 ^ q = c * 2 ^ (q + k + d) := by ring
        _ ≤ m * 2 ^ q := h
    rw [hscaled]
    exact Nat.mul_le_mul_right _ (le_rounded hbits)
  · calc c * 2 ^ f ≤ 2 ^ 53 * 2 ^ f := Nat.mul_le_mul_right _ (by omega)
      _ = 2 ^ 52 * 2 ^ (f + 1) := by ring
      _ ≤ 2 ^ 52 * 2 ^ (q + k) :=
        Nat.mul_le_mul_left _ (Nat.pow_le_pow_right (by decide) (by omega))
      _ ≤ rounded m k * 2 ^ (q + k) := Nat.mul_le_mul_right _ (le_rounded hlow)

theorem rounded_scaled_le {c f m q k : Nat} (hc : c < 2 ^ 53) (hlow : 2 ^ 52 * 2 ^ k ≤ m)
    (h : m * 2 ^ q ≤ c * 2 ^ f) : rounded m k * 2 ^ (q + k) ≤ c * 2 ^ f := by
  by_cases hf : q + k ≤ f
  · obtain ⟨d, rfl⟩ := Nat.exists_eq_add_of_le hf
    have hscaled : c * 2 ^ (q + k + d) = c * 2 ^ d * 2 ^ (q + k) := by ring
    have hbits : m ≤ c * 2 ^ d * 2 ^ k := by
      apply Nat.le_of_mul_le_mul_right _ (Nat.two_pow_pos q)
      calc m * 2 ^ q ≤ c * 2 ^ (q + k + d) := h
        _ = c * 2 ^ d * 2 ^ k * 2 ^ q := by ring
    rw [hscaled]
    exact Nat.mul_le_mul_right _ (rounded_le hbits)
  · have hlt : c * 2 ^ f < m * 2 ^ q := by
      calc c * 2 ^ f < 2 ^ 53 * 2 ^ f := Nat.mul_lt_mul_of_pos_right hc (Nat.two_pow_pos f)
        _ = 2 ^ 52 * 2 ^ (f + 1) := by ring
        _ ≤ 2 ^ 52 * 2 ^ (q + k) :=
          Nat.mul_le_mul_left _ (Nat.pow_le_pow_right (by decide) (by omega))
        _ = 2 ^ 52 * 2 ^ k * 2 ^ q := by ring
        _ ≤ m * 2 ^ q := Nat.mul_le_mul_right _ hlow
    omega

theorem log2_mul_two_pow {m : Nat} (hm : 0 < m) (k : Nat) : (m * 2 ^ k).log2 = m.log2 + k := by
  have hpos : m * 2 ^ k ≠ 0 := Nat.mul_ne_zero (by omega) (Nat.ne_of_gt (Nat.two_pow_pos k))
  apply (Nat.log2_eq_iff hpos).mpr
  have hlow := Nat.log2_self_le (Nat.ne_of_gt hm)
  have hlt := Nat.lt_log2_self (n := m)
  constructor
  · rw [Nat.pow_add]
    exact Nat.mul_le_mul_right _ hlow
  · rw [Nat.add_right_comm, Nat.pow_add]
    exact Nat.mul_lt_mul_of_pos_right hlt (Nat.two_pow_pos k)

theorem round_eq (s : Sign) {m : Nat} {e t : Int} (ht : t = max (m.log2 + e - 52) (-1074)) :
    UnpackedFloat.round Format.binary64 s m e =
      roundWithAccuracy Format.binary64 s (m * 2 ^ (e - t).toNat) (e - (e - t).toNat) .exact := by
  simp only [UnpackedFloat.round, decreaseExponent, targetExponent_eq, ← ht, Nat.shiftLeft_eq]

/-- A number that has room for its bits is kept as it is. -/
theorem round_of_le (s : Sign) {m : Nat} {e t : Int} (hm : 0 < m)
    (ht : t = max (m.log2 + e - 52) (-1074)) (hle : t ≤ e) :
    ∃ h, UnpackedFloat.round Format.binary64 s m e = .finite s (m * 2 ^ (e - t).toNat) t h ∧
      Canonical (m * 2 ^ (e - t).toNat) t := by
  have hpos : 0 < m * 2 ^ (e - t).toNat := Nat.mul_pos hm (Nat.two_pow_pos _)
  have hexponent : e - (e - t).toNat = t := by omega
  have hlog := log2_mul_two_pow hm (e - t).toNat
  have hlt : m * 2 ^ (e - t).toNat < 2 ^ 53 := (Nat.log2_lt (by omega)).mp (by omega)
  have hkeep : rounded (m * 2 ^ (e - t).toNat) (t - t).toNat = m * 2 ^ (e - t).toNat := by
    rw [Int.sub_self]
    rfl
  have hround := roundWithAccuracy_exact s (m := m * 2 ^ (e - t).toNat) (e := t) (t := t) (by omega)
    (Int.le_refl t) (by rwa [hkeep])
  refine ⟨hpos, ?_, hlt, by omega, ?_⟩
  · rw [round_eq s ht, hexponent, hround, if_pos (by rwa [hkeep])]
    exact (UnpackedFloat.finite.injEq ..).mpr ⟨rfl, hkeep, rfl⟩
  · by_cases hleast : t = -1074
    · exact .inr hleast
    · have hbits : (m * 2 ^ (e - t).toNat).log2 = 52 := by omega
      exact .inl (by rw [← hbits]; exact Nat.log2_self_le (Nat.ne_of_gt hpos))

/-- A number with too many bits is rounded; a carry over all bits is the next power of two. -/
theorem round_of_lt (s : Sign) {m : Nat} {e t : Int} (hm : 0 < m) (he : -1074 ≤ e)
    (ht : t = max (m.log2 + e - 52) (-1074)) (hlt : e < t) :
    2 ^ 52 * 2 ^ (t - e).toNat ≤ m ∧
    ∃ m' e' h, UnpackedFloat.round Format.binary64 s m e = .finite s m' e' h ∧ Canonical m' e' ∧
      magnitude m' e' = rounded m (t - e).toNat * 2 ^ (t + 1074).toNat := by
  have hlow : 2 ^ 52 * 2 ^ (t - e).toNat ≤ m := by
    have hlog : m.log2 = 52 + (t - e).toNat := by omega
    rw [← Nat.pow_add, ← hlog]
    exact Nat.log2_self_le (Nat.ne_of_gt hm)
  have hnormal : 2 ^ 52 ≤ rounded m (t - e).toNat := le_rounded hlow
  have hshift : (e - t).toNat = 0 := by omega
  have hround := roundWithAccuracy_exact s ht (by omega) (by omega)
  refine ⟨hlow, ?_⟩
  rw [round_eq s ht, hshift, Nat.pow_zero, Nat.mul_one, Int.ofNat_zero, Int.sub_zero, hround]
  by_cases hfits : rounded m (t - e).toNat < 2 ^ 53
  · rw [if_pos hfits]
    exact ⟨_, _, _, rfl, ⟨hfits, by omega, .inl hnormal⟩, rfl⟩
  · rw [if_neg hfits]
    have hcarry : rounded m (t - e).toNat = 2 ^ 53 := by
      have := rounded_le_of_target ht (by omega)
      omega
    refine ⟨_, _, _, rfl, ⟨by decide, by omega, .inl (Nat.le_refl _)⟩, ?_⟩
    have hnext : (t + 1 + 1074).toNat = (t + 1074).toNat + 1 := by omega
    rw [magnitude, hcarry, hnext]
    ring

/-- Rounding gives a number of the right shape, and does not go past any other such number. -/
theorem exists_round (s : Sign) {m : Nat} {e : Int} (hm : 0 < m) (he : -1074 ≤ e) :
    ∃ m' e' h, UnpackedFloat.round Format.binary64 s m e = .finite s m' e' h ∧ Canonical m' e' ∧
      ∀ c f, Canonical c f → (magnitude c f ≤ magnitude m e → magnitude c f ≤ magnitude m' e') ∧
        (magnitude m e ≤ magnitude c f → magnitude m' e' ≤ magnitude c f) := by
  obtain ⟨t, ht⟩ : ∃ t, t = max ((m.log2 : Int) + e - 52) (-1074) := ⟨_, rfl⟩
  rcases Int.lt_or_le e t with hlt | hle
  · obtain ⟨hlow, m', e', h, hround, hcanonical, hmagnitude⟩ := round_of_lt s hm he ht hlt
    refine ⟨m', e', h, hround, hcanonical, fun c f hc => ?_⟩
    have hexponent : (t + 1074).toNat = (e + 1074).toNat + (t - e).toNat := by omega
    rw [hmagnitude, hexponent]
    exact ⟨le_rounded_scaled hc.lt hlow, rounded_scaled_le hc.lt hlow⟩
  · obtain ⟨h, hround, hcanonical⟩ := round_of_le s hm ht hle
    have hmagnitude : magnitude (m * 2 ^ (e - t).toNat) t = magnitude m e := by
      have hexponent : (e + 1074).toNat = (e - t).toNat + (t + 1074).toNat := by omega
      rw [magnitude, magnitude, hexponent]
      ring
    refine ⟨_, _, h, hround, hcanonical, fun c f _ => ?_⟩
    rw [hmagnitude]
    exact ⟨id, id⟩

end Rounding

section Sums

theorem Canonical.unique {m m' : Nat} {e e' : Int} (h : Canonical m e) (h' : Canonical m' e')
    (heq : magnitude m e = magnitude m' e') (hm : 0 < m) (hm' : 0 < m') : m = m' ∧ e = e' := by
  have hlt : ∀ {m m' : Nat} {e e' : Int}, Canonical m e → Canonical m' e' → 0 < m' → e < e' →
      magnitude m e < magnitude m' e' := by
    intro m m' e e' h h' hm' hlt
    have hle := h.le
    have hnormal : 2 ^ 52 ≤ m' := h'.normal.resolve_right (by omega)
    have hexponent : (e' + 1074).toNat = (e + 1074).toNat + 1 + (e' - e - 1).toNat := by omega
    calc m * 2 ^ (e + 1074).toNat < 2 ^ 53 * 2 ^ (e + 1074).toNat :=
          Nat.mul_lt_mul_of_pos_right h.lt (Nat.two_pow_pos _)
      _ = 2 ^ 52 * 2 ^ ((e + 1074).toNat + 1) := by ring
      _ ≤ m' * 2 ^ (e' + 1074).toNat :=
        Nat.mul_le_mul hnormal (Nat.pow_le_pow_right (by decide) (by omega))
  have he : e = e' := by
    rcases Int.lt_trichotomy e e' with hlt' | heq' | hlt'
    · have := hlt h h' hm' hlt'
      omega
    · exact heq'
    · have := hlt h' h hm hlt'
      omega
  subst he
  exact ⟨Nat.eq_of_mul_eq_mul_right (Nat.two_pow_pos _) heq, rfl⟩

/-- What comes after the largest finite double. -/
def beyond : Nat := magnitude (2 ^ 53) 971

theorem Canonical.lt_beyond {m : Nat} {e : Int} (h : Canonical m e) (he : e ≤ 971) :
    magnitude m e < beyond := by
  have hbits : magnitude m e < magnitude (2 ^ 53) e :=
    Nat.mul_lt_mul_of_pos_right h.lt (Nat.two_pow_pos _)
  have hexponent : magnitude (2 ^ 53) e ≤ beyond :=
    Nat.mul_le_mul_left _ (Nat.pow_le_pow_right (by decide) (by omega))
  exact Nat.lt_of_lt_of_le hbits hexponent

theorem Canonical.beyond_le {m : Nat} {e : Int} (h : Canonical m e) (he : 971 < e) :
    beyond ≤ magnitude m e := by
  have hnormal : 2 ^ 52 ≤ m := h.normal.resolve_right (by omega)
  calc 2 ^ 53 * 2 ^ (971 + 1074 : Int).toNat = 2 ^ 52 *
    2 ^ ((971 + 1074 : Int).toNat + 1) := by ring
    _ ≤ m * 2 ^ (e + 1074).toNat :=
      Nat.mul_le_mul hnormal (Nat.pow_le_pow_right (by decide) (by omega))

/-- The exact value of a double in units of the smallest positive one. The infinite ones are beyond
all others. -/
def units : UnpackedFloat → Int
  | .infinity s => s.apply beyond
  | .notANumber => 0
  | .zero _ => 0
  | .finite s m e _ => s.apply (magnitude m e)

theorem units_infinity (s : Sign) : units (.infinity s) = s.apply beyond := rfl

theorem units_notANumber : units .notANumber = 0 := rfl

theorem units_zero (s : Sign) : units (.zero s) = 0 := rfl

theorem units_finite (s : Sign) (m : Nat) (e : Int) (hm : 0 < m) :
    units (.finite s m e hm) = s.apply (magnitude m e) := rfl

theorem units_pack (s : Sign) {m : Nat} {e : Int} (hm : 0 < m) (h : Canonical m e) :
    units (Float.Model.pack (.finite s m e hm)).unpack =
    s.apply (min (magnitude m e) beyond : Nat) := by
  rcases Int.lt_or_le 971 e with hlt | hle
  · rw [unpack_pack_of_lt s hm hlt, units_infinity, Nat.min_eq_right (h.beyond_le hlt)]
  · rw [unpack_pack_of_le s hm h hle, units_finite,
      Nat.min_eq_left (Nat.le_of_lt (h.lt_beyond hle))]

/-- A rounded number does not go past a finite double. -/
theorem exists_units_round {c : Nat} {f : Int} (hc : Canonical c f) (hf : f ≤ 971) (s : Sign)
    {m : Nat} {e : Int} (hm : 0 < m) (he : -1074 ≤ e) :
    ∃ r : Nat,
      units (Float.Model.pack (UnpackedFloat.round Format.binary64 s m e)).unpack = s.apply r ∧
      (magnitude c f ≤ magnitude m e → magnitude c f ≤ r) ∧
      (magnitude m e ≤ magnitude c f → r ≤ magnitude c f) := by
  obtain ⟨m', e', hm', hround, hcanonical, hnearest⟩ := exists_round s hm he
  obtain ⟨hbelow, habove⟩ := hnearest c f hc
  have hbeyond := hc.lt_beyond hf
  refine ⟨min (magnitude m' e') beyond, ?_, ?_, ?_⟩
  · rw [hround, units_pack s hm' hcanonical]
  · intro h
    have := hbelow h
    omega
  · intro h
    have := habove h
    omega

theorem magnitude_cast (m : Nat) (e : Int) : (magnitude m e : Int) = m * 2 ^ (e + 1074).toNat := by
  rw [magnitude]
  push_cast
  rfl

theorem units_normalize {c : Nat} {f : Int} (hc : Canonical c f) (hf : f ≤ 971) (s : Sign) (z : Int)
    {e : Int} (he : -1074 ≤ e) :
    (s.apply (magnitude c f) ≤ z * 2 ^ (e + 1074).toNat → s.apply (magnitude c f) ≤
      units (Float.Model.pack (UnpackedFloat.normalize Format.binary64 z e .positive)).unpack) ∧
    (z * 2 ^ (e + 1074).toNat ≤ s.apply (magnitude c f) →
      units (Float.Model.pack (UnpackedFloat.normalize Format.binary64 z e .positive)).unpack ≤
        s.apply (magnitude c f)) := by
  unfold UnpackedFloat.normalize
  split
  · rename_i hneg
    have hneg := Int.compare_eq_lt.mp hneg
    obtain ⟨r, hr, hbelow, habove⟩ :=
      exists_units_round hc hf .negative (m := (-z).toNat) (by omega) he
    have hexact : z * 2 ^ (e + 1074).toNat = -(magnitude (-z).toNat e : Int) := by
      rw [magnitude_cast, Int.toNat_of_nonneg (by omega), Int.neg_mul, Int.neg_neg]
    have hmagnitude : 0 < magnitude (-z).toNat e := magnitude_pos (by omega) e
    rw [hr, hexact]
    cases s <;> simp only [Sign.apply] <;> omega
  · rename_i hzero
    have hzero : z = 0 := Int.compare_eq_eq.mp hzero
    have hunits : units (Float.Model.pack (.zero .positive)).unpack = 0 := rfl
    rw [hzero, Int.zero_mul, hunits]
    exact ⟨id, id⟩
  · rename_i hpos
    have hpos := Int.compare_eq_gt.mp hpos
    obtain ⟨r, hr, hbelow, habove⟩ :=
      exists_units_round hc hf .positive (m := z.toNat) (by omega) he
    have hexact : z * 2 ^ (e + 1074).toNat = magnitude z.toNat e := by
      rw [magnitude_cast, Int.toNat_of_nonneg (by omega)]
    have hmagnitude : 0 < magnitude z.toNat e := magnitude_pos (by omega) e
    rw [hr, hexact]
    cases s <;> simp only [Sign.apply] <;> omega

/-- The sum of two finite doubles before rounding is exact. -/
theorem exists_sum (s₁ s₂ : Sign) {m₁ m₂ : Nat} {e₁ e₂ : Int} (hm₁ : 0 < m₁) (hm₂ : 0 < m₂)
    (he₁ : -1074 ≤ e₁) (he₂ : -1074 ≤ e₂) :
    ∃ z e, -1074 ≤ e ∧ UnpackedFloat.add Format.binary64 (.finite s₁ m₁ e₁ hm₁)
    (.finite s₂ m₂ e₂ hm₂) =
        UnpackedFloat.normalize Format.binary64 z e .positive ∧
      z * 2 ^ (e + 1074).toNat = s₁.apply (magnitude m₁ e₁) + s₂.apply (magnitude m₂ e₂) := by
  have haligned : ∀ (s : Sign) (m : Nat) (e' : Int), min e₁ e₂ ≤ e' → -1074 ≤ e' →
      s.apply ((m <<< (e' - min e₁ e₂).toNat : Nat) : Int) * 2 ^ (min e₁ e₂ + 1074).toNat =
        s.apply (magnitude m e') := by
    intro s m e' hle he'
    have hexponent : (e' + 1074).toNat = (e' - min e₁ e₂).toNat +
        (min e₁ e₂ + 1074).toNat := by omega
    have hshift : ((m <<< (e' - min e₁ e₂).toNat : Nat) : Int) * 2 ^ (min e₁ e₂ + 1074).toNat =
        magnitude m e' := by
      rw [magnitude_cast, hexponent, Nat.shiftLeft_eq, Int.pow_add]
      push_cast
      ring
    cases s with
    | negative => rw [Sign.apply, Sign.apply, ← hshift, Int.neg_mul]
    | positive => exact hshift
  refine ⟨_, min e₁ e₂, by omega, rfl, ?_⟩
  rw [Int.add_mul]
  exact congrArg₂ _ (haligned s₁ m₁ e₁ (by omega) he₁) (haligned s₂ m₂ e₂ (by omega) he₂)

theorem abs_units_le (v : Float.Model) :
    -(beyond : Int) ≤ units v.unpack ∧ units v.unpack ≤ beyond := by
  cases hv : v.unpack with
  | infinity s =>
    rw [units_infinity]
    cases s <;> simp only [Sign.apply] <;> omega
  | notANumber =>
    rw [units_notANumber]
    omega
  | zero s =>
    rw [units_zero]
    omega
  | finite s m e hm =>
    obtain ⟨hcanonical, hle⟩ := unpack_finite hv
    have := hcanonical.lt_beyond hle
    rw [units_finite]
    cases s <;> simp only [Sign.apply] <;> omega

/-- A finite double other than zero is told from all others by its value. -/
theorem eq_of_units_eq {v w : Float.Model} {s : Sign} {m : Nat} {e : Int} {hm : 0 < m}
    (hv : v.unpack = .finite s m e hm) (h : units w.unpack = units v.unpack) : w = v := by
  obtain ⟨hcanonical, hle⟩ := unpack_finite hv
  have hbeyond := hcanonical.lt_beyond hle
  have hpos := magnitude_pos hm e
  have hunpack : w.unpack = v.unpack := by
    rw [hv] at h ⊢
    rw [units_finite] at h
    cases hw : w.unpack with
    | infinity s' =>
      rw [hw, units_infinity] at h
      cases s <;> cases s' <;> simp only [Sign.apply] at h <;> omega
    | notANumber =>
      rw [hw, units_notANumber] at h
      cases s <;> simp only [Sign.apply] at h <;> omega
    | zero s' =>
      rw [hw, units_zero] at h
      cases s <;> simp only [Sign.apply] at h <;> omega
    | finite s' m' e' hm' =>
      rw [hw, units_finite] at h
      have hpos' := magnitude_pos hm' e'
      have hsame : s' = s ∧ magnitude m' e' = magnitude m e := by
        cases s <;> cases s' <;> simp only [Sign.apply] at h <;> first
          | exact ⟨rfl, by omega⟩ | omega
      obtain ⟨rfl, hmagnitude⟩ := hsame
      obtain ⟨rfl, rfl⟩ := (unpack_finite hw).1.unique hcanonical hmagnitude hm' hm
      rfl
  rw [← pack_unpack w, hunpack, pack_unpack]

theorem cases_of_units_ne_zero {u : UnpackedFloat} (h : units u ≠ 0) :
    (∃ s, u = .infinity s) ∨ ∃ s m e hm, u = .finite s m e hm := by
  cases u with
  | infinity s => exact .inl ⟨s, rfl⟩
  | notANumber => exact absurd rfl h
  | zero s => exact absurd rfl h
  | finite s m e hm => exact .inr ⟨s, m, e, hm, rfl⟩

/-- The sum of two finite doubles is exact up to rounding, and rounding does not go past the first
of them. -/
theorem add_cases_of_finite {x y : Float.Model} {s s' : Sign} {m m' : Nat} {e e' : Int} {hm : 0 < m}
    {hm' : 0 < m'} (hx : x.unpack = .finite s m e hm) (hv : y.unpack = .finite s' m' e' hm') :
    x + y = x ∨ (0 < units y.unpack ∧ units x.unpack < units (x + y).unpack) ∨
      (units y.unpack < 0 ∧ units (x + y).unpack < units x.unpack) := by
  obtain ⟨hcanonical, hle⟩ := unpack_finite hx
  obtain ⟨hcanonical', -⟩ := unpack_finite hv
  obtain ⟨z, f, hf, hsum, hexact⟩ := exists_sum s s' hm hm' hcanonical.le hcanonical'.le
  obtain ⟨hbelow, habove⟩ := units_normalize hcanonical hle s z hf
  have hresult : x + y =
      Float.Model.pack (UnpackedFloat.normalize Format.binary64 z f .positive) := by
    rw [← hsum, ← hx, ← hv]
    rfl
  rw [← hresult, hexact] at hbelow habove
  by_cases hsame : units (x + y).unpack = units x.unpack
  · exact .inl (eq_of_units_eq hx hsame)
  · have hne : s'.apply (magnitude m' e') ≠ 0 := by
      have := magnitude_pos hm' e'
      cases s' <;> simp only [Sign.apply] <;> omega
    rw [hx, units_finite] at hsame ⊢
    rw [hv, units_finite]
    omega

/-- Adding a number other than zero either leaves a double as it is, or gives no number, or moves
the double in the direction of what is added. -/
theorem add_cases (x y : Float.Model) (hy : units y.unpack ≠ 0) :
    x + y = x ∨ (x + y).unpack = .notANumber ∨
      (0 < units y.unpack ∧ units x.unpack < units (x + y).unpack) ∨
      (units y.unpack < 0 ∧ units (x + y).unpack < units x.unpack) := by
  have hadd : x + y = Float.Model.pack (UnpackedFloat.add Format.binary64 x.unpack y.unpack) := rfl
  have hstays : UnpackedFloat.add Format.binary64 x.unpack y.unpack = x.unpack → x + y = x := by
    intro h
    rw [hadd, h, pack_unpack]
  have hjumps : UnpackedFloat.add Format.binary64 x.unpack y.unpack = y.unpack → x + y = y := by
    intro h
    rw [hadd, h, pack_unpack]
  cases hx : x.unpack with
  | notANumber => exact .inl (hstays (by rw [hx]; rfl))
  | infinity s =>
    rcases cases_of_units_ne_zero hy with ⟨s', hv⟩ | ⟨s', m', e', hm', hv⟩
    · rw [hx, hv] at hstays hadd
      cases s <;> cases s'
      · exact .inl (hstays rfl)
      · exact .inr (.inl (by rw [hadd]; rfl))
      · exact .inr (.inl (by rw [hadd]; rfl))
      · exact .inl (hstays rfl)
    · exact .inl (hstays (by rw [hx, hv]; rfl))
  | zero s =>
    have hsum : x + y = y := by
      rcases cases_of_units_ne_zero hy with ⟨s', hv⟩ | ⟨s', m', e', hm', hv⟩
      · exact hjumps (by rw [hx, hv]; rfl)
      · exact hjumps (by rw [hx, hv]; rfl)
    rw [hsum, units_zero]
    omega
  | finite s m e hm =>
    rcases cases_of_units_ne_zero hy with ⟨s', hv⟩ | ⟨s', m', e', hm', hv⟩
    · obtain ⟨hcanonical, hle⟩ := unpack_finite hx
      have hbeyond := hcanonical.lt_beyond hle
      have hsum : x + y = y := hjumps (by rw [hx, hv]; rfl)
      rw [hsum, hv, units_infinity, units_finite]
      cases s <;> cases s' <;> simp only [Sign.apply] <;> omega
    · rw [← hx]
      exact (add_cases_of_finite hx hv).imp_right .inr

/-- A double that is not zero and is a number. -/
theorem units_ne_zero {y : Float} (h : 0.0 < y ∨ y < 0.0) : units y.toModel.unpack ≠ 0 := by
  have hlt : UnpackedFloat.lt (.zero .positive) y.toModel.unpack = true ∨
      UnpackedFloat.lt y.toModel.unpack (.zero .positive) = true := by
    rcases h with h | h
    · exact .inl (of_decide_eq_true h)
    · exact .inr (of_decide_eq_true h)
  cases hy : y.toModel.unpack with
  | notANumber =>
    rw [hy] at hlt
    exact absurd hlt (by decide)
  | zero s =>
    rw [hy] at hlt
    cases s <;> exact absurd hlt (by decide)
  | infinity s =>
    have : 0 < beyond := magnitude_pos (Nat.two_pow_pos 53) 971
    rw [units_infinity]
    cases s <;> simp only [Sign.apply] <;> omega
  | finite s m e hm =>
    have := magnitude_pos hm e
    rw [units_finite]
    cases s <;> simp only [Sign.apply] <;> omega

theorem not_lt_self (x : Float) : ¬ x < x := by
  intro h
  have hlt : UnpackedFloat.lt x.toModel.unpack x.toModel.unpack = true := of_decide_eq_true h
  cases hx : x.toModel.unpack with
  | notANumber =>
    rw [hx] at hlt
    cases hlt
  | zero s =>
    rw [hx] at hlt
    cases hlt
  | infinity s =>
    rw [hx] at hlt
    cases s <;> cases hlt
  | finite s m e hm =>
    have hequal : (compare e e).then (compare m m) = .eq := by
      rw [Int.compare_eq_eq.mpr rfl, Nat.compare_eq_eq.mpr rfl]
      rfl
    rw [hx] at hlt
    cases s with
    | positive =>
      have hsome : (some ((compare e e).then (compare m m)) == some Ordering.lt) = true := hlt
      rw [hequal] at hsome
      cases hsome
    | negative =>
      have hsome : (some ((compare e e).then (compare m m)).swap == some Ordering.lt) = true := hlt
      rw [hequal] at hsome
      cases hsome

theorem add_eq_of_notANumber {x : Float} (y : Float) (h : x.toModel.unpack = .notANumber) :
    x + y = x := by
  have hadd : x.toModel + y.toModel = x.toModel := by
    show Float.Model.pack (UnpackedFloat.add Format.binary64 x.toModel.unpack y.toModel.unpack) = _
    rw [← pack_unpack x.toModel, h]
    rfl
  exact congrArg Float.ofModel hadd

/-- What keeps within bounds does not grow for ever. -/
theorem exists_not_lt_succ {u : Nat → Int} {b : Nat} (h : ∀ k, -(b : Int) ≤ u k ∧ u k ≤ b) :
    ∃ k, ¬ u k < u (k + 1) := by
  by_contra hnone
  have hgrows : ∀ k, u k < u (k + 1) := fun k => not_not.mp fun hk => hnone ⟨k, hk⟩
  have hfar : ∀ k : Nat, u 0 + k ≤ u k := by
    intro k
    induction k with
    | zero => simp
    | succ k ih =>
      have := hgrows k
      omega
  have hlast := hfar (2 * b + 1)
  have hbounds := h (2 * b + 1)
  have hfirst := h 0
  omega

/-- If a number is added again and again, some addition changes nothing: there are only so many
values in the direction of the number. -/
theorem exists_rest (x y : Float) (h : 0.0 < y ∨ y < 0.0) :
    ∃ k, (· + y)^[k + 1] x = (· + y)^[k] x := by
  by_contra hnone
  have hmoves : ∀ k, (· + y)^[k] x + y ≠ (· + y)^[k] x := by
    intro k hk
    exact hnone ⟨k, by rw [Function.iterate_succ_apply', hk]⟩
  have hnumber : ∀ k, ((· + y)^[k] x).toModel.unpack ≠ .notANumber :=
    fun k hk => hmoves k (add_eq_of_notANumber y hk)
  -- Each addition goes at least one unit in the direction of `y`.
  have hstep : ∀ k, (0 < units y.toModel.unpack ∧ units ((· + y)^[k] x).toModel.unpack <
        units ((· + y)^[k + 1] x).toModel.unpack) ∨
      (units y.toModel.unpack < 0 ∧ units ((· + y)^[k + 1] x).toModel.unpack <
        units ((· + y)^[k] x).toModel.unpack) := by
    intro k
    have hsum : ((· + y)^[k + 1] x).toModel = ((· + y)^[k] x).toModel + y.toModel := by
      rw [Function.iterate_succ_apply']
      rfl
    rcases add_cases ((· + y)^[k] x).toModel y.toModel (units_ne_zero h) with hrest | hnan | hmove
    · exact absurd (congrArg Float.ofModel hrest) (hmoves k)
    · exact absurd (hsum ▸ hnan) (hnumber (k + 1))
    · rwa [hsum]
  rcases Int.lt_or_gt_of_ne (units_ne_zero h) with hneg | hpos
  · obtain ⟨k, hk⟩ := exists_not_lt_succ (b := beyond)
      (u := fun k => -units ((· + y)^[k] x).toModel.unpack) fun k => by
        have := abs_units_le ((· + y)^[k] x).toModel
        omega
    have := hstep k
    omega
  · obtain ⟨k, hk⟩ := exists_not_lt_succ fun k => abs_units_le ((· + y)^[k] x).toModel
    have := hstep k
    omega

end Sums

end Chalkboard.Double
