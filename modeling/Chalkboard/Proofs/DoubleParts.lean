import Mathlib.Tactic.NormNum
import Chalkboard.Proofs.DoubleBits

/-! # Doubles taken apart

The parts of a double are read off its bits by division. They say of what kind the double is, and
they determine it: the bits without the sign are the mantissa on top of as many blocks as the
exponent is above the least one.
-/

namespace Chalkboard.Double

open Float.Model Float.Model.UnpackedFloat

theorem toNat_unpackMantissa (b : BitVec Format.binary64.numBits) :
    (unpackMantissa b).toNat = b.toNat % 2 ^ 52 := by
  simp only [unpackMantissa, BitVec.toNat_cast, BitVec.extractLsb_toNat, Nat.shiftRight_zero]

theorem toNat_unpackExponent (b : BitVec Format.binary64.numBits) :
    (unpackExponent b).toNat = b.toNat / 2 ^ 52 % 2 ^ 11 := by
  simp only [unpackExponent, BitVec.toNat_cast, BitVec.extractLsb_toNat, Nat.shiftRight_eq_div_pow]

def isNegative : Sign → Bool
  | .negative => true
  | .positive => false

theorem isNegative_unpackSign (b : BitVec Format.binary64.numBits) :
    isNegative (Sign.ofBitVec (unpackSign b)) = decide (2 ^ 63 ≤ b.toNat) := by
  have hlt : b.toNat < 2 ^ 64 := b.isLt
  have hsign : (unpackSign b).toNat = b.toNat / 2 ^ 63 := by
    simp only [unpackSign_eq, BitVec.toNat_cast, BitVec.extractLsb_toNat,
      Nat.shiftRight_eq_div_pow]
    show b.toNat / 2 ^ 63 % 2 ^ 1 = _
    omega
  unfold Sign.ofBitVec
  split
  · rename_i hzero
    have hzero : (unpackSign b).toNat = 0 := congrArg BitVec.toNat hzero
    rw [isNegative, eq_comm, decide_eq_false_iff_not]
    omega
  · rename_i hone
    have hone : (unpackSign b).toNat ≠ 0 := fun h => hone (BitVec.eq_of_toNat_eq h)
    rw [isNegative, eq_comm, decide_eq_true_iff]
    omega

/-- The parts of what a double is read as. -/
def partsOf : UnpackedFloat → Parts
  | .notANumber => .nan
  | .infinity s => .infinite (isNegative s)
  | .zero s => .finite (isNegative s) 0 leastExponent
  | .finite s m e _ => .finite (isNegative s) m e

theorem partsOf_finite (s : Sign) (m : Nat) (e : Int) (hm : 0 < m) :
    partsOf (.finite s m e hm) = .finite (isNegative s) m e := rfl

theorem parts_eq_partsOf (x : Float) : parts x = partsOf x.toModel.unpack := by
  have h := reads_unpack x.toBits.toBitVec
  rw [toNat_unpackExponent, toNat_unpackMantissa] at h
  have hunpack : x.toModel.unpack = UnpackedFloat.unpack Format.binary64 x.toBits.toBitVec := rfl
  have hnegative := isNegative_unpackSign x.toBits.toBitVec
  have hbits : x.toBits.toBitVec.toNat = x.toBits.toNat := rfl
  rw [hbits] at h hnegative
  rw [hunpack]
  unfold parts
  dsimp only [Nat.pow_eq]
  rw [← hnegative]
  generalize UnpackedFloat.unpack Format.binary64 x.toBits.toBitVec = u at h
  generalize Sign.ofBitVec (@unpackSign Format.binary64 x.toBits.toBitVec) = s at h
  generalize x.toBits.toNat / 2 ^ 52 % 2 ^ 11 = field at h
  generalize x.toBits.toNat % 2 ^ 52 = fraction at h
  cases h with
  | infinity => rfl
  | notANumber hne =>
    rw [if_pos rfl, if_neg hne]
    rfl
  | zero => rfl
  | subnormal => rfl
  | normal _ hfirst hlast =>
    rw [if_neg (by omega), if_neg (by omega), partsOf_finite, Nat.add_comm]
    congr 1
    simp only [leastExponent, Int.ofNat_eq_natCast]
    omega

theorem isNaN_eq (x : Float) : x.isNaN = decide (parts x = .nan) := by
  rw [parts_eq_partsOf]
  show x.toModel.unpack.isNaN = _
  cases x.toModel.unpack <;> rfl

theorem isFinite_iff (x : Float) :
    x.isFinite = true ↔ ∃ negative m q, parts x = .finite negative m q := by
  rw [parts_eq_partsOf]
  show x.toModel.unpack.isFinite = true ↔ _
  cases x.toModel.unpack with
  | notANumber | infinity =>
    refine iff_of_false Bool.false_ne_true ?_
    rintro ⟨_, _, _, h⟩
    cases h
  | zero s => exact iff_of_true rfl ⟨_, _, _, rfl⟩
  | finite s m e hm => exact iff_of_true rfl ⟨_, _, _, rfl⟩

theorem ofBits_toBits (x : Float) : Float.ofBits x.toBits = x :=
  congrArg Float.ofModel (pack_unpack x.toModel)

/-- The bits of a finite double. -/
theorem parts_finite {x : Float} {negative : Bool} {m : Nat} {q : Int}
    (h : parts x = .finite negative m q) :
    Canonical m q ∧ q ≤ 971 ∧
    x = ofMagnitude negative ((q - leastExponent).toNat * 2 ^ 52 + m) := by
  have hlt : x.toBits.toNat < 2 ^ 64 := x.toBits.toBitVec.isLt
  have hbits : ∀ {k : Nat}, x.toBits.toNat = k → x = Float.ofBits (UInt64.ofNat k) := by
    rintro _ rfl
    rw [UInt64.ofNat_toNat, ofBits_toBits]
  unfold parts leastExponent at h
  unfold ofMagnitude leastExponent
  dsimp only [Nat.pow_eq, Int.ofNat_eq_natCast] at h ⊢
  generalize x.toBits.toNat = bits at h hlt hbits
  have hsigned : ∀ {k : Nat}, bits % 2 ^ 63 = k →
      bits = if decide (2 ^ 63 ≤ bits) = true then 2 ^ 63 + k else k := by
    intro k hk
    simp only [decide_eq_true_eq]
    split <;> omega
  split at h
  · split at h <;> cases h
  · split at h
    · obtain ⟨rfl, rfl, rfl⟩ := Parts.finite.inj h
      exact ⟨⟨by omega, by omega, .inr rfl⟩, by omega, hbits (hsigned (by omega))⟩
    · obtain ⟨rfl, rfl, rfl⟩ := Parts.finite.inj h
      exact ⟨⟨by omega, by omega, .inl (by omega)⟩, by omega, hbits (hsigned (by omega))⟩

theorem toBits_ofBits {b : UInt64} (h : b.toNat % 2 ^ 63 ≤ infinityBits) :
    (Float.ofBits b).toBits = b := by
  have hvalid : Format.binary64.Valid b.toBitVec := by
    constructor
    intro hexponent hmantissa
    have hlast : b.toNat / 2 ^ 52 % 2 ^ 11 = 2047 := by
      rw [← UInt64.toNat_toBitVec, ← toNat_unpackExponent, hexponent]
      rfl
    have hne : b.toNat % 2 ^ 52 ≠ 0 := by
      rw [← UInt64.toNat_toBitVec, ← toNat_unpackMantissa]
      exact fun hzero => hmantissa (BitVec.eq_of_toNat_eq hzero)
    change b.toNat % 2 ^ 63 ≤ 2047 * 2 ^ 52 at h
    omega
  exact congrArg UInt64.ofBitVec (pack_of_reads (reads_unpack b.toBitVec) hvalid)

/-- What is not beyond the bits of infinity is a number. -/
theorem isNaN_ofMagnitude (negative : Bool) {bits : Nat} (h : bits ≤ infinityBits) :
    (ofMagnitude negative bits).isNaN = false := by
  change bits ≤ 2047 * 2 ^ 52 at h
  have hlow : (if negative then Nat.pow 2 63 + bits else bits) % 2 ^ 63 = bits ∧
      (if negative then Nat.pow 2 63 + bits else bits) < 2 ^ 64 := by
    rw [Nat.pow_eq]
    split <;> omega
  unfold ofMagnitude
  generalize (if negative then Nat.pow 2 63 + bits else bits) = k at hlow
  have hnat : (UInt64.ofNat k).toNat = k := UInt64.toNat_ofNat_of_lt' hlow.2
  have hbits : (Float.ofBits (UInt64.ofNat k)).toBits.toNat = k := by
    rw [toBits_ofBits, hnat]
    rw [hnat, hlow.1]
    exact h
  rw [isNaN_eq, decide_eq_false_iff_not]
  unfold parts
  dsimp only [Nat.pow_eq]
  rw [hbits]
  split
  · rw [if_pos (by omega)]
    simp
  · split <;> simp

end Chalkboard.Double
