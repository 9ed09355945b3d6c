import Mathlib.Algebra.Group.Nat.Defs
import Mathlib.Data.Nat.Log
import Chalkboard.Number.Double

/-! # The bits of doubles

A double is read by its sign, its exponent field and its mantissa field. Packing what was read gives
back the double, so that a double is determined by what it is read as; and a finite number of the
right shape is read back from its bits, unless it is so large that only infinity is left.
-/

namespace Chalkboard.Double

open Float.Model Float.Model.UnpackedFloat

theorem toBitVec_ofBitVec (v : BitVec 1) : (Sign.ofBitVec v).toBitVec = v := by
  have hv : v = 0#1 ∨ v = 1#1 := by
    have hlt := v.isLt
    have h : v.toNat = 0 ∨ v.toNat = 1 := by omega
    rcases h with h | h
    · exact .inl (BitVec.eq_of_toNat_eq h)
    · exact .inr (BitVec.eq_of_toNat_eq h)
  rcases hv with rfl | rfl <;> rfl

theorem unpackSign_eq (b : BitVec Format.binary64.numBits) :
    unpackSign b = (b.extractLsb 63 63).cast rfl := rfl

theorem packComponents_fields (b : BitVec Format.binary64.numBits) :
    packComponents Format.binary64 (Sign.ofBitVec (unpackSign b)) (unpackExponent b)
      (unpackMantissa b) = b := by
  rw [packComponents, toBitVec_ofBitVec]
  apply BitVec.eq_of_getLsbD_eq
  intro i hi
  have hi : i < 64 := hi
  simp only [BitVec.getLsbD_append, unpackSign_eq, unpackExponent, unpackMantissa,
    BitVec.getLsbD_cast, BitVec.getLsbD_extractLsb]
  split
  · rw [decide_eq_true (by omega), Bool.true_and, Nat.zero_add]
  · split
    · rw [decide_eq_true (by omega), Bool.true_and, Nat.add_sub_cancel' (by omega)]
    · rw [decide_eq_true (by omega), Bool.true_and]
      congr 1
      omega

theorem unpackSign_packComponents (s : Sign) (exponent : BitVec 11) (mantissa : BitVec 52) :
    Sign.ofBitVec (unpackSign (packComponents Format.binary64 s exponent mantissa)) = s := by
  have h : unpackSign (packComponents Format.binary64 s exponent mantissa) = s.toBitVec := by
    apply BitVec.eq_of_getLsbD_eq
    intro i hi
    obtain rfl : i = 0 := by omega
    simp only [unpackSign_eq, packComponents, BitVec.getLsbD_cast, BitVec.getLsbD_extractLsb,
      BitVec.getLsbD_append]
    rfl
  rw [h]
  cases s <;> rfl

theorem toNat_implicit (v : BitVec 52) : (1#1 ++ v).toNat = 2 ^ 52 + v.toNat := by
  rw [BitVec.toNat_append, ← Nat.shiftLeft_add_eq_or_of_lt v.isLt]
  rfl

/-- Finite doubles are packed by their exponent and by the number of their bits. -/
theorem pack_finite (s : Sign) (m : Nat) (e : Int) (hm : 0 < m) :
    UnpackedFloat.pack Format.binary64 (.finite s m e hm) =
      if 972 ≤ e then packedInfinity Format.binary64 s
      else if m.log2 = 52 then
        packComponents Format.binary64 s (BitVec.ofNat 11 (e + 1075).toNat) (BitVec.ofNat 52 m)
      else packComponents Format.binary64 s 0#11 (BitVec.ofNat 52 m) := by
  have hbias : (e + (Format.binary64.exponentBias : Int) + (52 : Nat)).toNat =
      (e + 1075).toNat := by
    have : (Format.binary64.exponentBias : Int) = 1023 := rfl
    omega
  have hlarge : 2 ^ 11 ≤ (e + 1075).toNat + 1 ↔ 972 ≤ e := by omega
  have hbits : m.log2 + 1 = Format.binary64.mantissaBits ↔ m.log2 = 52 :=
    Nat.add_right_cancel_iff (n := 1)
  delta UnpackedFloat.pack
  simp only [hbias, hlarge, hbits]

/-- The shape of the finite doubles: 53 bits, of which the first is set unless the exponent is the
least. -/
structure Canonical (m : Nat) (e : Int) : Prop where
  lt : m < 2 ^ 53
  le : -1074 ≤ e
  normal : 2 ^ 52 ≤ m ∨ e = -1074

theorem Canonical.log2 {m : Nat} {e : Int} (h : Canonical m e) (hm : 0 < m) :
    m.log2 = 52 ∨ m < 2 ^ 52 ∧ e = -1074 := by
  have hlt := h.lt
  rcases h.normal with hlow | he
  · exact .inl ((Nat.log2_eq_iff (by omega)).mpr ⟨hlow, hlt⟩)
  · by_cases hlow : 2 ^ 52 ≤ m
    · exact .inl ((Nat.log2_eq_iff (by omega)).mpr ⟨hlow, hlt⟩)
    · exact .inr ⟨by omega, he⟩

/-- What a double is read as by its fields: the sign, the number in the exponent field and the
number in the mantissa field. -/
inductive Reads (s : Sign) : (exponent mantissa : Nat) → UnpackedFloat → Prop where
  | infinity : Reads s 2047 0 (.infinity s)
  | notANumber {m : Nat} : m ≠ 0 → Reads s 2047 m .notANumber
  | zero : Reads s 0 0 (.zero s)
  | subnormal {m : Nat} (hm : 0 < m) : Reads s 0 m (.finite s m (-1074) hm)
  | normal {e m : Nat} (hm : 0 < 2 ^ 52 + m) : 0 < e → e < 2047 →
      Reads s e m (.finite s (2 ^ 52 + m) (e - 1075) hm)

theorem Reads.normal_of_eq {s : Sign} {e m n : Nat} {f : Int} {hn : 0 < n} (h : n = 2 ^ 52 + m)
    (hf : f = e - 1075) (hfirst : 0 < e) (hlast : e < 2047) : Reads s e m (.finite s n f hn) := by
  subst h hf
  exact .normal hn hfirst hlast

theorem reads_unpack (b : BitVec Format.binary64.numBits) :
    Reads (Sign.ofBitVec (unpackSign b)) (unpackExponent b).toNat (unpackMantissa b).toNat
      (UnpackedFloat.unpack Format.binary64 b) := by
  have hwidth : (unpackExponent b).toNat < 2 ^ 11 := (unpackExponent b).isLt
  have hbias : (Format.binary64.exponentBias : Int) + (52 : Nat) = 1075 := rfl
  unfold UnpackedFloat.unpack
  dsimp only
  by_cases hlast : unpackExponent b = -BitVec.ofNat Format.binary64.exponentBits 1
  · have hexponent : (unpackExponent b).toNat = 2047 := congrArg BitVec.toNat hlast
    rw [if_pos hlast, hexponent]
    by_cases hzero : unpackMantissa b = BitVec.ofNat Format.binary64.mantissaBitsWithoutImplicit 0
    · have hmantissa : (unpackMantissa b).toNat = 0 := congrArg BitVec.toNat hzero
      rw [if_pos hzero, hmantissa]
      exact .infinity
    · rw [if_neg hzero]
      exact .notANumber fun hnat => hzero (BitVec.eq_of_toNat_eq hnat)
  · have hne : (unpackExponent b).toNat ≠ 2047 := fun hnat => hlast (BitVec.eq_of_toNat_eq hnat)
    rw [if_neg hlast]
    by_cases hfirst : unpackExponent b = BitVec.ofNat Format.binary64.exponentBits 0
    · have hexponent : (unpackExponent b).toNat = 0 := congrArg BitVec.toNat hfirst
      rw [if_pos hfirst, hbias]
      by_cases hzero : unpackMantissa b = BitVec.ofNat Format.binary64.mantissaBitsWithoutImplicit 0
      · have hmantissa : (unpackMantissa b).toNat = 0 := congrArg BitVec.toNat hzero
        rw [dif_pos hzero, hexponent, hmantissa]
        exact .zero
      · rw [dif_neg hzero, hexponent]
        exact .subnormal _
    · have hpos : (unpackExponent b).toNat ≠ 0 := fun hnat => hfirst (BitVec.eq_of_toNat_eq hnat)
      rw [if_neg hfirst]
      exact .normal_of_eq (toNat_implicit _) (congrArg _ hbias) (by omega) (by omega)

theorem Reads.unique {s : Sign} {exponent mantissa : Nat} {u u' : UnpackedFloat}
    (h : Reads s exponent mantissa u) (h' : Reads s exponent mantissa u') : u = u' := by
  cases h <;> cases h' <;> first | rfl | omega

theorem Reads.canonical {s s' : Sign} {exponent mantissa m : Nat} {e : Int} {hm : 0 < m}
    (h : Reads s exponent mantissa (.finite s' m e hm)) (hlt : mantissa < 2 ^ 52) :
    Canonical m e ∧ e ≤ 971 := by
  cases h with
  | subnormal => exact ⟨⟨by omega, by omega, .inr rfl⟩, by omega⟩
  | normal _ hfirst hlast => exact ⟨⟨by omega, by omega, .inl (by omega)⟩, by omega⟩

theorem unpack_finite {v : Float.Model} {s : Sign} {m : Nat} {e : Int} {hm : 0 < m}
    (h : v.unpack = .finite s m e hm) : Canonical m e ∧ e ≤ 971 := by
  have hreads := reads_unpack v.toBits.toBitVec
  have hunpack : UnpackedFloat.unpack Format.binary64 v.toBits.toBitVec = .finite s m e hm := h
  rw [hunpack] at hreads
  exact hreads.canonical (BitVec.isLt _)

theorem pack_of_reads {b : BitVec Format.binary64.numBits} {u : UnpackedFloat}
    (h : Reads (Sign.ofBitVec (unpackSign b)) (unpackExponent b).toNat (unpackMantissa b).toNat u)
    (hvalid : Format.binary64.Valid b) : UnpackedFloat.pack Format.binary64 u = b := by
  have hfields := packComponents_fields b
  have hexponent : (unpackExponent b).toNat < 2 ^ 11 := (unpackExponent b).isLt
  have hmantissa : (unpackMantissa b).toNat < 2 ^ 52 := (unpackMantissa b).isLt
  have he : unpackExponent b = BitVec.ofNat 11 (unpackExponent b).toNat :=
    BitVec.eq_of_toNat_eq (Nat.mod_eq_of_lt hexponent).symm
  have hm : unpackMantissa b = BitVec.ofNat 52 (unpackMantissa b).toNat :=
    BitVec.eq_of_toNat_eq (Nat.mod_eq_of_lt hmantissa).symm
  generalize hs : Sign.ofBitVec (unpackSign b) = s at h hfields
  generalize (unpackExponent b).toNat = exponent at h he
  generalize (unpackMantissa b).toNat = mantissa at h hm hmantissa
  cases h with
  | infinity =>
    rw [← hfields, he, hm]
    rfl
  | notANumber hne =>
    apply Eq.symm
    apply hvalid.eq_packedNaN
    · rw [he]
      rfl
    · rw [hm]
      intro hzero
      have hnat : mantissa % 2 ^ 52 = 0 := congrArg BitVec.toNat hzero
      rw [Nat.mod_eq_of_lt hmantissa] at hnat
      exact hne hnat
  | zero =>
    rw [← hfields, he, hm]
    rfl
  | subnormal hpos =>
    have hlog : mantissa.log2 < 52 := (Nat.log2_lt (by omega)).mpr hmantissa
    rw [pack_finite, if_neg (by decide), if_neg (by omega), ← hfields, he, hm]
  | normal hpos hfirst hlast =>
    have hlog : (2 ^ 52 + mantissa).log2 = 52 :=
      (Nat.log2_eq_iff (by omega)).mpr ⟨by omega, by omega⟩
    have hexponent : ((exponent : Int) - 1075 + 1075).toNat = exponent := by omega
    have hcut : BitVec.ofNat 52 (2 ^ 52 + mantissa) = BitVec.ofNat 52 mantissa := by
      apply BitVec.eq_of_toNat_eq
      rw [BitVec.toNat_ofNat, BitVec.toNat_ofNat, Nat.add_mod_left]
    rw [pack_finite, if_neg (by omega), if_pos hlog, hexponent, hcut, ← hfields, he, hm]

theorem pack_unpack (v : Float.Model) : Float.Model.pack v.unpack = v := by
  obtain ⟨bits, hvalid⟩ := v
  have h := pack_of_reads (reads_unpack bits.toBitVec) hvalid
  have hbits : UInt64.ofBitVec (UnpackedFloat.pack Format.binary64
      (UnpackedFloat.unpack Format.binary64 bits.toBitVec)) = bits := by rw [h]
  exact (Float.Model.mk.injEq ..).mpr hbits

theorem unpack_packComponents {s : Sign} {exponent mantissa : Nat} {u : UnpackedFloat}
    (h : Reads s (exponent % 2 ^ 11) (mantissa % 2 ^ 52) u) :
    UnpackedFloat.unpack Format.binary64
      (packComponents Format.binary64 s (BitVec.ofNat 11 exponent) (BitVec.ofNat 52 mantissa)) =
      u := by
  have hreads := reads_unpack
    (packComponents Format.binary64 s (BitVec.ofNat 11 exponent) (BitVec.ofNat 52 mantissa))
  rw [unpackSign_packComponents, unpackExponent_packComponents, unpackMantissa_packComponents,
    BitVec.toNat_ofNat, BitVec.toNat_ofNat] at hreads
  exact hreads.unique h

theorem unpack_pack_of_le (s : Sign) {m : Nat} {e : Int} (hm : 0 < m) (h : Canonical m e)
    (hge : e ≤ 971) : (Float.Model.pack (.finite s m e hm)).unpack = .finite s m e hm := by
  show UnpackedFloat.unpack Format.binary64
    (UnpackedFloat.pack Format.binary64 (.finite s m e hm)) = _
  have hlt := h.lt
  have hle := h.le
  rw [pack_finite, if_neg (by omega)]
  rcases h.log2 hm with hlog | ⟨hsmall, rfl⟩
  · have hlow : 2 ^ 52 ≤ m := ((Nat.log2_eq_iff (by omega)).mp hlog).1
    rw [if_pos hlog]
    apply unpack_packComponents
    obtain ⟨f, rfl⟩ : ∃ f : Nat, e = (f : Int) - 1075 := ⟨(e + 1075).toNat, by omega⟩
    obtain ⟨k, rfl⟩ : ∃ k, m = 2 ^ 52 + k := ⟨m - 2 ^ 52, by omega⟩
    have hexponent : ((f : Int) - 1075 + 1075).toNat % 2 ^ 11 = f := by omega
    have hmantissa : (2 ^ 52 + k) % 2 ^ 52 = k := by omega
    rw [hexponent, hmantissa]
    exact .normal hm (by omega) (by omega)
  · have hlog : m.log2 < 52 := (Nat.log2_lt (by omega)).mpr hsmall
    rw [if_neg (by omega)]
    apply @unpack_packComponents s 0 m
    rw [Nat.mod_eq_of_lt hsmall]
    exact .subnormal hm

theorem unpack_pack_of_lt (s : Sign) {m : Nat} {e : Int} (hm : 0 < m) (hlt : 971 < e) :
    (Float.Model.pack (.finite s m e hm)).unpack = .infinity s := by
  show UnpackedFloat.unpack Format.binary64
    (UnpackedFloat.pack Format.binary64 (.finite s m e hm)) = _
  rw [pack_finite, if_pos (by omega)]
  cases s <;> rfl

end Chalkboard.Double
