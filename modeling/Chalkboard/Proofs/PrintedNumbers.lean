import Mathlib.Data.List.DropRight
import Mathlib.Data.Nat.Cast.Field
import Chalkboard.Proofs.NumericText
import Chalkboard.Proofs.ShortestDigits

/-! # Printed numbers read back

A number is printed in one of four forms: with all digits of a whole number, with digits around a
point, with zeros before or after its digits, or with an exponent. Each form is a numeral whose
value is nearest to the number, so that reading what was printed gives the number again.
-/

namespace Chalkboard

namespace Numeral

variable {cs : List Char} {v : ℚ}

/-- A text without a sign that is written for the number `v`. -/
inductive Unsigned (cs : List Char) (v : ℚ) : Prop where
  | mk {whole fraction digits exponent : List Char} {e : ℤ} :
      Pointed whole fraction digits → (∀ c ∈ whole ++ fraction, c.isDigit = true) →
      whole ++ fraction ≠ [] → Exponent exponent e → cs = digits ++ exponent →
      digitsValue (whole ++ fraction) * 10 ^ (e - fraction.length) = v → Unsigned cs v

theorem Unsigned.written (h : Unsigned cs v) {sign : List Char} {negative : Bool}
    (hsign : Sign sign negative) :
    ∃ n : Numeral, Written (sign ++ cs) n ∧ n.negative = negative ∧ n.value = v := by
  obtain ⟨hpointed, hdigits, hne, hexponent, rfl, rfl⟩ := h
  exact ⟨_, .mk hsign hpointed hdigits hne hexponent, rfl, rfl⟩

theorem exponentSize_eq {digits : List Char} (h : digitsValue digits < 65536) :
    exponentSize digits = digitsValue digits := by
  induction digits using List.reverseRecOn with
  | nil => rfl
  | append_singleton digits c ih =>
    rw [digitsValue_append_singleton] at h ⊢
    have ih := ih (by omega)
    unfold exponentSize at ih ⊢
    rw [List.foldl_append, ih, List.foldl_cons, List.foldl_nil, if_pos (by omega)]

theorem toList_toString_nat (n : ℕ) : (toString n).toList = Nat.toDigits 10 n := by
  rw [Nat.toString_eq_repr, Nat.repr_eq_ofList_toDigits, String.toList_ofList]

theorem exponent_toDigits {sign : List Char} {negative : Bool} (hsign : Sign sign negative) {n : ℕ}
    (hn : n < 65536) :
    Exponent ('e' :: (sign ++ Nat.toDigits 10 n))
    (if negative then -Int.ofNat n else Int.ofNat n) := by
  have hsize : exponentSize (Nat.toDigits 10 n) = n := by
    rw [exponentSize_eq, digitsValue_toDigits]
    rw [digitsValue_toDigits]
    exact hn
  have h := Exponent.written (.inl rfl) hsign Nat.toDigits_ne_nil
    (fun c hc => Nat.isDigit_of_mem_toDigits (b := 10) (n := n) (by decide) le_rfl hc)
  rw [hsize] at h
  exact h

theorem exponent_toString {k : ℤ} (hlow : -65536 < k) (hhigh : k < 65536) :
    Exponent ('e' :: ((if 0 ≤ k then ['+'] else []) ++ (toString k).toList)) k := by
  rw [Int.toString_eq_repr, Int.repr_eq_if]
  by_cases hk : 0 ≤ k
  · rw [if_pos hk, if_pos hk, Nat.repr_eq_ofList_toDigits, String.toList_ofList]
    have h := exponent_toDigits .plus (show k.toNat < 65536 by omega)
    rw [if_neg Bool.false_ne_true, Int.ofNat_eq_natCast, Int.toNat_of_nonneg hk] at h
    exact h
  · rw [if_neg hk, if_neg hk, Nat.repr_eq_ofList_toDigits, String.toList_append,
      String.toList_ofList (l := Nat.toDigits 10 _)]
    have h := exponent_toDigits .minus (show (-k).toNat < 65536 by omega)
    rw [if_pos rfl, Int.ofNat_eq_natCast, Int.toNat_of_nonneg (by omega), Int.neg_neg] at h
    exact h

end Numeral

namespace Digits

open Numeral NumberLayout

variable {d : Digits}

theorem isDigit_zeros {n : ℤ} : ∀ c ∈ zeros n, c.isDigit = true := by
  intro c hc
  rw [List.eq_of_mem_replicate hc]
  rfl

theorem Proper.unsigned_zeros_before (hd : d.Proper) (hpoint : d.point ≤ 0) :
    Unsigned ('0' :: '.' :: (zeros (-d.point) ++ d.chars)) d.value := by
  apply @Unsigned.mk _ _ ['0'] (zeros (-d.point) ++ d.chars) _ _ _ .parts
  · rw [List.forall_mem_append, List.forall_mem_append, List.forall_mem_singleton]
    exact ⟨rfl, isDigit_zeros, hd.digit⟩
  · exact List.cons_ne_nil _ _
  · exact .none
  · rw [List.append_nil, List.singleton_append]
  · have hlength : ((zeros (-d.point) ++ d.chars).length : ℤ) = -d.point + d.chars.length := by
      rw [List.length_append, zeros, List.length_replicate]
      omega
    have hvalue : digitsValue (['0'] ++ (zeros (-d.point) ++ d.chars)) = digitsValue d.chars := by
      rw [← List.append_assoc, digitsValue_append, digitsValue_append, zeros, digitsValue_replicate]
      have hzero : digitsValue ['0'] = 0 := rfl
      rw [hzero, Nat.zero_mul, Nat.zero_mul, Nat.zero_add]
    rw [hvalue, hlength, value]
    congr 2
    ring

theorem Proper.unsigned_zeros_after (hd : d.Proper) (hpoint : d.chars.length ≤ d.point) :
    Unsigned (d.chars ++ zeros (d.point - d.chars.length)) d.value := by
  apply @Unsigned.mk _ _ (d.chars ++ zeros (d.point - d.chars.length)) [] _ _ _ .whole
  · rw [List.append_nil, List.forall_mem_append]
    exact ⟨hd.digit, isDigit_zeros⟩
  · rw [List.append_nil]
    exact List.append_ne_nil_of_left_ne_nil hd.ne_nil _
  · exact .none
  · rw [List.append_nil]
  · have hexponent : ((d.point - d.chars.length).toNat : ℤ) = d.point - d.chars.length :=
      Int.toNat_of_nonneg (by omega)
    rw [List.append_nil, digitsValue_append, zeros, digitsValue_replicate, List.length_replicate,
      value, ← hexponent]
    simp

theorem Proper.unsigned_point_between (hd : d.Proper) (hpos : 0 < d.point)
    (hpoint : d.point < d.chars.length) :
    Unsigned (d.chars.take d.point.toNat ++ '.' :: d.chars.drop d.point.toNat) d.value := by
  apply @Unsigned.mk _ _ (d.chars.take d.point.toNat) (d.chars.drop d.point.toNat) _ _ _ .parts
  · rw [List.take_append_drop]
    exact hd.digit
  · rw [List.take_append_drop]
    exact hd.ne_nil
  · exact .none
  · rw [List.append_nil]
  · rw [List.take_append_drop, List.length_drop, value]
    congr 2
    omega

theorem Proper.unsigned_exponent (hd : d.Proper) {exponent : List Char}
    (he : Exponent exponent d.exponent) :
    (∀ {first : Char}, d.chars = [first] → Unsigned (first :: exponent) d.value) ∧
      ∀ {first second : Char} {rest : List Char}, d.chars = first :: second :: rest →
        Unsigned (first :: '.' :: second :: rest ++ exponent) d.value := by
  obtain ⟨-, hdigit⟩ := hd
  unfold value
  unfold Digits.exponent at he
  constructor
  · intro first hchars
    rw [hchars] at hdigit ⊢
    apply @Unsigned.mk _ _ [first] [] _ _ _ .whole hdigit (List.cons_ne_nil _ _) he rfl
    simp
  · intro first second rest hchars
    rw [hchars] at hdigit ⊢
    apply @Unsigned.mk _ _ [first] (second :: rest) _ _ _ .parts hdigit
      (List.cons_ne_nil _ _) he rfl
    rw [List.singleton_append]
    congr 2
    simp only [List.length_cons]
    omega

end Digits

namespace Value

open Numeral Double

variable {d : Digits} {m : ℕ} {q : ℤ}

theorem plain_unsigned (hd : d.Proper) : Unsigned (numberLayout.plain d).toList d.value := by
  unfold NumberLayout.plain
  dsimp only [Int.ofNat_eq_natCast]
  split
  · rename_i hpoint
    simp only [String.toList_append, String.toList_ofList]
    exact hd.unsigned_zeros_before hpoint
  · split
    · rename_i hwidth
      simp only [String.toList_append, String.toList_ofList]
      exact (List.append_nil _).symm ▸ hd.unsigned_zeros_after hwidth
    · rw [String.toList_ofList]
      exact hd.unsigned_point_between (by omega) (by omega)

theorem scientific_unsigned (hd : d.Proper) (hlow : -65536 < d.exponent)
    (hhigh : d.exponent < 65536) : Unsigned (numberLayout.scientific d).toList d.value := by
  have hsign : (if 0 ≤ d.exponent then numberLayout.exponentSign else "").toList =
      if 0 ≤ d.exponent then ['+'] else [] := by
    split <;> rfl
  obtain ⟨hone, hmore⟩ := hd.unsigned_exponent (exponent_toString hlow hhigh)
  unfold NumberLayout.scientific
  simp only [String.toList_append, hsign, String.toList_ofList, List.append_assoc]
  rcases hchars : d.chars with _ | ⟨first, _ | ⟨second, rest⟩⟩
  · exact absurd hchars hd.ne_nil
  · exact hone hchars
  · exact hmore hchars

theorem whole_unsigned (n : ℕ) : Unsigned (toString n).toList n := by
  rw [toList_toString_nat]
  apply @Unsigned.mk _ _ (Nat.toDigits 10 n) [] _ _ _ .whole
  · rw [List.append_nil]
    exact fun c hc => Nat.isDigit_of_mem_toDigits (by decide) le_rfl hc
  · rw [List.append_nil]
    exact Nat.toDigits_ne_nil
  · exact .none
  · rw [List.append_nil]
  · rw [List.append_nil, digitsValue_toDigits]
    simp

theorem cast_wholePart (h : m % 2 ^ (-q).toNat = 0) :
    ((m * 2 ^ q.toNat / 2 ^ (-q).toNat : ℕ) : ℚ) = m * 2 ^ q := by
  have hdvd : 2 ^ (-q).toNat ∣ m * 2 ^ q.toNat := dvd_mul_of_dvd_left (Nat.dvd_of_mod_eq_zero h) _
  rw [Nat.cast_div hdvd (by positivity)]
  exact_mod_cast cast_mul_div m 2 q

/-- What is printed for a magnitude is nearest to it. -/
theorem magnitude_unsigned (hm : 0 < m) (hcanonical : Canonical m q) (hq : q ≤ 971) :
    ∃ v, IsNearest m q v ∧ Unsigned (numberLayout.magnitude m q).toList v := by
  obtain ⟨c, e, hdigits, hnearest⟩ :=
    Shortest.exists_scaled (q := q) numberLayout.tie hm hcanonical.lt
  have hpos := hnearest.pos hm
  have hc : 0 < c := by
    rw [Nat.pos_iff_ne_zero]
    rintro rfl
    simp at hpos
  have hproper := Digits.ofScaled_proper hc e
  unfold NumberLayout.magnitude
  dsimp only
  rw [hdigits]
  split
  · split
    · rename_i hwhole
      rw [Bool.and_eq_true, beq_iff_eq, Nat.pow_eq] at hwhole
      refine ⟨_, isNearest_self m q, ?_⟩
      rw [String.toList_append, ← cast_wholePart hwhole.2]
      exact (List.append_nil _).symm ▸ whole_unsigned _
    · refine ⟨_, hnearest, ?_⟩
      rw [← Digits.ofScaled_value]
      exact plain_unsigned hproper
  · refine ⟨_, hnearest, ?_⟩
    obtain ⟨hlow, hhigh⟩ := hnearest.bounds hm hcanonical hq
    have hexponent := Digits.ofScaled_exponent hc e
    have hlow :=
      (Int.zpow_le_iff_le_log (b := 10) (x := -324) (by decide) hpos).mp (by exact_mod_cast hlow.le)
    have hhigh :=
      (Int.lt_zpow_iff_log_lt (b := 10) (x := 309) (by decide) hpos).mp (by exact_mod_cast hhigh)
    rw [← Digits.ofScaled_value]
    exact scientific_unsigned hproper (by omega) (by omega)

theorem isBlank_of_isNumeric {c : Char} (h : isNumeric c = true) : isBlank c = false := by
  simp only [isNumeric, Bool.or_eq_true, beq_iff_eq] at h
  rcases h with ((((h | rfl) | rfl) | rfl) | rfl) | rfl
  · rw [Scanner.isDigit_iff] at h
    simp [isBlank, blankRanges]
    omega
  all_goals decide

theorem trim_eq_self {t : String} (h : ∀ c ∈ t.toList, isBlank c = false) : Text.trim t = t := by
  have hdrop : ∀ {cs : List Char}, (∀ c ∈ cs, isBlank c = false) → cs.dropWhile isBlank = cs := by
    intro cs hcs
    rw [List.dropWhile_eq_self_iff]
    intro hlength
    rw [hcs _ (List.getElem_mem hlength)]
    exact Bool.false_ne_true
  rw [Text.trim, Text.dropEndWhile, hdrop h, hdrop, List.reverse_reverse, String.ofList_toList]
  intro c hc
  exact h c (List.mem_reverse.mp hc)

theorem trim_eq_self_of_written {t : String} {n : Numeral} (h : Written t.toList n) :
    Text.trim t = t :=
  trim_eq_self fun c hc => isBlank_of_isNumeric (h.numeric c hc)

/-- A number that is finite and not zero is printed as a numeral for itself. -/
theorem written_render {x : Float} {negative : Bool} (h : parts x = .finite negative m q)
    (hm : m ≠ 0) : ∃ n, Written (numberLayout.render x).toList n ∧ n.toDouble = x := by
  obtain ⟨hcanonical, hq, hx⟩ := parts_finite h
  have hpos := Nat.pos_of_ne_zero hm
  obtain ⟨v, hnearest, hunsigned⟩ := magnitude_unsigned hpos hcanonical hq
  have hsign : Sign (if negative then "-" else "").toList negative := by
    cases negative with
    | true => exact .minus
    | false => exact .none
  obtain ⟨n, hwritten, hnegative, rfl⟩ := hunsigned.written hsign
  have hrender : numberLayout.render x = (if negative then "-" else "") ++
      numberLayout.magnitude m q := by
    rw [NumberLayout.render, h]
    exact if_neg hm
  refine ⟨n, ?_, ?_⟩
  · rw [hrender, String.toList_append]
    exact hwritten
  · rw [toDouble_eq hpos hcanonical hq hnearest, hnegative, ← hx]

theorem eq_zero_of_parts {x : Float} {negative : Bool} (h : parts x = .finite negative 0 q) :
    x = Double.zero negative := by
  obtain ⟨hcanonical, -, hx⟩ := parts_finite h
  have hq : q = leastExponent := hcanonical.normal.resolve_left (by norm_num)
  rw [hx, hq, sub_self]
  rfl

/-- The words for numbers that are not finite have letters that no numeral has. -/
theorem readings_render_of_not_isFinite {x : Float} (h : x.isFinite = false) :
    let shown := numberLayout.render x
    ofAnswer shown = .text shown ∧ (text shown).toNumber.isNaN = true := by
  have hparts : ∀ negative m q, parts x ≠ .finite negative m q := by
    intro negative m q hfinite
    rw [(isFinite_iff x).mpr ⟨negative, m, q, hfinite⟩] at h
    cases h
  unfold NumberLayout.render
  split
  · exact ⟨rfl, rfl⟩
  · rename_i negative _
    cases negative <;> exact ⟨rfl, rfl⟩
  · rename_i hfinite
    exact absurd hfinite (hparts _ _ _)

end Value

/-- A printed number is read back as the same double, by whichever way it comes back, except that
zero comes back without its sign. What is printed for infinity and for the undefined number is read
as a text that is no number. -/
theorem printed_numbers_read_back (x : Float) :
    (x.isFinite = true → x ≠ -0.0 →
      Value.ofAnswer (Value.number x).toText = .number x ∧
        (Value.text (Value.number x).toText).toNumber = x) ∧
    (x = -0.0 →
      Value.ofAnswer (Value.number x).toText = .number 0.0 ∧
        (Value.text (Value.number x).toText).toNumber = 0.0) ∧
    (x.isFinite = false →
      Value.ofAnswer (Value.number x).toText = .text (Value.number x).toText ∧
        (Value.text (Value.number x).toText).toNumber.isNaN = true) := by
  refine ⟨?_, ?_, fun hinfinite => Value.readings_render_of_not_isFinite hinfinite⟩
  · intro hfinite hzero
    obtain ⟨negative, m, q, hparts⟩ := (Double.isFinite_iff x).mp hfinite
    by_cases hm : m = 0
    · subst hm
      cases negative with
      | true => exact absurd (Value.eq_zero_of_parts hparts) hzero
      | false =>
        rw [Value.eq_zero_of_parts hparts]
        exact ⟨rfl, rfl⟩
    · obtain ⟨n, hwritten, rfl⟩ := Value.written_render hparts hm
      apply Value.readings_of_written
      rwa [Value.toText, Value.trim_eq_self_of_written hwritten]
  · rintro rfl
    exact ⟨rfl, rfl⟩

/-- The smallest double, a negative one with an exponent, minus zero and minus infinity. -/
theorem printed_numbers_read_back_extremes :
    ((Value.number (Float.ofBits 1)).toText = "5e-324" ∧
      Value.ofAnswer "5e-324" = .number (Float.ofBits 1)) ∧
    ((Value.number (-1e23)).toText = "-1e+23" ∧ Value.ofAnswer "-1e+23" = .number (-1e23)) ∧
    ((Value.number (-0.0)).toText = "0" ∧ Value.ofAnswer "0" = .number 0.0) ∧
    ((Value.number (-1.0 / 0.0)).toText = "-Infinity" ∧
      Value.ofAnswer "-Infinity" = .text "-Infinity") := by
  have hleast : (Value.number (Float.ofBits 1)).toText = "5e-324" := by decide +kernel
  have hlarge : (Value.number (-1e23)).toText = "-1e+23" := by decide +kernel
  have hzero : (Value.number (-0.0)).toText = "0" := rfl
  have hinfinite : (Value.number (-1.0 / 0.0)).toText = "-Infinity" := rfl
  refine ⟨⟨hleast, ?_⟩, ⟨hlarge, ?_⟩, ⟨hzero, ?_⟩, ⟨hinfinite, ?_⟩⟩
  · have h := ((printed_numbers_read_back (Float.ofBits 1)).1 (by decide) (by decide)).1
    rw [hleast] at h
    exact h
  · have h := ((printed_numbers_read_back (-1e23)).1 (by decide) (by decide)).1
    rw [hlarge] at h
    exact h
  · have h := ((printed_numbers_read_back (-0.0)).2.1 rfl).1
    rw [hzero] at h
    exact h
  · have h := ((printed_numbers_read_back (-1.0 / 0.0)).2.2 (by decide)).1
    rw [hinfinite] at h
    exact h

end Chalkboard
