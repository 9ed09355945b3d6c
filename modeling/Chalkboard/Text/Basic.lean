/-! # Characters of texts

Letter case, padding and blanks. Names and keywords are ASCII words, so only ASCII letters have a
case here. Columns have a fixed width in characters, and a text that is too wide stays as it is.
Blanks are the characters with the Unicode property `White_Space`.
-/

namespace Chalkboard

/-- Upper case moves lower-case letters and nothing else. -/
theorem toUpper_cases (c : Char) : c.toUpper = c ∨
    (97 ≤ c.toNat ∧ c.toNat ≤ 122 ∧ c.toUpper.toNat + 32 = c.toNat) := by
  by_cases h : c.val ≥ 'a'.val ∧ c.val ≤ 'z'.val
  · right
    have hbounds : 97 ≤ c.toNat ∧ c.toNat ≤ 122 :=
      h.imp UInt32.le_iff_toNat_le.mp UInt32.le_iff_toNat_le.mp
    have hupper : c.toUpper = _ := dif_pos h
    refine ⟨hbounds.1, hbounds.2, ?_⟩
    rw [hupper, ← Char.toNat_val]
    simp only [UInt32.toNat_add, UInt32.reduceToNat, UInt32.reduceSub, Char.reduceVal,
      Char.toNat_val]
    omega
  · exact .inl (dif_neg h)

@[simp] theorem toUpper_toUpper (c : Char) : c.toUpper.toUpper = c.toUpper := by
  rcases toUpper_cases c with h | ⟨hl, hu, hupper⟩
  · rw [h, h]
  · rcases toUpper_cases c.toUpper with h | ⟨hl', _, _⟩
    · exact h
    · omega

namespace Text

def upper (s : String) : String :=
  String.ofList (s.toList.map Char.toUpper)

def lower (s : String) : String :=
  String.ofList (s.toList.map Char.toLower)

theorem upper_upper (s : String) : upper (upper s) = upper s := by
  simp [upper, Function.comp_def]

def repeated (c : Char) (n : Nat) : String :=
  String.ofList (List.replicate n c)

def padRight (width : Nat) (s : String) : String :=
  s ++ repeated ' ' (width - s.length)

def padLeft (width : Nat) (s : String) : String :=
  repeated ' ' (width - s.length) ++ s

end Text

/-- The white space of Unicode, as closed ranges of code points in ascending order. -/
def blankRanges : List (Nat × Nat) :=
  [(0x09, 0x0D), (0x20, 0x20), (0x85, 0x85), (0xA0, 0xA0), (0x1680, 0x1680), (0x2000, 0x200A),
    (0x2028, 0x2029), (0x202F, 0x202F), (0x205F, 0x205F), (0x3000, 0x3000)]

def isBlank (c : Char) : Bool :=
  blankRanges.any fun (first, last) => first ≤ c.toNat && c.toNat ≤ last

namespace Text

def dropEndWhile (p : Char → Bool) (cs : List Char) : List Char :=
  (cs.reverse.dropWhile p).reverse

def trimEnd (s : String) : String :=
  String.ofList (dropEndWhile isBlank s.toList)

def trim (s : String) : String :=
  String.ofList (dropEndWhile isBlank (s.toList.dropWhile isBlank))

end Text

end Chalkboard
