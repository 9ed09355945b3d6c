import Mathlib.Data.List.TakeWhile
import Chalkboard.Value
import Chalkboard.Proofs.DoubleParts
import Chalkboard.Proofs.Lexemes

/-! # Texts that are numbers

The texts that are read as doubles, said without the reader: a sign or none, and behind it either a
word for infinity or for the undefined number, or digits with at most one point among or beside
them, and an exponent or none. What is typed in and what an operator is given have their characters
looked over before they are read. The words have letters that do not pass, and numerals have none,
so that both ways take exactly the numerals.
-/

namespace Chalkboard

namespace Numeral

inductive Sign : List Char → Bool → Prop where
  | none : Sign [] false
  | plus : Sign ['+'] false
  | minus : Sign ['-'] true

/-- The digits before a point and after it, or without a point. -/
inductive Pointed : (whole fraction cs : List Char) → Prop where
  | whole {whole : List Char} : Pointed whole [] whole
  | parts {whole fraction : List Char} : Pointed whole fraction (whole ++ '.' :: fraction)

inductive Exponent : List Char → Int → Prop where
  | none : Exponent [] 0
  | written {e : Char} {sign digits : List Char} {negative : Bool} : e = 'e' ∨ e = 'E' →
      Sign sign negative → digits ≠ [] → (∀ c ∈ digits, c.isDigit = true) →
      Exponent (e :: (sign ++ digits))
        (if negative then -Int.ofNat (exponentSize digits) else Int.ofNat (exponentSize digits))

/-- The texts that are written for a numeral. -/
inductive Written : List Char → Numeral → Prop where
  | mk {sign whole fraction digits exponent : List Char} {negative : Bool} {e : Int} :
      Sign sign negative → Pointed whole fraction digits →
      (∀ c ∈ whole ++ fraction, c.isDigit = true) → whole ++ fraction ≠ [] → Exponent exponent e →
      Written (sign ++ (digits ++ exponent))
        ⟨negative, digitsValue (whole ++ fraction), e - Int.ofNat fraction.length⟩

variable {cs : List Char}

theorem exists_sign (cs : List Char) :
    ∃ sign negative rest, splitSign cs = (negative, rest) ∧ Sign sign negative ∧
    cs = sign ++ rest := by
  unfold splitSign
  split
  · exact ⟨_, _, _, rfl, .plus, rfl⟩
  · exact ⟨_, _, _, rfl, .minus, rfl⟩
  · exact ⟨_, _, _, rfl, .none, rfl⟩

theorem splitSign_append {sign : List Char} {negative : Bool} (h : Sign sign negative)
    (hcs : ∀ c ∈ cs.head?, c ≠ '+' ∧ c ≠ '-') : splitSign (sign ++ cs) = (negative, cs) := by
  cases h with
  | plus => rfl
  | minus => rfl
  | none =>
    rw [List.nil_append]
    unfold splitSign
    split
    · exact absurd rfl (hcs '+' rfl).1
    · exact absurd rfl (hcs '-' rfl).2
    · rfl

theorem not_sign_of_isDigit {c : Char} (h : c.isDigit = true) : c ≠ '+' ∧ c ≠ '-' := by
  constructor
  · rintro rfl
    exact absurd h (by decide)
  · rintro rfl
    exact absurd h (by decide)

theorem head_not_sign {digits : List Char} (h : ∀ c ∈ digits, c.isDigit = true) :
    ∀ c ∈ digits.head?, c ≠ '+' ∧ c ≠ '-' :=
  fun c hc => not_sign_of_isDigit (h c (List.mem_of_head? hc))

theorem Pointed.head_not_sign {whole fraction digits : List Char}
    (h : Pointed whole fraction digits)
    (hdigits : ∀ c ∈ whole ++ fraction, c.isDigit = true) (hne : whole ++ fraction ≠ [])
    (rest : List Char) :
    ∀ c ∈ (digits ++ rest).head?, c ≠ '+' ∧ c ≠ '-' := by
  have hwhole : ∀ c ∈ whole, c ≠ '+' ∧ c ≠ '-' :=
    fun c hc => not_sign_of_isDigit (hdigits c (List.mem_append_left _ hc))
  cases h with
  | whole =>
    obtain ⟨d, ds, rfl⟩ := List.exists_cons_of_ne_nil (List.append_nil whole ▸ hne)
    rintro c hc
    cases hc
    exact hwhole d List.mem_cons_self
  | parts =>
    cases whole with
    | nil =>
      rintro c hc
      cases hc
      decide
    | cons d ds =>
      rintro c hc
      cases hc
      exact hwhole d List.mem_cons_self

theorem exponent?_eq_some_iff {e : Int} : exponent? cs = some e ↔ Exponent cs e := by
  constructor
  · intro h
    cases cs with
    | nil =>
      cases h
      exact .none
    | cons c cs =>
      obtain ⟨sign, negative, digits, hsplit, hsign, rfl⟩ := exists_sign cs
      rw [exponent?, hsplit] at h
      split at h
      · rename_i hc
        dsimp only at h
        split at h
        · rename_i hdigits
          cases h
          rw [List.all_eq_true] at hdigits
          exact .written hc hsign hdigits.1 hdigits.2
        · cases h
      · cases h
  · rintro (_ | ⟨he, hsign, hne, hdigits⟩)
    · rfl
    · rw [exponent?, if_pos he, splitSign_append hsign (head_not_sign hdigits)]
      exact if_pos ⟨hne, List.all_eq_true.mpr hdigits⟩

theorem Exponent.head {e : Int} (h : Exponent cs e) : ∀ c ∈ cs.head?, c = 'e' ∨ c = 'E' := by
  cases h with
  | none => simp
  | written he =>
    rintro c hc
    cases hc
    exact he

theorem exists_pointed (cs : List Char) :
    ∃ whole fraction digits rest, cs.takeWhile Char.isDigit = whole ∧
      splitFraction (cs.dropWhile Char.isDigit) = (fraction, rest) ∧ Pointed whole fraction digits ∧
      (∀ c ∈ whole ++ fraction, c.isDigit = true) ∧ cs = digits ++ rest := by
  have hcs : cs.takeWhile Char.isDigit ++ cs.dropWhile Char.isDigit = cs :=
    List.takeWhile_append_dropWhile
  have hdigits : ∀ {ds : List Char}, ∀ c ∈ ds.takeWhile Char.isDigit, c.isDigit = true :=
    fun _ => List.mem_takeWhile_imp
  unfold splitFraction
  split
  · rename_i after hafter
    refine ⟨_, _, _, _, rfl, rfl, .parts, ?_, ?_⟩
    · rw [List.forall_mem_append]
      exact ⟨hdigits, hdigits⟩
    · rw [List.append_assoc, List.cons_append, List.takeWhile_append_dropWhile, ← hafter, hcs]
  · refine ⟨_, _, _, _, rfl, rfl, .whole, ?_, hcs.symm⟩
    rw [List.append_nil]
    exact hdigits

theorem takeWhile_isDigit {digits rest : List Char} (h : ∀ c ∈ digits, c.isDigit = true)
    (hrest : ∀ c ∈ rest.head?, c.isDigit = false) :
    (digits ++ rest).takeWhile Char.isDigit = digits ∧
    (digits ++ rest).dropWhile Char.isDigit = rest := by
  rw [List.takeWhile_append_of_pos h, List.dropWhile_append_of_pos h]
  cases rest with
  | nil => simp
  | cons c rest => simp [hrest c rfl]

/-- The digits and the point are found again in front of an exponent. -/
theorem splitFraction_append {whole fraction digits exponent : List Char} {e : Int}
    (h : Pointed whole fraction digits) (hdigits : ∀ c ∈ whole ++ fraction, c.isDigit = true)
    (hexponent : Exponent exponent e) :
    (digits ++ exponent).takeWhile Char.isDigit = whole ∧
      splitFraction ((digits ++ exponent).dropWhile Char.isDigit) = (fraction, exponent) := by
  have hhead : ∀ c ∈ exponent.head?, c.isDigit = false ∧ c ≠ '.' := by
    rintro c hc
    rcases hexponent.head c hc with rfl | rfl <;> decide
  have hwhole : ∀ c ∈ whole, c.isDigit = true := fun c hc => hdigits c (List.mem_append_left _ hc)
  have hfraction : ∀ c ∈ fraction, c.isDigit = true :=
    fun c hc => hdigits c (List.mem_append_right _ hc)
  have hrest : ∀ c ∈ exponent.head?, c.isDigit = false := fun c hc => (hhead c hc).1
  cases h with
  | whole =>
    obtain ⟨htake, hdrop⟩ := takeWhile_isDigit hwhole hrest
    refine ⟨htake, ?_⟩
    rw [hdrop]
    unfold splitFraction
    split
    · exact absurd rfl (hhead '.' rfl).2
    · rfl
  | parts =>
    rw [List.append_assoc, List.cons_append]
    obtain ⟨htake, hdrop⟩ := @takeWhile_isDigit _ ('.' :: (fraction ++ exponent)) hwhole (by simp)
    obtain ⟨htake', hdrop'⟩ := takeWhile_isDigit hfraction hrest
    refine ⟨htake, ?_⟩
    rw [hdrop, splitFraction, htake', hdrop']

/-- The reader takes exactly the texts that are written for a numeral. -/
theorem read?_eq_some_iff {n : Numeral} : read? cs = some n ↔ Written cs n := by
  constructor
  · intro h
    obtain ⟨sign, negative, unsigned, hsplit, hsign, rfl⟩ := exists_sign cs
    obtain ⟨whole, fraction, digits, exponent, hwhole, hfraction, hpointed, hdigits, rfl⟩ :=
      exists_pointed unsigned
    simp only [read?, hsplit, hwhole, hfraction] at h
    split at h
    · cases h
    · rename_i hne
      obtain ⟨e, he, rfl⟩ := Option.map_eq_some_iff.mp h
      exact .mk hsign hpointed hdigits (by simpa using hne) (exponent?_eq_some_iff.mp he)
  · rintro @⟨sign, whole, fraction, digits, exponent, negative, e, hsign, hpointed, hdigits,
      hne, hexponent⟩
    obtain ⟨hwhole, hfraction⟩ := splitFraction_append hpointed hdigits hexponent
    have hsplit := splitSign_append hsign (hpointed.head_not_sign hdigits hne exponent)
    simp only [read?, hsplit, hwhole, hfraction]
    rw [if_neg (by simpa using hne), exponent?_eq_some_iff.mpr hexponent]
    rfl

theorem Sign.numeric {sign : List Char} {negative : Bool} (h : Sign sign negative) :
    ∀ c ∈ sign, isNumeric c = true := by
  cases h <;> simp [isNumeric]

theorem isNumeric_of_isDigit {c : Char} (h : c.isDigit = true) : isNumeric c = true := by
  simp [isNumeric, h]

theorem Pointed.numeric {whole fraction digits : List Char} (h : Pointed whole fraction digits)
    (hdigits : ∀ c ∈ whole ++ fraction, c.isDigit = true) : ∀ c ∈ digits, isNumeric c = true := by
  cases h with
  | whole => exact fun c hc => isNumeric_of_isDigit (hdigits c (List.mem_append_left _ hc))
  | parts =>
    rw [List.forall_mem_append, List.forall_mem_cons]
    exact ⟨fun c hc => isNumeric_of_isDigit (hdigits c (List.mem_append_left _ hc)), by decide,
      fun c hc => isNumeric_of_isDigit (hdigits c (List.mem_append_right _ hc))⟩

theorem Exponent.numeric {e : Int} (h : Exponent cs e) : ∀ c ∈ cs, isNumeric c = true := by
  cases h with
  | none => simp
  | written he hsign _ hdigits =>
    rw [List.forall_mem_cons, List.forall_mem_append]
    refine ⟨?_, hsign.numeric, fun c hc => isNumeric_of_isDigit (hdigits c hc)⟩
    rcases he with rfl | rfl <;> decide

theorem Written.numeric {n : Numeral} (h : Written cs n) : ∀ c ∈ cs, isNumeric c = true := by
  obtain ⟨hsign, hpointed, hdigits, -, hexponent⟩ := h
  rw [List.forall_mem_append, List.forall_mem_append]
  exact ⟨hsign.numeric, hpointed.numeric hdigits, hexponent.numeric⟩

/-- The words for the doubles that no numeral is close to, in letters of either case. -/
def IsSpecial (word : List Char) : Prop :=
  word.map Char.toLower ∈ ["inf".toList, "infinity".toList, "nan".toList]

theorem special?_isSome_iff : (special? cs).isSome = true ↔ IsSpecial (splitSign cs).2 := by
  have hword : ∀ word, IsSpecial word ↔ (word.map Char.toLower = "inf".toList ∨
      word.map Char.toLower = "infinity".toList) ∨ word.map Char.toLower = "nan".toList := by
    intro word
    simp only [IsSpecial, List.mem_cons, List.not_mem_nil, or_false, or_assoc]
  rw [hword]
  unfold special?
  dsimp only
  split
  · rename_i h
    exact ⟨fun _ => .inl h, fun _ => rfl⟩
  · rename_i h
    rw [or_iff_right h]
    split
    · rename_i hnan
      exact ⟨fun _ => hnan, fun _ => rfl⟩
    · rename_i hnan
      exact ⟨fun hsome => absurd hsome Bool.false_ne_true, fun hw => absurd hw hnan⟩

theorem toLower_ne_of_isNumeric {c : Char} (h : isNumeric c = true) : c.toLower ≠ 'n' := by
  simp only [isNumeric, Bool.or_eq_true, beq_iff_eq] at h
  rcases h with ((((h | rfl) | rfl) | rfl) | rfl) | rfl
  · have hupper : ¬ (c.val ≥ 'A'.val ∧ c.val ≤ 'Z'.val) := by
      rw [Scanner.isDigit_iff] at h
      rintro ⟨hlow, -⟩
      have hlow : 65 ≤ c.toNat := UInt32.le_iff_toNat_le.mp hlow
      omega
    have hlower : c.toLower = c := dif_neg hupper
    rw [hlower]
    rintro rfl
    exact absurd h (by decide)
  all_goals decide

/-- Each of the words has an `n`, which no numeral has. -/
theorem IsSpecial.not_numeric {word : List Char} (h : IsSpecial word) :
    ¬ ∀ c ∈ word, isNumeric c = true := by
  intro hnumeric
  have hn : 'n' ∈ word.map Char.toLower := by
    rcases List.mem_cons.mp h with h | h
    · simp [h]
    · rcases List.mem_cons.mp h with h | h
      · simp [h]
      · simp [List.mem_singleton.mp h]
  obtain ⟨c, hc, hlower⟩ := List.mem_map.mp hn
  exact toLower_ne_of_isNumeric (hnumeric c hc) hlower

theorem special?_eq_none (h : ∀ c ∈ cs, isNumeric c = true) : special? cs = none := by
  rw [← Option.not_isSome_iff_eq_none, special?_isSome_iff]
  obtain ⟨sign, negative, rest, hsplit, -, rfl⟩ := exists_sign cs
  rw [hsplit]
  intro hspecial
  exact hspecial.not_numeric fun c hc => h c (List.mem_append_right sign hc)

theorem special?_isSome {sign word : List Char} {negative : Bool} (hsign : Sign sign negative)
    (hword : IsSpecial word) : (special? (sign ++ word)).isSome = true := by
  have hhead : ∀ c ∈ word.head?, c ≠ '+' ∧ c ≠ '-' := by
    cases word with
    | nil => simp
    | cons c cs =>
      rintro _ ⟨⟩
      constructor <;> rintro rfl <;> simp [IsSpecial] at hword
  rw [special?_isSome_iff, splitSign_append hsign hhead]
  exact hword

theorem double?_isSome_iff (t : String) :
    (double? t).isSome = true ↔
      (∃ sign negative word, Sign sign negative ∧ IsSpecial word ∧ t.toList = sign ++ word) ∨
        ∃ n, Written t.toList n := by
  rw [double?, Option.orElse_eq_orElse, Option.orElse_eq_or, Option.isSome_or, Option.isSome_map,
    Bool.or_eq_true]
  refine or_congr ?_ ?_
  · constructor
    · intro h
      obtain ⟨sign, negative, word, hsplit, hsign, ht⟩ := exists_sign t.toList
      rw [special?_isSome_iff, hsplit] at h
      exact ⟨sign, negative, word, hsign, h, ht⟩
    · rintro ⟨sign, negative, word, hsign, hword, ht⟩
      rw [ht]
      exact special?_isSome hsign hword
  · rw [Option.isSome_iff_exists]
    exact exists_congr fun _ => read?_eq_some_iff

theorem isNaN_toDouble (n : Numeral) : n.toDouble.isNaN = false := by
  unfold toDouble
  dsimp only
  split
  · exact Double.isNaN_ofMagnitude _ (Nat.zero_le _)
  · split
    · exact Double.isNaN_ofMagnitude _ le_rfl
    · unfold Double.nearest
      split
      · exact Double.isNaN_ofMagnitude _ (Nat.zero_le _)
      · exact Double.isNaN_ofMagnitude _ (Nat.min_le_right _ _)

end Numeral

namespace Value

/-- Of the texts that are read as doubles, the characters let the numerals pass and nothing else. -/
theorem parseNumeric_eq (t : String) :
    parseNumeric t = (Numeral.read? t.toList).map Numeral.toDouble := by
  unfold parseNumeric
  split
  · rename_i h
    rw [List.all_eq_true] at h
    rw [Numeral.double?, Numeral.special?_eq_none h, Option.orElse_eq_orElse, Option.orElse_eq_or,
      Option.none_or]
  · rename_i h
    rw [List.all_eq_true] at h
    cases hread : Numeral.read? t.toList with
    | none => rfl
    | some n => exact absurd (Numeral.read?_eq_some_iff.mp hread).numeric h

theorem parseNumeric_eq_some_iff {t : String} {x : Float} :
    parseNumeric t = some x ↔ ∃ n, Numeral.Written t.toList n ∧ n.toDouble = x := by
  rw [parseNumeric_eq, Option.map_eq_some_iff]
  exact exists_congr fun _ => and_congr_left fun _ => Numeral.read?_eq_some_iff

theorem parseNumeric_eq_none_iff {t : String} :
    parseNumeric t = none ↔ ∀ n, ¬ Numeral.Written t.toList n := by
  rw [parseNumeric_eq, Option.map_eq_none_iff, Option.eq_none_iff_forall_ne_some]
  exact forall_congr' fun _ => not_congr Numeral.read?_eq_some_iff

section Readings

variable {t : String}

/-- Blank texts are zero in both readings, each of which looks for them by itself. -/
theorem readings_of_blank (h : Text.trim t = "") :
    ofAnswer t = .number 0.0 ∧ (text t).toNumber = 0.0 := by
  simp [ofAnswer, toNumber, h]

theorem readings_of_written {n : Numeral} (h : Numeral.Written (Text.trim t).toList n) :
    ofAnswer t = .number n.toDouble ∧ (text t).toNumber = n.toDouble := by
  have hne : Text.trim t ≠ "" := by
    intro hblank
    rw [hblank] at h
    cases Numeral.read?_eq_some_iff.mpr h
  have hnumber : parseNumeric (Text.trim t) = some n.toDouble :=
    parseNumeric_eq_some_iff.mpr ⟨n, h, rfl⟩
  simp [ofAnswer, toNumber, hne, hnumber]

theorem readings_of_not_written (hne : Text.trim t ≠ "")
    (h : ∀ n, ¬ Numeral.Written (Text.trim t).toList n) :
    ofAnswer t = .text t ∧ (text t).toNumber = Double.nan := by
  simp [ofAnswer, toNumber, hne, parseNumeric_eq_none_iff.mpr h]

end Readings

end Value

/-- What is typed in and what an operator is given are the same numbers. A text is a number on both
ways if it is blank or a numeral, blanks around it aside, and then it is not the undefined number;
otherwise it stays the text that it is, and is undefined as an operand. The words for infinity and
for the undefined number are no numbers, in whatever letters and with whatever sign they are
spelled, although they are read as doubles. -/
theorem answers_and_operands_read_alike (t : String) :
    ((∃ x, Value.ofAnswer t = .number x) ↔
      Text.trim t = "" ∨ ∃ n, Numeral.Written (Text.trim t).toList n) ∧
    (∀ x, Value.ofAnswer t = .number x → x.isNaN = false ∧ (Value.text t).toNumber = x) ∧
    ((∀ x, Value.ofAnswer t ≠ .number x) →
      Value.ofAnswer t = .text t ∧ (Value.text t).toNumber.isNaN = true) ∧
    ∀ sign negative, Numeral.Sign sign negative → ∀ word, Numeral.IsSpecial word →
      (Text.trim t).toList = sign ++ word →
        (Numeral.double? (Text.trim t)).isSome = true ∧
        Value.ofAnswer t = .text t ∧ (Value.text t).toNumber.isNaN = true := by
  have hspecial : ∀ {sign negative word}, Numeral.Sign sign negative → Numeral.IsSpecial word →
      (Text.trim t).toList = sign ++ word → Text.trim t ≠ "" ∧
        (∀ n, ¬ Numeral.Written (Text.trim t).toList n) ∧
        (Numeral.double? (Text.trim t)).isSome = true := by
    intro sign negative word hsign hword ht
    have hnumeric : ¬ ∀ c ∈ (Text.trim t).toList, Numeral.isNumeric c = true := by
      rw [ht]
      exact fun h => hword.not_numeric fun c hc => h c (List.mem_append_right sign hc)
    refine ⟨?_, fun n hn => hnumeric hn.numeric, ?_⟩
    · intro hblank
      rw [hblank] at hnumeric
      exact hnumeric fun c hc => nomatch hc
    · exact (Numeral.double?_isSome_iff _).mpr (.inl ⟨sign, negative, word, hsign, hword, ht⟩)
  have hnan : Double.nan.isNaN = true := rfl
  by_cases hblank : Text.trim t = ""
  · obtain ⟨hanswer, hoperand⟩ := Value.readings_of_blank hblank
    refine ⟨⟨fun _ => .inl hblank, fun _ => ⟨0.0, hanswer⟩⟩, fun x hx => ?_,
      fun hno => absurd hanswer (hno _), fun _ _ hsign _ hword ht =>
        absurd hblank (hspecial hsign hword ht).1⟩
    rw [hanswer] at hx
    cases hx
    exact ⟨rfl, hoperand⟩
  · by_cases hwritten : ∃ n, Numeral.Written (Text.trim t).toList n
    · obtain ⟨n, hn⟩ := hwritten
      obtain ⟨hanswer, hoperand⟩ := Value.readings_of_written hn
      refine ⟨⟨fun _ => .inr ⟨n, hn⟩, fun _ => ⟨_, hanswer⟩⟩, fun x hx => ?_,
        fun hno => absurd hanswer (hno _), fun _ _ hsign _ hword ht =>
          absurd hn ((hspecial hsign hword ht).2.1 n)⟩
      rw [hanswer] at hx
      cases hx
      exact ⟨n.isNaN_toDouble, hoperand⟩
    · obtain ⟨hanswer, hoperand⟩ :=
        Value.readings_of_not_written hblank (not_exists.mp hwritten)
      rw [← hoperand] at hnan
      have hno : ∀ x, Value.ofAnswer t ≠ .number x := by simp [hanswer]
      refine ⟨⟨fun ⟨x, hx⟩ => absurd hx (hno x), fun h => ?_⟩, fun x hx => absurd hx (hno x),
        fun _ => ⟨hanswer, hnan⟩, fun _ _ hsign _ hword ht =>
          ⟨(hspecial hsign hword ht).2.2, hanswer, hnan⟩⟩
      exact absurd h (not_or.mpr ⟨hblank, hwritten⟩)

/-- A numeral with a sign, without whole digits and with an exponent, between blanks, and a word for
infinity. -/
theorem answers_and_operands_read_alike_edges :
    (∃ x, Value.ofAnswer " -.5E+1\t" = .number x ∧ x.isNaN = false ∧
      (Value.text " -.5E+1\t").toNumber = x) ∧
    (Numeral.double? "+Infinity").isSome = true ∧
    Value.ofAnswer " +Infinity" = .text " +Infinity" ∧
    (Value.text " +Infinity").toNumber.isNaN = true := by
  obtain ⟨hform, hsame, -, -⟩ := answers_and_operands_read_alike " -.5E+1\t"
  obtain ⟨-, -, -, hword⟩ := answers_and_operands_read_alike " +Infinity"
  have htrim : (Text.trim " -.5E+1\t").toList =
    ['-'] ++ (([] ++ '.' :: ['5']) ++ 'E' :: (['+'] ++ ['1'])) :=
    rfl
  have hexponent := Numeral.Exponent.written (.inr rfl) .plus (List.cons_ne_nil '1' []) (by simp)
  have hwritten :=
    Numeral.Written.mk .minus (@Numeral.Pointed.parts [] ['5']) (by simp) (by simp) hexponent
  obtain ⟨x, hx⟩ := hform.mpr (.inr ⟨_, htrim ▸ hwritten⟩)
  exact ⟨⟨x, hx, hsame x hx⟩, hword ['+'] false .plus "Infinity".toList
    (by simp [Numeral.IsSpecial]) rfl⟩

end Chalkboard
