import Mathlib.Data.List.Find
import Chalkboard.Proofs.Lexemes

/-! # Scanning in upper case

The scanner does not see the case of letters: in a text that is written in upper case it finds the
gaps and the tokens that it finds in the text itself, at the same places. Only names and text
literals show the difference.
-/

namespace Chalkboard

section Characters

variable (c : Char)

@[simp] theorem isDigit_toUpper : c.toUpper.isDigit = c.isDigit := by
  rcases toUpper_cases c with h | h
  · rw [h]
  · rw [Bool.eq_iff_iff, Scanner.isDigit_iff, Scanner.isDigit_iff]
    omega

@[simp] theorem startsWord_toUpper : Scanner.startsWord c.toUpper = Scanner.startsWord c := by
  rcases toUpper_cases c with h | h
  · rw [h]
  · rw [Bool.eq_iff_iff, Scanner.startsWord_iff, Scanner.startsWord_iff]
    omega

@[simp] theorem isBlank_toUpper : isBlank c.toUpper = isBlank c := by
  rcases toUpper_cases c with h | h
  · rw [h]
  · rw [Bool.eq_iff_iff]
    simp only [isBlank, blankRanges, List.any_cons, List.any_nil, Bool.or_eq_true, Bool.and_eq_true,
      decide_eq_true_eq, Bool.false_eq_true, or_false]
    omega

theorem continuesWord_eq : Scanner.continuesWord c = (Scanner.startsWord c || c.isDigit) := by
  simp only [Scanner.continuesWord, Scanner.startsWord, Char.isAlphanum]
  cases c.isAlpha <;> cases c.isDigit <;> simp

@[simp] theorem continuesWord_toUpper :
    Scanner.continuesWord c.toUpper = Scanner.continuesWord c := by
  rw [continuesWord_eq, continuesWord_eq, startsWord_toUpper, isDigit_toUpper]

@[simp] theorem utf8Size_toUpper : c.toUpper.utf8Size = c.utf8Size := by
  rcases toUpper_cases c with h | h
  · rw [h]
  · have hsize : ∀ d : Char, d.toNat ≤ 127 → d.utf8Size = 1 := by
      intro d hd
      simp [Char.utf8Size, UInt32.le_iff_toNat_le]
      omega
    rw [hsize c (by omega), hsize _ (by omega)]

/-- A character that is no letter is its own upper case, and that of no other character. -/
theorem toUpper_eq_iff {c d : Char} (hd : d.isAlpha = false) : c.toUpper = d ↔ c = d := by
  rcases toUpper_cases c with h | ⟨hl, hu, hupper⟩
  · rw [h]
  · rw [Bool.eq_false_iff, ne_eq, Scanner.isAlpha_iff] at hd
    constructor
    · rintro rfl
      omega
    · rintro rfl
      omega

end Characters

theorem Position.advance_toUpper (p : Position) (cs : List Char) :
    p.advance (cs.map Char.toUpper) = p.advance cs := by
  induction cs generalizing p with
  | nil => rfl
  | cons c cs ih =>
    have hline : c.toUpper = '\n' ↔ c = '\n' := toUpper_eq_iff rfl
    rw [List.map_cons, advance_cons, ih, advance_cons, step, step, utf8Size_toUpper,
      if_congr hline rfl rfl]

/-- Texts that are the same in upper case are walked over alike. -/
theorem Position.advance_congr {cs ds : List Char} (h : ds.map Char.toUpper = cs.map Char.toUpper)
    (p : Position) : p.advance ds = p.advance cs := by
  rw [← advance_toUpper, h, advance_toUpper]

namespace Scanner

/-! ## Gaps -/

def upperSplit (split : Split) : Split := (split.1.map Char.toUpper, split.2.map Char.toUpper)

theorem takeWhile_upper {p : Char → Bool} (hp : ∀ c : Char, p c.toUpper = p c) (cs : List Char) :
    (cs.map Char.toUpper).takeWhile p = (cs.takeWhile p).map Char.toUpper := by
  rw [List.takeWhile_map]
  congr 2
  exact funext hp

theorem dropWhile_upper {p : Char → Bool} (hp : ∀ c : Char, p c.toUpper = p c) (cs : List Char) :
    (cs.map Char.toUpper).dropWhile p = (cs.dropWhile p).map Char.toUpper := by
  rw [List.dropWhile_map]
  congr 2
  exact funext hp

theorem bne_toUpper {d : Char} (hd : d.isAlpha = false) (c : Char) :
    (c.toUpper != d) = (c != d) := by
  rw [Bool.eq_iff_iff, bne_iff_ne, bne_iff_ne, Ne, Ne, toUpper_eq_iff hd]

theorem blockEnd?_upper (cs : List Char) :
    blockEnd? (cs.map Char.toUpper) = (blockEnd? cs).map upperSplit := by
  fun_induction blockEnd? cs with
  | case1 => rfl
  | case2 cs => rfl
  | case3 c cs hc ih =>
    have hopen : ∀ rest, c.toUpper = '*' → cs.map Char.toUpper ≠ '/' :: rest := by
      intro rest hstar hrest
      obtain ⟨d, ds, rfl, hslash, -⟩ := List.map_eq_cons_iff.mp hrest
      rw [toUpper_eq_iff rfl] at hstar hslash
      exact hc ds hstar (by rw [hslash])
    rw [List.map_cons, blockEnd?, ih]
    · cases blockEnd? cs <;> rfl
    · exact hopen

/-- What begins no comment is a gap if it is blank. -/
theorem gap?_cons {c : Char} {cs : List Char} (hline : ∀ ds, c = '/' → cs ≠ '/' :: ds)
    (hblock : ∀ ds, c = '/' → cs ≠ '*' :: ds) : gap? (c :: cs) =
      if isBlank c then some (c :: cs.takeWhile isBlank, cs.dropWhile isBlank) else none := by
  rw [gap?]
  · exact hline
  · exact hblock

theorem gap?_upper (cs : List Char) : gap? (cs.map Char.toUpper) = (gap? cs).map upperSplit := by
  have hend := bne_toUpper (d := '\n') rfl
  -- What follows a slash is a slash or a star in both texts or in neither.
  have hsecond : ∀ {c d : Char} {cs : List Char}, d.isAlpha = false →
      (∀ ds, c = '/' → cs ≠ d :: ds) → ∀ ds, c.toUpper = '/' → cs.map Char.toUpper ≠ d :: ds := by
    intro c d cs hd h ds hc hds
    obtain ⟨d', ds', rfl, hd', -⟩ := List.map_eq_cons_iff.mp hds
    rw [toUpper_eq_iff rfl] at hc
    rw [toUpper_eq_iff hd] at hd'
    exact h ds' hc (by rw [hd'])
  fun_cases gap? cs with
  | case1 => rfl
  | case2 cs =>
    change some _ = some _
    rw [takeWhile_upper hend, dropWhile_upper hend]
    rfl
  | case3 cs =>
    change (blockEnd? (cs.map Char.toUpper)).map _ = _
    rw [blockEnd?_upper]
    cases blockEnd? cs <;> rfl
  | case4 c cs hline hblock hblank =>
    rw [List.map_cons, gap?_cons (hsecond rfl hline) (hsecond rfl hblock), isBlank_toUpper,
      if_pos hblank, takeWhile_upper isBlank_toUpper, dropWhile_upper isBlank_toUpper]
    rfl
  | case5 c cs hline hblock hblank =>
    rw [List.map_cons, gap?_cons (hsecond rfl hline) (hsecond rfl hblock), isBlank_toUpper,
      if_neg hblank]
    rfl

theorem gaps_upper (n : Nat) (cs : List Char) :
    gaps n (cs.map Char.toUpper) = upperSplit (gaps n cs) := by
  induction n generalizing cs with
  | zero => rfl
  | succ n ih =>
    rw [gaps, gaps, gap?_upper]
    cases gap? cs with
    | none => rfl
    | some split =>
      obtain ⟨gap, rest⟩ := split
      simp [upperSplit, ih]

/-! ## Tokens -/

/-- A token as it is read in upper case: keywords are known by their upper case anyway. -/
def upperToken : Token → Token
  | .name s => .name (Text.upper s)
  | .text s => .text (Text.upper s)
  | token => token

def upperMatch (m : Match) :
    Match := (upperToken m.1, m.2.1.map Char.toUpper, m.2.2.map Char.toUpper)

theorem isAlpha_of_quote {quote : Char} (h : quote = '"' ∨ quote = '\'') :
    quote.isAlpha = false := by
  rcases h with rfl | rfl <;> rfl

theorem upper_ofList (cs : List Char) :
    Text.upper (String.ofList cs) = String.ofList (cs.map Char.toUpper) := by
  rw [Text.upper, String.toList_ofList]

theorem quoted?_upper (cs : List Char) :
    quoted? (cs.map Char.toUpper) = (quoted? cs).map upperMatch := by
  cases cs with
  | nil => rfl
  | cons quote cs =>
    have hquote : (quote.toUpper = '"' ∨ quote.toUpper = '\'') ↔ (quote = '"' ∨ quote = '\'') := by
      rw [toUpper_eq_iff rfl, toUpper_eq_iff rfl]
    by_cases hq : quote = '"' ∨ quote = '\''
    · have hsame : quote.toUpper = quote := (toUpper_eq_iff (isAlpha_of_quote hq)).mpr rfl
      have htake := takeWhile_upper (p := (· != quote)) (bne_toUpper (isAlpha_of_quote hq)) cs
      have hdrop := dropWhile_upper (p := (· != quote)) (bne_toUpper (isAlpha_of_quote hq)) cs
      simp only [List.map_cons, quoted?, hsame, if_pos hq, htake, hdrop]
      cases cs.dropWhile (· != quote) with
      | nil => rfl
      | cons d rest => simp [upperMatch, upperToken, upper_ofList, hsame]
    · rw [List.map_cons, quoted?_eq_none (mt hquote.mp hq), quoted?_eq_none hq]
      rfl

theorem map_upper_eq_self {cs : List Char} (h : ∀ c ∈ cs, c.isAlpha = false) :
    cs.map Char.toUpper = cs := by
  have hsame : ∀ c ∈ cs, c.toUpper = id c := fun c hc => (toUpper_eq_iff (h c hc)).mpr rfl
  rw [List.map_congr_left hsame, List.map_id]

theorem not_isAlpha_of_isDigit {c : Char} (h : c.isDigit = true) : c.isAlpha = false := by
  have hw := not_word_of_isDigit h
  simp_all [startsWord]

theorem number?_upper (cs : List Char) :
    number? (cs.map Char.toUpper) = (number? cs).map upperMatch := by
  have hdigits : ∀ ds : List Char,
      (ds.takeWhile Char.isDigit).map Char.toUpper = ds.takeWhile Char.isDigit :=
    fun ds => map_upper_eq_self fun _ hc => not_isAlpha_of_isDigit (List.mem_takeWhile_imp hc)
  simp only [number?, takeWhile_upper isDigit_toUpper, dropWhile_upper isDigit_toUpper, hdigits]
  by_cases hwhole : cs.takeWhile Char.isDigit = []
  · rw [if_pos hwhole, if_pos hwhole]
    rfl
  rw [if_neg hwhole, if_neg hwhole]
  cases hrest : cs.dropWhile Char.isDigit with
  | nil => simp [upperMatch, upperToken, numberOf, hdigits]
  | cons d after =>
    by_cases hd : d = '.'
    · subst hd
      have hdot : '.'.toUpper = '.' := rfl
      simp only [List.map_cons, hdot, takeWhile_upper isDigit_toUpper,
        dropWhile_upper isDigit_toUpper, hdigits]
      split
      · simp [upperMatch, upperToken, numberOf, hdigits, hdot]
      · simp [upperMatch, upperToken, numberOf, hdigits, hdot]
    · have hd' : d.toUpper ≠ '.' := mt (toUpper_eq_iff rfl).mp hd
      rw [List.map_cons]
      split
      · rename_i h
        exact absurd (List.cons.inj h).1 hd'
      · split
        · rename_i h
          exact absurd (List.cons.inj h).1 hd
        · simp [upperMatch, upperToken, numberOf, hdigits]

theorem wordToken_upper (word : List Char) :
    wordToken (word.map Char.toUpper) = upperToken (wordToken word) := by
  have hword : Text.upper (String.ofList (word.map Char.toUpper)) =
      Text.upper (String.ofList word) := by
    simp [Text.upper, Function.comp_def]
  simp only [wordToken, hword]
  cases Keyword.ofText? (Text.upper (String.ofList word)) with
  | some k => rfl
  | none => rw [← upper_ofList]; rfl

theorem word?_upper (cs : List Char) : word? (cs.map Char.toUpper) = (word? cs).map upperMatch := by
  cases cs with
  | nil => rfl
  | cons c cs =>
    simp only [List.map_cons, word?, startsWord_toUpper, takeWhile_upper continuesWord_toUpper,
      dropWhile_upper continuesWord_toUpper]
    split
    · rw [← List.map_cons, wordToken_upper]
      rfl
    · rfl

theorem isPrefixOf_upper {word : List Char} (h : ∀ c ∈ word, c.isAlpha = false) (cs : List Char) :
    word.isPrefixOf (cs.map Char.toUpper) = word.isPrefixOf cs := by
  induction word generalizing cs with
  | nil => simp
  | cons d word ih =>
    cases cs with
    | nil => rfl
    | cons c cs =>
      have hd : (d == c.toUpper) = (d == c) := by
        rw [Bool.eq_iff_iff, beq_iff_eq, beq_iff_eq, eq_comm,
          toUpper_eq_iff (h d (by simp)), eq_comm]
      rw [List.map_cons, List.isPrefixOf, List.isPrefixOf, hd, ih (fun c hc => h c (by simp [hc]))]

theorem spellings_not_alpha : ∀ entry ∈ spellings, ∀ c ∈ entry.1, c.isAlpha = false := by
  simp [spellings]

theorem symbol?_upper (cs : List Char) :
    symbol? (cs.map Char.toUpper) = (symbol? cs).map upperMatch := by
  have hfind : spellings.find? (fun entry => entry.1.isPrefixOf (cs.map Char.toUpper)) =
      spellings.find? (fun entry => entry.1.isPrefixOf cs) :=
    List.find?_congr fun entry hentry => isPrefixOf_upper (spellings_not_alpha entry hentry) cs
  simp only [symbol?, hfind]
  cases h : spellings.find? (fun entry => entry.1.isPrefixOf cs) with
  | none => rfl
  | some entry =>
    have hword : entry.1.map Char.toUpper = entry.1 :=
      map_upper_eq_self (spellings_not_alpha entry (List.mem_of_find?_eq_some h))
    simp [upperMatch, upperToken, hword, List.map_drop]

theorem token?_upper (cs : List Char) :
    token? (cs.map Char.toUpper) = (token? cs).map upperMatch := by
  simp only [token?, quoted?_upper, number?_upper, word?_upper, symbol?_upper]
  cases quoted? cs <;> cases number? cs <;> cases word? cs <;> rfl

end Scanner

end Chalkboard
