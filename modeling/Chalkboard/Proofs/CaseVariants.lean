import Chalkboard.Proofs.AlikeTokens
import Chalkboard.Proofs.UpperCase
import Chalkboard.Memory.Cell

/-! # Variants in letter case

Two texts are variants of each other if they differ only in the case of letters outside of text
literals. Such texts have the same tokens at the same places, names in upper case, or the same first
character that begins no token.
-/

namespace Chalkboard

namespace Scanner

/-- For each character of a text, does it belong to a text literal? A quote in a comment begins
none. There are at most `n` literals, gaps and other characters. -/
def literalPlacesUpTo : Nat → List Char → List Bool
  | 0, _ => []
  | n + 1, cs =>
    match quoted? cs with
    | some (_, spelling, rest) => List.replicate spelling.length true ++ literalPlacesUpTo n rest
    | none =>
      match gap? cs with
      | some (gap, rest) => List.replicate gap.length false ++ literalPlacesUpTo n rest
      | none =>
        match cs with
        | [] => []
        | _ :: cs => false :: literalPlacesUpTo n cs

def literalPlaces (cs : List Char) : List Bool := literalPlacesUpTo cs.length cs

end Scanner

/-- Texts that are the same in upper case, and the same as they are inside of text literals. -/
structure CaseVariants (cs ds : List Char) : Prop where
  upper : ds.map Char.toUpper = cs.map Char.toUpper
  literals : ∀ i < cs.length, (Scanner.literalPlaces cs)[i]? = some true → ds[i]? = cs[i]?

namespace Scanner

variable {c : Char} {cs word gap rest : List Char} {token : Token}

theorem literalPlacesUpTo_nil (n : Nat) : literalPlacesUpTo n [] = [] := by
  cases n <;> rfl

/-- Literals, gaps and characters are not empty, so that the bound never cuts the text short. -/
theorem literalPlacesUpTo_eq {n m : Nat} (hn : cs.length ≤ n) (hm : cs.length ≤ m) :
    literalPlacesUpTo n cs = literalPlacesUpTo m cs := by
  induction n generalizing m cs with
  | zero =>
    obtain rfl : cs = [] := List.length_eq_zero_iff.mp (Nat.le_zero.mp hn)
    rw [literalPlacesUpTo_nil, literalPlacesUpTo_nil]
  | succ n ih =>
    cases m with
    | zero =>
      obtain rfl : cs = [] := List.length_eq_zero_iff.mp (Nat.le_zero.mp hm)
      rw [literalPlacesUpTo_nil, literalPlacesUpTo_nil]
    | succ m =>
      simp only [literalPlacesUpTo]
      split
      · rename_i spelling rest hq
        obtain ⟨rfl, hne⟩ := quoted?_append hq
        have hpos := List.length_pos_iff.mpr hne
        rw [List.length_append] at hn hm
        rw [ih (m := m) (by omega) (by omega)]
      · split
        · rename_i gap rest hg
          obtain ⟨rfl, hne⟩ := gap?_append hg
          have hpos := List.length_pos_iff.mpr hne
          rw [List.length_append] at hn hm
          rw [ih (m := m) (by omega) (by omega)]
        · split
          · rfl
          · rw [List.length_cons] at hn hm
            rw [ih (m := m) (by omega) (by omega)]

/-- The places of a text are those of what it begins with, and those of the rest. -/
theorem literalPlaces_eq (places : List Bool) (hcs : cs = word ++ rest)
    (h : ∀ n, literalPlacesUpTo (n + 1) cs = places ++ literalPlacesUpTo n rest) :
    literalPlaces cs = places ++ literalPlaces rest := by
  have hlen : rest.length ≤ cs.length := by simp [hcs]
  rw [literalPlaces, literalPlacesUpTo_eq (Nat.le_refl _) (Nat.le_succ _), h,
    literalPlacesUpTo_eq hlen (Nat.le_refl _), literalPlaces]

theorem literalPlaces_literal (h : quoted? cs = some (token, word, rest)) :
    literalPlaces cs = List.replicate word.length true ++ literalPlaces rest := by
  refine literalPlaces_eq _ (quoted?_append h).1 fun n => ?_
  simp only [literalPlacesUpTo, h]

theorem literalPlaces_gap (hq : quoted? cs = none) (h : gap? cs = some (gap, rest)) :
    literalPlaces cs = List.replicate gap.length false ++ literalPlaces rest := by
  refine literalPlaces_eq _ (gap?_append h).1 fun n => ?_
  simp only [literalPlacesUpTo, hq, h]

theorem literalPlaces_cons (hq : quoted? (c :: cs) = none) (hg : gap? (c :: cs) = none) :
    literalPlaces (c :: cs) = false :: literalPlaces cs := by
  refine literalPlaces_eq [false] (List.singleton_append (x := c)).symm fun n => ?_
  simp only [literalPlacesUpTo, hq, hg, List.singleton_append]

theorem quoted?_of_gap? (h : gap? cs = some (gap, rest)) : quoted? cs = none := by
  cases cs with
  | nil => rfl
  | cons c cs =>
    refine quoted?_eq_none ?_
    rintro (rfl | rfl)
    · simp [gap?, isBlank, blankRanges] at h
    · simp [gap?, isBlank, blankRanges] at h

theorem literalPlaces_gaps (n : Nat) (cs : List Char) :
    literalPlaces cs = List.replicate (gaps n cs).1.length false ++
    literalPlaces (gaps n cs).2 := by
  fun_induction gaps n cs with
  | case1 => rfl
  | case2 => rfl
  | case3 n cs gap rest h more rest' he ih =>
    rw [he] at ih
    rw [literalPlaces_gap (quoted?_of_gap? h) h, ih]
    simp [List.replicate_append_replicate, ← List.append_assoc]

/-! ## Tokens -/

/-- Neither a literal nor a gap begins with the character. -/
def BeginsNone (c : Char) : Prop := ¬ (c = '"' ∨ c = '\'') ∧ c ≠ '/' ∧ isBlank c = false

theorem literalPlaces_append (h : ∀ c ∈ word, BeginsNone c) (rest : List Char) :
    literalPlaces (word ++ rest) = List.replicate word.length false ++ literalPlaces rest := by
  induction word with
  | nil => rfl
  | cons c word ih =>
    obtain ⟨hquote, hslash, hblank⟩ := h c (by simp)
    have hgap : gap? (c :: (word ++ rest)) = none := by
      rw [gap?_cons (fun _ hc => absurd hc hslash) (fun _ hc => absurd hc hslash), hblank]
      rfl
    rw [List.cons_append, literalPlaces_cons (quoted?_eq_none hquote) hgap,
      ih fun c hc => h c (by simp [hc])]
    rfl

theorem beginsNone_of_continuesWord (h : continuesWord c = true) : BeginsNone c := by
  have hcode : (48 ≤ c.toNat ∧ c.toNat ≤ 57) ∨ (65 ≤ c.toNat ∧ c.toNat ≤ 90) ∨
      (97 ≤ c.toNat ∧ c.toNat ≤ 122) ∨ c.toNat = 95 := by
    rw [continuesWord_eq, Bool.or_eq_true, startsWord_iff, isDigit_iff] at h
    omega
  refine ⟨?_, ?_, ?_⟩
  · rintro (rfl | rfl) <;> simp at hcode
  · rintro rfl
    simp at hcode
  · rw [Bool.eq_false_iff]
    simp only [isBlank, blankRanges, List.any_cons, List.any_nil, Bool.or_eq_true, Bool.and_eq_true,
      decide_eq_true_eq, Bool.false_eq_true, or_false, Ne]
    omega

theorem beginsNone_dot : BeginsNone '.' := ⟨by decide, by decide, by decide⟩

theorem spellings_beginsNone : ∀ entry ∈ spellings, ∀ c ∈ entry.1.tail, BeginsNone c := by
  have hsecond : ∀ entry ∈ spellings, ∀ c ∈ entry.1.tail, c = '-' ∨ c = '>' ∨ c = '=' := by
    simp [spellings]
  intro entry hentry c hc
  rcases hsecond entry hentry c hc with rfl | rfl | rfl <;> exact ⟨by decide, by decide, by decide⟩

end Scanner

def Token.isText : Token → Bool
  | .text _ => true
  | _ => false

/-- Within a token that is no literal, no literal and no gap begins. -/
theorem Token.Spelled.tail_beginsNone {token : Token} {word : List Char} (h : token.Spelled word)
    (ht : token.isText = false) : ∀ c ∈ word.tail, Scanner.BeginsNone c := by
  have hdigit : ∀ {c : Char}, c.isDigit = true → Scanner.BeginsNone c := by
    intro c hc
    exact Scanner.beginsNone_of_continuesWord (by rw [continuesWord_eq, hc, Bool.or_true])
  intro c hc
  cases h with
  | text => cases ht
  | integer _ hd _ => exact hdigit (hd c (List.mem_of_mem_tail hc))
  | real _ hw _ hf _ =>
    rcases List.mem_append.mp (List.mem_of_mem_tail hc) with hc | hc
    · exact hdigit (hw c hc)
    · rcases List.mem_cons.mp hc with rfl | hc
      · exact Scanner.beginsNone_dot
      · exact hdigit (hf c hc)
  | keyword _ hcs _ => exact Scanner.beginsNone_of_continuesWord (hcs c hc)
  | name _ hcs _ => exact Scanner.beginsNone_of_continuesWord (hcs c hc)
  | symbol hm => exact Scanner.spellings_beginsNone _ hm c hc

namespace Scanner

variable {cs word rest : List Char} {token : Token}

theorem quoted?_isText (h : quoted? cs = some (token, word, rest)) : token.isText = true := by
  unfold quoted? at h
  split at h
  · cases h
  · split at h
    · split at h
      · cases h
      · cases h
        rfl
    · cases h

theorem token?_of_quoted?_none (hq : quoted? cs = none) (h : token? cs = some (token, word, rest)) :
    token.isText = false := by
  rcases token?_cases h with h | h | h | h
  · rw [hq] at h
    cases h
  · rcases (number?_eq_some h).2 with ⟨-, rfl, -⟩ | ⟨-, -, -, -, rfl⟩ <;> rfl
  · cases cs with
    | nil => cases h
    | cons c cs =>
      obtain ⟨-, -, rfl⟩ := word?_eq_some h
      unfold wordToken
      dsimp only
      split <;> rfl
  · obtain ⟨entry, -, he⟩ := Option.map_eq_some_iff.mp h
    cases he
    rfl

/-- A token is a literal as a whole or not at all. -/
theorem literalPlaces_token (hg : gap? cs = none) (h : token? cs = some (token, word, rest)) :
    literalPlaces cs = List.replicate word.length token.isText ++ literalPlaces rest := by
  cases hq : quoted? cs with
  | some m =>
    have hm : token? cs = some m := by simp [token?, hq]
    obtain rfl : m = (token, word, rest) := Option.some.inj (hm.symm.trans h)
    rw [quoted?_isText hq, literalPlaces_literal hq]
  | none =>
    have ht := token?_of_quoted?_none hq h
    have hinner := (token?_spelled h).tail_beginsNone ht
    obtain ⟨rfl, hne⟩ := token?_append h
    obtain ⟨c, inner, rfl⟩ := List.exists_cons_of_ne_nil hne
    rw [List.tail_cons] at hinner
    rw [List.cons_append] at hq hg ⊢
    rw [literalPlaces_cons hq hg, literalPlaces_append hinner, ht]
    rfl

end Scanner

namespace CaseVariants

variable {cs ds left right left' right' : List Char} {places : List Bool}

/-- Variants stay variants when beginnings of the same length are cut off. -/
theorem split (h : CaseVariants cs ds) (hcs : cs = left ++ right) (hds : ds = left' ++ right')
    (hlen : left'.length = left.length)
    (hp : Scanner.literalPlaces cs = places ++ Scanner.literalPlaces right)
    (hplaces : places.length = left.length) : CaseVariants right right' := by
  have hupper := h.upper
  rw [hcs, hds, List.map_append, List.map_append] at hupper
  refine ⟨(List.append_inj hupper (by simp [hlen])).2, fun i hi htrue => ?_⟩
  have hlit := h.literals (left.length + i) (by simpa [hcs] using hi)
  rw [hp, hcs, hds, List.getElem?_append_right (by omega), List.getElem?_append_right (by omega),
    List.getElem?_append_right (by omega), hplaces, hlen, Nat.add_sub_cancel_left] at hlit
  exact hlit htrue

theorem eq_of_literal (h : CaseVariants cs ds) (hcs : cs = left ++ right)
    (hds : ds = left' ++ right') (hlen : left'.length = left.length)
    (hp : Scanner.literalPlaces cs =
      List.replicate left.length true ++ Scanner.literalPlaces right) :
    left' = left := by
  refine List.ext_getElem? fun i => ?_
  by_cases hi : i < left.length
  · have hlit := h.literals i (by rw [hcs, List.length_append]; omega)
    rw [hp, hcs, hds, List.getElem?_append_left (by simpa using hi),
      List.getElem?_append_left (by omega), List.getElem?_append_left hi] at hlit
    exact hlit (by simp [hi])
  · rw [List.getElem?_eq_none (by omega), List.getElem?_eq_none (by omega)]

end CaseVariants

namespace Scanner

/-- The tokens with names in upper case, or the character that begins none. -/
def upperNames (r : Except Stray (List Located)) : Except Stray (List Located) :=
  r.map (List.map (Located.rename key))

/-- The tokens of a text that begins with one. -/
def tokensFrom (n : Nat) (p : Position) (cs : List Char) : Except Stray (List Located) :=
  match cs with
  | [] => .ok []
  | c :: _ =>
    match token? cs with
    | none => .error ⟨c, p⟩
    | some (token, word, rest) =>
      (scanFrom n (p.advance word) rest).map (⟨token, p, (p.advance word).offset⟩ :: ·)

theorem upperNames_cons (t : Located) (r : Except Stray (List Located)) :
    upperNames (r.map (t :: ·)) = (upperNames r).map (t.rename key :: ·) := by
  cases r <;> rfl

theorem scanFrom_succ (n : Nat) (p : Position) (cs : List Char) :
    scanFrom (n + 1) p cs = tokensFrom n (p.advance (gaps (n + 1) cs).1) (gaps (n + 1) cs).2 := by
  simp only [scanFrom, tokensFrom]
  cases (gaps (n + 1) cs).2 with
  | nil => rfl
  | cons c after =>
    cases token? (c :: after) with
    | none => rfl
    | some m =>
      obtain ⟨token, word, rest⟩ := m
      dsimp only
      cases scanFrom n ((p.advance (gaps (n + 1) cs).1).advance word) rest <;> rfl

variable {cs ds word word' rest rest' : List Char} {token token' : Token}

theorem isText_upperToken (token : Token) : (upperToken token).isText = token.isText := by
  cases token <;> rfl

theorem rename_of_not_isText (h : token.isText = false) : token.rename key = upperToken token := by
  cases token with
  | text s => cases h
  | _ => rfl

theorem eq_of_spelled_text {s : String} (h : (Token.text s).Spelled word) :
    s = String.ofList word.tail.dropLast := by
  cases h with
  | text => simp

/-- Tokens that are the same in upper case differ in the case of names only, if literals are spelled
by the same word. -/
theorem rename_eq (h : token.Spelled word) (h' : token'.Spelled word')
    (hupper : upperToken token' = upperToken token) (hlit : token.isText = true → word' = word) :
    token'.rename key = token.rename key := by
  have htext : token'.isText = token.isText := by
    rw [← isText_upperToken, hupper, isText_upperToken]
  cases ht : token.isText with
  | false => rw [rename_of_not_isText (htext.trans ht), rename_of_not_isText ht, hupper]
  | true =>
    rw [ht] at htext
    rw [hlit ht] at h'
    cases token with
    | text s =>
      cases token' with
      | text s' => rw [eq_of_spelled_text h, eq_of_spelled_text h']
      | _ => cases htext
    | _ => cases ht

theorem isAlpha_of_token?_none {c : Char} (h : token? (c :: cs) = none) : c.isAlpha = false := by
  simp only [token?, Option.orElse_eq_orElse, Option.orElse_eq_or, Option.or_eq_none_iff] at h
  cases hw : startsWord c with
  | true => simp [word?, hw] at h
  | false => simp_all [startsWord]

theorem tokensFrom_variants {n : Nat} (hg : gap? cs = none) (h : CaseVariants cs ds) (p : Position)
    (hrest : ∀ {rest rest' p}, rest.length < cs.length → CaseVariants rest rest' →
      upperNames (scanFrom n p rest') = upperNames (scanFrom n p rest)) :
    upperNames (tokensFrom n p ds) = upperNames (tokensFrom n p cs) := by
  have htoken : (token? ds).map upperMatch = (token? cs).map upperMatch := by
    rw [← token?_upper, h.upper, token?_upper]
  cases cs with
  | nil =>
    obtain rfl : ds = [] := by simpa using h.upper
    rfl
  | cons c cs =>
    obtain ⟨d, ds, rfl, hd, -⟩ := List.map_eq_cons_iff.mp h.upper
    cases ht : token? (c :: cs) with
    | none =>
      have hc := isAlpha_of_token?_none ht
      obtain rfl : d = c := by
        rwa [(toUpper_eq_iff hc).mpr rfl, toUpper_eq_iff hc] at hd
      have ht' : token? (d :: ds) = none := by simpa [ht] using htoken
      simp only [tokensFrom, ht, ht']
    | some m =>
      obtain ⟨token, word, rest⟩ := m
      rw [ht] at htoken
      obtain ⟨⟨token', word', rest'⟩, ht', hm⟩ := Option.map_eq_some_iff.mp htoken
      simp only [upperMatch, Prod.mk.injEq] at hm
      obtain ⟨hupper, hword, -⟩ := hm
      have hlen : word'.length = word.length := by simpa using congrArg List.length hword
      have hplaces := literalPlaces_token hg ht
      obtain ⟨hcs, hne⟩ := token?_append ht
      have hds := (token?_append ht').1
      have hlit : token.isText = true → word' = word := by
        intro htext
        rw [htext] at hplaces
        exact h.eq_of_literal hcs hds hlen hplaces
      have hrename := rename_eq (token?_spelled ht) (token?_spelled ht') hupper hlit
      have hadvance := Position.advance_congr hword p
      have hshort : rest.length < (c :: cs).length := by
        have := List.length_pos_iff.mpr hne
        rw [hcs, List.length_append]
        omega
      have htail := hrest (p := p.advance word) hshort (h.split hcs hds hlen hplaces (by simp))
      simp only [tokensFrom, ht, ht', hadvance, upperNames_cons, htail, Located.rename, hrename]

theorem scanFrom_variants {n : Nat} (hn : cs.length ≤ n) (h : CaseVariants cs ds) (p : Position) :
    upperNames (scanFrom n p ds) = upperNames (scanFrom n p cs) := by
  induction n generalizing cs ds p with
  | zero => rfl
  | succ n ih =>
    -- The gaps in front have the same length, so that what comes after them are variants again.
    have hgaps := gaps_upper (n + 1) ds
    rw [h.upper, gaps_upper] at hgaps
    have hgap := (Prod.mk.inj hgaps).1.symm
    have hlen : (gaps (n + 1) ds).1.length = (gaps (n + 1) cs).1.length := by
      simpa using congrArg List.length hgap
    have hadvance := Position.advance_congr hgap p
    have hcs := gaps_append (n + 1) cs
    have hrest : CaseVariants (gaps (n + 1) cs).2 (gaps (n + 1) ds).2 :=
      h.split hcs (gaps_append (n + 1) ds) hlen (literalPlaces_gaps (n + 1) cs) (by simp)
    rw [scanFrom_succ, scanFrom_succ, hadvance]
    refine tokensFrom_variants (gap?_gaps hn) hrest _ fun hshort hvariants => ih ?_ hvariants _
    have hlen := congrArg List.length hcs
    rw [List.length_append] at hlen
    omega

end Scanner

end Chalkboard
