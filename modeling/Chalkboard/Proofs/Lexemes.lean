import Mathlib.Data.List.Infix
import Mathlib.Data.List.TakeWhile
import Chalkboard.Token.Scanner

/-! # Lexemes

What spells a token and what may stand between two tokens, said without the scanner. The patterns of
the scanner take a token exactly where one is spelled, and of all beginnings of the text that spell
one they take the longest.
-/

namespace Chalkboard

/-- A token and a text that spells it, whatever stands around the text. -/
inductive Token.Spelled : Token → List Char → Prop where
  | text {quote : Char} {inside : List Char} : quote = '"' ∨ quote = '\'' → quote ∉ inside →
      Spelled (.text (String.ofList inside)) (quote :: inside ++ [quote])
  | integer {digits : List Char} {x : Float} : digits ≠ [] → (∀ c ∈ digits, c.isDigit = true) →
      Numeral.double? (String.ofList digits) = some x → Spelled (.number x false) digits
  | real {whole fraction : List Char} {x : Float} : whole ≠ [] → (∀ c ∈ whole, c.isDigit = true) →
      fraction ≠ [] → (∀ c ∈ fraction, c.isDigit = true) →
      Numeral.double? (String.ofList (whole ++ '.' :: fraction)) = some x →
      Spelled (.number x true) (whole ++ '.' :: fraction)
  | keyword {k : Keyword} {c : Char} {cs : List Char} : Scanner.startsWord c = true →
      (∀ d ∈ cs, Scanner.continuesWord d = true) → Text.upper (String.ofList (c :: cs)) = k.text →
      Spelled (.keyword k) (c :: cs)
  | name {c : Char} {cs : List Char} : Scanner.startsWord c = true →
      (∀ d ∈ cs, Scanner.continuesWord d = true) →
      (∀ k : Keyword, Text.upper (String.ofList (c :: cs)) ≠ k.text) →
      Spelled (.name (String.ofList (c :: cs))) (c :: cs)
  | symbol {s : Symbol} {word : List Char} : (word, s) ∈ Scanner.spellings →
      Spelled (.symbol s) word

/-- The token is spelled by the beginning `word` of a text, and a beginning that spells any other
token is shorter. -/
structure Token.Longest (token : Token) (word rest : List Char) : Prop where
  spelled : token.Spelled word
  longest : ∀ {token' word'}, word' <+: word ++ rest → Spelled token' word' →
    word'.length < word.length ∨ (word' = word ∧ token' = token)

/-- The inside of a block comment, with the first `*/` at its end. -/
def EndsComment (inside : List Char) : Prop :=
  ∃ body, inside = body ++ ['*', '/'] ∧ ¬ ['*', '/'] <:+: body ++ ['*']

/-- A sequence of blanks, comments to the end of their line and closed block comments, followed by
another text. -/
inductive Gap : List Char → List Char → Prop where
  | nil {after : List Char} : Gap [] after
  | blank {c : Char} {gap after : List Char} : isBlank c = true → Gap gap after →
      Gap (c :: gap) after
  | line {body gap after : List Char} : '\n' ∉ body →
      (gap ++ after = [] ∨ (gap ++ after).head? = some '\n') → Gap gap after →
      Gap ('/' :: '/' :: body ++ gap) after
  | block {inside gap after : List Char} : EndsComment inside → Gap gap after →
      Gap ('/' :: '*' :: inside ++ gap) after

/-- No blank and no comment begins here. -/
def NoGap (cs : List Char) : Prop := ∀ {gap after}, Gap gap after → cs = gap ++ after → gap = []

namespace Keyword

theorem ofText?_text (k : Keyword) : ofText? k.text = some k := by
  cases k <;> rfl

theorem ofText?_eq_some_iff {s : String} {k : Keyword} : ofText? s = some k ↔ s = k.text := by
  constructor
  · intro h
    have hk := List.find?_some h
    exact (beq_iff_eq.mp hk).symm
  · rintro rfl
    exact ofText?_text k

theorem ofText?_eq_none_iff {s : String} : ofText? s = none ↔ ∀ k : Keyword, s ≠ k.text := by
  rw [Option.eq_none_iff_forall_ne_some]
  exact forall_congr' fun k => not_congr ofText?_eq_some_iff

end Keyword

namespace Scanner

section Classes

variable {c : Char}

theorem isDigit_iff : c.isDigit = true ↔ 48 ≤ c.toNat ∧ c.toNat ≤ 57 := by
  simp only [Char.isDigit, Bool.and_eq_true, decide_eq_true_eq, ge_iff_le, UInt32.le_iff_toNat_le]
  rfl

theorem isAlpha_iff : c.isAlpha = true ↔
    (65 ≤ c.toNat ∧ c.toNat ≤ 90) ∨ (97 ≤ c.toNat ∧ c.toNat ≤ 122) := by
  have halpha : c.isAlpha = (decide (c.val ≥ 65 ∧ c.val ≤ 90) ||
      (decide (c.val ≥ 97) && decide (c.val ≤ 122))) := rfl
  simp only [halpha, Bool.or_eq_true, Bool.and_eq_true, decide_eq_true_eq, ge_iff_le,
    UInt32.le_iff_toNat_le]
  rfl

theorem startsWord_iff : startsWord c = true ↔
    (65 ≤ c.toNat ∧ c.toNat ≤ 90) ∨ (97 ≤ c.toNat ∧ c.toNat ≤ 122) ∨ c.toNat = 95 := by
  have h95 : c = '_' ↔ c.toNat = 95 := by
    rw [← Char.toNat_inj]
    rfl
  rw [startsWord, Bool.or_eq_true, beq_iff_eq, isAlpha_iff, h95, or_assoc]

theorem not_quote_of_isDigit (h : c.isDigit = true) : ¬ (c = '"' ∨ c = '\'') := by
  rintro (rfl | rfl) <;> exact absurd h (by decide)

theorem not_quote_of_startsWord (h : startsWord c = true) : ¬ (c = '"' ∨ c = '\'') := by
  rintro (rfl | rfl) <;> exact absurd h (by decide)

theorem not_isDigit_of_startsWord (h : startsWord c = true) : c.isDigit = false := by
  rw [startsWord_iff] at h
  rw [Bool.eq_false_iff, Ne, isDigit_iff]
  omega

theorem not_word_of_isDigit (h : c.isDigit = true) : startsWord c = false := by
  rw [Bool.eq_false_iff]
  intro hw
  rw [not_isDigit_of_startsWord hw] at h
  cases h

end Classes

section Patterns

variable {c : Char} {cs : List Char} {m : Match}

theorem token?_cases (h : token? cs = some m) :
    quoted? cs = some m ∨ number? cs = some m ∨ word? cs = some m ∨ symbol? cs = some m := by
  simp only [token?, Option.orElse_eq_orElse, Option.orElse_eq_or, Option.or_eq_some_iff] at h
  rcases h with h | ⟨-, h | ⟨-, h | ⟨-, h⟩⟩⟩
  · exact .inl h
  · exact .inr (.inl h)
  · exact .inr (.inr (.inl h))
  · exact .inr (.inr (.inr h))

theorem quoted?_eq_none (h : ¬ (c = '"' ∨ c = '\'')) : quoted? (c :: cs) = none := by
  simp only [quoted?, if_neg h]

theorem number?_eq_none (h : c.isDigit = false) : number? (c :: cs) = none := by
  simp [number?, h]

theorem word?_eq_none (h : startsWord c = false) : word? (c :: cs) = none := by
  simp [word?, h]

/-- A symbol is spelled as messages show it, and the arrow also with two characters. -/
theorem mem_spellings_iff {word : List Char} {s : Symbol} : (word, s) ∈ spellings ↔
    word = s.text.toList ∨ (s = .assign ∧ word = ['<', '-']) := by
  cases s <;> simp [spellings, Symbol.text]

/-- The characters that begin a symbol begin nothing else. -/
theorem head_spellings : ∀ entry ∈ spellings, ∀ c ∈ entry.1.head?,
    ¬ (c = '"' ∨ c = '\'') ∧ c.isDigit = false ∧ startsWord c = false := by
  simp [spellings, startsWord]

theorem spellings_ne_nil : ∀ entry ∈ spellings, entry.1 ≠ [] := by
  decide

theorem symbol?_eq_none (h : (c = '"' ∨ c = '\'') ∨ c.isDigit = true ∨ startsWord c = true) :
    symbol? (c :: cs) = none := by
  rw [symbol?, Option.map_eq_none_iff, List.find?_eq_none]
  rintro ⟨word, s⟩ hm hp
  obtain ⟨rest, hr⟩ := List.isPrefixOf_iff_prefix.mp hp
  cases word with
  | nil => exact spellings_ne_nil _ hm rfl
  | cons d word =>
    obtain rfl : d = c := by simpa using congrArg List.head? hr
    obtain ⟨hq, hd, hw⟩ := head_spellings _ hm d rfl
    rcases h with h | h | h
    · exact hq h
    · simp [hd] at h
    · simp [hw] at h

theorem number?_of_token? (hc : c.isDigit = true) (h : token? (c :: cs) = some m) :
    number? (c :: cs) = some m := by
  have hcases := token?_cases h
  rw [quoted?_eq_none (not_quote_of_isDigit hc), word?_eq_none (not_word_of_isDigit hc),
    symbol?_eq_none (.inr (.inl hc))] at hcases
  simpa using hcases

theorem word?_of_token? (hc : startsWord c = true) (h : token? (c :: cs) = some m) :
    word? (c :: cs) = some m := by
  have hcases := token?_cases h
  rw [quoted?_eq_none (not_quote_of_startsWord hc), number?_eq_none (not_isDigit_of_startsWord hc),
    symbol?_eq_none (.inr (.inr hc))] at hcases
  simpa using hcases

theorem symbol?_of_token? {word more : List Char} {s : Symbol} (hm : (word, s) ∈ spellings)
    (h : token? (word ++ more) = some m) : symbol? (word ++ more) = some m := by
  cases word with
  | nil => exact absurd rfl (spellings_ne_nil _ hm)
  | cons c word =>
    obtain ⟨hq, hd, hw⟩ := head_spellings _ hm c rfl
    have hcases := token?_cases h
    rw [List.cons_append, quoted?_eq_none hq, number?_eq_none hd, word?_eq_none hw] at hcases
    simpa using hcases

end Patterns

section Numbers

variable {cs word rest digits whole fraction : List Char} {token : Token} {x : Float} {real : Bool}

theorem numberOf_of_double? (h : Numeral.double? (String.ofList digits) = some x) :
    numberOf digits real = .number x real := by
  rw [numberOf, h, Option.getD_some]

theorem splitSign_of_isDigit {c : Char} (h : c.isDigit = true) :
    Numeral.splitSign (c :: cs) = (false, c :: cs) := by
  unfold Numeral.splitSign
  split
  · simp_all
  · simp_all
  · rfl

theorem splitSign_of_digits (hne : whole ≠ []) (hd : ∀ c ∈ whole, c.isDigit = true)
    (cs : List Char) : Numeral.splitSign (whole ++ cs) = (false, whole ++ cs) := by
  cases whole with
  | nil => exact absurd rfl hne
  | cons c whole => exact splitSign_of_isDigit (hd c List.mem_cons_self)

/-- Digits, with a fraction or without one, are a numeral. -/
theorem double?_of_digits (hne : whole ≠ []) (hd : ∀ c ∈ whole, c.isDigit = true) :
    ∃ x, Numeral.double? (String.ofList whole) = some x := by
  have hs := splitSign_of_digits hne hd []
  rw [List.append_nil] at hs
  have ht : whole.takeWhile Char.isDigit = whole := List.takeWhile_eq_self_iff.mpr hd
  have hr : whole.dropWhile Char.isDigit = [] := List.dropWhile_eq_nil_iff.mpr hd
  simp [Numeral.double?, Numeral.read?, hs, ht, hr, Numeral.splitFraction, Numeral.exponent?, hne]

theorem double?_of_fraction (hne : whole ≠ []) (hd : ∀ c ∈ whole, c.isDigit = true)
    (hf : ∀ c ∈ fraction, c.isDigit = true) :
    ∃ x, Numeral.double? (String.ofList (whole ++ '.' :: fraction)) = some x := by
  have hs := splitSign_of_digits hne hd ('.' :: fraction)
  have ht : (whole ++ '.' :: fraction).takeWhile Char.isDigit = whole := by
    rw [List.takeWhile_append_of_pos hd]
    simp
  have hr : (whole ++ '.' :: fraction).dropWhile Char.isDigit = '.' :: fraction := by
    rw [List.dropWhile_append_of_pos hd]
    simp
  have hft : fraction.takeWhile Char.isDigit = fraction := List.takeWhile_eq_self_iff.mpr hf
  have hfr : fraction.dropWhile Char.isDigit = [] := List.dropWhile_eq_nil_iff.mpr hf
  simp [Numeral.double?, Numeral.read?, hs, ht, hr, Numeral.splitFraction, hft, hfr,
    Numeral.exponent?, hne]

/-- What a number is spelled by: all the digits in front, and a fraction if it has digits. -/
theorem number?_eq_some (h : number? cs = some (token, word, rest)) :
    cs.takeWhile Char.isDigit ≠ [] ∧
    ((word = cs.takeWhile Char.isDigit ∧ token = numberOf word false ∧
        ∀ after, cs.dropWhile Char.isDigit = '.' :: after → after.takeWhile Char.isDigit = []) ∨
      ∃ after, cs.dropWhile Char.isDigit = '.' :: after ∧ after.takeWhile Char.isDigit ≠ [] ∧
        word = cs.takeWhile Char.isDigit ++ '.' :: after.takeWhile Char.isDigit ∧
        token = numberOf word true) := by
  simp only [number?] at h
  split at h
  · cases h
  · rename_i hw
    refine ⟨hw, ?_⟩
    split at h
    · rename_i after hr
      split at h
      · rename_i hf
        obtain ⟨rfl, rfl, rfl⟩ : _ = token ∧ _ = word ∧ _ = rest := by simpa using h
        refine .inl ⟨rfl, rfl, fun after' ha => ?_⟩
        obtain rfl : after = after' := by simpa [hr] using ha
        exact hf
      · rename_i hf
        obtain ⟨rfl, rfl, rfl⟩ : _ = token ∧ _ = word ∧ _ = rest := by simpa using h
        exact .inr ⟨after, hr, hf, rfl, rfl⟩
    · rename_i hr
      obtain ⟨rfl, rfl, rfl⟩ : _ = token ∧ _ = word ∧ _ = rest := by simpa using h
      exact .inl ⟨rfl, rfl, fun after ha => absurd ha (hr after)⟩

theorem number?_spelled (h : number? cs = some (token, word, rest)) : token.Spelled word := by
  have hdigit : ∀ {ds : List Char}, ∀ c ∈ ds.takeWhile Char.isDigit, c.isDigit = true :=
    fun _ hc => List.mem_takeWhile_imp hc
  obtain ⟨hne, ⟨rfl, rfl, -⟩ | ⟨after, -, hf, rfl, rfl⟩⟩ := number?_eq_some h
  · obtain ⟨x, hx⟩ := double?_of_digits hne hdigit
    rw [numberOf_of_double? hx]
    exact .integer hne hdigit hx
  · obtain ⟨x, hx⟩ := double?_of_fraction hne hdigit hdigit
    rw [numberOf_of_double? hx]
    exact .real hne hdigit hf hdigit hx

theorem number?_longest_integer (h : number? (digits ++ cs) = some (token, word, rest))
    (hd : ∀ c ∈ digits, c.isDigit = true) (hx : Numeral.double? (String.ofList digits) = some x) :
    digits.length < word.length ∨ (digits = word ∧ .number x false = token) := by
  obtain ⟨-, ⟨rfl, rfl, -⟩ | ⟨after, -, -, rfl, rfl⟩⟩ := number?_eq_some h
  · rw [List.takeWhile_append_of_pos hd]
    cases cs.takeWhile Char.isDigit with
    | nil => exact .inr ⟨by simp, by simp [numberOf_of_double? hx]⟩
    | cons c more => exact .inl (by simp)
  · rw [List.takeWhile_append_of_pos hd]
    refine .inl ?_
    rw [List.length_append, List.length_append, List.length_cons]
    omega

theorem number?_longest_real
    (h : number? ((whole ++ '.' :: fraction) ++ cs) = some (token, word, rest))
    (hw : ∀ c ∈ whole, c.isDigit = true) (hne : fraction ≠ [])
    (hf : ∀ c ∈ fraction, c.isDigit = true)
    (hx : Numeral.double? (String.ofList (whole ++ '.' :: fraction)) = some x) :
    (whole ++ '.' :: fraction).length < word.length ∨
      (whole ++ '.' :: fraction = word ∧ .number x true = token) := by
  have ht : ((whole ++ '.' :: fraction) ++ cs).takeWhile Char.isDigit = whole := by
    rw [List.append_assoc, List.takeWhile_append_of_pos hw]
    simp
  have hr : ((whole ++ '.' :: fraction) ++ cs).dropWhile Char.isDigit =
      '.' :: (fraction ++ cs) := by
    rw [List.append_assoc, List.dropWhile_append_of_pos hw]
    simp
  have hft : (fraction ++ cs).takeWhile Char.isDigit = fraction ++ cs.takeWhile Char.isDigit :=
    List.takeWhile_append_of_pos hf
  obtain ⟨-, ⟨-, -, hno⟩ | ⟨after, ha, -, rfl, rfl⟩⟩ := number?_eq_some h
  · have := hno _ hr
    simp [hft, hne] at this
  · rw [hr] at ha
    obtain rfl : fraction ++ cs = after := by simpa using ha
    rw [ht, hft]
    cases cs.takeWhile Char.isDigit with
    | nil => exact .inr ⟨by simp, by simp [numberOf_of_double? hx]⟩
    | cons c more => exact .inl (by simp)

end Numbers

section Words

variable {c : Char} {cs word rest : List Char} {token : Token}

theorem word?_eq_some (h : word? (c :: cs) = some (token, word, rest)) :
    startsWord c = true ∧ word = c :: cs.takeWhile continuesWord ∧ token = wordToken word := by
  simp only [word?] at h
  split at h
  · rename_i hc
    obtain ⟨rfl, rfl, rfl⟩ : _ = token ∧ _ = word ∧ _ = rest := by simpa using h
    exact ⟨hc, rfl, rfl⟩
  · cases h

theorem wordToken_spelled (hc : startsWord c = true) (hcs : ∀ d ∈ cs, continuesWord d = true) :
    (wordToken (c :: cs)).Spelled (c :: cs) := by
  unfold wordToken
  dsimp only
  cases hk : Keyword.ofText? (Text.upper (String.ofList (c :: cs))) with
  | none => exact .name hc hcs (Keyword.ofText?_eq_none_iff.mp hk)
  | some k => exact .keyword hc hcs (Keyword.ofText?_eq_some_iff.mp hk)

theorem word?_spelled (h : word? cs = some (token, word, rest)) : token.Spelled word := by
  cases cs with
  | nil => cases h
  | cons c cs =>
    obtain ⟨hc, rfl, rfl⟩ := word?_eq_some h
    exact wordToken_spelled hc fun d hd => List.mem_takeWhile_imp hd

theorem word?_longest {more : List Char} (h : word? (c :: (cs ++ more)) = some (token, word, rest))
    (hcs : ∀ d ∈ cs, continuesWord d = true) :
    (c :: cs).length < word.length ∨ (c :: cs = word ∧ wordToken (c :: cs) = token) := by
  obtain ⟨-, rfl, rfl⟩ := word?_eq_some h
  rw [List.takeWhile_append_of_pos hcs]
  cases more.takeWhile continuesWord with
  | nil => exact .inr ⟨by simp, by simp⟩
  | cons d more => exact .inl (by simp)

end Words

section Symbols

variable {cs word rest : List Char} {token : Token}

theorem symbol?_spelled (h : symbol? cs = some (token, word, rest)) : token.Spelled word := by
  obtain ⟨⟨word', s⟩, hf, he⟩ := Option.map_eq_some_iff.mp h
  obtain ⟨rfl, rfl, -⟩ : _ = token ∧ _ = word ∧ _ = rest := by simpa using he
  exact .symbol (List.mem_of_find?_eq_some hf)

/-- Of two symbols that begin alike the longer comes first. -/
theorem spellings_pairwise : spellings.Pairwise fun a b => ¬ a.1 <+: b.1 := by
  decide

theorem symbol?_longest {s : Symbol} {word' : List Char} (h : symbol? cs = some (token, word, rest))
    (hm : (word', s) ∈ spellings) (hp : word' <+: cs) :
    word'.length < word.length ∨ (word' = word ∧ .symbol s = token) := by
  obtain ⟨⟨first, s'⟩, hf, he⟩ := Option.map_eq_some_iff.mp h
  obtain ⟨rfl, rfl, -⟩ : _ = token ∧ _ = word ∧ _ = rest := by simpa using he
  obtain ⟨hfirst, before, after, hs, hbefore⟩ := List.find?_eq_some_iff_append.mp hf
  have hpairs := spellings_pairwise
  rw [hs] at hm hpairs
  rcases List.mem_append.mp hm with hb | ha
  · have := hbefore _ hb
    simp [List.isPrefixOf_iff_prefix.mpr hp] at this
  · rcases List.mem_cons.mp ha with he | ha
    · obtain ⟨rfl, rfl⟩ := Prod.mk.inj he
      exact .inr ⟨rfl, rfl⟩
    · left
      have hno : ¬ first <+: word' :=
        (List.pairwise_cons.mp (List.pairwise_append.mp hpairs).2.1).1 _ ha
      by_contra hlen
      exact hno (List.prefix_of_prefix_length_le (List.isPrefixOf_iff_prefix.mp hfirst) hp
        (Nat.le_of_not_lt hlen))

end Symbols

section Texts

variable {quote : Char} {cs inside word rest : List Char} {token : Token}

theorem quoted?_spelled (h : quoted? cs = some (token, word, rest)) : token.Spelled word := by
  cases cs with
  | nil => cases h
  | cons quote cs =>
    simp only [quoted?] at h
    split at h
    · rename_i hq
      split at h
      · cases h
      · obtain ⟨rfl, rfl, rfl⟩ : _ = token ∧ _ = word ∧ _ = rest := by simpa using h
        refine .text hq fun hin => ?_
        simpa using List.mem_takeWhile_imp hin
    · cases h

theorem quoted?_of_inside (hq : quote = '"' ∨ quote = '\'') (hin : quote ∉ inside) :
    quoted? (quote :: inside ++ quote :: rest) =
      some (.text (String.ofList inside), quote :: inside ++ [quote], rest) := by
  have hall : ∀ c ∈ inside, (c != quote) = true := by
    intro c hc
    rw [bne_iff_ne]
    rintro rfl
    exact hin hc
  have ht : (inside ++ quote :: rest).takeWhile (· != quote) = inside := by
    rw [List.takeWhile_append_of_pos hall]
    simp
  have hr : (inside ++ quote :: rest).dropWhile (· != quote) = quote :: rest := by
    rw [List.dropWhile_append_of_pos hall]
    simp
  rw [List.cons_append]
  simp only [quoted?, if_pos hq, ht, hr]

end Texts

section Tokens

variable {cs word rest : List Char} {token : Token}

theorem token?_spelled (h : token? cs = some (token, word, rest)) : token.Spelled word := by
  rcases token?_cases h with h | h | h | h
  · exact quoted?_spelled h
  · exact number?_spelled h
  · exact word?_spelled h
  · exact symbol?_spelled h

/-- A beginning of the text that spells a token is at most as long as what the patterns take. -/
theorem token?_longest {token' : Token} {word' : List Char}
    (h : token? cs = some (token, word, rest)) (hp : word' <+: cs) (hs : token'.Spelled word') :
    word'.length < word.length ∨ (word' = word ∧ token' = token) := by
  obtain ⟨more, rfl⟩ := hp
  cases hs with
  | @text quote inside hq hin =>
    rw [List.append_assoc, List.singleton_append] at h
    have ht : token? (quote :: inside ++ quote :: more) =
        some (.text (String.ofList inside), quote :: inside ++ [quote], more) := by
      simp only [token?, Option.orElse_eq_orElse, Option.orElse_eq_or, quoted?_of_inside hq hin,
        Option.some_or]
    obtain ⟨rfl, rfl, rfl⟩ : _ = token ∧ _ = word ∧ _ = rest := by simpa using ht.symm.trans h
    exact .inr ⟨rfl, rfl⟩
  | integer hne hd hx =>
    obtain ⟨c, digits, rfl⟩ := List.exists_cons_of_ne_nil hne
    exact number?_longest_integer (number?_of_token? (hd c List.mem_cons_self) h) hd hx
  | @real whole fraction x hw hd hf hfd hx =>
    obtain ⟨c, whole, rfl⟩ := List.exists_cons_of_ne_nil hw
    exact number?_longest_real (number?_of_token? (hd c List.mem_cons_self) h) hd hf hfd hx
  | @keyword k c cs hc hcs hk =>
    have ht : wordToken (c :: cs) = .keyword k := by
      simp only [wordToken, Keyword.ofText?_eq_some_iff.mpr hk]
    rw [← ht]
    exact word?_longest (word?_of_token? hc h) hcs
  | @name c cs hc hcs hk =>
    have ht : wordToken (c :: cs) = .name (String.ofList (c :: cs)) := by
      simp only [wordToken, Keyword.ofText?_eq_none_iff.mpr hk]
    rw [← ht]
    exact word?_longest (word?_of_token? hc h) hcs
  | symbol hm => exact symbol?_longest (symbol?_of_token? hm h) hm (List.prefix_append _ _)

/-- The patterns take the longest beginning of a text that spells a token. -/
theorem longest_of_token? (h : token? cs = some (token, word, rest)) : token.Longest word rest where
  spelled := token?_spelled h
  longest hp hs := by
    rw [← (token?_append h).1] at hp
    exact token?_longest h hp hs

end Tokens

section Gaps

variable {cs inside gap rest : List Char}

theorem blockEnd?_endsComment (h : blockEnd? cs = some (inside, rest)) : EndsComment inside := by
  fun_induction blockEnd? cs generalizing inside rest with
  | case1 => cases h
  | case2 cs =>
    obtain ⟨rfl, rfl⟩ := Prod.mk.inj (Option.some.inj h)
    exact ⟨[], rfl, by decide⟩
  | case3 c cs hno ih =>
    obtain ⟨⟨more, rest'⟩, hm, he⟩ := Option.map_eq_some_iff.mp h
    obtain ⟨rfl, rfl⟩ := Prod.mk.inj he
    obtain ⟨body, rfl, hbody⟩ := ih hm
    refine ⟨c :: body, rfl, fun hin => ?_⟩
    have hcs := blockEnd?_append hm
    -- An earlier end could only begin with `c`, and there the text does not go on with `*/`.
    rcases List.infix_cons_iff.mp hin with hp | hin
    · cases body with
      | nil => simp at hp
      | cons d body =>
        obtain ⟨hc, hd⟩ : '*' = c ∧ '/' = d := by simpa using hp
        exact hno (body ++ ['*', '/'] ++ rest') hc.symm (by rw [hcs, ← hd]; rfl)
    · exact hbody hin

theorem gap_of_blanks {blanks more after : List Char} (h : ∀ c ∈ blanks, isBlank c = true)
    (hmore : Gap more after) : Gap (blanks ++ more) after := by
  induction blanks with
  | nil => exact hmore
  | cons c blanks ih =>
    exact .blank (h c List.mem_cons_self) (ih fun d hd => h d (List.mem_cons_of_mem c hd))

theorem gap_of_gap? (h : gap? cs = some (gap, rest)) {more after : List Char}
    (hr : rest = more ++ after) (hmore : Gap more after) : Gap (gap ++ more) after := by
  unfold gap? at h
  split at h
  · cases h
  · rename_i cs
    obtain ⟨rfl, rfl⟩ := Prod.mk.inj (Option.some.inj h)
    refine .line (fun hn => ?_) ?_ hmore
    · simpa using List.mem_takeWhile_imp hn
    · rw [← hr]
      have := List.head?_dropWhile_not (· != '\n') cs
      cases hd : cs.dropWhile (· != '\n') with
      | nil => exact .inl rfl
      | cons d ds => exact .inr (by simpa [hd] using this)
  · obtain ⟨⟨inside, rest'⟩, hm, he⟩ := Option.map_eq_some_iff.mp h
    obtain ⟨rfl, rfl⟩ := Prod.mk.inj he
    exact .block (blockEnd?_endsComment hm) hmore
  · rename_i c cs _ _
    split at h
    · rename_i hc
      obtain ⟨rfl, rfl⟩ := Prod.mk.inj (Option.some.inj h)
      have hall : ∀ d ∈ c :: cs.takeWhile isBlank, isBlank d = true := by
        intro d hd
        rcases List.mem_cons.mp hd with rfl | hd
        · exact hc
        · exact List.mem_takeWhile_imp hd
      exact gap_of_blanks hall hmore
    · cases h

theorem gap_gaps (n : Nat) (cs : List Char) : Gap (gaps n cs).1 (gaps n cs).2 := by
  fun_induction gaps n cs with
  | case1 => exact .nil
  | case2 => exact .nil
  | case3 n cs gap rest h more rest' he ih =>
    have hr := gaps_append n rest
    rw [he] at ih hr
    exact gap_of_gap? h hr ih

theorem blockEnd?_isSome (body rest : List Char) :
    (blockEnd? (body ++ '*' :: '/' :: rest)).isSome = true := by
  induction body with
  | nil => simp [blockEnd?]
  | cons c body ih =>
    rw [List.cons_append, blockEnd?.eq_def]
    split
    · rename_i heq
      cases heq
    · rfl
    · rename_i heq
      obtain ⟨rfl, rfl⟩ := List.cons.inj heq
      rw [Option.isSome_map, ih]

theorem gap?_of_isBlank {c : Char} (h : isBlank c = true) :
    gap? (c :: cs) = some (c :: cs.takeWhile isBlank, cs.dropWhile isBlank) := by
  have hslash : c ≠ '/' := by
    rintro rfl
    exact absurd h (by decide)
  unfold gap?
  split <;> simp_all

theorem noGap_of_gap? (h : gap? cs = none) : NoGap cs := by
  rintro gap after hgap rfl
  cases hgap with
  | nil => rfl
  | blank hc _ =>
    rw [List.cons_append, gap?_of_isBlank hc] at h
    cases h
  | line _ _ _ =>
    simp [gap?] at h
  | @block inside gap _ hend _ =>
    obtain ⟨body, rfl, -⟩ := hend
    have hsome := blockEnd?_isSome body (gap ++ after)
    simp [gap?] at h
    simp [h] at hsome

/-- Gaps are not empty, so that the bound never leaves one over. -/
theorem gap?_gaps {n : Nat} (hn : cs.length ≤ n) : gap? (gaps n cs).2 = none := by
  fun_induction gaps n cs with
  | case1 cs =>
    obtain rfl : cs = [] := List.length_eq_zero_iff.mp (Nat.le_zero.mp hn)
    rfl
  | case2 n cs h => exact h
  | case3 n cs gap rest h more rest' he ih =>
    obtain ⟨rfl, hne⟩ := gap?_append h
    have hpos := List.length_pos_iff.mpr hne
    rw [List.length_append] at hn
    rw [he] at ih
    exact ih (by omega)

end Gaps

end Scanner

theorem Token.spelled_symbol_iff {s : Symbol} {word : List Char} : (symbol s).Spelled word ↔
    word = s.text.toList ∨ (s = .assign ∧ word = ['<', '-']) := by
  rw [← Scanner.mem_spellings_iff]
  constructor
  · rintro (_ | _ | _ | _ | _ | h)
    exact h
  · exact .symbol

end Chalkboard
