import Mathlib.Data.String.Basic
import Chalkboard.Proofs.CaseVariants
import Chalkboard.Proofs.StrayCharacters

/-! # Where words end

A word is the longest that spells its token exactly if the text after it does not run on, and for
that no more than two characters count. Where the word is a slash, the text after it must not make a
comment of it. Apart from this a word is read alike whatever comes after it, so that a text can be
changed between its words, or in some of them, without a change of the tokens.
-/

namespace Chalkboard

/-- The characters that make a longer symbol of this one. -/
def Symbol.continuations : Symbol → List Char
  | less => ['-', '>', '=']
  | greater => ['=']
  | _ => []

/-- Does the text go on with characters that would belong to the word of the token before it? -/
def Token.runsOn (rest : List Char) : Token → Bool
  | text _ => false
  | number _ real => rest.head?.any Char.isDigit ||
      (!real && rest.head? == some '.' && rest.tail.head?.any Char.isDigit)
  | keyword _ | name _ => rest.head?.any Scanner.continuesWord
  | symbol s => rest.head?.any s.continuations.contains

namespace Scanner

section Patterns

variable {cs word rest digits whole fraction : List Char} {token : Token} {x : Float}

theorem takeWhile_append_of_head? {p : Char → Bool} (hcs : ∀ c ∈ cs, p c = true)
    (h : rest.head?.any p = false) :
    (cs ++ rest).takeWhile p = cs ∧ (cs ++ rest).dropWhile p = rest := by
  rw [List.takeWhile_append_of_pos hcs, List.dropWhile_append_of_pos hcs]
  cases rest with
  | nil => simp
  | cons c rest =>
    have hc : p c = false := by simpa using h
    simp [hc]

theorem number?_integer (hne : digits ≠ []) (hd : ∀ c ∈ digits, c.isDigit = true)
    (hx : Numeral.double? (String.ofList digits) = some x)
    (h : (Token.number x false).runsOn rest = false) :
    number? (digits ++ rest) = some (.number x false, digits, rest) := by
  obtain ⟨hdigit, hpoint⟩ : rest.head?.any Char.isDigit = false ∧
      (rest.head? = some '.' → rest.tail.head?.any Char.isDigit = false) := by
    simpa [Token.runsOn] using h
  obtain ⟨ht, hr⟩ := takeWhile_append_of_head? hd hdigit
  rw [← numberOf_of_double? hx]
  simp only [number?, ht, hr, hne, if_false]
  split
  · rename_i after
    have hafter : after.takeWhile Char.isDigit = [] := by
      simpa using (takeWhile_append_of_head? (List.forall_mem_nil _) (hpoint rfl)).1
    rw [if_pos hafter]
  · rfl

theorem number?_real (hne : whole ≠ []) (hw : ∀ c ∈ whole, c.isDigit = true) (hf : fraction ≠ [])
    (hfd : ∀ c ∈ fraction, c.isDigit = true)
    (hx : Numeral.double? (String.ofList (whole ++ '.' :: fraction)) = some x)
    (h : (Token.number x true).runsOn rest = false) :
    number? (whole ++ '.' :: fraction ++ rest) =
    some (.number x true, whole ++ '.' :: fraction, rest) := by
  have hdigit : rest.head?.any Char.isDigit = false := by simpa [Token.runsOn] using h
  have hpoint : ('.' :: (fraction ++ rest)).head?.any Char.isDigit = false := by simp
  obtain ⟨ht, hr⟩ := takeWhile_append_of_head? hw hpoint
  obtain ⟨hft, hfr⟩ := takeWhile_append_of_head? hfd hdigit
  rw [← numberOf_of_double? hx, List.append_assoc, List.cons_append]
  simp only [number?, ht, hr, hft, hfr, hne, hf, if_false]

theorem word?_of_head? {c : Char} (hc : startsWord c = true)
    (hcs : ∀ d ∈ cs, continuesWord d = true) (h : rest.head?.any continuesWord = false) :
    word? (c :: cs ++ rest) = some (wordToken (c :: cs), c :: cs, rest) := by
  obtain ⟨ht, hr⟩ := takeWhile_append_of_head? hcs h
  simp only [word?, List.cons_append, hc, if_true, ht, hr]

theorem continuation_of_spellings {s s' : Symbol} {c : Char} (h : (word, s) ∈ spellings)
    (hlonger : (word ++ [c], s') ∈ spellings) : c ∈ s.continuations := by
  have hall : (spellings.all fun entry => spellings.all fun longer =>
    longer.1.dropLast != entry.1 ||
      longer.1.getLast?.all entry.2.continuations.contains) = true := by
    decide
  have hpair := List.all_eq_true.mp (List.all_eq_true.mp hall _ h) _ hlonger
  simpa using hpair

theorem spellings_continuation {s : Symbol} {c : Char} (h : (word, s) ∈ spellings)
    (hc : c ∈ s.continuations) : ∃ s', (word ++ [c], s') ∈ spellings := by
  have hall : (spellings.all fun entry => entry.2.continuations.all fun c =>
      spellings.any fun longer => longer.1 == entry.1 ++ [c]) = true := by
    decide
  have hany := List.all_eq_true.mp (List.all_eq_true.mp hall _ h) c hc
  obtain ⟨⟨longer, s'⟩, hm, heq⟩ := List.any_eq_true.mp hany
  obtain rfl : longer = word ++ [c] := beq_iff_eq.mp heq
  exact ⟨s', hm⟩

theorem length_spellings : ∀ entry ∈ spellings, entry.1.length ≤ 2 := by
  decide

theorem symbol?_of_head? {s : Symbol} (hm : (word, s) ∈ spellings)
    (h : rest.head?.any s.continuations.contains = false) :
    symbol? (word ++ rest) = some (.symbol s, word, rest) := by
  obtain ⟨⟨token', word', rest'⟩, htoken⟩ :=
    Option.ne_none_iff_exists'.mp (token?_of_spelled (.symbol hm) rest)
  have hsymbol := symbol?_of_token? hm htoken
  obtain ⟨happend, -⟩ := symbol?_append hsymbol
  obtain hlt | ⟨rfl, rfl⟩ := symbol?_longest hsymbol hm (List.prefix_append word rest)
  · -- A longer symbol has one character more, by which the text would run on.
    obtain ⟨⟨longer, s'⟩, hf, he⟩ := Option.map_eq_some_iff.mp hsymbol
    obtain ⟨-, rfl, -⟩ : _ = token' ∧ longer = word' ∧ _ = rest' := by simpa using he
    have hm' := List.mem_of_find?_eq_some hf
    have hpos := List.length_pos_iff.mpr (spellings_ne_nil _ hm)
    have htwo := length_spellings _ hm'
    obtain ⟨more, rfl⟩ : word <+: longer :=
      List.prefix_of_prefix_length_le (List.prefix_append word rest)
        (happend ▸ List.prefix_append longer rest') (Nat.le_of_lt hlt)
    obtain ⟨c, rfl⟩ : ∃ c, more = [c] := by
      apply List.length_eq_one_iff.mp
      simp only [List.length_append] at hlt htwo hpos
      omega
    rw [List.append_assoc] at happend
    rw [List.append_cancel_left happend] at h
    simp [continuation_of_spellings hm hm'] at h
  · rw [hsymbol, List.append_cancel_left happend]

end Patterns

end Scanner

namespace Token

open Scanner

variable {token : Token} {word rest : List Char}

/-- Where the text does not run on, the patterns take the word alone. -/
theorem Spelled.token? (h : token.Spelled word) (hrest : token.runsOn rest = false) :
    Scanner.token? (word ++ rest) = some (token, word, rest) := by
  obtain ⟨m, hm⟩ := Option.ne_none_iff_exists'.mp (token?_of_spelled h rest)
  rw [hm]
  cases h with
  | text hq hin =>
    rw [List.append_assoc, List.singleton_append] at hm
    rw [← hm]
    simp only [Scanner.token?, quoted?_of_inside hq hin, Option.orElse_eq_orElse,
      Option.orElse_eq_or, Option.some_or]
  | integer hne hd hx =>
    obtain ⟨c, digits, rfl⟩ := List.exists_cons_of_ne_nil hne
    rw [← number?_of_token? (hd c List.mem_cons_self) hm]
    exact number?_integer hne hd hx hrest
  | real hne hd hf hfd hx =>
    obtain ⟨c, whole, rfl⟩ := List.exists_cons_of_ne_nil hne
    rw [← number?_of_token? (hd c List.mem_cons_self) hm]
    exact number?_real hne hd hf hfd hx hrest
  | @keyword k c cs hc hcs hk =>
    rw [← word?_of_token? hc hm]
    have ht : wordToken (c :: cs) = .keyword k := by
      simp only [wordToken, Keyword.ofText?_eq_some_iff.mpr hk]
    rw [← ht]
    exact word?_of_head? hc hcs hrest
  | @name c cs hc hcs hk =>
    rw [← word?_of_token? hc hm]
    have ht : wordToken (c :: cs) = .name (String.ofList (c :: cs)) := by
      simp only [wordToken, Keyword.ofText?_eq_none_iff.mpr hk]
    rw [← ht]
    exact word?_of_head? hc hcs hrest
  | symbol hs =>
    rw [← symbol?_of_token? hs hm]
    exact symbol?_of_head? hs hrest

/-- Where the text runs on, a longer word spells a token. -/
theorem Spelled.exists_longer (h : token.Spelled word) (hrest : token.runsOn rest = true) :
    ∃ token' more, more ≠ [] ∧ more <+: rest ∧ Spelled token' (word ++ more) := by
  have hhead : ∀ {p : Char → Bool}, rest.head?.any p = true → ∃ c, p c = true ∧ [c] <+: rest := by
    intro p hp
    cases rest with
    | nil => cases hp
    | cons c rest => exact ⟨c, by simpa using hp, by simp⟩
  have hword : ∀ {c cs}, startsWord c = true → (∀ d ∈ cs, continuesWord d = true) →
      rest.head?.any continuesWord = true →
      ∃ token' more, more ≠ [] ∧ more <+: rest ∧ Spelled token' (c :: cs ++ more) := by
    intro c cs hc hcs hp
    obtain ⟨d, hd, hprefix⟩ := hhead hp
    exact ⟨_, [d], by simp, hprefix, wordToken_spelled hc
      (by simpa [or_imp, forall_and] using ⟨hcs, hd⟩)⟩
  cases h with
  | text => cases hrest
  | @integer _ x hne hd hx =>
    obtain hp | ⟨hpoint, hp⟩ : rest.head?.any Char.isDigit = true ∨
        (rest.head? = some '.' ∧ rest.tail.head?.any Char.isDigit = true) := by
      simpa [runsOn] using hrest
    · obtain ⟨c, hc, hprefix⟩ := hhead hp
      have hds : ∀ d ∈ word ++ [c], d.isDigit = true := by simpa [or_imp, forall_and] using ⟨hd, hc⟩
      obtain ⟨y, hy⟩ := double?_of_digits (by simp) hds
      exact ⟨_, [c], by simp, hprefix, .integer (by simp) hds hy⟩
    · cases rest with
      | nil => cases hpoint
      | cons c after =>
        obtain rfl : c = '.' := by simpa using hpoint
        cases after with
        | nil => cases hp
        | cons f after =>
          have hf : ∀ d ∈ [f], d.isDigit = true := by simpa using hp
          obtain ⟨y, hy⟩ := double?_of_fraction hne hd hf
          exact ⟨_, ['.', f], by simp, by simp, .real hne hd (by simp) hf hy⟩
  | @real whole fraction x hne hd hf hfd hx =>
    have hp : rest.head?.any Char.isDigit = true := by simpa [runsOn] using hrest
    obtain ⟨c, hc, hprefix⟩ := hhead hp
    have hds : ∀ d ∈ fraction ++ [c], d.isDigit = true := by
      simpa [or_imp, forall_and] using ⟨hfd, hc⟩
    obtain ⟨y, hy⟩ := double?_of_fraction hne hd hds
    refine ⟨.number y true, [c], by simp, hprefix, ?_⟩
    rw [List.append_assoc, List.cons_append]
    exact .real hne hd (by simp) hds hy
  | keyword hc hcs _ => exact hword hc hcs hrest
  | name hc hcs _ => exact hword hc hcs hrest
  | symbol hs =>
    obtain ⟨c, hc, hprefix⟩ := hhead hrest
    obtain ⟨s', hm⟩ := spellings_continuation hs (by simpa using hc)
    exact ⟨_, [c], by simp, hprefix, .symbol hm⟩

/-- A word is the longest one exactly if the text after it does not run on. -/
theorem Spelled.longest_iff (h : token.Spelled word) :
    token.Longest word rest ↔ token.runsOn rest = false := by
  constructor
  · intro hlongest
    rw [Bool.eq_false_iff]
    intro hrest
    obtain ⟨token', more, hne, hprefix, hlonger⟩ := h.exists_longer hrest
    have hpos := List.length_pos_iff.mpr hne
    obtain hlt | ⟨heq, -⟩ :=
      hlongest.longest ((List.prefix_append_right_inj word).mpr hprefix) hlonger
    · rw [List.length_append] at hlt
      omega
    · exact hne (List.append_right_eq_self.mp heq)
  · intro hrest
    exact longest_of_token? (h.token? hrest)

end Token

/-! ## Words and comments -/

/-- The text makes a comment of a slash before it. -/
def OpensComment (rest : List Char) : Prop :=
  rest.head? = some '/' ∨ ∃ inside, rest = '*' :: inside ∧ ['*', '/'] <:+: inside

namespace Scanner

variable {cs rest : List Char}

theorem gap?_eq_none_iff : gap? cs = none ↔ NoGap cs := by
  constructor
  · exact noGap_of_gap?
  · intro hno
    cases hg : gap? cs with
    | none => rfl
    | some split =>
      obtain ⟨gap, after⟩ := split
      obtain ⟨happend, hne⟩ := gap?_append hg
      have hgap := gap_of_gap? hg (List.nil_append after).symm .nil
      rw [List.append_nil] at hgap
      exact absurd (hno hgap happend) hne

theorem blockEnd?_eq_none_iff : blockEnd? cs = none ↔ ¬ ['*', '/'] <:+: cs := by
  constructor
  · rintro hnone ⟨body, after, rfl⟩
    have hsome := blockEnd?_isSome body after
    rw [List.append_assoc, List.cons_append, List.singleton_append] at hnone
    simp [hnone] at hsome
  · intro hno
    cases hend : blockEnd? cs with
    | none => rfl
    | some split =>
      obtain ⟨inside, after⟩ := split
      obtain ⟨body, rfl, -⟩ := blockEnd?_endsComment hend
      exact absurd ⟨body, after, (blockEnd?_append hend).symm⟩ hno

theorem gap?_slash : gap? ('/' :: rest) = none ↔ ¬ OpensComment rest := by
  have hblank : isBlank '/' = false := by decide
  rcases rest with - | ⟨c, rest⟩
  · exact iff_of_true (by decide) (by simp [OpensComment])
  · by_cases hline : c = '/'
    · simp [gap?, hline, OpensComment]
    · by_cases hblock : c = '*'
      · subst hblock
        simp [gap?, OpensComment, blockEnd?_eq_none_iff]
      · rw [gap?_cons (by simpa using hline) (by simpa using hblock)]
        simp [hblank, OpensComment, hline, hblock]

end Scanner

namespace Token

open Scanner

variable {token : Token} {word rest : List Char}

/-- Every word but the slash begins with a character that begins no gap. -/
theorem Spelled.slash_or_head (h : token.Spelled word) :
    word = ['/'] ∨ ∃ c cs, word = c :: cs ∧ c ≠ '/' ∧ isBlank c = false := by
  have hcontinues : ∀ {c : Char} {cs : List Char}, continuesWord c = true →
      ∃ d ds, c :: cs = d :: ds ∧ d ≠ '/' ∧ isBlank d = false := by
    intro c cs hc
    obtain ⟨-, hslash, hblank⟩ := beginsNone_of_continuesWord hc
    exact ⟨c, cs, rfl, hslash, hblank⟩
  have hdigits : ∀ {ds : List Char}, ds ≠ [] → (∀ c ∈ ds, c.isDigit = true) → ∀ more,
      ∃ c cs, ds ++ more = c :: cs ∧ c ≠ '/' ∧ isBlank c = false := by
    intro ds hne hd more
    obtain ⟨c, ds, rfl⟩ := List.exists_cons_of_ne_nil hne
    apply hcontinues
    rw [continuesWord_eq, hd c List.mem_cons_self, Bool.or_true]
  cases h with
  | @text quote inside hq _ =>
    refine .inr ⟨quote, inside ++ [quote], rfl, ?_⟩
    rcases hq with rfl | rfl <;> decide
  | integer hne hd _ => exact .inr (by simpa using hdigits hne hd [])
  | real hne hd _ _ _ => exact .inr (hdigits hne hd _)
  | keyword hc _ _ => exact .inr (hcontinues (by rw [continuesWord_eq, hc, Bool.true_or]))
  | name hc _ _ => exact .inr (hcontinues (by rw [continuesWord_eq, hc, Bool.true_or]))
  | symbol hm =>
    have hall : (spellings.all fun entry => entry.1 == ['/'] ||
        entry.1.head?.any fun c => c != '/' && !isBlank c) = true := by
      decide
    have hentry := List.all_eq_true.mp hall _ hm
    obtain ⟨c, cs, rfl⟩ := List.exists_cons_of_ne_nil (spellings_ne_nil _ hm)
    simpa using hentry

/-- A gap begins at a word only if the word is a slash that opens a comment. -/
theorem Spelled.noGap_iff (h : token.Spelled word) :
    NoGap (word ++ rest) ↔ (word = ['/'] → ¬ OpensComment rest) := by
  rw [← gap?_eq_none_iff]
  obtain rfl | ⟨c, cs, rfl, hslash, hblank⟩ := h.slash_or_head
  · simpa using gap?_slash
  · rw [List.cons_append, gap?_cons (fun _ hc => absurd hc hslash)
      (fun _ hc => absurd hc hslash), hblank]
    simp [hslash]

end Token

/-! ## Texts and their words -/

/-- The part of a text that takes up the bytes of a span. -/
def Text.slice (source : String) (span : Span) : String :=
  String.Pos.Raw.extract source ⟨span.start⟩ ⟨span.stop⟩

def Located.word (source : String) (t : Located) : String := Text.slice source t.span

theorem Text.slice_eq {source : String} {left middle right : List Char}
    (h : source.toList = left ++ middle ++ right) :
    Text.slice source ⟨Text.size left, Text.size (left ++ middle)⟩ = String.ofList middle := by
  have hsource : source = String.ofList (left ++ middle ++ right) := by
    rw [← h, String.ofList_toList]
  have hsize : ∀ cs : List Char, Text.size cs = String.utf8Len cs := fun cs =>
    String.utf8ByteSize_ofList cs
  rw [Text.slice, hsource, Text.size_append, hsize, hsize]
  exact String.extract_of_valid left middle right

theorem Located.word_eq {source : String} {left word right : List Char}
    (h : source.toList = left ++ word ++ right) (token : Token) :
    Located.word source ⟨token, Position.origin.advance left, Text.size (left ++ word)⟩ =
      String.ofList word := by
  rw [Located.word, Located.span, Position.offset_origin_advance]
  exact Text.slice_eq h

theorem mapM_id_eq_ok_iff {ε α : Type} {ls : List (Except ε α)} {as : List α} :
    ls.mapM id = .ok as ↔ ls = as.map .ok := by
  induction ls generalizing as with
  | nil => cases as <;> simp [pure, Except.pure]
  | cons l ls ih =>
    rw [List.mapM_cons]
    cases l with
    | error e => cases as <;> simp [bind, Except.bind]
    | ok a =>
      cases hls : ls.mapM id with
      | error e => cases as <;> simp_all [bind, Except.bind]
      | ok as' => cases as <;> simp_all [bind, Except.bind, pure, Except.pure, eq_comm]

/-- The scanner succeeds with the tokens of a text that has no stray characters. -/
theorem scan_eq_ok_iff {source : String} {ts : List Located} :
    scan source = .ok ts ↔ Lexed [] source.toList (ts.map .ok) := by
  constructor
  · intro h
    obtain ⟨ls, hls⟩ := exists_lexed [] source.toList
    have hscan : scan source = ls.mapM id := scanFrom_of_lexed hls (Nat.le_refl _)
    rw [hscan, mapM_id_eq_ok_iff] at h
    rwa [h] at hls
  · intro h
    have hscan : scan source = (ts.map .ok).mapM id := scanFrom_of_lexed h (Nat.le_refl _)
    rw [hscan, mapM_id_eq_ok_iff]

end Chalkboard
