import Chalkboard.Proofs.Partition

/-! # Where scanning fails

Every text can be cut into gaps, tokens and stray characters up to its end. A character is stray
where no gap begins if it is a quote that is not closed or belongs to no token at all. The scanner
stops at the first stray character, and what comes before is made of gaps and tokens.
-/

namespace Chalkboard

def symbolMarks : List Char :=
  ['←', '<', '>', '=', '+', '-', '*', '/', '&', '^', ':', ',', '(', ')', '[', ']', '.']

/-- The characters that some token begins with. -/
def InAlphabet (c : Char) : Prop :=
  c.isAlpha = true ∨ c.isDigit = true ∨ c = '_' ∨ c = '"' ∨ c = '\'' ∨ c ∈ symbolMarks

/-- No token begins with `c` before this text. -/
def Astray (c : Char) (after : List Char) : Prop :=
  (c = '"' ∨ c = '\'') ∧ c ∉ after ∨ ¬ InAlphabet c

namespace Scanner

/-! ## No token begins at a stray character -/

section Tokens

variable {c : Char} {cs : List Char}

theorem quoted?_eq_none_iff : quoted? (c :: cs) = none ↔ (c = '"' ∨ c = '\'' → c ∉ cs) := by
  by_cases hq : c = '"' ∨ c = '\''
  · have hclosed : cs.dropWhile (· != c) = [] ↔ c ∉ cs := by
      simp only [List.dropWhile_eq_nil_iff, bne_iff_ne]
      exact ⟨fun h hc => h c hc rfl, fun h d hd hdc => h (hdc ▸ hd)⟩
    simp only [quoted?, hq, if_true, true_imp_iff, ← hclosed]
    split <;> simp_all
  · simp [quoted?_eq_none hq, hq]

theorem number?_eq_none_iff : number? (c :: cs) = none ↔ c.isDigit = false := by
  refine ⟨fun h => Bool.eq_false_iff.mpr fun hc => ?_, number?_eq_none⟩
  simp only [number?, List.takeWhile_cons_of_pos hc, List.cons_ne_nil, if_false] at h
  split at h
  · split at h <;> cases h
  · cases h

theorem word?_eq_none_iff : word? (c :: cs) = none ↔ startsWord c = false := by
  refine ⟨fun h => ?_, word?_eq_none⟩
  simpa [word?] using h

theorem head_mem_symbolMarks : ∀ entry ∈ spellings, ∀ d ∈ entry.1.head?, d ∈ symbolMarks := by
  simp [spellings, symbolMarks]

/-- Every character that begins a symbol is one itself. -/
theorem symbol?_eq_none_iff : symbol? (c :: cs) = none ↔ c ∉ symbolMarks := by
  have hsingle : ∀ d ∈ symbolMarks, ∃ entry ∈ spellings, entry.1 = [d] := by
    simp [spellings, symbolMarks]
  rw [symbol?, Option.map_eq_none_iff, List.find?_eq_none]
  constructor
  · intro h hc
    obtain ⟨⟨word, s⟩, hm, rfl⟩ := hsingle c hc
    exact h _ hm (by simp)
  · rintro hc ⟨word, s⟩ hm hp
    obtain ⟨rest, hr⟩ := List.isPrefixOf_iff_prefix.mp hp
    cases word with
    | nil => exact spellings_ne_nil _ hm rfl
    | cons d word =>
      obtain rfl : d = c := by simpa using congrArg List.head? hr
      exact hc (head_mem_symbolMarks _ hm d rfl)

theorem token?_eq_none_iff : token? (c :: cs) = none ↔ Astray c cs := by
  have hnone : token? (c :: cs) = none ↔ (c = '"' ∨ c = '\'' → c ∉ cs) ∧ c.isDigit = false ∧
      startsWord c = false ∧ c ∉ symbolMarks := by
    rw [← quoted?_eq_none_iff, ← @number?_eq_none_iff c cs, ← @word?_eq_none_iff c cs,
      ← @symbol?_eq_none_iff c cs]
    simp only [token?, Option.orElse_eq_orElse, Option.orElse_eq_or, Option.or_eq_none_iff]
  have hword : startsWord c = false ↔ ¬ (c.isAlpha = true ∨ c = '_') := by
    simp [startsWord]
  rw [hnone, hword, Astray]
  by_cases hq : c = '"' ∨ c = '\''
  · have hother : c.isDigit = false ∧ ¬ (c.isAlpha = true ∨ c = '_') ∧ c ∉ symbolMarks := by
      rcases hq with rfl | rfl <;> simp [symbolMarks]
    have hin : InAlphabet c := .inr (.inr (.inr (hq.imp_right .inl)))
    constructor
    · rintro ⟨h, -⟩
      exact .inl ⟨hq, h hq⟩
    · rintro (⟨-, h⟩ | h)
      · exact ⟨fun _ => h, hother⟩
      · exact absurd hin h
  · have hin : InAlphabet c ↔ c.isAlpha = true ∨ c.isDigit = true ∨ c = '_' ∨ c ∈ symbolMarks := by
      simp [InAlphabet, not_or.mp hq]
    rw [hin, Bool.eq_false_iff]
    constructor
    · rintro ⟨-, hd, hw, hs⟩
      refine .inr ?_
      rintro (h | h | h | h)
      · exact hw (.inl h)
      · exact hd h
      · exact hw (.inr h)
      · exact hs h
    · rintro (⟨h, -⟩ | h)
      · exact absurd h hq
      · exact ⟨fun h => absurd h hq, fun hd => h (.inr (.inl hd)),
          fun hw => h (hw.imp_right fun hw => .inr (.inl hw)), fun hs => h (.inr (.inr (.inr hs)))⟩

theorem token?_ne_none (hin : InAlphabet c) (hq : ¬ (c = '"' ∨ c = '\'')) :
    token? (c :: cs) ≠ none := by
  rw [Ne, token?_eq_none_iff]
  rintro (h | h)
  · exact hq h.1
  · exact h hin

theorem token?_of_spelled {token : Token} {word : List Char} (h : token.Spelled word)
    (rest : List Char) : token? (word ++ rest) ≠ none := by
  have hdigit : ∀ {cs}, cs ≠ [] → (∀ c ∈ cs, c.isDigit = true) →
      ∀ rest, token? (cs ++ rest) ≠ none := by
    intro cs hne hd rest
    obtain ⟨c, cs, rfl⟩ := List.exists_cons_of_ne_nil hne
    have hc := hd c List.mem_cons_self
    exact token?_ne_none (.inr (.inl hc)) (not_quote_of_isDigit hc)
  have hword : ∀ {c}, startsWord c = true → ∀ rest, token? (c :: rest) ≠ none := by
    intro c hc rest
    have hin : c.isAlpha = true ∨ c = '_' := by simpa [startsWord] using hc
    exact token?_ne_none (hin.imp_right fun h => .inr (.inl h)) (not_quote_of_startsWord hc)
  cases h with
  | @text quote inside hq hin =>
    rw [List.append_assoc, List.singleton_append, token?, quoted?_of_inside hq hin]
    simp
  | integer hne hd _ => exact hdigit hne hd rest
  | real hne hd _ _ _ =>
    rw [List.append_assoc]
    exact hdigit hne hd _
  | keyword hc _ _ => exact hword hc _
  | name hc _ _ => exact hword hc _
  | @symbol s _ hm =>
    obtain ⟨c, word, rfl⟩ := List.exists_cons_of_ne_nil (spellings_ne_nil _ hm)
    exact token?_ne_none (.inr (.inr (.inr (.inr (.inr (head_mem_symbolMarks _ hm c rfl))))))
      (head_spellings _ hm c rfl).1

theorem token?_of_longest {token : Token} {word rest : List Char} (h : token.Longest word rest) :
    token? (word ++ rest) = some (token, word, rest) := by
  obtain ⟨⟨token', word', rest'⟩, htoken⟩ :=
    Option.ne_none_iff_exists'.mp (token?_of_spelled h.spelled rest)
  have happend := (token?_append htoken).1
  have hprefix : word' <+: word ++ rest := happend ▸ List.prefix_append word' rest'
  obtain hlt | ⟨rfl, rfl⟩ := h.longest hprefix (token?_spelled htoken)
  · obtain hlt' | ⟨rfl, rfl⟩ := token?_longest htoken (List.prefix_append word rest) h.spelled
    · omega
    · exact absurd hlt (Nat.lt_irrefl _)
  · rw [htoken, List.append_cancel_left happend]

end Tokens

/-! ## Gaps are cut off in one way only -/

end Scanner

section Gaps

variable {gap after gap' after' : List Char}

theorem EndsComment.eq_nil_of_append {inside more : List Char} (h : EndsComment inside)
    (h' : EndsComment (inside ++ more)) : more = [] := by
  obtain ⟨body, rfl, -⟩ := h
  obtain ⟨body', heq, hfirst⟩ := h'
  obtain rfl | ⟨more, c, rfl⟩ := more.eq_nil_or_concat
  · rfl
  · -- Without its last character the longer one still contains the end of the shorter one.
    have heq : (body ++ ['*', '/'] ++ more) ++ [c] = (body' ++ ['*']) ++ ['/'] := by simpa using heq
    exact absurd ⟨body, more, (List.append_inj' heq rfl).1⟩ hfirst

theorem EndsComment.eq_of_append {inside inside' : List Char} (h : EndsComment inside)
    (h' : EndsComment inside') (heq : inside ++ after = inside' ++ after') : inside = inside' := by
  obtain ⟨more, rfl, -⟩ | ⟨more, rfl, -⟩ := List.append_eq_append_iff.mp heq
  · rw [h.eq_nil_of_append h', List.append_nil]
  · rw [h'.eq_nil_of_append h, List.append_nil]

theorem line_unique {body rest body' rest' : List Char} (hbody : '\n' ∉ body)
    (hbody' : '\n' ∉ body')
    (hrest : rest = [] ∨ rest.head? = some '\n') (hrest' : rest' = [] ∨ rest'.head? = some '\n')
    (heq : body ++ rest = body' ++ rest') : body = body' := by
  have hnil : ∀ {more rest : List Char}, '\n' ∉ more →
    more ++ rest = [] ∨ (more ++ rest).head? = some '\n' →
      more = [] := by
    intro more rest hmore hrest
    cases more with
    | nil => rfl
    | cons c more =>
      obtain rfl : c = '\n' := by simpa using hrest
      exact absurd List.mem_cons_self hmore
  obtain ⟨more, rfl, rfl⟩ | ⟨more, rfl, rfl⟩ := List.append_eq_append_iff.mp heq
  · rw [hnil (fun h => hbody' (List.mem_append_right body h)) hrest, List.append_nil]
  · rw [hnil (fun h => hbody (List.mem_append_right body' h)) hrest', List.append_nil]

/-- A gap that goes on as far as it can is determined by the text. -/
theorem Gap.unique (h : Gap gap after) (hno : NoGap after) (h' : Gap gap' after')
    (hno' : NoGap after') (heq : gap ++ after = gap' ++ after') : gap = gap' := by
  have hslash : isBlank '/' = false := by decide
  induction h generalizing gap' with
  | nil => exact (hno h' heq).symm
  | @blank c gap after hc hgap ih =>
    cases h' with
    | nil => exact absurd (hno' (.blank hc hgap) heq.symm) (by simp)
    | blank _ hgap' =>
      obtain ⟨rfl, hrest⟩ := List.cons.inj heq
      rw [ih hno hgap' hrest]
    | line _ _ _ | block _ _ =>
      obtain ⟨rfl, -⟩ := List.cons.inj heq
      simp [hslash] at hc
  | @line body gap after hbody hend hgap ih =>
    cases h' with
    | nil => exact absurd (hno' (.line hbody hend hgap) heq.symm) (by simp)
    | blank hc _ =>
      obtain ⟨rfl, -⟩ := List.cons.inj heq
      simp [hslash] at hc
    | line hbody' hend' hgap' =>
      simp only [List.cons_append, List.append_assoc, List.cons.injEq, true_and] at heq
      obtain rfl := line_unique hbody hbody' hend hend' heq
      rw [ih hno hgap' (List.append_cancel_left heq)]
    | block _ _ => simp at heq
  | @block inside gap after hin hgap ih =>
    cases h' with
    | nil => exact absurd (hno' (.block hin hgap) heq.symm) (by simp)
    | blank hc _ =>
      obtain ⟨rfl, -⟩ := List.cons.inj heq
      simp [hslash] at hc
    | line _ _ _ => simp at heq
    | block hin' hgap' =>
      simp only [List.cons_append, List.append_assoc, List.cons.injEq, true_and] at heq
      obtain rfl := hin.eq_of_append hin' heq
      rw [ih hno hgap' (List.append_cancel_left heq)]

theorem Scanner.gaps_of_gap {n : Nat} (h : Gap gap after) (hno : NoGap after)
    (hn : (gap ++ after).length ≤ n) : gaps n (gap ++ after) = (gap, after) := by
  have happend := gaps_append n (gap ++ after)
  have hgap := h.unique hno (gap_gaps n _) (noGap_of_gap? (gap?_gaps hn)) happend
  rw [← hgap] at happend
  exact Prod.ext hgap.symm (List.append_cancel_left happend).symm

end Gaps

/-! ## Cutting a text to its end -/

/-- The rest of a text, after the part `before`, is cut into lexemes and the gaps around them. A
lexeme is a token, spelled by the longest word, or a stray character. -/
inductive Lexed : (before rest : List Char) → List (Except Stray Located) → Prop where
  | done {before gap : List Char} : Gap gap [] → Lexed before gap []
  | token {before gap word rest : List Char} {token : Token} {ls : List (Except Stray Located)} :
      Gap gap (word ++ rest) → NoGap (word ++ rest) → token.Longest word rest →
      Lexed (before ++ gap ++ word) rest ls →
      Lexed before (gap ++ word ++ rest) (.ok ⟨token, Position.origin.advance (before ++ gap),
        Text.size (before ++ gap ++ word)⟩ :: ls)
  | stray {before gap rest : List Char} {c : Char} {ls : List (Except Stray Located)} :
      Gap gap (c :: rest) → NoGap (c :: rest) → Astray c rest →
      Lexed (before ++ gap ++ [c]) rest ls →
      Lexed before (gap ++ c :: rest) (.error ⟨c, Position.origin.advance (before ++ gap)⟩ :: ls)

/-- A part of a text that is made of gaps and tokens, before the text `after`. -/
inductive Covered : (text after : List Char) → Prop where
  | gap {gap after : List Char} : Gap gap after → Covered gap after
  | token {gap word text after : List Char} {token : Token} : Gap gap (word ++ text ++ after) →
      NoGap (word ++ text ++ after) → token.Longest word (text ++ after) → Covered text after →
      Covered (gap ++ word ++ text) after

section Lexing

variable {before rest : List Char} {ls : List (Except Stray Located)}

/-- No text is left over: where no gap and no token begins, the next character is stray. -/
theorem exists_lexed (before rest : List Char) : ∃ ls, Lexed before rest ls := by
  induction hn : rest.length using Nat.strongRecOn generalizing before rest with
  | ind n ih =>
    have hgap := Scanner.gap_gaps n rest
    have hno : NoGap (Scanner.gaps n rest).2 :=
      Scanner.noGap_of_gap? (Scanner.gap?_gaps (Nat.le_of_eq hn))
    have happend := Scanner.gaps_append n rest
    generalize (Scanner.gaps n rest).1 = gap at hgap happend
    generalize (Scanner.gaps n rest).2 = after at hgap hno happend
    subst happend
    cases after with
    | nil => exact ⟨[], by simpa using .done hgap⟩
    | cons c after =>
      cases htoken : Scanner.token? (c :: after) with
      | none =>
        obtain ⟨ls, hls⟩ := ih after.length (by simp at hn; omega) (before ++ gap ++ [c]) after rfl
        exact ⟨_, .stray hgap hno (Scanner.token?_eq_none_iff.mp htoken) hls⟩
      | some m =>
        obtain ⟨token, word, rest⟩ := m
        obtain ⟨hafter, hne⟩ := Scanner.token?_append htoken
        have hpos := List.length_pos_iff.mpr hne
        rw [hafter] at hgap hno hn ⊢
        obtain ⟨ls, hls⟩ := ih rest.length (by simp at hn; omega) (before ++ gap ++ word) rest rfl
        have hlexed := Lexed.token hgap hno (Scanner.longest_of_token? htoken) hls
        rw [List.append_assoc] at hlexed
        exact ⟨_, hlexed⟩

theorem Position.offset_origin_advance (cs : List Char) :
    (origin.advance cs).offset = Text.size cs := by
  rw [offset_advance]
  exact Nat.zero_add _

theorem scanFrom_succ_of_token {n : Nat} {p : Position} {cs gap word rest : List Char}
    {token : Token}
    (hgaps : Scanner.gaps (n + 1) cs = (gap, word ++ rest)) (hlongest : token.Longest word rest) :
    Scanner.scanFrom (n + 1) p cs = (do
      let ts ← Scanner.scanFrom n (p.advance (gap ++ word)) rest
      pure (⟨token, p.advance gap, (p.advance (gap ++ word)).offset⟩ :: ts)) := by
  have htoken := Scanner.token?_of_longest hlongest
  obtain ⟨c, word, rfl⟩ := List.exists_cons_of_ne_nil hlongest.spelled.ne_nil
  rw [List.cons_append] at htoken hgaps
  simp only [Scanner.scanFrom, hgaps, htoken, ← Position.advance_append]
  cases Scanner.scanFrom n (p.advance (gap ++ c :: word)) rest <;> rfl

/-- The scanner goes through the lexemes up to the first stray character. -/
theorem scanFrom_of_lexed {n : Nat} (h : Lexed before rest ls) (hn : rest.length ≤ n) :
    Scanner.scanFrom n (Position.origin.advance before) rest = ls.mapM id := by
  induction h generalizing n with
  | @done before gap hgap =>
    have hgaps := Scanner.gaps_of_gap hgap (Scanner.noGap_of_gap? rfl) (by simpa using hn)
    rw [List.append_nil] at hgaps
    cases n with
    | zero => rfl
    | succ n =>
      simp only [Scanner.scanFrom, hgaps]
      rfl
  | @token before gap word rest token ls hgap hno hlongest _ ih =>
    have hpos := List.length_pos_iff.mpr hlongest.spelled.ne_nil
    rw [List.append_assoc] at hn ⊢
    simp only [List.length_append] at hn
    obtain ⟨n, rfl⟩ := Nat.exists_eq_add_one_of_ne_zero (show n ≠ 0 by omega)
    have hgaps := Scanner.gaps_of_gap hgap hno (n := n + 1) (by simpa using hn)
    rw [scanFrom_succ_of_token hgaps hlongest, ← Position.advance_append, ← List.append_assoc,
      ih (by omega), ← Position.advance_append, Position.offset_origin_advance, List.mapM_cons]
    rfl
  | @stray before gap rest c ls hgap hno hastray _ _ =>
    cases n with
    | zero => simp at hn
    | succ n =>
      simp only [Scanner.scanFrom, Scanner.gaps_of_gap hgap hno hn,
        Scanner.token?_eq_none_iff.mpr hastray, Position.advance_append]
      rfl

/-- The first stray character is found after gaps and tokens only. -/
theorem covered_of_lexed {s : Stray} (h : Lexed before rest ls) (hs : ls.mapM id = .error s) :
    ∃ text after, rest = text ++ s.char :: after ∧ Covered text (s.char :: after) ∧
      NoGap (s.char :: after) ∧ Astray s.char after ∧
      s.position = Position.origin.advance (before ++ text) := by
  induction h with
  | done hgap => cases hs
  | @token before gap word rest token ls hgap hno hlongest _ ih =>
    have hrest : ls.mapM id = .error s := by
      rw [List.mapM_cons] at hs
      cases hls : ls.mapM id with
      | error s' =>
        rw [hls] at hs
        exact hs
      | ok ts =>
        rw [hls] at hs
        cases hs
    obtain ⟨text, after, rfl, hcovered, hrest⟩ := ih hrest
    rw [← List.append_assoc] at hgap hno
    refine ⟨gap ++ word ++ text, after, by simp, .token hgap hno hlongest hcovered, ?_⟩
    simpa using hrest
  | @stray before gap rest c ls hgap hno hastray _ _ =>
    cases hs
    exact ⟨gap, rest, rfl, .gap hgap, hno, hastray, rfl⟩

/-- After gaps and tokens only, the scanner gets to a stray character and stops there. -/
theorem exists_lexed_of_covered {text after : List Char} {c : Char} (h : Covered text (c :: after))
    (hno : NoGap (c :: after)) (hc : Astray c after) (before : List Char) :
    ∃ ls, Lexed before (text ++ c :: after) ls ∧
      ls.mapM id = .error ⟨c, Position.origin.advance (before ++ text)⟩ := by
  generalize hafter : c :: after = rest at h
  induction h generalizing before with
  | @gap gap rest hgap =>
    subst hafter
    obtain ⟨ls, hls⟩ := exists_lexed (before ++ gap ++ [c]) after
    exact ⟨_, .stray hgap hno hc hls, rfl⟩
  | @token gap word text rest token hgap hword hlongest _ ih =>
    subst hafter
    obtain ⟨ls, hls, herror⟩ := ih (before ++ gap ++ word) rfl
    rw [List.append_assoc] at hgap hword
    have hlexed := Lexed.token hgap hword hlongest hls
    refine ⟨_, by simpa using hlexed, ?_⟩
    have hbefore : before ++ gap ++ word ++ text = before ++ (gap ++ word ++ text) := by simp
    rw [List.mapM_cons, herror, hbefore]
    rfl

end Lexing

/-- The scanner fails exactly if it comes, after tokens and gaps only, to a character that begins
neither: a quote that is not closed, or a character outside of the alphabet. That character is
reported where it stands. Apart from such characters nothing keeps a text from being cut into
lexemes to its end. -/
theorem scan_fails_at_stray (source : String) :
    (∀ s, scan source = .error s ↔ ∃ before after, source.toList = before ++ s.char :: after ∧
      Covered before (s.char :: after) ∧ NoGap (s.char :: after) ∧ Astray s.char after ∧
      s.position = Position.ofOffset source (Text.size before) ∧
      s.span = ⟨Text.size before, Text.size before + s.char.utf8Size⟩) ∧
    ∃ ls, Lexed [] source.toList ls ∧ scan source = ls.mapM id := by
  have hscan : ∀ {ls}, Lexed [] source.toList ls → scan source = ls.mapM id :=
    fun h => scanFrom_of_lexed h (Nat.le_refl _)
  have hposition : ∀ {before after : List Char}, source.toList = before ++ after →
      Position.ofOffset source (Text.size before) = Position.origin.advance before := by
    intro before after hsource
    rw [← Position.offset_origin_advance]
    exact Position.ofOffset_advance hsource
  obtain ⟨ls, hls⟩ := exists_lexed [] source.toList
  refine ⟨fun s => ⟨fun hs => ?_, ?_⟩, ls, hls, hscan hls⟩
  · obtain ⟨before, after, hsource, hcovered, hno, hc, hpos⟩ :=
      covered_of_lexed hls (hscan hls ▸ hs)
    rw [List.nil_append] at hpos
    refine ⟨before, after, hsource, hcovered, hno, hc, hpos.trans (hposition hsource).symm, ?_⟩
    rw [Stray.span, hpos, Position.offset_origin_advance]
  · rintro ⟨before, after, hsource, hcovered, hno, hc, hpos, -⟩
    obtain ⟨ls', hls', herror⟩ := exists_lexed_of_covered hcovered hno hc []
    rw [← hsource] at hls'
    rw [hscan hls', herror, List.nil_append, ← hposition hsource, ← hpos]

/-- A comment that is not closed is none, so that the quote in it is stray. -/
example : scan "x /* 'a\"" = .error ⟨'\'', ⟨5, 1, 6⟩⟩ := by
  rfl

end Chalkboard
