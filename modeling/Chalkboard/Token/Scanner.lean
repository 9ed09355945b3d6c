import Chalkboard.Text.Basic
import Chalkboard.Token

/-! # Scanning

A text is a sequence of tokens with blanks and comments between them. At each place the first
pattern that fits takes as much as it can. The first character that begins no token is reported.
-/

namespace Chalkboard

/-- A character at which no token begins. -/
structure Stray where
  char : Char
  position : Position
deriving DecidableEq

def Stray.span (s : Stray) : Span := ⟨s.position.offset, s.position.offset + s.char.utf8Size⟩

namespace Scanner

/-- What a pattern took, and the text after it. -/
abbrev Split := List Char × List Char

def blockEnd? : List Char → Option Split
  | [] => none
  | '*' :: '/' :: cs => some (['*', '/'], cs)
  | c :: cs => (blockEnd? cs).map fun (inside, rest) => (c :: inside, rest)

def gap? : List Char → Option Split
  | [] => none
  | '/' :: '/' :: cs =>
    some ('/' :: '/' :: cs.takeWhile (· != '\n'), cs.dropWhile (· != '\n'))
  | '/' :: '*' :: cs => (blockEnd? cs).map fun (inside, rest) => ('/' :: '*' :: inside, rest)
  | c :: cs =>
    if isBlank c then some (c :: cs.takeWhile isBlank, cs.dropWhile isBlank) else none

def gaps : Nat → List Char → Split
  | 0, cs => ([], cs)
  | n + 1, cs =>
    match gap? cs with
    | none => ([], cs)
    | some (gap, rest) =>
      let (more, rest) := gaps n rest
      (gap ++ more, rest)

theorem blockEnd?_append {cs inside rest : List Char} (h : blockEnd? cs = some (inside, rest)) :
    cs = inside ++ rest := by
  fun_induction blockEnd? cs generalizing inside rest with
  | case1 => simp at h
  | case2 cs =>
    obtain ⟨rfl, rfl⟩ := Prod.mk.inj (Option.some.inj h)
    rfl
  | case3 c cs _ ih =>
    obtain ⟨⟨more, rest'⟩, hm, he⟩ := Option.map_eq_some_iff.mp h
    obtain ⟨rfl, rfl⟩ := Prod.mk.inj he
    simp [ih hm]

theorem gap?_append {cs gap rest : List Char} (h : gap? cs = some (gap, rest)) :
    cs = gap ++ rest ∧ gap ≠ [] := by
  unfold gap? at h
  split at h
  · simp at h
  · obtain ⟨rfl, rfl⟩ := Prod.mk.inj (Option.some.inj h)
    simp
  · obtain ⟨⟨inside, rest'⟩, hm, he⟩ := Option.map_eq_some_iff.mp h
    obtain ⟨rfl, rfl⟩ := Prod.mk.inj he
    simp [blockEnd?_append hm]
  · split at h
    · obtain ⟨rfl, rfl⟩ := Prod.mk.inj (Option.some.inj h)
      simp
    · simp at h

theorem gaps_append (n : Nat) (cs : List Char) : cs = (gaps n cs).1 ++ (gaps n cs).2 := by
  fun_induction gaps n cs with
  | case1 => rfl
  | case2 => rfl
  | case3 n cs gap rest h more rest' he ih =>
    rw [he] at ih
    rw [(gap?_append h).1]
    simp [ih]

/-- A token, the characters that spell it, and the text after it. -/
abbrev Match := Token × List Char × List Char

/-- A text literal: everything up to the next quote of the same kind. -/
def quoted? : List Char → Option Match
  | [] => none
  | quote :: cs =>
    if quote = '"' ∨ quote = '\'' then
      let inside := cs.takeWhile (· != quote)
      match cs.dropWhile (· != quote) with
      | [] => none
      | _ :: rest => some (.text (String.ofList inside), quote :: inside ++ [quote], rest)
    else none

theorem quoted?_append {cs spelling rest : List Char} {token : Token}
    (h : quoted? cs = some (token, spelling, rest)) : cs = spelling ++ rest ∧ spelling ≠ [] := by
  unfold quoted? at h
  split at h
  · simp at h
  · rename_i quote cs
    split at h
    · split at h
      · simp at h
      · rename_i d after hd
        simp only [Option.some.injEq, Prod.mk.injEq] at h
        obtain ⟨-, rfl, rfl⟩ := h
        have hq : d = quote := by
          have := List.head?_dropWhile_not (· != quote) cs
          simpa [hd] using this
        have hc := List.takeWhile_append_dropWhile (p := (· != quote)) (l := cs)
        rw [hd, hq] at hc
        exact ⟨by simp [hc], by simp⟩
    · simp at h

def numberOf (digits : List Char) (real : Bool) : Token :=
  .number ((Numeral.double? (String.ofList digits)).getD Double.nan) real

def number? (cs : List Char) : Option Match :=
  let whole := cs.takeWhile Char.isDigit
  let rest := cs.dropWhile Char.isDigit
  if whole = [] then none
  else match rest with
    | '.' :: after =>
      let fraction := after.takeWhile Char.isDigit
      if fraction = [] then some (numberOf whole false, whole, rest)
      else
        let spelling := whole ++ '.' :: fraction
        some (numberOf spelling true, spelling, after.dropWhile Char.isDigit)
    | _ => some (numberOf whole false, whole, rest)

theorem number?_append {cs spelling rest : List Char} {token : Token}
    (h : number? cs = some (token, spelling, rest)) : cs = spelling ++ rest ∧ spelling ≠ [] := by
  have hc := List.takeWhile_append_dropWhile (p := Char.isDigit) (l := cs)
  unfold number? at h
  simp only at h
  split at h
  · simp at h
  · rename_i hw
    split at h
    · rename_i after hr
      split at h
      · simp only [Option.some.injEq, Prod.mk.injEq] at h
        obtain ⟨-, rfl, rfl⟩ := h
        exact ⟨hc.symm, hw⟩
      · simp only [Option.some.injEq, Prod.mk.injEq] at h
        obtain ⟨-, rfl, rfl⟩ := h
        refine ⟨?_, by simp⟩
        rw [hr] at hc
        simp [hc]
    · simp only [Option.some.injEq, Prod.mk.injEq] at h
      obtain ⟨-, rfl, rfl⟩ := h
      exact ⟨hc.symm, hw⟩

def startsWord (c : Char) : Bool := c.isAlpha || c == '_'

def continuesWord (c : Char) : Bool := c.isAlphanum || c == '_'

/-- A word is a keyword if its upper-case form is one, and a name otherwise. -/
def wordToken (word : List Char) : Token :=
  let s := String.ofList word
  match Keyword.ofText? (Text.upper s) with
  | some k => .keyword k
  | none => .name s

def word? : List Char → Option Match
  | [] => none
  | c :: cs =>
    if startsWord c then
      let word := c :: cs.takeWhile continuesWord
      some (wordToken word, word, cs.dropWhile continuesWord)
    else none

theorem word?_append {cs spelling rest : List Char} {token : Token}
    (h : word? cs = some (token, spelling, rest)) : cs = spelling ++ rest ∧ spelling ≠ [] := by
  unfold word? at h
  split at h
  · simp at h
  · split at h
    · simp only [Option.some.injEq, Prod.mk.injEq] at h
      obtain ⟨-, rfl, rfl⟩ := h
      simp
    · simp at h

/-- The spellings of the symbols, the longer before the shorter that begin alike. -/
def spellings : List (List Char × Symbol) :=
  [(['←'], .assign), (['<', '-'], .assign), (['<', '>'], .notEq), (['<', '='], .lessEq),
    (['>', '='], .greaterEq), (['<'], .less), (['>'], .greater), (['='], .eq), (['+'], .plus),
    (['-'], .minus), (['*'], .star), (['/'], .slash), (['&'], .ampersand), (['^'], .caret),
    ([':'], .colon), ([','], .comma), (['('], .leftParen), ([')'], .rightParen),
    (['['], .leftBracket), ([']'], .rightBracket), (['.'], .dot)]

def symbol? (cs : List Char) : Option Match :=
  (spellings.find? fun (spelling, _) => spelling.isPrefixOf cs).map fun (spelling, s) =>
    (.symbol s, spelling, cs.drop spelling.length)

theorem symbol?_append {cs spelling rest : List Char} {token : Token}
    (h : symbol? cs = some (token, spelling, rest)) : cs = spelling ++ rest ∧ spelling ≠ [] := by
  obtain ⟨⟨spelling', s⟩, hf, he⟩ := Option.map_eq_some_iff.mp h
  simp only [Prod.mk.injEq] at he
  obtain ⟨-, rfl, rfl⟩ := he
  have hp := List.find?_some hf
  have hm := List.mem_of_find?_eq_some hf
  obtain ⟨rest', rfl⟩ := List.isPrefixOf_iff_prefix.mp hp
  refine ⟨by simp, ?_⟩
  have : ∀ entry ∈ spellings, entry.1 ≠ [] := by decide
  exact this _ hm

def token? (cs : List Char) : Option Match :=
  quoted? cs <|> number? cs <|> word? cs <|> symbol? cs

theorem token?_append {cs spelling rest : List Char} {token : Token}
    (h : token? cs = some (token, spelling, rest)) : cs = spelling ++ rest ∧ spelling ≠ [] := by
  simp only [token?, Option.orElse_eq_orElse, Option.orElse_eq_or, Option.or_eq_some_iff] at h
  rcases h with h | ⟨-, h | ⟨-, h | ⟨-, h⟩⟩⟩
  · exact quoted?_append h
  · exact number?_append h
  · exact word?_append h
  · exact symbol?_append h

/-- The tokens of a text of at most `n` characters that begins at `p`. -/
def scanFrom : Nat → Position → List Char → Except Stray (List Located)
  | 0, _, _ => .ok []
  | n + 1, p, cs =>
    let (gap, cs) := gaps (n + 1) cs
    let p := p.advance gap
    match cs with
    | [] => .ok []
    | c :: _ =>
      match token? cs with
      | none => .error ⟨c, p⟩
      | some (token, spelling, rest) =>
        let next := p.advance spelling
        match scanFrom n next rest with
        | .error stray => .error stray
        | .ok tokens => .ok (⟨token, p, next.offset⟩ :: tokens)

end Scanner

def scan (source : String) : Except Stray (List Located) :=
  let cs := source.toList
  Scanner.scanFrom cs.length .origin cs

end Chalkboard
