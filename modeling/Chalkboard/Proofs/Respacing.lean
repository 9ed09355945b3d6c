import Chalkboard.Error
import Chalkboard.Proofs.FreeLayout
import Chalkboard.Proofs.WordEnds

/-! # Spacing

The words of a text can be set apart by any blanks, with the comments left out, and are read as the
same tokens again. The program stays the same with them, as long as no name moves onto the line of a
`NEXT` before it or away from there.
-/

namespace Chalkboard

def IsSpace (s : String) : Prop := ∀ c ∈ s.toList, isBlank c = true

instance (s : String) : Decidable (IsSpace s) := List.decidableBAll _ s.toList

/-- Words with a piece of text after each of them, and one in front of them all. -/
def spaced (first : String) : List (String × String) → String
  | [] => first
  | (word, gap) :: pieces => first ++ word ++ spaced gap pieces

/-- Nothing follows, or a blank. -/
def EndsWord (rest : List Char) : Prop := ∀ c ∈ rest.head?, isBlank c = true

section Blanks

variable {rest : List Char} (h : EndsWord rest)

include h

theorem EndsWord.not_opensComment : ¬ OpensComment rest := by
  rintro (hline | ⟨inside, rfl, -⟩)
  · exact absurd (h '/' hline) (by decide)
  · exact absurd (h '*' rfl) (by decide)

theorem EndsWord.runsOn (token : Token) : token.runsOn rest = false := by
  cases rest with
  | nil => cases token <;> simp [Token.runsOn]
  | cons c rest =>
    have hblank : isBlank c = true := h c rfl
    have hword : Scanner.continuesWord c = false := by
      rw [Bool.eq_false_iff]
      intro hc
      rw [(Scanner.beginsNone_of_continuesWord hc).2.2] at hblank
      cases hblank
    have hdigit : c.isDigit = false := by
      rw [continuesWord_eq, Bool.or_eq_false_iff] at hword
      exact hword.2
    have hpoint : c ≠ '.' := by
      rintro rfl
      exact absurd hblank (by decide)
    have hcontinuation : ∀ s : Symbol, c ∉ s.continuations := by
      intro s hs
      cases s <;> simp [Symbol.continuations] at hs
      all_goals rcases hs with rfl | rfl | rfl <;> exact absurd hblank (by decide)
    cases token <;> simp [Token.runsOn, hword, hdigit, hpoint, hcontinuation]

end Blanks

namespace IsSpace

variable {s : String} (h : IsSpace s)

include h

theorem endsWord : EndsWord s.toList :=
  fun c hc => h c (List.mem_of_mem_head? hc)

theorem gap (after : List Char) : Gap s.toList after := by
  have hgap := Scanner.gap_of_blanks h (.nil : Gap [] after)
  rwa [List.append_nil] at hgap

theorem endsWord_append (hne : s ≠ "") (rest : List Char) : EndsWord (s.toList ++ rest) := by
  intro c hc
  cases hcs : s.toList with
  | nil => exact absurd (String.toList_eq_nil_iff.mp hcs) hne
  | cons d cs =>
    obtain rfl : d = c := by simpa [hcs] using hc
    exact h d (by simp [hcs])

end IsSpace

/-- Spaces to be set behind the words of a text, those between two words not empty. -/
structure Spacing (gaps : List String) : Prop where
  blank : ∀ gap ∈ gaps, IsSpace gap
  apart : ∀ gap ∈ gaps.dropLast, gap ≠ ""

theorem Spacing.tail {gap : String} {gaps : List String} (h : Spacing (gap :: gaps)) :
    Spacing gaps where
  blank other hother := h.blank other (List.mem_cons_of_mem gap hother)
  apart other hother := by
    refine h.apart other ?_
    cases gaps with
    | nil => cases hother
    | cons next gaps => exact List.mem_cons_of_mem gap hother

theorem Spacing.endsWord {gap : String} {gaps words : List String} (h : Spacing (gap :: gaps))
    (hlength : gaps.length = words.length) : EndsWord (spaced gap (words.zip gaps)).toList := by
  have hblank : IsSpace gap := h.blank gap List.mem_cons_self
  cases gaps with
  | nil =>
    rw [List.zip_nil_right]
    exact hblank.endsWord
  | cons next gaps =>
    cases words with
    | nil => cases hlength
    | cons word words =>
      rw [List.zip_cons_cons, spaced, String.append_assoc, String.toList_append]
      exact hblank.endsWord_append (h.apart gap (by simp)) _

/-- Each token spans the copy of its word, in a text that begins after `before`. -/
def SpansCopies (before : List Char) (first : String) (pieces : List (String × String))
    (us : List Located) : Prop :=
  ∀ (i : Nat) (word gap : String) (u : Located), pieces[i]? = some (word, gap) → us[i]? = some u →
    let start := Text.size before + (spaced first (pieces.take i)).utf8ByteSize
    u.span = ⟨start, start + word.utf8ByteSize⟩

theorem SpansCopies.cons {before word : List Char} {first gap : String}
    {pieces : List (String × String)} {token : Token} {us : List Located}
    (h : SpansCopies (before ++ first.toList ++ word) gap pieces us) :
    SpansCopies before first ((String.ofList word, gap) :: pieces)
      (⟨token, Position.origin.advance (before ++ first.toList),
        Text.size (before ++ first.toList ++ word)⟩ :: us) := by
  have hfirst : Text.size first.toList = first.utf8ByteSize := by
    rw [Text.size, String.ofList_toList]
  have hword : Text.size word = (String.ofList word).utf8ByteSize := rfl
  rintro (_ | i) word' gap' u hpiece hu
  · cases hpiece
    cases hu
    simp only [Located.span, Position.offset_origin_advance, Text.size_append, hfirst, hword,
      List.take_zero, spaced]
  · have hspan := h i word' gap' u hpiece hu
    simp only [Text.size_append, hfirst, hword] at hspan
    simp only [hspan, List.take_succ_cons, spaced, String.utf8ByteSize_append, Span.mk.injEq]
    omega

/-- The words of a text are read again one by one: the text after each of them is another one now,
but it does not run on, and it makes no comment of a slash. -/
theorem lexed_spaced {source : String} {before rest : List Char} {ts : List Located}
    (h : Lexed before rest (ts.map .ok)) (hsource : source.toList = before ++ rest) :
    ∀ {first : String} {gaps : List String} (before' : List Char), IsSpace first → Spacing gaps →
      gaps.length = ts.length →
      ∃ us, Lexed before' (spaced first ((ts.map (·.word source)).zip gaps)).toList (us.map .ok) ∧
        us.map Located.token = ts.map Located.token ∧
        SpansCopies before' first ((ts.map (·.word source)).zip gaps) us := by
  generalize hls : ts.map Except.ok = ls at h
  induction h generalizing ts with
  | done hgap =>
    intro first gaps before' hfirst _ _
    obtain rfl := List.map_eq_nil_iff.mp hls
    exact ⟨[], .done (hfirst.gap []), rfl, by simp [SpansCopies]⟩
  | @token before gap word rest token ls _ _ hlongest _ ih =>
    intro first gaps before' hfirst hgaps hlength
    obtain ⟨t, ts, rfl, ht, hts⟩ := List.map_eq_cons_iff.mp hls
    cases ht
    cases gaps with
    | nil => cases hlength
    | cons next gaps =>
      have hlength : gaps.length = ts.length := Nat.succ.inj hlength
      rw [← List.append_assoc, ← List.append_assoc] at hsource
      have hword := Located.word_eq hsource token
      obtain ⟨us, hus, htokens, hspans⟩ := ih hsource hts (before' ++ first.toList ++ word)
        (hgaps.blank next List.mem_cons_self) hgaps.tail hlength
      have hends : EndsWord (spaced next ((ts.map (·.word source)).zip gaps)).toList :=
        hgaps.endsWord (by simpa using hlength)
      have hno : NoGap (word ++ _) := hlongest.spelled.noGap_iff.mpr fun _ => hends.not_opensComment
      have hlongest' := hlongest.spelled.longest_iff.mpr (hends.runsOn token)
      have hlexed := Lexed.token (hfirst.gap _) hno hlongest' hus
      rw [List.map_cons, List.zip_cons_cons, hword, spaced, String.toList_append,
        String.toList_append, String.toList_ofList]
      exact ⟨_ :: us, hlexed, congrArg (token :: ·) htokens, hspans.cons⟩
  | stray _ _ _ _ _ =>
    obtain ⟨t, ts, rfl, ht, -⟩ := List.map_eq_cons_iff.mp hls
    cases ht

/-- Tokens are read as the same program wherever they stand, if names keep to the line of a `NEXT`
before them or to another one. -/
theorem parse_eq_ok_iff_of_agreeAfterNext {ts us : List Located}
    (htokens : us.map Located.token = ts.map Located.token) (hnext : AgreeAfterNext ts us)
    (size size' : Nat) (p : Program) :
    Program.parse size' us = .ok p ↔ Program.parse size ts = .ok p := by
  have hres := Parser.Similar.program (fun _ _ => rfl) Parser.nestingLimit _ _
    (Parser.alike_of_agreeAfterNext htokens hnext)
  simp only [Program.parse, Parser.parse]
  generalize Parser.program Parser.nestingLimit ts = r at hres ⊢
  generalize Parser.program Parser.nestingLimit us = r' at hres ⊢
  cases hres with
  | ok => rw [Program.rename_id]
  | stuck => constructor <;> rintro ⟨⟩

theorem Program.ofSource_eq_ok_iff {source : String} {ts : List Located} (h : scan source = .ok ts)
    (p : Program) :
    Program.ofSource source = .ok p ↔ Program.parse source.utf8ByteSize ts = .ok p := by
  simp only [Program.ofSource, h]
  cases Program.parse source.utf8ByteSize ts with
  | ok q => simp only [Except.ok.injEq]
  | error e => constructor <;> rintro ⟨⟩

/-- If the words of a text are set apart by blanks in any other way, they are read as the same
tokens, each from the copy of its word. They make up the same program if they agree on what is on
the line of a `NEXT`. -/
theorem scan_spaced (source : String) (ts : List Located) (h : scan source = .ok ts)
    (first : String) (gaps : List String) (hfirst : IsSpace first) (hgaps : Spacing gaps)
    (hlength : gaps.length = ts.length) :
    let pieces := (ts.map (·.word source)).zip gaps
    ∃ us, scan (spaced first pieces) = .ok us ∧ us.map Located.token = ts.map Located.token ∧
      (∀ i t u, ts[i]? = some t → us[i]? = some u →
        let start := (spaced first (pieces.take i)).utf8ByteSize
        u.span = ⟨start, start + (t.word source).utf8ByteSize⟩) ∧
      (AgreeAfterNext ts us → ∀ p,
        Program.ofSource (spaced first pieces) = .ok p ↔ Program.ofSource source = .ok p) := by
  intro pieces
  obtain ⟨us, hus, htokens, hspans⟩ :=
    lexed_spaced (scan_eq_ok_iff.mp h) rfl [] hfirst hgaps hlength
  have hscan : scan (spaced first pieces) = .ok us := scan_eq_ok_iff.mpr hus
  refine ⟨us, hscan, htokens, ?_, ?_⟩
  · intro i t u ht hu
    have hi : i < gaps.length := by
      rw [hlength]
      exact (List.getElem?_eq_some_iff.mp ht).1
    have hpiece : pieces[i]? = some (t.word source, gaps[i]) := by
      simp [pieces, List.getElem?_zip_eq_some, ht, hi]
    simpa using hspans i _ _ u hpiece hu
  · intro hnext p
    rw [Program.ofSource_eq_ok_iff hscan, Program.ofSource_eq_ok_iff h]
    exact parse_eq_ok_iff_of_agreeAfterNext htokens hnext _ _ p

/-- The tokens of `FOR i<-a TO b NEXT i`. -/
def closedLoop : List Located :=
  [⟨.keyword .FOR, ⟨0, 1, 1⟩, 3⟩, ⟨.name "i", ⟨4, 1, 5⟩, 5⟩, ⟨.symbol .assign, ⟨5, 1, 6⟩, 7⟩,
    ⟨.name "a", ⟨7, 1, 8⟩, 8⟩, ⟨.keyword .TO, ⟨9, 1, 10⟩, 11⟩, ⟨.name "b", ⟨12, 1, 13⟩, 13⟩,
    ⟨.keyword .NEXT, ⟨14, 1, 15⟩, 18⟩, ⟨.name "i", ⟨19, 1, 20⟩, 20⟩]

/-- The comment is left out, and lines end everywhere but between `NEXT` and the counter. -/
theorem scan_spaced_lines :
    scan "FOR i<-a TO b NEXT i// end" = .ok closedLoop ∧ IsSpace "" ∧
      Spacing ["\n", "\n", "\n", "\n", "\n", "\n", "\t", ""] ∧
      ∀ p, Program.ofSource "FOR\ni\n<-\na\nTO\nb\nNEXT\ti" = .ok p ↔
        Program.ofSource "FOR i<-a TO b NEXT i// end" = .ok p := by
  have hscan : scan "FOR i<-a TO b NEXT i// end" = .ok closedLoop := rfl
  have hscan' : scan "FOR\ni\n<-\na\nTO\nb\nNEXT\ti" = .ok [⟨.keyword .FOR, ⟨0, 1, 1⟩, 3⟩,
      ⟨.name "i", ⟨4, 2, 1⟩, 5⟩, ⟨.symbol .assign, ⟨6, 3, 1⟩, 8⟩, ⟨.name "a", ⟨9, 4, 1⟩, 10⟩,
      ⟨.keyword .TO, ⟨11, 5, 1⟩, 13⟩, ⟨.name "b", ⟨14, 6, 1⟩, 15⟩, ⟨.keyword .NEXT, ⟨16, 7, 1⟩, 20⟩,
      ⟨.name "i", ⟨21, 7, 6⟩, 22⟩] := rfl
  have hgaps : Spacing ["\n", "\n", "\n", "\n", "\n", "\n", "\t", ""] := ⟨by decide, by decide⟩
  have hfirst : IsSpace "" := by decide
  obtain ⟨us, hus, -, -, hprogram⟩ := scan_spaced _ _ hscan "" _ hfirst hgaps rfl
  refine ⟨hscan, hfirst, hgaps, hprogram ?_⟩
  cases hus.symm.trans hscan'
  intro i next counter next' counter' hnext hcounter hnext' hcounter' htoken _
  -- `NEXT` is the token number six, and nothing comes after the name that follows it.
  rcases i with - | - | - | - | - | - | - | i
  case succ.succ.succ.succ.succ.succ.succ => cases hcounter
  all_goals cases hnext
  all_goals try cases htoken
  cases hcounter
  cases hnext'
  cases hcounter'
  decide

/-- Blanks alone can change a program: with a line end between them, the counter after `NEXT` is
read as a call. -/
theorem respacing_detaches_counter :
    ¬ ∀ source ts first gaps p, scan source = .ok ts → IsSpace first → Spacing gaps →
      gaps.length = ts.length → Program.ofSource source = .ok p →
      Program.ofSource (spaced first ((ts.map (·.word source)).zip gaps)) = .ok p := by
  intro h
  have hscan : scan "FOR i<-a TO b NEXT i" = .ok closedLoop := rfl
  have hgaps : Spacing [" ", " ", " ", " ", " ", " ", "\n", ""] := ⟨by decide, by decide⟩
  have hone : (Program.ofSource "FOR i<-a TO b NEXT i").toOption.map (·.items.length) = some 1 := by
    decide +kernel
  have htwo : (Program.ofSource (spaced "" ((closedLoop.map (·.word "FOR i<-a TO b NEXT i")).zip
      [" ", " ", " ", " ", " ", " ", "\n", ""]))).toOption.map (·.items.length) = some 2 := by
    decide +kernel
  cases hp : Program.ofSource "FOR i<-a TO b NEXT i" with
  | error e =>
    rw [hp] at hone
    cases hone
  | ok p =>
    rw [h _ _ _ _ p hscan (by decide) hgaps rfl hp, ← hp, hone] at htwo
    cases htwo

end Chalkboard
