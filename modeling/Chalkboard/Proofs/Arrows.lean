import Mathlib.Algebra.Ring.Int.Defs
import Chalkboard.Proofs.WordEnds

/-! # The two spellings of the arrow

Any arrows of a text can be written the other way, and the text has the same tokens. No character of
an arrow belongs to the word before it or to a comment, and none makes the end of a comment. What
comes after an arrow moves by the bytes and, on its line, by the characters that the arrow has
grown.
-/

namespace Chalkboard

def arrows : List (List Char) := [['←'], ['<', '-']]

/-- Texts that differ in how arrows are written, wherever these stand. -/
inductive ArrowVariants : List Char → List Char → Prop where
  | nil : ArrowVariants [] []
  | cons (c : Char) {cs ds : List Char} : ArrowVariants cs ds → ArrowVariants (c :: cs) (c :: ds)
  | arrow {word word' cs ds : List Char} : word ∈ arrows → word' ∈ arrows → ArrowVariants cs ds →
      ArrowVariants (word ++ cs) (word' ++ ds)

namespace ArrowVariants

variable {cs ds : List Char}

theorem append_left (h : ArrowVariants cs ds) (left : List Char) :
    ArrowVariants (left ++ cs) (left ++ ds) := by
  induction left with
  | nil => exact h
  | cons c left ih => exact .cons c ih

theorem head?_of_arrow {word : List Char} (h : word ∈ arrows) (cs : List Char) :
    (word ++ cs).head? = some '←' ∨ (word ++ cs).head? = some '<' := by
  obtain rfl | rfl : word = ['←'] ∨ word = ['<', '-'] := by simpa [arrows] using h
  · exact .inl rfl
  · exact .inr rfl

theorem head?_cases (h : ArrowVariants cs ds) :
    (ds.head? = cs.head? ∧ ArrowVariants cs.tail ds.tail) ∨
    ((cs.head? = some '←' ∨ cs.head? = some '<') ∧
      (ds.head? = some '←' ∨ ds.head? = some '<')) := by
  cases h with
  | nil => exact .inl ⟨rfl, .nil⟩
  | cons c hrest => exact .inl ⟨rfl, hrest⟩
  | arrow hword hword' _ => exact .inr ⟨head?_of_arrow hword _, head?_of_arrow hword' _⟩

theorem any_head? {p : Char → Bool} (h : ArrowVariants cs ds) (hleft : p '←' = false)
    (hless : p '<' = false) : ds.head?.any p = cs.head?.any p := by
  rcases h.head?_cases with ⟨hhead, -⟩ | ⟨hcs, hds⟩
  · rw [hhead]
  · rcases hcs with hcs | hcs <;> rcases hds with hds | hds <;> simp [hcs, hds, hleft, hless]

/-- No arrow runs on where the other one does not. -/
theorem runsOn (h : ArrowVariants cs ds) (token : Token) : token.runsOn ds = token.runsOn cs := by
  have hdigit : ∀ {cs ds : List Char}, ArrowVariants cs ds →
      ds.head?.any Char.isDigit = cs.head?.any Char.isDigit :=
    fun h => h.any_head? (by decide) (by decide)
  cases token with
  | text s => rfl
  | number x real =>
    rcases h.head?_cases with ⟨hhead, htail⟩ | ⟨hcs, hds⟩
    · simp only [Token.runsOn, hhead, hdigit htail]
    · rcases hcs with hcs | hcs <;> rcases hds with hds | hds <;> simp [Token.runsOn, hcs, hds]
  | keyword k => exact h.any_head? (by decide) (by decide)
  | name s => exact h.any_head? (by decide) (by decide)
  | symbol s => exact h.any_head? (by cases s <;> decide) (by cases s <;> decide)

theorem infix_of_arrow {word : List Char} (h : word ∈ arrows) (cs : List Char) :
    ['*', '/'] <:+: word ++ cs ↔ ['*', '/'] <:+: cs := by
  obtain rfl | rfl : word = ['←'] ∨ word = ['<', '-'] := by simpa [arrows] using h
  · simp [List.infix_cons_iff]
  · simp [List.infix_cons_iff]

/-- The end of a comment is in both texts or in neither. -/
theorem infix_iff (h : ArrowVariants cs ds) : ['*', '/'] <:+: ds ↔ ['*', '/'] <:+: cs := by
  induction h with
  | nil => rfl
  | @cons c cs ds h ih =>
    have hslash : ['/'] <+: ds ↔ ['/'] <+: cs := by
      have hhead : ∀ cs : List Char, ['/'] <+: cs ↔ cs.head?.any ('/' == ·) = true := by
        rintro (_ | ⟨c, cs⟩) <;> simp
      rw [hhead, hhead, h.any_head? (by decide) (by decide)]
    rw [List.infix_cons_iff, List.infix_cons_iff, ih, List.cons_prefix_cons,
      List.cons_prefix_cons, hslash]
  | arrow hword hword' _ ih => rw [infix_of_arrow hword', infix_of_arrow hword, ih]

theorem opensComment_cons (c : Char) (cs : List Char) :
    OpensComment (c :: cs) ↔ c = '/' ∨ (c = '*' ∧ ['*', '/'] <:+: cs) := by
  simp [OpensComment]

theorem not_opensComment_of_arrow {word : List Char} (h : word ∈ arrows) (cs : List Char) :
    ¬ OpensComment (word ++ cs) := by
  obtain rfl | rfl : word = ['←'] ∨ word = ['<', '-'] := by simpa [arrows] using h
  · simp [opensComment_cons]
  · simp [opensComment_cons]

theorem opensComment_iff (h : ArrowVariants cs ds) : OpensComment ds ↔ OpensComment cs := by
  cases h with
  | nil => rfl
  | cons c hrest => rw [opensComment_cons, opensComment_cons, hrest.infix_iff]
  | arrow hword hword' _ =>
    exact iff_of_false (not_opensComment_of_arrow hword' _) (not_opensComment_of_arrow hword _)

end ArrowVariants

/-- A comment that a line ends with counts on the end of the line after it, and on nothing else. -/
theorem Gap.congr {gap after after' : List Char} (h : Gap gap after)
    (hend : after = [] ∨ after.head? = some '\n' → after' = [] ∨ after'.head? = some '\n') :
    Gap gap after' := by
  induction h with
  | nil => exact .nil
  | blank hc _ ih => exact .blank hc (ih hend)
  | block hin _ ih => exact .block hin (ih hend)
  | @line body gap after hbody hline _ ih =>
    refine .line hbody ?_ (ih hend)
    cases gap with
    | nil => exact hend hline
    | cons c gap => exact .inr (by simpa using hline)

/-- No line ends where a word begins. -/
theorem Token.Spelled.not_lineEnd {token : Token} {word : List Char} (h : token.Spelled word)
    (rest : List Char) : ¬ (word ++ rest = [] ∨ (word ++ rest).head? = some '\n') := by
  obtain rfl | ⟨c, cs, rfl, -, hblank⟩ := h.slash_or_head
  · simp
  · rintro (hnil | hhead)
    · cases hnil
    · obtain rfl : c = '\n' := by simpa using hhead
      exact absurd hblank (by decide)

section Respelling

variable (source : String) (chosen : Located → Bool)

/-- The arrow that is not written like this one. -/
def otherArrow (word : String) : String := if word = "←" then "<-" else "←"

/-- The word of a token, written the other way if it is one of the chosen arrows. -/
def Located.respelled (t : Located) : String :=
  if t.token.kind = .assignment ∧ chosen t = true then otherArrow (t.word source) else t.word source

/-- The text from an offset on, which the given tokens were read from, with the chosen arrows
written the other way. -/
def respelledFrom : Nat → List Located → String
  | start, [] => Text.slice source ⟨start, source.utf8ByteSize⟩
  | start, t :: ts => Text.slice source ⟨start, t.span.start⟩ ++ t.respelled source chosen ++
      respelledFrom t.span.stop ts

def byteGrowth (ts : List Located) : Int :=
  (ts.map fun t => ((t.respelled source chosen).utf8ByteSize : Int) -
    (t.word source).utf8ByteSize).sum

def charGrowth (ts : List Located) : Int :=
  (ts.map fun t => ((t.respelled source chosen).length : Int) - (t.word source).length).sum

/-- The same place in the text and in the text with other arrows, behind the given tokens. -/
structure Shifted (done : List Located) (p p' : Position) : Prop where
  offset : (p'.offset : Int) = p.offset + byteGrowth source chosen done
  line : p'.line = p.line
  column : (p'.column : Int) = p.column + charGrowth source chosen (done.filter (·.line = p.line))
  passed : ∀ t ∈ done, t.line ≤ p.line

variable {source chosen} {done : List Located} {p p' : Position}

theorem byteGrowth_append (ts us : List Located) :
    byteGrowth source chosen (ts ++ us) =
    byteGrowth source chosen ts + byteGrowth source chosen us := by
  simp [byteGrowth]

theorem charGrowth_append (ts us : List Located) :
    charGrowth source chosen (ts ++ us) =
    charGrowth source chosen ts + charGrowth source chosen us := by
  simp [charGrowth]

namespace Shifted

variable (h : Shifted source chosen done p p')

include h

/-- A new line has none of the tokens before it. -/
theorem step (c : Char) : Shifted source chosen done (p.step c) (p'.step c) := by
  obtain ⟨hoffset, hline, hcolumn, hpassed⟩ := h
  by_cases hc : c = '\n'
  · have hnone : done.filter (·.line = p.line + 1) = [] := by
      rw [List.filter_eq_nil_iff]
      intro t ht
      have := hpassed t ht
      simp
      omega
    constructor
    · simp only [Position.offset_step]
      omega
    · simp [Position.line_step, hline]
    · simp [Position.step, hc, hnone, charGrowth]
    · intro t ht
      have := hpassed t ht
      rw [Position.line_step]
      omega
  · constructor
    · simp only [Position.offset_step]
      omega
    · simp [Position.line_step, hline]
    · simp only [Position.step, hc, if_false]
      omega
    · intro t ht
      have := hpassed t ht
      rw [Position.line_step]
      omega

theorem advance (cs : List Char) : Shifted source chosen done (p.advance cs) (p'.advance cs) := by
  induction cs generalizing p p' with
  | nil => exact h
  | cons c cs ih => exact ih (h.step c)

end Shifted

theorem Position.advance_arrow {word : List Char} (h : word ∈ arrows) (p : Position) :
    p.advance word = ⟨p.offset + Text.size word, p.line, p.column + word.length⟩ := by
  obtain rfl | rfl : word = ['←'] ∨ word = ['<', '-'] := by simpa [arrows] using h
  · rfl
  · rfl

/-- A word and how it is written now: as before, or with the one arrow for the other. -/
inductive Respells (t : Located) : (word word' : List Char) → Prop where
  | same (word : List Char) : Respells t word word
  | arrow {word word' : List Char} : t.token = .symbol .assign → word ∈ arrows → word' ∈ arrows →
      Respells t word word'

theorem Token.eq_assign_of_kind {token : Token} (h : token.kind = .assignment) :
    token = .symbol .assign := by
  cases token with
  | symbol s => cases s <;> first | rfl | cases h
  | number x real => cases real <;> cases h
  | _ => cases h

section Words

variable {t : Located} {word word' : List Char}

theorem mem_arrows_iff : word ∈ arrows ↔ (Token.symbol .assign).Spelled word := by
  rw [Token.spelled_symbol_iff]
  simp [arrows, Symbol.text]

theorem respells_toList (hword : t.word source = String.ofList word) (h : t.token.Spelled word) :
    Respells t word (t.respelled source chosen).toList := by
  unfold Located.respelled
  split
  · rename_i hchosen
    have htoken := Token.eq_assign_of_kind hchosen.1
    rw [htoken] at h
    refine .arrow htoken (mem_arrows_iff.mpr h) ?_
    unfold otherArrow
    split <;> simp [arrows]
  · rw [hword, String.toList_ofList]
    exact .same word

theorem Respells.spelled (h : Respells t word word') (hword : t.token.Spelled word) :
    t.token.Spelled word' := by
  cases h with
  | same => exact hword
  | arrow htoken _ hword' =>
    rw [htoken]
    exact mem_arrows_iff.mp hword'

theorem Respells.variants (h : Respells t word word') {cs ds : List Char}
    (hrest : ArrowVariants cs ds) : ArrowVariants (word ++ cs) (word' ++ ds) := by
  cases h with
  | same => exact hrest.append_left word
  | arrow _ hword hword' => exact .arrow hword hword' hrest

/-- What comes after the word are variants, which do not run on either and open no comment, and the
gap in front of it does not count on how the word is spelled. -/
theorem Respells.lexed {before gap rest rest' : List Char} {ls : List (Except Stray Located)}
    (h : Respells t word word') (hgap : Gap gap (word ++ rest)) (hno : NoGap (word ++ rest))
    (hlongest : t.token.Longest word rest) (hrest : ArrowVariants rest rest')
    (hlexed : Lexed (before ++ gap ++ word') rest' ls) :
    Lexed before (gap ++ word' ++ rest') (.ok ⟨t.token, Position.origin.advance (before ++ gap),
      Text.size (before ++ gap ++ word')⟩ :: ls) := by
  have hspelled := h.spelled hlongest.spelled
  have hruns : t.token.runsOn rest' = false := by
    rw [hrest.runsOn]
    exact hlongest.spelled.longest_iff.mp hlongest
  have hno' : NoGap (word' ++ rest') := by
    refine hspelled.noGap_iff.mpr ?_
    rintro rfl
    rw [hrest.opensComment_iff]
    cases h with
    | same => exact hlongest.spelled.noGap_iff.mp hno rfl
    | arrow _ _ hword' => exact absurd hword' (by decide)
  have hgap' : Gap gap (word' ++ rest') :=
    hgap.congr fun hend => absurd hend (hlongest.spelled.not_lineEnd rest)
  exact .token hgap' hno' (hspelled.longest_iff.mpr hruns) hlexed

theorem Respells.shifted (h : Respells t word word') (hword : t.word source = String.ofList word)
    (hword' : t.respelled source chosen = String.ofList word')
    (hp : Shifted source chosen done t.start p') :
    Shifted source chosen (done ++ [t]) (t.start.advance word) (p'.advance word') := by
  have hbytes : byteGrowth source chosen [t] = (Text.size word' : Int) - Text.size word := by
    simp [byteGrowth, hword, hword', Text.size]
  have hchars : charGrowth source chosen [t] = (word'.length : Int) - word.length := by
    simp [charGrowth, hword, hword']
  have hpassed : ∀ u ∈ done ++ [t], u.line ≤ (t.start.advance word).line := by
    intro u hu
    rw [Position.line_advance]
    rcases List.mem_append.mp hu with hu | hu
    · exact Nat.le_add_right_of_le (hp.passed u hu)
    · obtain rfl := List.mem_singleton.mp hu
      exact Nat.le_add_right _ _
  cases h with
  | same =>
    obtain ⟨hoffset, hline, hcolumn, -⟩ := hp.advance word
    have hnone : charGrowth source chosen ([t].filter (·.line = (t.start.advance word).line)) =
        0 := by
      rw [List.filter_singleton]
      cases decide (t.line = (t.start.advance word).line) with
      | true =>
        rw [cond_true, hchars]
        omega
      | false => rfl
    refine ⟨?_, hline, ?_, hpassed⟩
    · rw [byteGrowth_append]
      omega
    · rw [List.filter_append, charGrowth_append, hnone]
      omega
  | arrow _ ha ha' =>
    have hhere : [t].filter (·.line = t.start.line) = [t] := by simp [Located.line]
    obtain ⟨hoffset, hline, hcolumn, -⟩ := hp
    rw [Position.advance_arrow ha] at hpassed ⊢
    rw [Position.advance_arrow ha']
    refine ⟨?_, hline, ?_, hpassed⟩
    · rw [byteGrowth_append]
      push_cast
      omega
    · rw [List.filter_append, charGrowth_append, hhere]
      push_cast
      omega

end Words

/-- How far the tokens have moved in the text with other arrows. -/
def Moved (source : String) (chosen : Located → Bool) (done ts us : List Located) : Prop :=
  ∀ i t u, ts[i]? = some t → us[i]? = some u →
    Shifted source chosen (done ++ ts.take i) t.start u.start ∧
    (u.stop : Int) = t.stop + byteGrowth source chosen (done ++ ts.take (i + 1))

theorem Moved.cons {t u : Located} {ts us : List Located}
    (hstart : Shifted source chosen done t.start u.start)
    (hstop : (u.stop : Int) = t.stop + byteGrowth source chosen (done ++ [t]))
    (h : Moved source chosen (done ++ [t]) ts us) :
    Moved source chosen done (t :: ts) (u :: us) := by
  rintro (_ | i) t' u' ht hu
  · cases ht
    cases hu
    simpa using ⟨hstart, hstop⟩
  · simpa using h i t' u' ht hu

/-- Token by token, with the tokens that are done and the same place in both texts behind them. -/
theorem lexed_respelled {before rest before' : List Char} {ts : List Located}
    (h : Lexed before rest (ts.map .ok)) (hsource : source.toList = before ++ rest)
    (hbefore : Shifted source chosen done (Position.origin.advance before)
      (Position.origin.advance before')) :
    ∃ us, Lexed before' (respelledFrom source chosen (Text.size before) ts).toList (us.map .ok) ∧
      ArrowVariants rest (respelledFrom source chosen (Text.size before) ts).toList ∧
      us.map Located.token = ts.map Located.token ∧ Moved source chosen done ts us := by
  generalize hls : ts.map Except.ok = ls at h
  induction h generalizing ts done before' with
  | @done before gap hgap =>
    obtain rfl := List.map_eq_nil_iff.mp hls
    have hsize : source.utf8ByteSize = Text.size (before ++ gap) := by
      rw [← hsource, Text.size, String.ofList_toList]
    have hslice := Text.slice_eq (show source.toList = before ++ gap ++ [] by simpa using hsource)
    rw [respelledFrom, hsize, hslice, String.toList_ofList]
    refine ⟨[], .done hgap, ?_, rfl, by simp [Moved]⟩
    simpa using ArrowVariants.nil.append_left gap
  | @token before gap word rest token ls hgap hno hlongest _ ih =>
    obtain ⟨t, ts, rfl, ht, hts⟩ := List.map_eq_cons_iff.mp hls
    rw [← List.append_assoc, ← List.append_assoc] at hsource
    have hslice :=
      Text.slice_eq (show source.toList = before ++ gap ++ (word ++ rest) by simpa using hsource)
    have hword := Located.word_eq hsource token
    rw [← Except.ok.inj ht] at hword
    obtain ⟨rfl, hstart, hstop⟩ : t.token = token ∧
      t.start = Position.origin.advance (before ++ gap) ∧
        t.stop = Text.size (before ++ gap ++ word) := by
      rw [Except.ok.inj ht]
      exact ⟨rfl, rfl, rfl⟩
    have hres : Respells t word (t.respelled source chosen).toList :=
      respells_toList hword hlongest.spelled
    have hhere : Shifted source chosen done t.start (Position.origin.advance (before' ++ gap)) := by
      rw [hstart, Position.advance_append, Position.advance_append]
      exact hbefore.advance gap
    have hnext := hres.shifted hword (String.ofList_toList).symm hhere
    rw [hstart, ← Position.advance_append, ← Position.advance_append] at hnext
    obtain ⟨us, hus, hvariants, htokens, hmoved⟩ := ih hsource hnext hts
    have hlexed := hres.lexed hgap hno hlongest hvariants hus
    have htext : (respelledFrom source chosen (Text.size before) (t :: ts)).toList =
        gap ++ (t.respelled source chosen).toList ++
          (respelledFrom source chosen (Text.size (before ++ gap ++ word)) ts).toList := by
      rw [respelledFrom, Located.span, hstart, Position.offset_origin_advance, hslice, hstop,
        String.toList_append, String.toList_append, String.toList_ofList]
    rw [htext]
    refine ⟨_ :: us, hlexed, ?_, congrArg (t.token :: ·) htokens, .cons hhere ?_ hmoved⟩
    · rw [List.append_assoc, List.append_assoc]
      exact (hres.variants hvariants).append_left gap
    · have hoffset := hnext.offset
      rwa [Position.offset_origin_advance, Position.offset_origin_advance, ← hstop] at hoffset
  | stray _ _ _ _ _ =>
    obtain ⟨t, ts, rfl, ht, -⟩ := List.map_eq_cons_iff.mp hls
    cases ht

end Respelling

/-- A text with any of its arrows written the other way has the same tokens. Each begins and ends as
many bytes later as the arrows before have grown, on the same line, and as many characters further
to the right as the arrows before it on that line have grown. -/
theorem scan_respelled (source : String) (ts : List Located) (h : scan source = .ok ts)
    (chosen : Located → Bool) :
    ∃ us, scan (respelledFrom source chosen 0 ts) = .ok us ∧
      us.map Located.token = ts.map Located.token ∧
      ∀ i t u, ts[i]? = some t → us[i]? = some u →
        (u.span.start : Int) = t.span.start + byteGrowth source chosen (ts.take i) ∧
        (u.span.stop : Int) = t.span.stop + byteGrowth source chosen (ts.take (i + 1)) ∧
        u.line = t.line ∧
        (u.start.column : Int) = t.start.column +
          charGrowth source chosen ((ts.take i).filter (·.line = t.line)) := by
  have hstart : Shifted source chosen [] (Position.origin.advance [])
    (Position.origin.advance []) :=
    ⟨rfl, rfl, rfl, by simp⟩
  obtain ⟨us, hus, -, htokens, hmoved⟩ := lexed_respelled (scan_eq_ok_iff.mp h) rfl hstart
  refine ⟨us, scan_eq_ok_iff.mpr hus, htokens, ?_⟩
  intro i t u ht hu
  obtain ⟨hshifted, hstop⟩ := hmoved i t u ht hu
  exact ⟨hshifted.offset, hstop, hshifted.line, hshifted.column⟩

/-- The arrow after `<` loses a byte and gains a character, the one after `b` the other way round,
and the one on the second line stays. -/
theorem scan_respelled_after_less :
    ∃ ts, scan "a<←-b<-c\n<-d" = .ok ts ∧
      respelledFrom "a<←-b<-c\n<-d" (·.line = 1) 0 ts = "a<<--b←c\n<-d" ∧
      ∃ us, scan "a<<--b←c\n<-d" = .ok us ∧ us.map Located.token = ts.map Located.token := by
  have hscan : scan "a<←-b<-c\n<-d" = .ok [⟨.name "a", ⟨0, 1, 1⟩, 1⟩, ⟨.symbol .less, ⟨1, 1, 2⟩, 2⟩,
      ⟨.symbol .assign, ⟨2, 1, 3⟩, 5⟩, ⟨.symbol .minus, ⟨5, 1, 4⟩, 6⟩, ⟨.name "b", ⟨6, 1, 5⟩, 7⟩,
      ⟨.symbol .assign, ⟨7, 1, 6⟩, 9⟩, ⟨.name "c", ⟨9, 1, 8⟩, 10⟩,
      ⟨.symbol .assign, ⟨11, 2, 1⟩, 13⟩, ⟨.name "d", ⟨13, 2, 3⟩, 14⟩] := rfl
  obtain ⟨us, hus, htokens, -⟩ := scan_respelled _ _ hscan (·.line = 1)
  exact ⟨_, hscan, rfl, us, hus, htokens⟩

end Chalkboard
