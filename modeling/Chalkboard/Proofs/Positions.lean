import Mathlib.Data.List.DropRight
import Mathlib.Data.Prod.Lex
import Chalkboard.Proofs.Underlines

/-! # Positions and lines agree

A position is found by a walk over the characters, and the text of a line by cutting at the
newlines. The two fit together: the line of a position can be shown, and the character at the
position stands in it at the column. Positions grow with their offsets, line before column.
-/

namespace Chalkboard

namespace Text

/-- The offset lies between two characters of the text, after those of `left` and before those of
`right`. -/
structure SplitAt (source : String) (offset : Nat) (left right : List Char) : Prop where
  eq : source.toList = left ++ right
  offset : offset = size left

theorem isSome_line?_iff (source : String) (number : Nat) :
    (line? source number).isSome = true ↔ 1 ≤ number ∧ number ≤ 1 + source.toList.count '\n' := by
  cases number with
  | zero => simp [line?]
  | succ n =>
    rw [line?, Option.isSome_map, Option.isSome_iff_ne_none, Ne,
      List.getElem?_eq_none_iff, length_cut]
    omega

theorem SplitAt.exists_between {source : String} {offset offset' : Nat}
    {left right left' right' : List Char} (h : SplitAt source offset left right)
    (h' : SplitAt source offset' left' right') (hlt : offset < offset') :
    ∃ between, between ≠ [] ∧ left' = left ++ between := by
  have hsize : size left < size left' := by
    rw [← h.offset, ← h'.offset]
    exact hlt
  rcases List.append_eq_append_iff.mp (h.eq.symm.trans h'.eq) with
    ⟨between, rfl, -⟩ | ⟨between, rfl, -⟩
  · refine ⟨between, ?_, rfl⟩
    rintro rfl
    rw [List.append_nil] at hsize
    omega
  · rw [size_append] at hsize
    omega

/-- The first character after the beginning of a line is shown there, unless it is a carriage return
at the end of the line. -/
theorem getElem?_dropReturn (before : List Char) {c : Char} {rest : List Char}
    (h : ¬ (c = '\r' ∧ rest = [])) :
    (dropReturn (before ++ c :: rest))[before.length]? = some c := by
  have hshown : (dropReturn (c :: rest)).head? = some c := by
    cases rest with
    | nil =>
      rw [dropReturn_of_ne]
      · rfl
      · rintro hlast
        exact h ⟨Option.some.inj hlast, rfl⟩
    | cons d ds =>
      rw [← List.singleton_append, dropReturn_append _ (List.cons_ne_nil d ds)]
      rfl
  rw [dropReturn_append _ (List.cons_ne_nil c rest), List.getElem?_append_right (Nat.le_refl _),
    Nat.sub_self, ← List.head?_eq_getElem?, hshown]

end Text

namespace Position

open Text

/-- The line and the column, in the order of reading. -/
def place (p : Position) : Lex (Nat × Nat) := toLex (p.line, p.column)

theorem column_origin_advance (left : List Char) :
    (origin.advance left).column = 1 + (left.rtakeWhile (· != '\n')).length := by
  induction left using List.reverseRecOn with
  | nil => rfl
  | append_singleton left c ih =>
    rw [advance_append, advance_cons, advance_nil, step, List.rtakeWhile_concat]
    by_cases hc : c = '\n'
    · simp [hc]
    · simp only [hc, if_false, bne_iff_ne, ne_eq, not_false_eq_true, if_true, ih,
        List.length_append, List.length_singleton]
      omega

theorem place_lt_step (p : Position) (c : Char) : p.place < (p.step c).place := by
  rw [place, place, Prod.Lex.toLex_lt_toLex, step]
  split
  · exact .inl (Nat.lt_succ_self _)
  · exact .inr ⟨rfl, Nat.lt_succ_self _⟩

theorem place_lt_advance (p : Position) {cs : List Char} (h : cs ≠ []) :
    p.place < (p.advance cs).place := by
  induction cs generalizing p with
  | nil => exact absurd rfl h
  | cons c cs ih =>
    rw [advance_cons]
    by_cases hcs : cs = []
    · rw [hcs]
      exact p.place_lt_step c
    · exact (p.place_lt_step c).trans (ih (p.step c) hcs)

theorem ofOffset_of_splitAt {source : String} {offset : Nat} {left right : List Char}
    (h : SplitAt source offset left right) : ofOffset source offset = origin.advance left := by
  rw [h.offset, ← offset_origin_advance]
  exact ofOffset_advance h.eq

/-- By induction on what is before the character: the walk does not stop there, nor in front of the
character, but right after it. -/
theorem seek_within (p : Position) (left : List Char) (c : Char) (right : List Char) {offset : Nat}
    (hlow : p.offset + size left < offset) (hhigh : offset ≤ p.offset + size (left ++ [c])) :
    seek offset p (left ++ c :: right) = p.advance (left ++ [c]) := by
  induction left generalizing p with
  | nil =>
    rw [List.nil_append, seek, if_neg (by simpa using hlow)]
    have hstop : offset ≤ (p.step c).offset := by
      rw [offset_step, ← size_singleton]
      exact hhigh
    cases right with
    | nil => rfl
    | cons d ds => rw [seek, if_pos hstop, List.nil_append, advance_cons, advance_nil]
  | cons d left ih =>
    have hsize : ∀ ds, (p.step d).offset + size ds = p.offset + size (d :: ds) := by
      intro ds
      rw [offset_step, ← List.singleton_append (l := ds), size_append, size_singleton,
        Nat.add_assoc]
    rw [List.cons_append, seek, if_neg (by omega), List.cons_append, advance_cons]
    apply ih
    · rw [hsize]
      exact hlow
    · rw [hsize]
      exact hhigh

theorem seek_past_end (p : Position) (cs : List Char) {offset : Nat}
    (h : p.offset + size cs ≤ offset) : seek offset p cs = p.advance cs := by
  induction cs generalizing p with
  | nil => rfl
  | cons c cs ih =>
    have hsize : p.offset + size (c :: cs) = (p.step c).offset + size cs := by
      rw [offset_step, ← List.singleton_append, size_append, size_singleton, Nat.add_assoc]
    have hpos := c.utf8Size_pos
    have hstep := p.offset_step c
    rw [seek, if_neg (by omega), advance_cons]
    apply ih
    rw [← hsize]
    exact h

theorem ofOffset_inside {source : String} {offset inside : Nat} {left right : List Char} {c : Char}
    (h : SplitAt source offset left (c :: right)) (hlow : offset < inside)
    (hhigh : inside ≤ offset + c.utf8Size) :
    ofOffset source inside = origin.advance (left ++ [c]) := by
  have hoffset : size left = offset := h.offset.symm
  rw [ofOffset, h.eq]
  apply seek_within
  · simpa [origin, hoffset] using hlow
  · simpa [origin, size_append, size_singleton, hoffset] using hhigh

theorem ofOffset_past_end {source : String} {offset : Nat} (h : source.utf8ByteSize ≤ offset) :
    ofOffset source offset = origin.advance source.toList := by
  apply seek_past_end
  rw [size, String.ofList_toList]
  simpa [origin] using h

theorem exists_line_shown {source : String} {left right : List Char}
    (h : source.toList = left ++ right) :
    ∃ line, line? source (origin.advance left).line = some line ∧
      ∀ c rest, right = c :: rest → c ≠ '\n' → ¬ (c = '\r' ∧ ∀ d ∈ rest.head?, d = '\n') →
        line.toList[(origin.advance left).column - 1]? = some c := by
  obtain ⟨above, before, after, below, rfl, rfl, hline, hcolumn, hafter⟩ := exists_lineAt h
  refine ⟨_, line?_of_lineAt hline, ?_⟩
  intro c rest hright hnewline hreturn
  have hshown : after = c :: rest.takeWhile (· != '\n') := by
    rw [hafter, hright, List.takeWhile_cons, if_pos (by simpa using hnewline)]
  rw [String.toList_ofList, hcolumn, Nat.add_sub_cancel, hshown]
  apply getElem?_dropReturn
  rintro ⟨hc, hrest⟩
  apply hreturn
  refine ⟨hc, ?_⟩
  intro d hd
  obtain ⟨ds, rfl⟩ := List.head?_eq_some_iff.mp hd
  by_contra hne
  rw [List.takeWhile_cons, if_pos (by simpa using hne)] at hrest
  cases hrest

end Position

open Text Position

/-- Positions and lines agree. An offset between two characters has the line and the column that the
characters before it say, that line can be shown, and the character at the offset stands in it at
the column, if it is none that ends the line. Positions of such offsets are ordered like the
offsets. Offsets inside of a character count as its end, and offsets past the end of the text as
that end. The lines that can be shown are those from the first to the one after the last newline. -/
theorem positions_agree_with_lines (source : String) :
    (∀ offset left right, SplitAt source offset left right →
      (ofOffset source offset).line = 1 + left.count '\n' ∧
      (ofOffset source offset).column = 1 + (left.rtakeWhile (· != '\n')).length ∧
      ∃ line, line? source (ofOffset source offset).line = some line ∧
        ∀ c rest, right = c :: rest → c ≠ '\n' → ¬ (c = '\r' ∧ ∀ d ∈ rest.head?, d = '\n') →
          line.toList[(ofOffset source offset).column - 1]? = some c) ∧
    StrictMonoOn (fun offset => (ofOffset source offset).place)
      {offset | ∃ left right, SplitAt source offset left right} ∧
    (∀ offset left c right, SplitAt source offset left (c :: right) →
      ∀ inside, offset < inside → inside < offset + c.utf8Size →
        ofOffset source inside = ofOffset source (offset + c.utf8Size)) ∧
    (∀ offset, source.utf8ByteSize ≤ offset →
      ofOffset source offset = ofOffset source source.utf8ByteSize) ∧
    ∀ number, (line? source number).isSome = true ↔
      1 ≤ number ∧ number ≤ 1 + source.toList.count '\n' := by
  refine ⟨?_, ?_, ?_, ?_, isSome_line?_iff source⟩
  · intro offset left right h
    rw [ofOffset_of_splitAt h]
    refine ⟨line_advance .., column_origin_advance left, ?_⟩
    exact exists_line_shown h.eq
  · rintro offset ⟨left, right, h⟩ offset' ⟨left', right', h'⟩ hlt
    obtain ⟨between, hne, rfl⟩ := h.exists_between h' hlt
    dsimp only
    rw [ofOffset_of_splitAt h, ofOffset_of_splitAt h', advance_append]
    exact place_lt_advance _ hne
  · intro offset left c right h inside hlow hhigh
    rw [ofOffset_inside h hlow (Nat.le_of_lt hhigh),
      ofOffset_inside h (Nat.lt_add_of_pos_right c.utf8Size_pos) le_rfl]
  · intro offset h
    rw [ofOffset_past_end h, ofOffset_past_end le_rfl]

/-- Before the last character of a text of three lines, whose last line ends in a carriage
return. -/
theorem positions_agree_with_lines_return :
    SplitAt "é\n\r\nx\r" 5 ['é', '\n', '\r', '\n'] ['x', '\r'] ∧
      (ofOffset "é\n\r\nx\r" 5).line = 3 ∧ (ofOffset "é\n\r\nx\r" 5).column = 1 ∧
      (∃ line, line? "é\n\r\nx\r" 3 = some line ∧ line.toList[0]? = some 'x') ∧
      (ofOffset "é\n\r\nx\r" 0).place < (ofOffset "é\n\r\nx\r" 5).place ∧
      ofOffset "é\n\r\nx\r" 1 = ofOffset "é\n\r\nx\r" 2 ∧
      ofOffset "é\n\r\nx\r" 9 = ofOffset "é\n\r\nx\r" 7 := by
  obtain ⟨hplaces, hgrows, hinside, hend, -⟩ := positions_agree_with_lines "é\n\r\nx\r"
  have hstart : SplitAt "é\n\r\nx\r" 0 [] ['é', '\n', '\r', '\n', 'x', '\r'] := ⟨rfl, rfl⟩
  have hx : SplitAt "é\n\r\nx\r" 5 ['é', '\n', '\r', '\n'] ['x', '\r'] := ⟨rfl, rfl⟩
  obtain ⟨hline, hcolumn, line, hshown, hchar⟩ := hplaces 5 _ _ hx
  rw [hline] at hshown
  rw [hcolumn] at hchar
  exact ⟨hx, hline, hcolumn, ⟨line, hshown, hchar 'x' ['\r'] rfl (by decide) (by simp)⟩,
    hgrows ⟨_, _, hstart⟩ ⟨_, _, hx⟩ (by decide),
    hinside 0 [] 'é' _ hstart 1 (by decide) (by decide), hend 9 (by decide)⟩

end Chalkboard
