import Chalkboard.Diagnostic.Render
import Chalkboard.Error
import Chalkboard.Proofs.FirstOffender
import Chalkboard.Proofs.TextLines
import Chalkboard.Proofs.WordEnds

/-! # Underlined text

A label is shown as five rows: its place, the line that it begins on with the carets under it, and
an empty row above and below. The carets stand under the characters of the line that belong to the
span, as far as the line is shown. The label of an error that has a line begins at the offending
word, and its carets stand under the first line of that word.
-/

namespace Chalkboard

namespace Text

/-- The number of characters of a span on a part of the text that begins after `above`. -/
def covered (span : Span) (above shown : List Char) : Nat :=
  (List.range shown.length).countP fun k =>
    span.start ≤ size (above ++ shown.take k) ∧ size (above ++ shown.take k) < span.stop

theorem prefix_dropReturn (cs : List Char) : dropReturn cs <+: cs := by
  unfold dropReturn
  split
  · exact List.dropLast_prefix cs
  · exact List.prefix_rfl

theorem dropReturn_of_ne {cs : List Char} (h : cs.getLast? ≠ some '\r') : dropReturn cs = cs := by
  unfold dropReturn
  split
  · exact absurd ‹_› h
  · rfl

/-- The end of a line is the end of its last part. -/
theorem dropReturn_append (cs : List Char) {ds : List Char} (h : ds ≠ []) :
    dropReturn (cs ++ ds) = cs ++ dropReturn ds := by
  have hlast : (cs ++ ds).getLast? = ds.getLast? := by
    rw [List.getLast?_append_of_ne_nil _ h]
  unfold dropReturn
  rw [hlast]
  split
  · exact List.dropLast_append_of_ne_nil h
  · rfl

theorem dropReturn_ne_nil {c : Char} {cs : List Char} (h : c ≠ '\r') :
    dropReturn (c :: cs) ≠ [] := by
  unfold dropReturn
  split
  · rename_i hlast
    cases cs with
    | nil => exact absurd (Option.some.inj hlast) h
    | cons d ds => simp
  · simp

/-- The first line of a word as it is shown: without the carriage return before its first
newline. -/
def firstLine (word : List Char) : List Char :=
  if '\n' ∈ word then dropReturn (word.takeWhile (· != '\n')) else word

theorem firstLine_ne_nil {word : List Char} (h : ∃ c cs, word = c :: cs ∧ isBlank c = false) :
    firstLine word ≠ [] := by
  obtain ⟨c, cs, rfl, hc⟩ := h
  have hnewline : (c != '\n') = true := by
    rw [bne_iff_ne]
    rintro rfl
    exact absurd hc (by decide)
  have hreturn : c ≠ '\r' := by
    rintro rfl
    exact absurd hc (by decide)
  unfold firstLine
  split
  · rw [List.takeWhile_cons, if_pos hnewline]
    exact dropReturn_ne_nil hreturn
  · simp

theorem takeWhile_append_of_mem {word : List Char} (h : '\n' ∈ word) (rest : List Char) :
    (word ++ rest).takeWhile (· != '\n') = word.takeWhile (· != '\n') := by
  induction word with
  | nil => cases h
  | cons c cs ih =>
    by_cases hc : c = '\n'
    · simp [hc]
    · have hcs : '\n' ∈ cs := by simpa [Ne.symm hc] using h
      simp [hc, ih hcs]

end Text

namespace Renderer

open Text

section Slice

variable {span : Span} {offset : Nat}

theorem slice_append (span : Span) (offset : Nat) (cs ds : List Char) :
    slice span offset (cs ++ ds) = slice span offset cs ++ slice span (offset + size cs) ds := by
  induction cs generalizing offset with
  | nil => rfl
  | cons c cs ih =>
    have hsize : offset + size (c :: cs) = offset + c.utf8Size + size cs := by
      rw [← List.singleton_append, size_append, size_singleton, Nat.add_assoc]
    rw [List.cons_append, slice, slice, ih, hsize]
    split <;> rfl

theorem length_slice (span : Span) (above shown : List Char) :
    (slice span (size above) shown).length = covered span above shown := by
  induction shown generalizing above with
  | nil => rfl
  | cons c cs ih =>
    have hsize : size above + c.utf8Size = size (above ++ [c]) := by
      rw [size_append, size_singleton]
    have hcovered : covered span above (c :: cs) = covered span (above ++ [c]) cs +
        if span.start ≤ size above ∧ size above < span.stop then 1 else 0 := by
      have htake : ∀ k, above ++ (c :: cs).take (k + 1) = above ++ [c] ++ cs.take k := by simp
      rw [covered, covered, List.length_cons, List.range_succ_eq_map, List.countP_cons,
        List.countP_map, List.take_zero, List.append_nil]
      simp only [Function.comp_def, ← htake, decide_eq_true_eq]
    rw [slice, hsize, hcovered, ← ih]
    split <;> rfl

theorem slice_eq_nil_of_lt {cs : List Char}
    (h : ∀ k < cs.length, offset + size (cs.take k) < span.start) : slice span offset cs = [] := by
  induction cs generalizing offset with
  | nil => rfl
  | cons c cs ih =>
    have hc : offset < span.start := h 0 (by simp)
    rw [slice, if_neg (by omega)]
    apply ih
    intro k hk
    have hnext := h (k + 1) (by simpa using hk)
    rw [List.take_succ_cons, ← List.singleton_append, size_append, size_singleton] at hnext
    omega

theorem slice_of_stop_le (cs : List Char) (h : span.stop ≤ offset) : slice span offset cs = [] := by
  induction cs generalizing offset with
  | nil => rfl
  | cons c cs ih => rw [slice, if_neg (by omega), ih (by omega)]

/-- From its start on, a span takes the characters of the text one after the other. -/
theorem slice_take (h : span.start ≤ offset) (n : Nat) (cs : List Char) :
    slice span offset (cs.take n) = (slice span offset cs).take n := by
  induction cs generalizing offset n with
  | nil => simp [slice]
  | cons c cs ih =>
    cases n with
    | zero => rfl
    | succ n =>
      rw [List.take_succ_cons, slice, slice]
      split
      · rw [List.take_succ_cons, ih (by omega)]
      · rename_i hout
        rw [slice_of_stop_le _ (by omega), slice_of_stop_le _ (by omega), List.take_nil]

theorem takeWhile_slice (h : span.start ≤ offset) (p : Char → Bool) (cs : List Char) :
    (slice span offset cs).takeWhile p = slice span offset (cs.takeWhile p) := by
  induction cs generalizing offset with
  | nil => rfl
  | cons c cs ih =>
    by_cases hout : span.stop ≤ offset
    · rw [slice_of_stop_le _ hout, slice_of_stop_le _ hout, List.takeWhile_nil]
    · have hin : span.start ≤ offset ∧ offset < span.stop := by omega
      rw [slice, if_pos hin, List.takeWhile_cons, List.takeWhile_cons]
      split
      · rw [slice, if_pos hin, ih (by omega)]
      · rfl

theorem slice_word (word : List Char) (h : span.start ≤ offset)
    (hstop : offset + size word ≤ span.stop) : slice span offset word = word := by
  induction word generalizing offset with
  | nil => rfl
  | cons c cs ih =>
    rw [← List.singleton_append, size_append, size_singleton] at hstop
    have hpos := c.utf8Size_pos
    rw [slice, if_pos (by omega), ih (by omega) (by omega)]

end Slice

section Carets

variable {source : String} {span : Span} {number : Nat} {above before after below : List Char}

theorem slice_source (hline : LineAt source number above (before ++ after) below)
    (hwalk : ∀ k < (above ++ before).length, size ((above ++ before).take k) < span.start) :
    slice span 0 source.toList = slice span (size (above ++ before)) (after ++ below) := by
  have hbefore : slice span 0 (above ++ before) = [] :=
    slice_eq_nil_of_lt fun k hk => by simpa using hwalk k hk
  have hsource : source.toList = (above ++ before) ++ (after ++ below) := by simp [hline.eq]
  rw [hsource, slice_append, hbefore, List.nil_append, Nat.zero_add]

/-- Up to the end of its line, a span takes characters of the second part. -/
theorem takeWhile_slice_after (hline : LineAt source number above (before ++ after) below)
    (hstop : after ++ below = [] ∨ span.start ≤ size (above ++ before)) :
    (slice span (size (above ++ before)) (after ++ below)).takeWhile (· != '\n') =
      slice span (size (above ++ before)) after := by
  rcases hstop with hnil | hstart
  · obtain ⟨rfl, rfl⟩ := List.append_eq_nil_iff.mp hnil
    rfl
  · have hafter : ∀ c ∈ after, (c != '\n') = true := by
      intro c hc
      have : c ≠ '\n' := fun h => hline.whole (List.mem_append_right _ (h ▸ hc))
      simpa using this
    have hbelow : below.takeWhile (· != '\n') = [] := by
      rcases hline.closes with rfl | hhead
      · rfl
      · obtain ⟨rest, rfl⟩ := List.head?_eq_some_iff.mp hhead
        rfl
    rw [takeWhile_slice hstart, List.takeWhile_append_of_pos hafter, hbelow, List.append_nil]

/-- A line that is cut in two where the span starts shows the characters of the span in its second
part. -/
theorem covered_eq_min (hstop : after ++ below = [] ∨ span.start ≤ size (above ++ before))
    (hwalk : ∀ k < (above ++ before).length, size ((above ++ before).take k) < span.start)
    {shown : List Char} (hshown : shown <+: before ++ after) :
    covered span above shown =
      min (slice span (size (above ++ before)) after).length (shown.length - before.length) := by
  have hbefore : ∀ n, slice span (size above) (before.take n) = [] := by
    intro n
    apply slice_eq_nil_of_lt
    intro k hk
    have hlt := hwalk (above.length + k) (by simp at hk ⊢; omega)
    rw [List.take_length_add_append, size_append] at hlt
    rwa [List.take_take, Nat.min_eq_left (by simp at hk; omega)]
  have htake := List.prefix_iff_eq_take.mp hshown
  generalize shown.length = n at htake ⊢
  rw [← length_slice, htake, List.take_append, slice_append, hbefore, List.nil_append]
  by_cases hn : before.length ≤ n
  · rw [List.take_of_length_le hn, ← size_append]
    rcases hstop with hnil | hstart
    · obtain ⟨rfl, rfl⟩ := List.append_eq_nil_iff.mp hnil
      simp [slice]
    · rw [slice_take hstart, List.length_take, Nat.min_comm]
  · have hzero : n - before.length = 0 := by omega
    rw [hzero, Nat.min_zero]
    rfl

theorem caretCount_eq (hline : LineAt source number above (before ++ after) below)
    (hstop : after ++ below = [] ∨ span.start ≤ size (above ++ before))
    (hwalk : ∀ k < (above ++ before).length, size ((above ++ before).take k) < span.start)
    {shown : List Char} (hshown : shown <+: before ++ after) (fileName : String) (color : Bool) :
    caretCount ⟨source, fileName, color⟩ span (String.ofList shown) (before.length + 1) =
      max 1 (covered span above shown) := by
  rw [caretCount, slice_source hline hwalk, takeWhile_slice_after hline hstop, String.length_ofList,
    Nat.add_sub_cancel, covered_eq_min hstop hwalk hshown]
  omega

end Carets

/-- The rows of a label: its place, the line with an underline, and an empty row on both sides. -/
def rows (fileName : String) (p : Position) (shown message : String) (carets : Nat) : List String :=
  let number := toString p.line
  let margin := repeated ' ' (number.length + 1) ++ " "
  [repeated ' ' number.length ++ "-->" ++ " " ++ fileName ++ ":" ++ number ++ ":" ++
    toString p.column, margin ++ "|",
    " " ++ number ++ " " ++ "|" ++ " " ++ shown,
    margin ++ "|" ++ " " ++ repeated ' ' (p.column - 1) ++ repeated '^' carets ++
      (if message = "" then "" else " " ++ message),
    margin ++ "|"]

/-- How a label is shown without colours: its place is `p`, and the carets stand under the line
between `above` and `below`, of which the carriage return at the end is not shown. -/
structure ShownAt (source fileName : String) (l : Label) (p : Position)
    (above line below : List Char) (carets : Nat) : Prop where
  place : p = Position.ofOffset source l.span.start
  lineAt : LineAt source p.line above line below
  text : line? source p.line = some (String.ofList (dropReturn line))
  count : carets = max 1 (covered l.span above (dropReturn line))
  rows : label ⟨source, fileName, false⟩ l = String.join
    ((rows fileName p (String.ofList (dropReturn line)) l.message carets).map (· ++ "\n"))
  bars : ∀ row ∈ (Renderer.rows fileName p (String.ofList (dropReturn line)) l.message carets).tail,
    row.toList.idxOf '|' = (toString p.line).length + 2
  inside : p.column - 1 + carets ≤ (dropReturn line).length ∨
    carets = 1 ∧ (dropReturn line).length ≤ p.column - 1

theorem bar_not_mem_toString (n : Nat) : '|' ∉ (toString n).toList := by
  intro h
  have hdigits : (toString n).toList = Nat.toDigits 10 n := by
    simp [toString, Nat.repr]
  rw [hdigits] at h
  exact absurd (Nat.isDigit_of_mem_toDigits (by decide) (by decide) h) (by decide)

/-- The bars of the margin stand right behind the number and a blank on either side of it. -/
theorem idxOf_bar_of_mem_rows {fileName shown message : String} {p : Position} {carets : Nat}
    {row : String} (h : row ∈ (rows fileName p shown message carets).tail) :
    row.toList.idxOf '|' = (toString p.line).length + 2 := by
  have hnumber := bar_not_mem_toString p.line
  unfold rows at h
  generalize toString p.line = number at h hnumber ⊢
  have hblank : '|' ∉ " ".toList := by decide
  have hmargin : '|' ∉ (repeated ' ' (number.length + 1) ++ " ").toList ∧
      (repeated ' ' (number.length + 1) ++ " ").length = number.length + 2 := by
    rw [String.toList_append, String.length_append, repeated, String.toList_ofList,
      String.length_ofList, List.length_replicate]
    refine ⟨?_, rfl⟩
    rw [List.mem_append, not_or]
    exact ⟨by simp [List.mem_replicate], hblank⟩
  have hfilled : '|' ∉ (" " ++ number ++ " ").toList ∧
      (" " ++ number ++ " ").length = number.length + 2 := by
    rw [String.toList_append, String.toList_append, String.length_append, String.length_append]
    refine ⟨?_, by rw [Nat.add_comm " ".length]; rfl⟩
    simp only [List.mem_append, not_or]
    exact ⟨⟨hblank, hnumber⟩, hblank⟩
  obtain ⟨margin, rest, rfl, hbar, hlength⟩ : ∃ margin rest : String, row =
    margin ++ ("|" ++ rest) ∧
      '|' ∉ margin.toList ∧ margin.length = number.length + 2 := by
    simp only [List.tail_cons, List.mem_cons, List.not_mem_nil, or_false] at h
    rcases h with rfl | rfl | rfl | rfl
    · exact ⟨_, "", by rw [String.append_empty], hmargin⟩
    · exact ⟨_, " " ++ shown, by simp only [String.append_assoc], hfilled⟩
    · exact ⟨_, " " ++ repeated ' ' (p.column - 1) ++ repeated '^' carets ++
        (if message = "" then "" else " " ++ message), by simp only [String.append_assoc], hmargin⟩
    · exact ⟨_, "", by rw [String.append_empty], hmargin⟩
  rw [String.toList_append, List.idxOf_append_of_notMem hbar, String.length_toList, hlength,
    String.toList_append]
  rfl

theorem label_eq_rows {source fileName : String} {l : Label} {p : Position} {shown : String}
    {carets : Nat}
    (hp : p = Position.ofOffset source l.span.start) (hline : line? source p.line = some shown)
    (hcarets : caretCount ⟨source, fileName, false⟩ l.span shown p.column = carets) :
    label ⟨source, fileName, false⟩ l =
      String.join ((rows fileName p shown l.message carets).map (· ++ "\n")) := by
  have hunderline : underline ⟨source, fileName, false⟩ l shown p.column =
      repeated ' ' (p.column - 1) ++ repeated '^' carets ++
        (if l.message = "" then "" else " " ++ l.message) := by
    rw [underline, hcarets]
    split
    · rw [String.append_empty]
    · rw [String.append_assoc]
  have hplain : ∀ paint s, Renderer.paint ⟨source, fileName, false⟩ paint s = s := fun _ _ => rfl
  unfold label rows
  dsimp only
  rw [← hp, hline, Option.getD_some, hunderline]
  generalize toString p.line = number
  have hnumber : padLeft (number.length + 1) number = " " ++ number := by
    rw [padLeft, Nat.add_sub_cancel_left]
    rfl
  simp only [hplain, hnumber, List.map_cons, List.map_nil, String.join, List.foldl_cons,
    List.foldl_nil, String.append_assoc, String.empty_append]

/-- A label is shown against the line around the place where the walk over the text stops for it. -/
theorem exists_shownAt {source : String} {l : Label} {left right : List Char}
    (hsource : source.toList = left ++ right)
    (hplace : Position.ofOffset source l.span.start = Position.origin.advance left)
    (hstop : right = [] ∨ l.span.start ≤ size left)
    (hwalk : ∀ k < left.length, size (left.take k) < l.span.start) (fileName : String) :
    ∃ above before after below carets, right = after ++ below ∧
      after = right.takeWhile (· != '\n') ∧
      (Position.origin.advance left).column = before.length + 1 ∧
      carets = max 1 (min (slice l.span (size left) after).length
        ((dropReturn (before ++ after)).length - before.length)) ∧
      ShownAt source fileName l (Position.origin.advance left) above (before ++ after)
      below carets := by
  obtain ⟨above, before, after, below, rfl, rfl, hline, hcolumn, hafter⟩ :=
    Position.exists_lineAt hsource
  have hcovered := covered_eq_min hstop hwalk (prefix_dropReturn (before ++ after))
  have hcarets :=
    caretCount_eq hline hstop hwalk (prefix_dropReturn (before ++ after)) fileName false
  refine ⟨above, before, after, below, _, rfl, hafter, hcolumn, rfl, ?_⟩
  rw [← hcovered]
  rw [← hcolumn] at hcarets
  constructor
  · exact hplace.symm
  · exact hline
  · exact line?_of_lineAt hline
  · rfl
  · exact label_eq_rows hplace.symm (line?_of_lineAt hline) hcarets
  · exact fun row => idxOf_bar_of_mem_rows
  · rw [hcovered, hcolumn]
    omega

/-- A word that does not end in a carriage return shows its first line where it stands, and as many
of its characters as are shown belong to its span. -/
theorem firstLine_shown (left : List Char) {word : List Char} (rest : List Char)
    (hlast : word.getLast? ≠ some '\r') :
    let after := (word ++ rest).takeWhile (· != '\n')
    firstLine word <+: dropReturn after ∧
      min (slice ⟨size left, size (left ++ word)⟩ (size left) after).length
      (dropReturn after).length =
        (firstLine word).length := by
  intro after
  have hstop : size (left ++ word) = size left + size word := size_append ..
  by_cases hmem : '\n' ∈ word
  · have hfirst : word.takeWhile (· != '\n') <+: word := List.takeWhile_prefix _
    have hafter : after = word.takeWhile (· != '\n') := takeWhile_append_of_mem hmem rest
    have hslice : slice ⟨size left, size (left ++ word)⟩ (size left) after = after := by
      obtain ⟨others, hword⟩ := hfirst
      have hsize : size word = size after + size others := by rw [hafter, ← size_append, hword]
      apply slice_word after (Nat.le_refl _)
      show size left + size after ≤ size (left ++ word)
      omega
    have hshown : firstLine word = dropReturn after := by rw [firstLine, if_pos hmem, hafter]
    rw [hslice, hshown]
    exact ⟨List.prefix_rfl, Nat.min_eq_right (prefix_dropReturn after).length_le⟩
  · have hafter : after = word ++ rest.takeWhile (· != '\n') := by
      apply List.takeWhile_append_of_pos
      intro c hc
      have : c ≠ '\n' := fun h => hmem (h ▸ hc)
      simpa using this
    have hslice : slice ⟨size left, size (left ++ word)⟩ (size left) after = word := by
      rw [hafter, slice_append, slice_word word (Nat.le_refl _) (Nat.le_of_eq hstop.symm),
        slice_of_stop_le _ (Nat.le_of_eq hstop), List.append_nil]
    have hshown : firstLine word = word := if_neg hmem
    have hstarts : word <+: dropReturn after := by
      rw [hafter]
      generalize rest.takeWhile (· != '\n') = more
      cases more with
      | nil => rw [List.append_nil, dropReturn_of_ne hlast]
      | cons d ds =>
        rw [dropReturn_append word (List.cons_ne_nil d ds)]
        exact List.prefix_append ..
    rw [hslice, hshown]
    exact ⟨hstarts, Nat.min_eq_left hstarts.length_le⟩

/-- The label of a word is shown at the word, with the carets under its first line. -/
theorem exists_shownAt_word {source : String} {l : Label} {left word right : List Char}
    (hsource : source.toList = left ++ word ++ right)
    (hspan : l.span = ⟨size left, size (left ++ word)⟩)
    (hhead : ∃ c cs, word = c :: cs ∧ isBlank c = false) (hlast : word.getLast? ≠ some '\r')
    (fileName : String) :
    ∃ above line below carets,
      ShownAt source fileName l (Position.origin.advance left) above line below carets ∧
      ((dropReturn line).drop ((Position.origin.advance left).column - 1)).take carets =
        firstLine word := by
  have hwalk : ∀ k < left.length, size (left.take k) < l.span.start := by
    intro k hk
    have hpos : 0 < size (left.drop k) := size_pos (by simpa using hk)
    have hsize := size_append (left.take k) (left.drop k)
    rw [List.take_append_drop] at hsize
    rw [hspan]
    show size (left.take k) < size left
    omega
  have hplace : Position.ofOffset source l.span.start = Position.origin.advance left := by
    rw [hspan]
    show Position.ofOffset source (size left) = _
    rw [← Position.offset_origin_advance]
    exact Position.ofOffset_advance (by rw [hsource, List.append_assoc])
  obtain ⟨above, before, after, below, carets, -, hafter, hcolumn, hcarets, hshown⟩ :=
    exists_shownAt (by rw [hsource, List.append_assoc]) hplace (.inr (by rw [hspan])) hwalk fileName
  obtain ⟨hstarts, hmin⟩ := firstLine_shown left right hlast
  rw [← hafter, ← hspan] at hmin
  rw [← hafter] at hstarts
  have hne := firstLine_ne_nil hhead
  have hline : dropReturn (before ++ after) = before ++ dropReturn after := by
    apply dropReturn_append
    rintro rfl
    exact hne (List.prefix_nil.mp hstarts)
  rw [hline, List.length_append, Nat.add_sub_cancel_left, hmin] at hcarets
  have hcount : carets = (firstLine word).length := by
    have := List.length_pos_iff.mpr hne
    omega
  refine ⟨above, _, below, carets, hshown, ?_⟩
  rw [hline, hcolumn, Nat.add_sub_cancel, List.drop_left, hcount]
  exact (List.prefix_iff_eq_take.mp hstarts).symm

end Renderer

/-! ## Offending words -/

open Text

theorem Token.Spelled.getLast?_ne_return {token : Token} {word : List Char}
    (h : token.Spelled word) : word.getLast? ≠ some '\r' := by
  have hword : ∀ {c : Char} {cs : List Char}, Scanner.startsWord c = true →
      (∀ d ∈ cs, Scanner.continuesWord d = true) → '\r' ∉ c :: cs := by
    intro c cs hc hcs hmem
    rcases List.mem_cons.mp hmem with rfl | hmem
    · exact absurd hc (by decide)
    · exact absurd (hcs _ hmem) (by decide)
  have hdigits : ∀ {cs : List Char}, (∀ c ∈ cs, c.isDigit = true) → '\r' ∉ cs :=
    fun hcs hmem => absurd (hcs _ hmem) (by decide)
  intro hlast
  have hmem := List.mem_of_getLast? hlast
  cases h with
  | text hquote _ =>
    rw [List.cons_append, List.getLast?_cons, List.getLast?_concat] at hlast
    rcases hquote with rfl | rfl <;> simp at hlast
  | integer _ hd _ => exact hdigits hd hmem
  | real _ hwhole _ hfraction _ =>
    rcases List.mem_append.mp hmem with hmem | hmem
    · exact hdigits hwhole hmem
    · rcases List.mem_cons.mp hmem with hdot | hmem
      · cases hdot
      · exact hdigits hfraction hmem
  | keyword hc hcs _ => exact hword hc hcs hmem
  | name hc hcs _ => exact hword hc hcs hmem
  | symbol hm =>
    have hall : ∀ entry ∈ Scanner.spellings, '\r' ∉ entry.1 := by decide
    exact hall _ hm hmem

theorem Token.Spelled.head_not_blank {token : Token} {word : List Char} (h : token.Spelled word) :
    ∃ c cs, word = c :: cs ∧ isBlank c = false := by
  obtain rfl | ⟨c, cs, rfl, -, hblank⟩ := h.slash_or_head
  · exact ⟨'/', [], rfl, by decide⟩
  · exact ⟨c, cs, rfl, hblank⟩

theorem NoGap.head_not_blank {c : Char} {rest : List Char} (h : NoGap (c :: rest)) :
    isBlank c = false := by
  by_contra hblank
  have := h (.blank (by simpa using hblank) .nil) (List.singleton_append.symm)
  cases this

theorem Lexed.exists_word {before rest : List Char} {ls : List (Except Stray Located)} {t : Located}
    (h : Lexed before rest ls) (ht : .ok t ∈ ls) :
    ∃ gap word after, rest = gap ++ word ++ after ∧ t.token.Spelled word ∧
      t.start = Position.origin.advance (before ++ gap) ∧
      t.stop = size (before ++ gap ++ word) := by
  induction h with
  | done => cases ht
  | @token before gap word rest token ls _ _ hlongest _ ih =>
    rcases List.mem_cons.mp ht with heq | ht
    · cases heq
      exact ⟨gap, word, rest, rfl, hlongest.spelled, rfl, rfl⟩
    · obtain ⟨gap', word', after, rfl, hspelled, hstart, hstop⟩ := ih ht
      exact ⟨gap ++ word ++ gap', word', after, by simp, hspelled, by simpa using hstart,
        by simpa using hstop⟩
  | @stray before gap rest c ls _ _ _ _ ih =>
    rcases List.mem_cons.mp ht with heq | ht
    · cases heq
    · obtain ⟨gap', word, after, rfl, hspelled, hstart, hstop⟩ := ih ht
      exact ⟨gap ++ c :: gap', word, after, by simp, hspelled, by simpa using hstart,
        by simpa using hstop⟩

/-- The word of a text that an error is about, after the part `left` of the text: a character that
begins no token, or the word of the token that the parser is stuck at. -/
inductive Error.Offender (source : String) : Error → (left word : List Char) → Prop where
  | stray {s : Stray} {left : List Char} : scan source = .error s →
      s.position = Position.origin.advance left → Offender source (.stray s) left [s.char]
  | token {ts rest : List Located} {t : Located} {e : ParseError} {left word : List Char} :
      scan source = .ok ts → t ∈ ts →
      Parser.program Parser.nestingLimit ts = .error ⟨e.cause, t :: rest⟩ →
      t.token.Spelled word → t.span = ⟨size left, size (left ++ word)⟩ →
      Offender source (.parse e) left word

theorem exists_offender_stray {source : String} {s : Stray} (hs : scan source = .error s) :
    ∃ left right, source.toList = left ++ [s.char] ++ right ∧ isBlank s.char = false ∧
      s.position = Position.origin.advance left ∧
      s.span = ⟨size left, size (left ++ [s.char])⟩ := by
  obtain ⟨ls, hls⟩ := exists_lexed [] source.toList
  have hscan : scan source = ls.mapM id := scanFrom_of_lexed hls (Nat.le_refl _)
  obtain ⟨left, right, hsource, -, hno, -, hposition⟩ := covered_of_lexed hls (hscan ▸ hs)
  rw [List.nil_append] at hposition
  refine ⟨left, right, by rw [hsource]; simp, hno.head_not_blank, hposition, ?_⟩
  rw [Stray.span, hposition, Position.offset_origin_advance, size_append, size_singleton]

theorem exists_offender_parse {source : String} {ts : List Located} {e : ParseError} {n : Nat}
    (hts : scan source = .ok ts) (he : Program.parse source.utf8ByteSize ts = .error e)
    (hn : e.line = some n) :
    ∃ (t : Located) (left word right : List Char), source.toList = left ++ word ++ right ∧
      t.token.Spelled word ∧ Error.Offender source (.parse e) left word ∧
      e.span = ⟨size left, size (left ++ word)⟩ ∧ (Position.origin.advance left).line = n := by
  simp only [Program.parse, Parser.parse] at he
  split at he
  · cases he
  · rename_i s hs
    cases he
    obtain ⟨cause, rest⟩ := s
    cases rest with
    | nil => cases hn
    | cons t rest =>
      obtain ⟨used, hused, -, -⟩ := Parser.program_eq_error hs
      have ht : t ∈ ts := by
        rw [hused]
        exact List.mem_append_right _ List.mem_cons_self
      obtain ⟨left, word, right, hsource, hspelled, hstart, hstop⟩ :=
        (scan_eq_ok_iff.mp hts).exists_word (List.mem_map_of_mem ht)
      rw [List.nil_append] at hstart hstop
      have hspan : t.span = ⟨size left, size (left ++ word)⟩ := by
        rw [Located.span, hstart, hstop, Position.offset_origin_advance]
      refine ⟨t, left, word, right, hsource, hspelled, .token hts ht hs hspelled hspan, hspan, ?_⟩
      rw [← hstart]
      exact Option.some.inj hn

/-- An error that has a line is about a word, and its label is the span of the word. -/
theorem exists_offender {source : String} {e : Error} {n : Nat}
    (h : Program.ofSource source = .error e) (hn : e.line = some n) :
    ∃ l left word right, e.diagnostic.label = some l ∧ source.toList = left ++ word ++ right ∧
      e.Offender source left word ∧ l.span = ⟨size left, size (left ++ word)⟩ ∧
      (Position.origin.advance left).line = n ∧ (∃ c cs, word = c :: cs ∧ isBlank c = false) ∧
      word.getLast? ≠ some '\r' := by
  unfold Program.ofSource at h
  split at h
  · rename_i s hs
    cases h
    obtain ⟨left, right, hsource, hblank, hposition, hspan⟩ := exists_offender_stray hs
    have hreturn : [s.char].getLast? ≠ some '\r' := by
      intro hlast
      have hchar : s.char = '\r' := Option.some.inj hlast
      rw [hchar] at hblank
      exact absurd hblank (by decide)
    refine ⟨_, left, [s.char], right, rfl, hsource, .stray hs hposition, hspan, ?_,
      ⟨_, _, rfl, hblank⟩, hreturn⟩
    rw [← hposition]
    exact Option.some.inj hn
  · rename_i ts hts
    split at h
    · rename_i e he
      cases h
      obtain ⟨t, left, word, right, hsource, hspelled, hoffender, hspan, hline⟩ :=
        exists_offender_parse hts he hn
      exact ⟨_, left, word, right, rfl, hsource, hoffender, hspan, hline, hspelled.head_not_blank,
        hspelled.getLast?_ne_return⟩
    · cases h

/-- Diagnostics without colours. A label is shown with the place where its span starts, the text of
that line and the carets under what the line shows of the span. Where a program text fails to scan
or to parse at some line, that line is shown, and the carets stand under the first line of the
offending word. -/
theorem diagnostics_underline_offender (source fileName : String) :
    (∀ l : Label, ∃ p above line below carets,
      Renderer.ShownAt source fileName l p above line below carets) ∧
    ∀ e n, Program.ofSource source = .error e → e.line = some n →
      ∃ l left word right p above line below carets, e.diagnostic.label = some l ∧
        source.toList = left ++ word ++ right ∧ e.Offender source left word ∧
        Renderer.ShownAt source fileName l p above line below carets ∧ p.line = n ∧
        ((dropReturn line).drop (p.column - 1)).take carets = firstLine word := by
  constructor
  · intro l
    obtain ⟨left, right, hsource, hseek, hstop, hwalk⟩ :=
      Position.exists_seek l.span.start .origin source.toList
    obtain ⟨above, before, after, below, carets, -, -, -, -, hshown⟩ :=
      Renderer.exists_shownAt hsource hseek (by simpa [Position.origin] using hstop)
        (by simpa [Position.origin] using hwalk) fileName
    exact ⟨_, _, _, _, _, hshown⟩
  · intro e n he hn
    obtain ⟨l, left, word, right, hlabel, hsource, hoffender, hspan, hline, hhead, hlast⟩ :=
      exists_offender he hn
    obtain ⟨above, line, below, carets, hshown, hunder⟩ :=
      Renderer.exists_shownAt_word hsource hspan hhead hlast fileName
    exact ⟨l, left, word, right, _, above, line, below, carets, hlabel, hsource, hoffender, hshown,
      hline, hunder⟩

/-- A text literal over two lines, where a statement should stand. -/
theorem diagnostics_underline_offender_text :
    ∃ e, Program.ofSource "\r\n 'ü\r\nb'" = .error e ∧ e.line = some 2 ∧
      ∃ l left word right p above line below carets, e.diagnostic.label = some l ∧
        "\r\n 'ü\r\nb'".toList = left ++ word ++ right ∧ e.Offender "\r\n 'ü\r\nb'" left word ∧
        Renderer.ShownAt "\r\n 'ü\r\nb'" "lines.txt" l p above line below carets ∧ p.line = 2 ∧
        ((dropReturn line).drop (p.column - 1)).take carets = firstLine word := by
  have hscan : scan "\r\n 'ü\r\nb'" = .ok [⟨.text "ü\r\nb", ⟨3, 2, 2⟩, 10⟩] := rfl
  obtain ⟨e, hparse, hline⟩ : ∃ e, Program.parse "\r\n 'ü\r\nb'".utf8ByteSize
      [⟨.text "ü\r\nb", ⟨3, 2, 2⟩, 10⟩] = .error e ∧ e.line = some 2 := ⟨_, rfl, rfl⟩
  have hread : Program.ofSource "\r\n 'ü\r\nb'" = .error (.parse e) := by
    simp only [Program.ofSource, hscan, hparse]
  exact ⟨_, hread, hline, (diagnostics_underline_offender _ "lines.txt").2 _ 2 hread hline⟩

/-- The carets under that literal. -/
example : Renderer.label ⟨"\r\n 'ü\r\nb'", "lines.txt", false⟩ ⟨⟨3, 10⟩, ""⟩ =
    " --> lines.txt:2:2\n   |\n 2 |  'ü\n   |  ^^\n   |\n" := by
  rfl

end Chalkboard
