import Chalkboard.Proofs.Partition

/-! # Lines of a text

A newline ends a line and begins the next one. The line of a position is the part of the text
between the newlines around it, and the column counts the characters between the beginning of the
line and the position. The position of a byte offset is where the walk over the text first comes to
that offset, or the end of the text.
-/

namespace Chalkboard

namespace Text

/-- The line with the given number stands in the text after `above` and before `below`. -/
structure LineAt (source : String) (number : Nat) (above line below : List Char) : Prop where
  eq : source.toList = above ++ line ++ below
  number : number = above.count '\n' + 1
  opens : above = [] ∨ above.getLast? = some '\n'
  whole : '\n' ∉ line
  closes : below = [] ∨ below.head? = some '\n'

section Cut

variable {separator : Char}

theorem cut_ne_nil (separator : Char) (cs : List Char) : cut separator cs ≠ [] := by
  cases cs with
  | nil => simp [cut]
  | cons c cs =>
    unfold cut
    split
    · simp
    · split <;> simp

theorem cut_of_not_mem {cs : List Char} (h : separator ∉ cs) : cut separator cs = [cs] := by
  induction cs with
  | nil => rfl
  | cons c cs ih =>
    have hc : c ≠ separator := fun hc => h (hc ▸ List.mem_cons_self)
    rw [cut, if_neg hc, ih fun hmem => h (List.mem_cons_of_mem _ hmem)]

theorem cut_append_cons (cs ds : List Char) :
    cut separator (cs ++ separator :: ds) = cut separator cs ++ cut separator ds := by
  induction cs with
  | nil => simp [cut]
  | cons c cs ih =>
    rw [List.cons_append, cut, cut]
    split
    · rw [ih, List.cons_append]
    · rw [ih]
      cases hcut : cut separator cs with
      | nil => exact absurd hcut (cut_ne_nil separator cs)
      | cons piece pieces => rfl

theorem length_cut (cs : List Char) : (cut separator cs).length = cs.count separator + 1 := by
  induction cs with
  | nil => rfl
  | cons c cs ih =>
    rw [cut, List.count_cons]
    split
    · rename_i hc
      simp [hc, ih]
    · rename_i hc
      cases hcut : cut separator cs with
      | nil => exact absurd hcut (cut_ne_nil separator cs)
      | cons piece pieces =>
        rw [hcut] at ih
        simpa [hc] using ih

end Cut

/-- The piece between two newlines has the number of the newlines before it. -/
theorem getElem?_cut_of_lineAt {source : String} {number : Nat} {above line below : List Char}
    (h : LineAt source number above line below) :
    (cut '\n' source.toList)[above.count '\n']? = some line := by
  have htail : cut '\n' (line ++ below) = line :: (cut '\n' (line ++ below)).tail := by
    rcases h.closes with rfl | hbelow
    · rw [List.append_nil, cut_of_not_mem h.whole]
      rfl
    · obtain ⟨rest, rfl⟩ := List.head?_eq_some_iff.mp hbelow
      rw [cut_append_cons, cut_of_not_mem h.whole]
      rfl
  rw [h.eq, List.append_assoc]
  rcases h.opens with rfl | habove
  · rw [List.nil_append, htail]
    rfl
  · obtain ⟨start, rfl⟩ := List.getLast?_eq_some_iff.mp habove
    have hcount : (start ++ ['\n']).count '\n' = (cut '\n' start).length := by
      rw [length_cut, List.count_append]
      rfl
    rw [List.append_assoc, List.singleton_append, cut_append_cons, htail, hcount,
      List.getElem?_append_right (Nat.le_refl _), Nat.sub_self]
    rfl

theorem line?_of_lineAt {source : String} {number : Nat} {above line below : List Char}
    (h : LineAt source number above line below) :
    line? source number = some (String.ofList (dropReturn line)) := by
  rw [h.number, line?, getElem?_cut_of_lineAt h]
  rfl

theorem exists_last_line (cs : List Char) : ∃ above line, cs = above ++ line ∧
    (above = [] ∨ above.getLast? = some '\n') ∧ '\n' ∉ line := by
  induction cs using List.reverseRecOn with
  | nil => exact ⟨[], [], rfl, .inl rfl, by simp⟩
  | append_singleton cs c ih =>
    by_cases hc : c = '\n'
    · exact ⟨cs ++ [c], [], by simp, .inr (by simp [hc]), by simp⟩
    · obtain ⟨above, line, rfl, habove, hline⟩ := ih
      refine ⟨above, line ++ [c], by simp, habove, ?_⟩
      simpa [hline] using Ne.symm hc

theorem exists_first_line (cs : List Char) : ∃ line below, cs = line ++ below ∧
    '\n' ∉ line ∧ (below = [] ∨ below.head? = some '\n') ∧ line = cs.takeWhile (· != '\n') := by
  refine ⟨cs.takeWhile (· != '\n'), cs.dropWhile (· != '\n'), List.takeWhile_append_dropWhile.symm,
    ?_, ?_, rfl⟩
  · intro hmem
    simpa using List.mem_takeWhile_imp hmem
  · cases hdrop : cs.dropWhile (· != '\n') with
    | nil => exact .inl rfl
    | cons c rest =>
      have hc := List.head?_dropWhile_not (· != '\n') cs
      rw [hdrop] at hc
      exact .inr (by simpa using hc)

end Text

namespace Position

open Text

theorem column_advance {p : Position} {cs : List Char} (h : '\n' ∉ cs) :
    (p.advance cs).column = p.column + cs.length := by
  induction cs generalizing p with
  | nil => rfl
  | cons c cs ih =>
    have hc : c ≠ '\n' := fun hc => h (hc ▸ List.mem_cons_self)
    rw [advance_cons, ih fun hmem => h (List.mem_cons_of_mem _ hmem), step, if_neg hc,
      List.length_cons, Nat.add_comm cs.length]
    exact Nat.add_assoc ..

/-- A part of the text that ends with its last newline leaves the position at the beginning of a
line. -/
theorem column_advance_of_opens {above : List Char}
    (h : above = [] ∨ above.getLast? = some '\n') : (origin.advance above).column = 1 := by
  rcases h with rfl | h
  · rfl
  · obtain ⟨start, rfl⟩ := List.getLast?_eq_some_iff.mp h
    rw [advance_append]
    rfl

/-- The line around a place of the text, cut in two there. -/
theorem exists_lineAt {source : String} {left right : List Char}
    (h : source.toList = left ++ right) :
    ∃ above before after below, left = above ++ before ∧ right = after ++ below ∧
      LineAt source (origin.advance left).line above (before ++ after) below ∧
      (origin.advance left).column = before.length + 1 ∧ after = right.takeWhile (· != '\n') := by
  obtain ⟨above, before, rfl, hopens, hbefore⟩ := exists_last_line left
  obtain ⟨after, below, hright, hafter, hcloses, hfirst⟩ := exists_first_line right
  refine ⟨above, before, after, below, rfl, hright, ⟨?_, ?_, hopens, ?_, hcloses⟩, ?_, hfirst⟩
  · rw [h, hright]
    simp
  · rw [line_advance, List.count_append, List.count_eq_zero_of_not_mem hbefore]
    exact Nat.add_comm _ _
  · simp [hbefore, hafter]
  · rw [advance_append, column_advance hbefore, column_advance_of_opens hopens]
    exact Nat.add_comm _ _

theorem exists_seek (offset : Nat) (p : Position) (cs : List Char) :
    ∃ left right, cs = left ++ right ∧ seek offset p cs = p.advance left ∧
      (right = [] ∨ offset ≤ p.offset + size left) ∧
      ∀ k < left.length, p.offset + size (left.take k) < offset := by
  induction cs generalizing p with
  | nil => exact ⟨[], [], rfl, rfl, .inl rfl, by simp⟩
  | cons c cs ih =>
    by_cases hoffset : offset ≤ p.offset
    · refine ⟨[], c :: cs, rfl, ?_, .inr hoffset, by simp⟩
      rw [seek, if_pos hoffset]
      rfl
    · obtain ⟨left, right, rfl, hseek, hstop, hwalk⟩ := ih (p.step c)
      have hsize : ∀ ds, (p.step c).offset + size ds = p.offset + size (c :: ds) := by
        intro ds
        rw [offset_step, ← List.singleton_append (l := ds), size_append, size_singleton]
        omega
      refine ⟨c :: left, right, rfl, ?_, ?_, ?_⟩
      · rw [seek, if_neg hoffset, hseek, advance_cons]
      · rwa [← hsize]
      · intro k hk
        cases k with
        | zero => simpa using hoffset
        | succ k =>
          rw [List.take_succ_cons, ← hsize]
          exact hwalk k (by simpa using hk)

end Position

end Chalkboard
