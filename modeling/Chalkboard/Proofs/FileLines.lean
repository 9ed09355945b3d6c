import Chalkboard.Text.Lines
import Chalkboard.Proofs.Underlines

/-! # Lines of a file, and the same lines typed

No line of a file has a newline, and texts without newlines are found again as lines. Typed by hand,
a text has as many lines as it has in a file, and a typed line is the line of the file without the
carriage returns at its end.
-/

namespace Chalkboard.Text

/-! ## Cutting into lines -/

section Cut

variable {α : Type} {isNewline : α → Bool} {as : List α}

theorem cutAfter_append_cons (has : ∀ a ∈ as, isNewline a = false) {b : α} (hb : isNewline b = true)
    (rest : List α) :
    cutAfter isNewline (as ++ b :: rest) = (as ++ [b]) :: cutAfter isNewline rest := by
  induction as with
  | nil =>
    rw [List.nil_append, cutAfter, if_pos hb]
    rfl
  | cons a as ih =>
    rw [List.forall_mem_cons] at has
    rw [List.cons_append, cutAfter, if_neg (by simp [has.1]), ih has.2]
    rfl

theorem not_mem_dropLast_of_mem_cutAfter {piece : List α} (h : piece ∈ cutAfter isNewline as) :
    ∀ a ∈ piece.dropLast, isNewline a = false := by
  induction as generalizing piece with
  | nil => cases h
  | cons a as ih =>
    unfold cutAfter at h
    split at h
    · rcases List.mem_cons.mp h with rfl | h
      · simp
      · exact ih h
    · rename_i ha
      split at h
      · obtain rfl := List.mem_singleton.mp h
        simp
      · rename_i first pieces hcut
        rcases List.mem_cons.mp h with rfl | h
        · cases first with
          | nil => simp
          | cons b first =>
            rw [List.dropLast_cons_cons, List.forall_mem_cons]
            exact ⟨by simpa using ha, ih (hcut ▸ List.mem_cons_self)⟩
        · exact ih (hcut ▸ List.mem_cons_of_mem _ h)

theorem cutAfter_append {bs : List α} (has : ∀ a ∈ as, isNewline a = false) (hne : as ≠ []) :
    cutAfter isNewline (as ++ bs) =
      match cutAfter isNewline bs with
      | [] => [as]
      | piece :: pieces => (as ++ piece) :: pieces := by
  induction as with
  | nil => exact absurd rfl hne
  | cons a as ih =>
    rw [List.forall_mem_cons] at has
    rw [List.cons_append, cutAfter, if_neg (by simp [has.1])]
    cases as with
    | nil => rfl
    | cons a' as =>
      rw [ih has.2 (List.cons_ne_nil _ _)]
      cases cutAfter isNewline bs <;> rfl

end Cut

theorem newline_not_mem_of_mem_lines {s line : String} (h : line ∈ lines s) :
    '\n' ∉ line.toList := by
  obtain ⟨piece, hpiece, rfl⟩ := List.mem_map.mp h
  have hinside := not_mem_dropLast_of_mem_cutAfter hpiece
  have hnone : '\n' ∉ piece.dropLast := fun hmem => by simpa using hinside _ hmem
  rw [String.toList_ofList, dropTerminator]
  split
  · exact fun hmem => hnone ((prefix_dropReturn _).subset hmem)
  · rename_i hlast
    intro hmem
    rw [← List.dropLast_append_getLast (List.ne_nil_of_mem hmem)] at hmem
    rcases List.mem_append.mp hmem with hmem | hmem
    · exact hnone hmem
    · apply hlast
      rw [List.mem_singleton.mp hmem]
      exact List.getLast?_eq_some_getLast _

/-- Texts without newlines and without a return at the end are found again as lines. -/
theorem lines_join {texts : List String}
    (h : ∀ s ∈ texts, '\n' ∉ s.toList ∧ s.toList.getLast? ≠ some '\r') :
    lines (String.join (texts.map (· ++ "\n"))) = texts := by
  induction texts with
  | nil => rfl
  | cons s texts ih =>
    rw [List.forall_mem_cons] at h
    obtain ⟨⟨hnewline, hreturn⟩, htexts⟩ := h
    have htoList : (String.join ((s :: texts).map (· ++ "\n"))).toList =
        s.toList ++ '\n' :: (String.join (texts.map (· ++ "\n"))).toList := by
      rw [List.map_cons, String.join_cons, String.toList_append, String.toList_append,
        List.append_assoc]
      rfl
    have hfirst : ∀ c ∈ s.toList, (c == '\n') = false := by
      intro c hc
      rw [beq_eq_false_iff_ne]
      rintro rfl
      exact hnewline hc
    have hdrop : dropTerminator (s.toList ++ ['\n']) = s.toList := by
      unfold dropTerminator
      rw [List.getLast?_concat, List.dropLast_concat, dropReturn_of_ne hreturn]
      rfl
    have ih := ih htexts
    unfold lines at ih ⊢
    rw [htoList, cutAfter_append_cons hfirst rfl, List.map_cons, ih, hdrop, String.ofList_toList]

/-! ## Bytes -/

theorem toListLoop_eq (bytes : ByteArray) (i : Nat) (r : List UInt8) :
    ByteArray.toList.loop bytes i r = r.reverse ++ bytes.data.toList.drop i := by
  fun_induction ByteArray.toList.loop bytes i r with
  | case1 i r hi ih =>
    have hi : i < bytes.data.toList.length := hi
    have hget : bytes.get! i = bytes.data.toList[i] := getElem!_pos bytes.data i hi
    rw [ih, List.drop_eq_getElem_cons hi, List.reverse_cons, List.append_assoc, hget]
    rfl
  | case2 i r hi =>
    have hi : bytes.data.toList.length ≤ i := Nat.le_of_not_lt hi
    rw [List.drop_eq_nil_of_le hi, List.append_nil]

theorem toList_toByteArray (bytes : List UInt8) : bytes.toByteArray.toList = bytes := by
  rw [ByteArray.toList, toListLoop_eq, List.toList_data_toByteArray]
  rfl

theorem toList_toUTF8 (t : String) : t.toUTF8.toList = t.toList.flatMap String.utf8EncodeChar := by
  rw [← toList_toByteArray (t.toList.flatMap String.utf8EncodeChar)]
  exact congrArg ByteArray.toList String.utf8Encode_toList.symm

theorem fromUTF8?_encode (cs : List Char) :
    String.fromUTF8? ⟨(cs.flatMap String.utf8EncodeChar).toArray⟩ = some (String.ofList cs) := by
  have hbytes : (⟨(cs.flatMap String.utf8EncodeChar).toArray⟩ : ByteArray) = cs.utf8Encode := by
    apply ByteArray.ext
    rw [← Array.toList_inj]
    exact List.toList_data_toByteArray.symm
  rw [hbytes, String.fromUTF8?, dif_pos ByteArray.isValidUTF8_utf8Encode]
  rfl

theorem newline_mem_utf8EncodeChar {c : Char} (h : (10 : UInt8) ∈ String.utf8EncodeChar c) :
    c = '\n' := by
  have hbyte : ∀ n, (10 : UInt8) = UInt8.ofNat n → n % 256 = 10 := by
    intro n hn
    simpa using (congrArg UInt8.toNat hn).symm
  unfold String.utf8EncodeChar at h
  dsimp only at h
  split at h
  · have hval := hbyte _ (List.mem_singleton.mp h)
    exact Char.ext (UInt32.toNat_inj.mp (by rw [Nat.mod_eq_of_lt (by omega)] at hval; exact hval))
  · simp only [apply_ite (Membership.mem · (10 : UInt8)), List.mem_cons, List.not_mem_nil,
      or_false] at h
    exfalso
    split at h
    · rcases h with h | h <;> have := hbyte _ h <;> omega
    · split at h
      · rcases h with h | h | h <;> have := hbyte _ h <;> omega
      · rcases h with h | h | h | h <;> have := hbyte _ h <;> omega

theorem cutAfter_encode (cs : List Char) :
    cutAfter (· == (10 : UInt8)) (cs.flatMap String.utf8EncodeChar) =
      (cutAfter (· == '\n') cs).map (·.flatMap String.utf8EncodeChar) := by
  induction cs with
  | nil => rfl
  | cons c cs ih =>
    rw [List.flatMap_cons]
    by_cases hc : c = '\n'
    · subst hc
      have hcons : ∀ bytes, cutAfter (· == (10 : UInt8)) (String.utf8EncodeChar '\n' ++ bytes) =
          [10] :: cutAfter (· == (10 : UInt8)) bytes := fun _ => rfl
      have hchars : cutAfter (· == '\n') ('\n' :: cs) = ['\n'] :: cutAfter (· == '\n') cs := rfl
      rw [hcons, hchars, ih]
      rfl
    · have hnone : ∀ b ∈ String.utf8EncodeChar c, (b == 10) = false := by
        intro b hb
        rw [beq_eq_false_iff_ne]
        rintro rfl
        exact hc (newline_mem_utf8EncodeChar hb)
      rw [cutAfter_append hnone (by simp), ih, cutAfter, if_neg (by simpa using hc)]
      cases cutAfter (· == '\n') cs <;> simp

/-! ## Typed lines -/

theorem dropEndWhile_dropReturn (cs : List Char) :
    dropEndWhile (fun c => c == '\n' || c == '\r') (dropReturn cs) =
      dropEndWhile (fun c => c == '\n' || c == '\r') cs := by
  unfold dropReturn
  split
  · rename_i hlast
    obtain ⟨before, rfl⟩ := List.getLast?_eq_some_iff.mp hlast
    simp [dropEndWhile]
  · rfl

/-- A typed line loses its terminator, however it is written, and what else there is of its end. -/
theorem typedLine_dropTerminator (cs : List Char) :
    typedLine (String.ofList (dropTerminator cs)) = typedLine (String.ofList cs) := by
  simp only [typedLine, String.toList_ofList]
  unfold dropTerminator
  split
  · rename_i hlast
    obtain ⟨before, rfl⟩ := List.getLast?_eq_some_iff.mp hlast
    rw [List.dropLast_concat, dropEndWhile_dropReturn]
    simp [dropEndWhile]
  · rfl

/-- A text that is typed has the lines of a file, less the returns at the end of each. -/
theorem typedLines_toUTF8 (t : String) : typedLines t.toUTF8 = (lines t).map typedLine := by
  have hpieces : (cutAfter (· == (10 : UInt8)) t.toUTF8.toList).map
    (fun piece => String.fromUTF8? ⟨piece.toArray⟩) =
      (cutAfter (· == '\n') t.toList).map fun cs => some (String.ofList cs) := by
    rw [toList_toUTF8, cutAfter_encode, List.map_map]
    exact List.map_congr_left fun cs _ => fromUTF8?_encode cs
  rw [typedLines, hpieces, List.takeWhile_eq_self_iff.mpr (by simp)]
  simp only [lines, List.map_map, List.filterMap_map]
  rw [← List.filterMap_eq_map]
  refine List.filterMap_congr fun cs _ => ?_
  exact congrArg some (typedLine_dropTerminator cs).symm

theorem dropEndWhile_eq_self_iff {p : Char → Bool} {cs : List Char} :
    dropEndWhile p cs = cs ↔ ∀ c ∈ cs.getLast?, p c = false := by
  rw [dropEndWhile, ← List.reverse_inj, List.reverse_reverse, ← List.head?_reverse]
  cases cs.reverse with
  | nil => simp
  | cons c rest =>
    cases hc : p c with
    | true =>
      have hle := (List.dropWhile_suffix (l := rest) p).length_le
      rw [List.dropWhile_cons_of_pos hc]
      refine iff_of_false (fun heq => ?_) (by simp [hc])
      rw [heq, List.length_cons] at hle
      omega
    | false => simp [hc]

/-- A line of a file loses nothing when it is typed unless it ends in a return. -/
theorem typedLine_eq_self_iff {t line : String} (h : line ∈ lines t) :
    typedLine line = line ↔ line.toList.getLast? ≠ some '\r' := by
  have hnewline := newline_not_mem_of_mem_lines h
  rw [typedLine, ← String.toList_inj, String.toList_ofList, dropEndWhile_eq_self_iff]
  constructor
  · rintro hlast hreturn
    simpa using hlast _ hreturn
  · rintro hreturn c hc
    have hc' : c ≠ '\n' := fun heq => hnewline (heq ▸ List.mem_of_getLast? hc)
    have hc'' : c ≠ '\r' := fun heq => hreturn (heq ▸ hc)
    simp [hc', hc'']

end Chalkboard.Text
