import Chalkboard.Proofs.Lexemes

/-! # The scanner partitions the text

A text that scans is cut into gaps and lexemes, without a character left over. The spans of the
tokens are the bytes of the lexemes, and the lines and columns that the scanner counts on its way
are those counted from the beginning of the text.
-/

namespace Chalkboard

def Text.size (cs : List Char) : Nat := (String.ofList cs).utf8ByteSize

@[simp] theorem Text.size_nil : Text.size [] = 0 := rfl

theorem Text.size_append (cs ds : List Char) :
    Text.size (cs ++ ds) = Text.size cs + Text.size ds := by
  rw [Text.size, String.ofList_append, String.utf8ByteSize_append, Text.size, Text.size]

theorem Text.size_singleton (c : Char) : Text.size [c] = c.utf8Size := by
  rw [Text.size, ← String.singleton_eq_ofList, String.utf8ByteSize_singleton]

theorem Text.size_pos {cs : List Char} (h : cs ≠ []) : 0 < Text.size cs := by
  obtain ⟨c, cs, rfl⟩ := List.exists_cons_of_ne_nil h
  have hc := c.utf8Size_pos
  rw [← List.singleton_append, Text.size_append, Text.size_singleton]
  omega

namespace Position

theorem offset_advance (p : Position) (cs : List Char) :
    (p.advance cs).offset = p.offset + Text.size cs := by
  induction cs generalizing p with
  | nil => rfl
  | cons c cs ih =>
    rw [advance_cons, ih, offset_step, ← List.singleton_append, Text.size_append,
      Text.size_singleton, Nat.add_assoc]

theorem seek_advance (p : Position) (cs ds : List Char) :
    seek (p.advance cs).offset p (cs ++ ds) = p.advance cs := by
  induction cs generalizing p with
  | nil => cases ds <;> simp [seek]
  | cons c cs ih =>
    have hpos := c.utf8Size_pos
    have hlt : ¬ ((p.step c).advance cs).offset ≤ p.offset := by
      rw [offset_advance, offset_step]
      omega
    rw [List.cons_append, advance_cons, seek, if_neg hlt]
    exact ih (p.step c)

/-- The position after a part of the text is the position of its offset. -/
theorem ofOffset_advance {source : String} {left right : List Char}
    (h : source.toList = left ++ right) :
    ofOffset source (origin.advance left).offset = origin.advance left := by
  rw [ofOffset, h, seek_advance]

end Position

/-- The rest of a text, after the part `before`, is cut into the given tokens and the gaps around
them. Each token spans the bytes of its word; no gap goes on where the word begins, and the word is
the longest that spells a token there. -/
inductive Tiled : (before rest : List Char) → List Located → Prop where
  | nil {before gap : List Char} : Gap gap [] → Tiled before gap []
  | cons {before gap word rest : List Char} {t : Located} {ts : List Located} :
      Gap gap (word ++ rest) → NoGap (word ++ rest) → t.token.Longest word rest →
      t.span = ⟨Text.size (before ++ gap), Text.size (before ++ gap ++ word)⟩ →
      Tiled (before ++ gap ++ word) rest ts → Tiled before (gap ++ word ++ rest) (t :: ts)

/-- What a list of tokens says about the text it was scanned from. -/
structure Partition (source : String) (ts : List Located) : Prop where
  tiled : Tiled [] source.toList ts
  nonempty : ∀ t ∈ ts, t.span.start < t.span.stop
  inside : ∀ t ∈ ts, t.span.stop ≤ source.utf8ByteSize
  boundaries : ∀ t ∈ ts, String.Pos.Raw.IsValid source ⟨t.span.start⟩ ∧
    String.Pos.Raw.IsValid source ⟨t.span.stop⟩
  disjoint : ts.Pairwise fun t u => t.span.stop ≤ u.span.start
  positions : ∀ t ∈ ts, t.start = Position.ofOffset source t.span.start

theorem Token.Spelled.ne_nil {token : Token} {word : List Char} (h : token.Spelled word) :
    word ≠ [] := by
  cases h with
  | text => simp
  | integer h => exact h
  | real => simp
  | keyword => simp
  | name => simp
  | symbol h => exact Scanner.spellings_ne_nil _ h

namespace Tiled

variable {before rest : List Char} {t : Located} {ts : List Located}

theorem exists_word (h : Tiled before rest ts) (ht : t ∈ ts) :
    ∃ gap word after, rest = gap ++ word ++ after ∧ word ≠ [] ∧
      t.span = ⟨Text.size (before ++ gap), Text.size (before ++ gap ++ word)⟩ := by
  induction h with
  | nil => cases ht
  | @cons before gap word rest u us _ _ hl hspan _ ih =>
    rcases List.mem_cons.mp ht with rfl | ht
    · exact ⟨gap, word, rest, rfl, hl.spelled.ne_nil, hspan⟩
    · obtain ⟨gap', word', after, rfl, hne, hspan'⟩ := ih ht
      exact ⟨gap ++ word ++ gap', word', after, by simp, hne, by simpa using hspan'⟩

theorem disjoint (h : Tiled before rest ts) :
    ts.Pairwise fun t u => t.span.stop ≤ u.span.start := by
  induction h with
  | nil => exact .nil
  | @cons before gap word rest t ts _ _ _ hspan hts ih =>
    refine .cons (fun u hu => ?_) ih
    obtain ⟨gap', word', after, -, -, hspan'⟩ := hts.exists_word hu
    rw [hspan, hspan', Text.size_append (before ++ gap ++ word)]
    exact Nat.le_add_right _ _

end Tiled

namespace Scanner

/-- What a successful scan begins with: a gap, and after it the end of the text or a token. -/
theorem scanFrom_eq_ok {n : Nat} {p : Position} {cs : List Char} {ts : List Located}
    (h : scanFrom (n + 1) p cs = .ok ts) :
    ∃ gap after, gaps (n + 1) cs = (gap, after) ∧
      ((after = [] ∧ ts = []) ∨ ∃ token word rest us, token? after = some (token, word, rest) ∧
        scanFrom n (p.advance (gap ++ word)) rest = .ok us ∧
        ts = ⟨token, p.advance gap, (p.advance (gap ++ word)).offset⟩ :: us) := by
  refine ⟨_, _, rfl, ?_⟩
  simp only [scanFrom] at h
  split at h
  · rename_i hnil
    cases h
    exact .inl ⟨hnil, rfl⟩
  · split at h
    · cases h
    · rename_i token word rest htoken
      rw [← Position.advance_append] at h
      split at h
      · cases h
      · rename_i us hus
        cases h
        exact .inr ⟨token, word, rest, us, htoken, hus, rfl⟩

/-- A scan cuts off gaps and longest words one after the other. The words are not empty, so that the
bound never ends a scan early. -/
theorem tiled_scanFrom {n : Nat} {before cs : List Char} {ts : List Located} (hn : cs.length ≤ n)
    (h : scanFrom n (Position.origin.advance before) cs = .ok ts) :
    Tiled before cs ts ∧
      ∀ t ∈ ts, ∃ left, left <+: before ++ cs ∧ t.start = Position.origin.advance left := by
  induction n generalizing before cs ts with
  | zero =>
    obtain rfl : cs = [] := List.length_eq_zero_iff.mp (Nat.le_zero.mp hn)
    cases h
    exact ⟨.nil .nil, by simp⟩
  | succ n ih =>
    obtain ⟨gap, after, hg, hcase⟩ := scanFrom_eq_ok h
    have hgap := gap_gaps (n + 1) cs
    have hnone := gap?_gaps hn
    have hcs := gaps_append (n + 1) cs
    rw [hg] at hgap hnone hcs
    dsimp only at hgap hnone hcs
    subst hcs
    rcases hcase with ⟨rfl, rfl⟩ | ⟨token, word, rest, us, htoken, hus, rfl⟩
    · rw [List.append_nil]
      exact ⟨.nil hgap, by simp⟩
    · obtain ⟨rfl, hne⟩ := token?_append htoken
      have hlen : rest.length ≤ n := by
        have := List.length_pos_iff.mpr hne
        simp only [List.length_append] at hn
        omega
      rw [← Position.advance_append, ← List.append_assoc] at hus
      obtain ⟨htiled, hstarts⟩ := ih hlen hus
      rw [← Position.advance_append, ← Position.advance_append, ← List.append_assoc before]
      constructor
      · rw [← List.append_assoc]
        refine .cons hgap (noGap_of_gap? hnone) (longest_of_token? htoken) ?_ htiled
        simp [Located.span, Position.offset_advance, Position.origin]
      · intro t ht
        rcases List.mem_cons.mp ht with rfl | ht
        · exact ⟨before ++ gap, by simp, rfl⟩
        · obtain ⟨left, hleft, hstart⟩ := hstarts t ht
          exact ⟨left, by simpa using hleft, hstart⟩

end Scanner

/-- A text on which the scanner succeeds is partitioned into tokens and gaps. -/
theorem scan_partitions (source : String) (ts : List Located) (h : scan source = .ok ts) :
    Partition source ts := by
  obtain ⟨htiled, hstarts⟩ := Scanner.tiled_scanFrom (Nat.le_refl source.toList.length)
    (show Scanner.scanFrom _ (Position.origin.advance []) source.toList = .ok ts from h)
  have hword : ∀ t ∈ ts, ∃ left word right, source =
    String.ofList left ++ String.ofList (word ++ right) ∧
      word ≠ [] ∧ t.span = ⟨Text.size left, Text.size (left ++ word)⟩ := by
    intro t ht
    obtain ⟨left, word, right, hs, hne, hspan⟩ := htiled.exists_word ht
    refine ⟨left, word, right, ?_, hne, hspan⟩
    rw [← String.ofList_append, ← List.append_assoc, ← hs, String.ofList_toList]
  refine ⟨htiled, fun t ht => ?_, fun t ht => ?_, fun t ht => ?_, htiled.disjoint, fun t ht => ?_⟩
  · obtain ⟨left, word, right, -, hne, hspan⟩ := hword t ht
    have := Text.size_pos hne
    rw [hspan, Text.size_append]
    exact Nat.lt_add_of_pos_right this
  · obtain ⟨left, word, right, hs, -, hspan⟩ := hword t ht
    rw [hspan, hs, ← String.ofList_append, ← List.append_assoc, String.ofList_append,
      String.utf8ByteSize_append]
    exact Nat.le_add_right _ _
  · obtain ⟨left, word, right, hs, -, hspan⟩ := hword t ht
    rw [hspan]
    constructor
    · exact String.Pos.Raw.isValid_iff_exists_append.mpr ⟨_, _, hs, rfl⟩
    · rw [← String.ofList_append, ← List.append_assoc, String.ofList_append] at hs
      exact String.Pos.Raw.isValid_iff_exists_append.mpr ⟨_, _, hs, rfl⟩
  · obtain ⟨left, ⟨right, hs⟩, hstart⟩ := hstarts t ht
    have hoffset := Position.ofOffset_advance hs.symm
    rw [← hstart] at hoffset
    exact hoffset.symm

/-- A text with both kinds of comments, where an arrow directly follows a name. -/
theorem scan_partitions_arrow :
    scan "// first\nx<-'a' /* b */" = .ok [⟨.name "x", ⟨9, 2, 1⟩, 10⟩,
      ⟨.symbol .assign, ⟨10, 2, 2⟩, 12⟩, ⟨.text "a", ⟨12, 2, 4⟩, 15⟩] ∧
    Partition "// first\nx<-'a' /* b */" [⟨.name "x", ⟨9, 2, 1⟩, 10⟩,
      ⟨.symbol .assign, ⟨10, 2, 2⟩, 12⟩, ⟨.text "a", ⟨12, 2, 4⟩, 15⟩] :=
  ⟨rfl, scan_partitions _ _ rfl⟩

end Chalkboard
