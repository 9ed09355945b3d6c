import Chalkboard.Report.Memory
import Chalkboard.Proofs.ArraySlots
import Chalkboard.Proofs.FileLines
import Chalkboard.Proofs.PrintedNumbers
import Chalkboard.Proofs.WordedMemory

/-! # The table of memory

The columns of the table begin at the same characters in every row, and no row ends in a blank. As
long as no value in memory is shown with a newline, the rows are the lines of the table; a text that
goes over several lines breaks its row.
-/

namespace Chalkboard

/-! ## What a table shows -/

/-- The text does not end in a blank. -/
def EndsInInk (s : String) : Prop := ∀ c ∈ s.toList.getLast?, isBlank c = false

theorem EndsInInk.append {s t : String} (h : EndsInInk t) (ht : t ≠ "") : EndsInInk (s ++ t) := by
  have hne : t.toList ≠ [] := by
    rw [ne_eq, String.toList_eq_nil_iff]
    exact ht
  unfold EndsInInk
  rw [String.toList_append, List.getLast?_append_of_ne_nil _ hne]
  exact h

theorem endsInInk_of_forall {s : String} (h : ∀ c ∈ s.toList, isBlank c = false) : EndsInInk s :=
  fun c hc => h c (List.mem_of_getLast? hc)

theorem isBlank_of_all {s : String} (h : s.toList.all (fun c => !isBlank c) = true) :
    ∀ c ∈ s.toList, isBlank c = false := by
  simpa using h

theorem isBlank_of_continuesWord {c : Char} (h : Scanner.continuesWord c = true) :
    isBlank c = false := by
  rw [continuesWord_eq, Bool.or_eq_true, Scanner.startsWord_iff, Scanner.isDigit_iff] at h
  simp [isBlank, blankRanges]
  omega

theorem IsWord.isBlank {s : String} (h : IsWord s) : ∀ c ∈ s.toList, isBlank c = false :=
  fun c hc => isBlank_of_continuesWord (List.all_eq_true.mp h.2 c hc)

theorem IsWord.ne_empty {s : String} (h : IsWord s) : s ≠ "" := by
  rintro rfl
  exact h.1 rfl

theorem newline_not_mem {cs : List Char} (h : ∀ c ∈ cs, isBlank c = false) : '\n' ∉ cs :=
  fun hmem => absurd (h _ hmem) (by decide)

namespace Value

theorem isBlank_render (x : Float) : ∀ c ∈ (numberLayout.render x).toList, isBlank c = false := by
  cases hparts : Double.parts x with
  | nan =>
    have hrender : numberLayout.render x = "NaN" := by rw [NumberLayout.render, hparts]
    rw [hrender]
    exact isBlank_of_all rfl
  | infinite negative =>
    have hrender : numberLayout.render x = (if negative then "-" else "") ++ "Infinity" := by
      rw [NumberLayout.render, hparts]
      rfl
    rw [hrender]
    cases negative <;> exact isBlank_of_all rfl
  | finite negative m q =>
    by_cases hm : m = 0
    · have hrender : numberLayout.render x = "0" := by
        rw [NumberLayout.render, hparts]
        exact if_pos hm
      rw [hrender]
      exact isBlank_of_all rfl
    · obtain ⟨n, hwritten, -⟩ := written_render hparts hm
      exact fun c hc => isBlank_of_isNumeric (hwritten.numeric c hc)

end Value

namespace Table

theorem endsInInk_value (v : Value) : EndsInInk (value v) := by
  cases v with
  | null => exact fun c hc => nomatch hc
  | bool b => cases b <;> exact endsInInk_of_forall (isBlank_of_all rfl)
  | number x => exact endsInInk_of_forall (Value.isBlank_render x)
  | text s =>
    have hquote : EndsInInk "\"" := endsInInk_of_forall (isBlank_of_all rfl)
    exact hquote.append (by decide)

theorem endsInInk_cellValue (cell : Cell) : EndsInInk (cellValue cell) := by
  have hbracket : EndsInInk "]" := endsInInk_of_forall (isBlank_of_all rfl)
  have hbrace : EndsInInk "\x7d" := endsInInk_of_forall (isBlank_of_all rfl)
  obtain ⟨type, isConstant, storage⟩ := cell
  cases storage with
  | scalar v => exact endsInInk_value v
  | array store => exact hbracket.append (by decide)
  | record fields => exact hbrace.append (by decide)

theorem isBlank_toString (i : Int) : ∀ c ∈ (toString i).toList, isBlank c = false := by
  have hdigits : ∀ n : Nat, ∀ c ∈ (Nat.repr n).toList, isBlank c = false := by
    intro n c hc
    rw [Nat.repr_eq_ofList_toDigits, String.toList_ofList] at hc
    have hdigit := Nat.isDigit_of_mem_toDigits (by decide) le_rfl hc
    exact Value.isBlank_of_isNumeric (Numeral.isNumeric_of_isDigit hdigit)
  rw [Int.toString_eq_repr, Int.repr_eq_if]
  split
  · exact hdigits _
  · rw [String.toList_append, List.forall_mem_append]
    exact ⟨isBlank_of_all rfl, hdigits _⟩

/-- The type of a cell is shown on one line, and its last character is not a blank. -/
theorem cellType_of_worded {cell : Cell} (h : cell.outline.Worded) :
    cellType cell ≠ "" ∧ EndsInInk (cellType cell) ∧ '\n' ∉ (cellType cell).toList := by
  have hword : ∀ {s : String}, IsWord s → s ≠ "" ∧ EndsInInk s ∧ '\n' ∉ s.toList :=
    fun hs => ⟨hs.ne_empty, endsInInk_of_forall hs.isBlank, newline_not_mem hs.isBlank⟩
  obtain ⟨type, isConstant, storage⟩ := cell
  cases storage with
  | array store =>
    obtain ⟨hne, hink, hline⟩ := hword (h.elements _ _ _ rfl)
    have htext : cellType ⟨type, isConstant, .array store⟩ =
        "ARRAY[" ++ toString store.lower ++ ":" ++ toString store.upper ++ "] OF " ++
        store.elementType := by
      simp [cellType, toString]
    have hlower := newline_not_mem (isBlank_toString store.lower)
    have hupper := newline_not_mem (isBlank_toString store.upper)
    rw [htext]
    refine ⟨?_, hink.append hne, ?_⟩
    · rw [ne_eq, String.append_eq_empty_iff]
      exact fun hempty => hne hempty.2
    · simp only [String.toList_append, List.mem_append, not_or]
      exact ⟨⟨⟨⟨⟨by decide, hlower⟩, by decide⟩, hupper⟩, by decide⟩, hline⟩
  | scalar v => exact hword h.type
  | record fields => exact hword h.type

/-! ## Rows -/

/-- The row stands in a line: its name at column 0, its type at the first given column, and its
value, if there is one, at the second. There are only spaces between them, and no blank at the
end. -/
structure Row.StandsIn (typeColumn valueColumn : Nat) (r : Row) (line : String) : Prop where
  name : r.name.toList <+: line.toList
  apart : r.name.length < typeColumn ∧
    ∀ i, r.name.length ≤ i → i < typeColumn → line.toList[i]? = some ' '
  type : r.type.toList <+: line.toList.drop typeColumn
  value : r.value ≠ "" → typeColumn + r.type.length < valueColumn ∧
    (∀ i, typeColumn + r.type.length ≤ i → i < valueColumn → line.toList[i]? = some ' ') ∧
    line.toList.drop valueColumn = r.value.toList
  noValue : r.value = "" → line.toList.drop typeColumn = r.type.toList
  ends : EndsInInk line

/-- A row whose parts fit into the columns and leave no blanks at its end. -/
structure Row.Fits (w : Widths) (r : Row) : Prop where
  name : r.name.length ≤ w.name
  type : r.type.length ≤ w.type
  typed : r.type ≠ ""
  typeEnds : EndsInInk r.type
  valueEnds : EndsInInk r.value

theorem dropEndWhile_append {p : Char → Bool} {cs ds : List Char}
    (hcs : ∀ c ∈ cs.getLast?, p c = false)
    (hds : ∀ c ∈ ds, p c = true) : Text.dropEndWhile p (cs ++ ds) = cs := by
  have hds : ∀ c ∈ ds.reverse, p c = true := by simpa using hds
  have hstop : cs.reverse.dropWhile p = cs.reverse := by
    rw [← List.head?_reverse] at hcs
    cases hreverse : cs.reverse with
    | nil => rfl
    | cons c rest =>
      rw [hreverse] at hcs
      rw [List.dropWhile_cons_of_neg]
      simp [hcs c rfl]
  rw [Text.dropEndWhile, List.reverse_append, List.dropWhile_append_of_pos hds, hstop,
    List.reverse_reverse]

theorem endsInInk_trimEnd (s : String) : EndsInInk (Text.trimEnd s) := by
  unfold EndsInInk Text.trimEnd Text.dropEndWhile
  rw [String.toList_ofList, List.getLast?_reverse]
  intro c hc
  have hstop := List.head?_dropWhile_not isBlank s.toList.reverse
  rw [Option.mem_def.mp hc] at hstop
  exact hstop

theorem getElem?_spaces {before after : List Char} {k i : Nat} (hlow : before.length ≤ i)
    (hhigh : i < before.length + k) :
    (before ++ (List.replicate k ' ' ++ after))[i]? = some ' ' := by
  rw [List.getElem?_append_right hlow, List.getElem?_append_left (by simp; omega),
    List.getElem?_replicate, if_pos (by omega)]

theorem toList_padRight (width : Nat) (s : String) :
    (Text.padRight width s ++ "  ").toList =
    s.toList ++ List.replicate (width - s.length + 2) ' ' := by
  rw [Text.padRight, Text.repeated, String.toList_append, String.toList_append,
    String.toList_ofList, List.append_assoc, List.replicate_add]
  rfl

namespace Row

variable {w : Widths} {r : Row}

/-- What is left of a row without the blanks at its end. -/
theorem toList_render (h : r.Fits w) : (r.render w).toList =
    r.name.toList ++ (List.replicate (w.name - r.name.length + 2) ' ' ++ (r.type.toList ++
      if r.value = "" then []
      else List.replicate (w.type - r.type.length + 2) ' ' ++ r.value.toList)) := by
  have hfull : (Text.padRight w.name r.name ++ "  " ++ Text.padRight w.type r.type ++ "  " ++
    r.value).toList =
      (r.name.toList ++ List.replicate (w.name - r.name.length + 2) ' ' ++ r.type.toList) ++
        (List.replicate (w.type - r.type.length + 2) ' ' ++ r.value.toList) := by
    rw [@String.append_assoc (Text.padRight w.name r.name ++ "  "), String.toList_append,
      String.toList_append, toList_padRight, toList_padRight]
    simp only [List.append_assoc]
  rw [render, Text.trimEnd, String.toList_ofList, hfull]
  split
  · rename_i hvalue
    have htype : r.type.toList ≠ [] := by
      rw [ne_eq, String.toList_eq_nil_iff]
      exact h.typed
    rw [hvalue, dropEndWhile_append]
    · simp
    · rw [List.getLast?_append_of_ne_nil _ htype]
      exact h.typeEnds
    · intro c hc
      simp at hc
      rw [hc]
      decide
  · rename_i hvalue
    have hne : r.value.toList ≠ [] := by
      rw [ne_eq, String.toList_eq_nil_iff]
      exact hvalue
    rw [← List.append_nil (_ ++ (_ ++ r.value.toList)), dropEndWhile_append]
    · simp only [List.append_assoc]
    · rw [← List.append_assoc, List.getLast?_append_of_ne_nil _ hne]
      exact h.valueEnds
    · simp

theorem length_name_spaces (h : r.Fits w) :
    r.name.toList.length + (w.name - r.name.length + 2) = w.name + 2 := by
  have hname := h.name
  rw [String.length_toList]
  omega

theorem drop_render (h : r.Fits w) : (r.render w).toList.drop (w.name + 2) = r.type.toList ++
    if r.value = "" then []
    else List.replicate (w.type - r.type.length + 2) ' ' ++ r.value.toList := by
  rw [toList_render h, ← List.append_assoc, List.drop_left']
  rw [List.length_append, List.length_replicate, length_name_spaces h]

/-- Behind the type come spaces up to the column of the value. -/
theorem value_of_render (h : r.Fits w) (hvalue : r.value ≠ "") :
    (∀ i, w.name + 2 + r.type.length ≤ i → i < w.name + 2 + w.type + 2 →
      (r.render w).toList[i]? = some ' ') ∧
      (r.render w).toList.drop (w.name + 2 + w.type + 2) = r.value.toList := by
  have hdrop := drop_render h
  have htype := h.type
  rw [if_neg hvalue] at hdrop
  constructor
  · intro i hlow hhigh
    obtain ⟨k, rfl⟩ : ∃ k, i = w.name + 2 + k := ⟨i - (w.name + 2), by omega⟩
    rw [← List.getElem?_drop, hdrop]
    apply getElem?_spaces
    · rw [String.length_toList]
      omega
    · rw [String.length_toList]
      omega
  · have hcolumns : w.name + 2 + w.type + 2 = w.name + 2 + (w.type + 2) := by omega
    rw [hcolumns, ← List.drop_drop, hdrop, ← List.append_assoc, List.drop_left']
    rw [List.length_append, List.length_replicate, String.length_toList]
    omega

theorem standsIn_render (h : r.Fits w) :
    r.StandsIn (w.name + 2) (w.name + 2 + w.type + 2) (r.render w) := by
  have hname := h.name
  have htype := h.type
  constructor
  · rw [toList_render h]
    exact List.prefix_append _ _
  · constructor
    · omega
    · intro i hlow hhigh
      rw [toList_render h]
      apply getElem?_spaces
      · rw [String.length_toList]
        exact hlow
      · rw [length_name_spaces h]
        exact hhigh
  · rw [drop_render h]
    exact List.prefix_append _ _
  · intro hvalue
    exact ⟨by omega, value_of_render h hvalue⟩
  · intro hvalue
    rw [drop_render h, if_pos hvalue, List.append_nil]
  · exact endsInInk_trimEnd _

theorem newline_mem_render (h : r.Fits w) (hname : '\n' ∉ r.name.toList)
    (htype : '\n' ∉ r.type.toList) : '\n' ∈ (r.render w).toList ↔ '\n' ∈ r.value.toList := by
  rw [toList_render h]
  split
  · rename_i hvalue
    simp [hname, htype, hvalue]
  · simp [hname, htype]

end Row

/-! ## Tables -/

def heading : Row := ⟨"NAME", "TYPE", "VALUE"⟩

/-- A rule under each column. -/
def rule (w : Widths) :
    Row := ⟨Text.repeated '-' w.name, Text.repeated '-' w.type, Text.repeated '-' w.value⟩

/-- The rows of memory below the heading and the rule. -/
def entryRows (memory : Frame) : List Row := memory.entries.map fun (name, cell) => row name cell

def widths (memory : Frame) : Widths := (entryRows memory).foldl Widths.widen leastWidths

theorem rows_eq (memory : Frame) :
    rows memory = (heading :: rule (widths memory) :: entryRows memory).map
    (Row.render (widths memory)) := rfl

theorem le_foldl_widen (rs : List Row) (w : Widths) :
    (w.name ≤ (rs.foldl Widths.widen w).name ∧ w.type ≤ (rs.foldl Widths.widen w).type) ∧
      ∀ r ∈ rs, r.name.length ≤ (rs.foldl Widths.widen w).name ∧
      r.type.length ≤ (rs.foldl Widths.widen w).type := by
  induction rs generalizing w with
  | nil => simp
  | cons r rs ih =>
    obtain ⟨⟨hname, htype⟩, hrs⟩ := ih (w.widen r)
    rw [List.foldl_cons, List.forall_mem_cons]
    have hwiden : (w.name ≤ (w.widen r).name ∧ r.name.length ≤ (w.widen r).name) ∧
        w.type ≤ (w.widen r).type ∧ r.type.length ≤ (w.widen r).type :=
      ⟨⟨Nat.le_max_left _ _, Nat.le_max_right _ _⟩, Nat.le_max_left _ _, Nat.le_max_right _ _⟩
    exact ⟨⟨hwiden.1.1.trans hname, hwiden.2.1.trans htype⟩,
      ⟨hwiden.1.2.trans hname, hwiden.2.2.trans htype⟩, hrs⟩

variable {memory : Frame}

theorem fits_entry (hw : memory.Worded) : ∀ r ∈ entryRows memory, r.Fits (widths memory) := by
  intro r hr
  obtain ⟨hname, htype⟩ := (le_foldl_widen (entryRows memory) leastWidths).2 r hr
  obtain ⟨⟨name, cell⟩, hentry, rfl⟩ := List.mem_map.mp hr
  obtain ⟨hne, hink, -⟩ := cellType_of_worded (hw.types _ hentry)
  exact ⟨hname, htype, hne, hink, endsInInk_cellValue cell⟩

theorem fits_heading (memory : Frame) : heading.Fits (widths memory) := by
  obtain ⟨⟨hname, htype⟩, -⟩ := le_foldl_widen (entryRows memory) leastWidths
  exact ⟨hname, htype, by decide, endsInInk_of_forall (isBlank_of_all rfl),
    endsInInk_of_forall (isBlank_of_all rfl)⟩

theorem isBlank_repeated (n : Nat) : ∀ c ∈ (Text.repeated '-' n).toList, isBlank c = false := by
  intro c hc
  rw [Text.repeated, String.toList_ofList] at hc
  rw [List.eq_of_mem_replicate hc]
  rfl

theorem fits_rule (memory : Frame) : (rule (widths memory)).Fits (widths memory) := by
  obtain ⟨⟨-, htype⟩, -⟩ := le_foldl_widen (entryRows memory) leastWidths
  have hlength : ∀ n, (Text.repeated '-' n).length = n := by
    intro n
    rw [Text.repeated, String.length_ofList, List.length_replicate]
  have hpos : 0 < (widths memory).type := lt_of_lt_of_le (by decide : 0 < 4) htype
  refine ⟨(hlength _).le, (hlength _).le, ?_, endsInInk_of_forall (isBlank_repeated _),
    endsInInk_of_forall (isBlank_repeated _)⟩
  intro hempty
  have hzero := hlength (widths memory).type
  rw [show Text.repeated '-' (widths memory).type = "" from hempty] at hzero
  exact absurd hzero hpos.ne

theorem fits_rows (hw : memory.Worded) :
    ∀ r ∈ heading :: rule (widths memory) :: entryRows memory, r.Fits (widths memory) := by
  rw [List.forall_mem_cons, List.forall_mem_cons]
  exact ⟨fits_heading memory, fits_rule memory, fits_entry hw⟩

/-- A newline in a row comes from the value of its entry. -/
theorem newline_not_mem_rows_iff (hw : memory.Worded) : (∀ line ∈ rows memory, '\n' ∉ line.toList) ↔
    ∀ entry ∈ memory.entries, '\n' ∉ (cellValue entry.2).toList := by
  have hdashes : ∀ n, '\n' ∉ (Text.repeated '-' n).toList :=
    fun n => newline_not_mem (isBlank_repeated n)
  have hheading : '\n' ∉ (heading.render (widths memory)).toList := by
    rw [Row.newline_mem_render (fits_heading memory) (by decide) (by decide)]
    decide
  have hrule : '\n' ∉ ((rule (widths memory)).render (widths memory)).toList := by
    rw [Row.newline_mem_render (fits_rule memory) (hdashes _) (hdashes _)]
    exact hdashes _
  have hentry : ∀ entry ∈ memory.entries, ('\n' ∉
    ((row entry.1 entry.2).render (widths memory)).toList ↔
      '\n' ∉ (cellValue entry.2).toList) := by
    intro entry hmem
    have hname : IsWord entry.1 := hw.names _ (List.mem_map_of_mem hmem)
    obtain ⟨-, -, htype⟩ := cellType_of_worded (hw.types entry hmem)
    have hfits := fits_entry hw _ (List.mem_map_of_mem hmem)
    exact not_congr (Row.newline_mem_render hfits (newline_not_mem hname.isBlank) htype)
  rw [rows_eq, List.forall_mem_map, List.forall_mem_cons, List.forall_mem_cons, entryRows,
    List.forall_mem_map]
  constructor
  · rintro ⟨-, -, hentries⟩ entry hmem
    exact (hentry entry hmem).mp (hentries entry hmem)
  · intro hvalues
    exact ⟨hheading, hrule, fun entry hmem => (hentry entry hmem).mpr (hvalues entry hmem)⟩

/-- Rows are lines as long as no value is shown with a newline. -/
theorem lines_render_iff (hw : memory.Worded) (hne : memory.entries ≠ []) :
    Text.lines (render memory) = rows memory ↔
      ∀ entry ∈ memory.entries, '\n' ∉ (cellValue entry.2).toList := by
  have hrender : render memory = String.join ((rows memory).map (· ++ "\n")) := by
    rw [render, List.isEmpty_eq_false_iff.mpr hne]
    rfl
  have hreturn : ∀ line ∈ rows memory, line.toList.getLast? ≠ some '\r' := by
    intro line hline hlast
    obtain ⟨r, -, rfl⟩ := List.mem_map.mp hline
    exact absurd (endsInInk_trimEnd _ '\r' hlast) (by decide)
  rw [← newline_not_mem_rows_iff hw, hrender]
  constructor
  · intro hlines line hline
    rw [← hlines] at hline
    exact Text.newline_not_mem_of_mem_lines hline
  · intro hrows
    exact Text.lines_join fun line hline => ⟨hrows line hline, hreturn line hline⟩

end Table

/-- The table of memory, after any run and at any moment of it that was shown, has a heading, a
rule, and a row for each name, and the rows stand in the order in which the names came in. In every
row the name begins at column 0, the type at one column and the value, if there is one, at another;
no row ends in a blank. These rows are the lines of the table unless a value is shown with a
newline. -/
theorem memory_rows_aligned {source : String} {p : Program} (h : Program.ofSource source = .ok p)
    (rounds : Nat) (answers : List String) :
    let m := (p.run rounds).final (Machine.start answers)
    (m.environments.Pairwise fun later earlier => earlier.globals.keys <+: later.globals.keys) ∧
    ∀ env ∈ m.environments, env.globals.entries ≠ [] →
      (∃ w : Table.Widths, List.Forall₂ (Table.Row.StandsIn (w.name + 2) (w.name + 2 + w.type + 2))
        (Table.heading :: Table.rule w :: Table.entryRows env.globals) (Table.rows env.globals)) ∧
      Table.render env.globals = String.join ((Table.rows env.globals).map (· ++ "\n")) ∧
      (Text.lines (Table.render env.globals) = Table.rows env.globals ↔
        ∀ entry ∈ env.globals.entries, '\n' ∉ (Table.cellValue entry.2).toList) := by
  intro m
  have horderly : m.Orderly := Program.orderly_run h rounds answers
  refine ⟨horderly.ordered, ?_⟩
  intro env henv hne
  have hw : env.globals.Worded := horderly.worded env henv
  refine ⟨⟨Table.widths env.globals, ?_⟩, ?_, Table.lines_render_iff hw hne⟩
  · rw [Table.rows_eq, List.forall₂_map_right_iff, List.forall₂_same]
    exact fun r hr => Table.Row.standsIn_render (Table.fits_rows hw r hr)
  · rw [Table.render, List.isEmpty_eq_false_iff.mpr hne]
    rfl

/-- What a program is found to give shows that there is the program. -/
theorem exists_program {α : Type} {source : String} {f : Program → α} {a : α}
    (h : (Program.ofSource source).toOption.map f = some a) :
    ∃ p, Program.ofSource source = .ok p ∧ f p = a := by
  obtain ⟨p, hp, hf⟩ := Option.map_eq_some_iff.mp h
  refine ⟨p, ?_, hf⟩
  cases hsource : Program.ofSource source with
  | error e =>
    rw [hsource] at hp
    cases hp
  | ok q =>
    rw [hsource] at hp
    cases hp
    rfl

namespace Table

/-- The value of a cell that is no record, where an array is read slot by slot. A range of its
slots cannot be evaluated. -/
def plainValue (cell : Cell) : String :=
  match cell.storage with
  | .scalar v => value v
  | .array store =>
    let slots := store.slots.toList.filter fun slot => store.inBounds slot.1
    "[" ++ ", ".intercalate (slots.map fun slot => value slot.2) ++ "]"
  | .record _ => ""

theorem cellValue_eq_plainValue {cell : Cell} (h : cell.shape ≠ .record) :
    cellValue cell = plainValue cell := by
  obtain ⟨type, isConstant, storage⟩ := cell
  cases storage with
  | scalar v => rfl
  | array store =>
    show "[" ++ ", ".intercalate (store.elements.map fun slot => value slot.2) ++ "]" = _
    rw [store.elements_eq]
    rfl
  | record fields => exact absurd rfl h

theorem entryRows_eq {memory : Frame} (h : ∀ entry ∈ memory.entries, entry.2.shape ≠ .record) :
    entryRows memory =
      memory.entries.map fun entry => ⟨entry.1, cellType entry.2, plainValue entry.2⟩ := by
  apply List.map_congr_left
  intro entry hentry
  exact congrArg (Row.mk entry.1 (cellType entry.2)) (cellValue_eq_plainValue (h entry hentry))

end Table

/-- An array, a constant with blanks at its ends, and a variable that got the result of a function
that returned nothing. -/
def threeNames : String :=
  "DECLARE a : ARRAY[1:2] OF CHAR\nCONSTANT Wide <- ' x '\nDECLARE n : REAL\n" ++
    "FUNCTION F() RETURNS REAL\nENDFUNCTION\nn <- F()"

theorem memory_rows_aligned_three :
    ∃ p, Program.ofSource threeNames = .ok p ∧
      let m := (p.run 1).final (Machine.start [])
      (m.env ∈ m.environments ∧ m.env.globals.entries ≠ [] ∧
        ∀ entry ∈ m.env.globals.entries, '\n' ∉ (Table.cellValue entry.2).toList) ∧
      (∃ w : Table.Widths, List.Forall₂ (Table.Row.StandsIn (w.name + 2) (w.name + 2 + w.type + 2))
        (Table.heading :: Table.rule w :: Table.entryRows m.env.globals)
        (Table.rows m.env.globals)) ∧
      Text.lines (Table.render m.env.globals) =
        ["NAME  TYPE                VALUE", "----  ------------------  --------",
          "A     ARRAY[1:2] OF CHAR  [\"\", \"\"]", "WIDE  CONSTANT            \" x \"",
          "N     REAL"] := by
  obtain ⟨p, hp, hrun⟩ : ∃ p, Program.ofSource threeNames = .ok p ∧
      (let entries := ((p.run 1).final (Machine.start [])).env.globals.entries
      (entries.map fun entry => entry.2.shape, entries.map fun entry =>
        (⟨entry.1, Table.cellType entry.2, Table.plainValue entry.2⟩ : Table.Row))) =
      ([.array, .scalar, .scalar], [⟨"A", "ARRAY[1:2] OF CHAR", "[\"\", \"\"]"⟩,
        ⟨"WIDE", "CONSTANT", "\" x \""⟩, ⟨"N", "REAL", ""⟩]) := by
    apply exists_program
    decide +kernel
  generalize hm : (p.run 1).final (Machine.start []) = m at hrun
  obtain ⟨hshapes, hrows⟩ := Prod.mk.inj hrun
  have hshape : ∀ entry ∈ m.env.globals.entries, entry.2.shape ≠ .record := by
    intro entry hentry
    have hmem := List.mem_map_of_mem (f := fun entry => entry.2.shape) hentry
    have hnone : ∀ shape ∈ [Shape.array, .scalar, .scalar], shape ≠ .record := by decide
    exact hnone _ (hshapes ▸ hmem)
  have hentries := (Table.entryRows_eq hshape).trans hrows
  have hvalues : ∀ r ∈ Table.entryRows m.env.globals, '\n' ∉ r.value.toList := by
    rw [hentries]
    decide
  have hlines : ∀ entry ∈ m.env.globals.entries, '\n' ∉ (Table.cellValue entry.2).toList :=
    fun entry hentry => hvalues _ (List.mem_map_of_mem hentry)
  have hne : m.env.globals.entries ≠ [] := by
    intro hempty
    rw [hempty] at hrows
    cases hrows
  obtain ⟨-, halign⟩ := memory_rows_aligned hp 1 []
  rw [hm] at halign
  obtain ⟨hstand, -, hiff⟩ := halign _ List.mem_cons_self hne
  refine ⟨p, hp, ?_⟩
  rw [hm]
  refine ⟨⟨List.mem_cons_self, hne, hlines⟩, hstand, (hiff.mpr hlines).trans ?_⟩
  rw [Table.rows_eq, Table.widths, hentries]
  decide

/-- A text with a newline takes its row apart, and a line of the table ends in a blank. -/
theorem table_breaks_at_newline :
    ∃ p, Program.ofSource "DECLARE s : STRING\ns <- \"a \nb\"" = .ok p ∧
      let memory := ((p.run 1).final (Machine.start [])).env.globals
      memory.keys = ["S"] ∧ Text.lines (Table.render memory) =
        ["NAME  TYPE    VALUE", "----  ------  ------", "S     STRING  \"a ", "b\""] := by
  obtain ⟨p, hp, hrun⟩ : ∃ p, Program.ofSource "DECLARE s : STRING\ns <- \"a \nb\"" = .ok p ∧
      (let memory := ((p.run 1).final (Machine.start [])).env.globals
      (memory.keys, Text.lines (Table.render memory))) =
      (["S"], ["NAME  TYPE    VALUE", "----  ------  ------", "S     STRING  \"a ", "b\""]) := by
    apply exists_program
    decide +kernel
  obtain ⟨hkeys, hlines⟩ := Prod.mk.inj hrun
  exact ⟨p, hp, hkeys, hlines⟩

end Chalkboard
