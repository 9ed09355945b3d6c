import Chalkboard.Proofs.CaseVariants
import Chalkboard.Proofs.Partition
import Chalkboard.Proofs.PlainRuns
import Chalkboard.Session

/-! # Letter case does not matter

Two texts that differ only in the case of letters outside of text literals fail to be read with the
same error, or are programs that run alike, also if their parameters are marked differently.
Scanning gives the same tokens but for the case of names, parsing the same programs but for the case
of names and types, and such programs have the same plain form.
-/

namespace Chalkboard

/-! ## Reading -/

theorem key_text (k : Keyword) : key k.text = k.text := by
  cases k <;> rfl

theorem CaseVariants.length_eq {cs ds : List Char} (h : CaseVariants cs ds) :
    ds.length = cs.length := by
  simpa using congrArg List.length h.upper

variable {s t : String}

theorem scan_variants (h : CaseVariants s.toList t.toList) :
    Scanner.upperNames (scan t) = Scanner.upperNames (scan s) := by
  rw [scan, scan, h.length_eq]
  exact Scanner.scanFrom_variants (Nat.le_refl _) h .origin

theorem utf8ByteSize_variants (h : CaseVariants s.toList t.toList) :
    t.utf8ByteSize = s.utf8ByteSize := by
  have hsize : ∀ s : String, s.utf8ByteSize = (Position.origin.advance s.toList).offset := by
    intro s
    simp [Position.offset_advance, Text.size, Position.origin]
  rw [hsize, hsize, Position.advance_congr h.upper]

/-- Both texts fail with the same error, or both are programs that differ in the case of names
only. -/
theorem ofSource_variants (h : CaseVariants s.toList t.toList) :
    (Program.ofSource t).map (Program.rename key) =
    (Program.ofSource s).map (Program.rename key) := by
  have hscan := scan_variants h
  have hkeeps : Parser.Similar.KeepsTypes key := fun k _ => key_text k
  unfold Program.ofSource
  rw [utf8ByteSize_variants h]
  cases hs : scan s with
  | error stray =>
    cases ht : scan t with
    | error stray' => simp_all [Scanner.upperNames, Except.map]
    | ok us => simp_all [Scanner.upperNames, Except.map]
  | ok ts =>
    cases ht : scan t with
    | error stray' => simp_all [Scanner.upperNames, Except.map]
    | ok us =>
      have hnames : us.map (Located.rename key) = ts.map (Located.rename key) := by
        simpa [hs, ht, Scanner.upperNames, Except.map] using hscan
      have hparse := Program.parse_rename hkeeps s.utf8ByteSize us
      rw [hnames, Program.parse_rename hkeeps] at hparse
      dsimp only
      cases hp : Program.parse s.utf8ByteSize ts <;> cases hq : Program.parse s.utf8ByteSize us <;>
        simp_all [Except.map]

/-! ## Running -/

def Stop.code? : Stop → Option String
  | error e => some e.code
  | unfinished => none

/-- Runs that cannot be told apart but for the case of the names that answers are asked for under,
and of the types in memory. -/
structure SameRun (x y : Exec Unit) (m : Machine) : Prop where
  output : (y.final m).output = (x.final m).output
  prompts : (y.final m).prompts.map key = (x.final m).prompts.map key
  answers : (y.final m).answers = (x.final m).answers
  ending : (y.outcome m).mapError Stop.code? = (x.outcome m).mapError Stop.code?
  memory : Frame.plain (y.final m).memory = Frame.plain (x.final m).memory

namespace Machine

theorem output_plain (m : Machine) : m.plain.output = m.output := by
  have hprinted : ∀ e : Event, e.plain.printed? = e.printed? := by
    rintro (_ | _ | _ | _) <;> rfl
  simp only [output, outputOf, events, plain, ← List.map_reverse, List.filterMap_map,
    Function.comp_def, hprinted]

theorem prompts_plain (m : Machine) : m.plain.prompts = m.prompts.map key := by
  have hasked : ∀ e : Event, e.plain.asked? = e.asked?.map key := by
    rintro (_ | _ | _ | _) <;> rfl
  simp only [prompts, promptsOf, events, plain, ← List.map_reverse, List.filterMap_map,
    List.map_filterMap, Function.comp_def, hasked]

end Machine

theorem Stop.code?_plain (stop : Stop) : stop.plain.code? = stop.code? := by
  cases stop with
  | error e => exact congrArg some e.code_plain
  | unfinished => rfl

theorem sameRun_of_plain_eq {p q : Program} (h : q.plain = p.plain) (rounds : Nat)
    (answers : List String) : SameRun (p.run rounds) (q.run rounds) (.start answers) := by
  have hp := p.run_mirrors rounds
  have hq := q.run_mirrors rounds
  rw [h] at hq
  have hfinal : ((q.run rounds).final (.start answers)).plain =
      ((p.run rounds).final (.start answers)).plain :=
    (hq.final _).symm.trans (hp.final _)
  have houtcome : ((q.run rounds).outcome (.start answers)).mapError Stop.plain =
      ((p.run rounds).outcome (.start answers)).mapError Stop.plain :=
    (hq.outcome _).symm.trans (hp.outcome _)
  constructor
  · rw [← Machine.output_plain, hfinal, Machine.output_plain]
  · rw [← Machine.prompts_plain, hfinal, Machine.prompts_plain]
  · have hanswers := congrArg Machine.answers hfinal
    exact hanswers
  · have hcode : ∀ r : Except Stop Unit,
        (r.mapError Stop.plain).mapError Stop.code? = r.mapError Stop.code? := by
      rintro (stop | _)
      · exact congrArg Except.error stop.code?_plain
      · rfl
    rw [← hcode, houtcome, hcode]
  · exact congrArg (fun m => m.env.globals) hfinal

theorem Program.plain_of_unmarked {p q : Program} (h : p.unmarked = q.unmarked) :
    p.plain = q.plain := by
  rw [plain, plain, ← rename_unmarked, ← rename_unmarked, h]

/-- Texts that differ only in the case of letters outside of text literals fail to be read with the
same error, or are programs that run alike, however the parameters of the programs are marked. -/
theorem case_insensitive (s t : String) (h : CaseVariants s.toList t.toList) :
    (∃ e, Program.ofSource s = .error e ∧ Program.ofSource t = .error e) ∨
    (∃ p q, Program.ofSource s = .ok p ∧ Program.ofSource t = .ok q ∧
      ∀ p' q' : Program, p'.unmarked = p.unmarked → q'.unmarked = q.unmarked →
        ∀ rounds answers, SameRun (p'.run rounds) (q'.run rounds) (.start answers)) := by
  have hread := ofSource_variants h
  cases hs : Program.ofSource s with
  | error e =>
    cases ht : Program.ofSource t with
    | error e' =>
      rw [hs, ht] at hread
      cases hread
      exact .inl ⟨e, rfl, rfl⟩
    | ok q =>
      rw [hs, ht] at hread
      cases hread
  | ok p =>
    cases ht : Program.ofSource t with
    | error e' =>
      rw [hs, ht] at hread
      cases hread
    | ok q =>
      rw [hs, ht] at hread
      have hnames : q.rename key = p.rename key := Except.ok.inj hread
      refine .inr ⟨p, q, rfl, rfl, fun p' q' hp' hq' => sameRun_of_plain_eq ?_⟩
      calc q'.plain = q.plain := Program.plain_of_unmarked hq'
        _ = p.plain := congrArg Program.unmarked hnames
        _ = p'.plain := (Program.plain_of_unmarked hp').symm

/-- A text with a literal, a quote in a comment, and a parameter passed by reference. -/
def greeting : String :=
  "PROCEDURE greet(BYREF n : String) // it's\nOUTPUT 'Hi ', N\nENDPROCEDURE\nCALL Greet('Al')"

def greetingVariant : String :=
  "Procedure Greet(byref N : STRING) // It'S\noutput 'Hi ', n\nEndProcedure\ncall GREET('Al')"

theorem case_insensitive_greeting :
    CaseVariants greeting.toList greetingVariant.toList ∧
    ∃ p q, Program.ofSource greeting = .ok p ∧ Program.ofSource greetingVariant = .ok q ∧
      ((p.run 0).final (.start [])).output = ["Hi Al"] ∧
      ∀ p' q' : Program, p'.unmarked = p.unmarked → q'.unmarked = q.unmarked →
        ∀ rounds answers, SameRun (p'.run rounds) (q'.run rounds) (.start answers) := by
  have h : CaseVariants greeting.toList greetingVariant.toList :=
    ⟨by decide +kernel, by decide +kernel⟩
  have hread : (Program.ofSource greeting).toOption.map
      (fun p => ((p.run 0).final (.start [])).output) = some ["Hi Al"] := by
    decide +kernel
  obtain ⟨e, he, -⟩ | ⟨p, q, hp, hq, hruns⟩ := case_insensitive _ _ h
  · rw [he] at hread
    cases hread
  · rw [hp] at hread
    exact ⟨h, p, q, hp, hq, Option.some.inj hread, hruns⟩

end Chalkboard
