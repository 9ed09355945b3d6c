import Chalkboard.Proofs.CommandRuns
import Chalkboard.Proofs.FileLines

/-! # Answers from a file and answers typed by hand

The same text can be given as a file of answers, or typed while the program runs. It has the same
number of lines both ways, and the command prints the same and ends alike unless a line of the file
keeps a carriage return at its end: a typed line never does.
-/

namespace Chalkboard.Command

def Exit.visible (exit : Exit) : Nat × String := (exit.status, exit.console.out)

/-- The status and the output of a program in a file, when its run is given these answers. -/
def statusAndOutput (program : ByteArray) (answers : List String) : Nat × String :=
  match decode program with
  | .error _ => (1, "")
  | .ok text =>
    match runSource text answers with
    | .error _ => (1, "")
    | .ok (outcome, m) =>
      (if outcome.error?.isSome then 1 else 0, String.join (m.output.map (· ++ "\n")))

theorem ofArguments_answerFile {file path : String} (h : NamesFile file)
    (hform : form path = .plain) (hne : path ≠ "") :
    Settings.ofArguments [file, "--input-file", path] =
      .ok { Settings.initial with file := some file, answerFile := some path } := by
  have hoption : form "--input-file" = .long "input-file".toList := rfl
  have hlong : long { Settings.initial with file := some file } "input-file".toList =
      .ok ({ Settings.initial with file := some file }, .waiting .answerFile) := rfl
  have hpath : arguments { Settings.initial with file := some file } (.waiting .answerFile) [path] =
      .ok { Settings.initial with file := some file, answerFile := some path } := by
    rw [arguments.eq_def]
    simp [hform, arguments, Pending.settle, Settings.setValue, once, path?, hne, bind, Except.bind,
      finish, Settings.conflict, Settings.initial, Settings.has]
  rw [Settings.ofArguments, arguments_file h, arguments.eq_def]
  simp only [hoption, settle_file (s := .initial) h rfl, bind, Except.bind, hlong]
  exact hpath

section Visible

variable {s : Settings} {terminals : Terminals} {files : Files} {stdin program : ByteArray}
  {file path t : String}

theorem quiet_of_file {answerFile : Option String} :
    (Settings.config ⟨some file, [], answerFile, none, none, []⟩ terminals).Quiet :=
  Settings.quiet_config rfl terminals

theorem execute_of_unreadable (hquiet : (s.config terminals).Quiet) (hfile : s.file = some file)
    {e : ReadError} (htext : (files file).text stdin = .error e) :
    (execute s terminals files stdin).visible = (1, "") := by
  have hread : readProgram s (s.config terminals) files stdin .empty =
      (.empty, .error ("Failed to read " ++ file ++ ": " ++ e.message)) := by
    rw [readProgram_eq hquiet hfile, readFile, htext]
    rfl
  unfold execute
  simp only [hquiet.log, hread]
  rfl

/-- Whatever way the answers come, they alone decide what is printed and how the command ends. -/
theorem visible_execute (hquiet : (s.config terminals).Quiet) (hfile : s.file = some file)
    (hflags : s.flags = []) (hmemory : s.memory = none) (hprogram : files file = .bytes program)
    {answers : Answers}
    (hanswers : readAnswers s (s.config terminals) files stdin .empty = (.empty, .ok answers)) :
    (execute s terminals files stdin).visible = statusAndOutput program answers.lines := by
  have htext : (files file).text stdin = decode program := by rw [hprogram, Contents.text]
  have hstdin : afterProgram s files stdin = stdin := by simp [afterProgram, hfile, hprogram]
  have hnone : (s.config terminals).memory = none := hmemory
  unfold statusAndOutput
  cases hdecode : decode program with
  | error e => exact execute_of_unreadable hquiet hfile (htext.trans hdecode)
  | ok text =>
    rw [execute_of_quiet hquiet hfile (htext.trans hdecode), hstdin]
    simp only [runSource, Settings.has, hflags, List.contains_nil, Bool.or_self, Bool.false_eq_true,
      if_false]
    cases Program.ofSource text with
    | error e => rfl
    | ok p =>
      obtain ⟨outcome, m, hrun⟩ : ∃ outcome m,
          (Machine.start answers.lines).runProgram p = (outcome, m) := ⟨_, _, rfl⟩
      simp [runProgram_of_answers hquiet hanswers hrun, Except.map, hrun, Exit.visible,
        Config.memoryText, hnone]

theorem visible_run_typed (hfile : NamesFile file) (hprogram : files file = .bytes program) :
    (run [file] terminals files t.toUTF8).visible =
      statusAndOutput program ((Text.lines t).map Text.typedLine) := by
  have hsettings : Settings.ofArguments [file] = .ok ⟨some file, [], none, none, none, []⟩ :=
    ofArguments_answers hfile []
  have hread : readAnswers ⟨some file, [], none, none, none, []⟩
      (Settings.config ⟨some file, [], none, none, none, []⟩ terminals) files t.toUTF8 .empty =
      (.empty, .ok ⟨(Text.lines t).map Text.typedLine, true⟩) := by
    rw [← Text.typedLines_toUTF8]
    rfl
  have hvisible := visible_execute quiet_of_file rfl rfl rfl hprogram hread
  simpa only [run, hsettings] using hvisible

theorem visible_run_answerFile (hfile : NamesFile file) (hform : form path = .plain)
    (hne : path ≠ "")
    (hprogram : files file = .bytes program) (hanswers : files path = .bytes t.toUTF8) :
    (run [file, "--input-file", path] terminals files stdin).visible =
      statusAndOutput program (Text.lines t) := by
  have hsettings : Settings.ofArguments [file, "--input-file", path] =
      .ok ⟨some file, [], some path, none, none, []⟩ :=
    ofArguments_answerFile hfile hform hne
  have htext : readFile files stdin path = .ok t := by
    rw [readFile, hanswers, Contents.text, decode_toUTF8]
    rfl
  have hread : readAnswers ⟨some file, [], some path, none, none, []⟩
      (Settings.config ⟨some file, [], some path, none, none, []⟩ terminals) files stdin .empty =
      (.empty, .ok ⟨Text.lines t, false⟩) := by
    simp only [readAnswers, htext]
    rfl
  have hvisible := visible_execute quiet_of_file rfl rfl rfl hprogram hread
  simpa only [run, hsettings] using hvisible

end Visible

/-- A text has as many lines when it is typed as it has in a file, and a typed line is the line of
the file without the returns at its end. Where no line of the file ends in one, the answers are the
same, and so are the output and the status of every program. -/
theorem typed_answers_like_file {file path : String} (hfile : NamesFile file)
    (hform : form path = .plain)
    (hne : path ≠ "") {files : Files} {program : ByteArray} {t : String}
    (hprogram : files file = .bytes program) (hanswers : files path = .bytes t.toUTF8)
    (terminals : Terminals) (stdin : ByteArray) :
    let typed := run [file] terminals files t.toUTF8
    let filed := run [file, "--input-file", path] terminals files stdin
    Text.typedLines t.toUTF8 = (Text.lines t).map Text.typedLine ∧
    typed.visible = statusAndOutput program (Text.typedLines t.toUTF8) ∧
    filed.visible = statusAndOutput program (Text.lines t) ∧
    (Text.typedLines t.toUTF8 = Text.lines t ↔
      ∀ line ∈ Text.lines t, line.toList.getLast? ≠ some '\r') ∧
    ((∀ line ∈ Text.lines t, line.toList.getLast? ≠ some '\r') →
      typed.visible = filed.visible) := by
  intro typed filed
  have hlines := Text.typedLines_toUTF8 t
  have htyped : typed.visible = statusAndOutput program (Text.typedLines t.toUTF8) := by
    rw [hlines]
    exact visible_run_typed hfile hprogram
  have hfiled : filed.visible = statusAndOutput program (Text.lines t) :=
    visible_run_answerFile hfile hform hne hprogram hanswers
  have hsame : Text.typedLines t.toUTF8 = Text.lines t ↔
      ∀ line ∈ Text.lines t, line.toList.getLast? ≠ some '\r' := by
    have hmap := List.map_inj_left (f := Text.typedLine) (g := id) (l := Text.lines t)
    rw [List.map_id] at hmap
    rw [hlines, hmap]
    exact forall₂_congr fun line hline => Text.typedLine_eq_self_iff hline
  refine ⟨hlines, htyped, hfiled, hsame, fun hreturns => ?_⟩
  rw [htyped, hfiled, hsame.mpr hreturns]

/-- A program that says what it is told, twice. -/
def echo : String := "DECLARE s : STRING\nINPUT s\nOUTPUT s\nINPUT s\nOUTPUT s"

def echoFiles (t : String) :
    Files := fun path => .bytes (if path = "answers" then t else echo).toUTF8

theorem echoFiles_echo (t : String) : echoFiles t "echo" = .bytes echo.toUTF8 := by
  rw [echoFiles, if_neg (by decide)]

theorem echoFiles_answers (t : String) : echoFiles t "answers" = .bytes t.toUTF8 := by
  rw [echoFiles, if_pos rfl]

theorem namesFile_echo : NamesFile "echo" := ⟨rfl, by decide, by decide, by decide⟩

/-- It makes no difference to an answer how its line ends, nor to the second one that it is
missing. -/
theorem typed_answers_like_file_missing :
    (run ["echo"] ⟨false, false⟩ (echoFiles "Ada\r\n") "Ada\r\n".toUTF8).visible = (1, "Ada\n") ∧
    (run ["echo", "--input-file", "answers"] ⟨false, false⟩ (echoFiles "Ada\r\n") .empty).visible =
    (1, "Ada\n") := by
  have hlines : Text.lines "Ada\r\n" = ["Ada"] := by decide
  have hreturns : ∀ line ∈ Text.lines "Ada\r\n", line.toList.getLast? ≠ some '\r' := by
    rw [hlines]
    decide
  have hvisible : statusAndOutput echo.toUTF8 ["Ada"] = (1, "Ada\n") := by
    simp only [statusAndOutput, decode_toUTF8]
    decide +kernel
  have hform : form "answers" = .plain := rfl
  obtain ⟨-, -, hfiled, -, hsame⟩ := typed_answers_like_file namesFile_echo hform (by decide)
    (echoFiles_echo "Ada\r\n") (echoFiles_answers "Ada\r\n") _ .empty
  rw [hlines, hvisible] at hfiled
  exact ⟨(hsame hreturns).trans hfiled, hfiled⟩

/-- A return before the end of a line is kept in a file and lost by hand. -/
theorem typed_return_is_lost :
    (run ["echo"] ⟨false, false⟩ (echoFiles "a\r\r\n") "a\r\r\n".toUTF8).visible = (1, "a\n") ∧
    (run ["echo", "--input-file", "answers"] ⟨false, false⟩ (echoFiles "a\r\r\n") .empty).visible =
    (1, "a\r\n") := by
  have hlines : Text.lines "a\r\r\n" = ["a\r"] := by decide
  constructor
  · rw [visible_run_typed namesFile_echo (echoFiles_echo _), hlines]
    simp only [statusAndOutput, decode_toUTF8]
    decide +kernel
  · rw [visible_run_answerFile namesFile_echo rfl (by decide) (echoFiles_echo _)
      (echoFiles_answers _), hlines]
    simp only [statusAndOutput, decode_toUTF8]
    decide +kernel

end Chalkboard.Command
