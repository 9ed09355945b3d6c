import Chalkboard.Command.Run

/-! # The command and the runs behind it

With a program in a file, the command reads it, and shows it or runs it. What it writes then is what
the run printed, line by line, with memory behind it if that is asked for, and the diagnostic of the
error if there is one. Only what is told on the way may come in between.
-/

namespace Chalkboard.Command

/-! ## Settings from arguments -/

/-- The word is taken for a file wherever a file may stand. -/
structure NamesFile (word : String) : Prop where
  form : form word = .plain
  ne_empty : word ≠ ""
  ne_complete : word ≠ "complete"
  ne_help : word ≠ "help"

section Arguments

variable {s s' : Settings} {args : List String} {file : String}

theorem bind_eq_ok {α β : Type} {r : Except Refusal α} {f : α → Except Refusal β} {b : β}
    (h : r >>= f = .ok b) : ∃ a, r = .ok a ∧ f a = .ok b := by
  cases r with
  | ok a => exact ⟨a, rfl, h⟩
  | error e => cases h

theorem conflict_of_finish (h : finish s = .ok s') : s'.conflict = false := by
  unfold finish at h
  split at h
  · cases h
  · rename_i hconflict
    cases h
    exact Bool.eq_false_iff.mpr hconflict

theorem conflict_of_files (h : files s args = .ok s') : s'.conflict = false := by
  induction args generalizing s with
  | nil => exact conflict_of_finish h
  | cons arg args ih =>
    unfold files at h
    split at h
    · exact ih h
    · cases h

/-- Settings that exclude each other are never the outcome, wherever the arguments end. -/
theorem conflict_of_arguments {pending : Pending} (h : arguments s pending args = .ok s') :
    s'.conflict = false := by
  induction args generalizing s pending with
  | nil =>
    obtain ⟨settled, -, hfinish⟩ := bind_eq_ok h
    exact conflict_of_finish hfinish
  | cons arg args ih =>
    unfold arguments at h
    split at h
    · exact ih h
    · split at h
      · cases h
      · split at h
        · cases h
        · obtain ⟨settled, -, h⟩ := bind_eq_ok h
          split at h
          · cases h
          · exact ih h
    · obtain ⟨settled, -, h⟩ := bind_eq_ok h
      exact conflict_of_files h
    · obtain ⟨settled, -, h⟩ := bind_eq_ok h
      obtain ⟨progress, -, h⟩ := bind_eq_ok h
      exact ih h
    · obtain ⟨settled, -, h⟩ := bind_eq_ok h
      obtain ⟨progress, -, h⟩ := bind_eq_ok h
      exact ih h

theorem answerFile_of_conflict (h : s.conflict = false) (hanswers : s.answers ≠ []) :
    s.answerFile = none := by
  rw [Settings.conflict, Bool.or_eq_false_iff] at h
  simpa [hanswers] using h.2

theorem tokens_of_conflict (h : s.conflict = false) (hshow : (s.has .tree || s.has .check) = true) :
    s.has .tokens = false := by
  rw [Settings.conflict, hshow, Bool.and_true, Bool.or_eq_false_iff, Bool.or_eq_false_iff] at h
  exact h.1.1

theorem arguments_file (h : NamesFile file) (args : List String) :
    arguments .initial .nothing (file :: args) = arguments .initial (.given .file file) args := by
  rw [arguments.eq_def]
  simp [h.form, h.ne_complete, h.ne_help, Pending.settle, bind, Except.bind, Settings.initial]

theorem settle_file (h : NamesFile file) (hs : s.file = none) :
    Pending.settle s (.given .file file) = .ok { s with file := some file } := by
  simp [Pending.settle, Settings.setValue, once, path?, hs, h.ne_empty]

theorem form_answer (value : String) :
    form ("-i=" ++ value) = .short ('i' :: '=' :: value.toList) := by
  unfold form
  rw [String.toList_append]
  rfl

theorem arguments_answers (values : List String) {pending : Pending}
    (h : pending.settle s = .ok s') : arguments s pending (values.map ("-i=" ++ ·)) =
      finish { s' with answers := s'.answers ++ values } := by
  induction values generalizing s pending s' with
  | nil => simp [arguments, h, bind, Except.bind]
  | cons value values ih =>
    have hshort : short s' ('i' :: '=' :: value.toList) =
        .ok ({ s' with answers := s'.answers ++ [value] }, .nothing) := by
      simp [short, shortOption?, Settings.setValue, Except.map]
    rw [List.map_cons, arguments.eq_def]
    simp only [form_answer, h, bind, Except.bind, hshort]
    rw [ih rfl]
    simp

theorem ofArguments_answers (h : NamesFile file) (values : List String) :
    Settings.ofArguments (file :: values.map ("-i=" ++ ·)) =
      .ok { Settings.initial with file := some file, answers := values } := by
  rw [Settings.ofArguments, arguments_file h, arguments_answers values (settle_file h rfl)]
  simp [finish, Settings.conflict, Settings.initial, Settings.has]

end Arguments

/-! ## What becomes visible -/

section Console

theorem outputOf_cons (e : Event) (events : List Event) :
    Machine.outputOf (e :: events) = e.printed?.toList ++ Machine.outputOf events := by
  unfold Machine.outputOf
  rw [List.filterMap_cons]
  cases e.printed? <;> rfl

theorem out_showEvent (config : Config) (typed : Bool) (c : Console) (e : Event) :
    (showEvent config typed c e).out =
    c.out ++ String.join (e.printed?.toList.map (· ++ "\n")) := by
  cases e with
  | printed line => simp [showEvent, Console.print, Event.printed?]
  | asked name => cases typed <;> simp [showEvent, Console.warn, Event.printed?]
  | entered env => simp [showEvent, Event.printed?]
  | completed stmt env =>
    cases htrace : config.trace <;> simp [showEvent, htrace, Console.warn, Event.printed?]

/-- Whatever else is shown, the lines that are printed come out in order. -/
theorem out_showEvents (config : Config) (typed : Bool) (c : Console) (events : List Event) :
    (events.foldl (showEvent config typed) c).out =
      c.out ++ String.join ((Machine.outputOf events).map (· ++ "\n")) := by
  induction events generalizing c with
  | nil => simp [Machine.outputOf]
  | cons e events ih =>
    rw [List.foldl_cons, ih, out_showEvent, outputOf_cons, List.map_append, String.append_assoc]
    simp

theorem err_showEvents {config : Config} (htrace : config.trace = false) (c : Console)
    (events : List Event) : (events.foldl (showEvent config false) c).err = c.err := by
  induction events generalizing c with
  | nil => rfl
  | cons e events ih =>
    rw [List.foldl_cons, ih]
    cases e <;> simp [showEvent, htrace, Console.print]

end Console

/-! ## Quiet configurations -/

/-- Nothing is told on the way. -/
structure Config.Quiet (config : Config) : Prop where
  verbose : config.verbose = false
  trace : config.trace = false

/-- Nothing is told on the way, and nothing is coloured. -/
structure Config.Plain (config : Config) : Prop extends config.Quiet where
  color : config.color = false

/-- Whoever asks for a trace is told all the rest as well. -/
theorem Settings.quiet_config {s : Settings} (h : s.verbose = false) (t : Terminals) :
    (s.config t).Quiet :=
  ⟨h, (Bool.or_eq_false_iff.mp h).2⟩

def told (color : Bool) (text file : String) (e : Error) : String :=
  (⟨text, file, color⟩ : Renderer).report [e.diagnostic]

/-- Memory as it is shown after a run, if it is. -/
def Config.memoryText (config : Config) (memory : Frame) : String :=
  match config.memory with
  | none => ""
  | some format => Text.trimEnd (format.render config.compact memory) ++ "\n"

/-- What is shown of a program that is not run. -/
def Settings.shown (s : Settings) (file : String) (p : Program) : String :=
  if s.has .tree then p.tree.render ++ "\n" else file ++ ": ok\n"

section Quiet

variable {s : Settings} {config : Config} {files : Files} {stdin : ByteArray} {file text : String}
  {c : Console}

theorem Config.Quiet.log (h : config.Quiet) (message : String) (c : Console) :
    config.log message c = c := by
  simp [Config.log, h.verbose]

theorem report_of_quiet (h : config.Quiet) (e : Error) :
    report config ⟨text, file⟩ e c = ⟨1, c.warn (told config.color text file e)⟩ := by
  unfold report
  cases e.line <;> simp [h.log, told]

theorem readProgram_eq (hquiet : config.Quiet) (hfile : s.file = some file) :
    readProgram s config files stdin c = (c, (readFile files stdin file).map (⟨·, file⟩)) := by
  simp [readProgram, hfile, hquiet.log]

theorem readProgram_of_file (hquiet : config.Quiet) (hfile : s.file = some file)
    (htext : (files file).text stdin = .ok text) :
    readProgram s config files stdin c = (c, .ok ⟨text, file⟩) := by
  rw [readProgram_eq hquiet hfile, readFile, htext]
  rfl

theorem status_showTokens (hquiet : config.Quiet) :
    (showTokens config ⟨text, file⟩ c).status = 0 ↔ ∃ ts, scan text = .ok ts := by
  unfold showTokens
  cases scan text <;> simp [report_of_quiet hquiet]

theorem showMemory_of_quiet (h : config.Quiet) (memory : Frame) :
    showMemory config memory c = c.print (config.memoryText memory) := by
  unfold showMemory Config.memoryText
  cases config.memory with
  | none => simp [Console.print]
  | some format => simp [h.log]

/-- A program that is run writes what it printed and, if that is asked for, its memory. On the other
stream stands what its user was asked, and behind it the diagnostic of its error. -/
theorem runProgram_of_answers (hquiet : config.Quiet) {answers : Answers}
    (hanswers : readAnswers s config files stdin .empty = (.empty, .ok answers)) {p : Program}
    {outcome : Outcome} {m : Machine}
    (hrun : (Machine.start answers.lines).runProgram p = (outcome, m)) :
    runProgram s config files stdin ⟨text, file⟩ p .empty =
      ⟨if outcome.error?.isSome then 1 else 0,
        ⟨String.join (m.output.map (· ++ "\n")) ++ config.memoryText m.memory,
          (m.events.foldl (showEvent config answers.typed) .empty).err ++
            (outcome.error?.map (told config.color text file)).getD ""⟩⟩ := by
  have hout : (m.events.foldl (showEvent config answers.typed) .empty).out =
      String.join (m.output.map (· ++ "\n")) := by
    simpa [Console.empty, Machine.output] using
      out_showEvents config answers.typed .empty m.events
  rw [runProgram, hanswers]
  simp only [hrun, showMemory_of_quiet hquiet, report_of_quiet hquiet, hquiet.log]
  cases outcome.error? <;> simp [Console.print, Console.warn, hout]

theorem readAnswers_of_given (hquiet : config.Quiet) (hanswers : s.answers ≠ [])
    (hfile : s.answerFile = none) :
    readAnswers s config files stdin c = (c, .ok ⟨s.answers, false⟩) := by
  simp [readAnswers, hfile, hanswers, hquiet.log]

end Quiet

section Execute

variable {s : Settings} {t : Terminals} {files : Files} {stdin : ByteArray} {file text : String}

theorem execute_of_quiet (hquiet : (s.config t).Quiet) (hfile : s.file = some file)
    (htext : (files file).text stdin = .ok text) :
    execute s t files stdin =
      if s.has .tokens then showTokens (s.config t) ⟨text, file⟩ .empty
      else match Program.ofSource text with
        | .error e => ⟨1, ⟨"", told (s.useColor t) text file e⟩⟩
        | .ok p =>
          if s.has .tree || s.has .check then ⟨0, ⟨s.shown file p, ""⟩⟩
          else
            runProgram s (s.config t) files (afterProgram s files stdin) ⟨text, file⟩ p .empty := by
  have hempty : ∀ message, Console.empty.warn message = ⟨"", message⟩ := by
    simp [Console.empty, Console.warn]
  unfold execute
  simp only [readProgram_of_file hquiet hfile htext, hquiet.log, report_of_quiet hquiet, hempty]
  split
  · rfl
  · cases Program.ofSource text with
    | error e => rfl
    | ok p =>
      cases htree : s.has .tree <;> cases hcheck : s.has .check <;>
        simp [Settings.shown, htree, Console.print, Console.empty]

theorem execute_of_shown (hquiet : (s.config t).Quiet) (hfile : s.file = some file)
    (htext : (files file).text stdin = .ok text) (htokens : s.has .tokens = false)
    (hshow : (s.has .tree || s.has .check) = true) :
    execute s t files stdin = match Program.ofSource text with
      | .error e => ⟨1, ⟨"", told (s.useColor t) text file e⟩⟩
      | .ok p => ⟨0, ⟨s.shown file p, ""⟩⟩ := by
  rw [execute_of_quiet hquiet hfile htext, htokens, hshow]
  rfl

theorem execute_of_run (hquiet : (s.config t).Quiet) (hfile : s.file = some file)
    (htext : (files file).text stdin = .ok text) (hconflict : s.conflict = false)
    (hanswers : s.answers ≠ []) (htokens : s.has .tokens = false)
    (hshow : (s.has .tree || s.has .check) = false) {p : Program}
    (hp : Program.ofSource text = .ok p) {outcome : Outcome} {m : Machine}
    (hrun : (Machine.start s.answers).runProgram p = (outcome, m)) :
    execute s t files stdin =
      ⟨if outcome.error?.isSome then 1 else 0,
        ⟨String.join (m.output.map (· ++ "\n")) ++ (s.config t).memoryText m.memory,
          (outcome.error?.map (told (s.useColor t) text file)).getD ""⟩⟩ := by
  have hread : readAnswers s (s.config t) files (afterProgram s files stdin) .empty =
      (.empty, .ok ⟨s.answers, false⟩) :=
    readAnswers_of_given hquiet hanswers (answerFile_of_conflict hconflict hanswers)
  have herr : (m.events.foldl (showEvent (s.config t) false) .empty).err = "" :=
    err_showEvents hquiet.trace .empty m.events
  have hexecute := execute_of_quiet hquiet hfile htext
  simp only [htokens, hp, hshow, Bool.false_eq_true, if_false] at hexecute
  rw [hexecute, runProgram_of_answers hquiet hread hrun, herr, String.empty_append]
  rfl

end Execute

theorem decode_toUTF8 (t : String) : decode t.toUTF8 = .ok t := by
  simp [decode, String.fromUTF8?, String.toUTF8, String.fromUTF8, t.isValidUTF8]

/-- With a program in a file and answers among the arguments, the command writes what a run of the
program with these answers says, and does not run a program that it is told to show. -/
theorem command_agrees_with_run {args : List String} {s : Settings} {t : Terminals} {files : Files}
    {stdin : ByteArray} {file text : String} (hargs : Settings.ofArguments args = .ok s)
    (hplain : (s.config t).Plain) (hfile : s.file = some file) (hanswers : s.answers ≠ [])
    (htext : (files file).text stdin = .ok text) :
    let exit := run args t files stdin
    (s.has .tokens = false → s.has .tree = false → s.has .check = false →
      (∀ e, Program.ofSource text = .error e → exit = ⟨1, ⟨"", told false text file e⟩⟩) ∧
      (∀ p, Program.ofSource text = .ok p → ∃ outcome m,
        runSource text s.answers = .ok (outcome, m) ∧
        exit.console.out =
          String.join (m.output.map (· ++ "\n")) ++ (s.config t).memoryText m.memory ∧
        (outcome = .done → exit.status = 0 ∧ exit.console.err = "") ∧
        (∀ e, outcome = .failed e →
          exit.status = 1 ∧ exit.console.err = told false text file (.runtime e)))) ∧
    (s.has .tree = true ∨ s.has .check = true →
      (exit.status = 0 ↔ ∃ p, Program.ofSource text = .ok p) ∧
      exit.console.out = ((Program.ofSource text).toOption.map (s.shown file)).getD "" ∧
      ∀ answers files' stdin', (files' file).text stdin' = .ok text →
        execute { s with answers := answers } t files' stdin' = exit) ∧
    (s.has .tokens = true → (exit.status = 0 ↔ ∃ ts, scan text = .ok ts)) := by
  intro exit
  have hquiet := hplain.toQuiet
  have hcolor : s.useColor t = false := hplain.color
  have hconflict := conflict_of_arguments hargs
  have hexit : exit = execute s t files stdin := by
    simp only [exit, run, hargs]
  have hexecute := execute_of_quiet hquiet hfile htext
  rw [hcolor] at hexecute
  rw [hexit]
  refine ⟨fun htokens htree hcheck => ⟨fun e he => ?_, fun p hp => ?_⟩, fun hshow => ?_,
    fun htokens => ?_⟩
  · rw [hexecute, htokens, he]
    rfl
  · obtain ⟨outcome, m, hrun⟩ : ∃ outcome m,
        (Machine.start s.answers).runProgram p = (outcome, m) := ⟨_, _, rfl⟩
    have hsource : runSource text s.answers = .ok (outcome, m) := by
      rw [runSource, hp, ← hrun]
      rfl
    have hshow : (s.has .tree || s.has .check) = false := by rw [htree, hcheck, Bool.or_self]
    rw [execute_of_run hquiet hfile htext hconflict hanswers htokens hshow hp hrun, hcolor]
    refine ⟨outcome, m, hsource, rfl, fun h => ?_, fun e h => ?_⟩ <;> simp [h, Outcome.error?]
  · have hshow : (s.has .tree || s.has .check) = true := by simpa using hshow
    have htokens := tokens_of_conflict hconflict hshow
    rw [execute_of_shown hquiet hfile htext htokens hshow]
    refine ⟨?_, ?_, fun answers files' stdin' htext' => ?_⟩
    · cases Program.ofSource text <;> simp
    · cases Program.ofSource text <;> rfl
    · have hquiet' : (Settings.config { s with answers := answers } t).Quiet :=
        ⟨hquiet.verbose, hquiet.trace⟩
      exact execute_of_shown hquiet' hfile htext' htokens hshow
  · rw [hexecute, htokens]
    exact status_showTokens hquiet

/-- A program that greets whoever is named, and then asks in vain. -/
def greeting : String := "DECLARE s : STRING\nINPUT s\nOUTPUT s\nINPUT s"

/-- What was printed and kept before an error is written all the same. -/
theorem command_agrees_with_run_greeting :
    let files : Files := fun _ => .bytes greeting.toUTF8
    let exit := run ["greet", "-i=Ada", "--memory"] ⟨false, true⟩ files .empty
    exit.status = 1 ∧
    exit.console.out = "Ada\nNAME  TYPE    VALUE\n----  ------  -----\nS     STRING  \"Ada\"\n" ∧
    exit.console.err =
      "error[E0215]: No input available for 's'\n\nerror: aborting due to 1 previous error\n" := by
  intro files
  have hread : ∃ p, Program.ofSource greeting = .ok p := by
    have hisOk : (Program.ofSource greeting).toBool = true := by decide +kernel
    cases hp : Program.ofSource greeting with
    | error e =>
      rw [hp] at hisOk
      cases hisOk
    | ok p => exact ⟨p, rfl⟩
  have hresult : (runSource greeting ["Ada"]).toOption.map (fun run =>
      (run.1.error?.map (told false greeting "greet"), run.2.output,
        Text.trimEnd (Table.render run.2.memory))) =
      some (some
          "error[E0215]: No input available for 's'\n\nerror: aborting due to 1 previous error\n",
        ["Ada"], "NAME  TYPE    VALUE\n----  ------  -----\nS     STRING  \"Ada\"") := by
    decide +kernel
  obtain ⟨p, hp⟩ := hread
  let s : Settings := ⟨some "greet", ["Ada"], none, some .table, none, []⟩
  have hargs : Settings.ofArguments ["greet", "-i=Ada", "--memory"] = .ok s := rfl
  have hplain : (s.config ⟨false, true⟩).Plain := ⟨⟨rfl, rfl⟩, rfl⟩
  have htext : (files "greet").text .empty = .ok greeting := decode_toUTF8 greeting
  obtain ⟨outcome, m, hrun, hout, -, hfailed⟩ :=
    ((command_agrees_with_run hargs hplain rfl (List.cons_ne_nil _ _) htext).1 rfl rfl rfl).2 p hp
  generalize run ["greet", "-i=Ada", "--memory"] ⟨false, true⟩ files .empty = exit at hout hfailed ⊢
  rw [hrun] at hresult
  obtain ⟨herror, hresult⟩ := Prod.mk.inj (Option.some.inj hresult)
  obtain ⟨houtput, hmemory⟩ := Prod.mk.inj hresult
  cases outcome with
  | failed e =>
    obtain ⟨hstatus, herr⟩ := hfailed e rfl
    refine ⟨hstatus, ?_, herr.trans (Option.some.inj herror)⟩
    rw [hout, houtput]
    exact congrArg (fun shown => String.join ["Ada\n"] ++ (shown ++ "\n")) hmemory
  | done => cases herror
  | unfinished => cases herror

end Chalkboard.Command
