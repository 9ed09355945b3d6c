import Chalkboard.Command.Arguments
import Chalkboard.Command.Files
import Chalkboard.Diagnostic.Render
import Chalkboard.Report.Tree
import Chalkboard.Session
import Chalkboard.Text.Lines

/-! # The command

What the command writes and the status it ends with, from its arguments, the files it can read and
its standard input. A console holds what each of the two streams has taken in the end; at what
moment of the run a line came, or an answer was typed, is not told by it.
-/

namespace Chalkboard.Command

structure Console where
  out : String
  err : String

namespace Console

def empty : Console := ⟨"", ""⟩

def print (c : Console) (s : String) : Console := { c with out := c.out ++ s }

def warn (c : Console) (s : String) : Console := { c with err := c.err ++ s }

end Console

structure Exit where
  status : Nat
  console : Console

/-- Which of the two streams are terminals. -/
structure Terminals where
  out : Bool
  err : Bool

structure Config where
  color : Bool
  verbose : Bool
  trace : Bool
  memory : Option MemoryFormat
  compact : Bool

namespace Settings

/-- Without a word about colours, they are used if everything goes to terminals. -/
def useColor (s : Settings) (t : Terminals) : Bool :=
  match s.color with
  | some .always => true
  | some .never => false
  | some .auto | none => t.err && t.out

def config (s : Settings) (t : Terminals) : Config where
  color := s.useColor t
  verbose := s.verbose
  trace := s.has .trace
  memory := s.memory
  compact := s.has .compact

end Settings

namespace Config

/-- Say something on the way, if that is asked for. -/
def log (config : Config) (message : String) (c : Console) : Console :=
  if config.verbose then c.warn ("[pseudo:debug] " ++ message ++ "\n") else c

def complain (config : Config) (message : String) (c : Console) : Exit :=
  ⟨1, c.warn ((if config.color then Paint.boldRed.apply message else message) ++ "\n")⟩

end Config

structure Source where
  text : String
  name : String

/-- The text of a file, where `stdin` is left of standard input. -/
def readFile (files : Files) (stdin : ByteArray) (path : String) : Except String String :=
  ((files path).text stdin).mapError fun e => "Failed to read " ++ path ++ ": " ++ e.message

/-- The program: a file, or standard input if no file is named. -/
def readProgram (s : Settings) (config : Config) (files : Files) (stdin : ByteArray)
    (c : Console) : Console × Except String Source :=
  match s.file with
  | some file =>
    (config.log ("Reading program from file: " ++ file) c,
      (readFile files stdin file).map (⟨·, file⟩))
  | none =>
    (config.log "Reading program from stdin" c,
      match decode stdin with
      | .error e => .error ("Failed to read from stdin: " ++ e.message)
      | .ok text =>
        if Text.trim text = "" then
          .error "No program provided. Pass a FILE or pipe the program via stdin"
        else .ok ⟨text, "<stdin>"⟩)

/-- What is left of standard input once the program is read. -/
def afterProgram (s : Settings) (files : Files) (stdin : ByteArray) : ByteArray :=
  match s.file.map files with
  | none | some .standardInput => .empty
  | some _ => stdin

/-- The answers for a program, and whether they are typed while it runs. -/
structure Answers where
  lines : List String
  typed : Bool

/-- The answers: a file, the ones among the arguments, or standard input if it is not the
program. -/
def readAnswers (s : Settings) (config : Config) (files : Files) (stdin : ByteArray)
    (c : Console) : Console × Except String Answers :=
  match s.answerFile with
  | some path =>
    (config.log ("Reading INPUT values from: " ++ path) c,
      (readFile files stdin path).map fun text => ⟨Text.lines text, false⟩)
  | none =>
    if !s.answers.isEmpty then
      (config.log ("Using " ++ toString s.answers.length ++ " scripted INPUT values") c,
        .ok ⟨s.answers, false⟩)
    else if s.file.isNone then (c, .ok ⟨[], false⟩)
    else (config.log "INPUT reads from stdin" c, .ok ⟨Text.typedLines stdin, true⟩)

def report (config : Config) (source : Source) (e : Error) (c : Console) : Exit :=
  let c := match e.line with
    | some line => config.log ("Error implicates line " ++ toString line) c
    | none => c
  let renderer : Renderer := ⟨source.text, source.name, config.color⟩
  ⟨1, c.warn (renderer.report [e.diagnostic])⟩

def tokenLine (t : Located) : String :=
  Text.padLeft 4 (toString t.line) ++ ":" ++ Text.padRight 4 (toString t.start.column) ++ " "
    ++ Text.padRight 10 t.token.kind.label ++ " " ++ t.token.toText ++ "\n"

def showTokens (config : Config) (source : Source) (c : Console) : Exit :=
  match scan source.text with
  | .error stray => report config source (.stray stray) c
  | .ok ts =>
    let c := config.log ("Scanned " ++ toString ts.length ++ " tokens") c
    ⟨0, c.print (String.join (ts.map tokenLine))⟩

def traceLines (stmt : Stmt) (memory : Frame) : String :=
  "[pseudo:trace] after " ++ stmt.keyword ++ "\n"
    ++ String.join ((Text.lines (Table.render memory)).map fun line =>
      "[pseudo:trace]   " ++ line ++ "\n")

def showEvent (config : Config) (typed : Bool) (c : Console) : Event → Console
  | .printed line => c.print (line ++ "\n")
  | .asked name => if typed then c.warn ("? " ++ name ++ ": ") else c
  | .entered _ => c
  | .completed stmt env => if config.trace then c.warn (traceLines stmt env.globals) else c

def showMemory (config : Config) (memory : Frame) (c : Console) : Console :=
  match config.memory with
  | none => c
  | some format =>
    (config.log "Dumping final memory" c).print
      (Text.trimEnd (format.render config.compact memory) ++ "\n")

def runProgram (s : Settings) (config : Config) (files : Files) (stdin : ByteArray)
    (source : Source) (p : Program) (c : Console) : Exit :=
  match readAnswers s config files stdin c with
  | (c, .error message) => config.complain message c
  | (c, .ok answers) =>
    let (outcome, m) := (Machine.start answers.lines).runProgram p
    let c := m.events.foldl (showEvent config answers.typed) c
    let c := showMemory config m.memory c
    match outcome.error? with
    | some e => report config source e c
    | none => ⟨0, config.log "Program finished" c⟩

def execute (s : Settings) (t : Terminals) (files : Files) (stdin : ByteArray) : Exit :=
  let config := s.config t
  match readProgram s config files stdin (config.log "Starting pseudo" .empty) with
  | (c, .error message) => config.complain message c
  | (c, .ok source) =>
    let c := config.log ("Read " ++ toString source.text.utf8ByteSize ++ " bytes of program text") c
    if s.has .tokens then showTokens config source c
    else match Program.ofSource source.text with
      | .error e => report config source e c
      | .ok p =>
        let c := config.log ("Parsed " ++ toString p.items.length ++ " top-level items") c
        if s.has .tree then ⟨0, c.print (p.tree.render ++ "\n")⟩
        else if s.has .check then ⟨0, c.print (source.name ++ ": ok\n")⟩
        else runProgram s config files (afterProgram s files stdin) source p c

/-- End without running a program. Help, usage and completions have no text here. -/
def refuse : Refusal → Exit
  | .version => ⟨0, Console.empty.print "pseudo 0.1.0\n"⟩
  | .help | .completions _ => ⟨0, .empty⟩
  | .usage => ⟨2, .empty⟩

def run (args : List String) (t : Terminals) (files : Files) (stdin : ByteArray) : Exit :=
  match Settings.ofArguments args with
  | .error r => refuse r
  | .ok s => execute s t files stdin

end Chalkboard.Command
