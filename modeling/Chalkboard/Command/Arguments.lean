import Chalkboard.Report.Memory

/-! # Arguments

The arguments of the command are taken one after the other, and the first one that is wrong or asks
for help decides. A value is looked at only when the next argument is taken, and a subcommand in
that place comes first. Options that exclude each other are refused at the end.
-/

namespace Chalkboard.Command

inductive ColorChoice where
  | auto
  | always
  | never
deriving DecidableEq

def ColorChoice.ofText? (s : String) : Option ColorChoice :=
  let s := Text.lower s
  if s = "auto" then some auto else if s = "always" then some always
  else if s = "never" then some never else none

inductive Flag where
  | compact | trace | tokens | tree | check | verbose
deriving DecidableEq

structure Settings where
  file : Option String
  answers : List String
  answerFile : Option String
  memory : Option MemoryFormat
  color : Option ColorChoice
  flags : List Flag

namespace Settings

def initial : Settings := ⟨none, [], none, none, none, []⟩

def has (s : Settings) (flag : Flag) : Bool := s.flags.contains flag

def verbose (s : Settings) : Bool := s.has .verbose || s.has .trace

/-- Only one of the three ways to stop early, and only one source of answers. -/
def conflict (s : Settings) : Bool :=
  (s.has .tokens && (s.has .tree || s.has .check)) || (s.has .tree && s.has .check)
    || (!s.answers.isEmpty && s.answerFile.isSome)

end Settings

/-- The ways in which arguments end without a program being run. -/
inductive Refusal where
  | help
  | version
  | completions (shell : String)
  | usage
deriving DecidableEq

/-- Where a value goes: to an option that needs one, or to the file, which stands by itself. -/
inductive Slot where
  | answer | answerFile | color | file

inductive Opt where
  | flag (f : Flag)
  | valued (slot : Slot)
  | memory
  | help
  | version

def longOption? (name : String) : Option Opt :=
  match name with
  | "input" => some (.valued .answer)
  | "input-file" => some (.valued .answerFile)
  | "color" => some (.valued .color)
  | "memory" => some .memory
  | "compact" => some (.flag .compact)
  | "trace" => some (.flag .trace)
  | "tokens" => some (.flag .tokens)
  | "ast" => some (.flag .tree)
  | "check" => some (.flag .check)
  | "verbose" => some (.flag .verbose)
  | "help" => some .help
  | "version" => some .version
  | _ => none

def shortOption? (c : Char) : Option Opt :=
  match c with
  | 'i' => some (.valued .answer)
  | 'v' => some (.flag .verbose)
  | 'h' => some .help
  | 'V' => some .version
  | _ => none

/-- Give an option that is set at most once its value. -/
def once {α : Type} (old : Option α) (new : Option α) (set : α → Settings) :
    Except Refusal Settings :=
  match old, new with
  | none, some a => .ok (set a)
  | _, _ => .error .usage

def path? (s : String) : Option String := if s = "" then none else some s

def Settings.setFlag (s : Settings) (f : Flag) : Except Refusal Settings :=
  if s.has f then .error .usage else .ok { s with flags := f :: s.flags }

def Settings.setValue (s : Settings) (slot : Slot) (value : String) : Except Refusal Settings :=
  match slot with
  | .answer => .ok { s with answers := s.answers ++ [value] }
  | .answerFile => once s.answerFile (path? value) fun p => { s with answerFile := some p }
  | .color => once s.color (ColorChoice.ofText? value) fun c => { s with color := some c }
  | .file => once s.file (path? value) fun p => { s with file := some p }

def Settings.setMemory (s : Settings) (format : String) : Except Refusal Settings :=
  once s.memory (MemoryFormat.ofText? format) fun f => { s with memory := some f }

inductive Pending where
  | nothing
  | waiting (slot : Slot)
  | given (slot : Slot) (value : String)

def Pending.settle (s : Settings) : Pending → Except Refusal Settings
  | nothing => .ok s
  | waiting _ => .error .usage
  | given slot value => s.setValue slot value

/-- Text at an equals sign: what stands before it, and what behind it if there is one. -/
def splitEquals (cs : List Char) : String × Option String :=
  let before := String.ofList (cs.takeWhile (· != '='))
  match cs.dropWhile (· != '=') with
  | [] => (before, none)
  | _ :: after => (before, some (String.ofList after))

abbrev Progress := Settings × Pending

def long (s : Settings) (cs : List Char) : Except Refusal Progress :=
  let (name, value) := splitEquals cs
  match longOption? name, value with
  | some (.flag f), none => (s.setFlag f).map (·, .nothing)
  | some .memory, none => (s.setMemory "table").map (·, .nothing)
  | some .memory, some format => (s.setMemory format).map (·, .nothing)
  | some (.valued slot), none => .ok (s, .waiting slot)
  | some (.valued slot), some value => (s.setValue slot value).map (·, .nothing)
  | some .help, none => .error .help
  | some .version, none => .error .version
  | _, _ => .error .usage

/-- A cluster of short options behind one dash. The value of the last may follow at once. -/
def short (s : Settings) : List Char → Except Refusal Progress
  | [] => .ok (s, .nothing)
  | c :: cs =>
    match shortOption? c with
    | some (.flag f) =>
      match s.setFlag f with
      | .ok s => short s cs
      | .error r => .error r
    | some (.valued slot) =>
      match cs with
      | [] => .ok (s, .waiting slot)
      | '=' :: value => (s.setValue slot (String.ofList value)).map (·, .nothing)
      | value => (s.setValue slot (String.ofList value)).map (·, .nothing)
    | some .help => .error .help
    | some .version => .error .version
    | _ => .error .usage

inductive Form where
  | long (cs : List Char)
  | short (cs : List Char)
  | separator
  | plain

/-- How an argument looks. A single dash is an ordinary word. -/
def form (arg : String) : Form :=
  match arg.toList with
  | '-' :: '-' :: [] => .separator
  | '-' :: '-' :: cs => .long cs
  | '-' :: c :: cs => .short (c :: cs)
  | _ => .plain

def shells : List String := ["bash", "elvish", "fish", "powershell", "zsh"]

def completeArguments (shell : Option String) (optionsOver : Bool) :
    List String → Except Refusal Refusal
  | [] =>
    match shell with
    | some shell => .ok (.completions shell)
    | none => .error .usage
  | arg :: args =>
    let plain := match shell with
      | none =>
        if shells.contains arg then completeArguments (some arg) optionsOver args
        else .error .usage
      | some _ => .error .usage
    if optionsOver then plain
    else match form arg with
      | .separator => completeArguments shell true args
      | .long cs => if cs = "help".toList then .error .help else .error .usage
      | .short cs => if cs.head? = some 'h' then .error .help else .error .usage
      | .plain => plain

def helpArguments (args : List String) : Refusal :=
  if args = [] ∨ args = ["complete"] ∨ args = ["help"] then .help else .usage

def finish (s : Settings) : Except Refusal Settings :=
  if s.conflict then .error .usage else .ok s

/-- After `--`, only a file can follow. -/
def files (s : Settings) : List String → Except Refusal Settings
  | [] => finish s
  | arg :: args =>
    match s.setValue .file arg with
    | .ok s => files s args
    | .error r => .error r

/-- `complete` ends the arguments of the command proper, which have to agree all the same. -/
def complete (s : Settings) (pending : Pending) (args : List String) : Refusal :=
  match completeArguments none false args with
  | .error r => r
  | .ok r =>
    match pending.settle s >>= finish with
    | .error r => r
    | .ok _ => r

/-- Take the arguments one after the other. A value must not look like an option. Every argument but
a subcommand first closes what the one before it has left open. -/
def arguments (s : Settings) (pending : Pending) : List String → Except Refusal Settings
  | [] => pending.settle s >>= finish
  | arg :: args =>
    match form arg, pending with
    | .plain, .waiting slot => arguments s (.given slot arg) args
    | .plain, pending =>
      if arg = "complete" then .error (complete s pending args)
      else if arg = "help" then .error (helpArguments args)
      else do
        let s ← pending.settle s
        if s.file.isSome then .error .usage else arguments s (.given .file arg) args
    | .separator, pending => do
      let s ← pending.settle s
      files s args
    | .long cs, pending => do
      let s ← pending.settle s
      let (s, pending) ← long s cs
      arguments s pending args
    | .short cs, pending => do
      let s ← pending.settle s
      let (s, pending) ← short s cs
      arguments s pending args

def Settings.ofArguments (args : List String) : Except Refusal Settings :=
  arguments .initial .nothing args

end Chalkboard.Command
