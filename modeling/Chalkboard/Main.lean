import Chalkboard.Command.Run

/-! # The program

Reads what the command needs, and writes what it says once it has ended.
-/

namespace Chalkboard.Command

def readContents (path : String) : IO Contents := do
  if path = "/dev/stdin" then return .standardInput
  try
    return .bytes (← IO.FS.readBinFile path)
  catch
    | .noFileOrDirectory .. => return .unreadable .missing
    | e => return .unreadable (.other (toString e))

/-- Is standard input read at all? -/
def Settings.readsStdin (s : Settings) (contents : List (String × Contents)) : Bool :=
  s.file.isNone || (s.answers.isEmpty && s.answerFile.isNone)
    || contents.any fun (_, c) => c matches .standardInput

def terminals : IO Terminals := do
  return ⟨← (← IO.getStdout).isTty, ← (← IO.getStderr).isTty⟩

def perform (s : Settings) : IO Exit := do
  let paths := s.file.toList ++ s.answerFile.toList
  let contents ← paths.mapM fun path => return (path, ← readContents path)
  let stdin ← if s.readsStdin contents then (← IO.getStdin).readBinToEnd else pure .empty
  let files : Files := fun path => (contents.lookup path).getD (.unreadable .missing)
  return execute s (← terminals) files stdin

end Chalkboard.Command

open Chalkboard.Command in
def main (args : List String) : IO UInt32 := do
  let result ← match Settings.ofArguments args with
    | .error r => pure (refuse r)
    | .ok s => perform s
  IO.print result.console.out
  IO.eprint result.console.err
  return UInt32.ofNat result.status
