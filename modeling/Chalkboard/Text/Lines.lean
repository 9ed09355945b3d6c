import Chalkboard.Text.Basic
import Chalkboard.Text.Position

/-! # Lines of an answer file and lines typed by hand

A file of answers ends its lines with a newline, or with a carriage return and a newline. A typed
line loses every newline and carriage return at its end, and a typed line that is not UTF-8 is no
answer at all.
-/

namespace Chalkboard.Text

/-- Cut after every newline, so that each piece but the last ends in one and no piece is empty. -/
def cutAfter {α : Type} (isNewline : α → Bool) : List α → List (List α)
  | [] => []
  | a :: as =>
    if isNewline a then [a] :: cutAfter isNewline as
    else match cutAfter isNewline as with
      | [] => [[a]]
      | piece :: pieces => (a :: piece) :: pieces

/-- Drop the newline at the end and, before a newline, one carriage return. -/
def dropTerminator (cs : List Char) : List Char :=
  match cs.getLast? with
  | some '\n' => dropReturn cs.dropLast
  | _ => cs

def lines (s : String) : List String :=
  (cutAfter (· == '\n') s.toList).map fun cs => String.ofList (dropTerminator cs)

/-- A typed line without the newlines and carriage returns at its end. -/
def typedLine (s : String) : String :=
  String.ofList (dropEndWhile (fun c => c == '\n' || c == '\r') s.toList)

/-- The lines typed on a stream of bytes, up to the first that is not UTF-8. -/
def typedLines (bytes : ByteArray) : List String :=
  let pieces := (cutAfter (· == (10 : UInt8)) bytes.toList).map fun piece =>
    String.fromUTF8? ⟨piece.toArray⟩
  (pieces.takeWhile Option.isSome).filterMap fun piece => piece.map typedLine

end Chalkboard.Text
