import Chalkboard.Text.Position

/-! # Diagnostics

What is told about a failure: a code, a sentence, the part of the text that is to blame if there is
one, and further notes.
-/

namespace Chalkboard

/-- A part of the text, and what is wrong there. -/
structure Label where
  span : Span
  message : String

inductive Note where
  | note (text : String)
  | help (text : String)

def Note.text : Note → String
  | note text => text
  | help text => "help: " ++ text

structure Diagnostic where
  code : String
  message : String
  label : Option Label
  notes : List Note

end Chalkboard
