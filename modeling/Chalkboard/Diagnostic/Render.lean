import Chalkboard.Diagnostic
import Chalkboard.Text.Basic

/-! # Rendering diagnostics

A diagnostic is shown with the line of the text that its label begins on, and the labelled part of
that line underlined. Colours are terminal escapes around the parts that have one.
-/

namespace Chalkboard

inductive Paint where
  | bold
  | red
  | boldRed
  | blue

def Paint.apply (paint : Paint) (s : String) : String :=
  match paint with
  | bold => "\x1b[1m" ++ s ++ "\x1b[0m"
  | red => "\x1b[31m" ++ s ++ "\x1b[39m"
  | boldRed => "\x1b[1m\x1b[31m" ++ s ++ "\x1b[39m\x1b[0m"
  | blue => "\x1b[34m" ++ s ++ "\x1b[39m"

/-- What a diagnostic is shown against. -/
structure Renderer where
  source : String
  fileName : String
  color : Bool

namespace Renderer

def paint (r : Renderer) (paint : Paint) (s : String) : String :=
  if r.color then paint.apply s else s

/-- The characters of a text whose first byte lies in a span. -/
def slice (span : Span) : Nat → List Char → List Char
  | _, [] => []
  | offset, c :: cs =>
    if span.start ≤ offset ∧ offset < span.stop then c :: slice span (offset + c.utf8Size) cs
    else slice span (offset + c.utf8Size) cs

/-- The number of carets under a span that begins in the given column of a line: at least one, and
no more than the line has characters left. -/
def caretCount (r : Renderer) (span : Span) (line : String) (column : Nat) : Nat :=
  let width := ((slice span 0 r.source.toList).takeWhile (· != '\n')).length
  min (max width 1) (max (line.length - (column - 1)) 1)

def underline (r : Renderer) (label : Label) (line : String) (column : Nat) : String :=
  let carets := Text.repeated ' ' (column - 1)
    ++ Text.repeated '^' (r.caretCount label.span line column)
  if label.message = "" then carets else carets ++ " " ++ label.message

def label (r : Renderer) (label : Label) : String :=
  let position := Position.ofOffset r.source label.span.start
  let number := toString position.line
  let line := (Text.line? r.source position.line).getD ""
  let bar := r.paint .blue "|"
  let margin := Text.repeated ' ' (number.length + 1)
  let place := r.fileName ++ ":" ++ number ++ ":" ++ toString position.column
  Text.repeated ' ' number.length ++ r.paint .blue "-->" ++ " " ++ place ++ "\n"
    ++ margin ++ " " ++ bar ++ "\n"
    ++ r.paint .blue (Text.padLeft (number.length + 1) number) ++ " " ++ bar ++ " " ++ line ++ "\n"
    ++ margin ++ " " ++ bar ++ " " ++ r.paint .red (r.underline label line position.column) ++ "\n"
    ++ margin ++ " " ++ bar ++ "\n"

def note (r : Renderer) (note : Note) : String :=
  "  " ++ r.paint .blue "=" ++ " " ++ note.text ++ "\n"

def diagnostic (r : Renderer) (d : Diagnostic) : String :=
  r.paint .boldRed "error" ++ "[" ++ d.code ++ "]: " ++ r.paint .bold d.message ++ "\n"
    ++ (d.label.map r.label).getD ""
    ++ String.join (d.notes.map r.note)

def summary : Nat → String
  | 0 => ""
  | 1 => "error: aborting due to 1 previous error\n"
  | n => "error: aborting due to " ++ toString n ++ " previous errors\n"

def report (r : Renderer) (ds : List Diagnostic) : String :=
  String.join (ds.map fun d => r.diagnostic d ++ "\n") ++ summary ds.length

end Renderer

end Chalkboard
