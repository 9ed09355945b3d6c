import Chalkboard.Report.Json
import Chalkboard.Text.Basic

/-! # Memory in its formats

As a table, memory has three columns: name, type and value. The first two are as wide as their
widest entry, and no row ends in blanks. The other format is JSON.
-/

namespace Chalkboard.Table

structure Row where
  name : String
  type : String
  value : String
deriving DecidableEq

/-- A value as the table shows it: texts in quotes. -/
def value : Value → String
  | .text s => "\"" ++ s ++ "\""
  | v => v.toText

def cellType (cell : Cell) : String :=
  match cell.storage with
  | .array store =>
    let lower := store.lower
    let upper := store.upper
    let elementType := store.elementType
    s!"ARRAY[{lower}:{upper}] OF {elementType}"
  | _ => cell.type

mutual

def cellValue : Cell → String
  | ⟨_, _, .scalar v⟩ => value v
  | ⟨_, _, .array store⟩ =>
    "[" ++ ", ".intercalate (store.elements.map fun (_, v) => value v) ++ "]"
  | ⟨_, _, .record ⟨fields⟩⟩ => "\x7b" ++ ", ".intercalate (fieldValues fields) ++ "\x7d"

def fieldValues : List (String × Cell) → List String
  | [] => []
  | (name, cell) :: fields => (name ++ ": " ++ cellValue cell) :: fieldValues fields

end

def row (name : String) (cell : Cell) : Row := ⟨name, cellType cell, cellValue cell⟩

structure Widths where
  name : Nat
  type : Nat
  value : Nat

def leastWidths : Widths := ⟨4, 4, 5⟩

def Widths.widen (w : Widths) (r : Row) : Widths :=
  ⟨max w.name r.name.length, max w.type r.type.length, max w.value r.value.length⟩

def Row.render (w : Widths) (r : Row) : String :=
  Text.trimEnd (Text.padRight w.name r.name ++ "  " ++ Text.padRight w.type r.type ++
    "  " ++ r.value)

/-- The headings, a rule under each column, and a row for each cell. -/
def rows (memory : Frame) : List String :=
  let entries := memory.entries.map fun (name, cell) => row name cell
  let w := entries.foldl Widths.widen leastWidths
  let rule : Row := ⟨Text.repeated '-' w.name, Text.repeated '-' w.type, Text.repeated '-' w.value⟩
  (⟨"NAME", "TYPE", "VALUE"⟩ :: rule :: entries).map (Row.render w)

def render (memory : Frame) : String :=
  if memory.entries.isEmpty then "(memory is empty)\n"
  else String.join ((rows memory).map (· ++ "\n"))

end Chalkboard.Table

namespace Chalkboard

inductive MemoryFormat where
  | table
  | json
deriving DecidableEq

/-- The format of a name, in any letter case. -/
def MemoryFormat.ofText? (s : String) : Option MemoryFormat :=
  let s := Text.lower s
  if s = "table" then some table else if s = "json" then some json else none

def MemoryFormat.render (format : MemoryFormat) (compact : Bool) (memory : Frame) : String :=
  match format with
  | table => Table.render memory
  | json => if compact then (Json.ofMemory memory).compact else (Json.ofMemory memory).pretty 0

end Chalkboard
