import Chalkboard.Memory.Cell
import Chalkboard.Text.Basic

/-! # Memory as JSON

A frame is an object with its names in ascending order. Whole numbers up to nine quadrillion are
written as integers, and numbers that are not finite as texts, for which JSON has no number.
-/

namespace Chalkboard

inductive Json where
  | null
  | bool (b : Bool)
  | int (i : Int)
  | number (x : Float)
  | text (s : String)
  | array (items : List Json)
  | object (members : List (String × Json))

namespace Json

/-- Numbers that are no integers are written without an exponent from a hundred thousandth up to,
and without, ten to the sixteenth, and always with a fraction there. -/
def numberLayout : NumberLayout where
  tie := .toEven
  positional e := -5 ≤ e && e < 16
  exactWhole := false
  wholeTail := ".0"
  exponentSign := "+"
  infinity := "Infinity"

def controlEscape (c : Char) : List Char :=
  let digits := Nat.toDigits 16 c.toNat
  ['\\', 'u'] ++ List.replicate (4 - digits.length) '0' ++ digits

def escape (c : Char) : List Char :=
  if c = '"' ∨ c = '\\' then ['\\', c]
  else if c = '\x08' then ['\\', 'b']
  else if c = '\t' then ['\\', 't']
  else if c = '\n' then ['\\', 'n']
  else if c = '\x0c' then ['\\', 'f']
  else if c = '\r' then ['\\', 'r']
  else if c < ' ' then controlEscape c
  else [c]

def quoted (s : String) : String :=
  String.ofList ('"' :: s.toList.flatMap escape ++ ['"'])

/-- An object with its members in ascending order of their names. -/
def sorted (members : List (String × Json)) : Json :=
  object (members.mergeSort fun a b => decide (a.1 ≤ b.1))

mutual

def compact : Json → String
  | null => "null"
  | bool b => if b then "true" else "false"
  | int i => toString i
  | number x => numberLayout.render x
  | text s => quoted s
  | array items => "[" ++ ",".intercalate (compactItems items) ++ "]"
  | object members => "\x7b" ++ ",".intercalate (compactMembers members) ++ "\x7d"

def compactItems : List Json → List String
  | [] => []
  | j :: js => j.compact :: compactItems js

def compactMembers : List (String × Json) → List String
  | [] => []
  | (name, j) :: js => (quoted name ++ ":" ++ j.compact) :: compactMembers js

end

/-- Items on lines of their own between brackets; no items on the same line. -/
def between (indent : Nat) (opening closing : String) (items : List String) : String :=
  if items.isEmpty then opening ++ closing
  else
    let margin := Text.repeated ' ' (2 * (indent + 1))
    opening ++ "\n" ++ ",\n".intercalate (items.map (margin ++ ·)) ++ "\n"
      ++ Text.repeated ' ' (2 * indent) ++ closing

mutual

def pretty (indent : Nat) : Json → String
  | array items => between indent "[" "]" (prettyItems (indent + 1) items)
  | object members => between indent "\x7b" "\x7d" (prettyMembers (indent + 1) members)
  | null => "null"
  | bool b => if b then "true" else "false"
  | int i => toString i
  | number x => numberLayout.render x
  | text s => quoted s

def prettyItems (indent : Nat) : List Json → List String
  | [] => []
  | j :: js => j.pretty indent :: prettyItems indent js

def prettyMembers (indent : Nat) : List (String × Json) → List String
  | [] => []
  | (name, j) :: js => (quoted name ++ ": " ++ j.pretty indent) :: prettyMembers indent js

end

/-- Whole numbers from here on are not written as integers. -/
def wholeLimit : Nat := 9000000000000000

def ofNumber (x : Float) : Json :=
  match Double.toInt? x with
  | some i => if i.natAbs < wholeLimit then int i else number x
  | none => if x.isFinite then number x else text (Value.number x).toText

def ofValue : Value → Json
  | .null => null
  | .bool b => bool b
  | .number x => ofNumber x
  | .text s => text s

def ofArray (store : ArrayStore) : Json :=
  sorted [("lower", int store.lower), ("upper", int store.upper),
    ("elements", array (store.elements.map fun (_, v) => ofValue v))]

mutual

def ofCell : Cell → Json
  | ⟨_, _, .scalar v⟩ => ofValue v
  | ⟨_, _, .array store⟩ => ofArray store
  | ⟨_, _, .record ⟨fields⟩⟩ => sorted (ofCells fields)

def ofCells : List (String × Cell) → List (String × Json)
  | [] => []
  | (name, cell) :: cells => (name, ofCell cell) :: ofCells cells

end

def ofMemory (memory : Frame) : Json := sorted (ofCells memory.entries)

end Json

end Chalkboard
