/-! # Positions in a text

Offsets count bytes of the UTF-8 encoding; lines and columns count from one, columns in characters.
A position is where a walk over the characters of the text stands.
-/

namespace Chalkboard

/-- The bytes from `start` up to, and without, `stop`. -/
structure Span where
  start : Nat
  stop : Nat
deriving DecidableEq

structure Position where
  offset : Nat
  line : Nat
  column : Nat
deriving DecidableEq

namespace Position

def origin : Position := ⟨0, 1, 1⟩

/-- The position after the character `c`: only a newline begins a new line. -/
def step (p : Position) (c : Char) : Position :=
  if c = '\n' then ⟨p.offset + c.utf8Size, p.line + 1, 1⟩
  else ⟨p.offset + c.utf8Size, p.line, p.column + 1⟩

def advance (p : Position) (cs : List Char) : Position :=
  cs.foldl step p

@[simp] theorem advance_nil (p : Position) : p.advance [] = p := rfl

@[simp] theorem advance_cons (p : Position) (c : Char) (cs : List Char) :
    p.advance (c :: cs) = (p.step c).advance cs := rfl

theorem advance_append (p : Position) (cs ds : List Char) :
    p.advance (cs ++ ds) = (p.advance cs).advance ds := by
  simp [advance]

theorem offset_step (p : Position) (c : Char) : (p.step c).offset = p.offset + c.utf8Size := by
  unfold step
  split <;> rfl

theorem line_step (p : Position) (c : Char) :
    (p.step c).line = p.line + if c = '\n' then 1 else 0 := by
  unfold step
  split <;> simp

theorem line_advance (p : Position) (cs : List Char) :
    (p.advance cs).line = p.line + cs.count '\n' := by
  induction cs generalizing p with
  | nil => rfl
  | cons c cs ih =>
    rw [advance_cons, ih, line_step, List.count_cons]
    by_cases h : c = '\n'
    · simp [h]
      omega
    · simp [h]

def seek (offset : Nat) (p : Position) : List Char → Position
  | [] => p
  | c :: cs => if offset ≤ p.offset then p else seek offset (p.step c) cs

end Position

/-- The position of a byte offset: one inside a character counts as the end of that character, one
past the end of the text as its end. -/
def Position.ofOffset (source : String) (offset : Nat) : Position :=
  Position.seek offset .origin source.toList

namespace Text

/-- The pieces between the occurrences of `separator`, one more than there are of them. -/
def cut (separator : Char) : List Char → List (List Char)
  | [] => [[]]
  | c :: cs =>
    if c = separator then [] :: cut separator cs
    else match cut separator cs with
      | [] => [[c]]
      | piece :: pieces => (c :: piece) :: pieces

def dropReturn (cs : List Char) : List Char :=
  match cs.getLast? with
  | some '\r' => cs.dropLast
  | _ => cs

/-- The text of a line, counted from one, without its terminator. -/
def line? (source : String) : Nat → Option String
  | 0 => none
  | n + 1 => (cut '\n' source.toList)[n]?.map fun cs => String.ofList (dropReturn cs)

end Text

end Chalkboard
