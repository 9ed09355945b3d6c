import Chalkboard.Value

/-! # Built-in functions

A built-in function takes one value; further arguments are ignored, and a missing one is null.
-/

namespace Chalkboard

inductive Builtin where
  | int
  | length
deriving DecidableEq

namespace Builtin

/-- The built-in function of a name, in any letter case. -/
def named? (name : String) : Option Builtin :=
  let name := Text.upper name
  if name = "INT" then some int else if name = "LENGTH" then some length else none

def apply : Builtin → Value → Value
  | int, v => .number v.toNumber.floor
  | length, v => .number (Float.ofNat v.toText.length)

def call? (name : String) (args : List Value) : Option Value :=
  (named? name).map fun builtin => builtin.apply (args.headD .null)

end Builtin

end Chalkboard
