import Chalkboard.Memory.Cell

/-! # Runtime errors

What can stop a running program, and how it is told.
-/

namespace Chalkboard

inductive RuntimeError where
  | undeclared (name : String)
  | noField (record field : String)
  | notArray (name : String)
  | notScalar (name : String) (shape : Shape)
  | outOfBounds (name : String) (index lower upper : Int)
  | indexNotWhole (name value : String)
  | boundNotWhole (name value : String)
  | tooManyElements (name : String)
  | constantAssigned (name : String)
  | alreadyVariable (name : String)
  | unknownFunction (name : String)
  | unknownProcedure (name : String)
  | procedureInExpression (name : String)
  | badStep (counter : String)
  | tooManyCalls (name : String) (limit : Nat)
  | noInput (name : String)
deriving DecidableEq

namespace RuntimeError

def code : RuntimeError → String
  | undeclared .. => "E0201"
  | noField .. => "E0202"
  | notArray .. => "E0203"
  | notScalar .. => "E0204"
  | outOfBounds .. => "E0205"
  | indexNotWhole .. => "E0206"
  | boundNotWhole .. | tooManyElements .. => "E0207"
  | constantAssigned .. => "E0208"
  | alreadyVariable .. => "E0209"
  | unknownFunction .. => "E0210"
  | unknownProcedure .. => "E0211"
  | procedureInExpression .. => "E0212"
  | badStep .. => "E0213"
  | tooManyCalls .. => "E0214"
  | noInput .. => "E0215"

def message : RuntimeError → String
  | undeclared name => s!"Variable '{name}' not declared"
  | noField record field => s!"Field '{field}' not found in record '{record}'"
  | notArray name => s!"'{name}' is not an array"
  | notScalar name shape =>
    let shape := shape.text
    s!"'{name}' is {shape} and cannot be used as a single value"
  | outOfBounds name index _ _ => s!"Array index {index} out of bounds for '{name}'"
  | indexNotWhole name value => s!"Array index '{value}' for '{name}' is not an integer"
  | boundNotWhole name value => s!"Invalid bounds for array '{name}': '{value}' is not an integer"
  | tooManyElements name =>
    let limit := ArrayStore.maxSize
    s!"Invalid bounds for array '{name}': more than {limit} elements"
  | constantAssigned name => s!"Cannot reassign CONSTANT '{name}'"
  | alreadyVariable name => s!"'{name}' is already declared as a variable"
  | unknownFunction name => s!"Function '{name}' not found"
  | unknownProcedure name => s!"Procedure '{name}' not found"
  | procedureInExpression name => s!"'{name}' is a procedure and does not return a value"
  | badStep counter => s!"FOR loop over '{counter}' needs a non-zero numeric STEP"
  | tooManyCalls name limit => s!"Call to '{name}' exceeds the maximum call depth of {limit}"
  | noInput name => s!"No input available for '{name}'"

end RuntimeError

end Chalkboard
