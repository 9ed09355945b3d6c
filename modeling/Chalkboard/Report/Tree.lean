import Chalkboard.Program
import Chalkboard.Text.Basic
import Chalkboard.Text.Quoted

/-! # Programs as trees

A program shown as a tree, one part to a line, with four more spaces for each level.
-/

namespace Chalkboard

inductive Tree where
  | leaf (text : String)
  | list (items : List Tree)
  | node (name : String) (items : List Tree)
  | record (name : String) (fields : List (String × Tree))

namespace Tree

/-- Put a comma behind the last line. -/
def withComma : List String → List String
  | [] => []
  | [line] => [line ++ ","]
  | line :: lines => line :: withComma lines

/-- Put a field name before the first line. -/
def withName (name : String) : List String → List String
  | [] => []
  | line :: lines => (name ++ ": " ++ line) :: lines

def indented (lines : List String) : List String :=
  lines.map ("    " ++ ·)

/-- Parts between an opening and a closing line. -/
def between (opening closing : String) (parts : List (List String)) : List String :=
  opening :: parts.flatMap (fun part => indented (withComma part)) ++ [closing]

mutual

def lines : Tree → List String
  | leaf text => [text]
  | list items => if items.isEmpty then ["[]"] else between "[" "]" (itemLines items)
  | node name items => between (name ++ "(") ")" (itemLines items)
  | record name fields => between (name ++ " \x7b") "\x7d" (fieldLines fields)

def itemLines : List Tree → List (List String)
  | [] => []
  | t :: ts => t.lines :: itemLines ts

def fieldLines : List (String × Tree) → List (List String)
  | [] => []
  | (name, t) :: ts => withName name t.lines :: fieldLines ts

end

def render (t : Tree) : String := "\n".intercalate t.lines

/-- Numbers in a tree are written without an exponent from a ten thousandth up to, and without, ten
to the sixteenth, and always with a fraction there. -/
def numberLayout : NumberLayout where
  tie := .up
  positional e := -4 ≤ e && e < 16
  exactWhole := false
  wholeTail := ".0"
  exponentSign := ""
  infinity := "inf"

def ofText (s : String) : Tree := leaf (Text.quoted s)

def ofTexts (texts : List String) : Tree := list (texts.map ofText)

def ofTextOption : Option String → Tree
  | none => leaf "None"
  | some s => node "Some" [ofText s]

def ofBool (b : Bool) : Tree := leaf (if b then "true" else "false")

def ofValue : Value → Tree
  | .null => leaf "Null"
  | .bool b => node "Bool" [ofBool b]
  | .number x => node "Number" [leaf (numberLayout.render x)]
  | .text s => node "String" [ofText s]

end Tree

def BinaryOp.label : BinaryOp → String
  | or => "Or"
  | and => "And"
  | eq => "Eq"
  | notEq => "NotEq"
  | less => "Less"
  | greater => "Greater"
  | lessEq => "LessEq"
  | greaterEq => "GreaterEq"
  | add => "Add"
  | sub => "Sub"
  | concat => "Concat"
  | mul => "Mul"
  | div => "Div"
  | intDiv => "IntDiv"
  | mod => "Mod"
  | pow => "Pow"

def UnaryOp.label : UnaryOp → String
  | not => "Not"
  | neg => "Neg"

mutual

def Expr.tree : Expr → Tree
  | .literal v => .node "Literal" [.ofValue v]
  | .var name field => .record "Variable" [("name", .ofText name), ("field", .ofTextOption field)]
  | .element array index =>
    .record "ArrayAccess" [("name", .ofText array), ("index", index.tree)]
  | .call name args => .record "Call" [("name", .ofText name), ("args", .list (Expr.trees args))]
  | .binary op left right =>
    .record "Binary" [("left", left.tree), ("op", .leaf op.label), ("right", right.tree)]
  | .unary op operand => .record "Unary" [("op", .leaf op.label), ("expr", operand.tree)]

def Expr.trees : List Expr → List Tree
  | [] => []
  | e :: es => e.tree :: Expr.trees es

end

mutual

def Stmt.tree : Stmt → Tree
  | .declare names type =>
    .record "Declare" [("names", .ofTexts names), ("type_name", .ofText type)]
  | .declareArray names lower upper element =>
    .record "DeclareArray" [("names", .ofTexts names), ("lower", lower.tree),
      ("upper", upper.tree), ("element_type", .ofText element)]
  | .constant name value =>
    .record "Constant" [("name", .ofText name), ("value", value.tree)]
  | .assign name field value =>
    .record "Assign" [("name", .ofText name), ("field", .ofTextOption field),
      ("value", value.tree)]
  | .assignElement array index value =>
    .record "ArrayAssign" [("name", .ofText array), ("index", index.tree), ("value", value.tree)]
  | .output exprs => .node "Output" [.list (Expr.trees exprs)]
  | .input name => .node "Input" [.ofText name]
  | .ifElse condition yes no =>
    .record "If" [("condition", condition.tree), ("then_branch", .list (Stmt.trees yes)),
      ("else_branch", .list (Stmt.trees no))]
  | .whileDo condition body =>
    .record "While" [("condition", condition.tree), ("body", .list (Stmt.trees body))]
  | .repeatUntil body condition =>
    .record "Repeat" [("body", .list (Stmt.trees body)), ("condition", condition.tree)]
  | .forTo counter start stop step body =>
    .record "For" [("var", .ofText counter), ("start", start.tree), ("end", stop.tree),
      ("step", step.tree), ("body", .list (Stmt.trees body))]
  | .caseOf subject clauses otherwise =>
    .record "Case" [("subject", .ofText subject), ("clauses", .list (Stmt.clauseTrees clauses)),
      ("otherwise", .list (Stmt.trees otherwise))]
  | .call name args => .record "Call" [("name", .ofText name), ("args", .list (Expr.trees args))]
  | .giveBack value => .node "Return" [value.tree]

def Stmt.trees : List Stmt → List Tree
  | [] => []
  | stmt :: stmts => stmt.tree :: Stmt.trees stmts

def Stmt.clauseTrees : List (Expr × Stmt) → List Tree
  | [] => []
  | (value, stmt) :: clauses =>
    .record "CaseClause" [("value", value.tree), ("body", stmt.tree)] :: Stmt.clauseTrees clauses

end

def RecordType.tree (t : RecordType) : Tree :=
  .record "RecordType" [("name", .ofText t.name),
    ("fields", .list (t.fields.map fun f =>
      .record "FieldDecl" [("name", .ofText f.name), ("type_name", .ofText f.type)]))]

def Param.tree (p : Param) : Tree :=
  .record "Param" [("name", .ofText p.name), ("type_name", .ofText p.type),
    ("by_ref", .ofBool p.byRef)]

def Subroutine.tree (s : Subroutine) : Tree :=
  .record "Subroutine" [("name", .ofText s.name), ("params", .list (s.params.map Param.tree)),
    ("returns", .ofTextOption s.returns), ("body", .list (Stmt.trees s.body))]

def Item.tree : Item → Tree
  | .recordType t => .node "TypeDecl" [t.tree]
  | .subroutine s => .node (if s.isFunction then "Function" else "Procedure") [s.tree]
  | .statement stmt => stmt.tree

def Program.tree (p : Program) : Tree :=
  .record "Program" [("items", .list (p.items.map Item.tree))]

end Chalkboard
