import Chalkboard.Value.Operator

/-! # Programs

A program is a list of items. Record types and subroutines are declared at the top level only;
everything else is a statement. Names keep the spelling they are written with.
-/

namespace Chalkboard

inductive Expr where
  | literal (value : Value)
  /-- A variable, or a field of a record. -/
  | var (name : String) (field : Option String)
  | element (array : String) (index : Expr)
  | call (name : String) (args : List Expr)
  | binary (op : BinaryOp) (left right : Expr)
  | unary (op : UnaryOp) (operand : Expr)

inductive Stmt where
  | declare (names : List String) (type : String)
  | declareArray (names : List String) (lower upper : Expr) (element : String)
  | constant (name : String) (value : Expr)
  | assign (name : String) (field : Option String) (value : Expr)
  | assignElement (array : String) (index value : Expr)
  | output (exprs : List Expr)
  | input (name : String)
  | ifElse (condition : Expr) (yes no : List Stmt)
  | whileDo (condition : Expr) (body : List Stmt)
  | repeatUntil (body : List Stmt) (condition : Expr)
  | forTo (counter : String) (start stop step : Expr) (body : List Stmt)
  | caseOf (subject : String) (clauses : List (Expr × Stmt)) (otherwise : List Stmt)
  | call (name : String) (args : List Expr)
  | giveBack (value : Expr)

def Stmt.keyword : Stmt → String
  | declare .. | declareArray .. => "DECLARE"
  | constant .. => "CONSTANT"
  | assign .. | assignElement .. => "assignment"
  | output .. => "OUTPUT"
  | input .. => "INPUT"
  | ifElse .. => "IF"
  | whileDo .. => "WHILE"
  | repeatUntil .. => "REPEAT"
  | forTo .. => "FOR"
  | caseOf .. => "CASE"
  | call .. => "CALL"
  | giveBack .. => "RETURN"

structure FieldDecl where
  name : String
  type : String
deriving DecidableEq

structure RecordType where
  name : String
  fields : List FieldDecl
deriving DecidableEq

structure Param where
  name : String
  type : String
  /-- Whether the parameter is marked to be passed by reference; it is passed by value all the
  same. -/
  byRef : Bool
deriving DecidableEq

/-- A function, which names the type it returns, or a procedure. -/
structure Subroutine where
  name : String
  params : List Param
  returns : Option String
  body : List Stmt

def Subroutine.isFunction (s : Subroutine) : Bool := s.returns.isSome

inductive Item where
  | recordType (type : RecordType)
  | subroutine (sub : Subroutine)
  | statement (stmt : Stmt)

def Item.keyword : Item → String
  | recordType _ => "TYPE"
  | subroutine sub => if sub.isFunction then "FUNCTION" else "PROCEDURE"
  | statement stmt => stmt.keyword

structure Program where
  items : List Item

namespace Program

def statements (p : Program) : List Stmt :=
  p.items.filterMap fun
    | .statement stmt => some stmt
    | _ => none

def recordTypes (p : Program) : List RecordType :=
  p.items.filterMap fun
    | .recordType type => some type
    | _ => none

def subroutines (p : Program) : List Subroutine :=
  p.items.filterMap fun
    | .subroutine sub => some sub
    | _ => none

end Program

end Chalkboard
