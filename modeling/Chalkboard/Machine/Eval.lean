import Chalkboard.Machine
import Chalkboard.Memory.Access
import Chalkboard.Value.Builtin

/-! # Evaluating and executing

Expressions and statements run by recursion on themselves. What a call of a subroutine does is a
parameter here, and so is the number of rounds that a loop may go.
-/

namespace Chalkboard

abbrev CallRule := Subroutine → List Value → Exec Value

namespace Exec

/-- Call a function from an expression. Built-in functions come before declared ones. -/
def callFunction (call : CallRule) (name : String) (args : List Value) : Exec Value :=
  match Builtin.call? name args with
  | some v => pure v
  | none => fun m =>
    match m.env.subroutine? name with
    | none => fail (.unknownFunction name) m
    | some sub => if sub.isFunction then call sub args m else fail (.procedureInExpression name) m

def callProcedure (call : CallRule) (name : String) (args : List Value) : Exec Unit := do
  match (← get).env.subroutine? name with
  | none => fail (.unknownProcedure name)
  | some sub => let _ ← call sub args

end Exec

open Exec

mutual

/-- Evaluate an expression. Operands are evaluated from left to right, and always both. -/
def Expr.eval (call : CallRule) : Expr → Exec Value
  | .literal v => pure v
  | .var name field => reading (·.read name field)
  | .element array index => do
    let i ← index.eval call
    reading (·.readElement array i)
  | .call name args => do
    let args ← Expr.evalAll call args
    callFunction call name args
  | .binary op left right => do
    let a ← left.eval call
    let b ← right.eval call
    pure (op.apply a b)
  | .unary op operand => do
    let a ← operand.eval call
    pure (op.apply a)

def Expr.evalAll (call : CallRule) : List Expr → Exec (List Value)
  | [] => pure []
  | e :: es => do
    let v ← e.eval call
    let vs ← Expr.evalAll call es
    pure (v :: vs)

end

def passed (step counter stop : Float) : Bool :=
  (0.0 < step && stop < counter) || (step < 0.0 && counter < stop)

mutual

def Stmt.perform (rounds : Nat) (call : CallRule) : Stmt → Exec Unit
  | .declare names type => changing fun env => .ok (env.declare names type)
  | .declareArray names lower upper element => do
    let lower ← lower.eval call
    let upper ← upper.eval call
    changing (·.declareArrays names lower upper element)
  | .constant name value => do
    let v ← value.eval call
    changing (·.declareConstant name v)
  | .assign name field value => do
    reading (·.checkWritable name)
    let v ← value.eval call
    changing (·.store name field v)
  | .assignElement array index value => do
    let _ ← reading (·.array array)
    let i ← index.eval call
    let i ← lift (Environment.index array i)
    let v ← value.eval call
    changing fun env => .ok (env.storeElement array i v)
  | .output exprs => do
    let vs ← Expr.evalAll call exprs
    print (String.join (vs.map Value.toText))
  | .input name => do
    reading (·.checkWritable name)
    let answer ← ask name
    changing (·.store name none (.ofAnswer answer))
  | .ifElse condition yes no => do
    if (← condition.eval call).isTrue then Stmt.performAll rounds call yes
    else Stmt.performAll rounds call no
  | .whileDo condition body => iterate rounds do
    if (← condition.eval call).isTrue then
      Stmt.performAll rounds call body
      pure true
    else pure false
  | .repeatUntil body condition => iterate rounds do
    Stmt.performAll rounds call body
    return !(← condition.eval call).isTrue
  | .forTo counter start stop step body => do
    let first ← start.eval call
    changing (·.bindCounter counter first)
    let step := (← step.eval call).toNumber
    if 0.0 < step || step < 0.0 then iterate rounds do
      let x ← reading (·.readCounter counter)
      let stop := (← stop.eval call).toNumber
      if passed step x stop then pure false
      else
        Stmt.performAll rounds call body
        if (← get).returning.isSome then pure false
        else
          let x ← reading (·.readCounter counter)
          changing fun env => .ok (env.writeCounter counter (x + step))
          pure true
    else fail (.badStep counter)
  | .caseOf subject clauses otherwise => do
    let v ← reading (·.read subject none)
    unless ← Stmt.performFirst rounds call v clauses do
      Stmt.performAll rounds call otherwise
  | .call name args => do
    let args ← Expr.evalAll call args
    callProcedure call name args
  | .giveBack value => do
    let v ← value.eval call
    modify ({ · with returning := some v })

def Stmt.performAll (rounds : Nat) (call : CallRule) : List Stmt → Exec Unit
  | [] => pure ()
  | stmt :: stmts => do
    completing stmt (stmt.perform rounds call)
    Stmt.performAll rounds call stmts

def Stmt.performFirst (rounds : Nat) (call : CallRule) (v : Value) : List (Expr × Stmt) → Exec Bool
  | [] => pure false
  | (value, stmt) :: clauses => do
    if (← value.eval call).same v then
      completing stmt (stmt.perform rounds call)
      pure true
    else Stmt.performFirst rounds call v clauses

end

def Stmt.execute (rounds : Nat) (call : CallRule) (stmt : Stmt) : Exec Unit :=
  completing stmt (stmt.perform rounds call)

end Chalkboard
