import Chalkboard.Machine.Eval

/-! # Running programs

Calls nest only so deep, and the recursion into subroutines runs on the number of calls that may
still be nested. Loops alone can run without end, so a run is given a number of rounds that no loop
exceeds; every run that ends is the same with more rounds.
-/

namespace Chalkboard

def callLimit : Nat := 200

/-- Carry out a call inside of which so many further calls may be nested. -/
def invokeAt (rounds : Nat) : Nat → CallRule
  | 0, sub, _ => Exec.fail (.tooManyCalls sub.name callLimit)
  | n + 1, sub, args =>
    Exec.activation (Environment.ofArguments sub.params args)
      (Stmt.performAll rounds (invokeAt rounds n) sub.body)

def Subroutine.invoke (rounds : Nat) (sub : Subroutine) (args : List Value) : Exec Value :=
  fun m => invokeAt rounds (callLimit - m.env.depth) sub args m

def Expr.evaluate (rounds : Nat) (e : Expr) : Exec Value :=
  fun m => e.eval (invokeAt rounds (callLimit - m.env.depth)) m

def Program.run (rounds : Nat) (p : Program) : Exec Unit := do
  modify (Machine.load p)
  Stmt.performAll rounds (invokeAt rounds callLimit) p.statements

/-- More rounds than any loop can go in practice. -/
def manyRounds : Nat := Nat.pow 2 62

inductive Outcome where
  | done
  | failed (e : RuntimeError)
  | unfinished

def Machine.runProgram (p : Program) (m : Machine) : Outcome × Machine :=
  match p.run manyRounds m with
  | .ok () m => (.done, m)
  | .error (.error e) m => (.failed e, m)
  | .error .unfinished m => (.unfinished, m)

end Chalkboard
