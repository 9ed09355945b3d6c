import Chalkboard.Proofs.Actions
import Chalkboard.Proofs.Views

/-! # Relations between actions

Evaluations and statements are put together from a few kinds of actions. A relation between actions
that these keep holds of every expression and of every statement, with different rules for calls on
either side if these are related: the induction over programs is done here, once for all such
relations.
-/

namespace Chalkboard

open Exec

namespace Exec

/-- What the call of a function comes to, by what is declared under its name. -/
def calledFunction (call : CallRule) (name : String) (args : List Value) :
    Option Subroutine → Exec Value
  | none => fail (.unknownFunction name)
  | some sub => if sub.isFunction then call sub args else fail (.procedureInExpression name)

/-- What the call of a procedure comes to, by what is declared under its name. -/
def calledProcedure (call : CallRule) (name : String) (args : List Value) :
    Option Subroutine → Exec Unit
  | none => fail (.unknownProcedure name)
  | some sub => do let _ ← call sub args

theorem callFunction_of_builtin {name : String} {args : List Value} {v : Value}
    (h : Builtin.call? name args = some v) (call : CallRule) :
    callFunction call name args = pure v := by
  simp only [callFunction, h]

theorem callFunction_of_not_builtin {name : String} {args : List Value}
    (h : Builtin.call? name args = none) (call : CallRule) :
    callFunction call name args =
      fun m => calledFunction call name args (m.env.subroutine? name) m := by
  funext m
  simp only [callFunction, h]
  cases m.env.subroutine? name with
  | none => rfl
  | some sub => cases hf : sub.isFunction <;> simp [calledFunction, hf]

theorem callProcedure_eq (call : CallRule) (name : String) (args : List Value) :
    callProcedure call name args =
      fun m => calledProcedure call name args (m.env.subroutine? name) m := by
  funext m
  unfold callProcedure
  rw [bind_of_ok (show (get : Exec Machine) m = .ok m m from rfl)]
  cases m.env.subroutine? name <;> rfl

end Exec

/-- A relation between actions that is kept by all that evaluations and statements are made of, with
so many rounds for the loops on either side. -/
structure Congruence (J : ∀ {α : Type}, Exec α → Exec α → Prop) (rounds₁ rounds₂ : Nat) : Prop where
  pure : ∀ {α : Type} (a : α), J (pure a) (pure a)
  fail : ∀ {α : Type} {e : RuntimeError}, (∀ name, e ≠ .noInput name) → J (fail e : Exec α) (fail e)
  bind : ∀ {α β : Type} {x y : Exec α} {f g : α → Exec β}, J x y → (∀ a, J (f a) (g a)) →
    J (x >>= f) (y >>= g)
  reading : ∀ {α : Type} {f : Environment → Except RuntimeError α}, Environment.Reads f →
    J (reading f) (reading f)
  changing : ∀ {f : Environment → Except RuntimeError Environment}, Environment.Writes f →
    J (changing f) (changing f)
  calling : ∀ {α : Type} (name : String) (f g : Option Subroutine → Exec α),
    (∀ sub, J (f sub) (g sub)) →
    J (fun m => f (m.env.subroutine? name) m) (fun m => g (m.env.subroutine? name) m)
  ifReturning : ∀ {α : Type} {x x' y y' : Exec α}, J x y → J x' y' →
    J (do if (← get).returning.isSome then x else x')
    (do if (← get).returning.isSome then y else y')
  iterate : ∀ {x y : Exec Bool}, J x y → J (iterate rounds₁ x) (iterate rounds₂ y)
  completing : ∀ {x y : Exec Unit}, J x y → ∀ stmt, J (completing stmt x) (completing stmt y)
  ask : ∀ name, J (ask name) (ask name)
  print : ∀ line, J (print line) (print line)
  giveBack : ∀ v : Value,
    J (modify ({ · with returning := some v })) (modify ({ · with returning := some v }))

/-- The calls are related as well. -/
structure CallCongruence (J : ∀ {α : Type}, Exec α → Exec α → Prop) (rounds₁ rounds₂ : Nat)
    (call₁ call₂ : CallRule) : Prop extends Congruence J rounds₁ rounds₂ where
  calls : ∀ sub args, J (call₁ sub args) (call₂ sub args)

variable {J : ∀ {α : Type}, Exec α → Exec α → Prop} {rounds₁ rounds₂ : Nat} {call₁ call₂ : CallRule}

theorem related_ite {α : Type} {c : Prop} [Decidable c] {x x' y y' : Exec α} (hx : J x y)
    (hx' : J x' y') : J (if c then x else x') (if c then y else y') := by
  split
  · exact hx
  · exact hx'

theorem Congruence.lift {α : Type} (hJ : Congruence J rounds₁ rounds₂) {r : Except RuntimeError α}
    (hr : NotAsking r) : J (lift r) (lift r) := by
  cases r with
  | ok a => exact hJ.pure a
  | error e => exact hJ.fail fun name h => hr name (congrArg Except.error h)

namespace CallCongruence

variable (hJ : CallCongruence J rounds₁ rounds₂ call₁ call₂)

include hJ

theorem callFunction (name : String) (args : List Value) :
    J (callFunction call₁ name args) (callFunction call₂ name args) := by
  cases hb : Builtin.call? name args with
  | some v =>
    rw [callFunction_of_builtin hb, callFunction_of_builtin hb]
    exact hJ.pure v
  | none =>
    rw [callFunction_of_not_builtin hb, callFunction_of_not_builtin hb]
    refine hJ.calling name (calledFunction call₁ name args)
      (calledFunction call₂ name args) fun sub => ?_
    cases sub with
    | none => exact hJ.fail (by simp)
    | some sub => exact related_ite (hJ.calls sub args) (hJ.fail (by simp))

theorem callProcedure (name : String) (args : List Value) :
    J (callProcedure call₁ name args) (callProcedure call₂ name args) := by
  rw [callProcedure_eq, callProcedure_eq]
  refine hJ.calling name (calledProcedure call₁ name args)
    (calledProcedure call₂ name args) fun sub => ?_
  cases sub with
  | none => exact hJ.fail (by simp)
  | some sub => exact hJ.bind (hJ.calls sub args) fun _ => hJ.pure ()

open Environment

mutual

theorem eval : ∀ e : Expr, J (e.eval call₁) (e.eval call₂)
  | .literal v => hJ.pure v
  | .var name field => hJ.reading (reads_read name field)
  | .element array index => hJ.bind (eval index) fun v => hJ.reading (reads_readElement array v)
  | .call name args => hJ.bind (evalAll args) fun vs => hJ.callFunction name vs
  | .binary _ left right => hJ.bind (eval left) fun _ => hJ.bind (eval right) fun _ => hJ.pure _
  | .unary _ operand => hJ.bind (eval operand) fun _ => hJ.pure _

theorem evalAll : ∀ es : List Expr, J (Expr.evalAll call₁ es) (Expr.evalAll call₂ es)
  | [] => hJ.pure []
  | e :: es => hJ.bind (eval e) fun _ => hJ.bind (evalAll es) fun _ => hJ.pure _

end

theorem forTo {counter : String} {start stop step : Expr} {body : List Stmt}
    (hbody : J (Stmt.performAll rounds₁ call₁ body) (Stmt.performAll rounds₂ call₂ body)) :
    J ((Stmt.forTo counter start stop step body).perform rounds₁ call₁)
      ((Stmt.forTo counter start stop step body).perform rounds₂ call₂) := by
  rw [Stmt.perform, Stmt.perform]
  have hcounter : J (Exec.reading (·.readCounter counter)) (Exec.reading (·.readCounter counter)) :=
    hJ.reading (reads_readCounter counter)
  refine hJ.bind (hJ.eval start) fun first => ?_
  refine hJ.bind (hJ.changing (writes_bindCounter counter first)) fun _ => ?_
  refine hJ.bind (hJ.eval step) fun step => related_ite (hJ.iterate ?_) (hJ.fail (by simp))
  refine hJ.bind hcounter fun x => hJ.bind (hJ.eval stop) fun stop => related_ite (hJ.pure false) ?_
  refine hJ.bind hbody fun _ => hJ.ifReturning (hJ.pure false) (hJ.bind hcounter fun x => ?_)
  exact hJ.bind (hJ.changing (writes_writeCounter counter _)) fun _ => hJ.pure true

mutual

/-- By recursion on the statement: its parts are related, and it is put together from them. -/
theorem perform : ∀ s : Stmt, J (s.perform rounds₁ call₁) (s.perform rounds₂ call₂)
  | .declare names type => by
    rw [Stmt.perform, Stmt.perform]
    exact hJ.changing (writes_declare names type)
  | .declareArray names lower upper element =>
    hJ.bind (hJ.eval lower) fun lower => hJ.bind (hJ.eval upper) fun upper =>
      hJ.changing (writes_declareArrays names lower upper element)
  | .constant name value =>
    hJ.bind (hJ.eval value) fun v => hJ.changing (writes_declareConstant name v)
  | .assign name field value =>
    hJ.bind (hJ.reading (reads_checkWritable name)) fun _ => hJ.bind (hJ.eval value) fun v =>
      hJ.changing (writes_store name field v)
  | .assignElement array index value =>
    hJ.bind (hJ.reading (reads_array array)) fun _ => hJ.bind (hJ.eval index) fun i =>
      hJ.bind (hJ.lift (notAsking_index array i)) fun i => hJ.bind (hJ.eval value) fun v =>
        hJ.changing (writes_storeElement array i v)
  | .output exprs => hJ.bind (hJ.evalAll exprs) fun _ => hJ.print _
  | .input name =>
    hJ.bind (hJ.reading (reads_checkWritable name)) fun _ => hJ.bind (hJ.ask name) fun answer =>
      hJ.changing (writes_store name none (.ofAnswer answer))
  | .ifElse condition yes no =>
    hJ.bind (hJ.eval condition) fun _ => related_ite (performAll yes) (performAll no)
  | .whileDo condition body =>
    hJ.iterate (hJ.bind (hJ.eval condition) fun _ =>
      related_ite (hJ.bind (performAll body) fun _ => hJ.pure true) (hJ.pure false))
  | .repeatUntil body condition =>
    hJ.iterate (hJ.bind (performAll body) fun _ =>
      hJ.bind (hJ.eval condition) fun _ => hJ.pure _)
  | .forTo counter start stop step body => hJ.forTo (performAll body)
  | .caseOf subject clauses otherwise =>
    hJ.bind (hJ.reading (reads_read subject none)) fun v =>
      hJ.bind (performFirst v clauses) fun found => by
        cases found with
        | true => exact hJ.pure ()
        | false => exact performAll otherwise
  | .call name args => hJ.bind (hJ.evalAll args) fun vs => hJ.callProcedure name vs
  | .giveBack value => hJ.bind (hJ.eval value) fun v => hJ.giveBack v

theorem performAll : ∀ stmts : List Stmt,
    J (Stmt.performAll rounds₁ call₁ stmts) (Stmt.performAll rounds₂ call₂ stmts)
  | [] => hJ.pure ()
  | stmt :: stmts => hJ.bind (hJ.completing (perform stmt) stmt) fun _ => performAll stmts

theorem performFirst (v : Value) : ∀ clauses : List (Expr × Stmt),
    J (Stmt.performFirst rounds₁ call₁ v clauses) (Stmt.performFirst rounds₂ call₂ v clauses)
  | [] => hJ.pure false
  | (value, stmt) :: clauses =>
    hJ.bind (hJ.eval value) fun _ =>
      related_ite (hJ.bind (hJ.completing (perform stmt) stmt) fun _ => hJ.pure true)
        (performFirst v clauses)

end

end CallCongruence

end Chalkboard
