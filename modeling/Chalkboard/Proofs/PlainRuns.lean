import Chalkboard.Proofs.Actions
import Chalkboard.Proofs.Spelling

/-! # Runs in plain form

The plain form of a program, run on the plain form of a machine, does what the program itself does
on the machine itself, and ends in the plain form of what the program ends in. Two programs with the
same plain form therefore run alike.
-/

namespace Chalkboard

theorem Builtin.call?_key (name : String) (args : List Value) :
    Builtin.call? (key name) args = Builtin.call? name args := by
  have h : Text.upper (key name) = Text.upper name := key_key name
  simp only [call?, named?, h]

@[simp] theorem Subroutine.isFunction_plain (sub : Subroutine) :
    sub.plain.isFunction = sub.isFunction := by
  simp [plain, rename, unmarked, isFunction]

namespace Exec

variable {α β γ δ : Type} {φ : α → β} {ψ : γ → δ}

def plainResult (φ : α → β) : EStateM.Result Stop Machine α → EStateM.Result Stop Machine β
  | .ok a m => .ok (φ a) m.plain
  | .error stop m => .error stop.plain m.plain

/-- On the plain form of a machine, the second action does what the first one does on the
machine. -/
def Mirrors (φ : α → β) (x : Exec α) (y : Exec β) : Prop := ∀ m, y m.plain = plainResult φ (x m)

namespace Mirrors

theorem pure (a : α) : Mirrors φ (pure a) (pure (φ a)) := fun _ => rfl

theorem fail (e : RuntimeError) : Mirrors φ (fail e) (fail e.plain) := fun _ => rfl

theorem bind {x : Exec α} {y : Exec β} {f : α → Exec γ} {g : β → Exec δ} (hx : Mirrors φ x y)
    (hf : ∀ a, Mirrors ψ (f a) (g (φ a))) : Mirrors ψ (x >>= f) (y >>= g) := by
  intro m
  have hm := hx m
  cases h : x m with
  | ok a m' =>
    rw [h] at hm
    rw [bind_of_ok h, bind_of_ok hm]
    exact hf a m'
  | error stop m' =>
    rw [h] at hm
    rw [bind_of_error h, bind_of_error hm]
    rfl

theorem lift {r : Except RuntimeError α} {r' : Except RuntimeError β} (h : r' = plainError φ r) :
    Mirrors φ (lift r) (lift r') := by
  subst h
  cases r with
  | ok a => exact .pure a
  | error e => exact .fail e

theorem reading {f : Environment → Except RuntimeError α} {g : Environment → Except RuntimeError β}
    (h : ∀ env, g env.plain = plainError φ (f env)) : Mirrors φ (reading f) (reading g) :=
  fun m => lift (h m.env) m

theorem changing {f g : Environment → Except RuntimeError Environment}
    (h : ∀ env, g env.plain = plainError Environment.plain (f env)) :
    Mirrors id (changing f) (changing g) := by
  intro m
  have hm : g m.plain.env = plainError Environment.plain (f m.env) := h m.env
  cases hf : f m.env with
  | ok env =>
    rw [hf] at hm
    rw [changing_of_ok hf, changing_of_ok hm]
    rfl
  | error e =>
    rw [hf] at hm
    rw [changing_of_error hf, changing_of_error hm]
    rfl

theorem print (line : String) : Mirrors id (print line) (print line) := fun _ => rfl

theorem ask (name : String) : Mirrors id (ask name) (ask (key name)) := by
  intro m
  cases h : m.answers with
  | nil => rw [ask_of_nil h, ask_of_nil (m := m.plain) h]; rfl
  | cons answer answers => rw [ask_of_cons h, ask_of_cons (m := m.plain) h]; rfl

theorem ite {c : Prop} [Decidable c] {x x' : Exec α} {y y' : Exec β} (hx : Mirrors φ x y)
    (hx' : Mirrors φ x' y') : Mirrors φ (if c then x else x') (if c then y else y') := by
  split
  · exact hx
  · exact hx'

theorem ifReturning {x x' : Exec α} {y y' : Exec β} (hx : Mirrors φ x y) (hx' : Mirrors φ x' y') :
    Mirrors φ (do if (← get).returning.isSome then x else x')
      (do if (← get).returning.isSome then y else y') :=
  fun m => ite hx hx' m

theorem completing {x y : Exec Unit} (hx : Mirrors id x y) (stmt : Stmt) :
    Mirrors id (completing stmt x) (completing (stmt.rename key) y) := by
  intro m
  have hm := hx m
  cases hr : m.returning.isSome with
  | true => rw [completing_of_returning hr, completing_of_returning (m := m.plain) hr]; rfl
  | false =>
    cases h : x m with
    | ok u m' =>
      rw [h] at hm
      rw [completing_of_ok hr h, completing_of_ok (m := m.plain) hr hm]
      rfl
    | error stop m' =>
      rw [h] at hm
      rw [completing_of_error hr h, completing_of_error (m := m.plain) hr hm]
      rfl

theorem iterate {x y : Exec Bool} (hx : Mirrors id x y) (n : Nat) :
    Mirrors id (iterate n x) (iterate n y) := by
  induction n with
  | zero => exact fun _ => rfl
  | succ n ih =>
    intro m
    have hm := hx m
    simp only [Exec.iterate]
    cases h : x m with
    | ok again m' =>
      rw [h] at hm
      rw [hm]
      cases again with
      | true => exact ih m'
      | false => rfl
    | error stop m' =>
      rw [h] at hm
      rw [hm]
      rfl

theorem activation {x y : Exec Unit} (hx : Mirrors id x y) (frame : Frame) :
    Mirrors id (activation frame x) (activation (Frame.plain frame) y) := by
  intro m
  have hm : y (m.plain.enter (Frame.plain frame)) = _ := hx (m.enter frame)
  cases h : x (m.enter frame) with
  | ok u m' =>
    rw [h] at hm
    rw [activation_of_ok h, activation_of_ok hm]
    simp [plainResult, Machine.plain, Machine.leave, Environment.plain, Environment.pop]
  | error stop m' =>
    rw [h] at hm
    rw [activation_of_error h, activation_of_error hm]
    simp [plainResult, Machine.plain, Machine.leave, Environment.plain, Environment.pop]

theorem final {x : Exec α} {y : Exec β} (h : Mirrors φ x y) (m : Machine) :
    y.final m.plain = (x.final m).plain := by
  have hm := h m
  cases hx : x m with
  | ok a m' =>
    rw [hx] at hm
    rw [final_of_ok hm, final_of_ok hx]
  | error stop m' =>
    rw [hx] at hm
    rw [final_of_error hm, final_of_error hx]

theorem outcome {x y : Exec α} (h : Mirrors id x y) (m : Machine) :
    y.outcome m.plain = (x.outcome m).mapError Stop.plain := by
  have hm := h m
  cases hx : x m with
  | ok a m' =>
    rw [hx] at hm
    rw [outcome_of_ok hm, outcome_of_ok hx]
    rfl
  | error stop m' =>
    rw [hx] at hm
    rw [outcome_of_error hm, outcome_of_error hx]
    rfl

end Mirrors

/-- Calls of the plain form of a subroutine mirror calls of the subroutine. -/
def MirrorsCalls (call call' : CallRule) : Prop :=
  ∀ sub args, Mirrors id (call sub args) (call' sub.plain args)

namespace MirrorsCalls

variable {call call' : CallRule}

theorem callFunction (hc : MirrorsCalls call call') (name : String) (args : List Value) :
    Mirrors id (callFunction call name args) (callFunction call' (key name) args) := by
  unfold Exec.callFunction
  rw [Builtin.call?_key]
  cases Builtin.call? name args with
  | some v => exact .pure v
  | none =>
    intro m
    have hsub : m.plain.env.subroutine? (key name) = _ := m.env.subroutine?_plain name
    simp only [hsub]
    cases m.env.subroutine? name with
    | none => rfl
    | some sub =>
      simp only [Option.map_some, Subroutine.isFunction_plain]
      split
      · exact hc sub args m
      · rfl

theorem callProcedure (hc : MirrorsCalls call call') (name : String) (args : List Value) :
    Mirrors id (callProcedure call name args) (callProcedure call' (key name) args) := by
  intro m
  have hsub : m.plain.env.subroutine? (key name) = _ := m.env.subroutine?_plain name
  unfold Exec.callProcedure
  rw [bind_of_ok (show (get : Exec Machine) m = .ok m m from rfl),
    bind_of_ok (show (get : Exec Machine) m.plain = .ok m.plain m.plain from rfl), hsub]
  cases m.env.subroutine? name with
  | none => rfl
  | some sub => exact Mirrors.bind (hc sub args) (fun _ => .pure ()) m

mutual

theorem eval (hc : MirrorsCalls call call') :
    ∀ e : Expr, Mirrors id (e.eval call) ((e.rename key).eval call')
  | .literal v => .pure v
  | .var name field => .reading fun env => env.read_plain name field
  | .element array index =>
    .bind (hc.eval index) fun v => .reading fun env => env.readElement_plain array v
  | .call name args => .bind (hc.evalAll args) fun vs => hc.callFunction name vs
  | .binary _ left right => .bind (hc.eval left) fun _ => .bind (hc.eval right) fun _ => .pure _
  | .unary _ operand => .bind (hc.eval operand) fun _ => .pure _

theorem evalAll (hc : MirrorsCalls call call') :
    ∀ es : List Expr, Mirrors id (Expr.evalAll call es) (Expr.evalAll call' (Expr.renameAll key es))
  | [] => .pure []
  | e :: es => .bind (hc.eval e) fun _ => .bind (hc.evalAll es) fun _ => .pure _

end

theorem forTo (hc : MirrorsCalls call call') (rounds : Nat) {counter : String}
    {start stop step : Expr} {body : List Stmt}
    (hbody : Mirrors id (Stmt.performAll rounds call body)
      (Stmt.performAll rounds call' (Stmt.renameAll key body))) :
    Mirrors id ((Stmt.forTo counter start stop step body).perform rounds call)
      (((Stmt.forTo counter start stop step body).rename key).perform rounds call') := by
  rw [Stmt.rename, Stmt.perform, Stmt.perform]
  have hcounter : Mirrors id (reading (·.readCounter counter))
    (reading (·.readCounter (key counter))) :=
    .reading fun env => env.readCounter_plain counter
  refine .bind (hc.eval start) fun first => ?_
  refine .bind (.changing fun env => env.bindCounter_plain counter first) fun _ => ?_
  refine .bind (hc.eval step) fun step => .ite (.iterate ?_ rounds) (.fail _)
  refine .bind hcounter fun x => .bind (hc.eval stop) fun stop => .ite (.pure false) ?_
  refine .bind hbody fun _ => .ifReturning (.pure false) (.bind hcounter fun x => ?_)
  refine .bind (.changing fun env => ?_) fun _ => .pure true
  exact congrArg Except.ok (env.writeCounter_plain counter _)

mutual

theorem perform (hc : MirrorsCalls call call') (rounds : Nat) : ∀ s : Stmt,
    Mirrors id (s.perform rounds call) ((s.rename key).perform rounds call')
  | .declare names type => by
    rw [Stmt.rename, Stmt.perform, Stmt.perform]
    exact .changing fun env => congrArg Except.ok (env.declare_plain type names)
  | .declareArray names lower upper element =>
    .bind (hc.eval lower) fun lower => .bind (hc.eval upper) fun upper =>
      .changing fun env => env.declareArrays_plain element names lower upper
  | .constant name value =>
    .bind (hc.eval value) fun v => .changing fun env => env.declareConstant_plain name v
  | .assign name field value =>
    .bind (.reading fun env => env.checkWritable_plain name) fun _ => .bind (hc.eval value) fun v =>
      .changing fun env => env.store_plain name v field
  | .assignElement array index value =>
    -- The array is only looked for; in the plain form another one is found, which is dropped as
    -- well.
    .bind (.reading fun env => env.array_plain array) fun _ => .bind (hc.eval index) fun i =>
      .bind (.lift (Environment.index_key array i)) fun i => .bind (hc.eval value) fun v =>
        .changing fun env => congrArg Except.ok (env.storeElement_plain array v i)
  | .output exprs => .bind (hc.evalAll exprs) fun _ => .print _
  | .input name =>
    .bind (.reading fun env => env.checkWritable_plain name) fun _ =>
      .bind (.ask name) fun answer =>
      .changing fun env => env.store_plain name (.ofAnswer answer) none
  | .ifElse condition yes no =>
    .bind (hc.eval condition) fun _ => .ite (hc.performAll rounds yes) (hc.performAll rounds no)
  | .whileDo condition body =>
    .iterate (.bind (hc.eval condition) fun _ =>
      .ite (.bind (hc.performAll rounds body) fun _ => .pure true) (.pure false)) rounds
  | .repeatUntil body condition => by
    rw [Stmt.rename, Stmt.perform, Stmt.perform]
    refine .iterate (.bind (hc.performAll rounds body) fun _ => ?_) rounds
    exact .bind (hc.eval condition) fun v => .pure (!v.isTrue)
  | .forTo counter start stop step body => hc.forTo rounds (hc.performAll rounds body)
  | .caseOf subject clauses otherwise =>
    .bind (.reading fun env => env.read_plain subject none) fun v =>
      .bind (hc.performFirst rounds v clauses) fun found => by
        cases found with
        | true => exact .pure ()
        | false => exact hc.performAll rounds otherwise
  | .call name args => .bind (hc.evalAll args) fun vs => hc.callProcedure name vs
  | .giveBack value => .bind (hc.eval value) fun v _ => rfl

theorem performAll (hc : MirrorsCalls call call') (rounds : Nat) : ∀ stmts : List Stmt,
    Mirrors id (Stmt.performAll rounds call stmts)
      (Stmt.performAll rounds call' (Stmt.renameAll key stmts))
  | [] => .pure ()
  | stmt :: stmts =>
    .bind (.completing (hc.perform rounds stmt) stmt) fun _ => hc.performAll rounds stmts

theorem performFirst (hc : MirrorsCalls call call') (rounds : Nat) (v : Value) :
    ∀ clauses : List (Expr × Stmt), Mirrors id (Stmt.performFirst rounds call v clauses)
      (Stmt.performFirst rounds call' v (Stmt.renameClauses key clauses))
  | [] => .pure false
  | (value, stmt) :: clauses =>
    .bind (hc.eval value) fun _ =>
      .ite (.bind (.completing (hc.perform rounds stmt) stmt) fun _ => .pure true)
        (hc.performFirst rounds v clauses)

end

/-- Calls mirror each other however deep they may be nested. -/
theorem invokeAt (rounds : Nat) : ∀ n, MirrorsCalls (invokeAt rounds n) (invokeAt rounds n)
  | 0, sub, args => .fail _
  | n + 1, sub, args => by
    have hbody := (invokeAt rounds n).performAll rounds sub.body
    have hframe : Environment.ofArguments sub.plain.params args =
        Frame.plain (Environment.ofArguments sub.params args) := by
      rw [Frame.plain_ofArguments]
      simp [Subroutine.plain, Subroutine.rename, Subroutine.unmarked, Function.comp_def]
    rw [Chalkboard.invokeAt, Chalkboard.invokeAt, hframe]
    exact .activation hbody _

end MirrorsCalls

end Exec

open Exec

theorem Program.run_mirrors (p : Program) (rounds : Nat) :
    Mirrors id (p.run rounds) (p.plain.run rounds) := by
  unfold Program.run
  have hload : Mirrors id (modify (Machine.load p)) (modify (Machine.load p.plain)) := by
    intro m
    have henv := Environment.plain_ofProgram p
    change EStateM.Result.ok () (Machine.load p.plain m.plain) = .ok () (Machine.load p m).plain
    simp [Machine.load, Machine.plain, henv]
  rw [p.statements_plain]
  exact .bind hload fun _ => (MirrorsCalls.invokeAt rounds callLimit).performAll rounds p.statements

end Chalkboard
