import Chalkboard.Proofs.Actions
import Chalkboard.Proofs.Changes

/-! # Moves of the machine

Every action leads from one machine to another, on success and on every way of stopping. A relation
between an earlier and a later machine that can be chained and that holds of the single steps holds
of every evaluation and of every statement: the induction over programs is done here, once for all
such relations. The counter of a running loop is known to be a variable at every step of the loop.
-/

namespace Chalkboard

/-- The names of the functions that an expression calls. -/
def Expr.callees : Expr → List String
  | .literal _ | .var .. => []
  | .element _ index => index.callees
  | .call name args => name :: calleesAll args
  | .binary _ left right => left.callees ++ right.callees
  | .unary _ operand => operand.callees
where
  calleesAll : List Expr → List String
    | [] => []
    | e :: es => e.callees ++ calleesAll es

namespace Exec

variable {α β : Type} {R Q : Machine → Machine → Prop}

/-- The action leads from every machine to one in the given relation to it. -/
def Moves (R : Machine → Machine → Prop) (x : Exec α) : Prop := ∀ m, R m (x.final m)

theorem Moves.mono (h : ∀ {m m'}, R m m' → Q m m') {x : Exec α} (hx : Moves R x) : Moves Q x :=
  fun m => h (hx m)

theorem Moves.ite {c : Prop} [Decidable c] {x y : Exec α} (hx : Moves R x) (hy : Moves R y) :
    Moves R (if c then x else y) := by
  split
  · exact hx
  · exact hy

/-- A relation that holds of doing nothing and of one thing after another. -/
structure Chains (R : Machine → Machine → Prop) : Prop where
  refl : ∀ m, R m m
  trans : ∀ {a b c}, R a b → R b c → R a c

namespace Chains

variable (hR : Chains R)

include hR

theorem pure (a : α) : Moves R (pure a) := fun m => hR.refl m

theorem fail (e : RuntimeError) : Moves R (fail e : Exec α) := fun m => hR.refl m

theorem get : Moves R (get : Exec Machine) := fun m => hR.refl m

theorem lift (r : Except RuntimeError α) : Moves R (lift r) := by
  cases r with
  | ok a => exact hR.pure a
  | error e => exact hR.fail e

theorem reading (f : Environment → Except RuntimeError α) : Moves R (reading f) :=
  fun m => hR.lift (f m.env) m

/-- The second action may count on what the first one has brought about. -/
theorem bind_of {x : Exec α} {f : α → Exec β} (hx : Moves R x)
    (hf : ∀ m a m', x m = .ok a m' → R m' ((f a).final m')) : Moves R (x >>= f) := by
  intro m
  have hm := hx m
  cases h : x m with
  | ok a m' =>
    rw [final_of_ok h] at hm
    rw [final_bind_of_ok h]
    exact hR.trans hm (hf m a m' h)
  | error stop m' => rwa [final_bind_of_error h, ← final_of_error h]

theorem bind {x : Exec α} {f : α → Exec β} (hx : Moves R x) (hf : ∀ a, Moves R (f a)) :
    Moves R (x >>= f) :=
  hR.bind_of hx fun _ a m' _ => hf a m'

theorem iterate {round : Exec Bool} (hround : Moves R round) :
    ∀ n, Moves R (iterate n round) := by
  intro n
  induction n with
  | zero => exact fun m => hR.refl m
  | succ n ih =>
    intro m
    have hm := hround m
    simp only [final, Exec.iterate] at hm ⊢
    cases h : round m with
    | ok again m' =>
      rw [h] at hm
      cases again with
      | true => exact hR.trans hm (ih m')
      | false => exact hm
    | error stop m' => rwa [h] at hm

theorem callFunction {call : CallRule} (hcall : ∀ sub args, Moves R (call sub args))
    (name : String) (args : List Value) : Moves R (callFunction call name args) := by
  intro m
  rcases callFunction_cases call name args m with ⟨v, h⟩ | ⟨e, h⟩ | ⟨sub, _, _, h⟩
  · rw [final_of_ok h]
    exact hR.refl m
  · rw [final_of_error h]
    exact hR.refl m
  · have hm := hcall sub args m
    rwa [final, ← h] at hm

theorem callProcedure {call : CallRule} (hcall : ∀ sub args, Moves R (call sub args))
    (name : String) (args : List Value) : Moves R (callProcedure call name args) := by
  refine hR.bind (fun m => hR.refl m) fun m => ?_
  cases h : m.env.subroutine? name with
  | none => exact hR.fail _
  | some sub => exact hR.bind (hcall sub args) fun _ => hR.pure _

end Chains

end Exec

open Exec

section Expressions

variable {R : Machine → Machine → Prop} {call : CallRule}

mutual

/-- An evaluation moves the machine only by the calls in the expression. -/
theorem Expr.moves_eval (hR : Chains R) : ∀ e : Expr,
    (∀ name ∈ e.callees, ∀ args, Moves R (callFunction call name args)) → Moves R (e.eval call)
  | .literal v, _ => hR.pure v
  | .var _ _, _ => hR.reading _
  | .element _ index, hcall => hR.bind (Expr.moves_eval hR index hcall) fun _ => hR.reading _
  | .call name args, hcall =>
    hR.bind (Expr.moves_evalAll hR args fun name h => hcall name (List.mem_cons_of_mem _ h))
      fun vs => hcall name List.mem_cons_self vs
  | .binary _ left right, hcall =>
    hR.bind (Expr.moves_eval hR left fun name h => hcall name (List.mem_append_left _ h)) fun _ =>
      hR.bind (Expr.moves_eval hR right fun name h => hcall name (List.mem_append_right _ h))
        fun _ => hR.pure _
  | .unary _ operand, hcall => hR.bind (Expr.moves_eval hR operand hcall) fun _ => hR.pure _

theorem Expr.moves_evalAll (hR : Chains R) : ∀ es : List Expr,
    (∀ name ∈ Expr.callees.calleesAll es, ∀ args, Moves R (callFunction call name args)) →
      Moves R (Expr.evalAll call es)
  | [], _ => hR.pure []
  | e :: es, hcall =>
    hR.bind (Expr.moves_eval hR e fun name h => hcall name (List.mem_append_left _ h)) fun _ =>
      hR.bind (Expr.moves_evalAll hR es fun name h => hcall name (List.mem_append_right _ h))
        fun _ => hR.pure _

end

end Expressions

section Statements

/-- No variable of the current frame is lost. -/
def KeepsVariables (m m' : Machine) : Prop :=
  ∀ name, m.env.IsVariable name → m'.env.IsVariable name

/-- A relation that holds of all that single steps of statements do. -/
structure Respects (R : Machine → Machine → Prop) : Prop extends Chains R where
  change : ∀ {m env}, m.env.Change env → R m { m with env := env }
  ask : ∀ name, Moves R (ask name)
  print : ∀ line, Moves R (print line)
  complete : ∀ stmt m, R m (m.record (.completed stmt m.env))
  giveBack : ∀ v m, R m { m with returning := some v }

/-- The relation under a condition on the earlier machine, which the later one meets as well. -/
def Guarded (I : Machine → Prop) (R : Machine → Machine → Prop) (m m' : Machine) : Prop :=
  I m → R m m' ∧ I m'

variable {R : Machine → Machine → Prop} {call : CallRule}

theorem Exec.Chains.guarded (hR : Chains R) (I : Machine → Prop) : Chains (Guarded I R) where
  refl m h := ⟨hR.refl m, h⟩
  trans hab hbc h :=
    have ⟨hab, hb⟩ := hab h
    have ⟨hbc, hc⟩ := hbc hb
    ⟨hR.trans hab hbc, hc⟩

theorem Respects.changes (hR : Respects R) {m : Machine} {env : Environment}
    (h : m.env.Changes env) : R m { m with env := env } := by
  induction h with
  | refl => exact hR.refl m
  | tail _ hc ih => exact hR.trans ih (hR.change hc)

theorem Respects.changing (hR : Respects R) {f : Environment → Except RuntimeError Environment}
    (hf : ∀ env env', f env = .ok env' → env.Changes env') : Moves R (changing f) := by
  intro m
  cases h : f m.env with
  | ok env =>
    rw [final_of_ok (changing_of_ok h)]
    exact hR.changes (hf _ _ h)
  | error e =>
    rw [final_of_error (changing_of_error h)]
    exact hR.refl m

theorem Respects.completing (hR : Respects R) {work : Exec Unit} (hwork : Moves R work)
    (stmt : Stmt) : Moves R (completing stmt work) := by
  intro m
  have hm := hwork m
  cases hr : m.returning.isSome with
  | true =>
    rw [final_of_ok (completing_of_returning hr stmt work)]
    exact hR.refl m
  | false =>
    cases h : work m with
    | ok _ m' =>
      rw [final_of_ok h] at hm
      rw [final_of_ok (completing_of_ok hr h)]
      exact hR.trans hm (hR.complete stmt m')
    | error stop m' =>
      rw [final_of_error h] at hm
      rwa [final_of_error (completing_of_error hr h)]

/-- A relation that holds of all steps and of the calls, and under which the counter of a loop stays
a variable. -/
structure Carried (R : Machine → Machine → Prop) (call : CallRule) : Prop extends Respects R where
  keeps : ∀ {m m'}, R m m' → KeepsVariables m m'
  calls : ∀ sub args, Moves R (call sub args)

theorem isVariable_of_bound {counter : String} {v : Value} {m m' : Machine} {u : Unit}
    (h : changing (·.bindCounter counter v) m = .ok u m') : m'.env.IsVariable counter := by
  obtain ⟨env, hb, rfl⟩ := changing_eq_ok h
  exact (Environment.change_of_bindCounter hb).2

namespace Carried

variable (hR : Carried R call) (rounds : Nat)

include hR

theorem eval (e : Expr) : Moves R (e.eval call) :=
  Expr.moves_eval hR.toChains e fun name _ => hR.callFunction hR.calls name

theorem evalAll (es : List Expr) : Moves R (Expr.evalAll call es) :=
  Expr.moves_evalAll hR.toChains es fun name _ => hR.callFunction hR.calls name

/-- In a loop the counter is a variable whenever it is set, since no step before that loses it. -/
theorem forTo {counter : String} {start stop step : Expr} {body : List Stmt}
    (hbody : Moves R (Stmt.performAll rounds call body)) :
    Moves R ((Stmt.forTo counter start stop step body).perform rounds call) := by
  let I : Machine → Prop := (·.env.IsVariable counter)
  have hG : Chains (Guarded I R) := hR.toChains.guarded I
  have guard : ∀ {α : Type} {x : Exec α}, Moves R x → Moves (Guarded I R) x :=
    fun hx => hx.mono fun h hI => ⟨h, hR.keeps h counter hI⟩
  have advance : ∀ x, Moves (Guarded I R) (Exec.changing fun env =>
    .ok (env.writeCounter counter x)) :=
    fun x m hI =>
      have hc := hR.change (.setCounter counter x hI)
      ⟨hc, hR.keeps hc counter hI⟩
  rw [Stmt.perform]
  refine hR.bind (hR.eval start) fun first => ?_
  refine hR.bind_of (hR.changing fun _ _ h => .single (Environment.change_of_bindCounter h).1) ?_
  intro m _ m' hm
  have hI : I m' := isVariable_of_bound hm
  refine And.left ((?_ : Moves (Guarded I R) _) m' hI)
  refine hG.bind (guard (hR.eval step)) fun step => ?_
  refine Moves.ite (hG.iterate ?_ rounds) (hG.fail _)
  refine hG.bind (hG.reading _) fun x => ?_
  refine hG.bind (guard (hR.eval stop)) fun stop => ?_
  refine Moves.ite (hG.pure false) ?_
  refine hG.bind (guard hbody) fun _ => ?_
  refine hG.bind hG.get fun now => ?_
  refine Moves.ite (hG.pure false) ?_
  refine hG.bind (hG.reading _) fun x => ?_
  exact hG.bind (advance _) fun _ => hG.pure true

mutual

/-- Statements move the machine only by their own steps and by the calls in them. -/
theorem perform : ∀ s : Stmt, Moves R (s.perform rounds call)
  | .declare names type => by
    rw [Stmt.perform]
    refine hR.changing fun env env' h => ?_
    cases h
    exact env.changes_declare names type
  | .declareArray names lower upper element =>
    hR.bind (hR.eval lower) fun _ => hR.bind (hR.eval upper) fun _ =>
      hR.changing fun _ _ h => Environment.changes_of_declareArrays h
  | .constant name value =>
    hR.bind (hR.eval value) fun _ => hR.changing fun _ _ h =>
      Environment.changes_of_declareConstant h
  | .assign name field value =>
    hR.bind (hR.reading _) fun _ => hR.bind (hR.eval value) fun _ =>
      hR.changing fun _ _ h => .single (Environment.change_of_store h)
  | .assignElement array index value =>
    hR.bind (hR.reading _) fun _ => hR.bind (hR.eval index) fun _ => hR.bind (hR.lift _) fun i =>
      hR.bind (hR.eval value) fun v => by
        refine hR.changing fun env env' h => ?_
        cases h
        exact .single (.setElement array i v)
  | .output exprs => hR.bind (hR.evalAll exprs) fun _ => hR.print _
  | .input name =>
    hR.bind (hR.reading _) fun _ => hR.bind (hR.ask name) fun _ =>
      hR.changing fun _ _ h => .single (Environment.change_of_store h)
  | .ifElse condition yes no =>
    hR.bind (hR.eval condition) fun _ => Moves.ite (performAll yes) (performAll no)
  | .whileDo condition body =>
    hR.iterate (hR.bind (hR.eval condition) fun _ =>
      Moves.ite (hR.bind (performAll body) fun _ => hR.pure true) (hR.pure false)) rounds
  | .repeatUntil body condition =>
    hR.iterate (hR.bind (performAll body) fun _ =>
      hR.bind (hR.eval condition) fun _ => hR.pure _) rounds
  | .forTo counter start stop step body => hR.forTo rounds (performAll body)
  | .caseOf subject clauses otherwise =>
    hR.bind (hR.reading _) fun v => hR.bind (performFirst v clauses) fun found => by
      cases found with
      | true => exact hR.pure ()
      | false => exact performAll otherwise
  | .call name args => hR.bind (hR.evalAll args) fun _ => hR.callProcedure hR.calls name _
  | .giveBack value => hR.bind (hR.eval value) fun v m => hR.giveBack v m
theorem performAll : ∀ stmts : List Stmt, Moves R (Stmt.performAll rounds call stmts)
  | [] => hR.pure ()
  | stmt :: stmts =>
    hR.bind (hR.completing (perform stmt) stmt) fun _ => performAll stmts

theorem performFirst (v : Value) : ∀ clauses : List (Expr × Stmt),
    Moves R (Stmt.performFirst rounds call v clauses)
  | [] => hR.pure false
  | (value, stmt) :: clauses =>
    hR.bind (hR.eval value) fun _ =>
      Moves.ite (hR.bind (hR.completing (perform stmt) stmt) fun _ => hR.pure true)
        (performFirst v clauses)

end

end Carried

theorem respects_keepsVariables : Respects KeepsVariables where
  refl _ _ h := h
  trans hab hbc name h := hbc name (hab name h)
  change hc _ h := hc.isVariable h
  ask name m other h := by
    rw [env_final_ask]
    exact h
  print _ _ _ h := h
  complete _ _ _ h := h
  giveBack _ _ _ h := h

theorem Respects.and {Q : Machine → Machine → Prop} (hR : Respects R) (hQ : Respects Q) :
    Respects fun m m' => R m m' ∧ Q m m' where
  refl m := ⟨hR.refl m, hQ.refl m⟩
  trans hab hbc := ⟨hR.trans hab.1 hbc.1, hQ.trans hab.2 hbc.2⟩
  change hc := ⟨hR.change hc, hQ.change hc⟩
  ask name m := ⟨hR.ask name m, hQ.ask name m⟩
  print line m := ⟨hR.print line m, hQ.print line m⟩
  complete stmt m := ⟨hR.complete stmt m, hQ.complete stmt m⟩
  giveBack v m := ⟨hR.giveBack v m, hQ.giveBack v m⟩

/-- Relations need not speak of variables themselves if calls are known to keep them. -/
theorem Respects.carried (hR : Respects R) (hcall : ∀ sub args, Moves R (call sub args))
    (hvars : ∀ sub args, Moves KeepsVariables (call sub args)) :
    Carried (fun m m' => R m m' ∧ KeepsVariables m m') call where
  toRespects := hR.and respects_keepsVariables
  keeps h := h.2
  calls sub args m := ⟨hcall sub args m, hvars sub args m⟩

end Statements

end Chalkboard
