import Chalkboard.Proofs.DoubleSums
import Chalkboard.Proofs.FailedStatements
import Chalkboard.Proofs.LastWrite
import Chalkboard.Proofs.MoreRounds

/-! # Counting loops that end

A counting loop adds its step to its counter until the counter is past the end. Additions round, and
a step that is not zero is in the end lost in a counter that is large enough; so the counter goes
past the end, or it comes to rest before.
-/

namespace Chalkboard

open Exec

namespace Environment

theorem readCounter_writeCounter {env : Environment} {counter : String} {x : Float}
    (h : env.readCounter counter = .ok x) (y : Float) :
    (env.writeCounter counter y).readCounter counter = .ok y := by
  unfold readCounter at h ⊢
  rw [writeCounter, current_setCurrent, Dict.get?_modify, if_pos rfl]
  cases hcell : env.current.get? (key counter) with
  | none =>
    rw [hcell] at h
    cases h
  | some cell => rfl

theorem readCounter_bind (env : Environment) (counter type : String) (v : Value) :
    (env.bind counter (.scalar type v)).readCounter counter = .ok v.toNumber := by
  simp [readCounter, current_bind, Cell.scalar, Cell.scalarValue?, Storage.scalarValue?]

/-- A counter is found in the current frame, so moving it on is an update like others. -/
theorem writeCounter_eq_update {env : Environment} {counter : String} {x : Float}
    (h : env.readCounter counter = .ok x) (y : Float) :
    env.writeCounter counter y = env.update counter (.setScalar (.number y)) := by
  have hcontains : env.current.contains (key counter) = true := by
    rw [Dict.contains]
    cases hcell : env.current.get? (key counter) with
    | some cell => rfl
    | none =>
      rw [readCounter, hcell] at h
      cases h
  obtain ⟨globals, frames, types, subroutines⟩ := env
  cases frames with
  | nil => rfl
  | cons frame frames => exact (if_pos hcontains).symm

end Environment

section Reading

variable {α β : Type} {m₁ m₂ : Machine}

/-- The two actions give the same result, or the same error, and leave their machines as they
are. -/
def SameResult (m₁ m₂ : Machine) (x y : Exec α) : Prop :=
  (∃ a, x m₁ = .ok a m₁ ∧ y m₂ = .ok a m₂) ∨
    ∃ e, x m₁ = .error (.error e) m₁ ∧ y m₂ = .error (.error e) m₂

theorem SameResult.pure (a : α) : SameResult m₁ m₂ (pure a) (pure a) := .inl ⟨a, rfl, rfl⟩

theorem SameResult.bind {x y : Exec α} {f g : α → Exec β} (h : SameResult m₁ m₂ x y)
    (hf : ∀ a, SameResult m₁ m₂ (f a) (g a)) : SameResult m₁ m₂ (x >>= f) (y >>= g) := by
  rcases h with ⟨a, hx, hy⟩ | ⟨e, hx, hy⟩
  · rw [SameResult, bind_of_ok hx, bind_of_ok hy]
    exact hf a
  · exact .inr ⟨e, bind_of_error hx, bind_of_error hy⟩

theorem SameResult.reading {f : Environment → Except RuntimeError α} (h : f m₂.env = f m₁.env) :
    SameResult m₁ m₂ (reading f) (reading f) := by
  cases hf : f m₁.env with
  | ok a => exact .inl ⟨a, reading_of_ok hf, reading_of_ok (h.trans hf)⟩
  | error e =>
    refine .inr ⟨e, ?_, ?_⟩
    · rw [Exec.reading, hf]
      rfl
    · rw [Exec.reading, h.trans hf]
      rfl

theorem SameResult.settled {x y : Exec α} (h : SameResult m₁ m₂ x y) : y.Settled m₂ := by
  intro m' hcut
  rcases h with ⟨a, -, hy⟩ | ⟨e, -, hy⟩
  all_goals cases hy.symm.trans hcut

/-- A built-in function needs its arguments only, and a function that is not there is missing
alike. -/
theorem SameResult.callFunction (call : CallRule) {name : String}
    (h₁ : Builtin.named? name = none → m₁.env.subroutine? name = none)
    (h₂ : Builtin.named? name = none → m₂.env.subroutine? name = none) (args : List Value) :
    SameResult m₁ m₂ (callFunction call name args) (callFunction call name args) := by
  cases hb : Builtin.call? name args with
  | some v =>
    rw [callFunction_of_builtin hb]
    exact .pure v
  | none =>
    have hnamed : Builtin.named? name = none := Option.map_eq_none_iff.mp hb
    rw [callFunction_of_not_builtin hb]
    have hmissing : ∀ m : Machine, m.env.subroutine? name = none →
        calledFunction call name args (m.env.subroutine? name) m =
          .error (.error (.unknownFunction name)) m := by
      intro m hm
      rw [hm]
      rfl
    exact .inr ⟨.unknownFunction name, hmissing m₁ (h₁ hnamed), hmissing m₂ (h₂ hnamed)⟩

def Expr.variables : Expr → List String
  | .literal _ => []
  | .var name _ => [name]
  | .element array index => array :: index.variables
  | .call _ args => variablesAll args
  | .binary _ left right => left.variables ++ right.variables
  | .unary _ operand => operand.variables
where
  variablesAll : List Expr → List String
    | [] => []
    | e :: es => e.variables ++ variablesAll es

theorem Expr.CallsNoSubroutine.of_eq {e : Expr} {env env' : Environment}
    (h : e.CallsNoSubroutine env)
    (hsame : env'.subroutines = env.subroutines) : e.CallsNoSubroutine env' := by
  unfold CallsNoSubroutine Environment.subroutine? at *
  rwa [hsame]

def NoSubroutine (m₁ m₂ : Machine) (name : String) : Prop :=
  Builtin.named? name = none → m₁.env.subroutine? name = none ∧ m₂.env.subroutine? name = none

mutual

/-- Without calls of subroutines an expression depends on its variables only. -/
theorem Expr.sameResult_eval (call : CallRule) : ∀ e : Expr,
    (∀ name ∈ e.callees, NoSubroutine m₁ m₂ name) →
    (∀ name ∈ e.variables, m₂.env.lookup? name = m₁.env.lookup? name) →
    SameResult m₁ m₂ (e.eval call) (e.eval call)
  | .literal v, _, _ => .pure v
  | .var name field, _, h =>
    .reading (Environment.read_congr (h name (List.mem_singleton_self name)) field)
  | .element array index, hcalls, h => by
    obtain ⟨harray, hindex⟩ := List.forall_mem_cons.mp h
    exact .bind (Expr.sameResult_eval call index hcalls hindex) fun i =>
      .reading (Environment.readElement_congr (Environment.array_congr harray) i)
  | .call name args, hcalls, h => by
    obtain ⟨hname, hargs⟩ := List.forall_mem_cons.mp hcalls
    exact .bind (Expr.sameResult_evalAll call args hargs h) fun vs =>
      .callFunction call (fun hnone => (hname hnone).1) (fun hnone => (hname hnone).2) vs
  | .binary op left right, hcalls, h => by
    obtain ⟨hleft, hright⟩ := List.forall_mem_append.mp hcalls
    obtain ⟨hl, hr⟩ := List.forall_mem_append.mp h
    exact .bind (Expr.sameResult_eval call left hleft hl) fun a =>
      .bind (Expr.sameResult_eval call right hright hr) fun b => .pure (op.apply a b)
  | .unary op operand, hcalls, h =>
    .bind (Expr.sameResult_eval call operand hcalls h) fun a => .pure (op.apply a)

theorem Expr.sameResult_evalAll (call : CallRule) : ∀ es : List Expr,
    (∀ name ∈ Expr.callees.calleesAll es, NoSubroutine m₁ m₂ name) →
    (∀ name ∈ Expr.variables.variablesAll es, m₂.env.lookup? name = m₁.env.lookup? name) →
    SameResult m₁ m₂ (Expr.evalAll call es) (Expr.evalAll call es)
  | [], _, _ => .pure []
  | e :: es, hcalls, h => by
    obtain ⟨hhead, htail⟩ := List.forall_mem_append.mp hcalls
    obtain ⟨he, hes⟩ := List.forall_mem_append.mp h
    exact .bind (Expr.sameResult_eval call e hhead he) fun v =>
      .bind (Expr.sameResult_evalAll call es htail hes) fun vs => .pure (v :: vs)

end

end Reading

theorem settled_reading {α : Type} (f : Environment → Except RuntimeError α) (m : Machine) :
    (reading f).Settled m :=
  (SameResult.reading rfl : SameResult m m (reading f) (reading f)).settled

/-- A counter is moved on unless a value is on its way back, or there is no counter any more. -/
theorem moveOn_eq (counter : String) (step : Float) (m : Machine) :
    moveOn counter step m =
      if m.returning.isSome then .ok false m
      else match m.env.readCounter counter with
        | .ok x => .ok true { m with env := m.env.writeCounter counter (x + step) }
        | .error e => .error (.error e) m := by
  have hmove : moveOn counter step m = (if m.returning.isSome then (pure false : Exec Bool) else do
      let x ← reading (·.readCounter counter)
      changing fun env => .ok (env.writeCounter counter (x + step))
      pure true) m := rfl
  rw [hmove]
  split
  · rfl
  · cases hread : m.env.readCounter counter with
    | ok x =>
      rw [bind_of_ok (reading_of_ok hread)]
      rfl
    | error e =>
      apply bind_of_error
      rw [reading, hread]
      rfl

theorem moveOn_eq_true {counter : String} {step : Float} {m m' : Machine}
    (h : moveOn counter step m = .ok true m') : ∃ x, m.env.readCounter counter = .ok x ∧
      m' = { m with env := m.env.writeCounter counter (x + step) } := by
  rw [moveOn_eq] at h
  split at h
  · cases h
  · split at h
    · rename_i x hx
      cases h
      exact ⟨x, hx, rfl⟩
    · cases h

theorem settled_moveOn (counter : String) (step : Float) (m : Machine) :
    (moveOn counter step).Settled m := by
  intro m' hcut
  rw [moveOn_eq] at hcut
  split at hcut
  · cases hcut
  · split at hcut
    · cases hcut
    · cases hcut

/-- A counting loop that is executed where calls may still be nested so deep. -/
structure CountingLoop where
  counter : String
  start : Expr
  stop : Expr
  step : Expr
  body : List Stmt
  calls : Nat

namespace CountingLoop

variable (loop : CountingLoop) (step : Float)

def perform (rounds : Nat) : Exec Unit :=
  (Stmt.forTo loop.counter loop.start loop.stop loop.step loop.body).perform rounds
    (invokeAt rounds loop.calls)

/-- What comes before the rounds: the counter is bound to the start, and the step is evaluated. -/
def enter (rounds : Nat) : Exec Float := do
  let first ← loop.start.eval (invokeAt rounds loop.calls)
  changing (·.bindCounter loop.counter first)
  return (← loop.step.eval (invokeAt rounds loop.calls)).toNumber

def test (rounds : Nat) : Exec Value := loop.stop.eval (invokeAt rounds loop.calls)

def work (rounds : Nat) : Exec Unit := Stmt.performAll rounds (invokeAt rounds loop.calls) loop.body

def round (rounds : Nat) : Exec Bool :=
  countingRound rounds (invokeAt rounds loop.calls) loop.counter loop.stop step loop.body

/-- What is left of a round once the counter and the end are known. -/
def goOn (x : Float) (v : Value) (rounds : Nat) : Exec Bool :=
  if passed step x v.toNumber then pure false
  else do
    loop.work rounds
    moveOn loop.counter step

theorem round_eq (rounds : Nat) : loop.round step rounds = (do
    let x ← reading (·.readCounter loop.counter)
    let v ← loop.test rounds
    loop.goOn step x v rounds) := rfl

theorem perform_of_enter {rounds : Nat} {m first : Machine}
    (h : loop.enter rounds m = .ok step first) : loop.perform rounds m =
      (if 0.0 < step || step < 0.0 then iterate rounds (loop.round step rounds)
        else fail (.badStep loop.counter) : Exec Unit) first := by
  obtain ⟨v, m₁, hstart, h⟩ := bind_eq_ok h
  obtain ⟨_, m₂, hbind, h⟩ := bind_eq_ok h
  obtain ⟨w, m₃, hstep, h⟩ := bind_eq_ok h
  cases h
  rw [perform, perform_forTo, bind_of_ok hstart, bind_of_ok hbind, countOn, bind_of_ok hstep]
  rfl

section Stable

theorem stable_enter : Stable loop.enter := by
  intro rounds₁ rounds₂ h
  have hcut := cutShort_callCongruence h loop.calls
  exact .bind (hcut.eval loop.start) fun _ => .bind (.refl _) fun _ =>
    .bind (hcut.eval loop.step) fun _ => .refl _

theorem stable_test : Stable loop.test :=
  fun _ _ h => (cutShort_callCongruence h loop.calls).eval loop.stop

theorem stable_work : Stable loop.work :=
  fun _ _ h => (cutShort_callCongruence h loop.calls).performAll loop.body

theorem stable_goOn (x : Float) (v : Value) : Stable (loop.goOn step x v) := by
  intro rounds₁ rounds₂ h
  unfold goOn
  split
  · exact .refl _
  · exact .bind (loop.stable_work _ _ h) fun _ => .refl _

theorem stable_round : Stable (loop.round step) := by
  intro rounds₁ rounds₂ h
  rw [round_eq, round_eq]
  exact .bind (.refl _) fun x => .bind (loop.stable_test _ _ h) fun v =>
    loop.stable_goOn step x v _ _ h

end Stable

/-- The machines in which the loop tests its counter, by the number of rounds it has gone until
then. -/
inductive Tests (first : Machine) : Nat → Machine → Prop where
  | first : Tests first 0 first
  | next {k : Nat} {m m' : Machine} : Tests first k m → Gives (loop.round step) m true m' →
      Tests first (k + 1) m'

/-- The end can be evaluated in this machine and the body executed then, neither of them without
end. The end is the given number, and the counter is left alone. -/
structure Steady (end_ : Float) (m : Machine) : Prop where
  test_settles : Settles loop.test m
  same_end : ∀ v m', Gives loop.test m v m' → v.toNumber = end_
  test_keeps : ∀ v m', Gives loop.test m v m' →
    m'.env.readCounter loop.counter = m.env.readCounter loop.counter
  work_settles : ∀ v m', Gives loop.test m v m' → Settles loop.work m'
  work_keeps : ∀ v m' m'', Gives loop.test m v m' → Gives loop.work m' () m'' →
    m''.env.readCounter loop.counter = m'.env.readCounter loop.counter

variable {loop step} {end_ x : Float} {m m' first : Machine}

/-- What a round has done after which the loop goes on. -/
theorem round_cases (h : Gives (loop.round step) m true m') :
    ∃ x v m₁ m₂ y, m.env.readCounter loop.counter = .ok x ∧ Gives loop.test m v m₁ ∧
      passed step x v.toNumber = false ∧ Gives loop.work m₁ () m₂ ∧
      m₂.env.readCounter loop.counter = .ok y ∧
      m' = { m₂ with env := m₂.env.writeCounter loop.counter (y + step) } := by
  obtain ⟨rounds, hround⟩ := h
  rw [round_eq] at hround
  obtain ⟨x, _, hread, hafter⟩ := bind_eq_ok hround
  obtain ⟨hx, rfl⟩ := reading_eq_ok hread
  obtain ⟨v, m₁, htest, hrest⟩ := bind_eq_ok hafter
  unfold goOn at hrest
  split at hrest
  · cases hrest
  · rename_i hpassed
    obtain ⟨_, m₂, hwork, hmove⟩ := bind_eq_ok hrest
    obtain ⟨y, hy, rfl⟩ := moveOn_eq_true hmove
    exact ⟨x, v, m₁, m₂, y, hx, ⟨rounds, htest⟩, Bool.eq_false_iff.mpr hpassed,
      ⟨rounds, hwork⟩, hy, rfl⟩

/-- If a steady loop goes on after a round, the counter was not past the end and has moved on by the
step. -/
theorem Steady.round (hsteady : loop.Steady end_ m) (h : Gives (loop.round step) m true m')
    (hx : m.env.readCounter loop.counter = .ok x) :
    passed step x end_ = false ∧ m'.env.readCounter loop.counter = .ok (x + step) := by
  obtain ⟨x', v, m₁, m₂, y, hx', htest, hpassed, hwork, hy, rfl⟩ := round_cases h
  have hcounter : m₂.env.readCounter loop.counter = m.env.readCounter loop.counter :=
    (hsteady.work_keeps v m₁ m₂ htest hwork).trans (hsteady.test_keeps v m₁ htest)
  cases hx'.symm.trans hx
  cases hy.symm.trans (hcounter.trans hx)
  rw [hsteady.same_end v m₁ htest] at hpassed
  exact ⟨hpassed, Environment.readCounter_writeCounter hy _⟩

theorem Steady.round_settles (hsteady : loop.Steady end_ m) : Settles (loop.round step) m := by
  have hgoOn : ∀ x v m₁, Gives loop.test m v m₁ → Settles (loop.goOn step x v) m₁ := by
    intro x v m₁ htest
    by_cases hpassed : passed step x v.toNumber = true
    · refine ⟨0, ?_⟩
      rw [goOn, if_pos hpassed]
      exact settled_of_ok rfl
    · obtain ⟨rounds, hwork⟩ := hsteady.work_settles v m₁ htest
      refine ⟨rounds, ?_⟩
      rw [goOn, if_neg hpassed]
      exact hwork.bind fun _ m₂ _ => settled_moveOn loop.counter step m₂
  have hafter : ∀ x m₁, Gives (fun _ => reading (·.readCounter loop.counter)) m x m₁ →
      Settles (fun rounds => loop.test rounds >>= fun v => loop.goOn step x v rounds) m₁ := by
    rintro x m₁ ⟨_, hread⟩
    obtain ⟨-, rfl⟩ := reading_eq_ok hread
    exact hsteady.test_settles.bind loop.stable_test (loop.stable_goOn step x) (hgoOn x)
  refine Settles.bind (x := fun _ => reading (·.readCounter loop.counter)) ?_ ?_
    ⟨0, settled_reading _ m⟩ hafter
  · exact fun _ _ _ => .refl _
  · exact fun x rounds₁ rounds₂ h => .bind (loop.stable_test _ _ h) fun v =>
      loop.stable_goOn step x v _ _ h

section Runs

variable (hx : first.env.readCounter loop.counter = .ok x)
  (hsteady : ∀ k m, loop.Tests step first k m → loop.Steady end_ m)

include hx hsteady

theorem Tests.counter {k : Nat} (h : loop.Tests step first k m) :
    m.env.readCounter loop.counter = .ok ((· + step)^[k] x) ∧
      ∀ j < k, passed step ((· + step)^[j] x) end_ = false := by
  induction h with
  | first => exact ⟨hx, nofun⟩
  | next htests hround ih =>
    obtain ⟨hread, hbefore⟩ := ih
    obtain ⟨hpassed, hnext⟩ := (hsteady _ _ htests).round hround hread
    rw [Function.iterate_succ_apply']
    refine ⟨hnext, fun j hj => ?_⟩
    rcases Nat.lt_succ_iff_lt_or_eq.mp hj with hlt | rfl
    · exact hbefore j hlt
    · exact hpassed

/-- By induction on the number of rounds that are left until the counter is past the end. -/
theorem settles_of_passed {last : Nat} (hlast : passed step ((· + step)^[last] x) end_ = true) :
    ∀ left k m, left + k = last + 1 → loop.Tests step first k m →
      Settles (fun rounds => iterate rounds (loop.round step rounds)) m := by
  intro left
  induction left with
  | zero =>
    intro k m hk htests
    have hbefore := (Tests.counter hx hsteady htests).2 last (by omega)
    cases hlast.symm.trans hbefore
  | succ left ih =>
    intro k m hk htests
    refine (hsteady k m htests).round_settles.iterate (loop.stable_round step) fun m' hround => ?_
    exact ih (k + 1) m' (by omega) (htests.next hround)

end Runs

theorem test_eq_ok (hcalls : loop.stop.CallsNoSubroutine m.env) {v : Value}
    (h : Gives loop.test m v m') : m' = m := by
  obtain ⟨rounds, h⟩ := h
  have hfinal : (loop.test rounds).final m = m := final_eval_of_callsNoSubroutine _ hcalls
  rwa [final_of_ok h] at hfinal

/-- The subroutines and the variables of the end are at each test as they were at the first one. -/
theorem Tests.fixed {k : Nat} (htests : loop.Tests step first k m)
    (hcalls : loop.stop.CallsNoSubroutine first.env)
    (hother : ∀ name ∈ loop.stop.variables, key name ≠ key loop.counter)
    (hkept : ∀ k m m', loop.Tests step first k m → Gives loop.work m () m' →
      ∀ name ∈ loop.stop.variables, m'.env.lookup? name = m.env.lookup? name) :
    m.env.subroutines = first.env.subroutines ∧
      ∀ name ∈ loop.stop.variables, m.env.lookup? name = first.env.lookup? name := by
  induction htests with
  | first => exact ⟨rfl, fun _ _ => rfl⟩
  | @next k m m' htests hround ih =>
    obtain ⟨hsubroutines, hlookup⟩ := ih
    have hnone := hcalls.of_eq hsubroutines
    obtain ⟨x, v, m₁, m₂, y, -, htest, -, hwork, hy, rfl⟩ := round_cases hround
    obtain rfl := loop.test_eq_ok hnone htest
    have hupdate := Environment.writeCounter_eq_update hy (y + step)
    constructor
    · obtain ⟨rounds, hwork⟩ := hwork
      have hconfined : Confined m₁ ((loop.work rounds).final m₁) :=
        confined_performAll rounds loop.calls loop.body m₁
      rw [final_of_ok hwork] at hconfined
      have hcounter := Environment.sameFixtures_update m₂.env loop.counter
        (.setScalar (.number (y + step)))
      rw [hupdate, hcounter.subroutines, hconfined.fixtures.subroutines, hsubroutines]
    · intro name hname
      rw [hupdate, Environment.lookup?_update_of_ne (hother name hname),
        hkept _ _ _ htests hwork name hname, hlookup name hname]

/-- If the end calls no subroutine, the body ends and changes neither the counter nor a variable of
the end, and the counter is none of these variables, then the end is the same number at each
test. -/
theorem steady_of_kept (hcalls : loop.stop.CallsNoSubroutine first.env)
    (hother : ∀ name ∈ loop.stop.variables, key name ≠ key loop.counter)
    (hend : ∀ v m', Gives loop.test first v m' → v.toNumber = end_)
    (hends : ∀ k m, loop.Tests step first k m → Settles loop.work m)
    (hkept : ∀ k m m', loop.Tests step first k m → Gives loop.work m () m' →
      m'.env.readCounter loop.counter = m.env.readCounter loop.counter ∧
      ∀ name ∈ loop.stop.variables, m'.env.lookup? name = m.env.lookup? name) :
    ∀ k m, loop.Tests step first k m → loop.Steady end_ m := by
  intro k m htests
  obtain ⟨hsubroutines, hlookup⟩ := htests.fixed hcalls hother fun k m m' htests hwork =>
    (hkept k m m' htests hwork).2
  have hnone := hcalls.of_eq hsubroutines
  -- All that the end reads is as it was at the first test.
  have hsame : ∀ rounds, SameResult first m (loop.test rounds) (loop.test rounds) := fun rounds =>
    loop.stop.sameResult_eval _ (fun name h hb => ⟨hcalls name h hb, hnone name h hb⟩) hlookup
  constructor
  · exact ⟨0, (hsame 0).settled⟩
  · rintro v m' ⟨rounds, htest⟩
    rcases hsame rounds with ⟨w, hfirst, hnow⟩ | ⟨e, -, hnow⟩
    · cases hnow.symm.trans htest
      exact hend v first ⟨rounds, hfirst⟩
    · cases hnow.symm.trans htest
  · intro v m' htest
    rw [loop.test_eq_ok hnone htest]
  · intro v m' htest
    obtain rfl := loop.test_eq_ok hnone htest
    exact hends k m' htests
  · intro v m' m'' htest hwork
    obtain rfl := loop.test_eq_ok hnone htest
    exact (hkept k m' m'' htests hwork).1

end CountingLoop

/-- Before it is past the end, the counter comes to a number that the step leaves as it is. -/
def RestsBefore (end_ step x : Float) : Prop :=
  ∃ k, (∀ j ≤ k, passed step ((· + step)^[j] x) end_ = false) ∧
    (· + step)^[k + 1] x = (· + step)^[k] x

theorem exists_passed {end_ step x : Float} (hstep : (0.0 < step || step < 0.0) = true)
    (h : ¬ RestsBefore end_ step x) : ∃ k, passed step ((· + step)^[k] x) end_ = true := by
  -- If the counter never gets past the end, the place where it rests is before the end.
  by_contra hnone
  have hbefore : ∀ k, passed step ((· + step)^[k] x) end_ = false :=
    fun k => Bool.eq_false_iff.mpr fun hpassed => hnone ⟨k, hpassed⟩
  obtain ⟨k, hrest⟩ := Double.exists_rest x step (by simpa using hstep)
  exact h ⟨k, fun j _ => hbefore j, hrest⟩

/-- A counting loop that has bound its counter ends, or is stopped by an error, if each evaluation
of its end gives the same number, if each execution of its body ends, and if neither of them changes
the counter, unless the step is accepted and the counter comes to rest before it is past the end all
the same. -/
theorem counting_loop_ends (loop : CountingLoop) (m first : Machine) (step x end_ : Float)
    (hentered : Gives loop.enter m step first) (hx : first.env.readCounter loop.counter = .ok x)
    (hsteady : ∀ k m', loop.Tests step first k m' → loop.Steady end_ m')
    (hrests : (0.0 < step || step < 0.0) = true → ¬ RestsBefore end_ step x) :
    Settles loop.perform m := by
  obtain ⟨rounds₁, hentered⟩ := hentered
  by_cases hstep : (0.0 < step || step < 0.0) = true
  · obtain ⟨last, hpassed⟩ := exists_passed hstep (hrests hstep)
    obtain ⟨rounds₂, hsettled⟩ :=
      CountingLoop.settles_of_passed hx hsteady hpassed (last + 1) 0 first rfl .first
    have hboth :=
      (loop.stable_enter rounds₁ (max rounds₁ rounds₂) (Nat.le_max_left ..)).eq_of_settled
      (settled_of_ok hentered)
    have hloop :=
      (loop.stable_round step rounds₂ (max rounds₁ rounds₂) (Nat.le_max_right ..)).iterate
      (Nat.le_max_right rounds₁ rounds₂)
    refine ⟨max rounds₁ rounds₂, fun m' hcut => ?_⟩
    rw [loop.perform_of_enter step (hboth.trans hentered), if_pos hstep] at hcut
    exact hloop.settled hsettled m' hcut
  · refine ⟨rounds₁, fun m' hcut => ?_⟩
    rw [loop.perform_of_enter step hentered, if_neg hstep] at hcut
    cases hcut

/-- A loop to the value of a variable that the body leaves alone. -/
theorem counting_loop_ends_ticks :
    let loop : CountingLoop :=
      ⟨"i", .literal (.number 1.0), .var "last" none, .literal (.number 1.0),
      [.output [.literal (.text "tick")]], callLimit⟩
    let m : Machine := ⟨.bind .empty "last" (.scalar "INTEGER" (.number 3.0)), [], none, []⟩
    let first : Machine := ⟨m.env.bind "i" (.scalar "INTEGER" (.number 1.0)), [], none, []⟩
    (Gives loop.enter m 1.0 first ∧ first.env.readCounter loop.counter = .ok 1.0 ∧
      (∀ k m', loop.Tests 1.0 first k m' → loop.Steady 3.0 m') ∧
      ((0.0 < (1.0 : Float) || (1.0 : Float) < 0.0) = true → ¬ RestsBefore 3.0 1.0 1.0)) ∧
      Settles loop.perform m := by
  intro loop m first
  have hentered : Gives loop.enter m 1.0 first := by
    refine ⟨0, ?_⟩
    dsimp only [loop, first, m]
    rfl
  have hcounter : first.env.readCounter loop.counter = .ok 1.0 := by
    dsimp only [loop, first, m]
    rfl
  have hwork : ∀ rounds m, ∃ m', loop.work rounds m = .ok () m' ∧ m'.env = m.env := by
    rintro rounds ⟨env, answers, _ | v, history⟩
    · exact ⟨⟨env, answers, none, _ :: _ :: history⟩, rfl, rfl⟩
    · exact ⟨_, rfl, rfl⟩
  have hsteady : ∀ k m', loop.Tests 1.0 first k m' → loop.Steady 3.0 m' := by
    apply CountingLoop.steady_of_kept
    · exact fun name hname => absurd hname List.not_mem_nil
    · show ∀ name ∈ ["last"], key name ≠ key "i"
      decide
    · rintro v m' ⟨rounds, htest⟩
      have hthree : loop.test rounds first = .ok (.number 3.0) first := by rfl
      cases hthree.symm.trans htest
      rfl
    · intro k m' _
      obtain ⟨m'', hok, -⟩ := hwork 0 m'
      exact ⟨0, settled_of_ok hok⟩
    · rintro k m' m'' - ⟨rounds, hgives⟩
      obtain ⟨_, hok, henv⟩ := hwork rounds m'
      cases hok.symm.trans hgives
      rw [henv]
      exact ⟨rfl, fun _ _ => rfl⟩
  have hrests : (0.0 < (1.0 : Float) || (1.0 : Float) < 0.0) = true →
      ¬ RestsBefore 3.0 1.0 1.0 := by
    rintro - ⟨_ | _ | _ | k, hbefore, hrest⟩
    · exact absurd hrest (by decide)
    · exact absurd hrest (by decide)
    · exact absurd hrest (by decide)
    · exact absurd (hbefore 3 (by omega)) (by decide)
  exact ⟨⟨hentered, hcounter, hsteady, hrests⟩,
    counting_loop_ends loop m first 1.0 1.0 3.0 hentered hcounter hsteady hrests⟩

theorem CountingLoop.not_settles {loop : CountingLoop} {m first : Machine} {step : Float}
    (I : Machine → Prop) (hentered : ∀ rounds, loop.enter rounds m = .ok step first)
    (hstep : (0.0 < step || step < 0.0) = true) (hfirst : I first)
    (hround : ∀ rounds m, I m → ∃ m', loop.round step rounds m = .ok true m' ∧ I m') :
    ¬ Settles loop.perform m := by
  have hloop : ∀ n rounds m, I m → ∃ m', iterate n (loop.round step rounds) m =
      .error .unfinished m' := by
    intro n rounds
    induction n with
    | zero => exact fun m _ => ⟨m, rfl⟩
    | succ n ih =>
      intro m hm
      obtain ⟨m₁, hok, hm₁⟩ := hround rounds m hm
      rw [iterate_succ, bind_of_ok hok]
      exact ih m₁ hm₁
  rintro ⟨rounds, hsettled⟩
  obtain ⟨m', hcut⟩ := hloop rounds rounds first hfirst
  apply hsettled m'
  rw [loop.perform_of_enter step (hentered rounds), if_pos hstep]
  exact hcut

theorem CountingLoop.round_of_nil {loop : CountingLoop} {rounds : Nat} {step x : Float}
    {m : Machine}
    {w : Value} (env : Environment) (hbody : loop.body = []) (hreturning : m.returning = none)
    (henv : m.env = env.bind loop.counter (.scalar "INTEGER" (.number x)))
    (htest : loop.test rounds m = .ok w m) (hpassed : passed step x w.toNumber = false) :
    loop.round step rounds m = .ok true
      { m with env := env.bind loop.counter (.scalar "INTEGER" (.number (x + step))) } := by
  have hread : m.env.readCounter loop.counter = .ok x := by
    rw [henv, Environment.readCounter_bind, Value.toNumber]
  have hwork : loop.work rounds m = .ok () m := by
    rw [work, hbody]
    rfl
  have hmove : moveOn loop.counter step m = .ok true
      { m with env := env.bind loop.counter (.scalar "INTEGER" (.number (x + step))) } := by
    rw [moveOn_eq, hread, hreturning, henv]
    simp only [Option.isSome_none, Bool.false_eq_true, if_false, Environment.writeCounter_bind]
  rw [round_eq, bind_of_ok (reading_of_ok hread), bind_of_ok htest, goOn, hpassed,
    if_neg Bool.false_ne_true, bind_of_ok hwork, hmove]

/-- A loop whose counter is too large for its step, and one that runs after its own counter. -/
theorem counting_loop_without_end :
    let large : CountingLoop := ⟨"i", .literal (.number 9007199254740992.0),
      .literal (.number 9007199254740992.0), .literal (.number 1.0), [], callLimit⟩
    let own : CountingLoop :=
      ⟨"i", .literal (.number 1.0), .var "i" none, .literal (.number 1.0), [], callLimit⟩
    ¬ Settles large.perform (.start []) ∧ ¬ Settles own.perform (.start []) := by
  intro large own
  let at_ (x : Float) : Machine := ⟨.bind .empty "i" (.scalar "INTEGER" (.number x)), [], none, []⟩
  constructor
  · apply @CountingLoop.not_settles large (.start []) (at_ 9007199254740992.0) 1.0
      (· = at_ 9007199254740992.0)
    · intro rounds
      rfl
    · decide
    · rfl
    · rintro rounds m rfl
      have hrest : passed 1.0 9007199254740992.0 9007199254740992.0 = false := by decide
      exact ⟨_, CountingLoop.round_of_nil .empty rfl rfl rfl rfl hrest, rfl⟩
  · apply @CountingLoop.not_settles own (.start []) (at_ 1.0) 1.0 (∃ x, · = at_ x)
    · intro rounds
      rfl
    · decide
    · exact ⟨1.0, rfl⟩
    · rintro rounds m ⟨x, rfl⟩
      have hpassed : passed 1.0 x x = false := by simp [passed, Double.not_lt_self]
      exact ⟨_, CountingLoop.round_of_nil .empty rfl rfl rfl rfl hpassed, x + 1.0, rfl⟩

end Chalkboard
