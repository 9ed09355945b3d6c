import Chalkboard.Machine.Run

/-! # Actions and their results

An action gives a result and leaves a machine, also when it stops. The equations here say what each
kind of action does in each case, so that later proofs need not open the definitions of the actions.
-/

namespace Chalkboard.Exec

variable {α β : Type} {m m' : Machine}

/-- The machine after an action, whether it came to its end or stopped. -/
def final (x : Exec α) (m : Machine) : Machine :=
  match x m with
  | .ok _ m => m
  | .error _ m => m

/-- How an action ended. -/
def outcome (x : Exec α) (m : Machine) : Except Stop α :=
  match x m with
  | .ok a _ => .ok a
  | .error stop _ => .error stop

section Results

variable {x : Exec α} {f : α → Exec β} {a : α} {stop : Stop}

theorem final_of_ok (h : x m = .ok a m') : x.final m = m' := by
  simp only [final, h]

theorem final_of_error (h : x m = .error stop m') : x.final m = m' := by
  simp only [final, h]

theorem outcome_of_ok (h : x m = .ok a m') : x.outcome m = .ok a := by
  simp only [outcome, h]

theorem outcome_of_error (h : x m = .error stop m') : x.outcome m = .error stop := by
  simp only [outcome, h]

theorem outcome_eq_error (h : x.outcome m = .error stop) : ∃ m', x m = .error stop m' := by
  cases hx : x m with
  | ok a m' =>
    rw [outcome_of_ok hx] at h
    cases h
  | error stop' m' =>
    rw [outcome_of_error hx] at h
    cases h
    exact ⟨m', rfl⟩

theorem bind_of_ok (h : x m = .ok a m') : (x >>= f) m = f a m' := by
  simp [bind, EStateM.bind, h]

theorem bind_of_error (h : x m = .error stop m') : (x >>= f) m = .error stop m' := by
  simp [bind, EStateM.bind, h]

theorem final_bind_of_ok (h : x m = .ok a m') : (x >>= f).final m = (f a).final m' := by
  simp only [final, bind_of_ok h]

theorem final_bind_of_error (h : x m = .error stop m') : (x >>= f).final m = m' :=
  final_of_error (bind_of_error h)

theorem bind_eq_ok {b : β} (h : (x >>= f) m = .ok b m') :
    ∃ a m₁, x m = .ok a m₁ ∧ f a m₁ = .ok b m' := by
  cases hx : x m with
  | ok a m₁ =>
    rw [bind_of_ok hx] at h
    exact ⟨a, m₁, rfl, h⟩
  | error stop m₁ =>
    rw [bind_of_error hx] at h
    cases h

/-- What follows an action matters only where the action succeeds. -/
theorem bind_congr_of_ok {g : α → Exec β} (h : ∀ a m', x m = .ok a m' → f a m' = g a m') :
    (x >>= f) m = (x >>= g) m := by
  cases hx : x m with
  | ok a m' => rw [bind_of_ok hx, bind_of_ok hx, h a m' hx]
  | error stop m' => rw [bind_of_error hx, bind_of_error hx]

end Results

section Memory

variable {f : Environment → Except RuntimeError α} {a : α}
  {g : Environment → Except RuntimeError Environment} {env : Environment} {e : RuntimeError}

theorem reading_of_ok (h : f m.env = .ok a) : reading f m = .ok a m := by
  rw [reading, h]
  rfl

theorem reading_of_error (h : f m.env = .error e) : reading f m = .error (.error e) m := by
  rw [reading, h]
  rfl

theorem reading_eq_ok (h : reading f m = .ok a m') : f m.env = .ok a ∧ m' = m := by
  rw [reading] at h
  cases hf : f m.env with
  | ok b =>
    rw [hf] at h
    cases h
    exact ⟨rfl, rfl⟩
  | error e =>
    rw [hf] at h
    cases h

theorem changing_of_ok (h : g m.env = .ok env) : changing g m = .ok () { m with env := env } := by
  simp only [changing, h]

theorem changing_of_error (h : g m.env = .error e) : changing g m = .error (.error e) m := by
  simp only [changing, h]

theorem changing_eq_ok {u : Unit} (h : changing g m = .ok u m') :
    ∃ env, g m.env = .ok env ∧ m' = { m with env := env } := by
  cases hg : g m.env with
  | ok env =>
    rw [changing_of_ok hg] at h
    cases h
    exact ⟨env, rfl, rfl⟩
  | error e =>
    rw [changing_of_error hg] at h
    cases h

end Memory

section Talk

variable {name answer : String} {answers : List String}

theorem ask_of_nil (h : m.answers = []) :
    ask name m = .error (.error (.noInput name)) (m.record (.asked name)) := by
  simp [ask, Machine.record, h]

theorem ask_of_cons (h : m.answers = answer :: answers) :
    ask name m = .ok answer { m.record (.asked name) with answers := answers } := by
  simp [ask, Machine.record, h]

theorem env_final_ask (name : String) (m : Machine) : ((ask name).final m).env = m.env := by
  cases h : m.answers with
  | nil => rw [final_of_error (ask_of_nil h), Machine.record]
  | cons answer answers => rw [final_of_ok (ask_of_cons h), Machine.record]

end Talk

section Control

variable {stmt : Stmt} {work body : Exec Unit} {frame : Frame} {after : Machine} {stop : Stop}

theorem completing_of_returning (h : m.returning.isSome = true) (stmt : Stmt) (work : Exec Unit) :
    completing stmt work m = .ok () m := by
  simp only [completing, h, if_true]

theorem completing_of_ok (hr : m.returning.isSome = false) (h : work m = .ok () m') :
    completing stmt work m = .ok () (m'.record (.completed stmt m'.env)) := by
  simp [completing, hr, h]

theorem completing_of_error (hr : m.returning.isSome = false) (h : work m = .error stop m') :
    completing stmt work m = .error stop m' := by
  simp [completing, hr, h]

theorem completing_eq (stmt : Stmt) (work : Exec Unit) :
    completing stmt work = (do
      if (← get).returning.isSome then pure ()
      else
        work
        modify fun m => m.record (.completed stmt m.env)) := by
  funext m
  rw [bind_of_ok (show (get : Exec Machine) m = .ok m m from rfl)]
  cases hr : m.returning.isSome with
  | true => exact completing_of_returning hr stmt work
  | false =>
    rw [if_neg (by simp)]
    cases h : work m with
    | ok u m' =>
      rw [completing_of_ok hr h, bind_of_ok h]
      rfl
    | error stop m' => rw [completing_of_error hr h, bind_of_error h]

theorem iterate_succ (n : Nat) (round : Exec Bool) :
    iterate (n + 1) round = (do if (← round) then iterate n round else pure ()) := by
  funext m
  simp only [iterate]
  cases h : round m with
  | ok again m' =>
    rw [bind_of_ok h]
    cases again <;> rfl
  | error stop m' => rw [bind_of_error h]

theorem activation_of_ok (h : body (m.enter frame) = .ok () after) :
    activation frame body m = .ok (after.returning.getD .null) (m.leave after) := by
  simp only [activation, h]

theorem activation_of_error (h : body (m.enter frame) = .error stop after) :
    activation frame body m = .error stop (m.leave after) := by
  simp only [activation, h]

theorem final_activation (frame : Frame) (body : Exec Unit) (m : Machine) :
    (activation frame body).final m = m.leave (body.final (m.enter frame)) := by
  cases h : body (m.enter frame) with
  | ok u after => rw [final_of_ok (activation_of_ok h), final_of_ok h]
  | error stop after => rw [final_of_error (activation_of_error h), final_of_error h]

theorem load_bind (p : Program) (f : PUnit → Exec α) (m : Machine) :
    (modify (Machine.load p) >>= f : Exec α) m = f () (m.load p) := rfl

/-- A call of a function ends at once, or is the call of a declared function. -/
theorem callFunction_cases (call : CallRule) (name : String) (args : List Value) (m : Machine) :
    (∃ v, callFunction call name args m = .ok v m) ∨
    (∃ e, callFunction call name args m = .error (.error e) m) ∨
    (∃ sub, Builtin.named? name = none ∧ m.env.subroutine? name = some sub ∧
      callFunction call name args m = call sub args m) := by
  unfold callFunction
  cases hb : Builtin.named? name with
  | some builtin => exact .inl ⟨_, by simp [Builtin.call?, hb]; rfl⟩
  | none =>
    simp only [Builtin.call?, hb, Option.map_none]
    cases h : m.env.subroutine? name with
    | none => exact .inr (.inl ⟨_, rfl⟩)
    | some sub =>
      cases hf : sub.isFunction with
      | true => exact .inr (.inr ⟨sub, trivial, rfl, by simp [hf]⟩)
      | false => exact .inr (.inl ⟨.procedureInExpression name, by simp [hf]; rfl⟩)

end Control

end Chalkboard.Exec
