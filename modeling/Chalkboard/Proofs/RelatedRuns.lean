import Chalkboard.Proofs.Isolation
import Chalkboard.Proofs.Lockstep

/-! # Related runs

A relation between actions that is kept by the building blocks of programs, and by a body that is
run in a frame of its own, holds of calls at every depth of nesting and of whole runs. Machines in
lockstep are the main case: it is enough that they stay related when both enter or leave a
subroutine.
-/

namespace Chalkboard

open Exec

theorem confined_performAll (rounds n : Nat) (stmts : List Stmt) :
    Moves Confined (Stmt.performAll rounds (invokeAt rounds n) stmts) := by
  have hbody := respects_confined.carried
    (fun sub args => (isolated_invokeAt rounds n sub args).mono Isolated.confined)
    fun sub args => (isolated_invokeAt rounds n sub args).mono Isolated.keepsVariables
  exact (hbody.performAll rounds stmts).mono And.left

/-- The relation is kept by subroutines as well. Their bodies leave the frames of the callers
alone. -/
structure RunCongruence (J : ∀ {α : Type}, Exec α → Exec α → Prop) (rounds₁ rounds₂ : Nat) : Prop
    extends Congruence J rounds₁ rounds₂ where
  activation : ∀ (frame : Frame) {body₁ body₂ : Exec Unit}, Moves Confined body₁ →
    Moves Confined body₂ → J body₁ body₂ → J (activation frame body₁) (activation frame body₂)

namespace RunCongruence

variable {J : ∀ {α : Type}, Exec α → Exec α → Prop} {rounds₁ rounds₂ : Nat}
  (hJ : RunCongruence J rounds₁ rounds₂)

include hJ

/-- By induction on the number of calls that may still be nested. -/
theorem invokeAt : ∀ n sub args,
    J (invokeAt rounds₁ n sub args) (invokeAt rounds₂ n sub args) := by
  intro n
  induction n with
  | zero => exact fun _ _ => hJ.fail (by simp)
  | succ n ih =>
    intro sub args
    have hcalls : CallCongruence J rounds₁ rounds₂ (Chalkboard.invokeAt rounds₁ n)
        (Chalkboard.invokeAt rounds₂ n) := { hJ.toCongruence with calls := ih }
    exact hJ.activation _ (confined_performAll rounds₁ n sub.body)
      (confined_performAll rounds₂ n sub.body) (hcalls.performAll sub.body)

theorem performAll (n : Nat) (stmts : List Stmt) :
    J (Stmt.performAll rounds₁ (Chalkboard.invokeAt rounds₁ n) stmts)
      (Stmt.performAll rounds₂ (Chalkboard.invokeAt rounds₂ n) stmts) :=
  CallCongruence.performAll { hJ.toCongruence with calls := hJ.invokeAt n } stmts

end RunCongruence

/-- The machines stay related when both enter a subroutine and when both leave it again. -/
structure Nested (R : Machine → Machine → Prop) : Prop extends Parallel R where
  enter : ∀ {m₁ m₂}, R m₁ m₂ → ∀ frame, R (m₁.enter frame) (m₂.enter frame)
  leave : ∀ {m₁ m₂ after₁ after₂}, R m₁ m₂ → R after₁ after₂ →
    (m₁.leave after₁).env.frames = m₁.env.frames → (m₂.leave after₂).env.frames = m₂.env.frames →
    R (m₁.leave after₁) (m₂.leave after₂)

theorem Nested.activation {R : Machine → Machine → Prop} (hR : Nested R) (frame : Frame)
    {body₁ body₂ : Exec Unit} (hc₁ : Moves Confined body₁) (hc₂ : Moves Confined body₂)
    (hbody : Lockstep R body₁ body₂) :
    Lockstep R (activation frame body₁) (activation frame body₂) := by
  intro m₁ m₂ h
  have hf₁ := (isolated_leave (hc₁ (m₁.enter frame))).frames
  have hf₂ := (isolated_leave (hc₂ (m₂.enter frame))).frames
  rcases (hbody _ _ (hR.enter h frame)).cases with
    ⟨_, a₁, a₂, h₁, h₂, ha⟩ | ⟨stop, a₁, a₂, h₁, h₂, ha⟩
  · rw [final_of_ok h₁] at hf₁
    rw [final_of_ok h₂] at hf₂
    rw [activation_of_ok h₁, activation_of_ok h₂, hR.returning ha]
    exact .ok _ (hR.leave h ha hf₁ hf₂)
  · rw [final_of_error h₁] at hf₁
    rw [final_of_error h₂] at hf₂
    rw [activation_of_error h₁, activation_of_error h₂]
    exact .error stop (hR.leave h ha hf₁ hf₂)

theorem Nested.runCongruence {R : Machine → Machine → Prop} (hR : Nested R) (rounds : Nat) :
    RunCongruence (fun x y => Lockstep R x y) rounds rounds :=
  { hR.congruence rounds with activation := hR.activation }

theorem filterMap_eq_of_map_eq {α : Type} {without : Event → Event} {f : Event → Option α}
    (hf : ∀ e, f (without e) = f e) {es₁ es₂ : List Event} (h : es₁.map without = es₂.map without) :
    es₁.filterMap f = es₂.filterMap f := by
  have hmap : ∀ es : List Event, es.filterMap f = (es.map without).filterMap f := by
    intro es
    rw [List.filterMap_map]
    exact congrArg (es.filterMap ·) (funext fun e => (hf e).symm)
  rw [hmap es₁, h, ← hmap es₂]

theorem Nested.run {R : Machine → Machine → Prop} (hR : Nested R) {p q : Program}
    (hstmts : p.statements = q.statements) {m₁ m₂ : Machine} (h : R (m₁.load p) (m₂.load q))
    (rounds : Nat) : Matches R (p.run rounds m₁) (q.run rounds m₂) := by
  rw [Program.run, Program.run, load_bind, load_bind, hstmts]
  exact (hR.runCongruence rounds).performAll callLimit q.statements _ _ h

end Chalkboard
