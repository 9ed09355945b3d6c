import Chalkboard.Proofs.Isolation
import Chalkboard.Proofs.Lockstep

/-! # The depth of calls

The recursion into subroutines runs on the number of calls that may still be nested. In every state
of a run that number is what the active calls leave of the limit, so that calls, evaluations and
runs satisfy the equations in which each call looks at the active calls itself.
-/

namespace Chalkboard

open Exec

theorem Environment.SameView.eq_of_fixtures {env env₁ env₂ : Environment} (h : SameView env₁ env₂)
    (h₁ : SameFixtures env env₁) (h₂ : SameFixtures env env₂) : env₁ = env₂ := by
  have hglobals : env₁.globals = env₂.globals := h.globals
  have htypes : env₁.types = env₂.types := h₁.types.trans h₂.types.symm
  have hsubs : env₁.subroutines = env₂.subroutines := h₁.subroutines.trans h₂.subroutines.symm
  have hframes : env₁.frames = env₂.frames := by
    have htail : env₁.frames.tail = env₂.frames.tail := h₁.callers.trans h₂.callers.symm
    rcases h.frames_cases with ⟨hf₁, hf₂⟩ | ⟨top, rest₁, rest₂, hf₁, hf₂⟩
    · rw [hf₁, hf₂]
    · rw [hf₁, hf₂] at htail ⊢
      rw [show rest₁ = rest₂ from htail]
  cases env₁
  cases env₂
  cases hglobals
  cases htypes
  cases hsubs
  cases hframes
  rfl

/-- So many calls may still be nested. -/
def Machine.HasRoom (n : Nat) (m : Machine) : Prop := callLimit - m.env.depth = n

namespace Machine.HasRoom

variable {n : Nat} {m m' : Machine}

theorem of_depth (h : m.HasRoom n) (hd : m'.env.depth = m.env.depth) : m'.HasRoom n := by
  rw [HasRoom, hd]
  exact h

theorem enter (h : m.HasRoom (n + 1)) (frame : Frame) : (m.enter frame).HasRoom n := by
  have hroom : callLimit - m.env.depth = n + 1 := h
  show callLimit - (m.env.depth + 1) = n
  omega

theorem invoke_eq (h : m.HasRoom n) (rounds : Nat) (sub : Subroutine) (args : List Value) :
    sub.invoke rounds args m = invokeAt rounds n sub args m := by
  show invokeAt rounds (callLimit - m.env.depth) sub args m = _
  rw [show callLimit - m.env.depth = n from h]

end Machine.HasRoom

/-- Nothing but a call changes the number of active calls. -/
theorem respects_hasRoom (n : Nat) : Respects fun m m' => m.HasRoom n → m'.HasRoom n where
  refl _ h := h
  trans hab hbc h := hbc (hab h)
  change hc h := h.of_depth hc.sameFixtures.depth
  ask name m h := h.of_depth (congrArg Environment.depth (env_final_ask name m))
  print _ _ h := h
  complete _ _ h := h
  giveBack _ _ h := h

theorem parallel_hasRoom (n : Nat) : Parallel fun m₁ m₂ => m₁ = m₂ ∧ m₁.HasRoom n where
  view := by
    rintro m _ ⟨rfl, _⟩
    exact ⟨rfl, rfl, fun _ => rfl, fun _ => rfl⟩
  returning := by
    rintro m _ ⟨rfl, _⟩
    rfl
  change := by
    rintro m _ env₁ env₂ ⟨rfl, hroom⟩ hview h₁ h₂
    obtain rfl := hview.eq_of_fixtures h₁ h₂
    exact ⟨rfl, hroom.of_depth h₁.depth⟩
  ask name := SameFrom.of_moves ((respects_hasRoom n).ask name)
  print line := SameFrom.of_moves ((respects_hasRoom n).print line)
  complete := by
    rintro m _ stmt ⟨rfl, hroom⟩
    exact ⟨rfl, hroom⟩
  giveBack := by
    rintro m _ v ⟨rfl, hroom⟩
    exact ⟨rfl, hroom⟩

/-- Calls that do what the number of calls to come allows, where the active calls leave that number,
are in lockstep with these. A call gives back the room that it took, since it is isolated. -/
theorem inStep_of_hasRoom {rounds n : Nat} {call : CallRule}
    (hcall : ∀ sub args m, m.HasRoom n → call sub args m = invokeAt rounds n sub args m) :
    InStep (fun m₁ m₂ => m₁ = m₂ ∧ m₁.HasRoom n) (invokeAt rounds n) call where
  toParallel := parallel_hasRoom n
  calls sub args := by
    rintro m _ ⟨rfl, hroom⟩
    rw [hcall sub args m hroom]
    have hmoves : Moves (fun m m' => m.HasRoom n → m'.HasRoom n) (invokeAt rounds n sub args) :=
      (isolated_invokeAt rounds n sub args).mono fun h hr =>
        hr.of_depth (congrArg List.length h.frames)
    exact SameFrom.of_moves hmoves m m ⟨rfl, hroom⟩

/-- Where the number of calls to come is what the active calls leave, a call may as well look at the
active calls. -/
theorem inStep_hasRoom (rounds n : Nat) :
    InStep (fun m₁ m₂ => m₁ = m₂ ∧ m₁.HasRoom n) (invokeAt rounds n) (Subroutine.invoke rounds) :=
  inStep_of_hasRoom fun sub args _ hroom => hroom.invoke_eq rounds sub args

/-- A call fails if the limit is reached, and otherwise runs the body in a frame of its own, with
the calls in it carried out in the same way. -/
theorem Subroutine.invoke_eq (rounds : Nat) (sub : Subroutine) (args : List Value) (m : Machine) :
    sub.invoke rounds args m =
      if callLimit ≤ m.env.depth then fail (.tooManyCalls sub.name callLimit) m
      else activation (Environment.ofArguments sub.params args)
        (Stmt.performAll rounds (Subroutine.invoke rounds) sub.body) m := by
  have hroom : m.HasRoom (callLimit - m.env.depth) := rfl
  rw [hroom.invoke_eq]
  cases hn : callLimit - m.env.depth with
  | zero =>
    rw [if_pos (by omega)]
    rfl
  | succ n =>
    rw [hn] at hroom
    have hbody := (inStep_hasRoom rounds n).performAll rounds sub.body
    rw [if_neg (by omega), invokeAt, activation, activation,
      SameFrom.apply_eq hbody (hroom.enter _)]

theorem Expr.evaluate_eq (rounds : Nat) (e : Expr) :
    e.evaluate rounds = e.eval (Subroutine.invoke rounds) := by
  funext m
  exact SameFrom.apply_eq ((inStep_hasRoom rounds _).eval e) rfl

/-- A run executes its statements with all calls carried out as the active calls allow. -/
theorem Program.run_eq (rounds : Nat) (p : Program) :
    p.run rounds = (do
      modify (Machine.load p)
      Stmt.performAll rounds (Subroutine.invoke rounds) p.statements) := by
  funext m
  have hroom : (m.load p).HasRoom callLimit := by
    show callLimit - (Environment.ofProgram p).depth = callLimit
    rw [Environment.depth_ofProgram, Nat.sub_zero]
  rw [Program.run, load_bind, load_bind]
  exact SameFrom.apply_eq ((inStep_hasRoom rounds callLimit).performAll rounds p.statements) hroom

end Chalkboard
