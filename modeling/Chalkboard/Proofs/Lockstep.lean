import Chalkboard.Proofs.Congruence
import Chalkboard.Proofs.Moves

/-! # Machines in lockstep

Two machines run in lockstep if from related states they give the same results in related states. A
relation under which both machines see the same memory is kept by every evaluation and every
statement of a program; what the machines do not see, such as the frames of the callers, may differ.
-/

namespace Chalkboard

namespace Exec

variable {α β : Type} {R : Machine → Machine → Prop}

/-- Two results that are the same but for the machines, which are related. -/
inductive Matches (R : Machine → Machine → Prop) :
    EStateM.Result Stop Machine α → EStateM.Result Stop Machine α → Prop where
  | ok (a : α) {m₁ m₂ : Machine} : R m₁ m₂ → Matches R (.ok a m₁) (.ok a m₂)
  | error (stop : Stop) {m₁ m₂ : Machine} : R m₁ m₂ → Matches R (.error stop m₁) (.error stop m₂)

theorem Matches.cases {r₁ r₂ : EStateM.Result Stop Machine α} (h : Matches R r₁ r₂) :
    (∃ a m₁ m₂, r₁ = .ok a m₁ ∧ r₂ = .ok a m₂ ∧ R m₁ m₂) ∨
    (∃ stop m₁ m₂, r₁ = .error stop m₁ ∧ r₂ = .error stop m₂ ∧ R m₁ m₂) := by
  cases h with
  | ok a h => exact .inl ⟨a, _, _, rfl, rfl, h⟩
  | error stop h => exact .inr ⟨stop, _, _, rfl, rfl, h⟩

theorem Matches.ends {x y : Exec α} {m₁ m₂ : Machine} (h : Matches R (x m₁) (y m₂)) :
    x.outcome m₁ = y.outcome m₂ ∧ R (x.final m₁) (y.final m₂) := by
  rcases h.cases with ⟨a, n₁, n₂, h₁, h₂, hn⟩ | ⟨stop, n₁, n₂, h₁, h₂, hn⟩
  · rw [outcome_of_ok h₁, outcome_of_ok h₂, final_of_ok h₁, final_of_ok h₂]
    exact ⟨rfl, hn⟩
  · rw [outcome_of_error h₁, outcome_of_error h₂, final_of_error h₁, final_of_error h₂]
    exact ⟨rfl, hn⟩

/-- From related machines, two actions lead to matching results. -/
def Lockstep (R : Machine → Machine → Prop) (x y : Exec α) : Prop :=
  ∀ m₁ m₂, R m₁ m₂ → Matches R (x m₁) (y m₂)

namespace Lockstep

theorem pure (a : α) : Lockstep R (pure a) (pure a) := fun _ _ h => .ok a h

theorem fail (e : RuntimeError) : Lockstep R (fail e : Exec α) (fail e) := fun _ _ h => .error _ h

theorem lift (r : Except RuntimeError α) : Lockstep R (lift r) (lift r) := by
  cases r with
  | ok a => exact pure a
  | error e => exact fail e

theorem reading {f : Environment → Except RuntimeError α}
    (hf : ∀ {m₁ m₂}, R m₁ m₂ → f m₁.env = f m₂.env) : Lockstep R (reading f) (reading f) := by
  intro m₁ m₂ h
  rw [Exec.reading, Exec.reading, hf h]
  exact lift _ _ _ h

theorem bind {x y : Exec α} {f g : α → Exec β} (hx : Lockstep R x y)
    (hf : ∀ a, Lockstep R (f a) (g a)) : Lockstep R (x >>= f) (y >>= g) := by
  intro m₁ m₂ h
  rcases (hx _ _ h).cases with ⟨a, n₁, n₂, h₁, h₂, hn⟩ | ⟨stop, n₁, n₂, h₁, h₂, hn⟩
  · rw [bind_of_ok h₁, bind_of_ok h₂]
    exact hf a _ _ hn
  · rw [bind_of_error h₁, bind_of_error h₂]
    exact .error stop hn

theorem ite {c : Prop} [Decidable c] {x y x' y' : Exec α} (hx : Lockstep R x x')
    (hy : Lockstep R y y') : Lockstep R (if c then x else y) (if c then x' else y') := by
  split
  · exact hx
  · exact hy

theorem ifReturning (hR : ∀ {m₁ m₂}, R m₁ m₂ → m₁.returning = m₂.returning) {x y x' y' : Exec α}
    (hx : Lockstep R x x') (hy : Lockstep R y y') :
    Lockstep R (do if (← get).returning.isSome then x else y)
      (do if (← get).returning.isSome then x' else y') := by
  intro m₁ m₂ h
  show Matches R ((if m₁.returning.isSome then x else y) m₁)
    ((if m₂.returning.isSome then x' else y') m₂)
  rw [hR h]
  exact ite hx hy _ _ h

theorem iterate {x y : Exec Bool} (hx : Lockstep R x y) : ∀ n,
    Lockstep R (iterate n x) (iterate n y) := by
  intro n
  induction n with
  | zero => exact fun _ _ h => .error _ h
  | succ n ih =>
    intro m₁ m₂ h
    simp only [Exec.iterate]
    rcases (hx _ _ h).cases with ⟨again, n₁, n₂, h₁, h₂, hn⟩ | ⟨stop, n₁, n₂, h₁, h₂, hn⟩
    · rw [h₁, h₂]
      cases again with
      | true => exact ih _ _ hn
      | false => exact .ok () hn
    · rw [h₁, h₂]
      exact .error stop hn

end Lockstep

/-- Two actions do the same from every machine that meets the condition, and keep it. -/
abbrev SameFrom {α : Type} (I : Machine → Prop) (x y : Exec α) : Prop :=
  Lockstep (fun m₁ m₂ => m₁ = m₂ ∧ I m₁) x y

namespace SameFrom

variable {α : Type} {I : Machine → Prop}

theorem apply_eq {x y : Exec α} (h : SameFrom I x y) {m : Machine} (hm : I m) : x m = y m := by
  rcases (h m m ⟨rfl, hm⟩).cases with ⟨a, m₁, m₂, h₁, h₂, rfl, _⟩ | ⟨stop, m₁, m₂, h₁, h₂, rfl, _⟩
  · rw [h₁, h₂]
  · rw [h₁, h₂]

theorem of_moves {x : Exec α} (hx : Moves (fun m m' => I m → I m') x) : SameFrom I x x := by
  rintro m _ ⟨rfl, hm⟩
  have hf := hx m hm
  cases h : x m with
  | ok a m' =>
    rw [final_of_ok h] at hf
    exact .ok a ⟨rfl, hf⟩
  | error stop m' =>
    rw [final_of_error h] at hf
    exact .error stop ⟨rfl, hf⟩

end SameFrom

end Exec

open Exec

/-- A relation of machines that see the same and stay related when the same is done to both. -/
structure Parallel (R : Machine → Machine → Prop) : Prop where
  view : ∀ {m₁ m₂}, R m₁ m₂ → m₁.env.SameView m₂.env
  returning : ∀ {m₁ m₂}, R m₁ m₂ → m₁.returning = m₂.returning
  change : ∀ {m₁ m₂ env₁ env₂}, R m₁ m₂ → env₁.SameView env₂ →
    m₁.env.SameFixtures env₁ → m₂.env.SameFixtures env₂ →
    R { m₁ with env := env₁ } { m₂ with env := env₂ }
  ask : ∀ name, Lockstep R (ask name) (ask name)
  print : ∀ line, Lockstep R (print line) (print line)
  complete : ∀ {m₁ m₂} stmt, R m₁ m₂ →
    R (m₁.record (.completed stmt m₁.env)) (m₂.record (.completed stmt m₂.env))
  giveBack : ∀ {m₁ m₂} v, R m₁ m₂ → R { m₁ with returning := some v }
    { m₂ with returning := some v }

namespace Parallel

variable {R : Machine → Machine → Prop} (hR : Parallel R)

include hR

theorem changing {f : Environment → Except RuntimeError Environment} (hf : Environment.Writes f) :
    Lockstep R (changing f) (changing f) := by
  intro m₁ m₂ h
  rcases (hf.view (hR.view h)).cases with ⟨env₁, env₂, h₁, h₂, hv⟩ | ⟨e, h₁, h₂⟩
  · rw [changing_of_ok h₁, changing_of_ok h₂]
    exact .ok () (hR.change h hv (hf.fixtures h₁) (hf.fixtures h₂))
  · rw [changing_of_error h₁, changing_of_error h₂]
    exact .error _ h

theorem completing {work₁ work₂ : Exec Unit} (hwork : Lockstep R work₁ work₂) (stmt : Stmt) :
    Lockstep R (completing stmt work₁) (completing stmt work₂) := by
  intro m₁ m₂ h
  cases hr : m₁.returning.isSome with
  | true =>
    rw [completing_of_returning hr, completing_of_returning (hR.returning h ▸ hr)]
    exact .ok () h
  | false =>
    have hr₂ : m₂.returning.isSome = false := hR.returning h ▸ hr
    rcases (hwork _ _ h).cases with ⟨_, n₁, n₂, h₁, h₂, hn⟩ | ⟨stop, n₁, n₂, h₁, h₂, hn⟩
    · rw [completing_of_ok hr h₁, completing_of_ok hr₂ h₂]
      exact .ok () (hR.complete stmt hn)
    · rw [completing_of_error hr h₁, completing_of_error hr₂ h₂]
      exact .error stop hn

end Parallel

theorem Parallel.congruence {R : Machine → Machine → Prop} (hR : Parallel R) (rounds : Nat) :
    Congruence (fun x y => Lockstep R x y) rounds rounds where
  pure := .pure
  fail _ := .fail _
  bind := .bind
  reading hf := .reading fun h => hf.view (hR.view h)
  changing := hR.changing
  calling name _ _ hf m₁ m₂ h := by
    dsimp only
    rw [(hR.view h).subroutines name]
    exact hf _ _ _ h
  ifReturning := .ifReturning hR.returning
  iterate hx := hx.iterate rounds
  completing := hR.completing
  ask := hR.ask
  print := hR.print
  giveBack v _ _ h := .ok () (hR.giveBack v h)

/-- Calls are in lockstep as well. -/
structure InStep (R : Machine → Machine → Prop) (call₁ call₂ : CallRule) : Prop
    extends Parallel R where
  calls : ∀ sub args, Lockstep R (call₁ sub args) (call₂ sub args)

namespace InStep

variable {R : Machine → Machine → Prop} {call₁ call₂ : CallRule} (hR : InStep R call₁ call₂)

include hR

theorem callCongruence (rounds : Nat) :
    CallCongruence (fun x y => Lockstep R x y) rounds rounds call₁ call₂ :=
  { hR.congruence rounds with calls := hR.calls }

theorem eval (e : Expr) : Lockstep R (e.eval call₁) (e.eval call₂) :=
  (hR.callCongruence 0).eval e

theorem performAll (rounds : Nat) (stmts : List Stmt) :
    Lockstep R (Stmt.performAll rounds call₁ stmts) (Stmt.performAll rounds call₂ stmts) :=
  (hR.callCongruence rounds).performAll stmts

end InStep

end Chalkboard
