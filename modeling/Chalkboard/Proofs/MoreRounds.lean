import Chalkboard.Proofs.RelatedRuns

/-! # More rounds

Loops are bounded by a number of rounds, and an action that reaches the bound is unfinished. With
more rounds it may go on, but what comes to its end, or to an error, does so in the same way with
any larger number. So the result of an action that ends does not depend on the bound, and whether it
ends at all can be asked without one: there is a number of rounds that suffices, or there is none.
-/

namespace Chalkboard

namespace Exec

variable {α β : Type}

/-- The first action does what the second one does, unless it is cut short by the bound on its
rounds. -/
def CutShort (x y : Exec α) : Prop :=
  ∀ m, (∃ m', x m = .error .unfinished m') ∨ x m = y m

namespace CutShort

theorem refl (x : Exec α) : CutShort x x := fun _ => .inr rfl

theorem bind {x y : Exec α} {f g : α → Exec β} (hx : CutShort x y)
    (hf : ∀ a, CutShort (f a) (g a)) : CutShort (x >>= f) (y >>= g) := by
  intro m
  rcases hx m with ⟨m', h⟩ | heq
  · exact .inl ⟨m', bind_of_error h⟩
  · cases h : x m with
    | ok a m' =>
      rw [bind_of_ok h, bind_of_ok (heq ▸ h)]
      exact hf a m'
    | error stop m' =>
      rw [bind_of_error h, bind_of_error (heq ▸ h)]
      exact .inr rfl

theorem ifReturning {x x' y y' : Exec α} (hx : CutShort x y) (hx' : CutShort x' y') :
    CutShort (do if (← get).returning.isSome then x else x')
      (do if (← get).returning.isSome then y else y') := by
  intro m
  show (∃ m', (if m.returning.isSome then x else x') m = .error .unfinished m') ∨
    (if m.returning.isSome then x else x') m = (if m.returning.isSome then y else y') m
  split
  · exact hx m
  · exact hx' m

theorem iterate {x y : Exec Bool} (hx : CutShort x y) : ∀ {n₁ n₂ : Nat}, n₁ ≤ n₂ →
    CutShort (iterate n₁ x) (iterate n₂ y) := by
  intro n₁
  induction n₁ with
  | zero => exact fun _ m => .inl ⟨m, rfl⟩
  | succ n₁ ih =>
    rintro (_ | n₂) hle
    · omega
    rw [iterate_succ, iterate_succ]
    refine hx.bind fun again => ?_
    cases again with
    | true => exact ih (Nat.le_of_succ_le_succ hle)
    | false => exact .refl _

theorem completing {x y : Exec Unit} (hx : CutShort x y) (stmt : Stmt) :
    CutShort (completing stmt x) (completing stmt y) := by
  rw [completing_eq, completing_eq]
  exact .ifReturning (.refl _) (hx.bind fun _ => .refl _)

theorem activation {body₁ body₂ : Exec Unit} (hbody : CutShort body₁ body₂) (frame : Frame) :
    CutShort (activation frame body₁) (activation frame body₂) := by
  intro m
  rcases hbody (m.enter frame) with ⟨after, h⟩ | h
  · exact .inl ⟨m.leave after, activation_of_error h⟩
  · exact .inr (by rw [Exec.activation, Exec.activation, h])

theorem runCongruence {rounds₁ rounds₂ : Nat} (h : rounds₁ ≤ rounds₂) :
    RunCongruence (fun x y => CutShort x y) rounds₁ rounds₂ where
  pure _ := .refl _
  fail _ := .refl _
  bind := .bind
  reading _ := .refl _
  changing _ := .refl _
  calling name _ _ hf m := hf (m.env.subroutine? name) m
  ifReturning := .ifReturning
  iterate hx := hx.iterate h
  completing := .completing
  ask _ := .refl _
  print _ := .refl _
  giveBack _ := .refl _
  activation frame _ _ _ _ hbody := hbody.activation frame

end CutShort

section Ending

variable {m m' : Machine}

/-- The action is not cut short by the bound on its rounds: it comes to its end or to an error. -/
def Settled (x : Exec α) (m : Machine) : Prop := ∀ m', x m ≠ .error .unfinished m'

/-- With enough rounds, the action comes to its end or to an error. -/
def Settles (x : Nat → Exec α) (m : Machine) : Prop := ∃ rounds, (x rounds).Settled m

/-- With enough rounds, the action comes to its end with this result. -/
def Gives (x : Nat → Exec α) (m : Machine) (a : α) (m' : Machine) : Prop :=
  ∃ rounds, x rounds m = .ok a m'

/-- More rounds change nothing, but that the action may go on. -/
def Stable (x : Nat → Exec α) : Prop :=
  ∀ rounds₁ rounds₂, rounds₁ ≤ rounds₂ → CutShort (x rounds₁) (x rounds₂)

theorem settled_of_ok {x : Exec α} {a : α} (h : x m = .ok a m') : x.Settled m := by
  intro m'' hcut
  cases h.symm.trans hcut

theorem Settled.bind {x : Exec α} {f : α → Exec β} (hx : x.Settled m)
    (hf : ∀ a m', x m = .ok a m' → (f a).Settled m') : (x >>= f).Settled m := by
  intro m' hcut
  cases h : x m with
  | ok a m'' => exact hf a m'' h m' ((bind_of_ok h).symm.trans hcut)
  | error stop m'' =>
    cases (bind_of_error h).symm.trans hcut
    exact hx m' h

theorem CutShort.eq_of_settled {x y : Exec α} (h : CutShort x y) (hx : x.Settled m) :
    y m = x m := by
  rcases h m with ⟨m', hcut⟩ | heq
  · exact absurd hcut (hx m')
  · exact heq.symm

theorem CutShort.settled {x y : Exec α} (h : CutShort x y) (hx : x.Settled m) : y.Settled m := by
  intro m' hcut
  exact hx m' ((h.eq_of_settled hx).symm.trans hcut)

theorem Settles.bind {x : Nat → Exec α} {f : α → Nat → Exec β} (hx : Stable x)
    (hf : ∀ a, Stable (f a)) (h : Settles x m) (hnext : ∀ a m', Gives x m a m' → Settles (f a) m') :
    Settles (fun rounds => x rounds >>= fun a => f a rounds) m := by
  obtain ⟨rounds₁, hsettled⟩ := h
  cases hfirst : x rounds₁ m with
  | error stop m' =>
    refine ⟨rounds₁, hsettled.bind fun a m'' hok => ?_⟩
    cases hok.symm.trans hfirst
  | ok a m' =>
    obtain ⟨rounds₂, hrest⟩ := hnext a m' ⟨rounds₁, hfirst⟩
    -- What suffices for one of the two actions need not suffice for the other.
    have hcut := hx rounds₁ (max rounds₁ rounds₂) (Nat.le_max_left ..)
    refine ⟨max rounds₁ rounds₂, (hcut.settled hsettled).bind fun a' m'' hok => ?_⟩
    cases hok.symm.trans ((hcut.eq_of_settled hsettled).trans hfirst)
    exact (hf a rounds₂ _ (Nat.le_max_right ..)).settled hrest

/-- A loop ends if its first round ends, and if the loop ends after that round in case it goes
on. -/
theorem Settles.iterate {round : Nat → Exec Bool} (hround : Stable round) (h : Settles round m)
    (hnext : ∀ m', Gives round m true m' →
      Settles (fun rounds => iterate rounds (round rounds)) m') :
    Settles (fun rounds => Exec.iterate rounds (round rounds)) m := by
  let rest (again : Bool) (rounds : Nat) : Exec Unit :=
    if again then Exec.iterate rounds (round rounds) else pure ()
  have hrest : ∀ again, Stable (rest again) := by
    rintro (_ | _) rounds₁ rounds₂ hle
    · exact .refl _
    · exact (hround rounds₁ rounds₂ hle).iterate hle
  have hends : ∀ again m', Gives round m again m' → Settles (rest again) m' := by
    rintro (_ | _) m' hgives
    · exact ⟨0, settled_of_ok rfl⟩
    · exact hnext m' hgives
  obtain ⟨rounds, hsettled⟩ := h.bind hround hrest hends
  refine ⟨rounds + 1,
    ((hround rounds (rounds + 1) (Nat.le_succ rounds)).iterate (Nat.le_refl _)).settled ?_⟩
  rw [iterate_succ]
  exact hsettled

end Ending

end Exec

open Exec

section Programs

variable {rounds₁ rounds₂ : Nat} (h : rounds₁ ≤ rounds₂)

include h

theorem cutShort_callCongruence (n : Nat) :
    CallCongruence (fun x y => CutShort x y) rounds₁ rounds₂ (invokeAt rounds₁ n)
    (invokeAt rounds₂ n) :=
  { (CutShort.runCongruence h).toCongruence with calls := (CutShort.runCongruence h).invokeAt n }

theorem cutShort_run (p : Program) : CutShort (p.run rounds₁) (p.run rounds₂) := by
  rw [Program.run, Program.run]
  exact .bind (.refl _) fun _ => (cutShort_callCongruence h callLimit).performAll p.statements

end Programs

end Chalkboard
