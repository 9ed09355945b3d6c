import Chalkboard.Session
import Chalkboard.Proofs.Moves

/-! # What holds until a statement ends

The statements that came to their end are counted. As long as the count stays the same, nothing may
have been printed and memory has to meet a condition: this is a relation of machines that can be
chained, in which nothing is asked any more once a statement has ended.
-/

namespace Chalkboard

open Exec

namespace Machine

variable {m m' : Machine}

def endings (m : Machine) : Nat := m.trace.length

theorem endings_of_history (h : m'.history = m.history) : m'.endings = m.endings := by
  rw [endings, endings, trace, trace, events, events, h]

theorem endings_record {e : Event} (h : e.completed? = none) :
    (m.record e).endings = m.endings := by
  simp [endings, trace, events, record, completedOf, h]

theorem endings_record_completed (stmt : Stmt) (env : Environment) (m : Machine) :
    (m.record (.completed stmt env)).endings = m.endings + 1 := by
  simp [endings, trace, events, record, completedOf, Event.completed?]

theorem output_of_history (h : m'.history = m.history) : m'.output = m.output := by
  rw [output, output, events, events, h]

theorem output_record {e : Event} (h : e.printed? = none) : (m.record e).output = m.output := by
  simp [output, outputOf, events, record, h]

end Machine

/-- Unless a statement has come to its end, nothing was printed, and memory meets the condition if
it did so before. -/
structure Upholds (E : Environment → Prop) (m m' : Machine) : Prop where
  grows : m.endings ≤ m'.endings
  output : m'.endings = m.endings → m'.output = m.output
  env : m'.endings = m.endings → E m.env → E m'.env

/-- Unless a statement has come to its end, nothing was printed and memory is the same. Nothing is
given back in any case. -/
structure Untouched (m m' : Machine) : Prop where
  returning : m'.returning = m.returning
  upholds : ∀ E, Upholds E m m'

section Relations

variable {E : Environment → Prop} {m m' : Machine}

theorem Upholds.of_lt (h : m.endings < m'.endings) : Upholds E m m' where
  grows := Nat.le_of_lt h
  output hsame := absurd hsame (Nat.ne_of_gt h)
  env hsame := absurd hsame (Nat.ne_of_gt h)

theorem Upholds.of_history (hhistory : m'.history = m.history) (henv : E m.env → E m'.env) :
    Upholds E m m' where
  grows := Nat.le_of_eq (Machine.endings_of_history hhistory).symm
  output _ := Machine.output_of_history hhistory
  env _ := henv

theorem Upholds.of_record {e : Event} (hcompleted : e.completed? = none)
    (hprinted : e.printed? = none)
    (hhistory : m'.history = e :: m.history) (henv : E m.env → E m'.env) : Upholds E m m' where
  grows := by
    have hendings :=
      Machine.endings_of_history (show m'.history = (m.record e).history from hhistory)
    exact Nat.le_of_eq (hendings.trans (Machine.endings_record hcompleted)).symm
  output _ := by
    have houtput := Machine.output_of_history (show m'.history = (m.record e).history from hhistory)
    exact houtput.trans (Machine.output_record hprinted)
  env _ := henv

theorem chains_upholds (E : Environment → Prop) : Chains (Upholds E) where
  refl _ := .of_history rfl id
  trans {a b c} hab hbc := by
    have hgrows := Nat.le_trans hab.grows hbc.grows
    -- if nothing ended on the whole way, then on neither part of it
    have hsame : c.endings = a.endings → b.endings = a.endings ∧ c.endings = b.endings := by
      have := hab.grows
      have := hbc.grows
      omega
    constructor
    · exact hgrows
    · intro h
      exact (hbc.output (hsame h).2).trans (hab.output (hsame h).1)
    · intro h ha
      exact hbc.env (hsame h).2 (hab.env (hsame h).1 ha)

theorem chains_untouched : Chains Untouched where
  refl m := ⟨rfl, fun E => (chains_upholds E).refl m⟩
  trans hab hbc := ⟨hbc.returning.trans hab.returning,
    fun E => (chains_upholds E).trans (hab.upholds E) (hbc.upholds E)⟩

theorem untouched_ask (name : String) : Moves Untouched (ask name) := by
  intro m
  cases h : m.answers with
  | nil =>
    rw [final_of_error (ask_of_nil h)]
    exact ⟨rfl, fun E => .of_record rfl rfl rfl id⟩
  | cons answer answers =>
    rw [final_of_ok (ask_of_cons h)]
    exact ⟨rfl, fun E => .of_record rfl rfl rfl id⟩

/-- Statements that have come to their end stay so. -/
def Grows (m m' : Machine) : Prop := m.endings ≤ m'.endings

theorem respects_grows : Respects Grows where
  refl _ := Nat.le_refl _
  trans := Nat.le_trans
  change _ := Nat.le_of_eq (Machine.endings_of_history rfl).symm
  ask name m := ((untouched_ask name m).upholds fun _ => True).grows
  print _ _ := Nat.le_of_eq (Machine.endings_record rfl).symm
  complete stmt m := by
    rw [Grows, Machine.endings_record_completed]
    exact Nat.le_succ _
  giveBack _ _ := Nat.le_of_eq (Machine.endings_of_history rfl).symm

theorem grows_changing (f : Environment → Except RuntimeError Environment) :
    Moves Grows (changing f) := by
  intro m
  cases h : f m.env with
  | ok env =>
    rw [final_of_ok (changing_of_ok h)]
    exact Nat.le_of_eq (Machine.endings_of_history rfl).symm
  | error e =>
    rw [final_of_error (changing_of_error h)]
    exact Nat.le_refl _

end Relations

namespace Exec

variable {α β : Type} {R : Machine → Machine → Prop} {E : Environment → Prop}

/-- Whenever the action fails, it has led to a machine in the given relation. -/
def Fails (R : Machine → Machine → Prop) (x : Exec α) : Prop :=
  ∀ m stop m', x m = .error stop m' → R m m'

theorem Moves.fails {x : Exec α} (h : Moves R x) : Fails R x := by
  intro m stop m' hx
  have hm := h m
  rwa [final_of_error hx] at hm

theorem Fails.bind (hR : Chains R) {x : Exec α} {f : α → Exec β} (hx : Moves R x)
    (hf : ∀ a, Fails R (f a)) : Fails R (x >>= f) := by
  intro m stop m' h
  have hm := hx m
  cases hxm : x m with
  | ok a m₁ =>
    rw [final_of_ok hxm] at hm
    rw [bind_of_ok hxm] at h
    exact hR.trans hm (hf a m₁ stop m' h)
  | error stop₁ m₁ =>
    rw [final_of_error hxm] at hm
    rw [bind_of_error hxm] at h
    cases h
    exact hm

theorem Fails.changing (hR : Chains R) (f : Environment → Except RuntimeError Environment) :
    Fails R (changing f) := by
  intro m stop m' h
  cases hf : f m.env with
  | ok env =>
    rw [changing_of_ok hf] at h
    cases h
  | error e =>
    rw [changing_of_error hf] at h
    cases h
    exact hR.refl m

theorem upholds_bind {x : Exec α} {f : α → Exec β} {m : Machine} (hx : Upholds E m (x.final m))
    (hf : ∀ a m₁, x m = .ok a m₁ → Upholds E m₁ ((f a).final m₁)) :
    Upholds E m ((x >>= f).final m) := by
  cases h : x m with
  | ok a m₁ =>
    rw [final_of_ok h] at hx
    rw [final_bind_of_ok h]
    exact (chains_upholds E).trans hx (hf a m₁ h)
  | error stop m₁ => rwa [final_bind_of_error h, ← final_of_error h]

/-- A round that upholds the condition, and that has ended a statement if the loop goes on after
it. -/
structure LastRound (E : Environment → Prop) (round : Exec Bool) (m : Machine) : Prop where
  upholds : Upholds E m (round.final m)
  again : ∀ m', round m = .ok true m' → m.endings < m'.endings

theorem LastRound.stop (E : Environment → Prop) (m : Machine) : LastRound E (pure false) m where
  upholds := (chains_upholds E).refl m
  again _ h := nomatch h

theorem LastRound.bind {x : Exec α} {f : α → Exec Bool} {m : Machine} (hx : Moves Untouched x)
    (hf : ∀ a m', x m = .ok a m' → LastRound E (f a) m') : LastRound E (x >>= f) m where
  upholds := upholds_bind ((hx m).upholds E) fun a m' h => (hf a m' h).upholds
  again m₂ h := by
    obtain ⟨a, m₁, ha, hafter⟩ := bind_eq_ok h
    have hm₁ := (hx m).upholds E
    rw [final_of_ok ha] at hm₁
    exact Nat.lt_of_le_of_lt hm₁.grows ((hf a m₁ ha).again m₂ hafter)

/-- After a round that is the last one unless a statement has ended, nothing matters any more. -/
theorem upholds_iterate {round : Exec Bool} {m : Machine} (hgrows : Moves Grows round)
    (hround : LastRound E round m) (n : Nat) : Upholds E m ((iterate n round).final m) := by
  cases n with
  | zero => exact (chains_upholds E).refl m
  | succ n =>
    have hm := hround.upholds
    rw [iterate_succ]
    cases h : round m with
    | error stop m₁ => rwa [final_bind_of_error h, ← final_of_error h]
    | ok again m₁ =>
      rw [final_of_ok h] at hm
      rw [final_bind_of_ok h]
      cases again with
      | false => exact hm
      | true =>
        have hrest : m₁.endings ≤ ((iterate n round).final m₁).endings :=
          respects_grows.iterate hgrows n m₁
        exact .of_lt (Nat.lt_of_lt_of_le (hround.again m₁ h) hrest)

end Exec

end Chalkboard
