import Chalkboard.Session
import Chalkboard.Proofs.CallDepth
import Chalkboard.Proofs.RelatedRuns

/-! # Runs begin afresh

A run takes up nothing of what the machine did before but the answers that are left: it goes as on a
new machine, whatever runs and evaluations came before it and however they ended. It leaves all
subroutines that it has entered, so that afterwards names mean what global memory says.
-/

namespace Chalkboard

open Exec

/-- The machine with an older past: so many more events, before all others. -/
def Machine.withPast (past : List Event) (m : Machine) : Machine :=
  { m with history := m.history ++ past }

/-- What has happened does not show in what is done. -/
theorem nested_withPast (past : List Event) : Nested fun m₁ m₂ => m₁ = m₂.withPast past where
  view := by
    rintro _ m rfl
    exact ⟨rfl, rfl, fun _ => rfl, fun _ => rfl⟩
  returning := by
    rintro _ m rfl
    rfl
  change := by
    rintro _ m env₁ env₂ rfl hview h₁ h₂
    obtain rfl := hview.eq_of_fixtures h₁ h₂
    rfl
  ask name := by
    rintro _ m rfl
    cases ha : m.answers with
    | nil =>
      rw [ask_of_nil ha, ask_of_nil (m := m.withPast past) ha]
      exact .error _ rfl
    | cons answer answers =>
      rw [ask_of_cons ha, ask_of_cons (m := m.withPast past) ha]
      exact .ok answer rfl
  print _ := by
    rintro _ m rfl
    exact .ok () rfl
  complete := by
    rintro _ m stmt rfl
    rfl
  giveBack := by
    rintro _ m v rfl
    rfl
  enter := by
    rintro _ m rfl frame
    rfl
  leave := by
    rintro _ m _ after rfl rfl _ _
    rfl

theorem load_eq_withPast (p : Program) (m : Machine) :
    m.load p = ((Machine.start m.answers).load p).withPast m.history := rfl

theorem Environment.lookup?_of_no_frames {env : Environment} (h : env.frames = []) (name : String) :
    env.lookup? name = env.globals.get? (key name) := by
  simp [lookup?, h]

/-- A run ends outside of all calls, also if it failed inside of one. -/
theorem frames_final_run (rounds : Nat) (p : Program) (m : Machine) :
    ((p.run rounds).final m).env.frames = [] := by
  have hload : (m.load p).env.depth = 0 := Environment.depth_ofProgram p
  have hdepth := (confined_performAll rounds callLimit p.statements (m.load p)).fixtures.depth
  rw [hload] at hdepth
  exact List.length_eq_zero_iff.mp hdepth

def Machine.evaluateAll (rounds : Nat) (m : Machine) (es : List Expr) : Machine :=
  es.foldl (fun m e => (e.evaluate rounds).final m) m

theorem frames_evaluateAll (rounds : Nat) (es : List Expr) (m : Machine) :
    (m.evaluateAll rounds es).env.frames = m.env.frames := by
  induction es generalizing m with
  | nil => rfl
  | cons e es ih =>
    have he : ((e.evaluate rounds).final m).env.frames = m.env.frames :=
      (isolated_eval rounds _ e m).frames
    exact (ih _).trans he

/-- A run goes as on a new machine with the answers that are left, whatever the state of the
machine: it ends in the same way, with the same events, memory and answers; and it leaves no frame
behind, so that evaluations after it find names in global memory only. -/
theorem run_ignores_history (rounds : Nat) (p : Program) (m : Machine) :
    let fresh := Machine.start m.answers
    let after := (p.run rounds).final m
    let afterFresh := (p.run rounds).final fresh
    (p.run rounds).outcome m = (p.run rounds).outcome fresh ∧
    after.history = afterFresh.history ++ m.history ∧
    Machine.outputOf (m.eventsSince after) = afterFresh.output ∧
    Machine.promptsOf (m.eventsSince after) = afterFresh.prompts ∧
    Machine.completedOf (m.eventsSince after) = Machine.completedOf afterFresh.events ∧
    after.env = afterFresh.env ∧ after.memory = afterFresh.memory ∧
    after.answers = afterFresh.answers ∧
    ∀ es : List Expr,
      let now := after.evaluateAll rounds es
      now.env.frames = [] ∧ ∀ name, now.env.lookup? name = now.memory.get? (key name) := by
  intro fresh after afterFresh
  obtain ⟨houtcome, hafter⟩ :=
    ((nested_withPast m.history).run rfl (load_eq_withPast p m) rounds).ends
  change after = afterFresh.withPast m.history at hafter
  have hevents : m.eventsSince after = afterFresh.events := by
    rw [hafter]
    simp [Machine.eventsSince, Machine.withPast, Machine.events]
  have hframes : ∀ es : List Expr, (after.evaluateAll rounds es).env.frames = [] := fun es =>
    (frames_evaluateAll rounds es after).trans (frames_final_run rounds p m)
  refine ⟨houtcome, ?_, ?_, ?_, ?_, ?_, ?_, ?_, fun es => ⟨hframes es, fun name => ?_⟩⟩
  · rw [hafter]
    rfl
  · rw [hevents]
    rfl
  · rw [hevents]
    rfl
  · rw [hevents]
  · rw [hafter]
    rfl
  · rw [hafter]
    rfl
  · rw [hafter]
    rfl
  · exact Environment.lookup?_of_no_frames (hframes es) name

end Chalkboard
