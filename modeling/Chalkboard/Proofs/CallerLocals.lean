import Chalkboard.Session
import Chalkboard.Proofs.RelatedRuns

/-! # Callers keep their locals to themselves

A subroutine sees its own frame and global memory. Two machines that differ only in the frames below
that of the subroutine, in a value on its way back and in what has happened before run in lockstep
through the whole call.
-/

namespace Chalkboard

open Exec

/-- The event without the local frames of its environment. -/
def Event.outward : Event → Event
  | .entered env => .entered { env with frames := [] }
  | .completed stmt env => .completed stmt { env with frames := [] }
  | .asked name => .asked name
  | .printed line => .printed line

/-- What an observer of statements is shown: the statement and global memory. -/
def Event.observed? (e : Event) : Option (Stmt × Frame) :=
  e.completed?.map fun (stmt, env) => (stmt, env.globals)

namespace Event

theorem printed?_outward (e : Event) : e.outward.printed? = e.printed? := by
  cases e <;> rfl

theorem asked?_outward (e : Event) : e.outward.asked? = e.asked? := by
  cases e <;> rfl

theorem observed?_outward (e : Event) : e.outward.observed? = e.observed? := by
  cases e <;> rfl

end Event

theorem outward_eq {env₁ env₂ : Environment} (hglobals : env₁.globals = env₂.globals)
    (htypes : env₁.types = env₂.types) (hsubs : env₁.subroutines = env₂.subroutines) :
    ({ env₁ with frames := [] } : Environment) = { env₂ with frames := [] } := by
  rw [hglobals, htypes, hsubs]

/-- The machines are inside of a call that was made from `b₁` and from `b₂`: what they have in
common is all but the frames and the events from before the call. -/
structure Twin (b₁ b₂ : Machine) (m₁ m₂ : Machine) : Prop where
  globals : m₁.env.globals = m₂.env.globals
  types : m₁.env.types = m₂.env.types
  subroutines : m₁.env.subroutines = m₂.env.subroutines
  frames : ∃ top inner, m₁.env.frames = top :: inner ++ b₁.env.frames ∧
    m₂.env.frames = top :: inner ++ b₂.env.frames
  answers : m₁.answers = m₂.answers
  returning : m₁.returning = m₂.returning
  history : ∃ new₁ new₂, m₁.history = new₁ ++ b₁.history ∧ m₂.history = new₂ ++ b₂.history ∧
    new₁.map Event.outward = new₂.map Event.outward

namespace Twin

variable {b₁ b₂ m₁ m₂ : Machine}

theorem record (h : Twin b₁ b₂ m₁ m₂) {e₁ e₂ : Event} (he : e₁.outward = e₂.outward) :
    Twin b₁ b₂ (m₁.record e₁) (m₂.record e₂) := by
  obtain ⟨new₁, new₂, h₁, h₂, hnew⟩ := h.history
  refine { h with history := ⟨e₁ :: new₁, e₂ :: new₂, ?_, ?_, ?_⟩ }
  · rw [Machine.record, h₁, List.cons_append]
  · rw [Machine.record, h₂, List.cons_append]
  · rw [List.map_cons, List.map_cons, he, hnew]

theorem view (h : Twin b₁ b₂ m₁ m₂) : m₁.env.SameView m₂.env where
  globals := h.globals
  top := by
    obtain ⟨top, inner, h₁, h₂⟩ := h.frames
    rw [h₁, h₂]
    rfl
  types name := by rw [Environment.type?, Environment.type?, h.types]
  subroutines name := by rw [Environment.subroutine?, Environment.subroutine?, h.subroutines]

theorem change (h : Twin b₁ b₂ m₁ m₂) {env₁ env₂ : Environment} (hv : env₁.SameView env₂)
    (h₁ : m₁.env.SameFixtures env₁) (h₂ : m₂.env.SameFixtures env₂) :
    Twin b₁ b₂ { m₁ with env := env₁ } { m₂ with env := env₂ } where
  globals := hv.globals
  types := by rw [h₁.types, h₂.types, h.types]
  subroutines := by rw [h₁.subroutines, h₂.subroutines, h.subroutines]
  frames := by
    obtain ⟨top, inner, hf₁, hf₂⟩ := h.frames
    have hc₁ := h₁.callers
    have hc₂ := h₂.callers
    rcases hv.frames_cases with ⟨he, _⟩ | ⟨top', rest₁, rest₂, he₁, he₂⟩
    · have hd : env₁.frames.length = m₁.env.frames.length := h₁.depth
      rw [he, hf₁] at hd
      simp at hd
    · rw [he₁, hf₁] at hc₁
      rw [he₂, hf₂] at hc₂
      exact ⟨top', inner, he₁.trans (congrArg _ hc₁), he₂.trans (congrArg _ hc₂)⟩
  answers := h.answers
  returning := h.returning
  history := h.history

theorem ask (b₁ b₂ : Machine) (name : String) :
    Lockstep (Twin b₁ b₂) (ask name) (ask name) := by
  intro m₁ m₂ h
  have hr : Twin b₁ b₂ (m₁.record (.asked name)) (m₂.record (.asked name)) := h.record rfl
  cases ha : m₁.answers with
  | nil =>
    rw [ask_of_nil ha, ask_of_nil (h.answers ▸ ha)]
    exact .error _ hr
  | cons answer answers =>
    rw [ask_of_cons ha, ask_of_cons (h.answers ▸ ha)]
    exact .ok answer { hr with answers := rfl }

end Twin

theorem parallel_twin (b₁ b₂ : Machine) : Parallel (Twin b₁ b₂) where
  view h := h.view
  returning h := h.returning
  change h hv h₁ h₂ := h.change hv h₁ h₂
  ask name := Twin.ask b₁ b₂ name
  print _ _ _ h := .ok () (h.record rfl)
  complete stmt h := h.record (congrArg (Event.completed stmt)
    (outward_eq h.globals h.types h.subroutines))
  giveBack _ h := { h with returning := rfl }

namespace Twin

variable {b₁ b₂ m₁ m₂ after₁ after₂ : Machine}

theorem enter (h : Twin b₁ b₂ m₁ m₂) (frame : Frame) :
    Twin b₁ b₂ (m₁.enter frame) (m₂.enter frame) := by
  obtain ⟨top, inner, h₁, h₂⟩ := h.frames
  have hpush : Twin b₁ b₂ { m₁ with env := m₁.env.push frame, returning := none }
      { m₂ with env := m₂.env.push frame, returning := none } :=
    { h with
      frames := ⟨frame, top :: inner, congrArg (frame :: ·) h₁, congrArg (frame :: ·) h₂⟩
      returning := rfl }
  exact hpush.record (congrArg Event.entered (outward_eq h.globals h.types h.subroutines))

/-- The call itself begins with the same frame on whatever stacks there are. -/
theorem of_call (hglobals : m₁.env.globals = m₂.env.globals) (htypes : m₁.env.types = m₂.env.types)
    (hsubs : m₁.env.subroutines = m₂.env.subroutines) (hanswers : m₁.answers = m₂.answers)
    (frame : Frame) : Twin m₁ m₂ (m₁.enter frame) (m₂.enter frame) where
  globals := hglobals
  types := htypes
  subroutines := hsubs
  frames := ⟨frame, [], rfl, rfl⟩
  answers := hanswers
  returning := rfl
  history := ⟨[.entered (m₁.env.push frame)], [.entered (m₂.env.push frame)], rfl, rfl, by
    simp only [List.map_cons, List.map_nil, Event.outward, Environment.push, hglobals,
      htypes, hsubs]⟩

/-- The frames are the callers' own after the call, so the machines are related as before it. -/
theorem leave (h : Twin b₁ b₂ m₁ m₂) (ha : Twin b₁ b₂ after₁ after₂)
    (h₁ : (m₁.leave after₁).env.frames = m₁.env.frames)
    (h₂ : (m₂.leave after₂).env.frames = m₂.env.frames) :
    Twin b₁ b₂ (m₁.leave after₁) (m₂.leave after₂) where
  globals := ha.globals
  types := ha.types
  subroutines := ha.subroutines
  frames := by
    rw [h₁, h₂]
    exact h.frames
  answers := ha.answers
  returning := h.returning
  history := ha.history

end Twin

theorem nested_twin (b₁ b₂ : Machine) : Nested (Twin b₁ b₂) where
  toParallel := parallel_twin b₁ b₂
  enter := Twin.enter
  leave := Twin.leave

/-- Two calls, from `m₁` to `n₁` and from `m₂` to `n₂`, show the same to the outside and leave the
same behind: global memory, the answers that are left, and all events in their order but for the
local frames in them; so the lines, the names asked for and what an observer is shown. -/
structure SameEffects (m₁ m₂ n₁ n₂ : Machine) : Prop where
  globals : n₁.env.globals = n₂.env.globals
  answers : n₁.answers = n₂.answers
  events : (m₁.eventsSince n₁).map Event.outward = (m₂.eventsSince n₂).map Event.outward
  output : Machine.outputOf (m₁.eventsSince n₁) = Machine.outputOf (m₂.eventsSince n₂)
  prompts : Machine.promptsOf (m₁.eventsSince n₁) = Machine.promptsOf (m₂.eventsSince n₂)
  observed : (m₁.eventsSince n₁).filterMap Event.observed? =
    (m₂.eventsSince n₂).filterMap Event.observed?

theorem Machine.eventsSince_append {m n : Machine} {new : List Event}
    (h : n.history = new ++ m.history) : m.eventsSince n = new.reverse := by
  simp [Machine.eventsSince, h]

theorem sameEffects_of_history {m₁ m₂ n₁ n₂ : Machine} {new₁ new₂ : List Event}
    (hglobals : n₁.env.globals = n₂.env.globals) (hanswers : n₁.answers = n₂.answers)
    (h₁ : n₁.history = new₁ ++ m₁.history) (h₂ : n₂.history = new₂ ++ m₂.history)
    (hnew : new₁.map Event.outward = new₂.map Event.outward) : SameEffects m₁ m₂ n₁ n₂ := by
  have hevents : new₁.reverse.map Event.outward = new₂.reverse.map Event.outward := by
    rw [List.map_reverse, List.map_reverse, hnew]
  constructor
  · exact hglobals
  · exact hanswers
  all_goals rw [Machine.eventsSince_append h₁, Machine.eventsSince_append h₂]
  · exact hevents
  · exact filterMap_eq_of_map_eq Event.printed?_outward hevents
  · exact filterMap_eq_of_map_eq Event.asked?_outward hevents
  · exact filterMap_eq_of_map_eq Event.observed?_outward hevents

theorem invokeAt_ignores_caller_locals {m₁ m₂ : Machine} (rounds : Nat)
    (hglobals : m₁.env.globals = m₂.env.globals)
    (htypes : m₁.env.types = m₂.env.types) (hsubs : m₁.env.subroutines = m₂.env.subroutines)
    (hanswers : m₁.answers = m₂.answers) (n : Nat) (sub : Subroutine) (args : List Value) :
    (invokeAt rounds n sub args).outcome m₁ = (invokeAt rounds n sub args).outcome m₂ ∧
    SameEffects m₁ m₂ ((invokeAt rounds n sub args).final m₁)
      ((invokeAt rounds n sub args).final m₂) := by
  cases n with
  | zero =>
    have h₁ : ((invokeAt rounds 0 sub args).final m₁).history = [] ++ m₁.history := rfl
    have h₂ : ((invokeAt rounds 0 sub args).final m₂).history = [] ++ m₂.history := rfl
    exact ⟨rfl, sameEffects_of_history hglobals hanswers h₁ h₂ rfl⟩
  | succ n =>
    have hbody := ((nested_twin m₁ m₂).runCongruence rounds).performAll n sub.body _ _
      (Twin.of_call hglobals htypes hsubs hanswers (Environment.ofArguments sub.params args))
    rw [invokeAt]
    rcases hbody.cases with ⟨_, a₁, a₂, h₁, h₂, ha⟩ | ⟨stop, a₁, a₂, h₁, h₂, ha⟩
    · obtain ⟨new₁, new₂, hh₁, hh₂, hnew⟩ := ha.history
      have r₁ := activation_of_ok h₁
      have r₂ := activation_of_ok h₂
      rw [outcome_of_ok r₁, outcome_of_ok r₂, final_of_ok r₁, final_of_ok r₂, ha.returning]
      exact ⟨rfl, sameEffects_of_history ha.globals ha.answers hh₁ hh₂ hnew⟩
    · obtain ⟨new₁, new₂, hh₁, hh₂, hnew⟩ := ha.history
      have r₁ := activation_of_error h₁
      have r₂ := activation_of_error h₂
      rw [outcome_of_error r₁, outcome_of_error r₂, final_of_error r₁, final_of_error r₂]
      exact ⟨rfl, sameEffects_of_history ha.globals ha.answers hh₁ hh₂ hnew⟩

/-- A call depends on global memory, the declarations, the answers and the number of active calls,
and on nothing else of its caller. -/
theorem invoke_ignores_caller_locals (rounds : Nat) (sub : Subroutine) (args : List Value)
    (m₁ m₂ : Machine) (hglobals : m₁.env.globals = m₂.env.globals)
    (htypes : m₁.env.types = m₂.env.types)
    (hsubs : m₁.env.subroutines = m₂.env.subroutines) (hanswers : m₁.answers = m₂.answers)
    (hdepth : m₁.env.frames.length = m₂.env.frames.length) :
    (sub.invoke rounds args).outcome m₁ = (sub.invoke rounds args).outcome m₂ ∧
    SameEffects m₁ m₂ ((sub.invoke rounds args).final m₁) ((sub.invoke rounds args).final m₂) := by
  have hn : callLimit - m₁.env.depth = callLimit - m₂.env.depth := by
    rw [Environment.depth, Environment.depth, hdepth]
  show (invokeAt rounds (callLimit - m₁.env.depth) sub args).outcome m₁ =
      (invokeAt rounds (callLimit - m₂.env.depth) sub args).outcome m₂ ∧
    SameEffects m₁ m₂ ((invokeAt rounds (callLimit - m₁.env.depth) sub args).final m₁)
      ((invokeAt rounds (callLimit - m₂.env.depth) sub args).final m₂)
  rw [← hn]
  exact invokeAt_ignores_caller_locals rounds hglobals htypes hsubs hanswers _ sub args

/-- The call of a procedure that prints what is in sight, from two frames of which only one has the
name and in only one of which a value is on its way back. -/
theorem invoke_ignores_caller_locals_print :
    let sub : Subroutine := ⟨"Show", [⟨"x", "INTEGER", false⟩], none,
      [.output [.var "x" none, .var "y" none]]⟩
    let globals : Frame := .ofList [("Y", .scalar "STRING" (.text "!"))]
    let env₁ : Environment := ⟨globals, [.ofList [("Y", .constant (.bool true))]], .empty, .empty⟩
    let env₂ : Environment := ⟨globals, [.empty], .empty, .empty⟩
    let m₁ : Machine := ⟨env₁, ["7"], some (.bool false), []⟩
    let m₂ : Machine := ⟨env₂, ["7"], none, [.printed "before"]⟩
    let shown := (sub.invoke 1 [.text "z"]).final
    (m₁.env.globals = m₂.env.globals ∧ m₁.env.types = m₂.env.types ∧
      m₁.env.subroutines = m₂.env.subroutines ∧ m₁.answers = m₂.answers ∧
      m₁.env.frames.length = m₂.env.frames.length) ∧
    Machine.outputOf (m₁.eventsSince (shown m₁)) = ["z!"] ∧
    SameEffects m₁ m₂ (shown m₁) (shown m₂) := by
  intro sub globals env₁ env₂ m₁ m₂ shown
  refine ⟨⟨rfl, rfl, rfl, rfl, rfl⟩, rfl, ?_⟩
  exact (invoke_ignores_caller_locals 1 sub [.text "z"] m₁ m₂ rfl rfl rfl rfl rfl).2

end Chalkboard
