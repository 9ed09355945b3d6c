import Chalkboard.Session
import Chalkboard.Proofs.RelatedRuns

/-! # The own steps of an activation

When a subroutine is carried out, other calls come in between, and their statements end among its
own. Here the body is run so that every step of its own is put down with its place: each statement
that begins or ends, each value that is given back, and each test and advance of a counting loop.
Calls leave no such steps, and no end of a statement at the depth of their caller.
-/

namespace Chalkboard

open Exec

/-- Where a statement stands: in the body itself, or in a block of another statement. -/
inductive Place where
  | top (number : Nat)
  | inside (around : Place) (block number : Nat)
deriving DecidableEq

/-- The blocks of statements in a statement. The clauses of a selection make up one of them. -/
def Stmt.blocks : Stmt → List (List Stmt)
  | ifElse _ yes no => [yes, no]
  | whileDo _ body | repeatUntil body _ | forTo _ _ _ _ body => [body]
  | caseOf _ clauses otherwise => [clauses.map Prod.snd, otherwise]
  | _ => []

namespace Place

/-- The places of the statements around, the innermost first. -/
def enclosing : Place → List Place
  | top _ => []
  | inside around _ _ => around :: around.enclosing

def stmt? (body : List Stmt) : Place → Option Stmt
  | top number => body[number]?
  | inside around block number => do
    let stmt ← around.stmt? body
    let stmts ← stmt.blocks[block]?
    stmts[number]?

theorem stmt?_inside {body : List Stmt} {around : Place} {stmt : Stmt} {block : Nat}
    {stmts : List Stmt} (h : around.stmt? body = some stmt)
    (hblock : stmt.blocks[block]? = some stmts)
    (number : Nat) : (around.inside block number).stmt? body = stmts[number]? := by
  simp [stmt?, h, hblock]

end Place

inductive OwnStep where
  | began (place : Place)
  | gaveBack (place : Place) (v : Value)
  /-- The counting loop at this place compares its counter with its end. -/
  | tested (place : Place)
  /-- The counting loop at this place moves its counter on. -/
  | advanced (place : Place)
  | ended (place : Place)

def OwnStep.ended? : OwnStep → Option Place
  | ended place => some place
  | _ => none

/-- An activation as far as it has come: the machine, and its own steps in order. -/
structure Activity where
  machine : Machine
  steps : List OwnStep

namespace Activity

def note (step : OwnStep) (a : Activity) : Activity := { a with steps := a.steps ++ [step] }

def ended (a : Activity) : List Place := a.steps.filterMap OwnStep.ended?

end Activity

/-- Actions that put down their own steps. -/
abbrev Traced := EStateM Stop Activity

namespace Traced

variable {α : Type}

/-- Something that takes no step of its own. -/
def lift (x : Exec α) : Traced α := fun a =>
  match x a.machine with
  | .ok v m => .ok v { a with machine := m }
  | .error stop m => .error stop { a with machine := m }

def machine : Traced Machine := return (← get).machine

def note (step : OwnStep) : Traced Unit := modify (Activity.note step)

def completing (place : Place) (stmt : Stmt) (work : Traced Unit) : Traced Unit := do
  if (← machine).returning.isSome then pure ()
  else
    note (.began place)
    work
    lift (modify fun m => m.record (.completed stmt m.env))
    note (.ended place)

def iterate : Nat → Traced Bool → Traced Unit
  | 0, _ => throw .unfinished
  | n + 1, round => do if (← round) then iterate n round else pure ()

end Traced

open Traced (lift note)

mutual

/-- Carry out the statement at a place, and put down the steps that it takes in this activation. -/
def Stmt.trace (rounds : Nat) (call : CallRule) (place : Place) : Stmt → Traced Unit
  | .ifElse condition yes no => do
    if (← lift (condition.eval call)).isTrue then Stmt.traceAll rounds call (place.inside 0) 0 yes
    else Stmt.traceAll rounds call (place.inside 1) 0 no
  | .whileDo condition body => Traced.iterate rounds do
    if (← lift (condition.eval call)).isTrue then
      Stmt.traceAll rounds call (place.inside 0) 0 body
      pure true
    else pure false
  | .repeatUntil body condition => Traced.iterate rounds do
    Stmt.traceAll rounds call (place.inside 0) 0 body
    return !(← lift (condition.eval call)).isTrue
  | .forTo counter start stop step body => do
    let first ← lift (start.eval call)
    lift (changing (·.bindCounter counter first))
    let step := (← lift (step.eval call)).toNumber
    if 0.0 < step || step < 0.0 then Traced.iterate rounds do
      note (.tested place)
      let x ← lift (reading (·.readCounter counter))
      let stop := (← lift (stop.eval call)).toNumber
      if passed step x stop then pure false
      else
        Stmt.traceAll rounds call (place.inside 0) 0 body
        if (← Traced.machine).returning.isSome then pure false
        else
          note (.advanced place)
          let x ← lift (reading (·.readCounter counter))
          lift (changing fun env => .ok (env.writeCounter counter (x + step)))
          pure true
    else lift (fail (.badStep counter))
  | .caseOf subject clauses otherwise => do
    let v ← lift (reading (·.read subject none))
    unless ← Stmt.traceFirst rounds call (place.inside 0) 0 v clauses do
      Stmt.traceAll rounds call (place.inside 1) 0 otherwise
  | .giveBack value => do
    let v ← lift (value.eval call)
    lift (modify ({ · with returning := some v }))
    note (.gaveBack place v)
  | stmt => lift (stmt.perform rounds call)

/-- Execute statements one after the other, the first of them at the place with the given number. -/
def Stmt.traceAll (rounds : Nat) (call : CallRule) (at_ : Nat → Place) (number : Nat) :
    List Stmt → Traced Unit
  | [] => pure ()
  | stmt :: stmts => do
    Traced.completing (at_ number) stmt (stmt.trace rounds call (at_ number))
    Stmt.traceAll rounds call at_ (number + 1) stmts

def Stmt.traceFirst (rounds : Nat) (call : CallRule) (at_ : Nat → Place) (number : Nat)
    (v : Value) : List (Expr × Stmt) → Traced Bool
  | [] => pure false
  | (value, stmt) :: clauses => do
    if (← lift (value.eval call)).same v then
      Traced.completing (at_ number) stmt (stmt.trace rounds call (at_ number))
      pure true
    else Stmt.traceFirst rounds call at_ (number + 1) v clauses

end

namespace Machine

def completedAt (depth : Nat) (m : Machine) : List Stmt :=
  ((completedOf m.events).filter (·.2.depth = depth)).map Prod.fst

variable {d : Nat} {m m' : Machine}

theorem completedAt_of_history (h : m'.history = m.history) :
    m'.completedAt d = m.completedAt d := by
  rw [completedAt, completedAt, events, events, h]

theorem completedAt_record {e : Event} (he : e.completed? = none) :
    (m.record e).completedAt d = m.completedAt d := by
  simp [completedAt, events, record, completedOf, he]

theorem completedAt_record_completed (stmt : Stmt) (m : Machine) :
    (m.record (.completed stmt m.env)).completedAt m.env.depth =
      m.completedAt m.env.depth ++ [stmt] := by
  simp [completedAt, events, record, completedOf, Event.completed?]

theorem completedAt_record_of_ne (stmt : Stmt) (h : m.env.depth ≠ d) :
    (m.record (.completed stmt m.env)).completedAt d = m.completedAt d := by
  simp [completedAt, events, record, completedOf, Event.completed?, h]

theorem completedAt_enter (frame : Frame) (m : Machine) :
    (m.enter frame).completedAt d = m.completedAt d :=
  completedAt_record rfl

end Machine

/-- What a step inside of a call leaves alone: nothing ends there for the callers. -/
structure Above (m m' : Machine) : Prop where
  depth : m'.env.depth = m.env.depth
  completed : ∀ d < m.env.depth, m'.completedAt d = m.completedAt d

/-- Nothing is given back, and nothing ends for those that are active already. -/
structure Quiet (m m' : Machine) : Prop where
  returning : m'.returning = m.returning
  depth : m'.env.depth = m.env.depth
  completed : ∀ d ≤ m.env.depth, m'.completedAt d = m.completedAt d

theorem Quiet.above {m m' : Machine} (h : Quiet m m') : Above m m' :=
  ⟨h.depth, fun d hd => h.completed d (Nat.le_of_lt hd)⟩

theorem Above.of_history {m m' : Machine} (hdepth : m'.env.depth = m.env.depth)
    (hhistory : m'.history = m.history) : Above m m' :=
  ⟨hdepth, fun _ _ => Machine.completedAt_of_history hhistory⟩

theorem quiet_of_record {m m' : Machine} {e : Event} (he : e.completed? = none)
    (henv : m'.env = m.env)
    (hreturning : m'.returning = m.returning) (hhistory : m'.history = e :: m.history) :
    Quiet m m' where
  returning := hreturning
  depth := congrArg Environment.depth henv
  completed _ _ := (Machine.completedAt_of_history (m := m.record e) hhistory).trans
    (Machine.completedAt_record he)

theorem chains_quiet : Chains Quiet where
  refl _ := ⟨rfl, rfl, fun _ _ => rfl⟩
  trans hab hbc := {
    returning := hbc.returning.trans hab.returning
    depth := hbc.depth.trans hab.depth
    completed := fun d hd => (hbc.completed d (hab.depth ▸ hd)).trans (hab.completed d hd) }

theorem quiet_ask (name : String) : Moves Quiet (ask name) := by
  intro m
  cases h : m.answers with
  | nil =>
    rw [final_of_error (ask_of_nil h)]
    exact quiet_of_record rfl rfl rfl rfl
  | cons answer answers =>
    rw [final_of_ok (ask_of_cons h)]
    exact quiet_of_record rfl rfl rfl rfl

theorem quiet_print (line : String) : Moves Quiet (print line) :=
  fun _ => quiet_of_record rfl rfl rfl rfl

theorem quiet_changing {f : Environment → Except RuntimeError Environment}
    (hf : Environment.Writes f) : Moves Quiet (changing f) := by
  intro m
  cases h : f m.env with
  | ok env =>
    rw [final_of_ok (changing_of_ok h)]
    exact ⟨rfl, (hf.fixtures h).depth, fun _ _ => Machine.completedAt_of_history rfl⟩
  | error e =>
    rw [final_of_error (changing_of_error h)]
    exact chains_quiet.refl m

theorem respects_above : Respects Above where
  refl _ := ⟨rfl, fun _ _ => rfl⟩
  trans hab hbc := ⟨hbc.depth.trans hab.depth,
    fun d hd => (hbc.completed d (hab.depth ▸ hd)).trans (hab.completed d hd)⟩
  change hc := .of_history hc.sameFixtures.depth rfl
  ask name m := (quiet_ask name m).above
  print line m := (quiet_print line m).above
  complete stmt _ := ⟨rfl, fun _ hd => Machine.completedAt_record_of_ne stmt (Nat.ne_of_gt hd)⟩
  giveBack _ _ := .of_history rfl rfl

/-- By induction on the number of calls that may still be nested: what ends in the body of a
subroutine ends above its caller. -/
theorem quiet_invokeAt (rounds : Nat) : ∀ n sub args, Moves Quiet (invokeAt rounds n sub args) := by
  intro n
  induction n with
  | zero => exact fun _ _ => chains_quiet.fail _
  | succ n ih =>
    intro sub args m
    have hisolated := isolated_invokeAt rounds (n + 1) sub args m
    refine ⟨hisolated.returning, congrArg List.length hisolated.frames, fun d hd => ?_⟩
    have hbody := respects_above.carried (fun sub args => (ih sub args).mono Quiet.above)
      fun sub args => (isolated_invokeAt rounds n sub args).mono Isolated.keepsVariables
    have habove := (hbody.performAll rounds sub.body
      (m.enter (Environment.ofArguments sub.params args))).1.completed d (Nat.lt_succ_of_le hd)
    rw [invokeAt, final_activation, ← Machine.completedAt_enter
      (Environment.ofArguments sub.params args) m, ← habove]
    exact Machine.completedAt_of_history rfl

section Calls

variable {call : CallRule} (hcall : ∀ sub args, Moves Quiet (call sub args))

include hcall

theorem quiet_eval (e : Expr) : Moves Quiet (e.eval call) :=
  Expr.moves_eval chains_quiet e fun name _ => chains_quiet.callFunction hcall name

theorem quiet_evalAll (es : List Expr) : Moves Quiet (Expr.evalAll call es) :=
  Expr.moves_evalAll chains_quiet es fun name _ => chains_quiet.callFunction hcall name

open Environment in
/-- A statement without blocks that gives nothing back does all it does by evaluations and
accesses. -/
theorem Stmt.quiet_perform (rounds : Nat) : ∀ stmt : Stmt, stmt.blocks = [] →
    (∀ e, stmt ≠ .giveBack e) → Moves Quiet (stmt.perform rounds call)
  | .declare names type, _, _ => by
    rw [Stmt.perform]
    exact quiet_changing (writes_declare names type)
  | .declareArray names lower upper element, _, _ =>
    chains_quiet.bind (quiet_eval hcall lower) fun lower =>
      chains_quiet.bind (quiet_eval hcall upper) fun upper =>
        quiet_changing (writes_declareArrays names lower upper element)
  | .constant name value, _, _ =>
    chains_quiet.bind (quiet_eval hcall value) fun v =>
      quiet_changing (writes_declareConstant name v)
  | .assign name field value, _, _ =>
    chains_quiet.bind (chains_quiet.reading _) fun _ =>
      chains_quiet.bind (quiet_eval hcall value) fun v => quiet_changing (writes_store name field v)
  | .assignElement array index value, _, _ =>
    chains_quiet.bind (chains_quiet.reading _) fun _ =>
      chains_quiet.bind (quiet_eval hcall index) fun _ =>
        chains_quiet.bind (chains_quiet.lift _) fun i =>
        chains_quiet.bind (quiet_eval hcall value) fun v =>
          quiet_changing (writes_storeElement array i v)
  | .output exprs, _, _ => chains_quiet.bind (quiet_evalAll hcall exprs) fun _ => quiet_print _
  | .input name, _, _ =>
    chains_quiet.bind (chains_quiet.reading _) fun _ =>
      chains_quiet.bind (quiet_ask name) fun _ => quiet_changing (writes_store name none _)
  | .call name args, _, _ =>
    chains_quiet.bind (quiet_evalAll hcall args) fun _ => chains_quiet.callProcedure hcall name _
  | .giveBack e, _, h => absurd rfl (h e)

end Calls

end Chalkboard
