import Mathlib.Data.List.Chain
import Chalkboard.Proofs.LateChecks

/-! # The course of a run

A run passes through many states, and of most of them its events say nothing. Here programs are run
under watch: every single step is put down, with what was done and with the machine that it led to.
Without what is put down a watched run is the run itself, and each of its moments comes from the one
before by one step.
-/

namespace Chalkboard

/-- What led to a moment of a run. -/
inductive Deed where
  | started
  /-- Memory stayed as it was: something was read, asked for, printed, completed or given back, or
  it could not be done. -/
  | still
  | wrote
  /-- A loop took this name for its counter. -/
  | bound (counter : String)
  | entered
  | left

structure Moment where
  deed : Deed
  machine : Machine

/-- A run as far as it has come. -/
structure Course where
  now : Moment
  /-- The moments before, the latest first. -/
  past : List Moment

/-- One step of a run, from a machine to the next moment. -/
inductive Follows (m : Machine) : Moment → Prop where
  | still {m' : Machine} : m'.env = m.env → Follows m ⟨.still, m'⟩
  | wrote {env : Environment} : m.env.Written env → Follows m ⟨.wrote, { m with env := env }⟩
  | bound {counter : String} {v : Value} {env : Environment} :
      m.env.bindCounter counter v = .ok env → Follows m ⟨.bound counter, { m with env := env }⟩
  | entered (params : List Param) (args : List Value) :
      Follows m ⟨.entered, m.enter (Environment.ofArguments params args)⟩
  | left (caller : Machine) : Follows m ⟨.left, caller.leave m⟩

namespace Course

def start (m : Machine) : Course := ⟨⟨.started, m⟩, []⟩

def machine (c : Course) : Machine := c.now.machine

def note (c : Course) (deed : Deed) (m : Machine) : Course := ⟨⟨deed, m⟩, c.now :: c.past⟩

/-- All moments in their order. -/
def moments (c : Course) : List Moment := (c.now :: c.past).reverse

/-- The course begins with the given machine and goes on step by step. -/
structure From (first : Machine) (c : Course) : Prop where
  begins : c.moments.head? = some ⟨.started, first⟩
  steps : c.moments.IsChain fun s s' => Follows s.machine s'

theorem moments_note (c : Course) (deed : Deed) (m : Machine) :
    (c.note deed m).moments = c.moments ++ [⟨deed, m⟩] := by
  simp [moments, note]

theorem now_mem_moments (c : Course) : c.now ∈ c.moments := by
  simp [moments]

/-- What has been passed through stays put down. -/
theorem mem_moments_note {c : Course} {s : Moment} (h : s ∈ c.moments) (deed : Deed) (m : Machine) :
    s ∈ (c.note deed m).moments := by
  rw [moments_note]
  exact List.mem_append_left _ h

theorem from_start (m : Machine) : (start m).From m := ⟨rfl, .singleton _⟩

theorem From.note {first m : Machine} {c : Course} {deed : Deed} (h : c.From first)
    (hstep : Follows c.machine ⟨deed, m⟩) : (c.note deed m).From first where
  begins := by
    rw [moments_note, List.head?_append, h.begins]
    rfl
  steps := by
    rw [moments_note]
    refine h.steps.append (.singleton _) fun s hs s' hs' => ?_
    have hs : s = c.now := by simpa [moments] using hs.symm
    have hs' : s' = ⟨deed, m⟩ := by simpa using hs'.symm
    rw [hs, hs']
    exact hstep

end Course

/-- Actions under watch. -/
abbrev Watch := EStateM Stop Course

abbrev WatchRule := Subroutine → List Value → Watch Value

namespace Watch

variable {α : Type}

def machine : Watch Machine := return (← get).machine

/-- Do something in one step. -/
def doing (deed : Deed) (x : Exec α) : Watch α := fun c =>
  match x c.machine with
  | .ok a m => .ok a (c.note deed m)
  | .error stop m => .error stop (c.note .still m)

def completing (stmt : Stmt) (work : Watch Unit) : Watch Unit := do
  if (← machine).returning.isSome then pure ()
  else
    work
    doing .still (modify fun m => m.record (.completed stmt m.env))

def iterate : Nat → Watch Bool → Watch Unit
  | 0, _ => throw .unfinished
  | n + 1, round => do if (← round) then iterate n round else pure ()

def activation (frame : Frame) (body : Watch Unit) : Watch Value := fun c =>
  match body (c.note .entered (c.machine.enter frame)) with
  | .ok () after =>
    .ok (after.machine.returning.getD .null) (after.note .left (c.machine.leave after.machine))
  | .error stop after => .error stop (after.note .left (c.machine.leave after.machine))

def calledFunction (call : WatchRule) (name : String) (args : List Value) :
    Option Subroutine → Watch Value
  | none => doing .still (Exec.fail (.unknownFunction name))
  | some sub =>
    if sub.isFunction then call sub args
    else doing .still (Exec.fail (.procedureInExpression name))

def callFunction (call : WatchRule) (name : String) (args : List Value) : Watch Value :=
  match Builtin.call? name args with
  | some v => pure v
  | none => do calledFunction call name args ((← machine).env.subroutine? name)

def calledProcedure (call : WatchRule) (name : String) (args : List Value) :
    Option Subroutine → Watch Unit
  | none => doing .still (Exec.fail (.unknownProcedure name))
  | some sub => do let _ ← call sub args

def callProcedure (call : WatchRule) (name : String) (args : List Value) : Watch Unit := do
  calledProcedure call name args ((← machine).env.subroutine? name)

section Results

variable {β : Type} {c c' : Course} {a : α} {stop : Stop} {deed : Deed} {m : Machine}

theorem bind_of_ok {y : Watch α} {g : α → Watch β} (h : y c = .ok a c') :
    (y >>= g) c = g a c' := by
  simp [bind, EStateM.bind, h]

theorem bind_of_error {y : Watch α} {g : α → Watch β} (h : y c = .error stop c') :
    (y >>= g) c = .error stop c' := by
  simp [bind, EStateM.bind, h]

theorem doing_of_ok {x : Exec α} (h : x c.machine = .ok a m) :
    doing deed x c = .ok a (c.note deed m) := by
  simp only [doing, h]

theorem doing_of_error {x : Exec α} (h : x c.machine = .error stop m) :
    doing deed x c = .error stop (c.note .still m) := by
  simp only [doing, h]

theorem activation_of_ok {frame : Frame} {body : Watch Unit}
    (h : body (c.note .entered (c.machine.enter frame)) = .ok () c') :
    activation frame body c =
      .ok (c'.machine.returning.getD .null) (c'.note .left (c.machine.leave c'.machine)) := by
  simp only [activation, h]

theorem activation_of_error {frame : Frame} {body : Watch Unit}
    (h : body (c.note .entered (c.machine.enter frame)) = .error stop c') :
    activation frame body c = .error stop (c'.note .left (c.machine.leave c'.machine)) := by
  simp only [activation, h]

end Results

end Watch

open Watch (doing)
open Exec (reading changing)

mutual

/-- Evaluate an expression under watch. -/
def Expr.watch (call : WatchRule) : Expr → Watch Value
  | .literal v => pure v
  | .var name field => doing .still (reading (·.read name field))
  | .element array index => do
    let i ← index.watch call
    doing .still (reading (·.readElement array i))
  | .call name args => do
    let args ← Expr.watchAll call args
    Watch.callFunction call name args
  | .binary op left right => do
    let a ← left.watch call
    let b ← right.watch call
    pure (op.apply a b)
  | .unary op operand => do
    let a ← operand.watch call
    pure (op.apply a)

def Expr.watchAll (call : WatchRule) : List Expr → Watch (List Value)
  | [] => pure []
  | e :: es => do
    let v ← e.watch call
    let vs ← Expr.watchAll call es
    pure (v :: vs)

end

mutual

/-- Carry out a statement under watch. -/
def Stmt.watch (rounds : Nat) (call : WatchRule) : Stmt → Watch Unit
  | .declare names type => doing .wrote (changing fun env => .ok (env.declare names type))
  | .declareArray names lower upper element => do
    let lower ← lower.watch call
    let upper ← upper.watch call
    doing .wrote (changing (·.declareArrays names lower upper element))
  | .constant name value => do
    let v ← value.watch call
    doing .wrote (changing (·.declareConstant name v))
  | .assign name field value => do
    doing .still (reading (·.checkWritable name))
    let v ← value.watch call
    doing .wrote (changing (·.store name field v))
  | .assignElement array index value => do
    let _ ← doing .still (reading (·.array array))
    let i ← index.watch call
    let i ← doing .still (Exec.lift (Environment.index array i))
    let v ← value.watch call
    doing .wrote (changing fun env => .ok (env.storeElement array i v))
  | .output exprs => do
    let vs ← Expr.watchAll call exprs
    doing .still (Exec.print (String.join (vs.map Value.toText)))
  | .input name => do
    doing .still (reading (·.checkWritable name))
    let answer ← doing .still (Exec.ask name)
    doing .wrote (changing (·.store name none (.ofAnswer answer)))
  | .ifElse condition yes no => do
    if (← condition.watch call).isTrue then Stmt.watchAll rounds call yes
    else Stmt.watchAll rounds call no
  | .whileDo condition body => Watch.iterate rounds do
    if (← condition.watch call).isTrue then
      Stmt.watchAll rounds call body
      pure true
    else pure false
  | .repeatUntil body condition => Watch.iterate rounds do
    Stmt.watchAll rounds call body
    return !(← condition.watch call).isTrue
  | .forTo counter start stop step body => do
    let first ← start.watch call
    doing (.bound counter) (changing (·.bindCounter counter first))
    let step := (← step.watch call).toNumber
    if 0.0 < step || step < 0.0 then Watch.iterate rounds do
      let x ← doing .still (reading (·.readCounter counter))
      let stop := (← stop.watch call).toNumber
      if passed step x stop then pure false
      else
        Stmt.watchAll rounds call body
        if (← Watch.machine).returning.isSome then pure false
        else
          let x ← doing .still (reading (·.readCounter counter))
          doing .wrote (changing fun env => .ok (env.writeCounter counter (x + step)))
          pure true
    else doing .still (Exec.fail (.badStep counter))
  | .caseOf subject clauses otherwise => do
    let v ← doing .still (reading (·.read subject none))
    unless ← Stmt.watchFirst rounds call v clauses do
      Stmt.watchAll rounds call otherwise
  | .call name args => do
    let args ← Expr.watchAll call args
    Watch.callProcedure call name args
  | .giveBack value => do
    let v ← value.watch call
    doing .still (modify ({ · with returning := some v }))

def Stmt.watchAll (rounds : Nat) (call : WatchRule) : List Stmt → Watch Unit
  | [] => pure ()
  | stmt :: stmts => do
    Watch.completing stmt (stmt.watch rounds call)
    Stmt.watchAll rounds call stmts

def Stmt.watchFirst (rounds : Nat) (call : WatchRule) (v : Value) :
    List (Expr × Stmt) → Watch Bool
  | [] => pure false
  | (value, stmt) :: clauses => do
    if (← value.watch call).same v then
      Watch.completing stmt (stmt.watch rounds call)
      pure true
    else Stmt.watchFirst rounds call v clauses

end

/-- Carry out a call under watch, inside of which so many further calls may be nested. -/
def watchAt (rounds : Nat) : Nat → WatchRule
  | 0, sub, _ => doing .still (Exec.fail (.tooManyCalls sub.name callLimit))
  | n + 1, sub, args =>
    Watch.activation (Environment.ofArguments sub.params args)
      (Stmt.watchAll rounds (watchAt rounds n) sub.body)

/-- Run a program under watch, from the moment at which its declarations are taken up. -/
def Program.watch (rounds : Nat) (p : Program) (m : Machine) : EStateM.Result Stop Course Unit :=
  Stmt.watchAll rounds (watchAt rounds callLimit) p.statements (.start (m.load p))

/-- The course of a run from its first moment to its last. -/
def Program.course (rounds : Nat) (p : Program) (m : Machine) : Course :=
  match p.watch rounds m with
  | .ok _ c => c
  | .error _ c => c

/-- The result of an action without the course that led to it. -/
def Watch.plain {α : Type} : EStateM.Result Stop Course α → EStateM.Result Stop Machine α
  | .ok a c => .ok a c.machine
  | .error stop c => .error stop c.machine

open Exec

/-- The result of an action and the result of the same action under watch, with its course in
order. -/
inductive Recorded {α : Type} (first : Machine) (J : Machine → Prop) :
    EStateM.Result Stop Machine α → EStateM.Result Stop Course α → Prop where
  | ok (a : α) {c : Course} : c.From first → J c.machine →
      Recorded first J (.ok a c.machine) (.ok a c)
  | error (stop : Stop) {c : Course} : c.From first →
      Recorded first J (.error stop c.machine) (.error stop c)

/-- From a machine that meets the first condition, the watched action does the same as the other and
goes on step by step; if it succeeds, the second condition is met. -/
def Tracks {α : Type} (first : Machine) (I J : Machine → Prop) (x : Exec α) (y : Watch α) : Prop :=
  ∀ c : Course, c.From first → I c.machine → Recorded first J (x c.machine) (y c)

/-- The action is tracked from every machine. -/
abbrev Tracked {α : Type} (first : Machine) (x : Exec α) (y : Watch α) : Prop :=
  Tracks first (fun _ => True) (fun _ => True) x y

namespace Tracks

variable {α β : Type} {first : Machine} {I J K : Machine → Prop}

theorem weaken {x : Exec α} {y : Watch α} (h : Tracks first I J x y) (hJ : ∀ m, J m → K m) :
    Tracks first I K x y := by
  intro c hc hI
  have hr := h c hc hI
  generalize x c.machine = r, y c = r' at hr
  cases hr with
  | ok a hc hJm => exact .ok a hc (hJ _ hJm)
  | error stop hc => exact .error stop hc

/-- What an action keeps need not be known when it is tracked. -/
theorem guard {x : Exec α} {y : Watch α} (h : Tracked first x y)
    (hx : Moves (fun m m' => I m → I m') x) : Tracks first I I x y := by
  intro c hc hI
  have hr := h c hc trivial
  have hf := hx c.machine hI
  rw [final] at hf
  generalize x c.machine = r, y c = r' at hr hf
  cases hr with
  | ok a hc => exact .ok a hc hf
  | error stop hc => exact .error stop hc

theorem pure (a : α) : Tracks first I I (pure a) (pure a) := fun _ hc hI => .ok a hc hI

theorem bind {x : Exec α} {y : Watch α} {f : α → Exec β} {g : α → Watch β}
    (hx : Tracks first I J x y) (hf : ∀ a, Tracks first J K (f a) (g a)) :
    Tracks first I K (x >>= f) (y >>= g) := by
  intro c hc hI
  have hr := hx c hc hI
  show Recorded first K (EStateM.bind x f c.machine) (EStateM.bind y g c)
  unfold EStateM.bind
  generalize x c.machine = r, y c = r' at hr
  cases hr with
  | ok a hc hJ => exact hf a _ hc hJ
  | error stop hc => exact .error stop hc

theorem ite {c : Prop} [Decidable c] {x x' : Exec α} {y y' : Watch α} (h : Tracks first I J x y)
    (h' : Tracks first I J x' y') :
    Tracks first I J (if c then x else x') (if c then y else y') := by
  split
  · exact h
  · exact h'

theorem ifReturning {x x' : Exec α} {y y' : Watch α} (h : Tracks first I J x y)
    (h' : Tracks first I J x' y') :
    Tracks first I J (do if (← get).returning.isSome then x else x')
      (do if (← Watch.machine).returning.isSome then y else y') := by
  intro c hc hI
  show Recorded first J ((if c.machine.returning.isSome then x else x') c.machine)
    ((if c.machine.returning.isSome then y else y') c)
  exact ite h h' c hc hI

theorem calling {f : Option Subroutine → Exec α} {g : Option Subroutine → Watch α}
    (h : ∀ sub, Tracks first I J (f sub) (g sub)) (name : String) :
    Tracks first I J (fun m => f (m.env.subroutine? name) m)
      (do g ((← Watch.machine).env.subroutine? name)) :=
  fun c hc hI => h _ c hc hI

/-- An action is one step if its success is, and if it leaves memory alone where it stops. -/
theorem doing {deed : Deed} {x : Exec α}
    (hok : ∀ m a m', I m → x m = .ok a m' → Follows m ⟨deed, m'⟩ ∧ J m')
    (herror : ∀ m stop m', x m = .error stop m' → m'.env = m.env) :
    Tracks first I J x (doing deed x) := by
  intro c hc hI
  unfold Watch.doing
  cases h : x c.machine with
  | ok a m =>
    obtain ⟨hstep, hJ⟩ := hok _ a m hI h
    exact .ok a (hc.note hstep) hJ
  | error stop m => exact .error stop (hc.note (.still (herror _ stop m h)))

theorem still {x : Exec α} (hx : ∀ m, (x.final m).env = m.env) :
    Tracked first x (Watch.doing .still x) :=
  doing (fun m _ _ _ h => ⟨.still (final_of_ok h ▸ hx m), trivial⟩)
    fun m _ _ h => final_of_error h ▸ hx m

theorem fail (e : RuntimeError) :
    Tracks first I J (fail e : Exec α) (Watch.doing .still (Exec.fail e)) :=
  doing (fun _ _ _ _ h => nomatch h) fun _ _ _ h => by
    cases h
    rfl

theorem lift (r : Except RuntimeError α) :
    Tracks first I I (lift r) (Watch.doing .still (Exec.lift r)) := by
  cases r with
  | error e => exact fail e
  | ok a =>
    refine doing (fun m _ _ hI h => ?_) fun _ _ _ h => nomatch h
    cases h
    exact ⟨.still rfl, hI⟩

theorem reading (f : Environment → Except RuntimeError α) :
    Tracks first I I (reading f) (Watch.doing .still (Exec.reading f)) :=
  fun c hc hI => lift (f c.machine.env) c hc hI

theorem changing {deed : Deed} {f : Environment → Except RuntimeError Environment}
    (hf : ∀ m env, I m → f m.env = .ok env →
      Follows m ⟨deed, { m with env := env }⟩ ∧ J { m with env := env }) :
    Tracks first I J (changing f) (Watch.doing deed (Exec.changing f)) := by
  refine doing (fun m _ _ hI h => ?_) fun m stop m' h => ?_
  · obtain ⟨env, hok, rfl⟩ := changing_eq_ok h
    exact hf m env hI hok
  · cases he : f m.env with
    | ok env =>
      rw [changing_of_ok he] at h
      cases h
    | error e =>
      rw [changing_of_error he] at h
      cases h
      rfl

theorem writing {f : Environment → Except RuntimeError Environment}
    (hf : ∀ env env', f env = .ok env' → env.Written env') :
    Tracked first (Exec.changing f) (Watch.doing .wrote (Exec.changing f)) :=
  changing fun _ _ _ h => ⟨.wrote (hf _ _ h), trivial⟩

theorem completing {work : Exec Unit} {watched : Watch Unit} (h : Tracked first work watched)
    (stmt : Stmt) : Tracked first (completing stmt work) (Watch.completing stmt watched) := by
  rw [completing_eq]
  exact ifReturning (pure ()) (h.bind fun _ => still fun _ => rfl)

theorem iterate {x : Exec Bool} {y : Watch Bool} (h : Tracks first I I x y) : ∀ n,
    Tracks first I I (iterate n x) (Watch.iterate n y) := by
  intro n
  induction n with
  | zero => exact fun c hc _ => .error _ hc
  | succ n ih =>
    rw [iterate_succ, Watch.iterate]
    exact h.bind fun _ => ite ih (pure ())

/-- The way into a subroutine is a step, and so is each way out. -/
theorem activation {body : Exec Unit} {watched : Watch Unit} (h : Tracked first body watched)
    (params : List Param) (args : List Value) :
    Tracked first (activation (Environment.ofArguments params args) body)
      (Watch.activation (Environment.ofArguments params args) watched) := by
  intro c hc _
  generalize hframe : Environment.ofArguments params args = frame
  have hentered : (c.note .entered (c.machine.enter frame)).From first :=
    hc.note (hframe ▸ .entered params args)
  have hr := h (c.note .entered (c.machine.enter frame)) hentered trivial
  change Recorded first _ (body (c.machine.enter frame)) _ at hr
  unfold Exec.activation Watch.activation
  generalize body (c.machine.enter frame) = r,
    watched (c.note .entered (c.machine.enter frame)) = r' at hr
  cases hr with
  | ok a hafter => exact .ok _ (hafter.note (.left c.machine)) trivial
  | error stop hafter => exact .error stop (hafter.note (.left c.machine))

end Tracks

/-- Calls under watch are tracked. -/
def TracksCalls (first : Machine) (call : CallRule) (watched : WatchRule) : Prop :=
  ∀ sub args, Tracked first (call sub args) (watched sub args)

section Calls

variable {first : Machine} {call : CallRule} {watched : WatchRule}

theorem tracked_callFunction (hcalls : TracksCalls first call watched) (name : String)
    (args : List Value) :
    Tracked first (callFunction call name args) (Watch.callFunction watched name args) := by
  unfold Watch.callFunction
  cases hb : Builtin.call? name args with
  | some v =>
    rw [callFunction_of_builtin hb]
    exact .pure v
  | none =>
    rw [callFunction_of_not_builtin hb]
    refine .calling (fun sub => ?_) name
    cases sub with
    | none => exact .fail _
    | some sub => exact .ite (hcalls sub args) (.fail _)

theorem tracked_callProcedure (hcalls : TracksCalls first call watched) (name : String)
    (args : List Value) :
    Tracked first (callProcedure call name args) (Watch.callProcedure watched name args) := by
  rw [callProcedure_eq]
  refine .calling (fun sub => ?_) name
  cases sub with
  | none => exact .fail _
  | some sub => exact .bind (hcalls sub args) fun _ => .pure ()

mutual

theorem Expr.tracked_watch (hcalls : TracksCalls first call watched) : ∀ e : Expr,
    Tracked first (e.eval call) (e.watch watched)
  | .literal v => .pure v
  | .var _ _ => .reading _
  | .element _ index => .bind (Expr.tracked_watch hcalls index) fun _ => .reading _
  | .call name args =>
    .bind (Expr.tracked_watchAll hcalls args) fun vs => tracked_callFunction hcalls name vs
  | .binary _ left right =>
    .bind (Expr.tracked_watch hcalls left) fun _ =>
      .bind (Expr.tracked_watch hcalls right) fun _ => .pure _
  | .unary _ operand => .bind (Expr.tracked_watch hcalls operand) fun _ => .pure _

theorem Expr.tracked_watchAll (hcalls : TracksCalls first call watched) : ∀ es : List Expr,
    Tracked first (Expr.evalAll call es) (Expr.watchAll watched es)
  | [] => .pure []
  | e :: es =>
    .bind (Expr.tracked_watch hcalls e) fun _ =>
      .bind (Expr.tracked_watchAll hcalls es) fun _ => .pure _

end

end Calls

section Statements

variable {first : Machine} {rounds n : Nat}

/-- Where the counter is set it is a variable: it became one when it was bound, and neither
evaluations nor the body of the loop lose it. -/
theorem tracked_forTo (hcalls : TracksCalls first (invokeAt rounds n) (watchAt rounds n))
    {counter : String} {start stop step : Expr} {body : List Stmt}
    (hbody : Tracked first (Stmt.performAll rounds (invokeAt rounds n) body)
      (Stmt.watchAll rounds (watchAt rounds n) body)) :
    Tracked first ((Stmt.forTo counter start stop step body).perform rounds (invokeAt rounds n))
      ((Stmt.forTo counter start stop step body).watch rounds (watchAt rounds n)) := by
  let I : Machine → Prop := (·.env.IsVariable counter)
  have heval : ∀ e : Expr,
      Tracks first I I (e.eval (invokeAt rounds n)) (e.watch (watchAt rounds n)) := fun e =>
    (Expr.tracked_watch hcalls e).guard ((keepsVariables_eval rounds n e).mono fun h => h counter)
  have hkept : Tracks first I I (Stmt.performAll rounds (invokeAt rounds n) body)
      (Stmt.watchAll rounds (watchAt rounds n) body) :=
    hbody.guard ((keepsVariables_performAll rounds n body).mono fun h => h counter)
  have hbind : ∀ v, Tracks first (fun _ => True) I (changing (·.bindCounter counter v))
      (doing (.bound counter) (changing (·.bindCounter counter v))) :=
    fun v => .changing fun m env _ h => ⟨.bound h, (Environment.change_of_bindCounter h).2⟩
  have hadvance : ∀ x, Tracks first I I (changing fun env => .ok (env.writeCounter counter x))
      (doing .wrote (changing fun env => .ok (env.writeCounter counter x))) := by
    refine fun x => .changing fun m env hI h => ?_
    cases h
    have hw : m.env.Write (m.env.writeCounter counter x) := .setCounter counter x hI
    exact ⟨.wrote (.single hw), hw.change.isVariable hI⟩
  rw [Stmt.perform, Stmt.watch]
  refine .bind (Expr.tracked_watch hcalls start) fun v => .bind (hbind v) fun _ => ?_
  -- from here on the counter is a variable
  refine Tracks.weaken (J := I) ?_ fun _ _ => trivial
  refine .bind (heval step) fun step => .ite (.iterate ?_ rounds) (.fail _)
  refine .bind (.reading _) fun x => .bind (heval stop) fun stop => .ite (.pure false) ?_
  refine .bind hkept fun _ => .ifReturning (.pure false) (.bind (.reading _) fun x => ?_)
  exact .bind (hadvance _) fun _ => .pure true

mutual

/-- By recursion on the statement: what it does in one step is named under watch, and the rest is
put together from its parts as without. -/
theorem Stmt.tracked_watch (hcalls : TracksCalls first (invokeAt rounds n) (watchAt rounds n)) :
    ∀ s : Stmt,
    Tracked first (s.perform rounds (invokeAt rounds n)) (s.watch rounds (watchAt rounds n))
  | .declare names type => by
    rw [Stmt.perform, Stmt.watch]
    refine .writing fun env env' h => ?_
    cases h
    exact env.written_declare names type
  | .declareArray _ lower upper _ =>
    .bind (Expr.tracked_watch hcalls lower) fun _ =>
      .bind (Expr.tracked_watch hcalls upper) fun _ =>
      .writing fun _ _ h => Environment.written_of_declareArrays h
  | .constant _ value =>
    .bind (Expr.tracked_watch hcalls value) fun _ =>
      .writing fun _ _ h => Environment.written_of_declareConstant h
  | .assign _ _ value =>
    .bind (.reading _) fun _ => .bind (Expr.tracked_watch hcalls value) fun _ =>
      .writing fun _ _ h => .single (Environment.write_of_store h)
  | .assignElement array index value =>
    .bind (.reading _) fun _ => .bind (Expr.tracked_watch hcalls index) fun _ =>
      .bind (.lift _) fun i => .bind (Expr.tracked_watch hcalls value) fun v => by
        refine .writing fun env env' h => ?_
        cases h
        exact .single (.setElement array i v)
  | .output exprs => .bind (Expr.tracked_watchAll hcalls exprs) fun _ => .still fun _ => rfl
  | .input name =>
    .bind (.reading _) fun _ => .bind (.still (env_final_ask name)) fun _ =>
      .writing fun _ _ h => .single (Environment.write_of_store h)
  | .ifElse condition yes no =>
    .bind (Expr.tracked_watch hcalls condition) fun _ =>
      .ite (Stmt.tracked_watchAll hcalls yes) (Stmt.tracked_watchAll hcalls no)
  | .whileDo condition body =>
    .iterate (.bind (Expr.tracked_watch hcalls condition) fun _ =>
      .ite (.bind (Stmt.tracked_watchAll hcalls body) fun _ => .pure true) (.pure false)) rounds
  | .repeatUntil body condition =>
    .iterate (.bind (Stmt.tracked_watchAll hcalls body) fun _ =>
      .bind (Expr.tracked_watch hcalls condition) fun _ => .pure _) rounds
  | .forTo _ _ _ _ body => tracked_forTo hcalls (Stmt.tracked_watchAll hcalls body)
  | .caseOf _ clauses otherwise =>
    .bind (.reading _) fun v => .bind (Stmt.tracked_watchFirst hcalls v clauses) fun found => by
      cases found with
      | true => exact .pure ()
      | false => exact Stmt.tracked_watchAll hcalls otherwise
  | .call name args =>
    .bind (Expr.tracked_watchAll hcalls args) fun vs => tracked_callProcedure hcalls name vs
  | .giveBack value => .bind (Expr.tracked_watch hcalls value) fun _ => .still fun _ => rfl

theorem Stmt.tracked_watchAll (hcalls : TracksCalls first (invokeAt rounds n) (watchAt rounds n)) :
    ∀ stmts : List Stmt,
    Tracked first (Stmt.performAll rounds (invokeAt rounds n) stmts)
      (Stmt.watchAll rounds (watchAt rounds n) stmts)
  | [] => .pure ()
  | stmt :: stmts =>
    .bind (.completing (Stmt.tracked_watch hcalls stmt) stmt) fun _ =>
      Stmt.tracked_watchAll hcalls stmts

theorem Stmt.tracked_watchFirst (hcalls : TracksCalls first (invokeAt rounds n) (watchAt rounds n))
    (v : Value) : ∀ clauses : List (Expr × Stmt),
    Tracked first (Stmt.performFirst rounds (invokeAt rounds n) v clauses)
      (Stmt.watchFirst rounds (watchAt rounds n) v clauses)
  | [] => .pure false
  | (value, stmt) :: clauses =>
    .bind (Expr.tracked_watch hcalls value) fun _ =>
      .ite (.bind (.completing (Stmt.tracked_watch hcalls stmt) stmt) fun _ => .pure true)
        (Stmt.tracked_watchFirst hcalls v clauses)

end

end Statements

/-- By induction on the number of calls that may still be nested. -/
theorem tracked_watchAt (first : Machine) (rounds : Nat) : ∀ n,
    TracksCalls first (invokeAt rounds n) (watchAt rounds n) := by
  intro n
  induction n with
  | zero => exact fun _ _ => .fail _
  | succ n ih =>
    exact fun sub args => .activation (Stmt.tracked_watchAll ih sub.body) sub.params args

theorem recorded_watch (rounds : Nat) (p : Program) (m : Machine) :
    Recorded (m.load p) (fun _ => True) (p.run rounds m) (p.watch rounds m) :=
  Stmt.tracked_watchAll (tracked_watchAt _ rounds callLimit) p.statements _
  (Course.from_start _) trivial

/-- Without what is put down, a watched run is the run. -/
theorem Program.plain_watch (rounds : Nat) (p : Program) (m : Machine) :
    Watch.plain (p.watch rounds m) = p.run rounds m := by
  have h := recorded_watch rounds p m
  generalize p.run rounds m = r, p.watch rounds m = r' at h
  cases h <;> rfl

theorem Program.from_course (rounds : Nat) (p : Program) (m : Machine) :
    (p.course rounds m).From (m.load p) := by
  have h := recorded_watch rounds p m
  unfold course
  generalize p.run rounds m = r, p.watch rounds m = r' at h
  cases h with
  | ok _ hc _ => exact hc
  | error _ hc => exact hc

end Chalkboard
