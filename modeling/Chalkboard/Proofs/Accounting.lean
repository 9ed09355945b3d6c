import Chalkboard.Session
import Chalkboard.Proofs.Course

/-! # What the trace accounts for

Every line is printed at the end of an `OUTPUT`, and every answer is asked for and taken near the
end of an `INPUT`, so that the statements that came to their end account for the whole talk between
a program and its user. Only an `INPUT` that fails once it has asked leaves a question that belongs
to no completed statement, and then nothing happens any more. The run is followed under watch, so
that the moment is known at which such an `INPUT` began.
-/

namespace Chalkboard

open Exec
open Machine (outputOf promptsOf completedOf)

def Stmt.isOutput : Stmt → Bool
  | output _ => true
  | _ => false

def Stmt.inputName? : Stmt → Option String
  | input name => some name
  | _ => none

/-- A history, the latest first, in which every line was printed right before the end of an `OUTPUT`
and every answer was asked for right before the end of an `INPUT` of that name. -/
inductive Accounted : List Event → Prop where
  | nil : Accounted []
  | entered {es : List Event} (env : Environment) : Accounted es → Accounted (.entered env :: es)
  | output {es : List Event} (line : String) (exprs : List Expr) (env : Environment) :
      Accounted es → Accounted (.completed (.output exprs) env :: .printed line :: es)
  | input {es : List Event} (name : String) (env : Environment) :
      Accounted es → Accounted (.completed (.input name) env :: .asked name :: es)
  | silent {es : List Event} {stmt : Stmt} (env : Environment) : stmt.isOutput = false →
      stmt.inputName? = none → Accounted es → Accounted (.completed stmt env :: es)

namespace Accounted

variable {es : List Event}

theorem length_outputOf (h : Accounted es) :
    (outputOf es).length = (completedOf es).countP (·.1.isOutput) := by
  induction h with
  | nil => rfl
  | entered env _ ih => exact ih
  | output line exprs env _ ih =>
    simpa [outputOf, completedOf, List.filterMap_cons, Event.printed?, Event.completed?,
      Stmt.isOutput] using ih
  | input name env _ ih =>
    simpa [outputOf, completedOf, List.filterMap_cons, Event.printed?, Event.completed?,
      Stmt.isOutput] using ih
  | silent env hout _ _ ih =>
    simpa [outputOf, completedOf, List.filterMap_cons, Event.printed?, Event.completed?, hout]
      using ih

theorem promptsOf_eq (h : Accounted es) :
    promptsOf es = (completedOf es).filterMap (·.1.inputName?) := by
  induction h with
  | nil => rfl
  | entered env _ ih => exact ih
  | output line exprs env _ ih =>
    simpa [promptsOf, completedOf, List.filterMap_cons, Event.asked?, Event.completed?,
      Stmt.inputName?] using ih
  | input name env _ ih =>
    simpa [promptsOf, completedOf, List.filterMap_cons, Event.asked?, Event.completed?,
      Stmt.inputName?] using ih
  | silent env _ hin _ ih =>
    simpa [promptsOf, completedOf, List.filterMap_cons, Event.asked?, Event.completed?, hin]
      using ih

/-- The line of an `OUTPUT` is the last thing that happened before its end. -/
theorem printed_before {exprs : List Expr} {env : Environment} {before : List Event}
    (h : Accounted es) : ∀ {after : List Event},
      es = after ++ .completed (.output exprs) env :: before →
      ∃ line earlier, before = .printed line :: earlier ∧ Accounted earlier := by
  induction h with
  | nil => simp
  | entered env' _ ih =>
    rintro (_ | ⟨e, after⟩) heq
    · simp at heq
    · exact ih (List.cons.inj heq).2
  | @output es line exprs' env' hes ih =>
    rintro (_ | ⟨e, _ | ⟨e', after⟩⟩) heq
    · exact ⟨line, es, (List.cons.inj heq).2.symm, hes⟩
    · simp at heq
    · exact ih (List.cons.inj (List.cons.inj heq).2).2
  | input name env' _ ih =>
    rintro (_ | ⟨e, _ | ⟨e', after⟩⟩) heq
    · simp at heq
    · simp at heq
    · exact ih (List.cons.inj (List.cons.inj heq).2).2
  | silent env' hout _ _ ih =>
    rintro (_ | ⟨e, after⟩) heq
    · obtain ⟨⟨rfl, _⟩, _⟩ : (_ ∧ _) ∧ _ := by simpa using heq
      simp [Stmt.isOutput] at hout
    · exact ih (List.cons.inj heq).2

end Accounted

/-- The machine has an accounted history, and took from the given answers one for each question. -/
structure Balanced (answers : List String) (m : Machine) : Prop where
  accounted : Accounted m.history
  taken : ∃ read, answers = read ++ m.answers ∧ read.length = (promptsOf m.history).length

/-- An `INPUT` of this name asked and then stopped, and nothing has happened since, but that the
subroutines around it were left. -/
structure FailedInput (name : String) (stop : Stop) (before m : Machine) : Prop where
  failed : ∃ m', (∀ rounds call, (Stmt.input name).perform rounds call before = .error stop m') ∧
    m'.answers = m.answers ∧ m'.memory = m.memory ∧ m'.history = m.history
  history : m.history = .asked name :: before.history

/-- How a course breaks off: its machine is balanced still, or an `INPUT` has failed which began at
one of its moments, when the machine was balanced. -/
inductive BrokenOff (answers : List String) (stop : Stop) (c : Course) : Prop where
  | balanced : Balanced answers c.machine → (∀ name, stop ≠ .error (.noInput name)) →
      BrokenOff answers stop c
  | asking {name : String} {s : Moment} : s ∈ c.moments → Balanced answers s.machine →
      FailedInput name stop s.machine c.machine → BrokenOff answers stop c

section Machines

variable {answers : List String} {stop : Stop} {m m' : Machine}

theorem Balanced.of_eq (h : Balanced answers m) (hhistory : m'.history = m.history)
    (hanswers : m'.answers = m.answers) : Balanced answers m' where
  accounted := hhistory ▸ h.accounted
  taken := by
    rw [hhistory, hanswers]
    exact h.taken

theorem Balanced.enter (h : Balanced answers m) (frame : Frame) :
    Balanced answers (m.enter frame) :=
  ⟨.entered _ h.accounted, h.taken⟩

theorem Balanced.leave (h : Balanced answers m) (caller : Machine) :
    Balanced answers (caller.leave m) :=
  h.of_eq rfl rfl

theorem BrokenOff.leave {c : Course} (h : BrokenOff answers stop c) (caller : Machine) :
    BrokenOff answers stop (c.note .left (caller.leave c.machine)) := by
  cases h with
  | balanced h hstop => exact .balanced (h.leave caller) hstop
  | asking hs hbefore h =>
    exact .asking (Course.mem_moments_note hs ..) hbefore ⟨h.failed, h.history⟩

theorem Balanced.silent {stmt : Stmt} (h : Balanced answers m) (hout : stmt.isOutput = false)
    (hin : stmt.inputName? = none) : Balanced answers (m.record (.completed stmt m.env)) :=
  ⟨.silent _ hout hin h.accounted, h.taken⟩

theorem Balanced.printed {exprs : List Expr} (h : Balanced answers m) (line : String) :
    Balanced answers ((m.record (.printed line)).record (.completed (.output exprs) m.env)) :=
  ⟨.output line exprs _ h.accounted, h.taken⟩

theorem Balanced.answered {answer : String} {rest : List String} (h : Balanced answers m)
    (hanswers : m.answers = answer :: rest) (name : String) (env : Environment) :
    Balanced answers ⟨env, rest, m.returning,
      .completed (.input name) env :: .asked name :: m.history⟩ := by
  refine ⟨.input name env h.accounted, ?_⟩
  obtain ⟨read, hread, hlength⟩ := h.taken
  refine ⟨read ++ [answer], by simp [hread, hanswers], ?_⟩
  simpa [promptsOf, List.filterMap_cons, Event.asked?] using hlength

end Machines

section Inputs

variable {name : String} {m : Machine}

theorem perform_input_of_refused {e : RuntimeError} (h : m.env.checkWritable name = .error e)
    (rounds : Nat) (call : CallRule) :
    (Stmt.input name).perform rounds call m = .error (.error e) m :=
  bind_of_error (reading_of_error h)

theorem perform_input_of_nil (h : m.env.checkWritable name = .ok ()) (hnil : m.answers = [])
    (rounds : Nat) (call : CallRule) : (Stmt.input name).perform rounds call m =
      .error (.error (.noInput name)) (m.record (.asked name)) :=
  (bind_of_ok (reading_of_ok h)).trans (bind_of_error (ask_of_nil hnil))

section Answered

variable {answer : String} {rest : List String} (h : m.env.checkWritable name = .ok ())
  (hcons : m.answers = answer :: rest)

include h hcons

theorem perform_input_of_cons (rounds : Nat) (call : CallRule) :
    (Stmt.input name).perform rounds call m =
      changing (·.store name none (.ofAnswer answer))
        { m.record (.asked name) with answers := rest } :=
  (bind_of_ok (reading_of_ok h)).trans (bind_of_ok (ask_of_cons hcons))

theorem perform_input_of_rejected {e : RuntimeError}
    (hstore : m.env.store name none (.ofAnswer answer) = .error e) (rounds : Nat)
    (call : CallRule) : (Stmt.input name).perform rounds call m =
      .error (.error e) { m.record (.asked name) with answers := rest } :=
  (perform_input_of_cons h hcons rounds call).trans (changing_of_error hstore)

theorem perform_input_of_stored {env : Environment}
    (hstore : m.env.store name none (.ofAnswer answer) = .ok env) (rounds : Nat)
    (call : CallRule) : (Stmt.input name).perform rounds call m =
      .ok () { m.record (.asked name) with answers := rest, env := env } :=
  (perform_input_of_cons h hcons rounds call).trans (changing_of_ok hstore)

end Answered

end Inputs

namespace Watch

variable {answers : List String} {α β : Type} {P Q : α → Course → Prop}

/-- The result is as promised, or the action broke off. -/
def Ends (answers : List String) (Q : α → Course → Prop) : EStateM.Result Stop Course α → Prop
  | .ok a c => Q a c
  | .error stop c => BrokenOff answers stop c

/-- From a balanced machine, the action leads to what is promised. -/
def Leads (answers : List String) (y : Watch α) (Q : α → Course → Prop) : Prop :=
  ∀ c, Balanced answers c.machine → Ends answers Q (y c)

abbrev KeepsBalance (answers : List String) (y : Watch α) : Prop :=
  Leads answers y fun _ c => Balanced answers c.machine

/-- The machine is balanced again as soon as the end of the statement is put down. -/
abbrev Closes (answers : List String) (stmt : Stmt) (y : Watch Unit) : Prop :=
  Leads answers y fun _ c => Balanced answers (c.machine.record (.completed stmt c.machine.env))

namespace Leads

theorem andThen {y : Watch α} {g : α → Watch β} {Q : β → Course → Prop} (hy : Leads answers y P)
    (hg : ∀ a c, P a c → Ends answers Q (g a c)) : Leads answers (y >>= g) Q := by
  intro c hc
  have hend := hy c hc
  cases h : y c with
  | ok a c' =>
    rw [h] at hend
    rw [bind_of_ok h]
    exact hg a c' hend
  | error stop c' =>
    rw [h] at hend
    rw [bind_of_error h]
    exact hend

theorem bind {y : Watch α} {g : α → Watch β} {Q : β → Course → Prop}
    (hy : KeepsBalance answers y) (hg : ∀ a, Leads answers (g a) Q) : Leads answers (y >>= g) Q :=
  hy.andThen hg

theorem ite {c : Prop} [Decidable c] {y y' : Watch α} (h : Leads answers y Q)
    (h' : Leads answers y' Q) : Leads answers (if c then y else y') Q := by
  split
  · exact h
  · exact h'

theorem pure (a : α) : KeepsBalance answers (pure a) := fun _ hc => hc

theorem machine : KeepsBalance answers Watch.machine := fun _ hc => hc

/-- A step that neither talks nor completes anything, and does not miss an answer. -/
theorem doing {deed : Deed} {x : Exec α} (hhistory : ∀ m, (x.final m).history = m.history)
    (hanswers : ∀ m, (x.final m).answers = m.answers)
    (hstop : ∀ m name, x.outcome m ≠ .error (.error (.noInput name))) :
    KeepsBalance answers (doing deed x) := by
  intro c hc
  have hkept := hc.of_eq (hhistory c.machine) (hanswers c.machine)
  cases h : x c.machine with
  | ok a m =>
    rw [doing_of_ok h]
    rwa [final_of_ok h] at hkept
  | error stop m =>
    rw [doing_of_error h]
    rw [final_of_error h] at hkept
    refine .balanced hkept fun name heq => hstop c.machine name ?_
    rw [outcome_of_error h, heq]

theorem fail {e : RuntimeError} (he : ∀ name, e ≠ .noInput name) :
    KeepsBalance answers (Watch.doing .still (Exec.fail e : Exec α)) :=
  doing (fun _ => rfl) (fun _ => rfl) fun _ name h => he name (by injection h with h; injection h)

theorem lift {r : Except RuntimeError α} (hr : NotAsking r) :
    KeepsBalance answers (Watch.doing .still (Exec.lift r)) := by
  cases r with
  | ok a => exact doing (fun _ => rfl) (fun _ => rfl) fun _ _ h => nomatch h
  | error e => exact fail fun name h => hr name (congrArg Except.error h)

theorem reading {f : Environment → Except RuntimeError α} (hf : Environment.Reads f) :
    KeepsBalance answers (Watch.doing .still (Exec.reading f)) :=
  fun c => lift (hf.notAsking c.machine.env) c

theorem changing {deed : Deed} {f : Environment → Except RuntimeError Environment}
    (hf : Environment.Writes f) : KeepsBalance answers (Watch.doing deed (Exec.changing f)) := by
  intro c hc
  cases h : f c.machine.env with
  | ok env =>
    rw [doing_of_ok (changing_of_ok h)]
    exact hc.of_eq rfl rfl
  | error e =>
    rw [doing_of_error (changing_of_error h)]
    refine .balanced hc fun name he => hf.notAsking c.machine.env name ?_
    injection he with he
    rw [h, he]

theorem iterate {round : Watch Bool} (hround : KeepsBalance answers round) :
    ∀ n, KeepsBalance answers (iterate n round) := by
  intro n
  induction n with
  | zero => exact fun c hc => .balanced hc (by simp)
  | succ n ih => exact .bind hround fun again => .ite ih (pure ())

theorem calling (name : String) {g : Option Subroutine → Watch α}
    (hg : ∀ sub, Leads answers (g sub) Q) :
    Leads answers (do g ((← Watch.machine).env.subroutine? name)) Q :=
  machine.bind fun m => hg (m.env.subroutine? name)

theorem callFunction {call : WatchRule} (hcall : ∀ sub args, KeepsBalance answers (call sub args))
    (name : String) (args : List Value) : KeepsBalance answers (callFunction call name args) := by
  unfold Watch.callFunction
  cases Builtin.call? name args with
  | some v => exact pure v
  | none =>
    refine calling name (g := calledFunction call name args) fun sub => ?_
    cases sub with
    | none => exact fail (by simp)
    | some sub => exact ite (hcall sub args) (fail (by simp))

theorem callProcedure {call : WatchRule} (hcall : ∀ sub args, KeepsBalance answers (call sub args))
    (name : String) (args : List Value) : KeepsBalance answers (callProcedure call name args) := by
  refine calling name (g := calledProcedure call name args) fun sub => ?_
  cases sub with
  | none => exact fail (by simp)
  | some sub => exact bind (hcall sub args) fun _ => pure ()

theorem completing {stmt : Stmt} {work : Watch Unit} (hwork : Closes answers stmt work) :
    KeepsBalance answers (completing stmt work) :=
  machine.bind fun _ => .ite (pure ()) (hwork.andThen fun _ _ hc => hc)

/-- To leave a subroutine changes nothing of what has happened, on every way out. -/
theorem activation {body : Watch Unit} (hbody : KeepsBalance answers body) (frame : Frame) :
    KeepsBalance answers (activation frame body) := by
  intro c hc
  have hend := hbody (c.note .entered (c.machine.enter frame)) (hc.enter frame)
  cases h : body (c.note .entered (c.machine.enter frame)) with
  | ok u after =>
    rw [h] at hend
    rw [activation_of_ok h]
    exact Balanced.leave hend c.machine
  | error stop after =>
    rw [h] at hend
    rw [activation_of_error h]
    exact BrokenOff.leave hend c.machine

theorem silent {stmt : Stmt} {y : Watch Unit} (hy : KeepsBalance answers y)
    (hout : stmt.isOutput = false := by rfl) (hin : stmt.inputName? = none := by rfl) :
    Closes answers stmt y := by
  intro c hc
  have hend := hy c hc
  cases h : y c with
  | ok u c' =>
    rw [h] at hend
    exact Balanced.silent hend hout hin
  | error stop c' =>
    rw [h] at hend
    exact hend

end Leads

theorem closes_print (line : String) (exprs : List Expr) :
    Closes answers (.output exprs) (doing .still (print line)) :=
  fun _ hc => hc.printed line

/-- An `INPUT` is refused before it asks, misses an answer, or takes one, which is stored or
refused. -/
theorem closes_input (rounds : Nat) (call : WatchRule) (name : String) :
    Closes answers (.input name) ((Stmt.input name).watch rounds call) := by
  intro c hc
  rw [Stmt.watch]
  cases hwritable : c.machine.env.checkWritable name with
  | error e =>
    have hread : Exec.reading (·.checkWritable name) c.machine = _ := reading_of_error hwritable
    rw [bind_of_error (doing_of_error hread)]
    refine .balanced hc fun other he => c.machine.env.notAsking_checkWritable name other ?_
    injection he with he
    rw [hwritable, he]
  | ok u =>
    have hread : Exec.reading (·.checkWritable name) c.machine = _ := reading_of_ok hwritable
    rw [bind_of_ok (doing_of_ok hread)]
    have hbegan : c.now ∈ (c.note .still c.machine).moments :=
      Course.mem_moments_note c.now_mem_moments ..
    cases ha : c.machine.answers with
    | nil =>
      have hask : ask name (c.note .still c.machine).machine = _ := ask_of_nil ha
      rw [bind_of_error (doing_of_error hask)]
      exact .asking (Course.mem_moments_note hbegan ..) hc
        ⟨⟨_, perform_input_of_nil hwritable ha, rfl, rfl, rfl⟩, rfl⟩
    | cons answer rest =>
      have hask : ask name (c.note .still c.machine).machine = _ := ask_of_cons ha
      rw [bind_of_ok (doing_of_ok hask)]
      let asked : Machine := { c.machine.record (.asked name) with answers := rest }
      cases hstore : c.machine.env.store name none (.ofAnswer answer) with
      | error e =>
        have hchange : Exec.changing (·.store name none (.ofAnswer answer)) asked = _ :=
          changing_of_error hstore
        rw [doing_of_error hchange]
        exact .asking (Course.mem_moments_note (Course.mem_moments_note hbegan ..) ..) hc
          ⟨⟨_, perform_input_of_rejected hwritable ha hstore, rfl, rfl, rfl⟩, rfl⟩
      | ok env =>
        have hchange : Exec.changing (·.store name none (.ofAnswer answer)) asked = _ :=
          changing_of_ok hstore
        rw [doing_of_ok hchange]
        exact hc.answered ha name env

end Watch

section Programs

open Environment
open Watch (KeepsBalance Closes Leads)

variable {answers : List String} {rounds : Nat} {call : WatchRule}

mutual

theorem Expr.keepsBalance_watch (hcall : ∀ sub args, KeepsBalance answers (call sub args)) :
    ∀ e : Expr, KeepsBalance answers (e.watch call)
  | .literal v => .pure v
  | .var name field => .reading (reads_read name field)
  | .element array index =>
    .bind (Expr.keepsBalance_watch hcall index) fun v => .reading (reads_readElement array v)
  | .call name args =>
    .bind (Expr.keepsBalance_watchAll hcall args) fun vs => .callFunction hcall name vs
  | .binary _ left right =>
    .bind (Expr.keepsBalance_watch hcall left) fun _ =>
      .bind (Expr.keepsBalance_watch hcall right) fun _ => .pure _
  | .unary _ operand => .bind (Expr.keepsBalance_watch hcall operand) fun _ => .pure _

theorem Expr.keepsBalance_watchAll (hcall : ∀ sub args, KeepsBalance answers (call sub args)) :
    ∀ es : List Expr, KeepsBalance answers (Expr.watchAll call es)
  | [] => .pure []
  | e :: es =>
    .bind (Expr.keepsBalance_watch hcall e) fun _ =>
      .bind (Expr.keepsBalance_watchAll hcall es) fun _ => .pure _

end

theorem keepsBalance_forTo (hcall : ∀ sub args, KeepsBalance answers (call sub args))
    {counter : String} {start stop step : Expr} {body : List Stmt}
    (hbody : KeepsBalance answers (Stmt.watchAll rounds call body)) :
    KeepsBalance answers ((Stmt.forTo counter start stop step body).watch rounds call) := by
  rw [Stmt.watch]
  refine .bind (start.keepsBalance_watch hcall) fun first => ?_
  refine .bind (.changing (writes_bindCounter counter first)) fun _ => ?_
  refine .bind (step.keepsBalance_watch hcall) fun step =>
    .ite (.iterate ?_ rounds) (.fail (by simp))
  refine .bind (.reading (reads_readCounter counter)) fun x => ?_
  refine .bind (stop.keepsBalance_watch hcall) fun stop =>
    .ite (.pure false) (.bind hbody fun _ => ?_)
  refine .bind .machine fun m => .ite (.pure false) ?_
  refine .bind (.reading (reads_readCounter counter)) fun x => ?_
  exact .bind (.changing (writes_writeCounter counter _)) fun _ => .pure true

mutual

/-- By recursion on the statement: all but `OUTPUT` and `INPUT` keep the balance at every step. -/
theorem Stmt.closes_watch (hcall : ∀ sub args, KeepsBalance answers (call sub args)) :
    ∀ s : Stmt, Closes answers s (s.watch rounds call)
  | .declare names type => by
    rw [Stmt.watch]
    exact Leads.silent (.changing (writes_declare names type))
  | .declareArray names lower upper element =>
    Leads.silent (.bind (lower.keepsBalance_watch hcall) fun lower =>
      .bind (upper.keepsBalance_watch hcall) fun upper =>
        .changing (writes_declareArrays names lower upper element))
  | .constant name value =>
    Leads.silent (.bind (value.keepsBalance_watch hcall) fun v =>
      .changing (writes_declareConstant name v))
  | .assign name field value =>
    Leads.silent (.bind (.reading (reads_checkWritable name)) fun _ =>
      .bind (value.keepsBalance_watch hcall) fun v => .changing (writes_store name field v))
  | .assignElement array index value =>
    Leads.silent (.bind (.reading (reads_array array)) fun _ =>
      .bind (index.keepsBalance_watch hcall) fun i =>
        .bind (.lift (notAsking_index array i)) fun i =>
        .bind (value.keepsBalance_watch hcall) fun v => .changing (writes_storeElement array i v))
  | .output exprs =>
    .bind (Expr.keepsBalance_watchAll hcall exprs) fun _ => Watch.closes_print _ exprs
  | .input name => Watch.closes_input rounds call name
  | .ifElse condition yes no =>
    Leads.silent (.bind (condition.keepsBalance_watch hcall) fun _ =>
      .ite (keepsBalance_watchAll hcall yes) (keepsBalance_watchAll hcall no))
  | .whileDo condition body =>
    Leads.silent (.iterate (.bind (condition.keepsBalance_watch hcall) fun _ =>
      .ite (.bind (keepsBalance_watchAll hcall body) fun _ => .pure true) (.pure false)) rounds)
  | .repeatUntil body condition =>
    Leads.silent (.iterate (.bind (keepsBalance_watchAll hcall body) fun _ =>
      .bind (condition.keepsBalance_watch hcall) fun _ => .pure _) rounds)
  | .forTo counter start stop step body =>
    Leads.silent (keepsBalance_forTo hcall (keepsBalance_watchAll hcall body))
  | .caseOf subject clauses otherwise =>
    Leads.silent (.bind (.reading (reads_read subject none)) fun v =>
      .bind (keepsBalance_watchFirst hcall v clauses) fun found => by
        cases found with
        | true => exact .pure ()
        | false => exact keepsBalance_watchAll hcall otherwise)
  | .call name args =>
    Leads.silent (.bind (Expr.keepsBalance_watchAll hcall args) fun vs =>
      .callProcedure hcall name vs)
  | .giveBack value =>
    Leads.silent (.bind (value.keepsBalance_watch hcall) fun _ =>
      .doing (fun _ => rfl) (fun _ => rfl) fun _ _ h => nomatch h)

theorem Stmt.keepsBalance_watchAll (hcall : ∀ sub args, KeepsBalance answers (call sub args)) :
    ∀ stmts : List Stmt, KeepsBalance answers (Stmt.watchAll rounds call stmts)
  | [] => .pure ()
  | stmt :: stmts =>
    .bind (.completing (Stmt.closes_watch hcall stmt)) fun _ =>
      Stmt.keepsBalance_watchAll hcall stmts

theorem Stmt.keepsBalance_watchFirst (hcall : ∀ sub args, KeepsBalance answers (call sub args))
    (v : Value) :
    ∀ clauses : List (Expr × Stmt), KeepsBalance answers (Stmt.watchFirst rounds call v clauses)
  | [] => .pure false
  | (value, stmt) :: clauses =>
    .bind (value.keepsBalance_watch hcall) fun _ =>
      .ite (.bind (.completing (Stmt.closes_watch hcall stmt)) fun _ => .pure true)
        (Stmt.keepsBalance_watchFirst hcall v clauses)

end

/-- By induction on the number of calls that may still be nested. -/
theorem keepsBalance_watchAt (answers : List String) (rounds : Nat) : ∀ n sub args,
    KeepsBalance answers (watchAt rounds n sub args) := by
  intro n
  induction n with
  | zero => exact fun _ _ => .fail (by simp)
  | succ n ih => exact fun sub args => .activation (Stmt.keepsBalance_watchAll ih sub.body) _

end Programs

/-- However a run ends: the machine is balanced and no answer is missing, or an `INPUT` has failed
that began at one of the moments of the run. -/
theorem ending_cases (rounds : Nat) (p : Program) (answers : List String) :
    let ending := (p.run rounds).outcome (Machine.start answers)
    let m := (p.run rounds).final (Machine.start answers)
    (Balanced answers m ∧ ∀ name, ending ≠ .error (.error (.noInput name))) ∨
    ∃ name stop, ∃ s ∈ (p.course rounds (Machine.start answers)).moments, ending = .error stop ∧
      Balanced answers s.machine ∧ FailedInput name stop s.machine m := by
  intro ending m
  have hend : Watch.Ends answers (fun _ c => Balanced answers c.machine)
      (p.watch rounds (Machine.start answers)) :=
    Stmt.keepsBalance_watchAll (keepsBalance_watchAt answers rounds callLimit) _ _
      ⟨.nil, [], rfl, rfl⟩
  have hplain := p.plain_watch rounds (Machine.start answers)
  unfold Program.course
  cases hrun : p.watch rounds (Machine.start answers) with
  | ok u c =>
    rw [hrun] at hend hplain
    have hm : m = c.machine := final_of_ok hplain.symm
    have hending : ending = .ok () := outcome_of_ok hplain.symm
    rw [hm, hending]
    exact .inl ⟨hend, fun _ h => nomatch h⟩
  | error stop c =>
    rw [hrun] at hend hplain
    have hm : m = c.machine := final_of_error hplain.symm
    have hending : ending = .error stop := outcome_of_error hplain.symm
    rw [hm, hending]
    cases hend with
    | balanced hbalanced hstop =>
      exact .inl ⟨hbalanced, fun name heq => hstop name (by injection heq)⟩
    | asking hs hbefore hfailed => exact .inr ⟨_, stop, _, hs, rfl, hbefore, hfailed⟩

/-- Each `OUTPUT` that came to its end printed one line right before, and no other line was
printed. -/
structure LinesPrinted (events : List Event) : Prop where
  count : (outputOf events).length = (completedOf events).countP (·.1.isOutput)
  printed : ∀ before exprs env after, events = before ++ .completed (.output exprs) env :: after →
    ∃ earlier line, before = earlier ++ [.printed line] ∧
      (outputOf events)[(completedOf earlier).countP (·.1.isOutput)]? = some line

theorem Accounted.linesPrinted {es : List Event} (h : Accounted es) : LinesPrinted es.reverse := by
  have hcount : ∀ {es : List Event}, Accounted es →
      (outputOf es.reverse).length = (completedOf es.reverse).countP (·.1.isOutput) := by
    intro es h
    simpa [outputOf, completedOf, List.filterMap_reverse] using h.length_outputOf
  refine ⟨hcount h, fun before exprs env after heq => ?_⟩
  have hes : es = after.reverse ++ .completed (.output exprs) env :: before.reverse := by
    simpa using congrArg List.reverse heq
  obtain ⟨line, earlier, hbefore, hearlier⟩ := h.printed_before hes
  have hbefore : before = earlier.reverse ++ [.printed line] := by
    simpa using congrArg List.reverse hbefore
  refine ⟨earlier.reverse, line, hbefore, ?_⟩
  have houtput : outputOf es.reverse = outputOf earlier.reverse ++ line :: outputOf after := by
    rw [heq, hbefore]
    simp [outputOf, List.filterMap_cons, Event.printed?]
  rw [houtput, ← hcount hearlier, List.getElem?_append_right (Nat.le_refl _), Nat.sub_self]
  rfl

theorem LinesPrinted.asked {events : List Event} (h : LinesPrinted events) (name : String) :
    LinesPrinted (events ++ [.asked name]) := by
  have houtput : outputOf (events ++ [.asked name]) = outputOf events := by
    simp [outputOf, List.filterMap_cons, Event.printed?]
  refine ⟨?_, fun before exprs env after heq => ?_⟩
  · rw [houtput, h.count]
    simp [completedOf, List.filterMap_cons, Event.completed?]
  · rw [houtput]
    rcases List.eq_nil_or_concat after with rfl | ⟨after, e, rfl⟩
    · have hlast := congrArg List.getLast? heq
      simp at hlast
    · rw [List.concat_eq_append, ← List.cons_append, ← List.append_assoc] at heq
      exact h.printed before exprs env after (List.append_inj_left' heq rfl)

namespace Balanced

variable {answers : List String} {m : Machine} (h : Balanced answers m)

include h

theorem prompts_eq : m.prompts = m.trace.filterMap (·.1.inputName?) := by
  have hprompts := congrArg List.reverse h.accounted.promptsOf_eq
  simpa [Machine.prompts, Machine.trace, Machine.events, promptsOf, completedOf,
    List.filterMap_reverse, Function.comp_def] using hprompts

theorem answers_taken : ∃ read, answers = read ++ m.answers ∧ read.length = m.prompts.length := by
  obtain ⟨read, hread, hlength⟩ := h.taken
  refine ⟨read, hread, hlength.trans ?_⟩
  simp [Machine.prompts, Machine.events, promptsOf, List.filterMap_reverse]

end Balanced

section FailedInputs

variable {answers : List String} {name : String} {stop : Stop} {before m : Machine}
  (h : FailedInput name stop before m)

include h

theorem FailedInput.events_eq : m.events = before.events ++ [.asked name] := by
  simp [Machine.events, h.history]

theorem FailedInput.prompts_eq : m.prompts = before.prompts ++ [name] := by
  rw [Machine.prompts, h.events_eq]
  simp [Machine.prompts, promptsOf, Event.asked?]

theorem FailedInput.trace_eq : m.trace = before.trace := by
  rw [Machine.trace, h.events_eq]
  simp [Machine.trace, completedOf, List.filterMap_cons, Event.completed?]

/-- No answer was left, or one was taken and then refused. -/
theorem FailedInput.answers_cases :
    (stop = .error (.noInput name) ∧ m.answers = before.answers) ∨
    ((∀ other, stop ≠ .error (.noInput other)) ∧
      ∃ answer, before.answers = answer :: m.answers) := by
  obtain ⟨m', hrun, hanswers, _, hhistory⟩ := h.failed
  have hrun := hrun 0 fun _ _ => fail (.noInput name)
  cases hwritable : before.env.checkWritable name with
  | error e =>
    rw [perform_input_of_refused hwritable] at hrun
    cases hrun
    have hlength := congrArg List.length (hhistory.trans h.history)
    simp at hlength
  | ok u =>
    cases ha : before.answers with
    | nil =>
      rw [perform_input_of_nil hwritable ha] at hrun
      cases hrun
      exact .inl ⟨rfl, hanswers.symm.trans ha⟩
    | cons answer rest =>
      cases hstore : before.env.store name none (.ofAnswer answer) with
      | error e =>
        rw [perform_input_of_rejected hwritable ha hstore] at hrun
        cases hrun
        refine .inr ⟨fun other he => ?_, answer, ?_⟩
        · injection he with he
          exact before.env.notAsking_store name none (.ofAnswer answer) other (he ▸ hstore)
        · rw [← hanswers]
      | ok env =>
        rw [perform_input_of_stored hwritable ha hstore] at hrun
        cases hrun

/-- The answers that were taken after all: one fewer than the questions if the last one was in
vain. -/
theorem FailedInput.answers_taken (hbefore : Balanced answers before) :
    ∃ read, answers = read ++ m.answers ∧
      (∀ other, stop = .error (.noInput other) → read.length + 1 = m.prompts.length) ∧
      ((∀ other, stop ≠ .error (.noInput other)) → read.length = m.prompts.length) := by
  obtain ⟨read, hread, hlength⟩ := hbefore.answers_taken
  rw [h.prompts_eq, List.length_append, ← hlength]
  rcases h.answers_cases with ⟨hstop, hanswers⟩ | ⟨hstop, answer, hanswers⟩
  · exact ⟨read, hanswers ▸ hread, fun _ _ => rfl, fun hne => absurd hstop (hne name)⟩
  · refine ⟨read ++ [answer], ?_, fun other heq => absurd heq (hstop other), fun _ => ?_⟩
    · simp [hread, hanswers]
    · simp

end FailedInputs

/-- Statements that are carried out to the end have done nothing at all, or the last thing that
happened is the end of a statement, and it shows memory as it is then. -/
theorem Stmt.performAll_shows {rounds : Nat} {call : CallRule} {stmts : List Stmt} :
    ∀ {m m' : Machine}, Stmt.performAll rounds call stmts m = .ok () m' →
      m' = m ∨ ∃ stmt earlier, m'.history = .completed stmt m'.env :: earlier := by
  induction stmts with
  | nil =>
    intro m m' h
    cases h
    exact .inl rfl
  | cons stmt stmts ih =>
    intro m m' h
    obtain ⟨_, m₁, hfirst, hrest⟩ := bind_eq_ok h
    rcases ih hrest with rfl | hshown
    · cases hr : m.returning.isSome with
      | true =>
        rw [completing_of_returning hr] at hfirst
        cases hfirst
        exact .inl rfl
      | false =>
        cases hwork : stmt.perform rounds call m with
        | ok u m₂ =>
          rw [completing_of_ok hr hwork] at hfirst
          cases hfirst
          exact .inr ⟨stmt, m₂.history, rfl⟩
        | error stop m₂ =>
          rw [completing_of_error hr hwork] at hfirst
          cases hfirst
    · exact .inr hshown

theorem memory_shown_last {rounds : Nat} {p : Program} {answers : List String}
    (h : (p.run rounds).outcome (Machine.start answers) = .ok ()) {shown : Stmt × Frame}
    (hlast : ((p.run rounds).final (Machine.start answers)).trace.getLast? = some shown) :
    shown.2 = ((p.run rounds).final (Machine.start answers)).memory := by
  cases hrun : p.run rounds (Machine.start answers) with
  | error stop m =>
    rw [outcome_of_error hrun] at h
    cases h
  | ok u m =>
    rw [final_of_ok hrun] at hlast ⊢
    obtain ⟨_, m₁, hload, hstmts⟩ := bind_eq_ok hrun
    cases hload
    rcases Stmt.performAll_shows hstmts with rfl | ⟨stmt, earlier, hhistory⟩
    · cases hlast
    · have htrace : m.trace.getLast? = some (stmt, m.env.globals) := by
        simp [Machine.trace, Machine.events, hhistory, completedOf, Event.completed?]
      rw [htrace] at hlast
      cases hlast
      rfl

/-- The statements that came to their end account for all that is printed and asked, however the run
ends. There is one line for each `OUTPUT`, printed right before its end. The questions are those of
the `INPUT`s, and at most one more, which is the last thing that happens and comes from an `INPUT`
that began at a moment of the run and fails. An answer is taken for each question, except for one
that ends the run for lack of an answer. After a run without an error, the last statement shows the
memory that is left. -/
theorem trace_accounts_for_talk (rounds : Nat) (p : Program) (answers : List String) :
    let ending := (p.run rounds).outcome (Machine.start answers)
    let m := (p.run rounds).final (Machine.start answers)
    m.output.length = m.trace.countP (·.1.isOutput) ∧
    (∀ before exprs env after, m.events = before ++ .completed (.output exprs) env :: after →
      ∃ earlier line, before = earlier ++ [.printed line] ∧
        m.output[(completedOf earlier).countP (·.1.isOutput)]? = some line) ∧
    ((m.prompts = m.trace.filterMap (·.1.inputName?) ∧
        ∀ name, ending ≠ .error (.error (.noInput name))) ∨
      ∃ name stop, ∃ s ∈ (p.course rounds (Machine.start answers)).moments,
        m.prompts = m.trace.filterMap (·.1.inputName?) ++ [name] ∧
        m.events.getLast? = some (.asked name) ∧ ending = .error stop ∧
        FailedInput name stop s.machine m) ∧
    (∃ read, answers = read ++ m.answers ∧
      (∀ name, ending = .error (.error (.noInput name)) → read.length + 1 = m.prompts.length) ∧
      ((∀ name, ending ≠ .error (.error (.noInput name))) → read.length = m.prompts.length)) ∧
    (ending = .ok () → ∀ shown, m.trace.getLast? = some shown → shown.2 = m.memory) := by
  intro ending m
  have hcount : m.trace.countP (·.1.isOutput) = (completedOf m.events).countP (·.1.isOutput) := by
    simp [Machine.trace, List.countP_map, Function.comp_def]
  have hshown : ending = .ok () → ∀ shown, m.trace.getLast? = some shown → shown.2 = m.memory :=
    fun hending _ => memory_shown_last hending
  rw [hcount]
  rcases ending_cases rounds p answers with
    ⟨hm, hmissing⟩ | ⟨name, stop, s, hs, hstop, hbefore, hfailed⟩
  · have hlines : LinesPrinted m.events := hm.accounted.linesPrinted
    obtain ⟨read, hread, hlength⟩ := hm.answers_taken
    refine ⟨hlines.count, hlines.printed, .inl ⟨hm.prompts_eq, hmissing⟩,
      ⟨read, hread, ?_, ?_⟩, hshown⟩
    · exact fun name heq => absurd heq (hmissing name)
    · exact fun _ => hlength
  · have hlines : LinesPrinted m.events := by
      rw [hfailed.events_eq]
      exact hbefore.accounted.linesPrinted.asked name
    have hending : ending = .error stop := hstop
    refine ⟨hlines.count, hlines.printed, .inr ⟨name, stop, s, hs, ?_, ?_, hending, hfailed⟩, ?_,
      hshown⟩
    · rw [hfailed.prompts_eq, hfailed.trace_eq, hbefore.prompts_eq]
    · simp [m, hfailed.events_eq]
    · simpa [hending] using hfailed.answers_taken hbefore

/-- A program that asks twice and prints in between, with both answers and with one only. -/
theorem trace_accounts_for_talk_names :
    let p : Program := ⟨[.statement (.declare ["name"] "STRING"), .statement (.input "Name"),
      .statement (.output [.literal (.text "Hello "), .var "name" none]),
      .statement (.input "name")]⟩
    let two := (p.run 1).final (Machine.start ["Ada", "Bob"])
    let one := (p.run 1).final (Machine.start ["Ada"])
    ((p.run 1).outcome (Machine.start ["Ada", "Bob"]) = .ok () ∧ two.output = ["Hello Ada"] ∧
      ∀ shown, two.trace.getLast? = some shown → shown.2 = two.memory) ∧
    (p.run 1).outcome (Machine.start ["Ada"]) = .error (.error (.noInput "name")) ∧
      one.prompts = ["Name", "name"] ∧ ∃ read, ["Ada"] = read ++ one.answers ∧
      read.length + 1 = 2 := by
  intro p two one
  have htwo : (p.run 1).outcome (Machine.start ["Ada", "Bob"]) = .ok () := by
    subst p
    rfl
  have hone : (p.run 1).outcome (Machine.start ["Ada"]) = .error (.error (.noInput "name")) := by
    subst p
    rfl
  have hline : two.output = ["Hello Ada"] := by
    subst two p
    rfl
  have hprompts : one.prompts = ["Name", "name"] := by
    subst one p
    rfl
  obtain ⟨_, _, _, _, hshown⟩ := trace_accounts_for_talk 1 p ["Ada", "Bob"]
  obtain ⟨_, _, _, ⟨read, hread, hlength, _⟩, _⟩ := trace_accounts_for_talk 1 p ["Ada"]
  refine ⟨⟨htwo, hline, hshown htwo⟩, hone, hprompts, read, hread, ?_⟩
  rw [hlength "name" hone]
  exact congrArg List.length hprompts

end Chalkboard
