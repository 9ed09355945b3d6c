import Chalkboard.Proofs.CallDepth
import Chalkboard.Proofs.DeclarationOrder
import Chalkboard.Proofs.MoreRounds

/-! # Programs without loops

Only loops use up rounds, and calls nest no deeper than the limit on active calls. So a program
without loops ends, with success or with an error, however its subroutines call each other: it needs
no rounds at all, and if its calls are carried out as deep as they go, one level more than the limit
is never reached.
-/

namespace Chalkboard

open Exec

mutual

/-- No loop is in the statement or inside of it. -/
def Stmt.loopFree : Stmt → Bool
  | .whileDo .. | .repeatUntil .. | .forTo .. => false
  | .ifElse _ yes no => Stmt.loopFreeAll yes && Stmt.loopFreeAll no
  | .caseOf _ clauses otherwise => Stmt.loopFreeClauses clauses && Stmt.loopFreeAll otherwise
  | .declare .. | .declareArray .. | .constant .. | .assign .. | .assignElement .. | .output _
  | .input _ | .call .. | .giveBack _ => true

def Stmt.loopFreeAll : List Stmt → Bool
  | [] => true
  | stmt :: stmts => stmt.loopFree && Stmt.loopFreeAll stmts

def Stmt.loopFreeClauses : List (Expr × Stmt) → Bool
  | [] => true
  | (_, stmt) :: clauses => stmt.loopFree && Stmt.loopFreeClauses clauses

end

def Subroutine.loopFree (sub : Subroutine) : Bool := Stmt.loopFreeAll sub.body

def Program.loopFree (p : Program) : Bool :=
  Stmt.loopFreeAll p.statements && p.subroutines.all Subroutine.loopFree

/-- All subroutines that can be called are without loops. -/
def Machine.LoopFree (m : Machine) : Prop :=
  ∀ name sub, m.env.subroutine? name = some sub → sub.loopFree = true

theorem Machine.LoopFree.of_subroutines {m m' : Machine} (h : m.LoopFree)
    (heq : m'.env.subroutines = m.env.subroutines) : m'.LoopFree := by
  intro name sub hsub
  rw [Environment.subroutine?, heq] at hsub
  exact h name sub hsub

theorem Machine.loopFree_load {p : Program} (h : p.subroutines.all Subroutine.loopFree = true)
    (m : Machine) : (m.load p).LoopFree := by
  intro name sub hsub
  have hlast : p.lastSubroutine? name = some sub :=
    (Environment.subroutine?_ofProgram p name) ▸ hsub
  have hmem := List.mem_of_find?_eq_some hlast
  exact List.all_eq_true.mp h sub (List.mem_reverse.mp hmem)

namespace Exec

variable {α β : Type}

/-- Where no subroutine has a loop, the action comes to its end or to an error, and leaves the
subroutines as they are if it comes to its end. -/
def Finishes (x : Exec α) : Prop :=
  ∀ m, m.LoopFree → (∃ a m', x m = .ok a m' ∧ m'.LoopFree) ∨ ∃ e m', x m = .error (.error e) m'

namespace Finishes

theorem pure (a : α) : Finishes (pure a) := fun m hm => .inl ⟨a, m, rfl, hm⟩

theorem fail (e : RuntimeError) : Finishes (fail e : Exec α) := fun m _ => .inr ⟨e, m, rfl⟩

theorem lift (r : Except RuntimeError α) : Finishes (lift r) := by
  cases r with
  | ok a => exact pure a
  | error e => exact fail e

theorem reading (f : Environment → Except RuntimeError α) : Finishes (reading f) :=
  fun m hm => lift (f m.env) m hm

theorem changing {f : Environment → Except RuntimeError Environment} (hf : Environment.Writes f) :
    Finishes (changing f) := by
  intro m hm
  cases h : f m.env with
  | ok env =>
    rw [changing_of_ok h]
    exact .inl ⟨(), _, rfl, hm.of_subroutines (hf.fixtures h).subroutines⟩
  | error e =>
    rw [changing_of_error h]
    exact .inr ⟨e, m, rfl⟩

theorem bind {x : Exec α} {f : α → Exec β} (hx : Finishes x) (hf : ∀ a, Finishes (f a)) :
    Finishes (x >>= f) := by
  intro m hm
  rcases hx m hm with ⟨a, m', h, hm'⟩ | ⟨e, m', h⟩
  · rw [bind_of_ok h]
    exact hf a m' hm'
  · exact .inr ⟨e, m', bind_of_error h⟩

theorem ite {c : Prop} [Decidable c] {x y : Exec α} (hx : Finishes x) (hy : Finishes y) :
    Finishes (if c then x else y) := by
  split
  · exact hx
  · exact hy

theorem modify {f : Machine → Machine} (hf : ∀ m, (f m).env = m.env) :
    Finishes (modify f : Exec Unit) :=
  fun m hm => .inl ⟨(), f m, rfl, hm.of_subroutines (congrArg Environment.subroutines (hf m))⟩

theorem ask (name : String) : Finishes (ask name) := by
  intro m hm
  cases h : m.answers with
  | nil => exact .inr ⟨_, _, ask_of_nil h⟩
  | cons answer answers => exact .inl ⟨answer, _, ask_of_cons h, hm⟩

theorem completing {work : Exec Unit} (hwork : Finishes work) (stmt : Stmt) :
    Finishes (completing stmt work) := by
  intro m hm
  cases hr : m.returning.isSome with
  | true => exact .inl ⟨(), m, completing_of_returning hr stmt work, hm⟩
  | false =>
    rcases hwork m hm with ⟨_, m', h, hm'⟩ | ⟨e, m', h⟩
    · exact .inl ⟨(), _, completing_of_ok hr h, hm'⟩
    · exact .inr ⟨e, m', completing_of_error hr h⟩

/-- A call works on the subroutines that its caller has, and leaves them to it. -/
theorem activation {body : Exec Unit} (hbody : Finishes body) (frame : Frame) :
    Finishes (activation frame body) := by
  intro m hm
  have hentered : (m.enter frame).LoopFree := hm
  rcases hbody (m.enter frame) hentered with ⟨_, after, h, hafter⟩ | ⟨e, after, h⟩
  · exact .inl ⟨_, _, activation_of_ok h, hafter⟩
  · exact .inr ⟨e, _, activation_of_error h⟩

end Finishes

end Exec

def CallRule.Finishes (call : CallRule) : Prop :=
  ∀ sub args, sub.loopFree = true → Exec.Finishes (call sub args)

section Statements

variable {rounds : Nat} {call : CallRule}

theorem finishes_callFunction (hcall : call.Finishes) (name : String) (args : List Value) :
    Finishes (callFunction call name args) := by
  intro m hm
  rcases callFunction_cases call name args m with ⟨v, h⟩ | ⟨e, h⟩ | ⟨sub, -, hsub, h⟩
  · exact .inl ⟨v, m, h, hm⟩
  · exact .inr ⟨e, m, h⟩
  · rw [h]
    exact hcall sub args (hm name sub hsub) m hm

theorem finishes_callProcedure (hcall : call.Finishes) (name : String) (args : List Value) :
    Finishes (callProcedure call name args) := by
  have hcalled : ∀ m : Machine, m.LoopFree →
      Finishes (calledProcedure call name args (m.env.subroutine? name)) := by
    intro m hm
    cases hsub : m.env.subroutine? name with
    | none => exact .fail _
    | some sub => exact (hcall sub args (hm name sub hsub)).bind fun _ => .pure ()
  intro m hm
  rw [callProcedure_eq]
  exact hcalled m hm m hm

mutual

theorem Expr.finishes_eval (hcall : call.Finishes) : ∀ e : Expr, Finishes (e.eval call)
  | .literal v => .pure v
  | .var _ _ => .reading _
  | .element _ index => .bind (Expr.finishes_eval hcall index) fun _ => .reading _
  | .call name args =>
    .bind (Expr.finishes_evalAll hcall args) fun vs => finishes_callFunction hcall name vs
  | .binary _ left right =>
    .bind (Expr.finishes_eval hcall left) fun _ =>
      .bind (Expr.finishes_eval hcall right) fun _ => .pure _
  | .unary _ operand => .bind (Expr.finishes_eval hcall operand) fun _ => .pure _

theorem Expr.finishes_evalAll (hcall : call.Finishes) :
    ∀ es : List Expr, Finishes (Expr.evalAll call es)
  | [] => .pure []
  | e :: es =>
    .bind (Expr.finishes_eval hcall e) fun _ =>
      .bind (Expr.finishes_evalAll hcall es) fun _ => .pure _

end

open Environment

mutual

/-- By recursion on the statement: what is inside of it ends, and only loops do more than that. -/
theorem Stmt.finishes_perform (hcall : call.Finishes) :
    ∀ s : Stmt, s.loopFree = true → Finishes (s.perform rounds call)
  | .declare names type, _ => by
    rw [Stmt.perform]
    exact .changing (writes_declare names type)
  | .declareArray names lower upper element, _ =>
    .bind (Expr.finishes_eval hcall lower) fun lower =>
      .bind (Expr.finishes_eval hcall upper) fun upper =>
      .changing (writes_declareArrays names lower upper element)
  | .constant name value, _ =>
    .bind (Expr.finishes_eval hcall value) fun v => .changing (writes_declareConstant name v)
  | .assign name field value, _ =>
    .bind (.reading _) fun _ => .bind (Expr.finishes_eval hcall value) fun v =>
      .changing (writes_store name field v)
  | .assignElement array index value, _ =>
    .bind (.reading _) fun _ => .bind (Expr.finishes_eval hcall index) fun _ =>
      .bind (.lift _) fun i =>
      .bind (Expr.finishes_eval hcall value) fun v => .changing (writes_storeElement array i v)
  | .output exprs, _ => .bind (Expr.finishes_evalAll hcall exprs) fun _ => .modify fun _ => rfl
  | .input name, _ =>
    .bind (.reading _) fun _ => .bind (.ask name) fun answer =>
      .changing (writes_store name none (.ofAnswer answer))
  | .ifElse condition yes no, h => by
    obtain ⟨hyes, hno⟩ : loopFreeAll yes = true ∧ loopFreeAll no = true := by
      simpa [Stmt.loopFree] using h
    exact .bind (Expr.finishes_eval hcall condition) fun _ =>
      .ite (Stmt.finishes_performAll hcall yes hyes) (Stmt.finishes_performAll hcall no hno)
  | .whileDo .., h => absurd h Bool.false_ne_true
  | .repeatUntil .., h => absurd h Bool.false_ne_true
  | .forTo .., h => absurd h Bool.false_ne_true
  | .caseOf subject clauses otherwise, h => by
    obtain ⟨hclauses, hotherwise⟩ : loopFreeClauses clauses = true ∧
        loopFreeAll otherwise = true := by
      simpa [Stmt.loopFree] using h
    rw [Stmt.perform]
    refine .bind (.reading _) fun v =>
      .bind (Stmt.finishes_performFirst hcall v clauses hclauses) fun found => ?_
    cases found with
    | true => exact .pure ()
    | false => exact Stmt.finishes_performAll hcall otherwise hotherwise
  | .call name args, _ =>
    .bind (Expr.finishes_evalAll hcall args) fun vs => finishes_callProcedure hcall name vs
  | .giveBack value, _ => .bind (Expr.finishes_eval hcall value) fun _ => .modify fun _ => rfl

theorem Stmt.finishes_performAll (hcall : call.Finishes) :
    ∀ stmts : List Stmt, Stmt.loopFreeAll stmts = true →
    Finishes (Stmt.performAll rounds call stmts)
  | [], _ => .pure ()
  | stmt :: stmts, h => by
    obtain ⟨hstmt, hstmts⟩ : stmt.loopFree = true ∧ loopFreeAll stmts = true := by
      simpa [Stmt.loopFreeAll] using h
    exact .bind ((Stmt.finishes_perform hcall stmt hstmt).completing stmt) fun _ =>
      Stmt.finishes_performAll hcall stmts hstmts

theorem Stmt.finishes_performFirst (hcall : call.Finishes) (v : Value) :
    ∀ clauses : List (Expr × Stmt),
    Stmt.loopFreeClauses clauses = true → Finishes (Stmt.performFirst rounds call v clauses)
  | [], _ => .pure false
  | (value, stmt) :: clauses, h => by
    obtain ⟨hstmt, hclauses⟩ : stmt.loopFree = true ∧ loopFreeClauses clauses = true := by
      simpa [Stmt.loopFreeClauses] using h
    exact .bind (Expr.finishes_eval hcall value) fun _ =>
      .ite (.bind ((Stmt.finishes_perform hcall stmt hstmt).completing stmt) fun _ => .pure true)
        (Stmt.finishes_performFirst hcall v clauses hclauses)

end

end Statements

/-- By induction on the number of calls that may still be nested. -/
theorem finishes_invokeAt (rounds n : Nat) : (invokeAt rounds n).Finishes := by
  induction n with
  | zero => exact fun _ _ _ => .fail _
  | succ n ih => exact fun sub _ h => (Stmt.finishes_performAll ih sub.body h).activation _

/-- Carry out a call as far as its calls inside of each other go: each looks at the active calls
itself, and nothing but a bound on the levels keeps them from going on without end. -/
def invokeWithin (rounds : Nat) : Nat → CallRule
  | 0, _, _ => throw .unfinished
  | levels + 1, sub, args => fun m =>
    if callLimit ≤ m.env.depth then fail (.tooManyCalls sub.name callLimit) m
    else activation (Environment.ofArguments sub.params args)
      (Stmt.performAll rounds (invokeWithin rounds levels) sub.body) m

/-- Take up the declarations of a program and execute its statements, with calls inside of each
other down to a bound on the levels. -/
def Program.runWithin (rounds levels : Nat) (p : Program) : Exec Unit := do
  modify (Machine.load p)
  Stmt.performAll rounds (invokeWithin rounds levels) p.statements

/-- The bound on the levels is never reached if there are more of them than calls that may still be
nested: by induction on that number, since each level of calls is one more active call. -/
theorem invokeWithin_eq {rounds n levels : Nat} (h : n < levels) {sub : Subroutine}
    {args : List Value} {m : Machine} (hroom : m.HasRoom n) :
    invokeWithin rounds levels sub args m = invokeAt rounds n sub args m := by
  induction n generalizing levels sub args m with
  | zero =>
    obtain ⟨levels, rfl⟩ := Nat.exists_eq_add_one_of_ne_zero (Nat.ne_of_gt h)
    have hfull : callLimit - m.env.depth = 0 := hroom
    show (if callLimit ≤ m.env.depth then _ else _) = _
    rw [if_pos (Nat.sub_eq_zero_iff_le.mp hfull)]
    rfl
  | succ n ih =>
    obtain ⟨levels, rfl⟩ := Nat.exists_eq_add_one_of_ne_zero (Nat.ne_zero_of_lt h)
    have hleft : callLimit - m.env.depth = n + 1 := hroom
    have hcalls : InStep _ (invokeAt rounds n) (invokeWithin rounds levels) :=
      inStep_of_hasRoom fun _ _ _ hroom => ih (Nat.lt_of_succ_lt_succ h) hroom
    have hbody := SameFrom.apply_eq (hcalls.performAll rounds sub.body)
      (hroom.enter (Environment.ofArguments sub.params args))
    show (if callLimit ≤ m.env.depth then _ else _) = _
    rw [if_neg (by omega), invokeAt, activation, activation, hbody]

theorem Program.runWithin_eq {levels : Nat} (h : callLimit < levels) (rounds : Nat) (p : Program)
    (m : Machine) : p.runWithin rounds levels m = p.run rounds m := by
  have hroom : (m.load p).HasRoom callLimit := by
    show callLimit - (Environment.ofProgram p).depth = callLimit
    rw [Environment.depth_ofProgram, Nat.sub_zero]
  have hcalls : InStep _ (invokeAt rounds callLimit) (invokeWithin rounds levels) :=
    inStep_of_hasRoom fun _ _ _ hroom => invokeWithin_eq h hroom
  rw [Program.runWithin, Program.run, load_bind, load_bind]
  exact (SameFrom.apply_eq (hcalls.performAll rounds p.statements) hroom).symm

/-- A program without loops ends, from every state and with any answers: it comes to its end or to
an error without a single round of a loop, its result is the same with any number of rounds, and
calls that are carried out as deep as they go give that same result, since they get no deeper than
the limit. -/
theorem loopFree_run_ends (p : Program) (h : p.loopFree = true) (m : Machine) :
    ((p.run 0).outcome m = .ok () ∨ ∃ e, (p.run 0).outcome m = .error (.error e)) ∧
    ∀ rounds, p.run rounds m = p.run 0 m ∧
      ∀ levels, callLimit < levels → p.runWithin rounds levels m = p.run 0 m := by
  obtain ⟨hstmts, hsubs⟩ : Stmt.loopFreeAll p.statements = true ∧
      p.subroutines.all Subroutine.loopFree = true := by
    simpa [Program.loopFree] using h
  have hrun : p.run 0 m = Stmt.performAll 0 (invokeAt 0 callLimit) p.statements (m.load p) := by
    rw [Program.run, load_bind]
  have hstatements : Finishes (Stmt.performAll 0 (invokeAt 0 callLimit) p.statements) :=
    Stmt.finishes_performAll (finishes_invokeAt 0 callLimit) p.statements hstmts
  have hfinishes := hstatements (m.load p) (Machine.loopFree_load hsubs m)
  rw [← hrun] at hfinishes
  have hsame : ∀ rounds, p.run rounds m = p.run 0 m := by
    intro rounds
    rcases cutShort_run (Nat.zero_le rounds) p m with ⟨m', hcut⟩ | heq
    · rcases hfinishes with ⟨_, _, hok, -⟩ | ⟨_, _, herror⟩
      · cases hcut.symm.trans hok
      · cases hcut.symm.trans herror
    · exact heq.symm
  refine ⟨?_, fun rounds => ⟨hsame rounds, fun levels hlevels => ?_⟩⟩
  · rcases hfinishes with ⟨_, _, hok, -⟩ | ⟨e, _, herror⟩
    · exact .inl (outcome_of_ok hok)
    · exact .inr ⟨e, outcome_of_error herror⟩
  · rw [Program.runWithin_eq hlevels, hsame]

section Runaway

variable {rounds n : Nat} {name name' : String} {sub sub' : Subroutine} {rest rest' : List Stmt}
  {stop : Stop} {m : Machine}

theorem outcome_performAll_of_call (hrunning : m.returning.isSome = false)
    (hsub : m.env.subroutine? name = some sub)
    (hcall : (invokeAt rounds n sub []).outcome m = .error stop) :
    (Stmt.performAll rounds (invokeAt rounds n) (.call name [] :: rest)).outcome m =
      .error stop := by
  obtain ⟨after, hstop⟩ := outcome_eq_error hcall
  have hargs : Expr.evalAll (invokeAt rounds n) [] m = .ok [] m := rfl
  have hwork : (Stmt.call name []).perform rounds (invokeAt rounds n) m = .error stop after := by
    rw [Stmt.perform, bind_of_ok hargs, callProcedure_eq]
    simp only [hsub]
    exact bind_of_error hstop
  exact outcome_of_error (bind_of_error (completing_of_error hrunning hwork))

theorem outcome_invokeAt_of_call (hbody : sub.body = .call name [] :: rest)
    (hsub : m.env.subroutine? name = some sub')
    (hcall : ∀ frame, (invokeAt rounds n sub' []).outcome (m.enter frame) = .error stop) :
    (invokeAt rounds (n + 1) sub []).outcome m = .error stop := by
  let entered := m.enter (Environment.ofArguments sub.params [])
  have hsub : entered.env.subroutine? name = some sub' := hsub
  have hstopped : (Stmt.performAll rounds (invokeAt rounds n) sub.body).outcome entered =
      .error stop := by
    rw [hbody]
    exact outcome_performAll_of_call rfl hsub (hcall _)
  obtain ⟨after, hstop⟩ := outcome_eq_error hstopped
  exact outcome_of_error (activation_of_error hstop)

/-- Procedures that call each other first of all are entered until no more calls may be nested. -/
theorem outcome_invokeAt_runaway (hbody : sub.body = .call name' [] :: rest)
    (hbody' : sub'.body = .call name [] :: rest') (n : Nat)
    (hsub : m.env.subroutine? name = some sub) (hsub' : m.env.subroutine? name' = some sub') :
    (invokeAt rounds (2 * n) sub []).outcome m =
      .error (.error (.tooManyCalls sub.name callLimit)) := by
  induction n generalizing m with
  | zero => rfl
  | succ n ih =>
    have hinner : ∀ frame, (invokeAt rounds (2 * n + 1) sub' []).outcome (m.enter frame) =
        .error (.error (.tooManyCalls sub.name callLimit)) := fun frame =>
      outcome_invokeAt_of_call hbody' hsub fun frame' => ih hsub hsub'
    exact outcome_invokeAt_of_call hbody hsub' hinner

end Runaway

/-- Two procedures that call each other twice without end are stopped by the limit on active
calls. -/
theorem loopFree_run_ends_runaway :
    let ping : Subroutine := ⟨"Ping", [], none, [.call "pong" [], .call "pong" []]⟩
    let pong : Subroutine := ⟨"Pong", [], none, [.call "ping" [], .call "ping" []]⟩
    let p : Program := ⟨[.statement (.call "ping" []), .subroutine ping, .subroutine pong]⟩
    let m := Machine.start ["7"]
    (p.loopFree = true ∧ callLimit < 201) ∧
      (p.run 0).outcome m = .error (.error (.tooManyCalls "Ping" 200)) ∧
      p.run 5 m = p.run 0 m ∧ p.runWithin 5 201 m = p.run 0 m := by
  intro ping pong p m
  have hfree : p.loopFree = true := by decide
  have hping : (m.load p).env.subroutine? "ping" = some ping := by
    subst m p pong ping
    rfl
  have hpong : (m.load p).env.subroutine? "pong" = some pong := by
    subst m p pong ping
    rfl
  have hcall : (invokeAt 0 callLimit ping []).outcome (m.load p) =
      .error (.error (.tooManyCalls "Ping" 200)) :=
    outcome_invokeAt_runaway rfl rfl 100 hping hpong
  have hmain : (Stmt.performAll 0 (invokeAt 0 callLimit) [.call "ping" []]).outcome (m.load p) =
      .error (.error (.tooManyCalls "Ping" 200)) :=
    outcome_performAll_of_call rfl hping hcall
  obtain ⟨after, hstop⟩ := outcome_eq_error hmain
  have hrun : p.run 0 m = .error (.error (.tooManyCalls "Ping" 200)) after := by
    rw [Program.run, load_bind]
    exact hstop
  obtain ⟨hsame, hlevels⟩ := (loopFree_run_ends p hfree m).2 5
  exact ⟨⟨hfree, by decide⟩, outcome_of_error hrun, hsame, hlevels 201 (by decide)⟩

end Chalkboard
