import Chalkboard.Proofs.OwnSteps
import Chalkboard.Proofs.Upholding

/-! # Statements that fail

A statement that fails before any statement has come to its end has left no mark, neither on the
output nor on memory: it checks before it writes, and what a call has done is gone with its frame.
Only the loops that were entered have bound their counters, and a loop without a body may have moved
its counter on.
-/

namespace Chalkboard

open Exec

section Counters

theorem Dict.insert_insert {α : Type} (d : Dict α) (k : String) (a b : α) :
    (d.insert k a).insert k b = d.insert k b := by
  have hentries : insertEntry k b (insertEntry k a d.entries) = insertEntry k b d.entries := by
    induction d.entries with
    | nil => simp [insertEntry]
    | cons entry rest ih => by_cases h : entry.1 = k <;> simp [insertEntry, h, ih]
  exact congrArg Dict.mk hentries

namespace Environment

theorem setCurrent_setCurrent (env : Environment) (frame frame' : Frame) :
    (env.setCurrent frame).setCurrent frame' = env.setCurrent frame' := by
  obtain ⟨globals, frames, types, subroutines⟩ := env
  cases frames <;> rfl

theorem bind_bind (env : Environment) (name : String) (cell cell' : Cell) :
    (env.bind name cell).bind name cell' = env.bind name cell' := by
  rw [bind, current_bind, Dict.insert_insert, bind, setCurrent_setCurrent, bind]

theorem writeCounter_bind (env : Environment) (name type : String) (v : Value) (x : Float) :
    (env.bind name (.scalar type v)).writeCounter name x =
    env.bind name (.scalar type (.number x)) := by
  have hcell : (env.bind name (.scalar type v)).current.get? (key name) =
      some (.scalar type v) := by simp
  rw [writeCounter, Dict.modify_eq_insert hcell]
  exact bind_bind env name _ _

theorem bindCounter_eq_ok {env env' : Environment} {counter : String} {v : Value}
    (h : env.bindCounter counter v = .ok env') : env' = env.bind counter (.scalar "INTEGER" v) := by
  unfold bindCounter at h
  split at h
  · cases h
  · cases h
    rfl

theorem bind_push (env : Environment) (frame : Frame) (name : String) (cell : Cell) :
    (env.push frame).bind name cell = env.push (frame.insert (key name) cell) := rfl

end Environment

end Counters

section CountingLoops

/-- The end of a round of a counting loop: the counter moves on, unless a value is on its way
back. -/
def moveOn (counter : String) (step : Float) : Exec Bool := do
  if (← get).returning.isSome then pure false
  else
    let x ← reading (·.readCounter counter)
    changing fun env => .ok (env.writeCounter counter (x + step))
    pure true

def countingRound (rounds : Nat) (call : CallRule) (counter : String) (stop : Expr) (step : Float)
    (body : List Stmt) : Exec Bool := do
  let x ← reading (·.readCounter counter)
  let stop := (← stop.eval call).toNumber
  if passed step x stop then pure false
  else
    Stmt.performAll rounds call body
    moveOn counter step

/-- What a counting loop does once its counter is bound. -/
def countOn (rounds : Nat) (call : CallRule) (counter : String) (stop step : Expr)
    (body : List Stmt) : Exec Unit := do
  let step := (← step.eval call).toNumber
  if 0.0 < step || step < 0.0 then iterate rounds (countingRound rounds call counter stop step body)
  else fail (.badStep counter)

theorem perform_forTo (rounds : Nat) (call : CallRule) (counter : String) (start stop step : Expr)
    (body : List Stmt) : (Stmt.forTo counter start stop step body).perform rounds call = (do
      let first ← start.eval call
      changing (·.bindCounter counter first)
      countOn rounds call counter stop step body) := by
  rw [Stmt.perform]
  rfl

theorem grows_moveOn (counter : String) (step : Float) : Moves Grows (moveOn counter step) := by
  refine respects_grows.bind respects_grows.get fun now => .ite (respects_grows.pure false) ?_
  exact respects_grows.bind (respects_grows.reading _) fun x =>
    respects_grows.bind (grows_changing _) fun _ => respects_grows.pure true

/-- Memory is as given, but that a counter has been bound. -/
def WithCounter (env : Environment) (counter : String) (env' : Environment) : Prop :=
  ∃ v, env' = env.bind counter (.scalar "INTEGER" v)

theorem upholds_moveOn (env : Environment) (counter : String) (step : Float) :
    Moves (Upholds (WithCounter env counter)) (moveOn counter step) := by
  have hE := chains_upholds (WithCounter env counter)
  refine hE.bind hE.get fun now => .ite (hE.pure false) (hE.bind (hE.reading _) fun x => ?_)
  refine hE.bind (fun m => .of_history rfl ?_) fun _ => hE.pure true
  rintro ⟨v, hv⟩
  refine ⟨.number (x + step), ?_⟩
  show m.env.writeCounter counter (x + step) = _
  rw [hv, Environment.writeCounter_bind]

end CountingLoops

section Blocks

variable (call : CallRule)

/-- How the clauses of a selection are gone through: the values are evaluated up to the one that is
the same as the given value, or all of them, and what is then to be executed are these
statements. -/
inductive Selects (v : Value) (otherwise : List Stmt) :
    List (Expr × Stmt) → Machine → List Stmt → Machine → Prop where
  | found {value : Expr} {stmt : Stmt} {clauses : List (Expr × Stmt)} {w : Value} {m m' : Machine} :
      value.eval call m = .ok w m' → w.same v = true →
      Selects v otherwise ((value, stmt) :: clauses) m [stmt] m'
  | next {value : Expr} {stmt : Stmt} {clauses : List (Expr × Stmt)} {w : Value} {m m₁ m' : Machine}
      {block : List Stmt} : value.eval call m = .ok w m₁ → w.same v = false →
      Selects v otherwise clauses m₁ block m' →
      Selects v otherwise ((value, stmt) :: clauses) m block m'
  | otherwise {m : Machine} : Selects v otherwise [] m otherwise m

/-- A statement that is begun in the first machine comes, for the first time, to this block of its
own in the second machine. -/
inductive Opens : Stmt → Machine → List Stmt → Machine → Prop where
  | yes {condition : Expr} {yes no : List Stmt} {v : Value} {m m' : Machine} :
      condition.eval call m = .ok v m' → v.isTrue = true → Opens (.ifElse condition yes no) m yes m'
  | no {condition : Expr} {yes no : List Stmt} {v : Value} {m m' : Machine} :
      condition.eval call m = .ok v m' → v.isTrue = false → Opens (.ifElse condition yes no) m no m'
  | whileDo {condition : Expr} {body : List Stmt} {v : Value} {m m' : Machine} :
      condition.eval call m = .ok v m' → v.isTrue = true → Opens (.whileDo condition body) m body m'
  | repeatUntil {body : List Stmt} {condition : Expr} {m : Machine} :
      Opens (.repeatUntil body condition) m body m
  | forTo {counter : String} {start stop step : Expr} {body : List Stmt} {first by_ last : Value}
      {env : Environment} {x : Float} {m m₁ m₂ m' : Machine} : start.eval call m = .ok first m₁ →
      m₁.env.bindCounter counter first = .ok env →
      step.eval call { m₁ with env := env } = .ok by_ m₂ →
      (0.0 < by_.toNumber || by_.toNumber < 0.0) = true → m₂.env.readCounter counter = .ok x →
      stop.eval call m₂ = .ok last m' → passed by_.toNumber x last.toNumber = false →
      Opens (.forTo counter start stop step body) m body m'
  | caseOf {subject : String} {clauses : List (Expr × Stmt)} {otherwise block : List Stmt}
      {v : Value} {m m' : Machine} : m.env.read subject none = .ok v →
      Selects call v otherwise clauses m block m' →
      Opens (.caseOf subject clauses otherwise) m block m'

/-- A statement that is begun in the given machine enters a loop over this counter before any
statement has come to its end: it is the loop itself, or comes to a block that begins with such a
statement. -/
inductive EntersLoop : Stmt → Machine → String → Prop where
  | loop {counter : String} {start stop step : Expr} {body : List Stmt} {first : Value}
      {env : Environment} {m m₁ : Machine} : start.eval call m = .ok first m₁ →
      m₁.env.bindCounter counter first = .ok env →
      EntersLoop (.forTo counter start stop step body) m counter
  | inside {stmt stmt' : Stmt} {rest : List Stmt} {m m' : Machine} {counter : String} :
      Opens call stmt m (stmt' :: rest) m' → EntersLoop stmt' m' counter → EntersLoop stmt m counter

/-- The condition on memory still holds when a loop that the statement enters has bound its
counter. -/
def AllowsLoops (E : Environment → Prop) (stmt : Stmt) (m : Machine) : Prop :=
  ∀ counter v env, EntersLoop call stmt m counter → E env →
    E (env.bind counter (.scalar "INTEGER" v))

/-- A statement that fails has upheld every condition that allows for the loops that it enters. -/
def Spares (rounds : Nat) (stmt : Stmt) : Prop :=
  ∀ E m stop m', m.returning = none → AllowsLoops call E stmt m →
    stmt.perform rounds call m = .error stop m' → Upholds E m m'

end Blocks

section Statements

variable {rounds : Nat} {call : CallRule} {E : Environment → Prop} {stmt : Stmt} {m m₁ : Machine}

theorem AllowsLoops.head {block : List Stmt} (h : AllowsLoops call E stmt m)
    (hopens : Opens call stmt m block m₁) : ∀ s ∈ block.head?, AllowsLoops call E s m₁ := by
  intro s hs counter v env henters
  obtain ⟨rest, rfl⟩ := List.head?_eq_some_iff.mp hs
  exact h counter v env (.inside hopens henters)

theorem spares_of_fails (h : Fails Untouched (stmt.perform rounds call)) :
    Spares call rounds stmt :=
  fun E m stop m' _ _ hm => (h m stop m' hm).upholds E

theorem completing_cases (hgrows : Moves Grows (stmt.perform rounds call))
    (hm : m.returning = none) : (∃ stop m', stmt.perform rounds call m = .error stop m' ∧
      completing stmt (stmt.perform rounds call) m = .error stop m') ∨
    (∃ m', completing stmt (stmt.perform rounds call) m = .ok () m' ∧ m.endings < m'.endings) := by
  have hnone : m.returning.isSome = false := by simp [hm]
  have hm' : m.endings ≤ ((stmt.perform rounds call).final m).endings := hgrows m
  cases h : stmt.perform rounds call m with
  | error stop m' => exact .inl ⟨stop, m', rfl, completing_of_error hnone h⟩
  | ok u m' =>
    refine .inr ⟨_, completing_of_ok hnone h, ?_⟩
    rw [final_of_ok h] at hm'
    rw [Machine.endings_record_completed]
    omega

section Calls

variable (hcall : ∀ sub args, Moves Untouched (call sub args))
  (hvars : ∀ sub args, Moves KeepsVariables (call sub args))

include hcall

theorem untouched_eval (e : Expr) : Moves Untouched (e.eval call) :=
  Expr.moves_eval chains_untouched e fun name _ => chains_untouched.callFunction hcall name

theorem untouched_evalAll (es : List Expr) : Moves Untouched (Expr.evalAll call es) :=
  Expr.moves_evalAll chains_untouched es fun name _ => chains_untouched.callFunction hcall name

theorem untouched_of_eval {e : Expr} {v : Value} (h : e.eval call m = .ok v m₁) :
    Untouched m m₁ := by
  have hm := untouched_eval hcall e m
  rwa [final_of_ok h] at hm

theorem upholds_eval (E : Environment → Prop) (e : Expr) : Moves (Upholds E) (e.eval call) :=
  (untouched_eval hcall e).mono fun h => h.upholds E

/-- A statement without blocks writes last, after all that can fail. -/
theorem Stmt.fails_perform (rounds : Nat) : ∀ stmt : Stmt, stmt.blocks = [] →
    Fails Untouched (stmt.perform rounds call)
  | .declare names type, _ => by
    rw [Stmt.perform]
    exact .changing chains_untouched _
  | .declareArray names lower upper element, _ =>
    .bind chains_untouched (untouched_eval hcall lower) fun _ =>
      .bind chains_untouched (untouched_eval hcall upper) fun _ => .changing chains_untouched _
  | .constant name value, _ =>
    .bind chains_untouched (untouched_eval hcall value) fun _ => .changing chains_untouched _
  | .assign name field value, _ =>
    .bind chains_untouched (chains_untouched.reading _) fun _ =>
      .bind chains_untouched (untouched_eval hcall value) fun _ => .changing chains_untouched _
  | .assignElement array index value, _ =>
    .bind chains_untouched (chains_untouched.reading _) fun _ =>
      .bind chains_untouched (untouched_eval hcall index) fun _ =>
        .bind chains_untouched (chains_untouched.lift _) fun _ =>
          .bind chains_untouched (untouched_eval hcall value) fun _ => .changing chains_untouched _
  | .output exprs, _ =>
    .bind chains_untouched (untouched_evalAll hcall exprs) fun _ _ _ _ h => nomatch h
  | .input name, _ =>
    .bind chains_untouched (chains_untouched.reading _) fun _ =>
      .bind chains_untouched (untouched_ask name) fun _ => .changing chains_untouched _
  | .call name args, _ =>
    .bind chains_untouched (untouched_evalAll hcall args) fun _ =>
      (chains_untouched.callProcedure hcall name _).fails
  | .giveBack value, _ =>
    .bind chains_untouched (untouched_eval hcall value) fun _ _ _ _ h => nomatch h

include hvars

theorem carried_grows : Carried (fun m m' => Grows m m' ∧ KeepsVariables m m') call :=
  respects_grows.carried (fun sub args => (hcall sub args).mono fun h =>
    (h.upholds fun _ => True).grows) hvars

theorem grows_perform (rounds : Nat) (stmt : Stmt) : Moves Grows (stmt.perform rounds call) :=
  ((carried_grows hcall hvars).perform rounds stmt).mono And.left

theorem grows_performAll (rounds : Nat) (stmts : List Stmt) :
    Moves Grows (Stmt.performAll rounds call stmts) :=
  ((carried_grows hcall hvars).performAll rounds stmts).mono And.left

theorem grows_eval (e : Expr) : Moves Grows (e.eval call) :=
  ((carried_grows hcall hvars).eval e).mono And.left

/-- A block that is not empty has ended its first statement when it is through. -/
theorem endings_lt_of_block {α : Type} {s : Stmt} {rest : List Stmt} {f : Unit → Exec α} {a : α}
    {m' : Machine} (hf : ∀ u, Moves Grows (f u)) (hm : m.returning = none)
    (h : (Stmt.performAll rounds call (s :: rest) >>= f) m = .ok a m') :
    m.endings < m'.endings := by
  have hrest : Moves Grows (Stmt.performAll rounds call rest >>= f) :=
    respects_grows.toChains.bind (grows_performAll hcall hvars rounds rest) hf
  rw [Stmt.performAll, bind_assoc] at h
  obtain ⟨_, m₁, hfirst, hafter⟩ := bind_eq_ok h
  have hm' := hrest m₁
  rw [final_of_ok hafter] at hm'
  rcases completing_cases (grows_perform hcall hvars rounds s) hm with
    ⟨_, _, _, herror⟩ | ⟨_, hok, hlt⟩
  · cases hfirst.symm.trans herror
  · cases hfirst.symm.trans hok
    exact Nat.lt_of_lt_of_le hlt hm'

/-- A block, with what is done after it, upholds what allows for the loops that its first statement
enters: this one fails, or it has come to its end. -/
theorem upholds_block {α : Type} {block : List Stmt} (hblock : ∀ s ∈ block, Spares call rounds s)
    (hE : ∀ s ∈ block.head?, AllowsLoops call E s m) (hm : m.returning = none) {f : Unit → Exec α}
    (hf : ∀ u, Moves Grows (f u)) (hempty : block = [] → Upholds E m ((f ()).final m)) :
    Upholds E m ((Stmt.performAll rounds call block >>= f).final m) := by
  cases block with
  | nil => exact hempty rfl
  | cons s rest =>
    have hrest : Moves Grows (Stmt.performAll rounds call rest >>= f) :=
      respects_grows.toChains.bind (grows_performAll hcall hvars rounds rest) hf
    rw [Stmt.performAll, bind_assoc]
    rcases completing_cases (grows_perform hcall hvars rounds s) hm with
      ⟨stop, m', hperform, h⟩ | ⟨m', h, hlt⟩
    · rw [final_bind_of_error h]
      exact hblock s List.mem_cons_self E m stop m' hm (hE s rfl) hperform
    · rw [final_bind_of_ok h]
      exact .of_lt (Nat.lt_of_lt_of_le hlt (hrest m'))

theorem upholds_lastBlock {block : List Stmt} (hblock : ∀ s ∈ block, Spares call rounds s)
    (hE : ∀ s ∈ block.head?, AllowsLoops call E s m) (hm : m.returning = none) :
    Upholds E m ((Stmt.performAll rounds call block).final m) := by
  have h := upholds_block hcall hvars hblock hE hm (fun u => respects_grows.pure u)
    fun _ => (chains_upholds E).refl m
  rwa [bind_pure] at h

theorem lastRound_block {s : Stmt} {rest : List Stmt}
    (hblock : ∀ t ∈ s :: rest, Spares call rounds t)
    (hE : ∀ t ∈ (s :: rest).head?, AllowsLoops call E t m) (hm : m.returning = none)
    {f : Unit → Exec Bool} (hf : ∀ u, Moves Grows (f u)) :
    LastRound E (Stmt.performAll rounds call (s :: rest) >>= f) m where
  upholds := upholds_block hcall hvars hblock hE hm hf nofun
  again _ h := endings_lt_of_block hcall hvars hf hm h

theorem spares_ifElse {condition : Expr} {yes no : List Stmt}
    (hyes : ∀ s ∈ yes, Spares call rounds s)
    (hno : ∀ s ∈ no, Spares call rounds s) : Spares call rounds (.ifElse condition yes no) := by
  intro E m stop m' hm hE h
  rw [← final_of_error h, Stmt.perform]
  refine upholds_bind (upholds_eval hcall E condition m) ?_
  intro v m₁ hv
  have hm₁ : m₁.returning = none := (untouched_of_eval hcall hv).returning.trans hm
  cases htrue : v.isTrue with
  | true => exact upholds_lastBlock hcall hvars hyes (hE.head (.yes hv htrue)) hm₁
  | false => exact upholds_lastBlock hcall hvars hno (hE.head (.no hv htrue)) hm₁

theorem spares_whileDo {condition : Expr} {body : List Stmt}
    (hbody : ∀ s ∈ body, Spares call rounds s) : Spares call rounds (.whileDo condition body) := by
  intro E m stop m' hm hE h
  have hE' := chains_upholds E
  rw [← final_of_error h, Stmt.perform]
  -- without a body no round ends a statement, and there may be many of them
  cases body with
  | nil =>
    exact hE'.iterate (hE'.bind (upholds_eval hcall E condition) fun _ =>
      .ite (hE'.bind (hE'.pure ()) fun _ => hE'.pure true) (hE'.pure false)) rounds m
  | cons s rest =>
    have hgo : ∀ u : Unit, Moves Grows (pure true : Exec Bool) := fun _ => respects_grows.pure true
    refine upholds_iterate ?_ (.bind (untouched_eval hcall condition) ?_) rounds
    · exact respects_grows.bind (grows_eval hcall hvars condition) fun _ =>
        .ite (respects_grows.bind (grows_performAll hcall hvars rounds _) hgo)
          (respects_grows.pure false)
    · intro v m₁ hv
      have hm₁ : m₁.returning = none := (untouched_of_eval hcall hv).returning.trans hm
      cases htrue : v.isTrue with
      | true => exact lastRound_block hcall hvars hbody (hE.head (.whileDo hv htrue)) hm₁ hgo
      | false => exact .stop E m₁

theorem spares_repeatUntil {body : List Stmt} {condition : Expr}
    (hbody : ∀ s ∈ body, Spares call rounds s) :
    Spares call rounds (.repeatUntil body condition) := by
  intro E m stop m' hm hE h
  have hE' := chains_upholds E
  rw [← final_of_error h, Stmt.perform]
  cases body with
  | nil =>
    exact hE'.iterate (hE'.bind (hE'.pure ()) fun _ =>
      hE'.bind (upholds_eval hcall E condition) fun _ =>
      hE'.pure _) rounds m
  | cons s rest =>
    have htest : ∀ u : Unit, Moves Grows (do return !(← condition.eval call).isTrue) := fun _ =>
      respects_grows.bind (grows_eval hcall hvars condition) fun _ => respects_grows.pure _
    refine upholds_iterate ?_ ?_ rounds
    · exact respects_grows.bind (grows_performAll hcall hvars rounds _) htest
    · exact lastRound_block hcall hvars hbody (hE.head .repeatUntil) hm htest

/-- The clauses are gone through from some clause on, so that what is found there is a block that
the whole selection opens. -/
theorem upholds_clauses {v : Value} {otherwise : List Stmt} (hE : AllowsLoops call E stmt m)
    (hotherwise : ∀ s ∈ otherwise, Spares call rounds s) :
    ∀ {clauses : List (Expr × Stmt)} {m₁ : Machine},
    (∀ c ∈ clauses, Spares call rounds c.2) → m₁.returning = none →
    (∀ block m₂, Selects call v otherwise clauses m₁ block m₂ → Opens call stmt m block m₂) →
    Upholds E m₁ ((do
      unless ← Stmt.performFirst rounds call v clauses do
        Stmt.performAll rounds call otherwise : Exec Unit).final m₁) := by
  intro clauses
  induction clauses with
  | nil =>
    intro m₁ _ hm₁ hopens
    exact upholds_lastBlock hcall hvars hotherwise (hE.head (hopens _ _ .otherwise)) hm₁
  | cons clause clauses ih =>
    intro m₁ hclauses hm₁ hopens
    obtain ⟨value, s⟩ := clause
    rw [Stmt.performFirst, bind_assoc]
    refine upholds_bind (upholds_eval hcall E value m₁) ?_
    intro w m₂ hw
    have hm₂ : m₂.returning = none := (untouched_of_eval hcall hw).returning.trans hm₁
    cases hsame : w.same v with
    | true =>
      -- the statement of a clause is a block of its own
      have hblock : ∀ t ∈ [s], Spares call rounds t := by
        simpa using hclauses (value, s) List.mem_cons_self
      have hfound := upholds_block hcall hvars hblock (hE.head (hopens _ _ (.found hw hsame))) hm₂
        (fun u => respects_grows.pure u) fun h => absurd h (List.cons_ne_nil s [])
      simpa [Stmt.performAll] using hfound
    | false =>
      refine ih (fun c hc => hclauses c (List.mem_cons_of_mem _ hc)) hm₂ ?_
      intro block m₃ hselects
      exact hopens block m₃ (.next hw hsame hselects)

theorem spares_caseOf {subject : String} {clauses : List (Expr × Stmt)} {otherwise : List Stmt}
    (hclauses : ∀ c ∈ clauses, Spares call rounds c.2)
    (hotherwise : ∀ s ∈ otherwise, Spares call rounds s) :
    Spares call rounds (.caseOf subject clauses otherwise) := by
  intro E m stop m' hm hE h
  rw [← final_of_error h, Stmt.perform]
  refine upholds_bind ((chains_upholds E).reading _ m) ?_
  intro v m₁ hv
  obtain ⟨hread, rfl⟩ := reading_eq_ok hv
  exact upholds_clauses hcall hvars hE hotherwise hclauses hm fun block m₂ => .caseOf hread

section CountingLoop

variable {counter : String} {start stop step : Expr} {first : Value} {env : Environment}
  (hstart : start.eval call m = .ok first m₁) (hbound : m₁.env.bindCounter counter first = .ok env)

include hstart hbound

omit hvars in
theorem upholds_countOn_nil (hE : AllowsLoops call E (.forTo counter start stop step []) m) :
    Upholds E { m₁ with env := env }
      ((countOn rounds call counter stop step []).final { m₁ with env := env }) := by
  have hC := chains_upholds (WithCounter m₁.env counter)
  have hloop : Moves (Upholds (WithCounter m₁.env counter))
      (countOn rounds call counter stop step []) := by
    refine hC.bind (upholds_eval hcall _ step) fun by_ => .ite (hC.iterate ?_ rounds) (hC.fail _)
    refine hC.bind (hC.reading _) fun _ => hC.bind (upholds_eval hcall _ stop) fun _ => ?_
    exact .ite (hC.pure false) (hC.bind (hC.pure ()) fun _ => upholds_moveOn m₁.env counter _)
  obtain ⟨hgrows, houtput, henv⟩ := hloop { m₁ with env := env }
  have hfirst := Environment.bindCounter_eq_ok hbound
  refine ⟨hgrows, houtput, fun hsame hEenv => ?_⟩
  -- the last value of the counter might as well have been bound right after the first one
  obtain ⟨v, hv⟩ := henv hsame ⟨first, hfirst⟩
  rw [hv, ← Environment.bind_bind m₁.env counter (.scalar "INTEGER" first), ← hfirst]
  exact hE counter v env (.loop hstart hbound) hEenv

/-- In a loop with a body only the first round matters, since it ends a statement if it comes
through. -/
theorem upholds_countOn_cons {s : Stmt} {rest : List Stmt}
    (hbody : ∀ t ∈ s :: rest, Spares call rounds t)
    (hm : m.returning = none)
    (hE : AllowsLoops call E (.forTo counter start stop step (s :: rest)) m) :
    Upholds E { m₁ with env := env }
      ((countOn rounds call counter stop step (s :: rest)).final { m₁ with env := env }) := by
  have hE' := chains_upholds E
  refine upholds_bind (upholds_eval hcall E step _) ?_
  intro by_ m₂ hstep
  have hm₂ : m₂.returning = none :=
    (untouched_of_eval hcall hstep).returning.trans
      ((untouched_of_eval hcall hstart).returning.trans hm)
  have hmove : ∀ u : Unit, Moves Grows (moveOn counter by_.toNumber) :=
    fun _ => grows_moveOn counter _
  cases hsign : (0.0 < by_.toNumber || by_.toNumber < 0.0) with
  | false =>
    simp only [hsign]
    exact hE'.refl m₂
  | true =>
    simp only [hsign]
    refine upholds_iterate ?_ ?_ rounds
    · refine respects_grows.bind (respects_grows.reading _) fun _ =>
        respects_grows.bind (grows_eval hcall hvars stop) fun _ =>
          .ite (respects_grows.pure false) ?_
      exact respects_grows.bind (grows_performAll hcall hvars rounds _) hmove
    · refine .bind (chains_untouched.reading _) fun x m₃ hx => ?_
      obtain ⟨hread, rfl⟩ := reading_eq_ok hx
      refine .bind (untouched_eval hcall stop) fun last m₄ hlast => ?_
      have hm₄ : m₄.returning = none := (untouched_of_eval hcall hlast).returning.trans hm₂
      cases hpassed : passed by_.toNumber x last.toNumber with
      | true =>
        simp only [hpassed]
        exact .stop E m₄
      | false =>
        simp only [hpassed]
        have hopens : Opens call (.forTo counter start stop step (s :: rest)) m (s :: rest) m₄ :=
          .forTo hstart hbound hstep hsign hread hlast hpassed
        exact lastRound_block hcall hvars hbody (hE.head hopens) hm₄ hmove

end CountingLoop

theorem spares_forTo {counter : String} {start stop step : Expr} {body : List Stmt}
    (hbody : ∀ s ∈ body, Spares call rounds s) :
    Spares call rounds (.forTo counter start stop step body) := by
  intro E m stop' m' hm hE h
  rw [← final_of_error h, perform_forTo]
  refine upholds_bind (upholds_eval hcall E start m) ?_
  intro first m₁ hstart
  cases hbound : m₁.env.bindCounter counter first with
  | error e =>
    rw [final_bind_of_error (changing_of_error hbound)]
    exact (chains_upholds E).refl m₁
  | ok env =>
    rw [final_bind_of_ok (changing_of_ok hbound)]
    have hcounter : Upholds E m₁ { m₁ with env := env } := .of_history rfl fun hEenv => by
      rw [Environment.bindCounter_eq_ok hbound]
      exact hE counter first m₁.env (.loop hstart hbound) hEenv
    refine (chains_upholds E).trans hcounter ?_
    cases body with
    | nil => exact upholds_countOn_nil hcall hstart hbound hE
    | cons s rest => exact upholds_countOn_cons hcall hvars hstart hbound hbody hm hE

end Calls

mutual

/-- By induction over the statement, since the first statement of each block spares memory. -/
theorem Stmt.spares (hcall : ∀ sub args, Moves Untouched (call sub args))
    (hvars : ∀ sub args, Moves KeepsVariables (call sub args)) (rounds : Nat) :
    ∀ stmt : Stmt, Spares call rounds stmt
  | .declare .. | .declareArray .. | .constant .. | .assign .. | .assignElement ..
      | .output _ | .input _
  | .call .. | .giveBack _ => spares_of_fails (Stmt.fails_perform hcall rounds _ rfl)
  | .ifElse _ yes no =>
    spares_ifElse hcall hvars (Stmt.sparesAll hcall hvars rounds yes)
      (Stmt.sparesAll hcall hvars rounds no)
  | .whileDo _ body => spares_whileDo hcall hvars (Stmt.sparesAll hcall hvars rounds body)
  | .repeatUntil body _ => spares_repeatUntil hcall hvars (Stmt.sparesAll hcall hvars rounds body)
  | .forTo _ _ _ _ body => spares_forTo hcall hvars (Stmt.sparesAll hcall hvars rounds body)
  | .caseOf _ clauses otherwise =>
    spares_caseOf hcall hvars (Stmt.sparesClauses hcall hvars rounds clauses)
      (Stmt.sparesAll hcall hvars rounds otherwise)

theorem Stmt.sparesAll (hcall : ∀ sub args, Moves Untouched (call sub args))
    (hvars : ∀ sub args, Moves KeepsVariables (call sub args)) (rounds : Nat) :
    ∀ stmts : List Stmt, ∀ s ∈ stmts, Spares call rounds s
  | [] => nofun
  | stmt :: stmts => List.forall_mem_cons.mpr
    ⟨Stmt.spares hcall hvars rounds stmt, Stmt.sparesAll hcall hvars rounds stmts⟩

theorem Stmt.sparesClauses (hcall : ∀ sub args, Moves Untouched (call sub args))
    (hvars : ∀ sub args, Moves KeepsVariables (call sub args)) (rounds : Nat) :
    ∀ clauses : List (Expr × Stmt), ∀ c ∈ clauses, Spares call rounds c.2
  | [] => nofun
  | (_, stmt) :: clauses => List.forall_mem_cons.mpr
    ⟨Stmt.spares hcall hvars rounds stmt, Stmt.sparesClauses hcall hvars rounds clauses⟩

end

end Statements

/-- The frame of a subroutine takes up all that its body does to memory before one of its statements
ends, and is gone in the end. -/
theorem untouched_leave {m after : Machine} {frame : Frame}
    (h : Upholds (fun env => ∃ frame', env = m.env.push frame') (m.enter frame) after) :
    Untouched m (m.leave after) := by
  have hentered : (m.enter frame).endings = m.endings := Machine.endings_record rfl
  have hleft : (m.leave after).endings = after.endings := Machine.endings_of_history rfl
  refine ⟨rfl, fun E => ⟨?_, ?_, ?_⟩⟩
  · have := h.grows
    omega
  · intro hsame
    have houtput : after.output = (m.enter frame).output := h.output (by omega)
    exact houtput.trans (Machine.output_record rfl)
  · intro hsame hE
    obtain ⟨frame', henv⟩ := h.env (by omega) ⟨frame, rfl⟩
    have hback : (m.leave after).env = m.env := by
      show after.env.pop = m.env
      rw [henv]
      rfl
    rwa [hback]

theorem keepsVariables_invokeAt (rounds n : Nat) (sub : Subroutine) (args : List Value) :
    Moves KeepsVariables (invokeAt rounds n sub args) :=
  (isolated_invokeAt rounds n sub args).mono Isolated.keepsVariables

/-- By induction on the number of calls that may still be nested: the statements of a subroutine
spare memory because the calls in them leave it untouched. -/
theorem untouched_invokeAt (rounds : Nat) :
    ∀ n sub args, Moves Untouched (invokeAt rounds n sub args) := by
  intro n
  induction n with
  | zero => exact fun _ _ => chains_untouched.fail _
  | succ n ih =>
    intro sub args m
    have hvars := keepsVariables_invokeAt rounds n
    rw [invokeAt, final_activation]
    apply untouched_leave
    refine upholds_lastBlock ih hvars (Stmt.sparesAll ih hvars rounds sub.body) ?_ rfl
    rintro s - counter v env - ⟨frame, rfl⟩
    exact ⟨_, Environment.bind_push m.env frame counter _⟩

/-- Memory is as before, but that these counters have been bound in the current frame. -/
def OnlyCounters (allowed : String → Prop) (env env' : Environment) : Prop :=
  ∃ counters : List (String × Value), (∀ c ∈ counters, allowed c.1) ∧
    env' = counters.foldl (fun env c => env.bind c.1 (.scalar "INTEGER" c.2)) env

theorem OnlyCounters.refl (allowed : String → Prop) (env : Environment) :
    OnlyCounters allowed env env :=
  ⟨[], nofun, rfl⟩

theorem OnlyCounters.bind {allowed : String → Prop} {env env' : Environment} {counter : String}
    (h : OnlyCounters allowed env env') (hcounter : allowed counter) (v : Value) :
    OnlyCounters allowed env (env'.bind counter (.scalar "INTEGER" v)) := by
  obtain ⟨counters, hcounters, rfl⟩ := h
  refine ⟨counters ++ [(counter, v)], ?_, ?_⟩
  · exact List.forall_mem_append.mpr ⟨hcounters, List.forall_mem_singleton.mpr hcounter⟩
  · rw [List.foldl_append]
    rfl

/-- A statement that fails while no value is on its way back, and before any statement has come to
its end, leaves the output and all memory as they were, but that loops which it had entered may have
given values to their counters, in the frame that was active. -/
theorem failed_statement_leaves_memory (rounds n : Nat) (stmt : Stmt) (m m' : Machine) (stop : Stop)
    (hreturning : m.returning = none)
    (hfails : stmt.execute rounds (invokeAt rounds n) m = .error stop m')
    (htrace : m'.trace = m.trace) : m'.output = m.output ∧
      OnlyCounters (EntersLoop (invokeAt rounds n) stmt m) m.env m'.env := by
  have hcall := untouched_invokeAt rounds n
  have hvars := keepsVariables_invokeAt rounds n
  have hspares := Stmt.spares hcall hvars rounds stmt
  have hsame : m'.endings = m.endings := congrArg List.length htrace
  rcases completing_cases (grows_perform hcall hvars rounds stmt) hreturning with
    ⟨stop', m₁, hperform, h⟩ | ⟨m₁, h, -⟩
  · cases hfails.symm.trans h
    have hupholds := hspares (OnlyCounters (EntersLoop (invokeAt rounds n) stmt m) m.env) m stop m'
      hreturning (fun _ v _ henters henv => henv.bind henters v) hperform
    exact ⟨hupholds.output hsame, hupholds.env hsame (.refl _ m.env)⟩
  · cases hfails.symm.trans h

/-- A loop in a branch has bound its counter when its step fails. -/
theorem failed_statement_leaves_memory_step :
    let loop : Stmt := .forTo "i" (.literal .null) (.literal .null) (.var "missing" none) []
    let stmt : Stmt := .ifElse (.literal (.bool true)) [loop] []
    let m : Machine :=
      ⟨.push .empty (.ofList [("X", .scalar "STRING" (.text "chalk"))]), [], none, []⟩
    ∃ m', (m.returning = none ∧
        stmt.execute 1 (invokeAt 1 0) m = .error (.error (.undeclared "missing")) m' ∧
        m'.trace = m.trace) ∧
      m'.output = m.output ∧ OnlyCounters (EntersLoop (invokeAt 1 0) stmt m) m.env m'.env := by
  intro loop stmt m
  have hfails : stmt.execute 1 (invokeAt 1 0) m = .error (.error (.undeclared "missing"))
      { m with env := m.env.bind "i" (.scalar "INTEGER" .null) } := rfl
  exact ⟨_, ⟨rfl, hfails, rfl⟩, failed_statement_leaves_memory 1 0 stmt m _ _ rfl hfails rfl⟩

end Chalkboard
