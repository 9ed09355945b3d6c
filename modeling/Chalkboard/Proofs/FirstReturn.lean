import Chalkboard.Proofs.OwnSteps

/-! # A call returns its own first `RETURN`

The value of a `RETURN` is kept in the machine, where the calls that follow could get at it, and the
loops around go on testing their conditions. Still each activation hands back the value of the first
`RETURN` that it executes itself. After it nothing of the activation begins, no counting loop tests
or advances, and what still ends is the `RETURN` and the statements around it, from the inside out.
-/

namespace Chalkboard

open Exec
open Traced (lift note)

/-- No `RETURN` is among the steps. -/
def NoReturn (steps : List OwnStep) : Prop := ∀ place v, OwnStep.gaveBack place v ∉ steps

theorem NoReturn.concat {steps : List OwnStep} {step : OwnStep} (h : NoReturn steps)
    (hstep : ∀ place v, step ≠ .gaveBack place v) : NoReturn (steps ++ [step]) := by
  intro place v hmem
  rcases List.mem_append.mp hmem with hmem | hmem
  · exact h place v hmem
  · exact hstep place v (List.mem_singleton.mp hmem).symm

/-- An activation: how calls are carried out in it, its body, and the machine in which it begins. -/
structure Scene where
  call : CallRule
  body : List Stmt
  first : Machine

namespace Scene

variable (s : Scene)

/-- The ends of statements that were put down are those that happened at the depth of the
activation. -/
structure Faithful (a : Activity) : Prop where
  depth : a.machine.env.depth = s.first.env.depth
  reported : (a.machine.completedAt s.first.env.depth).map some =
    (s.first.completedAt s.first.env.depth).map some ++ a.ended.map (·.stmt? s.body)

/-- So far there was no `RETURN`. -/
structure Settled (a : Activity) : Prop where
  faithful : s.Faithful a
  returning : a.machine.returning = none
  noReturn : NoReturn a.steps

/-- The `RETURN` at this place gives this value, after these steps and as the first one. -/
structure Returns (before : List OwnStep) (place : Place) (v : Value) : Prop where
  noReturn : NoReturn before
  value : ∃ e m m', place.stmt? s.body = some (.giveBack e) ∧ s.Faithful ⟨m, before⟩ ∧
    e.eval s.call m = .ok v m'

/-- After the first `RETURN`, only statements around it have ended, and those in `rest` are still to
do so. -/
structure Pending (rest : List Place) (a : Activity) : Prop where
  faithful : s.Faithful a
  returned : ∃ before place v ended, s.Returns before place v ∧ a.machine.returning = some v ∧
    a.steps = before ++ .gaveBack place v :: ended.map .ended ∧
    place :: place.enclosing = ended ++ rest

def Ready (rest : List Place) (a : Activity) : Prop := s.Settled a ∨ s.Pending rest a

variable {s} {a : Activity} {place : Place} {rest : List Place}

theorem Faithful.quiet {m : Machine} (h : s.Faithful a) (hm : Quiet a.machine m) :
    s.Faithful { a with machine := m } where
  depth := hm.depth.trans h.depth
  reported := by
    rw [hm.completed _ (Nat.le_of_eq h.depth.symm)]
    exact h.reported

theorem Faithful.note {step : OwnStep} (h : s.Faithful a) (hstep : step.ended? = none) :
    s.Faithful (a.note step) where
  depth := h.depth
  reported := by
    have hended : (a.note step).ended = a.ended := by simp [Activity.ended, Activity.note, hstep]
    rw [hended]
    exact h.reported

theorem Faithful.ended {stmt : Stmt} (h : s.Faithful a) (hstmt : place.stmt? s.body = some stmt) :
    s.Faithful (Activity.note (.ended place)
      { a with machine := a.machine.record (.completed stmt a.machine.env) }) where
  depth := h.depth
  reported := by
    have hmachine := Machine.completedAt_record_completed stmt a.machine
    rw [h.depth] at hmachine
    simp only [Activity.note, Activity.ended, List.filterMap_append, List.map_append]
    rw [hmachine, List.map_append, h.reported]
    simp [Activity.ended, OwnStep.ended?, hstmt]

theorem Settled.note {step : OwnStep} (h : s.Settled a) (hstep : step.ended? = none)
    (hreturn : ∀ place v, step ≠ .gaveBack place v) : s.Settled (a.note step) where
  faithful := h.faithful.note hstep
  returning := h.returning
  noReturn := h.noReturn.concat hreturn

theorem Ready.settled (h : s.Ready rest a) (hr : a.machine.returning.isSome = false) :
    s.Settled a := by
  rcases h with h | h
  · exact h
  · obtain ⟨_, _, v, _, _, hv, _⟩ := h.returned
    simp [hv] at hr

theorem Ready.ended {stmt : Stmt} (h : s.Ready (place :: rest) a)
    (hstmt : place.stmt? s.body = some stmt) :
    s.Ready rest (Activity.note (.ended place)
      { a with machine := a.machine.record (.completed stmt a.machine.env) }) := by
  rcases h with h | h
  · exact .inl ⟨h.faithful.ended hstmt, h.returning, h.noReturn.concat (by simp)⟩
  · obtain ⟨before, at_, v, ended, hreturns, hv, hsteps, hplaces⟩ := h.returned
    refine .inr ⟨h.faithful.ended hstmt, before, at_, v, ended ++ [place], hreturns, hv, ?_, ?_⟩
    · simp [Activity.note, hsteps]
    · simp [hplaces]

/-- The value of the expression is given back, and all that stands around is still to end. -/
theorem Settled.giveBack {e : Expr} {v : Value} {m : Machine} (h : s.Settled a)
    (hplace : place.stmt? s.body = some (.giveBack e)) (he : e.eval s.call a.machine = .ok v m)
    (hm : Quiet a.machine m) :
    s.Pending (place :: place.enclosing)
      (Activity.note (.gaveBack place v) { a with machine := { m with returning := some v } }) := by
  constructor
  · have hquiet := h.faithful.quiet hm
    exact Faithful.note ⟨hquiet.depth, hquiet.reported⟩ rfl
  · exact ⟨a.steps, place, v, [], ⟨h.noReturn, e, a.machine, m, hplace, h.faithful, he⟩,
      rfl, rfl, rfl⟩

end Scene

/-- The result of an action and that of the same action with its own steps. -/
inductive Records {α : Type} (Q : α → Activity → Prop) :
    EStateM.Result Stop Machine α → EStateM.Result Stop Activity α → Prop where
  | ok (v : α) {a : Activity} : Q v a → Records Q (.ok v a.machine) (.ok v a)
  | error (stop : Stop) (a : Activity) : Records Q (.error stop a.machine) (.error stop a)

theorem Records.of_ok {α : Type} {Q : α → Activity → Prop} {v : α} {m : Machine}
    {r : EStateM.Result Stop Activity α} (h : Records Q (.ok v m) r) :
    ∃ a, r = .ok v a ∧ a.machine = m ∧ Q v a := by
  cases h with
  | ok _ hv => exact ⟨_, rfl, rfl, hv⟩

/-- From where the first condition is met, the second action does the same as the first one, and if
it succeeds the second condition is met. -/
def Traces {α : Type} (P : Activity → Prop) (x : Exec α) (y : Traced α) (Q : α → Activity → Prop) :
    Prop :=
  ∀ a, P a → Records Q (x a.machine) (y a)

/-- The condition outlasts what is done without a step of the activation. -/
def Outlasts (P : Activity → Prop) : Prop :=
  ∀ a m, P a → Quiet a.machine m → P { a with machine := m }

theorem outlasts_settled (s : Scene) : Outlasts s.Settled :=
  fun _ _ h hm => ⟨h.faithful.quiet hm, hm.returning.trans h.returning, h.noReturn⟩

theorem outlasts_ready (s : Scene) (rest : List Place) : Outlasts (s.Ready rest) := by
  rintro a m (h | h) hm
  · exact .inl (outlasts_settled s a m h hm)
  · obtain ⟨before, place, v, ended, hreturns, hv, hsteps⟩ := h.returned
    exact .inr ⟨h.faithful.quiet hm, before, place, v, ended, hreturns,
      hm.returning.trans hv, hsteps⟩

namespace Traces

variable {α β : Type} {P K : Activity → Prop} {Q : α → Activity → Prop} {R : β → Activity → Prop}

theorem pure {v : α} (h : ∀ a, P a → Q v a) : Traces P (pure v) (pure v) Q :=
  fun a ha => .ok v (h a ha)

theorem fail (e : RuntimeError) : Traces P (fail e : Exec α) (lift (Exec.fail e)) Q :=
  fun a _ => .error _ a

theorem bind {x : Exec α} {y : Traced α} {f : α → Exec β} {g : α → Traced β} (hx : Traces P x y Q)
    (hf : ∀ v, Traces (Q v) (f v) (g v) R) : Traces P (x >>= f) (y >>= g) R := by
  intro a ha
  have hr := hx a ha
  show Records R (EStateM.bind x f a.machine) (EStateM.bind y g a)
  unfold EStateM.bind
  generalize x a.machine = r, y a = r' at hr
  cases hr with
  | ok v hv => exact hf v _ hv
  | error stop a' => exact .error stop a'

theorem ite {c : Prop} [Decidable c] {x x' : Exec α} {y y' : Traced α} (h : Traces P x y Q)
    (h' : Traces P x' y' Q) : Traces P (if c then x else x') (if c then y else y') Q := by
  split
  · exact h
  · exact h'

theorem ifReturning {x x' : Exec α} {y y' : Traced α} (h : Traces P x y Q)
    (h' : Traces (fun a => P a ∧ a.machine.returning.isSome = false) x' y' Q) :
    Traces P (do if (← get).returning.isSome then x else x')
      (do if (← Traced.machine).returning.isSome then y else y') Q := by
  intro a ha
  show Records Q ((if a.machine.returning.isSome then x else x') a.machine)
    ((if a.machine.returning.isSome then y else y') a)
  cases hr : a.machine.returning.isSome with
  | true => exact h a ha
  | false => exact h' a ⟨ha, hr⟩

theorem note {step : OwnStep} {x : Exec α} {y : Traced α} (hstep : ∀ a, P a → K (a.note step))
    (h : Traces K x y Q) : Traces P x (do note step; y) Q :=
  fun a ha => h (a.note step) (hstep a ha)

theorem lift {x : Exec α} (hP : Outlasts P) (hx : Moves Quiet x) :
    Traces P x (lift x) fun _ => P := by
  intro a ha
  have hm := hP a _ ha (hx a.machine)
  unfold Traced.lift
  cases h : x a.machine with
  | ok v m =>
    rw [final_of_ok h] at hm
    exact .ok (a := { a with machine := m }) v hm
  | error stop m => exact .error stop { a with machine := m }

/-- By induction on the number of rounds: a round that goes on leads to where the next one
begins. -/
theorem iterate {I J : Activity → Prop} {x : Exec Bool} {y : Traced Bool}
    (h : Traces I x y fun again => cond again I J) :
    ∀ n, Traces I (iterate n x) (Traced.iterate n y) fun _ => J := by
  intro n
  induction n with
  | zero => exact fun a _ => .error _ a
  | succ n ih =>
    rw [iterate_succ]
    refine h.bind fun again => ?_
    cases again with
    | true => exact ih
    | false => exact pure fun _ h => h

variable {s : Scene} {place : Place}

theorem of_ready {rest : List Place} {x : Exec α} {y : Traced α}
    (h : Traces (s.Ready rest) x y fun _ => s.Ready rest) :
    Traces s.Settled x y fun _ => s.Ready rest :=
  fun a ha => h a (.inl ha)

theorem completing {stmt : Stmt} {work : Exec Unit} {traced : Traced Unit}
    (hstmt : place.stmt? s.body = some stmt)
    (hwork : Traces s.Settled work traced fun _ => s.Ready (place :: place.enclosing)) :
    Traces (s.Ready place.enclosing) (completing stmt work) (Traced.completing place stmt traced)
      fun _ => s.Ready place.enclosing := by
  rw [completing_eq]
  refine ifReturning (pure fun _ h => h) ?_
  -- Nothing is on its way out here, so that a statement only ever begins before the first `RETURN`.
  refine note (K := s.Settled) (fun a h => (h.1.settled h.2).note rfl (by simp)) ?_
  refine hwork.bind fun _ a h => ?_
  exact .ok (a := .note (.ended place)
    { a with machine := a.machine.record (.completed stmt a.machine.env) }) () (h.ended hstmt)

end Traces

/-- The places of a block from a number on: what stands there, and what stands around. -/
structure Block (body : List Stmt) (at_ : Nat → Place) (around : List Place) (number : Nat)
    (stmts : List Stmt) : Prop where
  enclosing : ∀ i, (at_ i).enclosing = around
  stmts : ∀ i, (at_ (number + i)).stmt? body = stmts[i]?

namespace Block

variable {body stmts : List Stmt} {stmt : Stmt} {at_ : Nat → Place} {around : List Place}
  {number : Nat} {place : Place}

theorem top (body : List Stmt) : Block body .top [] 0 body :=
  ⟨fun _ => rfl, fun i => by rw [Nat.zero_add, Place.stmt?]⟩

theorem inside (h : place.stmt? body = some stmt) {block : Nat}
    (hblock : stmt.blocks[block]? = some stmts) :
    Block body (place.inside block) (place :: place.enclosing) 0 stmts :=
  ⟨fun _ => rfl, fun i => by rw [Nat.zero_add, Place.stmt?_inside h hblock]⟩

theorem head (h : Block body at_ around number (stmt :: stmts)) :
    (at_ number).stmt? body = some stmt :=
  h.stmts 0

theorem tail (h : Block body at_ around number (stmt :: stmts)) :
    Block body at_ around (number + 1) stmts :=
  ⟨h.enclosing, fun i => by rw [Nat.add_assoc, Nat.add_comm 1 i, h.stmts, List.getElem?_cons_succ]⟩

end Block

section Statements

open Environment

variable {s : Scene} {rounds : Nat}

/-- A statement without blocks that gives nothing back takes no step between its beginning and its
end. -/
theorem traces_simple {x : Exec Unit} (hx : Moves Quiet x) (rest : List Place) :
    Traces s.Settled x (lift x) fun _ => s.Ready rest :=
  (Traces.lift (outlasts_ready s rest) hx).of_ready

theorem traces_giveBack (hcall : ∀ sub args, Moves Quiet (s.call sub args)) {place : Place}
    {e : Expr} (h : place.stmt? s.body = some (.giveBack e)) :
    Traces s.Settled ((Stmt.giveBack e).perform rounds s.call)
      ((Stmt.giveBack e).trace rounds s.call place) fun _ =>
      s.Ready (place :: place.enclosing) := by
  intro a ha
  have hm := quiet_eval hcall e a.machine
  rw [Stmt.perform, Stmt.trace]
  show Records _ (EStateM.bind _ _ _) (EStateM.bind (lift _) _ _)
  unfold EStateM.bind Traced.lift
  cases he : e.eval s.call a.machine with
  | ok v m =>
    rw [final_of_ok he] at hm
    exact .ok (a :=
      Activity.note (.gaveBack place v) { a with machine := { m with returning := some v } })
      () (.inr (ha.giveBack h he hm))
  | error stop m => exact .error stop { a with machine := m }

/-- A counting loop tests and advances only as long as nothing is given back. -/
theorem traces_forTo (hcall : ∀ sub args, Moves Quiet (s.call sub args)) {place : Place}
    {counter : String} {start stop step : Expr} {body : List Stmt}
    (hbody : Traces (s.Ready (place :: place.enclosing)) (Stmt.performAll rounds s.call body)
      (Stmt.traceAll rounds s.call (place.inside 0) 0 body) fun _ =>
      s.Ready (place :: place.enclosing)) :
    Traces s.Settled ((Stmt.forTo counter start stop step body).perform rounds s.call)
      ((Stmt.forTo counter start stop step body).trace rounds s.call place)
      fun _ => s.Ready (place :: place.enclosing) := by
  have hsettled := outlasts_settled s
  have hread : Moves Quiet (reading (·.readCounter counter)) := chains_quiet.reading _
  rw [Stmt.perform, Stmt.trace]
  refine (Traces.lift hsettled (quiet_eval hcall start)).bind fun first => ?_
  refine (Traces.lift hsettled (quiet_changing (writes_bindCounter counter first))).bind fun _ => ?_
  refine (Traces.lift hsettled (quiet_eval hcall step)).bind fun step => ?_
  refine .ite (.iterate ?_ rounds) (.fail _)
  refine .note (K := s.Settled) (fun _ h => h.note rfl (by simp)) ?_
  refine (Traces.lift hsettled hread).bind fun x => ?_
  refine (Traces.lift hsettled (quiet_eval hcall stop)).bind fun stop => ?_
  refine .ite (.pure fun _ => .inl) ?_
  -- With a `RETURN` in the body the loop is over, and what is put down next comes only without one.
  refine hbody.of_ready.bind fun _ => .ifReturning (.pure fun _ h => h) ?_
  refine .note (K := s.Settled) (fun _ h => (h.1.settled h.2).note rfl (by simp)) ?_
  refine (Traces.lift hsettled hread).bind fun x => ?_
  refine (Traces.lift hsettled (quiet_changing (writes_writeCounter counter _))).bind fun _ => ?_
  exact .pure fun _ h => h

mutual

/-- By recursion on the statement, which begins when there was no `RETURN` yet. A block may be
entered again after a `RETURN` in it. -/
theorem Stmt.traces_perform (hcall : ∀ sub args, Moves Quiet (s.call sub args)) : ∀ (stmt : Stmt)
    {place : Place}, place.stmt? s.body = some stmt →
      Traces s.Settled (stmt.perform rounds s.call) (stmt.trace rounds s.call place)
        fun _ => s.Ready (place :: place.enclosing)
  | .declare .., _, _ | .declareArray .., _, _ | .constant .., _, _ | .assign .., _, _
  | .assignElement .., _, _ | .output .., _, _ | .input .., _, _ | .call .., _, _ =>
    traces_simple (Stmt.quiet_perform hcall rounds _ rfl (by simp)) _
  | .giveBack e, place, h => traces_giveBack hcall h
  | .ifElse condition yes no, place, h => by
    rw [Stmt.perform, Stmt.trace]
    refine (Traces.lift (outlasts_settled s) (quiet_eval hcall condition)).bind fun v => ?_
    refine .of_ready (.ite ?_ ?_)
    · exact Stmt.traces_performAll hcall yes (.inside h rfl)
    · exact Stmt.traces_performAll hcall no (.inside h rfl)
  | .whileDo condition body, place, h => by
    -- The condition is evaluated with a `RETURN` pending as well, so every round may begin in that
    -- state.
    have hready := outlasts_ready s (place :: place.enclosing)
    rw [Stmt.perform, Stmt.trace]
    refine .of_ready (.iterate ?_ rounds)
    refine (Traces.lift hready (quiet_eval hcall condition)).bind fun v =>
      .ite ?_ (.pure fun _ h => h)
    exact (Stmt.traces_performAll hcall body (.inside h rfl)).bind fun _ => .pure fun _ h => h
  | .repeatUntil body condition, place, h => by
    have hready := outlasts_ready s (place :: place.enclosing)
    rw [Stmt.perform, Stmt.trace]
    refine .of_ready (.iterate ?_ rounds)
    refine (Stmt.traces_performAll hcall body (.inside h rfl)).bind fun _ => ?_
    refine (Traces.lift hready (quiet_eval hcall condition)).bind fun v => .pure fun _ h => ?_
    cases v.isTrue <;> exact h
  | .forTo counter start stop step body, place, h =>
    traces_forTo hcall (Stmt.traces_performAll hcall body (.inside h rfl))
  | .caseOf subject clauses otherwise, place, h => by
    rw [Stmt.perform, Stmt.trace]
    refine .of_ready ((Traces.lift (outlasts_ready s _) (chains_quiet.reading _)).bind fun v => ?_)
    refine (Stmt.traces_performFirst hcall v clauses (.inside h rfl)).bind fun found => ?_
    cases found with
    | true => exact .pure fun _ h => h
    | false => exact Stmt.traces_performAll hcall otherwise (.inside h rfl)

theorem Stmt.traces_performAll (hcall : ∀ sub args, Moves Quiet (s.call sub args)) :
    ∀ (stmts : List Stmt) {at_ : Nat → Place} {around : List Place} {number : Nat},
      Block s.body at_ around number stmts →
      Traces (s.Ready around) (Stmt.performAll rounds s.call stmts)
        (Stmt.traceAll rounds s.call at_ number stmts) fun _ => s.Ready around
  | [], at_, around, number, _ => by
    rw [Stmt.performAll, Stmt.traceAll]
    exact .pure fun _ h => h
  | stmt :: stmts, at_, around, number, h => by
    have hfirst := Traces.completing h.head (Stmt.traces_perform hcall stmt h.head)
    rw [h.enclosing number] at hfirst
    rw [Stmt.performAll, Stmt.traceAll]
    exact hfirst.bind fun _ => Stmt.traces_performAll hcall stmts h.tail

theorem Stmt.traces_performFirst (hcall : ∀ sub args, Moves Quiet (s.call sub args)) (v : Value) :
    ∀ (clauses : List (Expr × Stmt)) {at_ : Nat → Place} {around : List Place} {number : Nat},
      Block s.body at_ around number (clauses.map Prod.snd) →
      Traces (s.Ready around) (Stmt.performFirst rounds s.call v clauses)
        (Stmt.traceFirst rounds s.call at_ number v clauses) fun _ => s.Ready around
  | [], at_, around, number, _ => by
    rw [Stmt.performFirst, Stmt.traceFirst]
    exact .pure fun _ h => h
  | (value, stmt) :: clauses, at_, around, number, h => by
    have hclause := Traces.completing h.head (Stmt.traces_perform hcall stmt h.head)
    rw [h.enclosing number] at hclause
    rw [Stmt.performFirst, Stmt.traceFirst]
    refine (Traces.lift (outlasts_ready s around) (quiet_eval hcall value)).bind fun _ => .ite ?_ ?_
    · exact hclause.bind fun _ => .pure fun _ h => h
    · exact Stmt.traces_performFirst hcall v clauses h.tail

end

end Statements

/-- What a call hands back. The activation can be run with its own steps put down, with the same
course. Either there is no `RETURN` among them and the value is null, or the value is that of the
first one; then the only steps after it are the end of the `RETURN` and of the statements around it,
so that nothing of the activation begins, and no counting loop tests or advances. The ends that are
put down are those that are reported at the depth of the activation. -/
theorem call_returns_first_return {rounds n : Nat} {sub : Subroutine} {args : List Value}
    {m m' : Machine} {v : Value} (h : invokeAt rounds n sub args m = .ok v m') :
    let entered := m.enter (Environment.ofArguments sub.params args)
    let scene : Scene := ⟨invokeAt rounds (n - 1), sub.body, entered⟩
    ∃ after : Activity,
      Stmt.traceAll rounds scene.call .top 0 sub.body ⟨entered, []⟩ = .ok () after ∧
      Stmt.performAll rounds scene.call sub.body entered = .ok () after.machine ∧
      m' = m.leave after.machine ∧ scene.Faithful after ∧
      ((v = .null ∧ NoReturn after.steps) ∨
        ∃ before place, scene.Returns before place v ∧
          after.steps = before ++ .gaveBack place v :: (place :: place.enclosing).map .ended) := by
  intro entered scene
  cases n with
  | zero => cases h
  | succ n =>
    have hstart : scene.Settled ⟨entered, []⟩ :=
      ⟨⟨rfl, (List.append_nil _).symm⟩, rfl, fun _ _ => List.not_mem_nil⟩
    have hrecords : Records (fun _ => scene.Ready [])
        (Stmt.performAll rounds scene.call sub.body entered)
        (Stmt.traceAll rounds scene.call .top 0 sub.body ⟨entered, []⟩) :=
      Stmt.traces_performAll (quiet_invokeAt rounds n) sub.body (.top sub.body) _ (.inl hstart)
    cases hbody : Stmt.performAll rounds scene.call sub.body entered with
    | error stop machine =>
      cases h.symm.trans (activation_of_error hbody)
    | ok u machine =>
      cases h.symm.trans (activation_of_ok hbody)
      rw [hbody] at hrecords
      obtain ⟨after, htrace, rfl, hready⟩ := hrecords.of_ok
      refine ⟨after, htrace, rfl, rfl, ?_⟩
      rcases hready with hready | hready
      · rw [hready.returning]
        exact ⟨hready.faithful, .inl ⟨rfl, hready.noReturn⟩⟩
      · obtain ⟨before, place, v, ended, hreturns, hv, hsteps, hplaces⟩ := hready.returned
        rw [List.append_nil] at hplaces
        subst hplaces
        rw [hv]
        exact ⟨hready.faithful, .inr ⟨before, place, hreturns, hsteps⟩⟩

/-- A `RETURN` inside of a loop that calls another function before and after it. -/
theorem call_returns_first_return_mine :
    let other : Subroutine := ⟨"Other", [], some "BOOLEAN", [.giveBack (.literal (.bool true))]⟩
    let mine : Subroutine := ⟨"Mine", [], some "STRING",
      [.repeatUntil [.ifElse (.call "Other" []) [.giveBack (.literal (.text "mine"))] []]
        (.call "Other" []), .giveBack (.literal (.text "late"))]⟩
    let m : Machine := ⟨Environment.empty.declareSubroutine other, [], none, []⟩
    invokeAt 1 2 mine [] m = .ok (.text "mine") ((invokeAt 1 2 mine []).final m) ∧
    ∃ after before place,
      Stmt.traceAll 1 (invokeAt 1 1) .top 0 mine.body
      ⟨m.enter (Environment.ofArguments [] []), []⟩ =
        .ok () after ∧
      after.steps = before ++ .gaveBack place (.text "mine") ::
      (place :: place.enclosing).map .ended := by
  intro other mine m
  have h : invokeAt 1 2 mine [] m = .ok (.text "mine") ((invokeAt 1 2 mine []).final m) := by
    subst m mine other
    rfl
  obtain ⟨after, htrace, _, _, _, ⟨hnull, _⟩ | ⟨before, place, _, hsteps⟩⟩ :=
    call_returns_first_return h
  · cases hnull
  · exact ⟨h, after, before, place, htrace, hsteps⟩

end Chalkboard
