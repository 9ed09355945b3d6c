import Chalkboard.Session
import Chalkboard.Proofs.RelatedRuns

/-! # Answers that are not read

A run takes its answers one by one from the front, so that further answers behind them change
nothing until one of them is read. A run that ends for another reason than a missing answer goes in
the same way with more answers, and leaves these; one that misses an answer goes on from there.
-/

namespace Chalkboard

open Exec

def Machine.withMore (more : List String) (m : Machine) : Machine :=
  { m with answers := m.answers ++ more }

/-- What has happened stays, and more may happen. -/
def Lengthens (m m' : Machine) : Prop := m.history <:+ m'.history

theorem chains_lengthens : Chains Lengthens where
  refl _ := List.suffix_rfl
  trans := List.IsSuffix.trans

theorem lengthens_record (e : Event) (m : Machine) : Lengthens m (m.record e) :=
  List.suffix_cons e m.history

namespace Exec

variable {α β : Type} {more : List String}

def machineOf : EStateM.Result Stop Machine α → Machine
  | .ok _ m => m
  | .error _ m => m

theorem final_eq (x : Exec α) (m : Machine) : x.final m = machineOf (x m) := by
  unfold final machineOf
  cases x m <;> rfl

def resultWithMore (more : List String) :
    EStateM.Result Stop Machine α → EStateM.Result Stop Machine α
  | .ok a m => .ok a (m.withMore more)
  | .error stop m => .error stop (m.withMore more)

/-- How a result compares to that with more answers: it is the same but for these, or an answer was
missing and the other action has gone on, or the rounds were not enough. -/
inductive Continues (more : List String) :
    EStateM.Result Stop Machine α → EStateM.Result Stop Machine α → Prop where
  | same (r : EStateM.Result Stop Machine α) : (∀ name m, r ≠ .error (.error (.noInput name)) m) →
      Continues more r (resultWithMore more r)
  | missing {name : String} {m : Machine} {r : EStateM.Result Stop Machine α} : m.answers = [] →
      Lengthens m (machineOf r) → Continues more (.error (.error (.noInput name)) m) r
  | unfinished {m : Machine} {r : EStateM.Result Stop Machine α} :
      Continues more (.error .unfinished m) r

theorem Continues.ok (a : α) (m : Machine) :
    Continues more (.ok a m) (.ok a (m.withMore more)) :=
  .same (.ok a m) (by simp)

theorem Continues.eq_of_ok {a : α} {m : Machine} {r : EStateM.Result Stop Machine α}
    (h : Continues more (.ok a m) r) : r = .ok a (m.withMore more) := by
  cases h
  rfl

/-- What an error makes of an action that goes on in any way: the same error, with the same machine
or a changed one that has kept its answers and events. -/
theorem Continues.of_error {stop : Stop} {m n : Machine} {r : EStateM.Result Stop Machine α}
    {r' : EStateM.Result Stop Machine β} (h : Continues more (.error stop m) r)
    (hanswers : n.answers = m.answers) (hhistory : n.history = m.history)
    (hsame : r = .error stop (m.withMore more) → r' = .error stop (n.withMore more))
    (hlonger : Lengthens (machineOf r) (machineOf r')) : Continues more (.error stop n) r' := by
  cases h with
  | same _ hstop =>
    rw [hsame rfl]
    refine .same (.error stop n) fun name m' he => ?_
    cases he
    exact hstop name m rfl
  | missing hempty hm =>
    refine .missing (hanswers.trans hempty) ?_
    rw [Lengthens, hhistory]
    exact chains_lengthens.trans hm hlonger
  | unfinished => exact .unfinished

section Ends

variable {x y : Exec α} {m₁ m₂ : Machine} (h : Continues more (x m₁) (y m₂))

include h

theorem Continues.of_ended (hend : (∃ a, x.outcome m₁ = .ok a) ∨
      ∃ e, x.outcome m₁ = .error (.error e) ∧ ∀ name, e ≠ .noInput name) :
    y.outcome m₂ = x.outcome m₁ ∧ y.final m₂ = (x.final m₁).withMore more := by
  cases hx : x m₁ with
  | ok a n =>
    rw [hx] at h
    have hy := h.eq_of_ok
    rw [outcome_of_ok hx, outcome_of_ok hy, final_of_ok hx, final_of_ok hy]
    exact ⟨rfl, rfl⟩
  | error stop n =>
    rw [outcome_of_error hx] at hend ⊢
    rw [final_of_error hx]
    obtain ⟨a, ha⟩ | ⟨e, he, hname⟩ := hend
    · cases ha
    cases he
    rw [hx] at h
    cases hy : y m₂ with
    | ok b n' =>
      rw [hy] at h
      cases h
      exact absurd rfl (hname _)
    | error stop n' =>
      rw [hy] at h
      rw [outcome_of_error hy, final_of_error hy]
      cases h with
      | same => exact ⟨rfl, rfl⟩
      | missing => exact absurd rfl (hname _)

theorem Continues.of_missing {name : String}
    (hend : x.outcome m₁ = .error (.error (.noInput name))) :
    (x.final m₁).answers = [] ∧ Lengthens (x.final m₁) (y.final m₂) := by
  obtain ⟨n, hx⟩ := outcome_eq_error hend
  rw [hx] at h
  rw [final_of_error hx, final_eq y]
  generalize y m₂ = r at h
  cases h with
  | same _ hstop => exact absurd rfl (hstop name n)
  | missing hempty hm => exact ⟨hempty, hm⟩

end Ends

/-- The second action, on a machine with more answers, goes on as the first one does without
them. -/
structure GoesOn (more : List String) (x y : Exec α) : Prop where
  continues : ∀ m, Continues more (x m) (y (m.withMore more))
  lengthens : Moves Lengthens y

namespace GoesOn

theorem pure (a : α) : GoesOn more (pure a : Exec α) (pure a) :=
  ⟨fun m => .ok a m, chains_lengthens.pure a⟩

theorem fail {e : RuntimeError} (he : ∀ name, e ≠ .noInput name) :
    GoesOn more (fail e : Exec α) (fail e) where
  continues m := .same (.error (.error e) m) fun name m' h => by
    cases h
    exact he name rfl
  lengthens := chains_lengthens.fail e

theorem lift {r : Except RuntimeError α} (hr : NotAsking r) : GoesOn more (lift r) (lift r) := by
  cases r with
  | ok a => exact .pure a
  | error e => exact .fail fun name h => hr name (congrArg Except.error h)

theorem reading {f : Environment → Except RuntimeError α} (hf : Environment.Reads f) :
    GoesOn more (reading f) (reading f) :=
  ⟨fun m => (lift (hf.notAsking m.env)).continues m, chains_lengthens.reading f⟩

theorem changing {f : Environment → Except RuntimeError Environment} (hf : Environment.Writes f) :
    GoesOn more (changing f) (changing f) := by
  constructor
  · intro m
    cases h : f m.env with
    | ok env =>
      rw [changing_of_ok h, changing_of_ok (m := m.withMore more) h]
      exact .ok () { m with env := env }
    | error e =>
      rw [changing_of_error h, changing_of_error (m := m.withMore more) h]
      refine .same (.error (.error e) m) fun name m' he => ?_
      cases he
      exact hf.notAsking m.env name h
  · intro m
    cases h : f m.env with
    | ok env =>
      rw [final_of_ok (changing_of_ok h)]
      exact chains_lengthens.refl m
    | error e =>
      rw [final_of_error (changing_of_error h)]
      exact chains_lengthens.refl m

theorem lengthens_bind {x : Exec α} {f : α → Exec β} (hf : ∀ a, Moves Lengthens (f a))
    (m : Machine) : Lengthens (machineOf (x m)) (machineOf ((x >>= f) m)) := by
  cases h : x m with
  | ok a m' =>
    rw [bind_of_ok h, ← final_eq]
    exact hf a m'
  | error stop m' =>
    rw [bind_of_error h]
    exact chains_lengthens.refl m'

theorem bind {x y : Exec α} {f g : α → Exec β} (hx : GoesOn more x y)
    (hf : ∀ a, GoesOn more (f a) (g a)) : GoesOn more (x >>= f) (y >>= g) := by
  refine ⟨fun m => ?_, chains_lengthens.bind hx.lengthens fun a => (hf a).lengthens⟩
  have hm := hx.continues m
  cases h : x m with
  | ok a m' =>
    rw [h] at hm
    rw [bind_of_ok h, bind_of_ok hm.eq_of_ok]
    exact (hf a).continues m'
  | error stop m' =>
    rw [h] at hm
    rw [bind_of_error h]
    exact hm.of_error rfl rfl bind_of_error (lengthens_bind (fun a => (hf a).lengthens) _)

theorem ite {c : Prop} [Decidable c] {x x' y y' : Exec α} (hx : GoesOn more x y)
    (hx' : GoesOn more x' y') : GoesOn more (if c then x else x') (if c then y else y') := by
  split
  · exact hx
  · exact hx'

theorem iterate {x y : Exec Bool} (hx : GoesOn more x y) : ∀ {n₁ n₂ : Nat}, n₁ ≤ n₂ →
    GoesOn more (iterate n₁ x) (iterate n₂ y) := by
  intro n₁
  induction n₁ with
  | zero => exact fun _ => ⟨fun _ => .unfinished, chains_lengthens.iterate hx.lengthens _⟩
  | succ n₁ ih =>
    rintro (_ | n₂) hle
    · omega
    rw [iterate_succ, iterate_succ]
    exact hx.bind fun again => .ite (ih (Nat.le_of_succ_le_succ hle)) (.pure ())

theorem modify {f : Machine → Machine} (hf : ∀ m, f (m.withMore more) = (f m).withMore more)
    (hlonger : ∀ m, Lengthens m (f m)) : GoesOn more (modify f : Exec Unit) (modify f) where
  continues m := by
    show Continues more (.ok () (f m)) (.ok () (f (m.withMore more)))
    rw [hf]
    exact .ok () (f m)
  lengthens := hlonger

theorem ifReturning {x x' y y' : Exec α} (hx : GoesOn more x y) (hx' : GoesOn more x' y') :
    GoesOn more (do if (← get).returning.isSome then x else x')
      (do if (← get).returning.isSome then y else y') where
  continues m := (ite hx hx').continues m
  lengthens m := (ite hx hx').lengthens m

theorem completing {x y : Exec Unit} (hx : GoesOn more x y) (stmt : Stmt) :
    GoesOn more (completing stmt x) (completing stmt y) := by
  rw [completing_eq, completing_eq]
  exact .ifReturning (.pure ()) (hx.bind fun _ =>
    .modify (fun _ => rfl) fun m => lengthens_record (.completed stmt m.env) m)

theorem ask (name : String) : GoesOn more (ask name) (ask name) := by
  have hlonger : Moves Lengthens (Exec.ask name) := by
    intro m
    cases h : m.answers with
    | nil =>
      rw [final_of_error (ask_of_nil h)]
      exact lengthens_record _ m
    | cons answer answers =>
      rw [final_of_ok (ask_of_cons h)]
      exact lengthens_record _ m
  refine ⟨fun m => ?_, hlonger⟩
  cases h : m.answers with
  | nil =>
    rw [ask_of_nil h]
    refine .missing h ?_
    -- Whether or not there is an answer now, the name is asked for.
    cases hmore : (m.withMore more).answers with
    | nil =>
      rw [ask_of_nil hmore]
      exact chains_lengthens.refl (m.record (.asked name))
    | cons answer answers =>
      rw [ask_of_cons hmore]
      exact chains_lengthens.refl (m.record (.asked name))
  | cons answer answers =>
    have hmore : (m.withMore more).answers = answer :: (answers ++ more) := by
      simp [Machine.withMore, h]
    rw [ask_of_cons h, ask_of_cons hmore]
    exact .ok answer { m.record (.asked name) with answers := answers }

theorem activation {body₁ body₂ : Exec Unit} (hbody : GoesOn more body₁ body₂) (frame : Frame) :
    GoesOn more (activation frame body₁) (activation frame body₂) := by
  have hlonger : Moves Lengthens (Exec.activation frame body₂) := by
    intro m
    rw [final_activation]
    exact chains_lengthens.trans (lengthens_record _ _) (hbody.lengthens (m.enter frame))
  refine ⟨fun m => ?_, hlonger⟩
  have hm := hbody.continues (m.enter frame)
  cases h : body₁ (m.enter frame) with
  | ok u after =>
    rw [h] at hm
    rw [activation_of_ok h, activation_of_ok (m := m.withMore more) hm.eq_of_ok]
    exact .ok _ (m.leave after)
  | error stop after =>
    rw [h] at hm
    rw [activation_of_error h]
    refine hm.of_error rfl rfl (activation_of_error (m := m.withMore more)) ?_
    rw [← final_eq, ← final_eq, final_activation]
    exact chains_lengthens.refl (body₂.final ((m.withMore more).enter frame))

theorem runCongruence (more : List String) {rounds₁ rounds₂ : Nat} (h : rounds₁ ≤ rounds₂) :
    RunCongruence (fun x y => GoesOn more x y) rounds₁ rounds₂ where
  pure := .pure
  fail := .fail
  bind := .bind
  reading := .reading
  changing := .changing
  calling name _ _ hf :=
    ⟨fun m => (hf (m.env.subroutine? name)).continues m,
      fun m => (hf (m.env.subroutine? name)).lengthens m⟩
  ifReturning := .ifReturning
  iterate hx := hx.iterate h
  completing := .completing
  ask := .ask
  print _ := .modify (fun _ => rfl) (lengthens_record _)
  giveBack _ := .modify (fun _ => rfl) chains_lengthens.refl
  activation frame _ _ _ _ hbody := hbody.activation frame

end GoesOn

end Exec

/-- A run and the run of the same program with more answers, which may take more rounds. -/
theorem goesOn_run {rounds₁ rounds₂ : Nat} (h : rounds₁ ≤ rounds₂) (p : Program)
    (answers more : List String) :
    Continues more (p.run rounds₁ (Machine.start answers))
      (p.run rounds₂ (Machine.start (answers ++ more))) := by
  rw [Program.run, Program.run, load_bind, load_bind]
  exact ((GoesOn.runCongruence more h).performAll callLimit p.statements).continues _

/-- What happened first in the longer of two histories is what happened in the shorter one. -/
theorem Lengthens.prefixes {m m' : Machine} (h : Lengthens m m') :
    m.output <+: m'.output ∧ m.prompts <+: m'.prompts ∧ m.trace <+: m'.trace := by
  have hevents : m.events <+: m'.events := List.reverse_prefix.mpr h
  exact ⟨hevents.filterMap _, hevents.filterMap _, (hevents.filterMap _).map _⟩

/-- If a run ends without missing an answer, then with more answers it ends in the same way and has
these left over. If it misses an answer, it has read all that it was given, and all that it prints,
asks and completes comes first in the run with more answers. The second run may be given more
rounds. -/
theorem unread_answers_do_not_matter (rounds₁ rounds₂ : Nat) (hrounds : rounds₁ ≤ rounds₂)
    (p : Program) (answers more : List String) :
    let end₁ := (p.run rounds₁).outcome (Machine.start answers)
    let end₂ := (p.run rounds₂).outcome (Machine.start (answers ++ more))
    let m₁ := (p.run rounds₁).final (Machine.start answers)
    let m₂ := (p.run rounds₂).final (Machine.start (answers ++ more))
    ((end₁ = .ok () ∨ ∃ e, end₁ = .error (.error e) ∧ ∀ name, e ≠ .noInput name) →
      end₂ = end₁ ∧ m₂.output = m₁.output ∧ m₂.prompts = m₁.prompts ∧ m₂.trace = m₁.trace ∧
      m₂.memory = m₁.memory ∧ m₂.answers = m₁.answers ++ more) ∧
    (∀ name, end₁ = .error (.error (.noInput name)) →
      m₁.answers = [] ∧ m₁.output <+: m₂.output ∧ m₁.prompts <+: m₂.prompts ∧
      m₁.trace <+: m₂.trace) := by
  intro end₁ end₂ m₁ m₂
  have hrun := goesOn_run hrounds p answers more
  constructor
  · intro hend
    obtain ⟨houtcome, hfinal⟩ := hrun.of_ended (hend.imp_left fun h => ⟨(), h⟩)
    refine ⟨houtcome, ?_⟩
    show m₂.output = _ ∧ m₂.prompts = _ ∧ m₂.trace = _ ∧ m₂.memory = _ ∧ m₂.answers = _
    rw [show m₂ = m₁.withMore more from hfinal]
    exact ⟨rfl, rfl, rfl, rfl, rfl⟩
  · intro name hend
    obtain ⟨hempty, hlonger⟩ := hrun.of_missing hend
    exact ⟨hempty, hlonger.prefixes⟩

/-- A run that reads one of two answers and prints it, and the same run without an answer. -/
theorem unread_answers_do_not_matter_name :
    let p : Program := ⟨[.statement (.declare ["Name"] "STRING"), .statement (.input "name"),
      .statement (.output [.literal (.text "Hello "), .var "Name" none])]⟩
    let one := (p.run 1).final (Machine.start ["Ada"])
    let two := (p.run 1).final (Machine.start (["Ada"] ++ ["Bob"]))
    let none := (p.run 1).final (Machine.start [])
    let some := (p.run 2).final (Machine.start ([] ++ ["Ada"]))
    ((p.run 1).outcome (Machine.start ["Ada"]) = .ok () ∧ one.output = ["Hello Ada"]) ∧
    (two.output = one.output ∧ two.answers = one.answers ++ ["Bob"]) ∧
    (p.run 1).outcome (Machine.start []) = .error (.error (.noInput "name")) ∧
    none.prompts <+: some.prompts := by
  intro p one two none some
  have hone : (p.run 1).outcome (Machine.start ["Ada"]) = .ok () := by
    subst p
    rfl
  have hnone : (p.run 1).outcome (Machine.start []) = .error (.error (.noInput "name")) := by
    subst p
    rfl
  have hline : one.output = ["Hello Ada"] := by
    subst one p
    rfl
  obtain ⟨_, houtput, _, _, _, hanswers⟩ :=
    (unread_answers_do_not_matter 1 1 (Nat.le_refl 1) p ["Ada"] ["Bob"]).1 (.inl hone)
  obtain ⟨_, _, hprompts, _⟩ :=
    (unread_answers_do_not_matter 1 2 (Nat.le_succ 1) p [] ["Ada"]).2 "name" hnone
  exact ⟨⟨hone, hline⟩, ⟨houtput, hanswers⟩, hnone, hprompts⟩

end Chalkboard
