import Chalkboard.Session
import Chalkboard.Proofs.CallDepth
import Chalkboard.Proofs.RelatedRuns

/-! # The order of declarations

Types and subroutines are declared before the first statement runs, and of several declarations of
one name the last counts. A run consults them only by name, so it does not matter where they stand
in the program, in which order they come, and what earlier declarations the last ones replace.
-/

namespace Chalkboard

open Exec

/-- Of entries that are put in one after the other, each under its own key, the last one of a key is
found. -/
theorem Dict.get?_foldl_insert {α : Type} (keyOf : α → String) (k : String) (as : List α)
    (d : Dict α) : (as.foldl (fun d a => d.insert (keyOf a) a) d).get? k =
      (as.reverse.find? fun a => k = keyOf a).or (d.get? k) := by
  induction as generalizing d with
  | nil => rfl
  | cons a as ih =>
    rw [List.foldl_cons, ih, Dict.get?_insert, List.reverse_cons, List.find?_append,
      Option.or_assoc]
    congr 1
    by_cases h : k = keyOf a <;> simp [h]

namespace Program

variable (p q : Program)

/-- The last record type that is declared under a name, whatever the case of its letters. -/
def lastType? (name : String) : Option RecordType :=
  p.recordTypes.reverse.find? fun t => key name = key t.name

/-- The last procedure or function that is declared under a name, whatever the case of its
letters. -/
def lastSubroutine? (name : String) : Option Subroutine :=
  p.subroutines.reverse.find? fun s => key name = key s.name

/-- The declarations that count are the same in both programs. -/
structure SameDeclarations : Prop where
  types : ∀ name, p.lastType? name = q.lastType? name
  subroutines : ∀ name, p.lastSubroutine? name = q.lastSubroutine? name

end Program

namespace Environment

theorem declarations_foldl_declareType (ts : List RecordType) (env : Environment) :
    (ts.foldl declareType env).types =
        ts.foldl (fun d t => d.insert (key t.name) t) env.types ∧
      (ts.foldl declareType env).subroutines = env.subroutines := by
  induction ts generalizing env with
  | nil => exact ⟨rfl, rfl⟩
  | cons t ts ih => exact ih (env.declareType t)

theorem declarations_foldl_declareSubroutine (ss : List Subroutine) (env : Environment) :
    (ss.foldl declareSubroutine env).subroutines =
        ss.foldl (fun d s => d.insert (key s.name) s) env.subroutines ∧
      (ss.foldl declareSubroutine env).types = env.types := by
  induction ss generalizing env with
  | nil => exact ⟨rfl, rfl⟩
  | cons s ss ih => exact ih (env.declareSubroutine s)

theorem type?_ofProgram (p : Program) (name : String) :
    (ofProgram p).type? name = p.lastType? name := by
  rw [type?, ofProgram, (declarations_foldl_declareSubroutine ..).2,
    (declarations_foldl_declareType ..).1, Dict.get?_foldl_insert]
  exact Option.or_none

theorem subroutine?_ofProgram (p : Program) (name : String) :
    (ofProgram p).subroutine? name = p.lastSubroutine? name := by
  rw [subroutine?, ofProgram, (declarations_foldl_declareSubroutine ..).1,
    (declarations_foldl_declareType ..).2, Dict.get?_foldl_insert]
  exact Option.or_none

def undeclared (env : Environment) : Environment :=
  { env with types := .empty, subroutines := .empty }

theorem SameView.undeclared {env₁ env₂ : Environment} (h : SameView env₁ env₂) :
    SameView env₁.undeclared env₂.undeclared :=
  ⟨h.globals, h.top, fun _ => rfl, fun _ => rfl⟩

theorem SameFixtures.undeclared {env env' : Environment} (h : SameFixtures env env') :
    SameFixtures env.undeclared env'.undeclared :=
  ⟨rfl, rfl, h.depth, h.callers⟩

end Environment

namespace Event

def undeclared : Event → Event
  | .entered env => .entered env.undeclared
  | .completed stmt env => .completed stmt env.undeclared
  | .asked name => .asked name
  | .printed line => .printed line

theorem printed?_undeclared (e : Event) : e.undeclared.printed? = e.printed? := by
  cases e <;> rfl

theorem asked?_undeclared (e : Event) : e.undeclared.asked? = e.asked? := by
  cases e <;> rfl

end Event

/-- The machines have the same memory, and find the same declarations under each name. -/
structure SameByName (m₁ m₂ : Machine) : Prop where
  memory : m₁.env.undeclared = m₂.env.undeclared
  types : ∀ name, m₁.env.type? name = m₂.env.type? name
  subroutines : ∀ name, m₁.env.subroutine? name = m₂.env.subroutine? name
  answers : m₁.answers = m₂.answers
  returning : m₁.returning = m₂.returning
  history : m₁.history.map Event.undeclared = m₂.history.map Event.undeclared

namespace SameByName

variable {m₁ m₂ after₁ after₂ : Machine} (h : SameByName m₁ m₂)

include h

theorem globals : m₁.env.globals = m₂.env.globals := by
  have hg : m₁.env.undeclared.globals = m₂.env.undeclared.globals := by rw [h.memory]
  exact hg

theorem frames : m₁.env.frames = m₂.env.frames := by
  have hf : m₁.env.undeclared.frames = m₂.env.undeclared.frames := by rw [h.memory]
  exact hf

theorem record {e₁ e₂ : Event} (he : e₁.undeclared = e₂.undeclared) :
    SameByName (m₁.record e₁) (m₂.record e₂) :=
  { h with history := by rw [Machine.record, Machine.record, List.map_cons,
    List.map_cons, he, h.history] }

theorem change {env₁ env₂ : Environment} (hv : env₁.SameView env₂)
    (h₁ : m₁.env.SameFixtures env₁) (h₂ : m₂.env.SameFixtures env₂) :
    SameByName { m₁ with env := env₁ } { m₂ with env := env₂ } where
  memory := by
    have hfix : Environment.SameFixtures m₂.env.undeclared env₁.undeclared :=
      h.memory ▸ h₁.undeclared
    exact hv.undeclared.eq_of_fixtures hfix h₂.undeclared
  types := hv.types
  subroutines := hv.subroutines
  answers := h.answers
  returning := h.returning
  history := h.history

theorem ask (name : String) : Matches SameByName (ask name m₁) (ask name m₂) := by
  have hr : SameByName (m₁.record (.asked name)) (m₂.record (.asked name)) := h.record rfl
  cases ha : m₁.answers with
  | nil =>
    rw [ask_of_nil ha, ask_of_nil (h.answers ▸ ha)]
    exact .error _ hr
  | cons answer answers =>
    rw [ask_of_cons ha, ask_of_cons (h.answers ▸ ha)]
    exact .ok answer { hr with answers := rfl }

theorem enter (frame : Frame) : SameByName (m₁.enter frame) (m₂.enter frame) := by
  have hmemory : (m₁.env.push frame).undeclared = (m₂.env.push frame).undeclared :=
    congrArg (Environment.push · frame) h.memory
  have hpush : SameByName { m₁ with env := m₁.env.push frame, returning := none }
      { m₂ with env := m₂.env.push frame, returning := none } :=
    { h with memory := hmemory, returning := rfl }
  exact hpush.record (congrArg Event.entered hmemory)

theorem leave (ha : SameByName after₁ after₂) : SameByName (m₁.leave after₁) (m₂.leave after₂) :=
  { ha with memory := congrArg Environment.pop ha.memory, returning := h.returning }

end SameByName

theorem nested_sameByName : Nested SameByName where
  view h := ⟨h.globals, congrArg List.head? h.frames, h.types, h.subroutines⟩
  returning h := h.returning
  change h := h.change
  ask name _ _ h := h.ask name
  print _ _ _ h := .ok () (h.record rfl)
  complete stmt h := h.record (congrArg (Event.completed stmt) h.memory)
  giveBack _ h := { h with returning := rfl }
  enter h := h.enter
  leave h ha _ _ := h.leave ha

theorem sameByName_load {p q : Program} (h : p.SameDeclarations q) (answers : List String) :
    SameByName ((Machine.start answers).load p) ((Machine.start answers).load q) where
  memory := by
    obtain ⟨hgp, hfp⟩ := Environment.memory_ofProgram p
    obtain ⟨hgq, hfq⟩ := Environment.memory_ofProgram q
    show (Environment.ofProgram p).undeclared = (Environment.ofProgram q).undeclared
    rw [Environment.undeclared, Environment.undeclared, hgp, hfp, hgq, hfq]
  types name := by
    show (Environment.ofProgram p).type? name = (Environment.ofProgram q).type? name
    rw [Environment.type?_ofProgram, Environment.type?_ofProgram, h.types]
  subroutines name := by
    show (Environment.ofProgram p).subroutine? name = (Environment.ofProgram q).subroutine? name
    rw [Environment.subroutine?_ofProgram, Environment.subroutine?_ofProgram, h.subroutines]
  answers := rfl
  returning := rfl
  history := rfl

theorem SameByName.events {m₁ m₂ : Machine} (h : SameByName m₁ m₂) :
    m₁.events.map Event.undeclared = m₂.events.map Event.undeclared := by
  rw [Machine.events, Machine.events, List.map_reverse, List.map_reverse, h.history]

theorem SameByName.trace {m₁ m₂ : Machine} (h : SameByName m₁ m₂) : m₁.trace = m₂.trace := by
  have hmap : ∀ m : Machine, m.trace =
      m.events.filterMap fun e => e.completed?.map fun done => (done.1, done.2.globals) := by
    intro m
    rw [Machine.trace, Machine.completedOf, List.map_filterMap]
  rw [hmap, hmap]
  refine filterMap_eq_of_map_eq (fun e => ?_) h.events
  cases e <;> rfl

/-- Programs with the same statements and the same last declarations run alike: they end in the same
way, with the same lines, the same questions, the same statements completed in the same memory, and
the same answers left. -/
theorem run_ignores_declaration_order (rounds : Nat) (p q : Program) (answers : List String)
    (hstmts : p.statements = q.statements) (hdecls : p.SameDeclarations q) :
    let m₁ := (p.run rounds).final (Machine.start answers)
    let m₂ := (q.run rounds).final (Machine.start answers)
    (p.run rounds).outcome (Machine.start answers) =
    (q.run rounds).outcome (Machine.start answers) ∧
    m₁.output = m₂.output ∧ m₁.prompts = m₂.prompts ∧ m₁.trace = m₂.trace ∧
    m₁.memory = m₂.memory ∧ m₁.answers = m₂.answers := by
  intro m₁ m₂
  obtain ⟨houtcome, h⟩ :=
    (nested_sameByName.run hstmts (sameByName_load hdecls answers) rounds).ends
  exact ⟨houtcome, filterMap_eq_of_map_eq Event.printed?_undeclared h.events,
    filterMap_eq_of_map_eq Event.asked?_undeclared h.events, h.trace, h.globals, h.answers⟩

/-- In the first program the function that is called stands last and replaces an earlier one, in the
second one it stands first and alone. -/
theorem run_ignores_declaration_order_duplicate :
    let note : RecordType := ⟨"Note", [⟨"Text", "STRING"⟩]⟩
    let old : Subroutine := ⟨"PICK", [], some "STRING", [.giveBack (.literal (.text "old"))]⟩
    let new : Subroutine := ⟨"Pick", [], some "STRING", [.giveBack (.literal (.text "new"))]⟩
    let main : List Item := [.statement (.declare ["n"] "note"),
      .statement (.output [.call "pick" [], .var "N" (some "text")])]
    let p : Program := ⟨.subroutine old :: main ++ [.recordType note, .subroutine new]⟩
    let q : Program := ⟨.subroutine new :: .recordType note :: main⟩
    let m₁ := (p.run 1).final (Machine.start [])
    let m₂ := (q.run 1).final (Machine.start [])
    (p.statements = q.statements ∧ p.SameDeclarations q) ∧
    m₁.output = ["new"] ∧ m₁.output = m₂.output ∧ m₁.memory = m₂.memory := by
  intro note old new main p q m₁ m₂
  have hstmts : p.statements = q.statements := rfl
  have hdecls : p.SameDeclarations q := by
    refine ⟨fun _ => rfl, fun name => ?_⟩
    show [new, old].find? (fun s => key name = key s.name) =
      [new].find? fun s => key name = key s.name
    have hkey : key old.name = key new.name := by decide
    by_cases h : key name = key new.name <;> simp [h, hkey]
  obtain ⟨_, houtput, _, _, hmemory, _⟩ := run_ignores_declaration_order 1 p q [] hstmts hdecls
  have hnew : m₁.output = ["new"] := by
    subst m₁ p main new old note
    rfl
  exact ⟨⟨hstmts, hdecls⟩, hnew, houtput, hmemory⟩

end Chalkboard
