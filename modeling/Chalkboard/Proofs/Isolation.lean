import Chalkboard.Proofs.Moves

/-! # Isolation of calls

A call works in a frame of its own. Its caller finds all local frames, the declarations and a value
on its way back as they were, and of global memory only values have changed: names, types, bounds
and constants stay. The frame is left on every way out, so this holds of calls that fail as well.
-/

namespace Chalkboard

/-- What of a storage stays when values are written into it. -/
inductive Form where
  /-- A single value, which is kept if it may not be written. -/
  | scalar (kept : Option Value)
  | array (lower upper : Int) (elementType : String)
  | record (fields : List (String × String × Bool × Shape))

/-- What of a cell stays when values are written: all of a constant, and of other cells all but
their values. -/
structure Outline where
  type : String
  isConstant : Bool
  form : Form

namespace Cell

def form (isConstant : Bool) : Storage → Form
  | .scalar v => .scalar (if isConstant then some v else none)
  | .array store => .array store.lower store.upper store.elementType
  | .record fields =>
    .record (fields.entries.map fun (name, field) =>
      (name, field.type, field.isConstant, field.shape))

def outline (cell : Cell) :
    Outline := ⟨cell.type, cell.isConstant, form cell.isConstant cell.storage⟩

/-- Only single values are written into the fields of a record. -/
theorem outline_setField {field : String} {type : String} {fields : Dict Cell} {w : Value}
    (hw : (fields.get? (key field)).bind scalarValue? = some w) (v : Value) :
    (setField field v ⟨type, false, .record fields⟩).outline =
    outline ⟨type, false, .record fields⟩ := by
  obtain ⟨entries⟩ := fields
  change (entries.lookup (key field)).bind scalarValue? = some w at hw
  simp only [outline, form, setField, Dict.modify, Outline.mk.injEq, Form.record.injEq, true_and]
  induction entries with
  | nil => rfl
  | cons entry rest ih =>
    obtain ⟨name, type', isConstant, storage⟩ := entry
    rw [Dict.lookup_cons] at hw
    by_cases hn : name = key field
    · rw [if_pos hn.symm] at hw
      cases storage with
      | scalar u => simp [Dict.modifyEntry, hn, setScalar, shape, Storage.shape]
      | array store => cases hw
      | record fields => cases hw
    · rw [if_neg (Ne.symm hn)] at hw
      simp [Dict.modifyEntry, hn, ih hw]

theorem outline_setElement (i : Int) (v : Value) (cell : Cell) :
    (cell.setElement i v).outline = cell.outline := by
  obtain ⟨type, isConstant, storage⟩ := cell
  cases storage <;> rfl

end Cell

namespace Frame

def outline (frame : Frame) : List (String × Outline) :=
  frame.entries.map fun (name, cell) => (name, cell.outline)

theorem lookup_outline (frame : Frame) (k : String) :
    frame.outline.lookup k = (frame.get? k).map Cell.outline := by
  obtain ⟨entries⟩ := frame
  simp only [outline, Dict.get?]
  induction entries with
  | nil => rfl
  | cons entry rest ih =>
    obtain ⟨name, cell⟩ := entry
    rw [List.map_cons, Dict.lookup_cons, Dict.lookup_cons]
    split
    · rfl
    · exact ih

/-- A cell that is written without a change of its outline does not change that of its frame. -/
theorem outline_modify {frame : Frame} {k : String} {f : Cell → Cell}
    (h : ∀ cell, frame.get? k = some cell → (f cell).outline = cell.outline) :
    outline (frame.modify k f) = frame.outline := by
  obtain ⟨entries⟩ := frame
  simp only [outline, Dict.get?, Dict.modify] at h ⊢
  induction entries with
  | nil => rfl
  | cons entry rest ih =>
    obtain ⟨name, cell⟩ := entry
    simp only [Dict.lookup_cons] at h
    by_cases hk : name = k
    · simp [Dict.modifyEntry, hk, h cell (by simp [hk])]
    · simp only [Dict.modifyEntry, hk, if_false, List.map_cons, List.cons.injEq, true_and]
      exact ih fun cell hc => h cell (by simp [Ne.symm hk, hc])

end Frame

namespace Environment

variable {env env' : Environment}

theorem globals_setCurrent (h : env.frames ≠ []) (frame : Frame) :
    (env.setCurrent frame).globals = env.globals := by
  obtain ⟨globals, frames, types, subroutines⟩ := env
  cases frames with
  | nil => exact absurd rfl h
  | cons top rest => rfl

def levels (env : Environment) : List Frame := env.globals :: env.frames.reverse

/-- A write to a cell in sight that does not change its outline changes no outline at all. -/
theorem outlines_update {name : String} {f : Cell → Cell}
    (hf : ∀ cell, env.lookup? name = some cell → (f cell).outline = cell.outline) :
    (env.update name f).levels.map Frame.outline = env.levels.map Frame.outline := by
  obtain ⟨globals, frames, types, subroutines⟩ := env
  cases frames with
  | nil => simp [levels, update, Frame.outline_modify hf]
  | cons top rest =>
    cases hc : top.contains (key name) with
    | true =>
      have htop : Frame.outline (top.modify (key name) f) = top.outline :=
        Frame.outline_modify fun cell hcell => hf cell (by simp [lookup?, hcell])
      simp [levels, update, hc, htop]
    | false =>
      have hglobals : Frame.outline (globals.modify (key name) f) = globals.outline :=
        Frame.outline_modify fun cell hcell =>
          hf cell (by simpa [lookup?, Dict.get?_of_not_contains hc] using hcell)
      simp [levels, update, hc, hglobals]

theorem outline_globals_update {name : String} {f : Cell → Cell}
    (hf : ∀ cell, env.lookup? name = some cell → (f cell).outline = cell.outline) :
    (env.update name f).globals.outline = env.globals.outline :=
  (List.cons.inj (outlines_update hf)).1

theorem Change.outline_globals (hc : Change env env') (h : env.frames ≠ []) :
    env'.globals.outline = env.globals.outline := by
  cases hc with
  | bindNew name cell _ _ => exact congrArg _ (globals_setCurrent h _)
  | bindCounter name v _ => exact congrArg _ (globals_setCurrent h _)
  | setScalar name v hl =>
    refine outline_globals_update fun cell hcell => ?_
    cases hl.symm.trans hcell
    rfl
  | setField name field v hl hf =>
    refine outline_globals_update fun cell hcell => ?_
    cases hl.symm.trans hcell
    exact Cell.outline_setField hf v
  | setElement name i v => exact outline_globals_update fun cell _ => cell.outline_setElement i v
  | setCounter name x _ => exact congrArg _ (globals_setCurrent h _)

end Environment

/-- What a step inside of a call leaves alone. -/
structure Confined (m m' : Machine) : Prop where
  fixtures : m.env.SameFixtures m'.env
  globals : m.env.frames ≠ [] → m'.env.globals.outline = m.env.globals.outline

/-- What a whole call, or the evaluation of an expression, leaves alone. -/
structure Isolated (m m' : Machine) : Prop where
  frames : m'.env.frames = m.env.frames
  types : m'.env.types = m.env.types
  subroutines : m'.env.subroutines = m.env.subroutines
  returning : m'.returning = m.returning
  globals : m'.env.globals.outline = m.env.globals.outline

open Exec

theorem Confined.of_env_eq {m m' : Machine} (h : m'.env = m.env) : Confined m m' where
  fixtures := h ▸ .refl m.env
  globals _ := h ▸ rfl

theorem Confined.trans {a b c : Machine} (hab : Confined a b) (hbc : Confined b c) :
    Confined a c where
  fixtures := hab.fixtures.trans hbc.fixtures
  globals h := by
    have hb : b.env.frames ≠ [] := by
      have hd : b.env.frames.length = a.env.frames.length := hab.fixtures.depth
      rwa [← List.length_pos_iff, hd, List.length_pos_iff]
    exact (hbc.globals hb).trans (hab.globals h)

theorem respects_confined : Respects Confined where
  refl _ := .of_env_eq rfl
  trans := .trans
  change hc := ⟨hc.sameFixtures, hc.outline_globals⟩
  ask name m := .of_env_eq (env_final_ask name m)
  print _ _ := .of_env_eq rfl
  complete _ _ := .of_env_eq rfl
  giveBack _ _ := .of_env_eq rfl

theorem chains_isolated : Chains Isolated where
  refl _ := ⟨rfl, rfl, rfl, rfl, rfl⟩
  trans hab hbc := {
    frames := hbc.frames.trans hab.frames
    types := hbc.types.trans hab.types
    subroutines := hbc.subroutines.trans hab.subroutines
    returning := hbc.returning.trans hab.returning
    globals := hbc.globals.trans hab.globals }

namespace Isolated

variable {m m' : Machine}

theorem confined (h : Isolated m m') : Confined m m' where
  fixtures := ⟨h.types, h.subroutines, congrArg List.length h.frames, congrArg List.tail h.frames⟩
  globals _ := h.globals

theorem keepsVariables (h : Isolated m m') : KeepsVariables m m' := by
  rintro name ⟨type, v, hv⟩
  unfold Environment.IsVariable Environment.current at *
  rw [h.frames]
  cases hf : m.env.frames with
  | cons frame frames =>
    rw [hf] at hv
    exact ⟨type, v, hv⟩
  | nil =>
    rw [hf] at hv
    have ho := Frame.lookup_outline m'.env.globals (key name)
    rw [h.globals, Frame.lookup_outline] at ho
    simp only [List.head?_nil, Option.getD_none] at hv ⊢
    rw [hv] at ho
    cases hc : m'.env.globals.get? (key name) with
    | none => simp [hc] at ho
    | some cell =>
      obtain ⟨type', isConstant', storage'⟩ := cell
      rw [hc] at ho
      cases storage' with
      | scalar v' =>
        obtain ⟨rfl, rfl, -⟩ := Outline.mk.inj (Option.some.inj ho)
        exact ⟨_, v', rfl⟩
      | array store => cases ho
      | record fields => cases ho

end Isolated

/-- Leaving a subroutine whose body only worked in its own frame brings the caller's frames back. -/
theorem isolated_leave {m after : Machine} {frame : Frame} (h : Confined (m.enter frame) after) :
    Isolated m (m.leave after) where
  frames := h.fixtures.callers
  types := h.fixtures.types
  subroutines := h.fixtures.subroutines
  returning := rfl
  globals := h.globals (List.cons_ne_nil _ _)

theorem moves_activation {body : Exec Unit} (hbody : Moves Confined body) (frame : Frame) :
    Moves Isolated (activation frame body) := by
  intro m
  rw [final_activation]
  exact isolated_leave (hbody (m.enter frame))

/-- By induction on the number of calls that may still be nested: the body of a subroutine is
confined because the calls in it are isolated. -/
theorem isolated_invokeAt (rounds : Nat) : ∀ n sub args,
    Moves Isolated (invokeAt rounds n sub args) := by
  intro n
  induction n with
  | zero => exact fun _ _ => chains_isolated.fail _
  | succ n ih =>
    intro sub args
    refine moves_activation ?_ _
    have hbody := respects_confined.carried (fun sub args => (ih sub args).mono Isolated.confined)
      fun sub args => (ih sub args).mono Isolated.keepsVariables
    exact (hbody.performAll rounds sub.body).mono And.left

theorem isolated_eval (rounds n : Nat) (e : Expr) : Moves Isolated (e.eval (invokeAt rounds n)) :=
  Expr.moves_eval chains_isolated e fun name _ =>
    chains_isolated.callFunction (isolated_invokeAt rounds n) name

/-- Each call in the expression is one of a built-in function or of no subroutine at all. -/
def Expr.CallsNoSubroutine (env : Environment) (e : Expr) : Prop :=
  ∀ name ∈ e.callees, Builtin.named? name = none → env.subroutine? name = none

theorem chains_unchanged (P : Machine → Prop) : Chains fun m m' => P m → m' = m where
  refl _ _ := rfl
  trans {a b c} hab hbc h := by
    have hb : b = a := hab h
    rw [hbc (hb ▸ h), hb]

theorem final_eval_of_callsNoSubroutine (call : CallRule) {e : Expr} {m : Machine}
    (h : e.CallsNoSubroutine m.env) : (e.eval call).final m = m := by
  refine Expr.moves_eval (chains_unchanged fun m => e.CallsNoSubroutine m.env) e ?_ m h
  intro name hname args m hm
  rcases callFunction_cases call name args m with ⟨v, hc⟩ | ⟨err, hc⟩ | ⟨sub, hb, hs, _⟩
  · exact final_of_ok hc
  · exact final_of_error hc
  · rw [hm name hname hb] at hs
    cases hs

/-- Evaluations and calls are isolated, in every state and on every way out; without the call of a
subroutine an evaluation changes nothing at all. -/
theorem evaluate_and_invoke_isolated (rounds : Nat) (m : Machine) :
    (∀ e : Expr, Isolated m ((e.evaluate rounds).final m)) ∧
    (∀ (sub : Subroutine) (args : List Value), Isolated m ((sub.invoke rounds args).final m)) ∧
    (∀ e : Expr, e.CallsNoSubroutine m.env → (e.evaluate rounds).final m = m) :=
  ⟨fun e => isolated_eval rounds _ e m, fun sub args => isolated_invokeAt rounds _ sub args m,
    fun _ h => final_eval_of_callsNoSubroutine _ h⟩

/-- A call of a built-in function, in a frame and beside a declared function. -/
theorem evaluate_length_unchanged :
    let total : Subroutine := ⟨"Total", [], some "INTEGER", [.giveBack (.literal .null)]⟩
    let m : Machine := ⟨(Environment.empty.declareSubroutine total).push .empty, ["7"], none, []⟩
    let e : Expr := .call "length" [.literal (.text "chalk")]
    e.CallsNoSubroutine m.env ∧ (e.evaluate 3).final m = m := by
  intro total m e
  have h : e.CallsNoSubroutine m.env := by
    intro name hname hb
    obtain rfl : name = "length" := by simpa [e, Expr.callees, Expr.callees.calleesAll] using hname
    exact absurd hb (by decide)
  exact ⟨h, (evaluate_and_invoke_isolated 3 m).2.2 e h⟩

end Chalkboard
