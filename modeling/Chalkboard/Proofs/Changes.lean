import Mathlib.Logic.Relation
import Chalkboard.Memory.Access

/-! # Changes of memory

All that statements do to memory is a chain of small changes: a new cell under a new name, the
binding of a loop counter, and new values in cells that are there. Types, subroutines and the frames
of the callers are out of their reach, and a variable of the current frame stays a variable.
-/

namespace Chalkboard

namespace Dict

variable {α : Type}

theorem get?_of_not_contains {d : Dict α} {k : String} (h : d.contains k = false) :
    d.get? k = none := by
  simpa [contains] using h

theorem modifyEntry_of_lookup {k : String} (f : α → α) {entries : List (String × α)} {r : Option α}
    (h : entries.lookup k = r) :
    modifyEntry k f entries = r.elim entries fun a => insertEntry k (f a) entries := by
  induction entries with
  | nil => cases h; rfl
  | cons entry rest ih =>
    obtain ⟨k', b⟩ := entry
    rw [lookup_cons] at h
    by_cases hk : k = k'
    · rw [if_pos hk] at h
      cases h
      simp [modifyEntry, insertEntry, hk]
    · rw [if_neg hk] at h
      cases r <;> simp [modifyEntry, insertEntry, Ne.symm hk, ih h]

theorem modify_of_not_contains {d : Dict α} {k : String} (h : d.contains k = false) (f : α → α) :
    d.modify k f = d :=
  congrArg Dict.mk (modifyEntry_of_lookup f (get?_of_not_contains h))

/-- Changing the value under a key is putting in the changed value. -/
theorem modify_eq_insert {d : Dict α} {k : String} {a : α} (h : d.get? k = some a) (f : α → α) :
    d.modify k f = d.insert k (f a) :=
  congrArg Dict.mk (modifyEntry_of_lookup f h)

end Dict

namespace Environment

variable {env env' : Environment}

@[simp] theorem current_setCurrent (env : Environment) (frame : Frame) :
    (env.setCurrent frame).current = frame := by
  obtain ⟨globals, frames, types, subroutines⟩ := env
  cases frames <;> rfl

@[simp] theorem current_bind (env : Environment) (name : String) (cell : Cell) :
    (env.bind name cell).current = env.current.insert (key name) cell :=
  current_setCurrent ..

@[simp] theorem current_writeCounter (env : Environment) (name : String) (x : Float) :
    (env.writeCounter name x).current =
      env.current.modify (key name) (.setScalar (.number x)) :=
  current_setCurrent ..

@[simp] theorem current_update (env : Environment) (name : String) (f : Cell → Cell) :
    (env.update name f).current = env.current.modify (key name) f := by
  obtain ⟨globals, frames, types, subroutines⟩ := env
  cases frames with
  | nil => rfl
  | cons frame frames =>
    cases h : frame.contains (key name) with
    | true => simp [update, h, current]
    | false => simp [update, h, current, Dict.modify_of_not_contains h]

/-- The cells that declarations make. -/
inductive Fresh (env : Environment) : Cell → Prop where
  | declared (type : String) : Fresh env (env.newCell type)
  | array (lower upper : Int) (elementType : String) :
      ArrayStore.saturatingSub upper lower < ArrayStore.maxSize →
      Fresh env (.array (.create lower upper elementType))
  | constant (v : Value) : Fresh env (.constant v)

/-- The name is a variable of the current frame: one value, and no constant. -/
def IsVariable (env : Environment) (name : String) : Prop :=
  ∃ type v, env.current.get? (key name) = some (.scalar type v)

/-- One small change of memory. -/
inductive Change (env : Environment) : Environment → Prop where
  | bindNew (name : String) (cell : Cell) : env.current.contains (key name) = false →
      Fresh env cell → Change env (env.bind name cell)
  | bindCounter (name : String) (v : Value) :
      (∀ cell, env.current.get? (key name) = some cell → cell.isConstant = false) →
      Change env (env.bind name (.scalar "INTEGER" v))
  | setScalar (name : String) (v : Value) {type : String} {w : Value} :
      env.lookup? name = some (.scalar type w) → Change env (env.update name (.setScalar v))
  | setField (name field : String) (v : Value) {type : String} {fields : Dict Cell} {w : Value} :
      env.lookup? name = some ⟨type, false, .record fields⟩ →
      (fields.get? (key field)).bind Cell.scalarValue? = some w →
      Change env (env.update name (.setField field v))
  | setElement (name : String) (i : Int) (v : Value) :
      Change env (env.update name (.setElement i v))
  | setCounter (name : String) (x : Float) : env.IsVariable name →
      Change env (env.writeCounter name x)

abbrev Changes : Environment → Environment → Prop := Relation.ReflTransGen Change

/-- A small change other than the binding of a counter. -/
inductive Write (env : Environment) : Environment → Prop where
  | bindNew (name : String) (cell : Cell) : env.current.contains (key name) = false →
      Fresh env cell → Write env (env.bind name cell)
  | setScalar (name : String) (v : Value) {type : String} {w : Value} :
      env.lookup? name = some (.scalar type w) → Write env (env.update name (.setScalar v))
  | setField (name field : String) (v : Value) {type : String} {fields : Dict Cell} {w : Value} :
      env.lookup? name = some ⟨type, false, .record fields⟩ →
      (fields.get? (key field)).bind Cell.scalarValue? = some w →
      Write env (env.update name (.setField field v))
  | setElement (name : String) (i : Int) (v : Value) :
      Write env (env.update name (.setElement i v))
  | setCounter (name : String) (x : Float) : env.IsVariable name →
      Write env (env.writeCounter name x)

/-- A chain of changes in which no counter is bound. -/
abbrev Written : Environment → Environment → Prop := Relation.ReflTransGen Write

theorem Write.change (h : Write env env') : Change env env' := by
  cases h with
  | bindNew name cell hn hf => exact .bindNew name cell hn hf
  | setScalar name v hl => exact .setScalar name v hl
  | setField name field v hl hf => exact .setField name field v hl hf
  | setElement name i v => exact .setElement name i v
  | setCounter name x hv => exact .setCounter name x hv

theorem Written.changes (h : Written env env') : Changes env env' :=
  Relation.ReflTransGen.mono (fun _ _ => Write.change) _ _ h

theorem array_eq_ok {name : String} {store : ArrayStore} :
    env.array name = .ok store ↔
      ∃ type isConstant, env.lookup? name = some ⟨type, isConstant, .array store⟩ := by
  unfold array
  constructor
  · intro h
    split at h
    · cases h
    · rename_i cell hl
      obtain ⟨type, isConstant, storage⟩ := cell
      cases storage with
      | array found =>
        cases h
        exact ⟨type, isConstant, hl⟩
      | scalar v => cases h
      | record fields => cases h
  · rintro ⟨type, isConstant, hl⟩
    rw [hl]

theorem readElement_of_array {name : String} {store : ArrayStore} {at_ : Value} {i : Int}
    (harray : env.array name = .ok store) (hi : at_.index? = some i) :
    env.readElement name at_ = match store.get? i with
      | some v => .ok v
      | none => .error (.outOfBounds name i store.lower store.upper) := by
  cases hget : store.get? i <;>
    simp only [readElement, harray, index, hi, Bind.bind, Except.bind, hget]

/-- What is stored goes into a variable, or into a field that a record has. -/
theorem store_cases {name : String} {field : Option String} {v : Value}
    (h : env.store name field v = .ok env') :
    (∃ type w, field = none ∧ env.lookup? name = some (.scalar type w) ∧
      env' = env.update name (.setScalar v)) ∨
    (∃ f type fields w, field = some f ∧ env.lookup? name = some ⟨type, false, .record fields⟩ ∧
      (fields.get? (key f)).bind Cell.scalarValue? = some w ∧
      env' = env.update name (.setField f v)) := by
  unfold store at h
  split at h
  · cases h
  · rename_i cell hl
    obtain ⟨type, isConstant, storage⟩ := cell
    cases isConstant with
    | true => cases h
    | false =>
      cases field with
      | none =>
        cases storage with
        | scalar w =>
          cases h
          exact .inl ⟨type, w, rfl, hl, rfl⟩
        | array store => cases h
        | record fields => cases h
      | some field =>
        cases storage with
        | scalar w => cases h
        | array store => cases h
        | record fields =>
          simp only [Bool.false_eq_true, if_false] at h
          split at h
          · rename_i w hf
            cases h
            exact .inr ⟨field, type, fields, w, rfl, hl, hf, rfl⟩
          · cases h

theorem write_of_store {name : String} {field : Option String} {v : Value}
    (h : env.store name field v = .ok env') : Write env env' := by
  rcases store_cases h with ⟨type, w, rfl, hl, rfl⟩ | ⟨field, type, fields, w, rfl, hl, hf, rfl⟩
  · exact .setScalar name v hl
  · exact .setField name field v hl hf

theorem change_of_store {name : String} {field : Option String} {v : Value}
    (h : env.store name field v = .ok env') : Change env env' :=
  (write_of_store h).change

theorem written_declareFold {env : Environment} {cell : Environment → Cell}
    (hcell : ∀ env, Fresh env (cell env)) (names : List String) :
    Written env (names.foldl (fun env name =>
      if env.current.contains (key name) then env else env.bind name (cell env)) env) := by
  induction names generalizing env with
  | nil => exact .refl
  | cons name names ih =>
    rw [List.foldl_cons]
    cases h : env.current.contains (key name) with
    | true => exact ih
    | false => exact .head (.bindNew name _ h (hcell env)) ih

theorem written_declare (env : Environment) (names : List String) (type : String) :
    Written env (env.declare names type) :=
  written_declareFold (fun _ => .declared type) names

theorem changes_declare (env : Environment) (names : List String) (type : String) :
    Changes env (env.declare names type) :=
  (env.written_declare names type).changes

theorem written_of_declareArrays {names : List String} {lower upper : Value} {type : String}
    (h : env.declareArrays names lower upper type = .ok env') : Written env env' := by
  simp only [declareArrays, Bind.bind, Except.bind] at h
  cases hl : bound (names.headD "") lower with
  | error e =>
    rw [hl] at h
    cases h
  | ok lower =>
    cases hu : bound (names.headD "") upper with
    | error e =>
      rw [hl, hu] at h
      cases h
    | ok upper =>
      simp only [hl, hu] at h
      split at h
      · cases h
      · rename_i hsize
        cases h
        exact written_declareFold (fun _ => .array lower upper type (Int.not_le.mp hsize)) names

theorem changes_of_declareArrays {names : List String} {lower upper : Value} {type : String}
    (h : env.declareArrays names lower upper type = .ok env') : Changes env env' :=
  (written_of_declareArrays h).changes

theorem written_of_declareConstant {name : String} {v : Value}
    (h : env.declareConstant name v = .ok env') : Written env env' := by
  unfold declareConstant at h
  split at h
  · rename_i hn
    cases h
    exact .single (.bindNew name _ (by simp [Dict.contains, hn]) (.constant v))
  · split at h
    · cases h
      exact .refl
    · cases h

theorem changes_of_declareConstant {name : String} {v : Value}
    (h : env.declareConstant name v = .ok env') : Changes env env' :=
  (written_of_declareConstant h).changes

theorem change_of_bindCounter {name : String} {v : Value}
    (h : env.bindCounter name v = .ok env') : Change env env' ∧ env'.IsVariable name := by
  unfold bindCounter at h
  split at h
  · cases h
  · rename_i hc
    cases h
    refine ⟨.bindCounter name v fun cell hcell => ?_, "INTEGER", v, by simp⟩
    simpa [hcell] using hc

/-- A change that keeps single values single keeps the variables of a frame. -/
theorem isVariable_of_modify {name other : String} {f : Cell → Cell}
    (hf : ∀ type v, ∃ v', f (.scalar type v) = .scalar type v')
    (hc : env'.current = env.current.modify (key other) f) (h : env.IsVariable name) :
    env'.IsVariable name := by
  obtain ⟨type, v, hv⟩ := h
  unfold IsVariable
  rw [hc, Dict.get?_modify, hv]
  by_cases hk : key name = key other
  · obtain ⟨v', hv'⟩ := hf type v
    exact ⟨type, v', by simp [hk, hv']⟩
  · exact ⟨type, v, by simp [hk]⟩

theorem Change.isVariable {name : String} (hc : Change env env') (h : env.IsVariable name) :
    env'.IsVariable name := by
  cases hc with
  | bindNew other cell hn _ =>
    obtain ⟨type, v, hv⟩ := h
    have hk : key name ≠ key other := by
      intro hk
      rw [hk, Dict.get?_of_not_contains hn] at hv
      cases hv
    exact ⟨type, v, by simp [hk, hv]⟩
  | bindCounter other w _ =>
    obtain ⟨type, v, hv⟩ := h
    by_cases hk : key name = key other
    · exact ⟨"INTEGER", w, by simp [hk]⟩
    · exact ⟨type, v, by simp [hk, hv]⟩
  | setScalar other v _ => exact isVariable_of_modify (fun _ _ => ⟨v, rfl⟩) (current_update ..) h
  | setField other field v _ _ =>
    exact isVariable_of_modify (fun _ w => ⟨w, rfl⟩) (current_update ..) h
  | setElement other i v => exact isVariable_of_modify (fun _ w => ⟨w, rfl⟩) (current_update ..) h
  | setCounter other x _ =>
    exact isVariable_of_modify (fun _ _ => ⟨_, rfl⟩) (current_writeCounter ..) h

/-- What no change of memory touches. -/
structure SameFixtures (env env' : Environment) : Prop where
  types : env'.types = env.types
  subroutines : env'.subroutines = env.subroutines
  depth : env'.depth = env.depth
  callers : env'.frames.tail = env.frames.tail

theorem SameFixtures.refl (env : Environment) : SameFixtures env env := ⟨rfl, rfl, rfl, rfl⟩

theorem SameFixtures.trans {a b c : Environment} (hab : SameFixtures a b)
    (hbc : SameFixtures b c) : SameFixtures a c where
  types := hbc.types.trans hab.types
  subroutines := hbc.subroutines.trans hab.subroutines
  depth := hbc.depth.trans hab.depth
  callers := hbc.callers.trans hab.callers

theorem sameFixtures_setCurrent (env : Environment) (frame : Frame) :
    SameFixtures env (env.setCurrent frame) := by
  obtain ⟨globals, frames, types, subroutines⟩ := env
  cases frames <;> exact ⟨rfl, rfl, rfl, rfl⟩

theorem sameFixtures_update (env : Environment) (name : String) (f : Cell → Cell) :
    SameFixtures env (env.update name f) := by
  obtain ⟨globals, frames, types, subroutines⟩ := env
  cases frames with
  | nil => exact ⟨rfl, rfl, rfl, rfl⟩
  | cons frame frames =>
    simp only [update]
    split <;> exact ⟨rfl, rfl, rfl, rfl⟩

theorem Change.sameFixtures (hc : Change env env') : SameFixtures env env' := by
  cases hc with
  | bindNew => exact sameFixtures_setCurrent ..
  | bindCounter => exact sameFixtures_setCurrent ..
  | setScalar => exact sameFixtures_update ..
  | setField => exact sameFixtures_update ..
  | setElement => exact sameFixtures_update ..
  | setCounter => exact sameFixtures_setCurrent ..

theorem Changes.sameFixtures (h : Changes env env') : SameFixtures env env' := by
  induction h with
  | refl => exact .refl env
  | tail _ hc ih => exact ih.trans hc.sameFixtures

theorem memory_ofProgram (p : Program) :
    (ofProgram p).globals = .empty ∧ (ofProgram p).frames = [] := by
  have htypes : ∀ (types : List RecordType) (env : Environment),
      (types.foldl declareType env).globals = env.globals ∧
        (types.foldl declareType env).frames = env.frames := by
    intro types
    induction types with
    | nil => exact fun _ => ⟨rfl, rfl⟩
    | cons type types ih => exact fun env => ih (env.declareType type)
  have hsubs : ∀ (subs : List Subroutine) (env : Environment),
      (subs.foldl declareSubroutine env).globals = env.globals ∧
        (subs.foldl declareSubroutine env).frames = env.frames := by
    intro subs
    induction subs with
    | nil => exact fun _ => ⟨rfl, rfl⟩
    | cons sub subs ih => exact fun env => ih (env.declareSubroutine sub)
  unfold ofProgram
  rw [(hsubs _ _).1, (hsubs _ _).2, (htypes _ _).1, (htypes _ _).2]
  exact ⟨rfl, rfl⟩

theorem depth_ofProgram (p : Program) : (ofProgram p).depth = 0 :=
  congrArg List.length (memory_ofProgram p).2

end Environment

end Chalkboard
