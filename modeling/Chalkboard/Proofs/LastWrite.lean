import Chalkboard.Proofs.LateChecks
import Chalkboard.Proofs.WellFormed

/-! # Reads see the last write

A name stands for one cell, the same one for reading and for writing. So a read gives what was last
written under its name, in whatever letters the name is spelled, and a write is seen by no other
read.
-/

namespace Chalkboard

open Exec

namespace Environment

variable {env env' : Environment} {name other : String}

def cell? (env : Environment) (level : Nat) (k : String) : Option Cell :=
  env.levels[level]?.bind (·.get? k)

/-- The level at which a name is found: that of the innermost call if it has the name, else global
memory. -/
def levelOf (env : Environment) (name : String) : Nat :=
  if env.current.contains (key name) then env.depth else 0

/-- Memory is the same but, at most, for the cell under one key at one level. -/
structure SameExcept (level : Nat) (k : String) (env env' : Environment) : Prop where
  types : env'.types = env.types
  subroutines : env'.subroutines = env.subroutines
  keys : env'.levels.map Dict.keys = env.levels.map Dict.keys
  cells : ∀ level' k', (level' = level → k' ≠ k) → env'.cell? level' k' = env.cell? level' k'

theorem lookup?_eq_cell? (env : Environment) (name : String) :
    env.lookup? name = env.cell? (env.levelOf name) (key name) := by
  obtain ⟨globals, frames, types, subroutines⟩ := env
  cases frames with
  | nil => simp [lookup?, cell?, levelOf, levels, depth]
  | cons top rest =>
    cases h : top.contains (key name) with
    | true =>
      obtain ⟨cell, hcell⟩ := Option.isSome_iff_exists.mp h
      simp [lookup?, cell?, levelOf, levels, depth, current, h, hcell]
    | false =>
      have hnone := Dict.get?_of_not_contains h
      simp [lookup?, cell?, levelOf, levels, current, h, hnone]

theorem levels_update (env : Environment) (name : String) (f : Cell → Cell) :
    (env.update name f).levels = env.levels.modify (env.levelOf name) (·.modify (key name) f) := by
  obtain ⟨globals, frames, types, subroutines⟩ := env
  cases frames with
  | nil => simp [update, levelOf, levels, depth]
  | cons top rest =>
    cases h : top.contains (key name) with
    | true =>
      have hlast : ∀ (outer : List Frame) (frame : Frame) (g : Frame → Frame),
          (outer ++ [frame]).modify outer.length g = outer ++ [g frame] := by
        intro outer frame g
        induction outer with
        | nil => rfl
        | cons first outer ih => simpa using ih
      simpa [update, levelOf, levels, depth, current, h] using
        (hlast rest.reverse top (·.modify (key name) f)).symm
    | false => simp [update, levelOf, levels, current, h]

theorem cell?_update (env : Environment) (name : String) (f : Cell → Cell) (level : Nat)
    (k : String) : (env.update name f).cell? level k =
      if level = env.levelOf name ∧
      k = key name then (env.cell? level k).map f else env.cell? level k := by
  unfold cell?
  rw [levels_update, List.getElem?_modify]
  by_cases hlevel : env.levelOf name = level
  · cases env.levels[level]? with
    | none => simp
    | some frame => simp [hlevel]
  · simp [hlevel, Ne.symm hlevel]

theorem sameExcept_update (env : Environment) (name : String) (f : Cell → Cell) :
    env.SameExcept (env.levelOf name) (key name) (env.update name f) := by
  have hfixtures := sameFixtures_update env name f
  constructor
  · exact hfixtures.types
  · exact hfixtures.subroutines
  · apply List.ext_getElem?
    intro level
    rw [levels_update, List.getElem?_map, List.getElem?_map, List.getElem?_modify]
    cases env.levels[level]? with
    | none => rfl
    | some frame =>
      by_cases h : env.levelOf name = level
      · simp [h]
      · simp [h]
  · intro level k hk
    rw [cell?_update, if_neg]
    rintro ⟨rfl, rfl⟩
    exact hk rfl rfl

theorem lookup?_congr (h : key other = key name) (env : Environment) :
    env.lookup? other = env.lookup? name := by
  rw [lookup?, lookup?, h]

theorem levelOf_update (env : Environment) (name other : String) (f : Cell → Cell) :
    (env.update name f).levelOf other = env.levelOf other := by
  have hdepth := (sameFixtures_update env name f).depth
  have hcontains : (env.update name f).current.contains (key other) =
      env.current.contains (key other) := by
    rw [current_update, Dict.contains, Dict.get?_modify]
    split
    · exact Option.isSome_map
    · rfl
  rw [levelOf, levelOf, hdepth, hcontains]

theorem lookup?_update_of_ne (h : key other ≠ key name) (f : Cell → Cell) :
    (env.update name f).lookup? other = env.lookup? other := by
  rw [lookup?_eq_cell?, lookup?_eq_cell?, levelOf_update, cell?_update, if_neg]
  rintro ⟨-, hk⟩
  exact h hk

theorem lookup?_update_of_key (h : key other = key name) (f : Cell → Cell) :
    (env.update name f).lookup? other = (env.lookup? name).map f := by
  rw [lookup?_congr h, lookup?_update]

theorem read_congr (h : env'.lookup? name = env.lookup? name) (field : Option String) :
    env'.read name field = env.read name field := by
  rw [read, read, h]

theorem array_congr (h : env'.lookup? name = env.lookup? name) :
    env'.array name = env.array name := by
  rw [array, array, h]

theorem array_of_key {store : ArrayStore} (h : key other = key name)
    (harray : env.array name = .ok store) : env.array other = .ok store := by
  rw [array_eq_ok] at harray ⊢
  rwa [lookup?_congr h]

theorem readElement_congr (h : env'.array name = env.array name) (at_ : Value) :
    env'.readElement name at_ = env.readElement name at_ := by
  rw [readElement, readElement, h]

/-- A value has been stored in a variable or a field: the reads of it see the value, and nothing
else has changed. -/
structure Stored (name : String) (field : Option String) (v : Value) (env env' : Environment) :
    Prop where
  elsewhere : env.SameExcept (env.levelOf name) (key name) env'
  reads : ∀ other field', env'.read other field' =
    if key other = key name ∧ field'.map key = field.map key then .ok v else env.read other field'
  elements : ∀ other at_, env'.readElement other at_ = env.readElement other at_

/-- A value has been stored at an index of an array: the reads at the index see the value if it lies
between the bounds, and nothing else has changed. -/
structure StoredElement (name : String) (store : ArrayStore) (i : Int) (v : Value)
    (env env' : Environment) : Prop where
  elsewhere : env.SameExcept (env.levelOf name) (key name) env'
  reads : ∀ other field, env'.read other field = env.read other field
  elements : ∀ other at_, env'.readElement other at_ =
    if key other = key name ∧ at_.index? = some i then
      if store.inBounds i then .ok v else .error (.outOfBounds other i store.lower store.upper)
    else env.readElement other at_

section Store

variable {field : Option String} {v : Value}

theorem eq_update_of_store (h : env.store name field v = .ok env') :
    ∃ f, env' = env.update name f := by
  rcases store_cases h with ⟨_, _, _, _, rfl⟩ | ⟨_, _, _, _, _, _, _, rfl⟩
  · exact ⟨_, rfl⟩
  · exact ⟨_, rfl⟩

/-- A read after a write gives the value that was written, if it is of the same variable or field,
and what it gave before if it is not. -/
theorem read_store (h : env.store name field v = .ok env') (other : String)
    (field' : Option String) : env'.read other field' =
      if key other = key name ∧
      field'.map key = field.map key then .ok v else env.read other field' := by
  by_cases hkey : key other = key name
  · have hother := lookup?_congr hkey env
    rcases store_cases h with ⟨type, w, rfl, hl, rfl⟩ | ⟨f, type, fields, w, rfl, hl, hw, rfl⟩
    · have hl' : (env.update name (.setScalar v)).lookup? other = some (.scalar type v) := by
        rw [lookup?_update_of_key hkey, hl]
        rfl
      cases field' with
      | none => simp [read, hl', hkey, Cell.scalar]
      | some g => simp [read, hl', hother, hl, Cell.scalar]
    · have hl' : (env.update name (.setField f v)).lookup? other =
          some ⟨type, false, .record (fields.modify (key f) (.setScalar v))⟩ := by
        rw [lookup?_update_of_key hkey, hl]
        rfl
      obtain ⟨old, hold, -⟩ := Option.bind_eq_some_iff.mp hw
      have hnew : (Cell.setScalar v old).scalarValue? = some v := rfl
      cases field' with
      | none => simp [read, hl', hother, hl, Cell.shape, Storage.shape]
      | some g =>
        by_cases hg : key g = key f
        · simp [read, hl', hkey, hg, hold, hnew]
        · simp [read, hl', hother, hl, hg]
  · obtain ⟨f, rfl⟩ := eq_update_of_store h
    rw [if_neg fun hboth => hkey hboth.1]
    exact read_congr (lookup?_update_of_ne hkey f) field'

theorem readElement_store (h : env.store name field v = .ok env') (other : String) (at_ : Value) :
    env'.readElement other at_ = env.readElement other at_ := by
  apply readElement_congr
  by_cases hkey : key other = key name
  · rcases store_cases h with ⟨type, w, rfl, hl, rfl⟩ | ⟨f, type, fields, w, rfl, hl, hw, rfl⟩
    · simp [array, lookup?_update_of_key hkey, lookup?_congr hkey, hl, Cell.scalar, Cell.setScalar]
    · simp [array, lookup?_update_of_key hkey, lookup?_congr hkey, hl, Cell.setField]
  · obtain ⟨f, rfl⟩ := eq_update_of_store h
    exact array_congr (lookup?_update_of_ne hkey f)

theorem stored_of_store (h : env.store name field v = .ok env') : Stored name field v env env' := by
  refine ⟨?_, read_store h, readElement_store h⟩
  obtain ⟨f, rfl⟩ := eq_update_of_store h
  exact sameExcept_update env name f

/-- What cannot be read cannot be written, for the same cause, and the other way round, constants
apart. -/
theorem store_cases_read (h : ∀ cell, env.lookup? name = some cell → cell.isConstant = false)
    (field : Option String) (v : Value) :
    (∃ env' w, env.store name field v = .ok env' ∧ env.read name field = .ok w) ∨
    (∃ e, env.store name field v = .error e ∧ env.read name field = .error e) := by
  cases hl : env.lookup? name with
  | none => exact .inr ⟨.undeclared name, by simp [store, hl], by simp [read, hl]⟩
  | some cell =>
    obtain ⟨type, isConstant, storage⟩ := cell
    obtain rfl : isConstant = false := h _ hl
    cases storage with
    | scalar w =>
      cases field with
      | none => exact .inl ⟨_, w, by simp [store, hl]; rfl, by simp [read, hl]⟩
      | some f => exact .inr ⟨.noField name f, by simp [store, hl], by simp [read, hl]⟩
    | array a =>
      cases field with
      | none =>
        exact .inr ⟨.notScalar name .array, by simp [store, hl]; rfl, by simp [read, hl]; rfl⟩
      | some f => exact .inr ⟨.noField name f, by simp [store, hl], by simp [read, hl]⟩
    | record fields =>
      cases field with
      | none =>
        exact .inr ⟨.notScalar name .record, by simp [store, hl]; rfl, by simp [read, hl]; rfl⟩
      | some f =>
        cases hf : (fields.get? (key f)).bind Cell.scalarValue? with
        | none => exact .inr ⟨.noField name f, by simp [store, hl, hf], by simp [read, hl, hf]⟩
        | some w => exact .inl ⟨_, w, by simp [store, hl, hf]; rfl, by simp [read, hl, hf]⟩

end Store

section Element

variable {store : ArrayStore} {i : Int} {v : Value}

theorem readElement_storeElement (h : env.array name = .ok store) (other : String) (at_ : Value) :
    (env.storeElement name i v).readElement other at_ =
      if key other = key name ∧ at_.index? = some i then
        if store.inBounds i then .ok v else .error (.outOfBounds other i store.lower store.upper)
      else env.readElement other at_ := by
  by_cases hkey : key other = key name
  · have hother := array_of_key hkey h
    have hother' := array_of_key hkey (array_storeElement h i v)
    cases hi : at_.index? with
    | none => simp [readElement, hother, hother', index, hi, Bind.bind, Except.bind]
    | some j =>
      have hlower : (store.set i v).lower = store.lower := rfl
      have hupper : (store.set i v).upper = store.upper := rfl
      rw [readElement_of_array hother' hi, readElement_of_array hother hi, ArrayStore.get?_set,
        hlower, hupper]
      by_cases hij : j = i
      · subst hij
        cases hb : store.inBounds j with
        | true => simp [hkey]
        | false => simp [hkey, ArrayStore.get?, hb]
      · simp [hij, Ne.symm hij]
  · rw [if_neg fun hboth => hkey hboth.1]
    exact readElement_congr (array_congr (lookup?_update_of_ne hkey _)) at_

theorem read_storeElement (h : env.array name = .ok store) (other : String)
    (field : Option String) :
    (env.storeElement name i v).read other field = env.read other field := by
  by_cases hkey : key other = key name
  · obtain ⟨type, isConstant, hl⟩ := array_eq_ok.mp h
    have hl' : (env.storeElement name i v).lookup? other =
        some ⟨type, isConstant, .array (store.set i v)⟩ := by
      rw [storeElement, lookup?_update_of_key hkey, hl]
      rfl
    rw [← lookup?_congr hkey] at hl
    cases field with
    | none => simp [read, hl, hl', Cell.shape, Storage.shape]
    | some f => simp [read, hl, hl']
  · exact read_congr (lookup?_update_of_ne hkey _) field

theorem storedElement_of_array (h : env.array name = .ok store) (i : Int) (v : Value) :
    StoredElement name store i v env (env.storeElement name i v) :=
  ⟨sameExcept_update env name _, read_storeElement h, readElement_storeElement h⟩

end Element

end Environment

/-- An element is written to an array that the name still stands for after the evaluations. -/
theorem array_of_assignElement {rounds n : Nat} {name : String} {index value : Expr}
    {m m' : Machine}
    (h : (Stmt.assignElement name index value).perform rounds (invokeAt rounds n) m = .ok () m') :
    ∃ iv i v store m₁ m₂, index.eval (invokeAt rounds n) m = .ok iv m₁ ∧ iv.index? = some i ∧
      value.eval (invokeAt rounds n) m₁ = .ok v m₂ ∧ m₂.env.array name = .ok store ∧
      m' = { m₂ with env := m₂.env.storeElement name i v } := by
  obtain ⟨found, iv, i, v, m₁, m₂, harray, hindex, hi, hvalue, rfl⟩ := perform_assignElement_eq_ok h
  have hiso :=
    chains_isolated.trans (isolated_eval rounds n index m) (isolated_eval rounds n value _)
  rw [final_of_ok hindex, final_of_ok hvalue] at hiso
  obtain ⟨store, hstore, -⟩ := hiso.array harray
  have hi' : iv.index? = some i := by
    unfold Environment.index at hi
    split at hi
    · rename_i hj
      cases hi
      exact hj
    · cases hi
  exact ⟨iv, i, v, store, m₁, m₂, hindex, hi', hvalue, hstore, rfl⟩

theorem eval_element {call : CallRule} {name : String} {index : Expr} {m m' : Machine} {w : Value}
    (h : index.eval call m = .ok w m') :
    (Expr.element name index).eval call m = reading (·.readElement name w) m' := by
  rw [Expr.eval, bind_of_ok h]

/-- A name is resolved to the same cell by reads and by writes, at the innermost level that has it.
What is stored is what is read under the name and field in any letters. An element that is assigned
is read at each index that stands for the same number, if it lies between the bounds. No other read
and no other cell changes. What is no constant can be stored if it can be read, and is refused for
the same cause if not. -/
theorem reads_see_last_write (env : Environment) (name : String) :
    (env.lookup? name = env.cell? (env.levelOf name) (key name) ∧
      ∀ f, (env.update name f).lookup? name = (env.lookup? name).map f ∧
        env.SameExcept (env.levelOf name) (key name) (env.update name f)) ∧
    (∀ field v env', env.store name field v = .ok env' →
      Environment.Stored name field v env env') ∧
    (∀ rounds n index value m m',
      (Stmt.assignElement name index value).perform rounds (invokeAt rounds n) m = .ok () m' →
      ∃ iv i v store m₁ m₂, index.eval (invokeAt rounds n) m = .ok iv m₁ ∧ iv.index? = some i ∧
        value.eval (invokeAt rounds n) m₁ = .ok v m₂ ∧ m₂.env.array name = .ok store ∧
        Environment.StoredElement name store i v m₂.env m'.env ∧
        ∀ other again w m'', again.eval (invokeAt rounds n) m' = .ok w m'' → m''.env = m'.env →
          key other = key name → w.index? = some i →
          (Expr.element other again).eval (invokeAt rounds n) m' =
            if store.inBounds i then .ok v m''
            else .error (.error (.outOfBounds other i store.lower store.upper)) m'') ∧
    ((∀ cell, env.lookup? name = some cell → cell.isConstant = false) → ∀ field v,
      ((∃ env', env.store name field v = .ok env') ↔ ∃ w, env.read name field = .ok w) ∧
      ∀ e, env.store name field v = .error e ↔ env.read name field = .error e) := by
  refine ⟨⟨env.lookup?_eq_cell? name, ?_⟩, fun _ _ _ => Environment.stored_of_store, ?_, ?_⟩
  · intro f
    exact ⟨env.lookup?_update name f, env.sameExcept_update name f⟩
  · intro rounds n index value m m' h
    obtain ⟨iv, i, v, store, m₁, m₂, hindex, hi, hvalue, harray, rfl⟩ := array_of_assignElement h
    have hstored := Environment.storedElement_of_array harray i v
    refine ⟨iv, i, v, store, m₁, m₂, hindex, hi, hvalue, harray, hstored, ?_⟩
    intro other again w m'' hagain henv hkey hw
    have hread := hstored.elements other w
    rw [if_pos ⟨hkey, hw⟩] at hread
    rw [eval_element hagain, reading, henv, hread]
    split <;> rfl
  · intro hc field v
    rcases Environment.store_cases_read hc field v with ⟨env', w, hs, hr⟩ | ⟨e, hs, hr⟩
    · simp [hs, hr]
    · simp [hs, hr]

/-- A local variable of the name of a global one, and an element of a global array beyond its
bounds. -/
theorem reads_see_last_write_shadowed :
    let globals : Frame :=
      .ofList [("A", .array (.create 1 3 "STRING")), ("N", .scalar "STRING" .null)]
    let env : Environment := ⟨globals, [.ofList [("N", .scalar "STRING" .null)]], .empty, .empty⟩
    let chalk : Value := .text "chalk"
    (∃ env', env.store "n" none chalk = .ok env' ∧ env'.read "N" none = .ok chalk ∧
      env'.cell? 0 "N" = env.cell? 0 "N") ∧
    (∃ m', (Stmt.assignElement "a" (.literal (.number 4)) (.literal chalk)).perform 0 (invokeAt 0 0)
        ⟨env, [], none, []⟩ = .ok () m' ∧
      m'.env.readElement "A" (.number 4) = .error (.outOfBounds "A" 4 1 3)) ∧
    (∀ cell, env.lookup? "n" = some cell → cell.isConstant = false) ∧
      ∀ e, env.store "n" (some "f") chalk = .error e ↔ env.read "n" (some "f") = .error e := by
  intro globals env chalk
  have hn := reads_see_last_write env "n"
  have hvariable : ∀ cell, env.lookup? "n" = some cell → cell.isConstant = false := by
    intro cell h
    cases h
    rfl
  refine ⟨?_, ?_, hvariable, (hn.2.2.2 hvariable (some "f") chalk).2⟩
  · have hstored := hn.2.1 none chalk _ rfl
    exact ⟨_, rfl, hstored.reads "N" none, hstored.elsewhere.cells 0 "N" (by decide)⟩
  · obtain ⟨iv, i, v, store, m₁, m₂, hindex, hi, hvalue, harray, hstored, -⟩ :=
      (reads_see_last_write env "a").2.2.1 0 0 (.literal (.number 4)) (.literal chalk)
        ⟨env, [], none, []⟩ _ rfl
    cases hindex
    cases hvalue
    obtain rfl : 4 = i := Option.some.inj hi
    cases harray
    exact ⟨_, rfl, hstored.elements "A" (.number 4)⟩

end Chalkboard
