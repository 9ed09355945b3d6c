import Chalkboard.Proofs.ArraySlots
import Chalkboard.Proofs.Isolation

/-! # Well-formed memory

Whatever a program does, memory keeps its form: names are in upper case and stand once in their
frame, constants and arrays are what they were declared as, arrays have a slot at each index between
their bounds, and calls nest only so deep. This holds where a subroutine is entered, where a
statement is completed, and where the run ends.
-/

namespace Chalkboard

theorem key_key (name : String) : key (key name) = key name := Text.upper_upper name

namespace Dict

variable {α : Type} {d : Dict α}

/-- Each key stands once, and in upper case. -/
structure Keyed (d : Dict α) : Prop where
  distinct : d.keys.Nodup
  upper : ∀ k ∈ d.keys, Chalkboard.key k = k

theorem keyed_empty : (empty : Dict α).Keyed := ⟨List.nodup_nil, fun _ h => nomatch h⟩

theorem Keyed.insert (h : d.Keyed) {k : String} (hk : Chalkboard.key k = k) (a : α) :
    (d.insert k a).Keyed := by
  constructor
  · rw [keys_insert]
    split
    · exact h.distinct
    · rename_i hn
      exact List.nodup_append.mpr ⟨h.distinct, List.nodup_singleton k, by
        rintro k' hk' _ hs rfl
        exact hn (List.mem_singleton.mp hs ▸ hk')⟩
  · intro k' hk'
    rw [keys_insert] at hk'
    split at hk'
    · exact h.upper k' hk'
    · rcases List.mem_append.mp hk' with hk' | hk'
      · exact h.upper k' hk'
      · rwa [List.mem_singleton.mp hk']

theorem Keyed.modify (h : d.Keyed) (k : String) (f : α → α) : (d.modify k f).Keyed := by
  constructor
  · rw [keys_modify]
    exact h.distinct
  · rw [keys_modify]
    exact h.upper

theorem ofList_induction {P : Dict α → Prop} {entries : List (String × α)} (hempty : P empty)
    (hinsert : ∀ d, ∀ entry ∈ entries, P d → P (d.insert entry.1 entry.2)) :
    P (ofList entries) := by
  unfold ofList
  generalize (empty : Dict α) = d at hempty
  induction entries generalizing d with
  | nil => exact hempty
  | cons entry rest ih =>
    exact ih (fun d entry hentry => hinsert d entry (List.mem_cons_of_mem _ hentry)) _
      (hinsert d entry List.mem_cons_self hempty)

theorem mem_insert {k : String} {a : α} {entry : String × α}
    (h : entry ∈ (d.insert k a).entries) : entry = (k, a) ∨ entry ∈ d.entries := by
  obtain ⟨entries⟩ := d
  simp only [insert] at h
  induction entries with
  | nil => exact .inl (List.mem_singleton.mp h)
  | cons first rest ih =>
    simp only [insertEntry] at h
    split at h
    · exact (List.mem_cons.mp h).imp_right (List.mem_cons_of_mem _)
    · rcases List.mem_cons.mp h with rfl | h
      · exact .inr List.mem_cons_self
      · exact (ih h).imp_right (List.mem_cons_of_mem _)

theorem mem_modify {k : String} {f : α → α} {entry : String × α}
    (h : entry ∈ (d.modify k f).entries) :
    entry ∈ d.entries ∨ ∃ old ∈ d.entries, entry.2 = f old.2 := by
  obtain ⟨entries⟩ := d
  simp only [modify] at h
  induction entries with
  | nil => exact absurd h List.not_mem_nil
  | cons first rest ih =>
    simp only [modifyEntry] at h
    split at h
    · rcases List.mem_cons.mp h with rfl | h
      · exact .inr ⟨first, List.mem_cons_self, rfl⟩
      · exact .inl (List.mem_cons_of_mem _ h)
    · rcases List.mem_cons.mp h with rfl | h
      · exact .inl List.mem_cons_self
      · rcases ih h with h | ⟨old, hold, he⟩
        · exact .inl (List.mem_cons_of_mem _ h)
        · exact .inr ⟨old, List.mem_cons_of_mem _ hold, he⟩

theorem mem_of_get? {k : String} {a : α} (h : d.get? k = some a) : (k, a) ∈ d.entries := by
  obtain ⟨entries⟩ := d
  change entries.lookup k = some a at h
  show (k, a) ∈ entries
  induction entries with
  | nil => cases h
  | cons first rest ih =>
    obtain ⟨k', b⟩ := first
    rw [lookup_cons] at h
    split at h
    · rename_i hk
      cases h
      exact hk ▸ List.mem_cons_self
    · exact List.mem_cons_of_mem _ (ih h)

end Dict

namespace ArrayStore

variable {a : ArrayStore}

/-- Each index between the bounds has a slot, and these slots are not more than allowed. -/
structure WellFormed (a : ArrayStore) : Prop where
  covered : a.Covered
  bounded : (a.slots.toList.filter fun slot => a.inBounds slot.1).length ≤ maxSize

/-- In a covered array the bounds alone tell how many slots there are between them. -/
theorem Covered.wellFormed_iff (h : a.Covered) :
    a.WellFormed ↔ (a.upper - a.lower + 1).toNat ≤ maxSize := by
  rw [← h.size, size_eq_length, elements_eq]
  exact ⟨WellFormed.bounded, fun hbounded => ⟨h, hbounded⟩⟩

theorem WellFormed.set (h : a.WellFormed) (i : Int) (v : Value) : (a.set i v).WellFormed :=
  (h.covered.set i v).wellFormed_iff.mpr (h.covered.wellFormed_iff.mp h)

theorem wellFormed_create {lower upper : Int} (h : saturatingSub upper lower < maxSize)
    (type : String) : (create lower upper type).WellFormed :=
  (covered_create lower upper type).wellFormed_iff.mpr
  ((saturatingSub_lt_maxSize_iff lower upper).mp h)

end ArrayStore

namespace Cell

/-- Constants are single values of the type of constants, and neither arrays nor records are
constant. The fields of a record are variables and nothing else. -/
structure WellFormed (cell : Cell) : Prop where
  constant : cell.isConstant = true → cell.shape = .scalar ∧ cell.type = "CONSTANT"
  array : ∀ store, cell.storage = .array store → store.WellFormed ∧ cell.isConstant = false
  record : ∀ fields, cell.storage = .record fields → fields.Keyed ∧ cell.isConstant = false ∧
    ∀ entry ∈ fields.entries, entry.2.isConstant = false ∧ entry.2.shape = .scalar

theorem wellFormed_scalar (type : String) (v : Value) : WellFormed (.scalar type v) := by
  constructor <;> simp [scalar]

theorem wellFormed_constant (v : Value) : WellFormed (.constant v) := by
  constructor <;> simp [constant, shape, Storage.shape]

theorem wellFormed_array {type : String} {store : ArrayStore} (h : store.WellFormed) :
    WellFormed ⟨type, false, .array store⟩ := by
  constructor <;> simp [h]

theorem wellFormed_record {type : String} {fields : Dict Cell} (h : fields.Keyed)
    (hfields : ∀ entry ∈ fields.entries, entry.2.isConstant = false ∧ entry.2.shape = .scalar) :
    WellFormed ⟨type, false, .record fields⟩ := by
  constructor
  · simp
  · simp
  · rintro fields ⟨⟩
    exact ⟨h, rfl, hfields⟩

theorem wellFormed_ofRecordType (t : RecordType) : (ofRecordType t).WellFormed := by
  let entries := t.fields.map fun f => (key f.name, scalar f.type (.default f.type))
  have hfields : (Dict.ofList entries).Keyed ∧ ∀ entry ∈ (Dict.ofList entries).entries,
      entry.2.isConstant = false ∧ entry.2.shape = .scalar := by
    apply Dict.ofList_induction (P := fun d : Dict Cell =>
      d.Keyed ∧ ∀ entry ∈ d.entries, entry.2.isConstant = false ∧ entry.2.shape = .scalar)
    · exact ⟨Dict.keyed_empty, fun _ h => nomatch h⟩
    · rintro d entry hentry ⟨hd, hcells⟩
      obtain ⟨field, -, rfl⟩ := List.mem_map.mp hentry
      refine ⟨hd.insert (key_key _) _, fun entry hentry => ?_⟩
      rcases Dict.mem_insert hentry with rfl | hentry
      · exact ⟨rfl, rfl⟩
      · exact hcells entry hentry
  exact wellFormed_record hfields.1 hfields.2

variable {cell : Cell}

theorem WellFormed.setScalar (h : cell.WellFormed) (v : Value) : (cell.setScalar v).WellFormed where
  constant hc := ⟨rfl, (h.constant hc).2⟩
  array _ hs := nomatch hs
  record _ hs := nomatch hs

theorem WellFormed.setElement (h : cell.WellFormed) (i : Int) (v : Value) :
    (cell.setElement i v).WellFormed := by
  obtain ⟨type, isConstant, storage⟩ := cell
  cases storage with
  | scalar w => exact h
  | array store =>
    obtain ⟨hstore, rfl⟩ := h.array store rfl
    exact wellFormed_array (hstore.set i v)
  | record fields => exact h

theorem WellFormed.setField (h : cell.WellFormed) (field : String) (v : Value) :
    (cell.setField field v).WellFormed := by
  obtain ⟨type, isConstant, storage⟩ := cell
  cases storage with
  | scalar w => exact h
  | array store => exact h
  | record fields =>
    obtain ⟨hkeyed, rfl, hfields⟩ := h.record fields rfl
    refine wellFormed_record (hkeyed.modify _ _) fun entry hentry => ?_
    rcases Dict.mem_modify hentry with hentry | ⟨old, hold, he⟩
    · exact hfields entry hentry
    · rw [he]
      exact ⟨(hfields old hold).1, rfl⟩

end Cell

namespace Frame

variable {frame : Frame}

structure WellFormed (frame : Frame) : Prop where
  keyed : frame.Keyed
  cells : ∀ entry ∈ frame.entries, entry.2.WellFormed

theorem wellFormed_empty : WellFormed .empty := ⟨Dict.keyed_empty, fun _ h => nomatch h⟩

theorem WellFormed.insert (h : frame.WellFormed) (name : String) {cell : Cell}
    (hc : cell.WellFormed) : WellFormed (frame.insert (key name) cell) := by
  refine ⟨h.keyed.insert (key_key name) cell, fun entry hentry => ?_⟩
  rcases Dict.mem_insert hentry with rfl | hentry
  · exact hc
  · exact h.cells entry hentry

theorem WellFormed.modify (h : frame.WellFormed) (k : String) {f : Cell → Cell}
    (hf : ∀ cell, cell.WellFormed → (f cell).WellFormed) : WellFormed (frame.modify k f) := by
  refine ⟨h.keyed.modify k f, fun entry hentry => ?_⟩
  rcases Dict.mem_modify hentry with hentry | ⟨old, hold, he⟩
  · exact h.cells entry hentry
  · rw [he]
    exact hf _ (h.cells old hold)

theorem wellFormed_ofArguments (params : List Param) (args : List Value) :
    WellFormed (Environment.ofArguments params args) := by
  refine Dict.ofList_induction wellFormed_empty ?_
  intro frame entry hentry hframe
  obtain ⟨binding, _, rfl⟩ := List.mem_map.mp hentry
  exact hframe.insert _ (Cell.wellFormed_scalar _ _)

end Frame

namespace Environment

variable {env env' : Environment}

/-- Global memory and all frames of calls are well-formed. -/
structure FramesWellFormed (env : Environment) : Prop where
  globals : env.globals.WellFormed
  locals : ∀ frame ∈ env.frames, frame.WellFormed

structure WellFormed (env : Environment) : Prop extends FramesWellFormed env where
  depth : env.depth ≤ callLimit

namespace FramesWellFormed

variable (h : env.FramesWellFormed)

include h

theorem current : env.current.WellFormed := by
  unfold Environment.current
  cases hf : env.frames with
  | nil => exact h.globals
  | cons frame frames => exact h.locals frame (hf ▸ List.mem_cons_self)

theorem setCurrent {frame : Frame} (hframe : frame.WellFormed) :
    (env.setCurrent frame).FramesWellFormed := by
  obtain ⟨globals, frames, types, subroutines⟩ := env
  cases frames with
  | nil => exact ⟨hframe, h.locals⟩
  | cons top rest =>
    refine ⟨h.globals, fun other hother => ?_⟩
    rcases List.mem_cons.mp hother with rfl | hother
    · exact hframe
    · exact h.locals other (List.mem_cons_of_mem _ hother)

theorem update (name : String) {f : Cell → Cell}
    (hf : ∀ cell, cell.WellFormed → (f cell).WellFormed) :
    (env.update name f).FramesWellFormed := by
  obtain ⟨globals, frames, types, subroutines⟩ := env
  cases frames with
  | nil => exact ⟨h.globals.modify _ hf, h.locals⟩
  | cons top rest =>
    unfold Environment.update
    dsimp only
    split
    · exact h.setCurrent ((h.locals top List.mem_cons_self).modify _ hf)
    · exact ⟨h.globals.modify _ hf, h.locals⟩

theorem push {frame : Frame} (hframe : frame.WellFormed) : (env.push frame).FramesWellFormed :=
  ⟨h.globals, List.forall_mem_cons.mpr ⟨hframe, h.locals⟩⟩

theorem pop : env.pop.FramesWellFormed :=
  ⟨h.globals, fun frame hframe => h.locals frame (List.mem_of_mem_tail hframe)⟩

theorem lookup? {name : String} {cell : Cell} (hc : env.lookup? name = some cell) :
    cell.WellFormed := by
  unfold Environment.lookup? at hc
  split at hc
  · rename_i found hfound
    cases hc
    obtain ⟨frame, hframe, hget⟩ := Option.bind_eq_some_iff.mp hfound
    exact (h.locals frame (List.mem_of_head? hframe)).cells _ (Dict.mem_of_get? hget)
  · exact h.globals.cells _ (Dict.mem_of_get? hc)

end FramesWellFormed

theorem Fresh.wellFormed {cell : Cell} (h : Fresh env cell) : cell.WellFormed := by
  cases h with
  | declared type =>
    unfold newCell
    split
    · exact Cell.wellFormed_ofRecordType _
    · exact Cell.wellFormed_scalar _ _
  | array lower upper elementType hsize =>
    exact Cell.wellFormed_array (ArrayStore.wellFormed_create hsize elementType)
  | constant v => exact Cell.wellFormed_constant v

theorem Change.framesWellFormed (hc : Change env env') (h : env.FramesWellFormed) :
    env'.FramesWellFormed := by
  cases hc with
  | bindNew name cell _ hfresh => exact h.setCurrent (h.current.insert name hfresh.wellFormed)
  | bindCounter name v _ => exact h.setCurrent (h.current.insert name (Cell.wellFormed_scalar _ v))
  | setScalar name v _ => exact h.update name fun _ hcell => hcell.setScalar v
  | setField name field v _ _ => exact h.update name fun _ hcell => hcell.setField field v
  | setElement name i v => exact h.update name fun _ hcell => hcell.setElement i v
  | setCounter name x _ => exact h.setCurrent (h.current.modify _ fun _ hcell => hcell.setScalar _)

theorem framesWellFormed_ofProgram (p : Program) : (ofProgram p).FramesWellFormed where
  globals := by
    rw [(memory_ofProgram p).1]
    exact Frame.wellFormed_empty
  locals frame hframe := by
    rw [(memory_ofProgram p).2] at hframe
    cases hframe

theorem array_of_storage {name : String} {cell : Cell} {store : ArrayStore}
    (hcell : env.lookup? name = some cell) (hstore : cell.storage = .array store) :
    env.array name = .ok store := by
  simp only [array, hcell, hstore]

/-- No slot is missing, so that a read is out of bounds exactly if the name is an array and the
index, a whole number, lies outside of its bounds. -/
theorem FramesWellFormed.readElement_eq_outOfBounds_iff (h : env.FramesWellFormed)
    (name other : String) (at_ : Value) (i lower upper : Int) :
    env.readElement name at_ = .error (.outOfBounds other i lower upper) ↔
      ∃ cell store, env.lookup? name = some cell ∧ cell.storage = .array store ∧
        at_.index? = some i ∧ other = name ∧ lower = store.lower ∧ upper = store.upper ∧
        ¬(lower ≤ i ∧ i ≤ upper) := by
  constructor
  · intro herror
    cases hl : env.lookup? name with
    | none => simp [readElement, array, hl, Bind.bind, Except.bind] at herror
    | some cell =>
      cases hs : cell.storage with
      | array store =>
        cases hi : at_.index? with
        | none => simp [readElement, array, index, hl, hs, hi, Bind.bind, Except.bind] at herror
        | some j =>
          rw [readElement_of_array (array_of_storage hl hs) hi] at herror
          cases hget : store.get? j with
          | some v =>
            rw [hget] at herror
            cases herror
          | none =>
            rw [hget] at herror
            cases herror
            have hcovered : store.Covered := ((h.lookup? hl).array store hs).1.covered
            exact ⟨cell, store, rfl, hs, rfl, rfl, rfl, rfl, hcovered.get?_eq_none_iff.mp hget⟩
      | scalar v => simp [readElement, array, hl, hs, Bind.bind, Except.bind] at herror
      | record fields => simp [readElement, array, hl, hs, Bind.bind, Except.bind] at herror
  · rintro ⟨cell, store, hl, hs, hi, rfl, rfl, rfl, hb⟩
    have hcovered : store.Covered := ((h.lookup? hl).array store hs).1.covered
    rw [readElement_of_array (array_of_storage hl hs) hi, hcovered.get?_eq_none_iff.mpr hb]

/-- Between the bounds, what is read is what the slot holds. -/
theorem FramesWellFormed.readElement (h : env.FramesWellFormed) {name : String} {at_ : Value}
    {cell : Cell} {store : ArrayStore} {i : Int} (hcell : env.lookup? name = some cell)
    (hstore : cell.storage = .array store) (hi : at_.index? = some i) (hl : store.lower ≤ i)
    (hu : i ≤ store.upper) :
    ∃ v, store.slots[i]? = some v ∧ env.readElement name at_ = .ok v := by
  obtain ⟨v, hv, hget⟩ := ((h.lookup? hcell).array store hstore).1.covered.get? hl hu
  refine ⟨v, hv, ?_⟩
  rw [readElement_of_array (array_of_storage hcell hstore) hi, hget]

end Environment

/-- The environment that an event shows. -/
def Event.env? : Event → Option Environment
  | .entered env | .completed _ env => some env
  | .asked _ | .printed _ => none

/-- The environments in which subroutines were entered and statements completed, and the last
one. -/
def Machine.environments (m : Machine) : List Environment :=
  m.env :: m.history.filterMap Event.env?

/-- Memory is and was well-formed, and so many further calls have room. -/
structure Sound (n : Nat) (m : Machine) : Prop where
  room : m.env.depth + n ≤ callLimit
  present : m.env.WellFormed
  past : ∀ e ∈ m.history, ∀ env, e.env? = some env → env.WellFormed

open Exec

namespace Sound

variable {n : Nat} {m : Machine}

theorem record (h : Sound n m) {e : Event} (he : ∀ env, e.env? = some env → env.WellFormed) :
    Sound n (m.record e) :=
  ⟨h.room, h.present, List.forall_mem_cons.mpr ⟨he, h.past⟩⟩

theorem environments (h : Sound n m) : ∀ env ∈ m.environments, env.WellFormed := by
  refine List.forall_mem_cons.mpr ⟨h.present, fun env henv => ?_⟩
  obtain ⟨e, he, hshown⟩ := List.mem_filterMap.mp henv
  exact h.past e he env hshown

theorem ask (h : Sound n m) (name : String) : Sound n ((ask name).final m) := by
  have hr : Sound n (m.record (.asked name)) := h.record fun _ he => nomatch he
  cases ha : m.answers with
  | nil =>
    rw [final_of_error (ask_of_nil ha)]
    exact hr
  | cons answer answers =>
    rw [final_of_ok (ask_of_cons ha)]
    exact ⟨hr.room, hr.present, hr.past⟩

theorem enter (h : Sound (n + 1) m) {frame : Frame} (hframe : frame.WellFormed) :
    Sound n (m.enter frame) := by
  have hroom : m.env.depth + (n + 1) ≤ callLimit := h.room
  have hdepth : m.env.depth + 1 ≤ callLimit := by omega
  have hpush : (m.env.push frame).WellFormed := ⟨h.present.push hframe, hdepth⟩
  have hentered : Sound n { m with env := m.env.push frame, returning := none } := by
    refine ⟨?_, hpush, h.past⟩
    show m.env.depth + 1 + n ≤ callLimit
    omega
  refine hentered.record fun env he => ?_
  cases he
  exact hpush

end Sound

theorem respects_sound (n : Nat) : Respects fun m m' => Sound n m → Sound n m' where
  refl _ h := h
  trans hab hbc h := hbc (hab h)
  change hc h := by
    have hdepth := hc.sameFixtures.depth
    refine ⟨hdepth ▸ h.room, ⟨hc.framesWellFormed h.present.toFramesWellFormed, ?_⟩, h.past⟩
    exact hdepth ▸ h.present.depth
  ask name _ h := h.ask name
  print _ _ h := h.record fun _ he => nomatch he
  complete _ m h := h.record fun env he => by
    cases he
    exact h.present
  giveBack _ _ h := ⟨h.room, h.present, h.past⟩

/-- By induction on the number of calls that may still be nested, which together with the active
ones never exceeds the limit. -/
theorem sound_invokeAt (rounds : Nat) : ∀ n sub args,
    Moves (fun m m' => Sound n m → Sound n m') (invokeAt rounds n sub args) := by
  intro n
  induction n with
  | zero => exact fun _ _ => (respects_sound 0).fail _
  | succ n ih =>
    intro sub args m h
    have hbody := (respects_sound n).carried ih fun sub args =>
      (isolated_invokeAt rounds n sub args).mono Isolated.keepsVariables
    have hafter := (hbody.performAll rounds sub.body _).1
      (h.enter (Frame.wellFormed_ofArguments sub.params args))
    have hframes := (isolated_invokeAt rounds (n + 1) sub args m).frames
    rw [invokeAt, final_activation] at hframes ⊢
    have hroom := (congrArg (·.length + (n + 1)) hframes).trans_le h.room
    exact ⟨hroom, ⟨hafter.present.pop, (Nat.le_add_right _ _).trans hroom⟩, hafter.past⟩

theorem sound_run (rounds : Nat) (p : Program) (answers : List String) :
    Sound callLimit ((p.run rounds).final (Machine.start answers)) := by
  have hload : Sound callLimit ((Machine.start answers).load p) := by
    have hdepth := Environment.depth_ofProgram p
    refine ⟨?_, ⟨Environment.framesWellFormed_ofProgram p, ?_⟩, fun _ he => nomatch he⟩
    · exact (congrArg (· + callLimit) hdepth).trans_le (Nat.zero_add _).le
    · exact hdepth.trans_le (Nat.zero_le _)
  have hrun := (respects_sound callLimit).carried (sound_invokeAt rounds callLimit) fun sub args =>
    (isolated_invokeAt rounds callLimit sub args).mono Isolated.keepsVariables
  exact (hrun.performAll rounds p.statements _).1 hload

/-- In every environment of every run, memory is well-formed, and so an element is missing only if
its index lies outside of the bounds. -/
theorem run_environments_wellFormed (rounds : Nat) (p : Program) (answers : List String) :
    ∀ env ∈ ((p.run rounds).final (Machine.start answers)).environments,
      env.WellFormed ∧
      (∀ name other at_ i lower upper,
        env.readElement name at_ = .error (.outOfBounds other i lower upper) ↔
          ∃ cell store, env.lookup? name = some cell ∧ cell.storage = .array store ∧
            at_.index? = some i ∧ other = name ∧ lower = store.lower ∧ upper = store.upper ∧
            ¬(lower ≤ i ∧ i ≤ upper)) ∧
      (∀ name at_ cell store i, env.lookup? name = some cell → cell.storage = .array store →
        at_.index? = some i → store.lower ≤ i → i ≤ store.upper →
          ∃ v, store.slots[i]? = some v ∧ env.readElement name at_ = .ok v) := by
  intro env henv
  have h : env.WellFormed := (sound_run rounds p answers).environments env henv
  exact ⟨h, h.readElement_eq_outOfBounds_iff,
    fun _ _ _ _ _ hcell hstore hi hl hu => h.readElement hcell hstore hi hl hu⟩

/-- An array of three elements at the end of a run, read at the second one. -/
theorem run_environments_wellFormed_array :
    let p : Program := ⟨[.statement
      (.declareArray ["A"] (.literal (.number 1)) (.literal (.number 3)) "INTEGER")]⟩
    let m := (p.run 1).final (Machine.start [])
    m.env ∈ m.environments ∧ m.env.WellFormed ∧
      m.env.lookup? "a" = some (.array (.create 1 3 "INTEGER")) ∧
      ∃ v, (ArrayStore.create 1 3 "INTEGER").slots[(2 : Int)]? = some v ∧
        m.env.readElement "a" (.number 2) = .ok v := by
  intro p m
  have hmem : m.env ∈ m.environments := List.mem_cons_self
  have hlookup : m.env.lookup? "a" = some (.array (.create 1 3 "INTEGER")) := rfl
  obtain ⟨hwf, _, hread⟩ := run_environments_wellFormed 1 p [] m.env hmem
  exact ⟨hmem, hwf, hlookup, hread "a" (.number 2) _ _ 2 hlookup rfl rfl (by decide) (by decide)⟩

end Chalkboard
