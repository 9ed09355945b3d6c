import Chalkboard.Proofs.Changes

/-! # What accesses to memory depend on

A statement sees global memory, the innermost frame, and the declarations by their names. Each
access to memory gives the same in two environments of which this is the same, and none of them
reports that an answer is missing.
-/

namespace Chalkboard

namespace Environment

variable {env env' env₁ env₂ : Environment}

/-- What a statement can see of an environment is the same in both. -/
structure SameView (env₁ env₂ : Environment) : Prop where
  globals : env₁.globals = env₂.globals
  top : env₁.frames.head? = env₂.frames.head?
  types : ∀ name, env₁.type? name = env₂.type? name
  subroutines : ∀ name, env₁.subroutine? name = env₂.subroutine? name

namespace SameView

variable (h : SameView env₁ env₂)

include h

theorem current : env₁.current = env₂.current := by
  rw [Environment.current, Environment.current, h.top, h.globals]

theorem lookup? (name : String) : env₁.lookup? name = env₂.lookup? name := by
  rw [Environment.lookup?, Environment.lookup?, h.top, h.globals]

theorem newCell (type : String) : env₁.newCell type = env₂.newCell type := by
  rw [Environment.newCell, Environment.newCell, h.types]

theorem read (name : String) (field : Option String) :
    env₁.read name field = env₂.read name field := by
  rw [Environment.read, Environment.read, h.lookup?]

theorem checkWritable (name : String) : env₁.checkWritable name = env₂.checkWritable name := by
  rw [Environment.checkWritable, Environment.checkWritable, h.lookup?]

theorem array (name : String) : env₁.array name = env₂.array name := by
  rw [Environment.array, Environment.array, h.lookup?]

theorem readElement (name : String) (at_ : Value) :
    env₁.readElement name at_ = env₂.readElement name at_ := by
  rw [Environment.readElement, Environment.readElement, h.array]

theorem readCounter (name : String) : env₁.readCounter name = env₂.readCounter name := by
  rw [Environment.readCounter, Environment.readCounter, h.current]

theorem frames_cases : (env₁.frames = [] ∧ env₂.frames = []) ∨
    ∃ top rest₁ rest₂, env₁.frames = top :: rest₁ ∧ env₂.frames = top :: rest₂ := by
  have ht := h.top
  cases h₁ : env₁.frames with
  | nil =>
    cases h₂ : env₂.frames with
    | nil => exact .inl ⟨rfl, rfl⟩
    | cons top rest => simp [h₁, h₂] at ht
  | cons top rest₁ =>
    cases h₂ : env₂.frames with
    | nil => simp [h₁, h₂] at ht
    | cons top' rest₂ =>
      obtain rfl : top = top' := by simpa [h₁, h₂] using ht
      exact .inr ⟨top, rest₁, rest₂, rfl, rfl⟩

/-- Declarations stay, so it is enough to look at memory. -/
theorem of_fixtures {env₁' env₂' : Environment} (h₁ : SameFixtures env₁ env₁')
    (h₂ : SameFixtures env₂ env₂') (hg : env₁'.globals = env₂'.globals)
    (ht : env₁'.frames.head? = env₂'.frames.head?) : SameView env₁' env₂' where
  globals := hg
  top := ht
  types name := by
    rw [type?, type?, h₁.types, h₂.types]
    exact h.types name
  subroutines name := by
    rw [subroutine?, subroutine?, h₁.subroutines, h₂.subroutines]
    exact h.subroutines name

theorem setCurrent (frame : Frame) : SameView (env₁.setCurrent frame) (env₂.setCurrent frame) := by
  refine h.of_fixtures (sameFixtures_setCurrent ..) (sameFixtures_setCurrent ..) ?_ ?_
  all_goals
    rcases h.frames_cases with ⟨h₁, h₂⟩ | ⟨top, rest₁, rest₂, h₁, h₂⟩
    all_goals simp [Environment.setCurrent, h₁, h₂, h.globals]

theorem update (name : String) (f : Cell → Cell) :
    SameView (env₁.update name f) (env₂.update name f) := by
  refine h.of_fixtures (sameFixtures_update ..) (sameFixtures_update ..) ?_ ?_
  · rcases h.frames_cases with ⟨h₁, h₂⟩ | ⟨top, rest₁, rest₂, h₁, h₂⟩
    · simp only [Environment.update, h₁, h₂, h.globals]
    · simp only [Environment.update, h₁, h₂, h.globals]
      split <;> rfl
  · rcases h.frames_cases with ⟨h₁, h₂⟩ | ⟨top, rest₁, rest₂, h₁, h₂⟩
    · simp only [Environment.update, h₁, h₂]
    · simp only [Environment.update, h₁, h₂]
      split <;> rfl

theorem bind (name : String) (cell : Cell) :
    SameView (env₁.bind name cell) (env₂.bind name cell) := by
  rw [Environment.bind, Environment.bind, h.current]
  exact h.setCurrent _

theorem writeCounter (name : String) (x : Float) :
    SameView (env₁.writeCounter name x) (env₂.writeCounter name x) := by
  rw [Environment.writeCounter, Environment.writeCounter, h.current]
  exact h.setCurrent _

theorem declareFold {cell : Environment → Cell}
    (hcell : ∀ {env₁ env₂}, SameView env₁ env₂ → cell env₁ = cell env₂) (names : List String) :
    SameView
      (names.foldl (fun env name =>
        if env.current.contains (key name) then env else env.bind name (cell env)) env₁)
      (names.foldl (fun env name =>
        if env.current.contains (key name) then env else env.bind name (cell env)) env₂) := by
  induction names generalizing env₁ env₂ with
  | nil => exact h
  | cons name names ih =>
    rw [List.foldl_cons, List.foldl_cons, h.current]
    cases env₂.current.contains (key name) with
    | true => exact ih h
    | false =>
      refine ih ?_
      rw [hcell h]
      exact h.bind name _

end SameView

/-- Both environments become ones with the same view, or both give the same error. -/
inductive SameResult :
    Except RuntimeError Environment → Except RuntimeError Environment → Prop where
  | ok {env₁ env₂ : Environment} : SameView env₁ env₂ → SameResult (.ok env₁) (.ok env₂)
  | error (e : RuntimeError) : SameResult (.error e) (.error e)

theorem SameResult.cases {r₁ r₂ : Except RuntimeError Environment} (h : SameResult r₁ r₂) :
    (∃ env₁ env₂, r₁ = .ok env₁ ∧ r₂ = .ok env₂ ∧ SameView env₁ env₂) ∨
    (∃ e, r₁ = .error e ∧ r₂ = .error e) := by
  cases h with
  | ok h => exact .inl ⟨_, _, rfl, rfl, h⟩
  | error e => exact .inr ⟨e, rfl, rfl⟩

namespace SameView

variable (h : SameView env₁ env₂)

include h

theorem declare (names : List String) (type : String) :
    SameView (env₁.declare names type) (env₂.declare names type) :=
  h.declareFold (fun h => h.newCell type) names

theorem declareArrays (names : List String) (lower upper : Value) (type : String) :
    SameResult (env₁.declareArrays names lower upper type)
      (env₂.declareArrays names lower upper type) := by
  simp only [Environment.declareArrays, Bind.bind, Except.bind]
  cases bound (names.headD "") lower with
  | error e => exact .error e
  | ok lower =>
    cases bound (names.headD "") upper with
    | error e => exact .error e
    | ok upper =>
      dsimp only
      split
      · exact .error _
      · exact .ok (h.declareFold (fun _ => rfl) names)

theorem declareConstant (name : String) (v : Value) :
    SameResult (env₁.declareConstant name v) (env₂.declareConstant name v) := by
  rw [Environment.declareConstant, Environment.declareConstant, h.current]
  split
  · exact .ok (h.bind name _)
  · split
    · exact .ok h
    · exact .error _

theorem bindCounter (name : String) (v : Value) :
    SameResult (env₁.bindCounter name v) (env₂.bindCounter name v) := by
  rw [Environment.bindCounter, Environment.bindCounter, h.current]
  split
  · exact .error _
  · exact .ok (h.bind name _)

theorem store (name : String) (field : Option String) (v : Value) :
    SameResult (env₁.store name field v) (env₂.store name field v) := by
  rw [Environment.store, Environment.store, h.lookup?]
  split
  · exact .error _
  · split
    · exact .error _
    · split
      · exact .ok (h.update name _)
      · exact .error _
      · split
        · exact .ok (h.update name _)
        · exact .error _
      · exact .error _

end SameView

end Environment

/-- The result is no report of a missing answer. -/
def NotAsking {α : Type} (r : Except RuntimeError α) : Prop := ∀ name, r ≠ .error (.noInput name)

theorem NotAsking.bind {α β : Type} {r : Except RuntimeError α} {f : α → Except RuntimeError β}
    (hr : NotAsking r) (hf : ∀ a, NotAsking (f a)) : NotAsking (r >>= f) := by
  cases r with
  | ok a => exact hf a
  | error e =>
    intro name h
    cases h
    exact hr name rfl

namespace Environment

variable (env : Environment) (name : String)

theorem notAsking_read (field : Option String) : NotAsking (env.read name field) := by
  intro other
  unfold read
  split
  · simp
  · split
    · simp
    · simp
    · split <;> simp
    · simp

theorem notAsking_checkWritable : NotAsking (env.checkWritable name) := by
  intro other
  unfold checkWritable
  split
  · simp
  · split <;> simp

theorem notAsking_array : NotAsking (env.array name) := by
  intro other
  unfold array
  split
  · simp
  · split <;> simp

theorem notAsking_index (v : Value) : NotAsking (index name v) := by
  intro other
  unfold index
  split <;> simp

theorem notAsking_bound (v : Value) : NotAsking (bound name v) := by
  intro other
  unfold bound
  split <;> simp

theorem notAsking_readElement (v : Value) : NotAsking (env.readElement name v) := by
  refine (env.notAsking_array name).bind fun store => (notAsking_index name v).bind fun i => ?_
  intro other
  split <;> simp

theorem notAsking_readCounter : NotAsking (env.readCounter name) := by
  intro other
  unfold readCounter
  split
  · simp
  · split <;> simp

theorem notAsking_store (field : Option String) (v : Value) :
    NotAsking (env.store name field v) := by
  intro other
  unfold store
  split
  · simp
  · split
    · simp
    · split
      · simp
      · simp
      · split <;> simp
      · simp

theorem notAsking_declareArrays (names : List String) (lower upper : Value) (type : String) :
    NotAsking (env.declareArrays names lower upper type) := by
  refine (notAsking_bound _ lower).bind fun lower => (notAsking_bound _ upper).bind fun upper => ?_
  intro other
  split <;> simp

theorem notAsking_declareConstant (v : Value) : NotAsking (env.declareConstant name v) := by
  intro other
  unfold declareConstant
  split
  · simp
  · split <;> simp

theorem notAsking_bindCounter (v : Value) : NotAsking (env.bindCounter name v) := by
  intro other
  unfold bindCounter
  split <;> simp

variable {env name}

/-- A reading access: it depends on what is in sight, and only asking reports a missing answer. -/
structure Reads {α : Type} (f : Environment → Except RuntimeError α) : Prop where
  view : ∀ {env₁ env₂}, SameView env₁ env₂ → f env₁ = f env₂
  notAsking : ∀ env, NotAsking (f env)

/-- A writing access: it depends on what is in sight, and leaves the frames of callers and the
declarations alone. -/
structure Writes (f : Environment → Except RuntimeError Environment) : Prop where
  view : ∀ {env₁ env₂}, SameView env₁ env₂ → SameResult (f env₁) (f env₂)
  fixtures : ∀ {env env'}, f env = .ok env' → SameFixtures env env'
  notAsking : ∀ env, NotAsking (f env)

/-- A write that never fails. -/
theorem writes_of_ok {f : Environment → Environment}
    (hview : ∀ {env₁ env₂}, SameView env₁ env₂ → SameView (f env₁) (f env₂))
    (hfix : ∀ env, SameFixtures env (f env)) : Writes fun env => .ok (f env) where
  view h := .ok (hview h)
  fixtures h := by
    cases h
    exact hfix _
  notAsking _ _ := by simp

variable (name)

theorem reads_read (field : Option String) : Reads (·.read name field) :=
  ⟨fun h => h.read name field, fun env => env.notAsking_read name field⟩

theorem reads_checkWritable : Reads (·.checkWritable name) :=
  ⟨fun h => h.checkWritable name, fun env => env.notAsking_checkWritable name⟩

theorem reads_array : Reads (·.array name) :=
  ⟨fun h => h.array name, fun env => env.notAsking_array name⟩

theorem reads_readElement (v : Value) : Reads (·.readElement name v) :=
  ⟨fun h => h.readElement name v, fun env => env.notAsking_readElement name v⟩

theorem reads_readCounter : Reads (·.readCounter name) :=
  ⟨fun h => h.readCounter name, fun env => env.notAsking_readCounter name⟩

theorem writes_declare (names : List String) (type : String) :
    Writes fun env => .ok (env.declare names type) :=
  writes_of_ok (fun h => h.declare names type) fun env =>
  (env.changes_declare names type).sameFixtures

theorem writes_declareArrays (names : List String) (lower upper : Value) (type : String) :
    Writes (·.declareArrays names lower upper type) where
  view h := h.declareArrays names lower upper type
  fixtures h := (changes_of_declareArrays h).sameFixtures
  notAsking env := env.notAsking_declareArrays names lower upper type

theorem writes_declareConstant (v : Value) : Writes (·.declareConstant name v) where
  view h := h.declareConstant name v
  fixtures h := (changes_of_declareConstant h).sameFixtures
  notAsking env := env.notAsking_declareConstant name v

theorem writes_store (field : Option String) (v : Value) : Writes (·.store name field v) where
  view h := h.store name field v
  fixtures h := (change_of_store h).sameFixtures
  notAsking env := env.notAsking_store name field v

theorem writes_storeElement (i : Int) (v : Value) :
    Writes fun env => .ok (env.storeElement name i v) :=
  writes_of_ok (fun h => h.update name _) fun _ => sameFixtures_update ..

theorem writes_bindCounter (v : Value) : Writes (·.bindCounter name v) where
  view h := h.bindCounter name v
  fixtures h := (change_of_bindCounter h).1.sameFixtures
  notAsking env := env.notAsking_bindCounter name v

theorem writes_writeCounter (x : Float) : Writes fun env => .ok (env.writeCounter name x) :=
  writes_of_ok (fun h => h.writeCounter name x) fun _ => sameFixtures_setCurrent ..

end Environment

end Chalkboard
