import Chalkboard.Proofs.Renaming
import Chalkboard.Proofs.WellFormed

/-! # Plain spelling

A program or a machine is in its plain form when every name and every type is in upper case and no
parameter is passed by reference. Memory is looked up by upper-case names, so that its plain form
answers for every spelling of a name what memory itself answers, types aside. What is written there
leaves the plain form of what is written to memory itself.
-/

namespace Chalkboard

namespace Dict

variable {α β : Type} (g : α → β)

def map (d : Dict α) : Dict β := ⟨d.entries.map fun entry => (entry.1, g entry.2)⟩

@[simp] theorem get?_map (d : Dict α) (k : String) : (d.map g).get? k = (d.get? k).map g := by
  obtain ⟨entries⟩ := d
  simp only [map, get?]
  induction entries with
  | nil => rfl
  | cons entry rest ih =>
    obtain ⟨k', a⟩ := entry
    rw [List.map_cons, lookup_cons, lookup_cons]
    split
    · rfl
    · exact ih

@[simp] theorem contains_map (d : Dict α) (k : String) : (d.map g).contains k = d.contains k := by
  simp [contains]

theorem map_insert (d : Dict α) (k : String) (a : α) :
    (d.insert k a).map g = (d.map g).insert k (g a) := by
  obtain ⟨entries⟩ := d
  simp only [map, insert, Dict.mk.injEq]
  induction entries with
  | nil => rfl
  | cons entry rest ih => by_cases h : entry.1 = k <;> simp [insertEntry, h, ih]

theorem map_modify {h : α → α} {h' : β → β} (hg : ∀ a, g (h a) = h' (g a)) (d : Dict α)
    (k : String) : (d.modify k h).map g = (d.map g).modify k h' := by
  obtain ⟨entries⟩ := d
  simp only [map, modify, Dict.mk.injEq]
  induction entries with
  | nil => rfl
  | cons entry rest ih => by_cases hk : entry.1 = k <;> simp [modifyEntry, hk, ih, hg]

theorem map_ofList (entries : List (String × α)) :
    (ofList entries).map g = ofList (entries.map fun entry => (entry.1, g entry.2)) := by
  have hfold : ∀ d : Dict α, (entries.foldl (fun d entry => d.insert entry.1 entry.2) d).map g =
      (entries.map fun entry => (entry.1, g entry.2)).foldl
        (fun d entry => d.insert entry.1 entry.2) (d.map g) := by
    induction entries with
    | nil => exact fun d => rfl
    | cons entry rest ih =>
      intro d
      rw [List.foldl_cons, ih, map_insert, List.map_cons, List.foldl_cons]
  exact hfold empty

end Dict

/-! ## Plain forms -/

def ArrayStore.plain (a : ArrayStore) : ArrayStore := { a with elementType := key a.elementType }

mutual

def Storage.plain : Storage → Storage
  | .scalar v => .scalar v
  | .array store => .array store.plain
  | .record ⟨fields⟩ => .record ⟨Cell.plainFields fields⟩

def Cell.plain : Cell → Cell
  | ⟨type, isConstant, storage⟩ => ⟨key type, isConstant, storage.plain⟩

def Cell.plainFields : List (String × Cell) → List (String × Cell)
  | [] => []
  | (name, cell) :: fields => (name, cell.plain) :: Cell.plainFields fields

end

def Frame.plain (frame : Frame) : Frame := Dict.map Cell.plain frame

def Subroutine.plain (s : Subroutine) : Subroutine := (s.rename key).unmarked

def Program.plain (p : Program) : Program := (p.rename key).unmarked

def Environment.plain (env : Environment) : Environment where
  globals := Frame.plain env.globals
  frames := env.frames.map Frame.plain
  types := env.types.map (RecordType.rename key)
  subroutines := env.subroutines.map Subroutine.plain

def RuntimeError.plain : RuntimeError → RuntimeError
  | undeclared name => undeclared (key name)
  | noField record field => noField (key record) (key field)
  | notArray name => notArray (key name)
  | notScalar name shape => notScalar (key name) shape
  | outOfBounds name index lower upper => outOfBounds (key name) index lower upper
  | indexNotWhole name value => indexNotWhole (key name) value
  | boundNotWhole name value => boundNotWhole (key name) value
  | tooManyElements name => tooManyElements (key name)
  | constantAssigned name => constantAssigned (key name)
  | alreadyVariable name => alreadyVariable (key name)
  | unknownFunction name => unknownFunction (key name)
  | unknownProcedure name => unknownProcedure (key name)
  | procedureInExpression name => procedureInExpression (key name)
  | badStep counter => badStep (key counter)
  | tooManyCalls name limit => tooManyCalls (key name) limit
  | noInput name => noInput (key name)

theorem RuntimeError.code_plain (e : RuntimeError) : e.plain.code = e.code := by
  cases e <;> rfl

def Event.plain : Event → Event
  | asked name => asked (key name)
  | printed line => printed line
  | entered env => entered env.plain
  | completed stmt env => completed (stmt.rename key) env.plain

def Machine.plain (m : Machine) : Machine :=
  ⟨m.env.plain, m.answers, m.returning, m.history.map Event.plain⟩

def Stop.plain : Stop → Stop
  | error e => error e.plain
  | unfinished => unfinished

/-! ## Declarations -/

namespace Program

/-- Items of one kind are found in the plain form where they were. -/
theorem filterMap_items_plain {α : Type} {kind? : Item → Option α} {g : α → α}
    (h : ∀ i : Item, kind? (i.rename key).unmarked = (kind? i).map g) (p : Program) :
    p.plain.items.filterMap kind? = (p.items.filterMap kind?).map g := by
  simp only [plain, rename, unmarked, List.map_map, List.filterMap_map, List.map_filterMap]
  congr 1
  exact funext h

theorem recordTypes_plain (p : Program) :
    p.plain.recordTypes = p.recordTypes.map (RecordType.rename key) :=
  filterMap_items_plain (fun i => by cases i <;> rfl) p

theorem subroutines_plain (p : Program) :
    p.plain.subroutines = p.subroutines.map Subroutine.plain :=
  filterMap_items_plain (fun i => by cases i <;> rfl) p

theorem statements_plain (p : Program) : p.plain.statements = Stmt.renameAll key p.statements := by
  rw [Stmt.renameAll_eq_map]
  exact filterMap_items_plain (fun i => by cases i <;> rfl) p

end Program

/-! ## Cells -/

theorem Value.default_key (type : String) : Value.default (key type) = Value.default type := by
  have h : Text.upper (key type) = Text.upper type := key_key type
  simp only [Value.default, h]

namespace ArrayStore

@[simp] theorem get?_plain (a : ArrayStore) (i : Int) : a.plain.get? i = a.get? i := rfl

theorem plain_create (lower upper : Int) (type : String) :
    (create lower upper type).plain = create lower upper (key type) := by
  simp only [create, plain, Value.default_key]

end ArrayStore

namespace Cell

theorem plainFields_eq (fields : List (String × Cell)) :
    plainFields fields = fields.map fun entry => (entry.1, entry.2.plain) := by
  induction fields with
  | nil => rfl
  | cons entry rest ih => rw [plainFields, ih, List.map_cons]

theorem plain_record (fields : Dict Cell) :
    (Storage.record fields).plain = .record (fields.map plain) := by
  obtain ⟨entries⟩ := fields
  rw [Storage.plain, plainFields_eq]
  rfl

variable (c : Cell)

@[simp] theorem isConstant_plain : c.plain.isConstant = c.isConstant := by
  obtain ⟨type, isConstant, storage⟩ := c
  cases storage <;> rfl

@[simp] theorem shape_plain : c.plain.shape = c.shape := by
  obtain ⟨type, isConstant, storage⟩ := c
  cases storage <;> rfl

@[simp] theorem scalarValue?_plain : c.plain.scalarValue? = c.scalarValue? := by
  obtain ⟨type, isConstant, storage⟩ := c
  cases storage <;> rfl

@[simp] theorem plain_scalar (type : String) (v : Value) :
    (scalar type v).plain = scalar (key type) v := rfl

theorem plain_setScalar (v : Value) : (c.setScalar v).plain = c.plain.setScalar v := by
  obtain ⟨type, isConstant, storage⟩ := c
  cases storage <;> rfl

theorem plain_setElement (i : Int) (v : Value) :
    (c.setElement i v).plain = c.plain.setElement i v := by
  obtain ⟨type, isConstant, storage⟩ := c
  cases storage <;> rfl

theorem plain_setField (field : String) (v : Value) :
    (c.setField field v).plain = c.plain.setField (key field) v := by
  obtain ⟨type, isConstant, storage⟩ := c
  cases storage with
  | scalar w => rfl
  | array store => rfl
  | record fields =>
    simp only [setField, plain, plain_record, key_key]
    rw [Dict.map_modify plain (plain_setScalar (v := v))]

theorem plain_ofRecordType (t : RecordType) :
    (Cell.ofRecordType t).plain = .ofRecordType (t.rename key) := by
  simp [ofRecordType, plain, plain_record, RecordType.rename, FieldDecl.rename, Dict.map_ofList,
    Function.comp_def, key_key, Value.default_key, plain_scalar]

end Cell

/-! ## Environments -/

namespace Frame

theorem plain_ofArguments (params : List Param) (args : List Value) :
    Frame.plain (Environment.ofArguments params args) =
      Environment.ofArguments (params.map fun p => (p.rename key).unmarked) args := by
  simp [Environment.ofArguments, Frame.plain, Dict.map_ofList, List.zip_map_left,
    Function.comp_def, Param.rename, Param.unmarked, key_key]

end Frame

/-- What an access gives in the plain form: the same value, and an error about the plain name. -/
def plainError {α β : Type} (g : α → β) : Except RuntimeError α → Except RuntimeError β
  | .ok a => .ok (g a)
  | .error e => .error e.plain

namespace Environment

variable (env : Environment) (name type : String) (v : Value)

@[simp] theorem lookup?_plain :
    env.plain.lookup? (key name) = (env.lookup? name).map Cell.plain := by
  obtain ⟨globals, frames, types, subroutines⟩ := env
  cases frames with
  | nil => simp [lookup?, plain, Frame.plain, key_key]
  | cons top rest =>
    simp only [lookup?, plain, Frame.plain, key_key, List.map_cons, List.head?_cons,
      Option.bind_some, Dict.get?_map]
    cases top.get? (key name) <;> rfl

@[simp] theorem current_plain : env.plain.current = Frame.plain env.current := by
  obtain ⟨globals, frames, types, subroutines⟩ := env
  cases frames <;> rfl

theorem plain_setCurrent (frame : Frame) :
    (env.setCurrent frame).plain = env.plain.setCurrent (Frame.plain frame) := by
  obtain ⟨globals, frames, types, subroutines⟩ := env
  cases frames <;> rfl

theorem plain_bind (cell : Cell) :
    (env.bind name cell).plain = env.plain.bind (key name) cell.plain := by
  rw [bind, plain_setCurrent, Frame.plain, Dict.map_insert, bind, current_plain,
    key_key, Frame.plain]

theorem plain_update {f f' : Cell → Cell} (hf : ∀ c, (f c).plain = f' c.plain) :
    (env.update name f).plain = env.plain.update (key name) f' := by
  obtain ⟨globals, frames, types, subroutines⟩ := env
  cases frames with
  | nil =>
    simp only [update, plain, Frame.plain, key_key, List.map_nil]
    rw [Dict.map_modify Cell.plain hf]
  | cons top rest =>
    simp only [update, plain, Frame.plain, key_key, List.map_cons, Dict.contains_map]
    split
    · simp only [List.map_cons, Frame.plain]
      rw [Dict.map_modify Cell.plain hf]
    · simp only [List.map_cons, Frame.plain]
      rw [Dict.map_modify Cell.plain hf]

theorem newCell_plain : env.plain.newCell (key type) = (env.newCell type).plain := by
  simp only [newCell, type?, plain, key_key, Dict.get?_map]
  cases env.types.get? (key type) with
  | none => simp only [Option.map_none, Cell.plain_scalar, Value.default_key]
  | some t => rw [Option.map_some, Cell.plain_ofRecordType]

theorem read_plain (field : Option String) :
    env.plain.read (key name) (field.map key) = plainError id (env.read name field) := by
  unfold read
  rw [lookup?_plain]
  cases env.lookup? name with
  | none => rfl
  | some cell =>
    obtain ⟨type, isConstant, storage⟩ := cell
    cases field with
    | none => cases storage <;> rfl
    | some field =>
      cases storage with
      | scalar w => rfl
      | array store => rfl
      | record fields =>
        simp only [Option.map_some, Cell.plain, Cell.plain_record, key_key, Dict.get?_map]
        cases fields.get? (key field) with
        | none => rfl
        | some cell =>
          simp only [Option.map_some, Option.bind_some, Cell.scalarValue?_plain]
          cases cell.scalarValue? <;> rfl

theorem checkWritable_plain :
    env.plain.checkWritable (key name) = plainError id (env.checkWritable name) := by
  unfold checkWritable
  rw [lookup?_plain]
  cases env.lookup? name with
  | none => rfl
  | some cell =>
    simp only [Option.map_some, Cell.isConstant_plain]
    cases cell.isConstant <;> rfl

theorem array_plain :
    env.plain.array (key name) = plainError ArrayStore.plain (env.array name) := by
  unfold array
  rw [lookup?_plain]
  cases env.lookup? name with
  | none => rfl
  | some cell =>
    obtain ⟨type, isConstant, storage⟩ := cell
    cases storage <;> rfl

theorem index_key : index (key name) v = plainError id (index name v) := by
  unfold index
  cases v.index? <;> rfl

theorem readElement_plain :
    env.plain.readElement (key name) v = plainError id (env.readElement name v) := by
  unfold readElement
  rw [array_plain, index_key]
  cases env.array name with
  | error e => rfl
  | ok store =>
    cases index name v with
    | error e => rfl
    | ok i =>
      simp only [plainError, Bind.bind, Except.bind, id_eq, ArrayStore.get?_plain]
      cases store.get? i <;> rfl

theorem store_plain (field : Option String) :
    env.plain.store (key name) (field.map key) v = plainError plain (env.store name field v) := by
  unfold store
  rw [lookup?_plain]
  cases env.lookup? name with
  | none => rfl
  | some cell =>
    obtain ⟨type, isConstant, storage⟩ := cell
    cases isConstant with
    | true => cases field <;> rfl
    | false =>
      cases field with
      | none =>
        cases storage with
        | scalar w =>
          exact congrArg Except.ok (plain_update env name (Cell.plain_setScalar (v := v))).symm
        | array store => rfl
        | record fields => rfl
      | some field =>
        cases storage with
        | scalar w => rfl
        | array store => rfl
        | record fields =>
          simp only [Option.map_some, Cell.plain, Cell.plain_record, key_key, Dict.get?_map]
          cases fields.get? (key field) with
          | none => rfl
          | some cell =>
            simp only [Option.map_some, Option.bind_some, Cell.scalarValue?_plain]
            cases cell.scalarValue? with
            | none => rfl
            | some w =>
              exact congrArg Except.ok
                (plain_update env name fun c => c.plain_setField field v).symm

theorem storeElement_plain (i : Int) :
    env.plain.storeElement (key name) i v = (env.storeElement name i v).plain := by
  rw [storeElement, storeElement, plain_update env name fun c => c.plain_setElement i v]

/-- Names of the current frame keep what they have, and the others get a new cell. -/
theorem plain_declareFold {new new' : Environment → Cell}
    (hnew : ∀ env, new' env.plain = (new env).plain) (names : List String) :
    (names.foldl (fun env name =>
      if env.current.contains (key name) then env else env.bind name (new env)) env).plain =
    (names.map key).foldl (fun env name =>
      if env.current.contains (key name) then env else env.bind name (new' env)) env.plain := by
  induction names generalizing env with
  | nil => rfl
  | cons name names ih =>
    rw [List.foldl_cons, ih, List.map_cons, List.foldl_cons]
    congr 1
    rw [current_plain, Frame.plain, Dict.contains_map, key_key]
    split
    · rfl
    · rw [plain_bind, hnew]

theorem declare_plain (names : List String) :
    env.plain.declare (names.map key) (key type) = (env.declare names type).plain :=
  (plain_declareFold env (fun env => newCell_plain env type) names).symm

theorem bound_key : bound (key name) v = plainError id (bound name v) := by
  unfold bound
  cases v.index? <;> rfl

theorem declareArrays_plain (names : List String) (lower upper : Value) :
    env.plain.declareArrays (names.map key) lower upper (key type) =
      plainError plain (env.declareArrays names lower upper type) := by
  have hfirst : (names.map key).headD "" = key (names.headD "") := by
    cases names <;> rfl
  unfold declareArrays
  simp only [hfirst, bound_key]
  cases bound (names.headD "") lower with
  | error e => rfl
  | ok l =>
    cases bound (names.headD "") upper with
    | error e => rfl
    | ok u =>
      change (if ArrayStore.maxSize ≤ ArrayStore.saturatingSub u l then _ else Except.ok _) =
        plainError plain (if ArrayStore.maxSize ≤ ArrayStore.saturatingSub u l then _ else .ok _)
      split
      · rfl
      · refine congrArg Except.ok (plain_declareFold env (fun _ => ?_) names).symm
        exact congrArg Cell.array (ArrayStore.plain_create l u type).symm

theorem declareConstant_plain :
    env.plain.declareConstant (key name) v = plainError plain (env.declareConstant name v) := by
  unfold declareConstant
  rw [current_plain, Frame.plain, key_key, Dict.get?_map]
  cases env.current.get? (key name) with
  | none => rw [plainError, plain_bind]; rfl
  | some cell =>
    simp only [Option.map_some, Cell.isConstant_plain]
    cases cell.isConstant <;> rfl

theorem bindCounter_plain :
    env.plain.bindCounter (key name) v = plainError plain (env.bindCounter name v) := by
  have hbind : env.plain.bind (key name) (.scalar "INTEGER" v) =
      (env.bind name (.scalar "INTEGER" v)).plain := by
    rw [plain_bind]
    rfl
  unfold bindCounter
  rw [current_plain, Frame.plain, key_key, Dict.get?_map]
  cases env.current.get? (key name) with
  | none => exact congrArg Except.ok hbind
  | some cell =>
    simp only [Option.map_some, Option.any_some, Cell.isConstant_plain]
    split
    · rfl
    · exact congrArg Except.ok hbind

theorem readCounter_plain :
    env.plain.readCounter (key name) = plainError id (env.readCounter name) := by
  unfold readCounter
  rw [current_plain, Frame.plain, key_key, Dict.get?_map]
  cases env.current.get? (key name) with
  | none => rfl
  | some cell =>
    simp only [Option.map_some, Cell.scalarValue?_plain, Cell.shape_plain]
    cases cell.scalarValue? <;> rfl

theorem writeCounter_plain (x : Float) :
    env.plain.writeCounter (key name) x = (env.writeCounter name x).plain := by
  rw [writeCounter, writeCounter, plain_setCurrent, current_plain, key_key, Frame.plain,
    Frame.plain, Dict.map_modify Cell.plain fun c => c.plain_setScalar (.number x)]

theorem subroutine?_plain :
    env.plain.subroutine? (key name) = (env.subroutine? name).map Subroutine.plain := by
  simp only [subroutine?, plain, key_key, Dict.get?_map]

theorem plain_ofProgram (p : Program) : ofProgram p.plain = (ofProgram p).plain := by
  have htypes : ∀ (ts : List RecordType) (env : Environment),
      (ts.map (RecordType.rename key)).foldl declareType env.plain =
        (ts.foldl declareType env).plain := by
    intro ts
    induction ts with
    | nil => exact fun env => rfl
    | cons t ts ih =>
      intro env
      rw [List.map_cons, List.foldl_cons, List.foldl_cons, ← ih]
      simp [declareType, plain, Dict.map_insert, RecordType.rename, key_key]
  have hsubs : ∀ (subs : List Subroutine) (env : Environment),
      (subs.map Subroutine.plain).foldl declareSubroutine env.plain =
        (subs.foldl declareSubroutine env).plain := by
    intro subs
    induction subs with
    | nil => exact fun env => rfl
    | cons sub subs ih =>
      intro env
      rw [List.map_cons, List.foldl_cons, List.foldl_cons, ← ih]
      simp [declareSubroutine, plain, Dict.map_insert, Subroutine.plain, Subroutine.rename,
        Subroutine.unmarked, key_key]
  have hempty : empty = empty.plain := rfl
  rw [ofProgram, Program.recordTypes_plain, Program.subroutines_plain, hempty, htypes,
    hsubs, ofProgram]

end Environment

end Chalkboard
