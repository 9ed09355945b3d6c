import Chalkboard.Proofs.Isolation
import Chalkboard.Proofs.Lockstep

/-! # Checks that come late

Some checks are made once before user code runs and once more after it: the counter of a loop, the
array of an element, the variable of an assignment. The second check never fails, since calls are
isolated and no statement turns a variable of its own frame into something else. For loops this is
said of the loop as it runs: whatever were done in place of a failed check, the loop is the same.
-/

namespace Chalkboard

open Exec

theorem Environment.lookup?_update (env : Environment) (name : String) (f : Cell → Cell) :
    (env.update name f).lookup? name = (env.lookup? name).map f := by
  obtain ⟨globals, frames, types, subroutines⟩ := env
  cases frames with
  | nil => simp [update, lookup?]
  | cons top rest =>
    cases hc : top.contains (key name) with
    | true =>
      obtain ⟨cell, hcell⟩ := Option.isSome_iff_exists.mp hc
      simp [update, lookup?, hc, hcell]
    | false =>
      have hn := Dict.get?_of_not_contains hc
      simp [update, lookup?, hc, hn]

namespace Isolated

variable {m m' : Machine} (h : Isolated m m')

include h

theorem outline_lookup? (name : String) :
    (m'.env.lookup? name).map Cell.outline = (m.env.lookup? name).map Cell.outline := by
  rw [Environment.lookup?, Environment.lookup?, h.frames]
  cases m.env.frames.head?.bind (·.get? (key name)) with
  | some cell => rfl
  | none =>
    show (m'.env.globals.get? (key name)).map Cell.outline =
      (m.env.globals.get? (key name)).map Cell.outline
    rw [← Frame.lookup_outline, ← Frame.lookup_outline, h.globals]

theorem array {name : String} {store : ArrayStore} (hfound : m.env.array name = .ok store) :
    ∃ store', m'.env.array name = .ok store' ∧
      store'.lower = store.lower ∧ store'.upper = store.upper := by
  obtain ⟨type, isConstant, hl⟩ := Environment.array_eq_ok.mp hfound
  have ho := h.outline_lookup? name
  rw [hl] at ho
  cases hl' : m'.env.lookup? name with
  | none => simp [hl'] at ho
  | some cell =>
    obtain ⟨type', isConstant', storage⟩ := cell
    rw [hl'] at ho
    cases storage with
    | array store' =>
      obtain ⟨-, -, hform⟩ := Outline.mk.inj (Option.some.inj ho)
      obtain ⟨hlower, hupper, -⟩ := Form.array.inj hform
      exact ⟨store', Environment.array_eq_ok.mpr ⟨type', isConstant', hl'⟩, hlower, hupper⟩
    | scalar v => cases ho
    | record fields => cases ho

theorem checkWritable (name : String) :
    m'.env.checkWritable name = m.env.checkWritable name := by
  have ho := h.outline_lookup? name
  rw [Environment.checkWritable, Environment.checkWritable]
  cases hl : m.env.lookup? name with
  | none =>
    rw [hl, Option.map_none, Option.map_eq_none_iff] at ho
    rw [ho]
  | some cell =>
    rw [hl] at ho
    obtain ⟨cell', hl', ho⟩ := Option.map_eq_some_iff.mp ho
    have hconstant : cell'.isConstant = cell.isConstant := congrArg Outline.isConstant ho
    simp only [hl', hconstant]

end Isolated

theorem keepsVariables_eval (rounds n : Nat) (e : Expr) :
    Moves KeepsVariables (e.eval (invokeAt rounds n)) :=
  (isolated_eval rounds n e).mono Isolated.keepsVariables

theorem keepsVariables_performAll (rounds n : Nat) (stmts : List Stmt) :
    Moves KeepsVariables (Stmt.performAll rounds (invokeAt rounds n) stmts) := by
  have hcall : ∀ sub args, Moves KeepsVariables (invokeAt rounds n sub args) :=
    fun sub args => (isolated_invokeAt rounds n sub args).mono Isolated.keepsVariables
  exact ((respects_keepsVariables.carried hcall hcall).performAll rounds stmts).mono And.left

/-- What might be done in a loop if its counter were no variable: at the test, before the counter is
advanced, and in place of the advance. -/
structure Fallback where
  test : Exec Float
  next : Exec Float
  advance : Exec Unit

/-- The number of a counter that is a variable of the current frame. -/
def counterOr (late : Exec Float) (counter : String) : Exec Float := fun m =>
  match m.env.current.get? (key counter) with
  | some ⟨_, false, .scalar v⟩ => .ok v.toNumber m
  | _ => late m

/-- A new number for a counter that is a variable of the current frame. -/
def advanceOr (late : Exec Unit) (counter : String) (x : Float) : Exec Unit := fun m =>
  match m.env.current.get? (key counter) with
  | some ⟨type, false, .scalar _⟩ =>
    .ok () { m with env := m.env.bind counter (.scalar type (.number x)) }
  | _ => late m

/-- A loop that falls back on something else wherever its counter is no variable. -/
def forToOr (late : Fallback) (rounds : Nat) (call : CallRule) (counter : String)
    (start stop step : Expr) (body : List Stmt) : Exec Unit := do
  let first ← start.eval call
  changing (·.bindCounter counter first)
  let step := (← step.eval call).toNumber
  if 0.0 < step || step < 0.0 then iterate rounds do
    let x ← counterOr late.test counter
    let stop := (← stop.eval call).toNumber
    if passed step x stop then pure false
    else
      Stmt.performAll rounds call body
      if (← get).returning.isSome then pure false
      else
        let x ← counterOr late.next counter
        advanceOr late.advance counter (x + step)
        pure true
  else fail (.badStep counter)

section Counter

variable {counter : String}

theorem readCounter_same (late : Exec Float) :
    SameFrom (·.env.IsVariable counter) (reading (·.readCounter counter))
      (counterOr late counter) := by
  rintro m _ ⟨rfl, type, v, hv⟩
  have hread : reading (·.readCounter counter) m = .ok v.toNumber m := by
    simp only [reading, Environment.readCounter, hv]
    rfl
  have hor : counterOr late counter m = .ok v.toNumber m := by
    simp only [counterOr, hv, Cell.scalar]
  rw [hread, hor]
  exact .ok _ ⟨rfl, type, v, hv⟩

/-- The advance is a write to the variable, and so never skipped. -/
theorem writeCounter_same (late : Exec Unit) (x : Float) :
    SameFrom (·.env.IsVariable counter) (changing fun env => .ok (env.writeCounter counter x))
      (advanceOr late counter x) := by
  rintro m _ ⟨rfl, type, v, hv⟩
  have henv : m.env.writeCounter counter x = m.env.bind counter (.scalar type (.number x)) := by
    rw [Environment.writeCounter, Dict.modify_eq_insert hv]
    rfl
  have hset : changing (fun env => .ok (env.writeCounter counter x)) m =
      .ok () { m with env := m.env.bind counter (.scalar type (.number x)) } :=
    changing_of_ok (congrArg Except.ok henv)
  have hor : advanceOr late counter x m =
      .ok () { m with env := m.env.bind counter (.scalar type (.number x)) } := by
    simp only [advanceOr, hv, Cell.scalar]
  rw [hset, hor]
  exact .ok () ⟨rfl, type, .number x, by simp⟩

end Counter

/-- A loop is the same whatever it falls back on: after its counter is bound, each test and each
advance finds it a variable, since evaluations and the body keep the variables of the frame. -/
theorem forTo_eq_forToOr (late : Fallback) (rounds n : Nat) (counter : String)
    (start stop step : Expr) (body : List Stmt) :
    (Stmt.forTo counter start stop step body).perform rounds (invokeAt rounds n) =
      forToOr late rounds (invokeAt rounds n) counter start stop step body := by
  have heval : ∀ e : Expr, SameFrom (·.env.IsVariable counter) (e.eval (invokeAt rounds n))
      (e.eval (invokeAt rounds n)) :=
    fun e => .of_moves ((keepsVariables_eval rounds n e).mono fun h => h counter)
  have hbody : SameFrom (·.env.IsVariable counter)
      (Stmt.performAll rounds (invokeAt rounds n) body)
      (Stmt.performAll rounds (invokeAt rounds n) body) :=
    .of_moves ((keepsVariables_performAll rounds n body).mono fun h => h counter)
  funext m
  rw [Stmt.perform, forToOr]
  refine bind_congr_of_ok fun first m₁ _ => bind_congr_of_ok fun _ m₂ hbind => ?_
  have hvar : m₂.env.IsVariable counter := isVariable_of_bound hbind
  refine (?_ : SameFrom (·.env.IsVariable counter) _ _).apply_eq hvar
  refine .bind (heval step) fun step => .ite (.iterate ?_ rounds) (.fail _)
  refine .bind (readCounter_same late.test) fun x => .bind (heval stop) fun stop => ?_
  refine .ite (.pure false) (.bind hbody fun _ => ?_)
  refine .ifReturning ?_ (.pure false) ?_
  · rintro m₁ _ ⟨rfl, _⟩
    rfl
  · exact .bind (readCounter_same late.next) fun x =>
      .bind (writeCounter_same late.advance _) fun _ => .pure true

theorem Environment.store_of_checkWritable {env : Environment} {name : String}
    (h : env.checkWritable name = .ok ()) (field : Option String) (v : Value) (other : String) :
    env.store name field v ≠ .error (.undeclared other) ∧
      env.store name field v ≠ .error (.constantAssigned other) := by
  unfold checkWritable at h
  cases hl : env.lookup? name with
  | none => simp [hl] at h
  | some cell =>
    obtain ⟨type, isConstant, storage⟩ := cell
    cases isConstant with
    | true => simp [hl] at h
    | false =>
      cases storage with
      | scalar w => cases field <;> simp [store, hl]
      | array store => cases field <;> simp [Environment.store, hl]
      | record fields =>
        cases field with
        | none => simp [store, hl]
        | some field =>
          simp only [store, hl]
          cases (fields.get? (key field)).bind Cell.scalarValue? <;> simp

/-- An array after a value was written into the slot of an index. -/
structure ArrayStore.WrittenAt (i : Int) (v : Value) (before after : ArrayStore) : Prop where
  lower : after.lower = before.lower
  upper : after.upper = before.upper
  elementType : after.elementType = before.elementType
  slots : ∀ j, after.slots[j]? = if i = j then some v else before.slots[j]?

theorem ArrayStore.writtenAt_set (store : ArrayStore) (i : Int) (v : Value) :
    WrittenAt i v store (store.set i v) :=
  ⟨rfl, rfl, rfl, fun j => store.getElem?_slots_set i j v⟩

/-- Between the bounds the value is read where it was written. -/
theorem Environment.readElement_of_writtenAt {env : Environment} {name : String} {at_ v : Value}
    {i : Int} {before after : ArrayStore} (hwritten : before.WrittenAt i v after)
    (harray : env.array name = .ok after) (hi : at_.index? = some i) (hl : before.lower ≤ i)
    (hu : i ≤ before.upper) : env.readElement name at_ = .ok v := by
  have hslot : after.slots[i]? = some v := by rw [hwritten.slots, if_pos rfl]
  have hb : after.inBounds i = true := by
    rw [ArrayStore.inBounds_iff, hwritten.lower, hwritten.upper]
    exact ⟨hl, hu⟩
  simp only [readElement_of_array harray hi, ArrayStore.get?, hb, if_true, hslot]

theorem Environment.array_storeElement {env : Environment} {name : String} {store : ArrayStore}
    (h : env.array name = .ok store) (i : Int) (v : Value) :
    (env.storeElement name i v).array name = .ok (store.set i v) := by
  obtain ⟨type, isConstant, hl⟩ := array_eq_ok.mp h
  rw [array_eq_ok, storeElement, lookup?_update, hl]
  exact ⟨type, isConstant, rfl⟩

section Element

variable {rounds : Nat} {call : CallRule} {array : String} {index value : Expr}
  {m m₁ m₂ m' : Machine} {iv v : Value} {i : Int}

theorem perform_assignElement {store : ArrayStore} (harray : m.env.array array = .ok store)
    (hindex : index.eval call m = .ok iv m₁) (hi : Environment.index array iv = .ok i)
    (hvalue : value.eval call m₁ = .ok v m₂) :
    (Stmt.assignElement array index value).perform rounds call m =
      .ok () { m₂ with env := m₂.env.storeElement array i v } := by
  rw [Stmt.perform, bind_of_ok (reading_of_ok harray), bind_of_ok hindex, hi,
    bind_of_ok (show (lift (.ok i) : Exec Int) m₁ = .ok i m₁ from rfl), bind_of_ok hvalue]
  rfl

theorem perform_assignElement_eq_ok
    (h : (Stmt.assignElement array index value).perform rounds call m = .ok () m') :
    ∃ store iv i v m₁ m₂, m.env.array array = .ok store ∧ index.eval call m = .ok iv m₁ ∧
      Environment.index array iv = .ok i ∧ value.eval call m₁ = .ok v m₂ ∧
      m' = { m₂ with env := m₂.env.storeElement array i v } := by
  rw [Stmt.perform] at h
  obtain ⟨store, m₀, hread, hafter⟩ := bind_eq_ok h
  obtain ⟨harray, rfl⟩ := reading_eq_ok hread
  obtain ⟨iv, m₁, hindex, hindexed⟩ := bind_eq_ok hafter
  obtain ⟨i, m₁', hlift, hlifted⟩ := bind_eq_ok hindexed
  obtain ⟨v, m₂, hvalue, hwrite⟩ := bind_eq_ok hlifted
  cases hi : Environment.index array iv with
  | error e =>
    rw [hi] at hlift
    cases hlift
  | ok j =>
    rw [hi] at hlift
    cases hlift
    cases hwrite
    exact ⟨store, iv, _, v, _, m₂, harray, hindex, hi, hvalue, rfl⟩

end Element

/-- No check fails that was passed before: a loop never falls back on anything, an element that is
assigned is written into the array that was found at first, where it is read from then on, and what
could be written before the value of an assignment was evaluated can be written after it. -/
theorem late_checks_never_fail (rounds n : Nat) :
    (∀ (late : Fallback) (counter : String) (start stop step : Expr) (body : List Stmt),
      (Stmt.forTo counter start stop step body).perform rounds (invokeAt rounds n) =
        forToOr late rounds (invokeAt rounds n) counter start stop step body) ∧
    (∀ (array : String) (index value : Expr) (m m₁ m₂ : Machine) (found : ArrayStore) (iv v : Value)
        (i : Int), m.env.array array = .ok found → index.eval (invokeAt rounds n) m = .ok iv m₁ →
      Environment.index array iv = .ok i → value.eval (invokeAt rounds n) m₁ = .ok v m₂ →
      ∃ store store' m', m₂.env.array array = .ok store ∧ store.lower = found.lower ∧
        store.upper = found.upper ∧
        (Stmt.assignElement array index value).perform rounds (invokeAt rounds n) m = .ok () m' ∧
        m'.env.array array = .ok store' ∧ store.WrittenAt i v store' ∧
        (found.lower ≤ i → i ≤ found.upper → ∀ at_ : Value, at_.index? = some i →
          m'.env.readElement array at_ = .ok v)) ∧
    (∀ (array : String) (index value : Expr) (m m' : Machine),
      (Stmt.assignElement array index value).perform rounds (invokeAt rounds n) m = .ok () m' →
      ∃ store store' iv i v m₁ m₂, index.eval (invokeAt rounds n) m = .ok iv m₁ ∧
        Environment.index array iv = .ok i ∧ value.eval (invokeAt rounds n) m₁ = .ok v m₂ ∧
        m₂.env.array array = .ok store ∧ m'.env.array array = .ok store' ∧
        store.WrittenAt i v store') ∧
    (∀ (name : String) (field : Option String) (value : Expr) (m m₁ : Machine) (v : Value),
      m.env.checkWritable name = .ok () → value.eval (invokeAt rounds n) m = .ok v m₁ →
      ∀ other, m₁.env.store name field v ≠ .error (.undeclared other) ∧
        m₁.env.store name field v ≠ .error (.constantAssigned other)) := by
  have hiso : ∀ {e : Expr} {m m' : Machine} {v : Value},
      e.eval (invokeAt rounds n) m = .ok v m' → Isolated m m' := by
    intro e m m' v h
    have hm := isolated_eval rounds n e m
    rwa [final_of_ok h] at hm
  refine ⟨fun late => forTo_eq_forToOr late rounds n, ?_, ?_, ?_⟩
  · intro array index value m m₁ m₂ found iv v i harray hindex hi hvalue
    obtain ⟨store, hstore, hlower, hupper⟩ :=
      (chains_isolated.trans (hiso hindex) (hiso hvalue)).array harray
    have hstore' := Environment.array_storeElement hstore i v
    have hwritten := store.writtenAt_set i v
    refine ⟨store, store.set i v, _, hstore, hlower, hupper,
      perform_assignElement harray hindex hi hvalue, hstore', hwritten, fun hl hu at_ hat => ?_⟩
    exact Environment.readElement_of_writtenAt hwritten hstore' hat (hlower ▸ hl) (hupper ▸ hu)
  · intro array index value m m' h
    obtain ⟨found, iv, i, v, m₁, m₂, harray, hindex, hi, hvalue, rfl⟩ :=
      perform_assignElement_eq_ok h
    obtain ⟨store, hstore, _⟩ := (chains_isolated.trans (hiso hindex) (hiso hvalue)).array harray
    exact ⟨store, _, iv, i, v, m₁, m₂, hindex, hi, hvalue, hstore,
      Environment.array_storeElement hstore i v, store.writtenAt_set i v⟩
  · intro name field value m m₁ v hcheck hvalue other
    have hstill : m₁.env.checkWritable name = .ok () := by
      rw [(hiso hvalue).checkWritable, hcheck]
    exact Environment.store_of_checkWritable hstill field v other

/-- An element is assigned the result of a function that runs a loop over a local variable of the
name of the array. The statement reports success, the element is read back, and the name of another
variable is writable after the call as it was before. -/
theorem late_checks_never_fail_loop :
    let one : Expr := .literal (.number 1)
    let two : Expr := .literal (.number 2)
    let f : Subroutine := ⟨"F", [], some "INTEGER",
      [.forTo "a" two one one [], .giveBack (.var "a" none)]⟩
    let found : ArrayStore := .create 1 3 "INTEGER"
    let m : Machine := ⟨⟨.ofList [("A", .array found), ("X", .scalar "REAL" .null)], [], .empty,
      .ofList [("F", f)]⟩, [], none, []⟩
    let call : Expr := .call "F" []
    let m₂ := (call.eval (invokeAt 1 1)).final m
    let m' := ((Stmt.assignElement "a" one call).perform 1 (invokeAt 1 1)).final m
    (m.env.array "a" = .ok found ∧ one.eval (invokeAt 1 1) m = .ok (.number 1) m ∧
      Environment.index "a" (.number 1) = .ok 1 ∧
      call.eval (invokeAt 1 1) m = .ok (.number 2) m₂ ∧ m.env.checkWritable "x" = .ok ()) ∧
    (∃ store store', m₂.env.array "a" = .ok store ∧
      (Stmt.assignElement "a" one call).perform 1 (invokeAt 1 1) m = .ok () m' ∧
      m'.env.array "a" = .ok store' ∧ store.WrittenAt 1 (.number 2) store' ∧
      m'.env.readElement "a" (.bool true) = .ok (.number 2)) ∧
    (∃ (i : Int) (v : Value) (store' : ArrayStore), m'.env.array "a" = .ok store' ∧
      store'.slots[i]? = some v) ∧
    m₂.env.store "x" none (.number 2) ≠ .error (.constantAssigned "x") := by
  intro one two f found m call m₂ m'
  have harray : m.env.array "a" = .ok found := rfl
  have hindex : one.eval (invokeAt 1 1) m = .ok (.number 1) m := rfl
  have hi : Environment.index "a" (.number 1) = .ok 1 := rfl
  have hvalue : call.eval (invokeAt 1 1) m = .ok (.number 2) m₂ := rfl
  have hcheck : m.env.checkWritable "x" = .ok () := rfl
  obtain ⟨-, helement, hsuccess, hstore⟩ := late_checks_never_fail 1 1
  obtain ⟨store, store', after, hbefore, _, _, hperform, hafter, hwritten, hread⟩ :=
    helement "a" one call m m m₂ found _ _ 1 harray hindex hi hvalue
  obtain rfl : m' = after := final_of_ok hperform
  obtain ⟨_, store'', _, i, v, _, _, _, _, _, _, hsame, hslot⟩ :=
    hsuccess "a" one call m m' hperform
  refine ⟨⟨harray, hindex, hi, hvalue, hcheck⟩,
    ⟨store, store', hbefore, hperform, hafter, hwritten, ?_⟩, ⟨i, v, store'', hsame, ?_⟩,
    (hstore "x" none call m m₂ _ hcheck hvalue "x").2⟩
  · exact hread (by decide) (by decide) (.bool true) (by decide)
  · rw [hslot.slots, if_pos rfl]

end Chalkboard
