import Chalkboard.Program

/-! # Renaming

A program with every name and every type in it spelled differently. The new spelling of a name
depends on its old spelling only, so that equal names stay equal.
-/

namespace Chalkboard

mutual

def Expr.rename (f : String → String) : Expr → Expr
  | .literal v => .literal v
  | .var s field => .var (f s) (field.map f)
  | .element s index => .element (f s) (index.rename f)
  | .call s args => .call (f s) (Expr.renameAll f args)
  | .binary op a b => .binary op (a.rename f) (b.rename f)
  | .unary op e => .unary op (e.rename f)

def Expr.renameAll (f : String → String) : List Expr → List Expr
  | [] => []
  | e :: es => e.rename f :: Expr.renameAll f es

end

mutual

def Stmt.rename (f : String → String) : Stmt → Stmt
  | .declare names type => .declare (names.map f) (f type)
  | .declareArray names lower upper element =>
    .declareArray (names.map f) (lower.rename f) (upper.rename f) (f element)
  | .constant s e => .constant (f s) (e.rename f)
  | .assign s field e => .assign (f s) (field.map f) (e.rename f)
  | .assignElement s index e => .assignElement (f s) (index.rename f) (e.rename f)
  | .output es => .output (Expr.renameAll f es)
  | .input s => .input (f s)
  | .ifElse e yes no => .ifElse (e.rename f) (Stmt.renameAll f yes) (Stmt.renameAll f no)
  | .whileDo e body => .whileDo (e.rename f) (Stmt.renameAll f body)
  | .repeatUntil body e => .repeatUntil (Stmt.renameAll f body) (e.rename f)
  | .forTo s start stop step body =>
    .forTo (f s) (start.rename f) (stop.rename f) (step.rename f) (Stmt.renameAll f body)
  | .caseOf s clauses otherwise =>
    .caseOf (f s) (Stmt.renameClauses f clauses) (Stmt.renameAll f otherwise)
  | .call s args => .call (f s) (Expr.renameAll f args)
  | .giveBack e => .giveBack (e.rename f)

def Stmt.renameAll (f : String → String) : List Stmt → List Stmt
  | [] => []
  | stmt :: stmts => stmt.rename f :: Stmt.renameAll f stmts

def Stmt.renameClauses (f : String → String) : List (Expr × Stmt) → List (Expr × Stmt)
  | [] => []
  | (value, stmt) :: clauses => (value.rename f, stmt.rename f) :: Stmt.renameClauses f clauses

end

variable (f : String → String)

theorem Expr.renameAll_eq_map (es : List Expr) : Expr.renameAll f es = es.map (Expr.rename f) := by
  induction es with
  | nil => rfl
  | cons e es ih => rw [Expr.renameAll, ih, List.map_cons]

theorem Stmt.renameAll_eq_map (stmts : List Stmt) :
    Stmt.renameAll f stmts = stmts.map (Stmt.rename f) := by
  induction stmts with
  | nil => rfl
  | cons stmt stmts ih => rw [Stmt.renameAll, ih, List.map_cons]

theorem Stmt.renameClauses_eq_map (clauses : List (Expr × Stmt)) :
    Stmt.renameClauses f clauses = clauses.map (Prod.map (Expr.rename f) (Stmt.rename f)) := by
  induction clauses with
  | nil => rfl
  | cons c clauses ih => rw [Stmt.renameClauses, ih, List.map_cons, Prod.map_apply]

def FieldDecl.rename (d : FieldDecl) : FieldDecl := ⟨f d.name, f d.type⟩

def RecordType.rename (t : RecordType) : RecordType := ⟨f t.name, t.fields.map (FieldDecl.rename f)⟩

def Param.rename (p : Param) : Param := ⟨f p.name, f p.type, p.byRef⟩

def Subroutine.rename (s : Subroutine) : Subroutine :=
  ⟨f s.name, s.params.map (Param.rename f), s.returns.map f, Stmt.renameAll f s.body⟩

def Item.rename : Item → Item
  | .recordType type => .recordType (type.rename f)
  | .subroutine sub => .subroutine (sub.rename f)
  | .statement stmt => .statement (stmt.rename f)

def Program.rename (p : Program) : Program := ⟨p.items.map (Item.rename f)⟩

/-! ## Spelling names as they are -/

mutual

theorem Expr.rename_id : ∀ e : Expr, e.rename id = e
  | .literal _ => rfl
  | .var s field => by rw [Expr.rename, Option.map_id_fun, id, id]
  | .element s index => by rw [Expr.rename, index.rename_id, id]
  | .call s args => by rw [Expr.rename, Expr.renameAll_id args, id]
  | .binary op a b => by rw [Expr.rename, a.rename_id, b.rename_id]
  | .unary op e => by rw [Expr.rename, e.rename_id]

theorem Expr.renameAll_id : ∀ es : List Expr, Expr.renameAll id es = es
  | [] => rfl
  | e :: es => by rw [Expr.renameAll, e.rename_id, Expr.renameAll_id es]

end

mutual

theorem Stmt.rename_id : ∀ stmt : Stmt, stmt.rename id = stmt
  | .declare names type => by rw [Stmt.rename, List.map_id_fun, id, id]
  | .declareArray names lower upper type => by
    rw [Stmt.rename, lower.rename_id, upper.rename_id, List.map_id_fun, id, id]
  | .constant s e => by rw [Stmt.rename, e.rename_id, id]
  | .assign s field e => by rw [Stmt.rename, e.rename_id, Option.map_id_fun, id, id]
  | .assignElement s index e => by rw [Stmt.rename, index.rename_id, e.rename_id, id]
  | .output es => by rw [Stmt.rename, Expr.renameAll_id es]
  | .input s => rfl
  | .ifElse e yes no => by
    rw [Stmt.rename, e.rename_id, Stmt.renameAll_id yes, Stmt.renameAll_id no]
  | .whileDo e body => by rw [Stmt.rename, e.rename_id, Stmt.renameAll_id body]
  | .repeatUntil body e => by rw [Stmt.rename, e.rename_id, Stmt.renameAll_id body]
  | .forTo s start stop step body => by
    rw [Stmt.rename, start.rename_id, stop.rename_id, step.rename_id, Stmt.renameAll_id body, id]
  | .caseOf s clauses otherwise => by
    rw [Stmt.rename, Stmt.renameClauses_id clauses, Stmt.renameAll_id otherwise, id]
  | .call s args => by rw [Stmt.rename, Expr.renameAll_id args, id]
  | .giveBack e => by rw [Stmt.rename, e.rename_id]

theorem Stmt.renameAll_id : ∀ stmts : List Stmt, Stmt.renameAll id stmts = stmts
  | [] => rfl
  | stmt :: stmts => by rw [Stmt.renameAll, stmt.rename_id, Stmt.renameAll_id stmts]

theorem Stmt.renameClauses_id :
    ∀ clauses : List (Expr × Stmt), Stmt.renameClauses id clauses = clauses
  | [] => rfl
  | (value, stmt) :: clauses => by
    rw [Stmt.renameClauses, value.rename_id, stmt.rename_id, Stmt.renameClauses_id clauses]

end

theorem Item.rename_id (i : Item) : i.rename id = i := by
  cases i with
  | recordType type =>
    simp [Item.rename, RecordType.rename, show FieldDecl.rename id = id from rfl]
  | subroutine sub =>
    simp [Item.rename, Subroutine.rename, Stmt.renameAll_id, show Param.rename id = id from rfl]
  | statement stmt => exact congrArg Item.statement stmt.rename_id

theorem Program.rename_id (p : Program) : p.rename id = p := by
  have hitems : Item.rename id = id := funext Item.rename_id
  rw [Program.rename, hitems, List.map_id]

/-! ## Marks of parameters -/

def Param.unmarked (p : Param) : Param := { p with byRef := false }

def Subroutine.unmarked (s : Subroutine) : Subroutine :=
  { s with params := s.params.map Param.unmarked }

def Item.unmarked : Item → Item
  | .subroutine sub => .subroutine sub.unmarked
  | item => item

/-- The program with every parameter marked as passed by value. -/
def Program.unmarked (p : Program) : Program := ⟨p.items.map Item.unmarked⟩

theorem Subroutine.rename_unmarked (s : Subroutine) :
    s.unmarked.rename f = (s.rename f).unmarked := by
  simp [Subroutine.rename, Subroutine.unmarked, Param.rename, Param.unmarked, Function.comp_def]

theorem Item.rename_unmarked (i : Item) : i.unmarked.rename f = (i.rename f).unmarked := by
  cases i with
  | subroutine sub => exact congrArg Item.subroutine (sub.rename_unmarked f)
  | _ => rfl

theorem Program.rename_unmarked (p : Program) : p.unmarked.rename f = (p.rename f).unmarked := by
  simp [Program.rename, Program.unmarked, Item.rename_unmarked]

end Chalkboard
