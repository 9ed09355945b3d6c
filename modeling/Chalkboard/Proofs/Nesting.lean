import Chalkboard.Proofs.RoundTrip

/-! # How deep accepted programs nest

The levels around a part of a program are counted on its tree: one for each block, for each index or
argument and for each prefixed operator; a parameter says how many the statement of a clause is. The
parser keeps all of these within its limit except the statements of clauses, which it does not
count: selections inside of clauses are accepted at every depth.
-/

namespace Chalkboard

mutual

/-- The levels around the innermost part of an expression. Operators between two operands are
none. -/
def Expr.depth : Expr → Nat
  | .literal _ => 0
  | .var _ _ => 0
  | .element _ index => index.depth + 1
  | .call _ args => Expr.depths 1 args
  | .binary _ a b => max a.depth b.depth
  | .unary _ e => e.depth + 1

/-- The levels around the innermost part of several expressions, each of which is at the given
level. -/
def Expr.depths (level : Nat) : List Expr → Nat
  | [] => 0
  | e :: es => max (e.depth + level) (Expr.depths level es)

end

mutual

/-- The levels around the innermost part of a statement, where that of a clause is at a level that
is so much deeper. -/
def Stmt.depth (clause : Nat) : Stmt → Nat
  | .declare _ _ => 0
  | .declareArray _ lower upper _ => max lower.depth upper.depth
  | .constant _ e => e.depth
  | .assign _ _ e => e.depth
  | .assignElement _ index e => max (index.depth + 1) e.depth
  | .output es => Expr.depths 0 es
  | .input _ => 0
  | .ifElse e yes no =>
    max e.depth (max (Stmt.blockDepth clause yes) (Stmt.blockDepth clause no))
  | .whileDo e body => max e.depth (Stmt.blockDepth clause body)
  | .repeatUntil body e => max (Stmt.blockDepth clause body) e.depth
  | .forTo _ start stop step body =>
    max (max start.depth stop.depth) (max step.depth (Stmt.blockDepth clause body))
  | .caseOf _ clauses otherwise =>
    max (Stmt.clausesDepth clause clauses) (Stmt.blockDepth clause otherwise)
  | .call _ args => Expr.depths 1 args
  | .giveBack e => e.depth

/-- The statements of a block are one level deeper than what the block belongs to. -/
def Stmt.blockDepth (clause : Nat) : List Stmt → Nat
  | [] => 0
  | stmt :: stmts => max (stmt.depth clause + 1) (Stmt.blockDepth clause stmts)

def Stmt.clausesDepth (clause : Nat) : List (Expr × Stmt) → Nat
  | [] => 0
  | (value, stmt) :: clauses =>
    max (max value.depth (stmt.depth clause + clause)) (Stmt.clausesDepth clause clauses)

end

def Item.depth (clause : Nat) : Item → Nat
  | .recordType _ => 0
  | .subroutine sub => Stmt.blockDepth clause sub.body
  | .statement stmt => stmt.depth clause

def Program.depth (clause : Nat) (p : Program) : Nat :=
  (p.items.map (Item.depth clause)).foldr max 0

namespace Grammar

/-! ## What the grammar bounds

By recursion on the derivation: every level of the tree is one that the derivation has taken. An
expression takes a level for itself as well, which the tree does not show.
-/

mutual

theorem depth_of_expression {d : Nat} {ts : List Located} {e : Expr} : Expression d ts e →
    e.depth + 1 ≤ d
  | .mk h => Nat.succ_le_succ (depth_of_rung h)

theorem depth_of_rung {d n : Nat} {ts : List Located} {e : Expr} : Rung d n ts e → e.depth ≤ d
  | .binary ha _ hb => Nat.max_le.mpr ⟨depth_of_rung ha, depth_of_rung hb⟩
  | .tighter _ h => depth_of_rung h
  | .unary _ h => Nat.succ_le_succ (depth_of_rung h)
  | .number _ => Nat.zero_le d
  | .text _ => Nat.zero_le d
  | .yes _ => Nat.zero_le d
  | .no _ => Nat.zero_le d
  | .parens _ h _ => Nat.le_of_succ_le (depth_of_expression h)
  | .var _ => Nat.zero_le d
  | .field _ _ _ => Nat.zero_le d
  | .element _ _ h _ => depth_of_expression h
  | .call _ h => depths_of_arguments h

theorem depths_of_arguments {d : Nat} {ts : List Located} {args : List Expr} : Arguments d ts args →
    Expr.depths 1 args ≤ d
  | .none _ _ => Nat.zero_le d
  | .some _ h _ => depths_of_expressions h

theorem depths_of_expressions {d : Nat} {ts : List Located} {es : List Expr} : Expressions d ts es →
    Expr.depths 1 es ≤ d
  | .one h => Nat.max_le.mpr ⟨depth_of_expression h, Nat.zero_le d⟩
  | .more h _ hmore => Nat.max_le.mpr ⟨depth_of_expression h, depths_of_expressions hmore⟩

end

section Parts

variable {d : Nat} {ts : List Located}

theorem depth_le_of_expression {e : Expr} (h : Expression d ts e) : e.depth ≤ d :=
  Nat.le_of_succ_le (depth_of_expression h)

theorem depths_zero_le (es : List Expr) : Expr.depths 0 es ≤ Expr.depths 1 es := by
  induction es with
  | nil => exact Nat.le_refl 0
  | cons e es ih =>
    simp only [Expr.depths]
    omega

theorem depths_of_invocation {s : String} {args : List Expr} (h : Invocation d ts (s, args)) :
    Expr.depths 1 args ≤ d := by
  cases h with
  | bare _ => exact Nat.zero_le d
  | applied _ h => exact depths_of_arguments h

theorem depth_of_step {e : Expr} (h : Step d ts e) : e.depth ≤ d := by
  cases h with
  | unit => exact Nat.zero_le d
  | written _ h => exact depth_le_of_expression h

end Parts

mutual

theorem depth_of_statement {d : Nat} {ts : List Located} {stmt : Stmt} : Statement d ts stmt →
    stmt.depth 0 ≤ d
  | .declare _ _ _ _ => Nat.zero_le d
  | .declareArray _ _ _ _ _ hlower _ hupper _ _ _ =>
    Nat.max_le.mpr ⟨depth_le_of_expression hlower, depth_le_of_expression hupper⟩
  | .constant _ _ _ h => depth_le_of_expression h
  | .assign _ _ h => depth_le_of_expression h
  | .assignField _ _ _ _ h => depth_le_of_expression h
  | .assignElement _ _ hindex _ _ h =>
    Nat.max_le.mpr ⟨depth_of_expression hindex, depth_le_of_expression h⟩
  | .output _ h => Nat.le_trans (depths_zero_le _) (depths_of_expressions h)
  | .input _ _ => Nat.zero_le d
  | .ifElse _ h _ hyes hno _ =>
    Nat.max_le.mpr ⟨depth_le_of_expression h,
      Nat.max_le.mpr ⟨depth_of_block hyes, depth_of_alternative hno⟩⟩
  | .whileDo _ h _ hbody _ => Nat.max_le.mpr ⟨depth_le_of_expression h, depth_of_block hbody⟩
  | .repeatUntil _ hbody _ h => Nat.max_le.mpr ⟨depth_of_block hbody, depth_le_of_expression h⟩
  | .forTo _ _ _ hstart _ hstop hstep hbody _ _ =>
    Nat.max_le.mpr ⟨Nat.max_le.mpr ⟨depth_le_of_expression hstart, depth_le_of_expression hstop⟩,
      Nat.max_le.mpr ⟨depth_of_step hstep, depth_of_block hbody⟩⟩
  | .caseOf _ _ _ hclauses hotherwise _ =>
    Nat.max_le.mpr ⟨depth_of_clauses hclauses, depth_of_alternative hotherwise⟩
  | .call h => depths_of_invocation h
  | .callWord _ h => depths_of_invocation h
  | .giveBack _ h => depth_le_of_expression h

theorem depth_of_block {d : Nat} {ts : List Located} {body : List Stmt} : Block d ts body →
    Stmt.blockDepth 0 body ≤ d
  | .mk h => depth_of_statements h

theorem depth_of_statements {d : Nat} {ts : List Located} {stmts : List Stmt} :
    Statements d ts stmts → Stmt.blockDepth 0 stmts ≤ d + 1
  | .nil => Nat.zero_le _
  | .cons h hmore =>
    Nat.max_le.mpr ⟨Nat.succ_le_succ (depth_of_statement h), depth_of_statements hmore⟩

theorem depth_of_alternative {d : Nat} {k : Keyword} {ts : List Located} {body : List Stmt} :
    Alternative d k ts body → Stmt.blockDepth 0 body ≤ d
  | .none => Nat.zero_le d
  | .some _ h => depth_of_block h

theorem depth_of_clauses {d : Nat} {ts : List Located} {clauses : List (Expr × Stmt)} :
    Clauses d ts clauses → Stmt.clausesDepth 0 clauses ≤ d
  | .nil => Nat.zero_le d
  | .cons hvalue _ h hmore =>
    Nat.max_le.mpr ⟨Nat.max_le.mpr ⟨depth_le_of_expression hvalue, depth_of_statement h⟩,
      depth_of_clauses hmore⟩

end

theorem depth_of_item {d : Nat} {ts : List Located} {i : Chalkboard.Item} (h : Item d ts i) :
    i.depth 0 ≤ d := by
  cases h with
  | recordType _ _ _ _ => exact Nat.zero_le d
  | procedure _ _ _ hbody _ => exact depth_of_block hbody
  | function _ _ _ _ _ hbody _ => exact depth_of_block hbody
  | statement h => exact depth_of_statement h

theorem depth_of_program {d : Nat} {ts : List Located} {p : Chalkboard.Program}
    (h : Program d ts p) : p.depth 0 ≤ d := by
  obtain ⟨items⟩ := p
  change Many (Item d) ts items at h
  change (items.map (Chalkboard.Item.depth 0)).foldr max 0 ≤ d
  induction h with
  | nil => exact Nat.zero_le d
  | cons hi _ ih => exact Nat.max_le.mpr ⟨depth_of_item hi, ih⟩

end Grammar

/-- No part of an accepted program is nested deeper than the limit, as long as the statements of
clauses are not counted as nested. -/
theorem accepted_depth_le {size : Nat} {ts : List Located} {p : Program}
    (h : Program.parse size ts = .ok p) : p.depth 0 ≤ Parser.nestingLimit := by
  unfold Program.parse Parser.parse at h
  split at h
  · rename_i hp
    cases h
    exact Grammar.depth_of_program (Parser.derives_of_program hp).2
  · cases h

/-! ## Selections inside of clauses -/

def clauseTower : Nat → Stmt
  | 0 => .input "x"
  | n + 1 => .caseOf "x" [(.var "x" none, clauseTower n)] []

/-- The tokens of a statement, all on one line. -/
def Stmt.lineTokens (s : Stmt) : List Located := s.tokens.map fun t => ⟨t, ⟨0, 1, 1⟩, 0⟩

theorem depth_clauseTower (n : Nat) : (clauseTower n).depth 1 = n := by
  induction n with
  | zero => rfl
  | succ n ih => simp [clauseTower, Stmt.depth, Stmt.clausesDepth, Stmt.blockDepth, Expr.depth, ih]

theorem isWritable_clauseTower (n : Nat) : (clauseTower n).isWritable = true := by
  induction n with
  | zero => rfl
  | succ n ih => simp [clauseTower, Stmt.isWritable, Stmt.clausesWritable, Stmt.areWritable,
      Expr.isWritable, ih]

/-- One level for the value of a clause and one for what is left of a selection: the parser counts
no more, however high the tower is. -/
theorem levels_clauseTower (n : Nat) : (clauseTower n).levels ≤ 1 := by
  induction n with
  | zero => exact Nat.zero_le 1
  | succ n ih => simp [clauseTower, Stmt.levels, Stmt.clauseLevels, Stmt.listLevels, Expr.levels,
      Expr.nesting, ih]

theorem nextInLine_lineTokens (s : Stmt) : NextInLine s.lineTokens := by
  have hone : ∀ t ∈ s.lineTokens, t.line = 1 := by simp [Stmt.lineTokens, Located.line]
  intro t u htu _
  rw [hone t (htu.subset (by simp)), hone u (htu.subset (by simp))]

theorem parse_clauseTower (size n : Nat) :
    Program.parse size (clauseTower n).lineTokens = .ok ⟨[.statement (clauseTower n)]⟩ := by
  let items := [Item.statement (clauseTower n)]
  have hwritable : ∀ i ∈ items, i.isWritable = true :=
    List.forall_mem_singleton.mpr (isWritable_clauseTower n)
  have hlevels : ∀ i ∈ items, i.levels ≤ Parser.nestingLimit :=
    List.forall_mem_singleton.mpr (Nat.le_trans (levels_clauseTower n) (by decide))
  have htokens : (clauseTower n).lineTokens.map Located.token = items.flatMap Item.tokens := by
    simp [items, Stmt.lineTokens, Item.tokens, Function.comp_def]
  obtain ⟨-, hitems⟩ := readsMany_items hwritable hlevels htokens (nextInLine_lineTokens _)
  have hprogram : Parser.program Parser.nestingLimit (clauseTower n).lineTokens =
      .ok (⟨[.statement (clauseTower n)]⟩, []) := by
    unfold Parser.program
    rw [Parser.bind_of_ok (manyWhile_of_readsMany hitems)]
    rfl
  rw [Program.parse, Parser.parse, hprogram]

/-- The bound without the statements of clauses, for a program that goes beyond the limit with
them. -/
theorem accepted_depth_le_clauseTower :
    Program.parse 0 (clauseTower 101).lineTokens = .ok ⟨[.statement (clauseTower 101)]⟩ ∧
    Program.depth 0 ⟨[.statement (clauseTower 101)]⟩ ≤ Parser.nestingLimit :=
  ⟨parse_clauseTower 0 101, accepted_depth_le (parse_clauseTower 0 101)⟩

/-- A program of 101 selections inside of clauses is accepted, although its innermost statement is
nested deeper than the limit once the statement of a clause is counted. -/
theorem clauseTower_exceeds_limit :
    Program.parse 0 (clauseTower 101).lineTokens = .ok ⟨[.statement (clauseTower 101)]⟩ ∧
    Parser.nestingLimit < Program.depth 1 ⟨[.statement (clauseTower 101)]⟩ := by
  refine ⟨parse_clauseTower 0 101, ?_⟩
  have hdepth : Program.depth 1 ⟨[.statement (clauseTower 101)]⟩ = 101 := by
    simp [Program.depth, Item.depth, depth_clauseTower]
  rw [hdepth]
  decide

end Chalkboard
