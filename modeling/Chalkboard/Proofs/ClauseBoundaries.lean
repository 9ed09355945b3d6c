import Mathlib.Data.List.Chain
import Chalkboard.Proofs.ViableParsers

/-! # Where one clause ends and the next begins

Nothing separates the clauses of a selection, and a new line does not either: a clause ends where
its statement cannot go on. A value may begin with two tokens that a statement can go on with, `-`
after an expression and `(` after a name. Apart from these, clauses are read as they are written.
-/

namespace Chalkboard

/-- The statements whose last part is an expression. -/
def Stmt.endsInExpr : Stmt → Bool
  | .constant .. | .assign .. | .assignElement .. | .output _ | .repeatUntil .. | .giveBack _ =>
    true
  | _ => false

def Stmt.isCall : Stmt → Bool
  | .call .. => true
  | _ => false

namespace Parser

open Grammar

/-! ## Statements end where they cannot go on -/

/-- A name right after the tokens `us` is on another line than the last of them. -/
def BreaksLine (us r : List Located) : Prop :=
  ∀ u ∈ r.head?, ∀ name, u.token = .name name → ∀ t ∈ us.getLast?, u.line ≠ t.line

/-- The statement `s` of the tokens `us` does not go on with `r`. -/
structure Bounds (s : Stmt) (us r : List Located) : Prop where
  operator : s.endsInExpr = true → operatorAt? r = none
  name : s.endsInExpr = true ∨ s.isCall = true → EndsBare us → extendsName r = false
  comma : startsWithSymbol .comma r = false
  assign : Lacks (.symbol .assign) r
  line : BreaksLine us r

section Statements

variable {limit d : Nat} {s : Stmt} {us vs r : List Located} {t : Located}

theorem Bounds.ends (h : Bounds s us r) (hs : s.endsInExpr = true)
    (hbare : EndsBare vs → EndsBare us) : Ends vs r :=
  ⟨h.operator hs, fun hvs => h.name (.inl hs) (hbare hvs)⟩

theorem Bounds.of_isClear (ht : t.token.isClear = true)
    (hline : ∀ name, t.token = .name name → ∀ v ∈ us.getLast?, t.line ≠ v.line) :
    Bounds s us (t :: r) := by
  have hclear : Clear (t :: r) := clear_cons ht
  refine ⟨fun _ => hclear.operator, fun _ _ => hclear.name, hclear.comma, ?_, ?_⟩
  · intro u hu hassign
    cases hu
    rw [hassign] at ht
    cases ht
  · intro u hu
    cases hu
    exact hline

theorem statement_keyword {k : Keyword} (ht : t.token = .keyword k) (us : List Located) :
    statement limit d (t :: us) =
      keywordStatement (expression limit d) (block limit d) (statement limit d) k (t :: us) := by
  rw [statement_eq, statementWith_keyword ht]

theorem statement_name {name : String} (ht : t.token = .name name) (us : List Located) :
    statement limit d (t :: us) = afterName (expression limit d) name us := by
  rw [statement_eq, statementWith_name ht]

/-- A statement that ends in a closing word, a type or a name is over whatever comes next. -/
theorem statement_append_of_viable {k : Keyword} {B : Follow} {q : Parser Stmt}
    (h : statement limit d (t :: us) = .ok (s, [])) (ht : t.token = .keyword k)
    (hv : ViableAt (fun _ => True) B
      (keywordStatement (expression limit d) (block limit d) (statement limit d) k) q (t :: us)) :
    statement limit d (t :: us ++ r) = .ok (s, r) := by
  rw [statement_keyword ht] at h
  obtain ⟨used, hused, -, hok⟩ := hv.ok h
  rw [List.append_nil] at hused
  rw [List.cons_append, statement_keyword ht, ← List.cons_append, hused]
  exact (hok r (.inr trivial)).1

/-- A call is over before what does not extend its name, and with arguments before everything. -/
theorem invocation_append {name : String} {args : List Expr} (h : Invocation d us (name, args))
    (hassign : Lacks (.symbol .assign) r) (hname : EndsBare us → extendsName r = false) :
    ∃ t ts, us = t :: ts ∧ t.token = .name name ∧ LacksAll assigners (ts ++ r) ∧
      invocationRest (expression limit d) name (ts ++ r) = .ok (.call name args, r) := by
  cases h with
  | bare ht =>
    obtain ⟨hbracket, hparen, hdot, -⟩ := extendsName_eq_false_iff.mp (hname (.one ht))
    exact ⟨_, [], rfl, ht, ⟨hassign, hbracket, hdot, trivial⟩, invocationRest_of_lacks hparen _ _⟩
  | @applied ts t _ _ ht hargs =>
    have hread : arguments (expression limit d) (ts ++ r) = .ok (args, r) := reads_arguments hargs
    obtain ⟨l, vs, rfl, hl⟩ := arguments_head hargs
    have hstarts : Starts (.symbol .leftParen) (l :: vs ++ r) := congrArg some hl
    have hparen : startsWithSymbol .leftParen (l :: vs ++ r) = true :=
      startsWithSymbol_iff.mpr ⟨l, vs ++ r, rfl, hl⟩
    refine ⟨t, _, rfl, ht, ⟨hstarts.lacks nofun, hstarts.lacks nofun, hstarts.lacks nofun, trivial⟩,
      ?_⟩
    rw [invocationRest, atSymbol_bind, hparen]
    change (arguments (expression limit d) >>= fun args => pure (Stmt.call name args))
      (l :: vs ++ r) = _
    rw [bind_of_ok hread]
    rfl

/-- The last part of a statement is an expression, which is over where the statement is. -/
theorem last_append {e : Expr} (h : Expression d vs e) (hr : Ends vs r) (k : Expr → Stmt) :
    (expression limit d >>= fun e => pure (k e)) (vs ++ r) = .ok (k e, r) := by
  rw [bind_of_ok (reads_expression h hr)]
  rfl

theorem constant_append {u arrow : Located} {name : String} {e : Expr}
    (ht : t.token = .keyword .CONSTANT) (hu : u.token = .name name)
    (harrow : arrow.token = .symbol .assign) (he : Expression d us e)
    (hr : Bounds (.constant name e) (t :: u :: arrow :: us) r) :
    statement limit d (t :: u :: arrow :: us ++ r) = .ok (.constant name e, r) := by
  have hends : Ends us r := hr.ends rfl fun hbare => hbare.append (by simp [harrow]) [t, u]
  rw [List.cons_append, statement_keyword ht]
  change constant (expression limit d) (t :: u :: arrow :: (us ++ r)) = _
  unfold constant
  rw [keyword_bind ht, name_bind hu, symbol_bind harrow]
  exact last_append he hends _

theorem assign_append {arrow : Located} {name : String} {e : Expr} (ht : t.token = .name name)
    (harrow : arrow.token = .symbol .assign) (he : Expression d us e)
    (hr : Bounds (.assign name none e) (t :: arrow :: us) r) :
    statement limit d (t :: arrow :: us ++ r) = .ok (.assign name none e, r) := by
  have hends : Ends us r := hr.ends rfl fun hbare => hbare.append (by simp [harrow]) [t]
  rw [List.cons_append, statement_name ht]
  obtain ⟨_, start, stop⟩ := arrow
  subst harrow
  exact last_append he hends (Stmt.assign name none)

theorem assignField_append {dot f arrow : Located} {record field : String} {e : Expr}
    (ht : t.token = .name record) (hdot : dot.token = .symbol .dot) (hf : f.token = .name field)
    (harrow : arrow.token = .symbol .assign) (he : Expression d us e)
    (hr : Bounds (.assign record (some field) e) (t :: dot :: f :: arrow :: us) r) :
    statement limit d (t :: dot :: f :: arrow :: us ++ r) =
    .ok (.assign record (some field) e, r) := by
  have hends : Ends us r := hr.ends rfl fun hbare => hbare.append (by simp [harrow]) [t, dot, f]
  rw [List.cons_append, statement_name ht]
  obtain ⟨_, start, stop⟩ := dot
  subst hdot
  change (name >>= fun field => symbol .assign >>= fun _ => expression limit d >>= fun e =>
    pure (Stmt.assign record (some field) e)) (f :: arrow :: (us ++ r)) = _
  rw [name_bind hf, symbol_bind harrow]
  exact last_append he hends _

theorem assignElement_append {l close arrow : Located} {array : String} {index e : Expr}
    (ht : t.token = .name array) (hl : l.token = .symbol .leftBracket)
    (hindex : Expression d vs index)
    (hclose : close.token = .symbol .rightBracket) (harrow : arrow.token = .symbol .assign)
    (he : Expression d us e)
    (hr : Bounds (.assignElement array index e) (t :: l :: vs ++ close :: arrow :: us) r) :
    statement limit d (t :: l :: vs ++ close :: arrow :: us ++ r) =
      .ok (.assignElement array index e, r) := by
  have hends : Ends us r := hr.ends rfl fun hbare => by
    simpa using hbare.append (t := arrow) (by simp [harrow]) (t :: l :: vs ++ [close])
  simp only [List.cons_append, List.append_assoc]
  rw [statement_name ht]
  obtain ⟨_, start, stop⟩ := l
  subst hl
  change (expression limit d >>= fun index => symbol .rightBracket >>= fun _ => symbol .assign >>=
    fun _ => expression limit d >>= fun e => pure (Stmt.assignElement array index e))
    (vs ++ close :: arrow :: (us ++ r)) = _
  rw [bind_of_ok (reads_expression hindex (ends_of_symbol hclose (by simp))), symbol_bind hclose,
    symbol_bind harrow]
  exact last_append he hends _

theorem output_append {es : List Expr} (ht : t.token = .keyword .OUTPUT) (hes : Expressions d us es)
    (hr : Bounds (.output es) (t :: us) r) :
    statement limit d (t :: us ++ r) = .ok (.output es, r) := by
  have hends : Ends us r := hr.ends rfl fun hbare => hbare.cons (by simp [ht])
  rw [List.cons_append, statement_keyword ht]
  change output (expression limit d) (t :: (us ++ r)) = _
  unfold output
  rw [keyword_bind ht, bind_of_ok (commaList_of_readsList (reads_expressions hes hends hr.comma))]
  rfl

theorem giveBack_append {e : Expr} (ht : t.token = .keyword .RETURN) (he : Expression d us e)
    (hr : Bounds (.giveBack e) (t :: us) r) :
    statement limit d (t :: us ++ r) = .ok (.giveBack e, r) := by
  have hends : Ends us r := hr.ends rfl fun hbare => hbare.cons (by simp [ht])
  rw [List.cons_append, statement_keyword ht]
  change (keyword .RETURN >>= fun _ => expression limit d >>= fun e => pure (Stmt.giveBack e))
    (t :: (us ++ r)) = _
  rw [keyword_bind ht]
  exact last_append he hends _

theorem repeatHead_eq_ok {body : List Stmt} {rest : List Located}
    (h : repeatHead (block limit d) us = .ok (body, rest)) :
    ∃ vs u, us = vs ++ u :: rest ∧ u.token = .keyword .UNTIL := by
  obtain ⟨_, _, _, rfl, ⟨v, rfl, -⟩, h₁⟩ := (sound_keyword .REPEAT).step h
  obtain ⟨body, ws, _, rfl, -, h₂⟩ := (sound_block limit d _).step h₁
  obtain ⟨_, _, _, rfl, ⟨u, rfl, hu⟩, h₃⟩ := (sound_keyword .UNTIL).step h₂
  cases h₃
  exact ⟨v :: ws, u, by simp, hu⟩

theorem repeatUntil_append (ht : t.token = .keyword .REPEAT)
    (h : statement limit d (t :: us) = .ok (s, [])) (hr : Bounds s (t :: us) r) :
    statement limit d (t :: us ++ r) = .ok (s, r) := by
  have heq : ∀ us, statement limit d (t :: us) = (do
      let body ← repeatHead (block limit d)
      return Stmt.repeatUntil body (← expression limit d)) (t :: us) := by
    intro us
    rw [statement_keyword ht, ← repeatLoop_eq]
    rfl
  rw [heq] at h
  obtain ⟨body, rest, hhead, h⟩ := bind_eq_ok h
  obtain ⟨x, ws, hx, h⟩ := bind_eq_ok h
  cases h
  obtain ⟨used, hused, hexpr⟩ := sound_expression limit d rest x [] hx
  obtain ⟨vs, u, hvs, hu⟩ := repeatHead_eq_ok hhead
  have hends : Ends used r := hr.ends rfl fun hbare => by
    rw [hvs, hused, List.append_nil]
    exact hbare.append (by simp [hu]) vs
  have hb : Blocks (block limit d) (block limit (d + 1)) := blocks_block (Nat.lt_succ_self d)
  have hviable := (viable_repeatHead hb (F := fun _ => True)).viableAt (t :: us) (Nat.le_refl _)
  obtain ⟨before, hbefore, -, hok⟩ := hviable.ok hhead
  rw [List.cons_append, heq, ← List.cons_append, hbefore, List.append_assoc,
    bind_of_ok (hok _ (.inr trivial)).1, hused, List.append_nil]
  exact last_append hexpr hends (Stmt.repeatUntil body)

theorem nextAndCounter_append {s' : Stmt} {rest : List Located}
    (h : nextAndCounter s' rest = .ok (s, [])) (hline : BreaksLine rest r) :
    rest ≠ [] ∧ nextAndCounter s' (rest ++ r) = .ok (s, r) := by
  obtain ⟨line, -, h₁⟩ := peekLine_step h
  obtain ⟨_, _, us, rfl, ⟨next, rfl, hnext⟩, -⟩ := (sound_keyword .NEXT).step h₁
  rw [List.singleton_append] at h hline ⊢
  refine ⟨by simp, ?_⟩
  rw [nextAndCounter_cons s' hnext] at h
  rw [List.cons_append, nextAndCounter_cons s' hnext]
  obtain ⟨_, vs, h₂, h₃⟩ := bind_eq_ok h
  cases h₃
  obtain ⟨used, hused, hafter⟩ := sound_counterAfterNext next.line us _ _ h₂
  rw [List.append_nil] at hused
  subst hused
  refine (bind_of_ok (?_ : counterAfterNext (some next.line) (us ++ r) = .ok ((), r))).trans rfl
  cases hafter with
  | counter ht hsame => exact counterAfterNext_of_line ht hsame
  | nothing =>
    by_cases hname : ∀ name, Lacks (.name name) r
    · exact counterAfterNext_of_lacks hname
    · obtain ⟨name, hname⟩ := Classical.not_forall.mp hname
      obtain ⟨u, us, rfl, hu⟩ := starts_of_not_lacks hname
      exact counterAfterNext_of_ne (hline u rfl name hu next rfl) us

theorem forTo_append (ht : t.token = .keyword .FOR)
    (h : statement limit d (t :: us) = .ok (s, [])) (hr : Bounds s (t :: us) r) :
    statement limit d (t :: us ++ r) = .ok (s, r) := by
  have heq : ∀ us, statement limit d (t :: us) =
      (forHead (expression limit d) (block limit d) >>= nextAndCounter) (t :: us) := by
    intro us
    rw [statement_keyword ht, ← forLoop_eq]
    rfl
  rw [heq] at h
  obtain ⟨s', rest, hhead, hnext⟩ := bind_eq_ok h
  have he : Deeper (expression limit d) (expression limit (d + 1)) :=
    deeper_expression (Nat.lt_succ_self d)
  have hb : Blocks (block limit d) (block limit (d + 1)) := blocks_block (Nat.lt_succ_self d)
  have hviable := (viable_forHead he hb).viableAt (t :: us) (Nat.le_refl _)
  obtain ⟨before, hbefore, -, hok⟩ := hviable.ok hhead
  have hline : BreaksLine rest r := by
    intro u hu name hname v hv
    refine hr.line u hu name hname v ?_
    rw [hbefore, List.getLast?_append, Option.mem_def.mp hv]
    rfl
  obtain ⟨hne, hnext'⟩ := nextAndCounter_append hnext hline
  -- What the head of the loop sees after itself is `NEXT`, with or without more tokens.
  have hhead' : (rest ++ r).head? = rest.head? := by
    obtain ⟨t, ts, rfl⟩ := List.exists_cons_of_ne_nil hne
    rfl
  rw [List.cons_append, heq, ← List.cons_append, hbefore, List.append_assoc,
    bind_of_ok (hok _ (.inl hhead')).1]
  exact hnext'

/-- A statement that was read on its own is read before everything that it does not go on with. -/
theorem statement_append (h : statement limit d us = .ok (s, [])) (hr : Bounds s us r) :
    statement limit d (us ++ r) = .ok (s, r) := by
  obtain ⟨used, hused, hs⟩ := sound_statement limit d us s [] h
  rw [List.append_nil] at hused
  subst hused
  have hd := Nat.lt_succ_self d
  have he : Deeper (expression limit d) (expression limit (d + 1)) := deeper_expression hd
  have hb : Blocks (block limit d) (block limit (d + 1)) := blocks_block hd
  cases hs with
  | declare ht | declareArray ht =>
    exact statement_append_of_viable h ht ((viable_declaration he).viableAt _ (Nat.le_refl _))
  | constant ht hu harrow hx => exact constant_append ht hu harrow hx hr
  | assign ht harrow hx => exact assign_append ht harrow hx hr
  | assignField ht hdot hf harrow hx => exact assignField_append ht hdot hf harrow hx hr
  | assignElement ht hl hindex hclose harrow hx =>
    exact assignElement_append ht hl hindex hclose harrow hx hr
  | output ht hes => exact output_append ht hes hr
  | input ht => exact statement_append_of_viable h ht (viable_input.viableAt _ (Nat.le_refl _))
  | ifElse ht =>
    exact statement_append_of_viable h ht ((viable_conditional he hb).viableAt _ (Nat.le_refl _))
  | whileDo ht =>
    exact statement_append_of_viable h ht ((viable_whileLoop he hb).viableAt _ (Nat.le_refl _))
  | repeatUntil ht => exact repeatUntil_append ht h hr
  | forTo ht => exact forTo_append ht h hr
  | caseOf ht =>
    exact statement_append_of_viable h ht ((viable_selection he hb (viable_statement hd)
      (shortens_block_clause d) (shortens_block_clause (d + 1))).viableAt _ (Nat.le_succ _))
  | call hcall =>
    obtain ⟨t, ts, rfl, ht, hlacks, hrest⟩ := invocation_append hcall hr.assign (hr.name (.inr rfl))
    rw [List.cons_append, statement_name ht, afterName_of_lacks hlacks]
    exact hrest
  | callWord ht hcall =>
    have hname := fun hbare => hr.name (.inr rfl) (EndsBare.cons hbare (by simp [ht]))
    obtain ⟨u, ts, rfl, hu, -, hrest⟩ := invocation_append hcall hr.assign hname
    rw [List.cons_append, statement_keyword ht]
    change (keyword .CALL >>= fun _ =>
      name >>= fun s => invocationRest (expression limit d) s) _ = _
    rw [keyword_bind ht, List.cons_append, name_bind hu]
    exact hrest
  | giveBack ht hx => exact giveBack_append ht hx hr

theorem block_append {closers : List Keyword} {k : Keyword} {body : List Stmt}
    (h : block limit d closers us = .ok (body, [])) (ht : t.token = .keyword k) (hmem : k ∈ closers)
    (hk : Token.isClear (.keyword k) = true) :
    block limit d closers (us ++ t :: r) = .ok (body, t :: r) := by
  have hb : Blocks (block limit d) (block limit (d + 1)) := blocks_block (Nat.lt_succ_self d)
  obtain ⟨used, hused, -, hok⟩ := ((hb us.length closers).viableAt us (Nat.le_refl _)).ok h
  rw [List.append_nil] at hused
  have hstarts : Starts (.keyword k) (t :: r) := congrArg some ht
  rw [hused]
  exact (hok _ (.inr (hstarts.afterBlock hmem hk))).1

end Statements

/-! ## Clauses as they are written -/

theorem beginsExpr_of_sign {token : Token} {op : UnaryOp} (h : Sign token op) :
    token.beginsExpr = true := by
  cases h <;> rfl

theorem rung_head {d n : Nat} {us : List Located} {e : Expr} : Rung d n us e →
    ∃ t ts, us = t :: ts ∧ t.token.beginsExpr = true
  | .binary h _ _ => by
    obtain ⟨t, ts, rfl, ht⟩ := rung_head h
    exact ⟨t, _, rfl, ht⟩
  | .tighter _ h => rung_head h
  | .unary hsign _ => ⟨_, _, rfl, beginsExpr_of_sign hsign⟩
  | .number ht | .text ht | .yes ht | .no ht | .var ht | .field ht _ _ | .element ht _ _ _
  | .call ht _ => ⟨_, _, rfl, by rw [ht]; rfl⟩
  | .parens hl _ _ => ⟨_, _, rfl, by rw [hl]; rfl⟩

/-- A clause as it is written. Its value is read on its own, and so is its statement. -/
structure WrittenClause (limit d : Nat) where
  value : Expr
  stmt : Stmt
  valueTokens : List Located
  colon : Located
  stmtTokens : List Located
  reads_value : expression limit d valueTokens = .ok (value, [])
  is_colon : colon.token = .symbol .colon
  reads_stmt : statement limit d stmtTokens = .ok (stmt, [])

namespace WrittenClause

variable {limit d : Nat} {c c' : WrittenClause limit d} {r : List Located} {t : Located}

def tokens (c : WrittenClause limit d) : List Located :=
  c.valueTokens ++ c.colon :: c.stmtTokens

def NewLine (c c' : WrittenClause limit d) : Prop :=
  ∀ t ∈ c.stmtTokens.getLast?, ∀ u ∈ c'.valueTokens.head?, t.line < u.line

/-- The second clause starts on a new line and does not begin with what the statement of the first
goes on with: `-` after an expression, and `(` after a name that is not the name of a field. -/
structure Apart (c c' : WrittenClause limit d) : Prop where
  newLine : c.NewLine c'
  minus : Starts (.symbol .minus) c'.valueTokens → c.stmt.endsInExpr = false
  paren : Starts (.symbol .leftParen) c'.valueTokens → EndsBare c.stmtTokens →
    c.stmt.endsInExpr = false ∧ c.stmt.isCall = false

theorem expression_valueTokens (c : WrittenClause limit d) :
    Expression d c.valueTokens c.value := by
  obtain ⟨used, hused, h⟩ := sound_expression limit d _ _ _ c.reads_value
  rw [List.append_nil] at hused
  exact hused ▸ h

theorem head_valueTokens (c : WrittenClause limit d) :
    ∃ t ts, c.valueTokens = t :: ts ∧ t.token.beginsExpr = true := by
  obtain ⟨h⟩ := c.expression_valueTokens
  exact rung_head h

theorem head_tokens (c : WrittenClause limit d) :
    ∃ t ts, c.tokens = t :: ts ∧ t.token.beginsExpr = true := by
  obtain ⟨t, ts, hts, ht⟩ := c.head_valueTokens
  exact ⟨t, _, by rw [tokens, hts, List.cons_append], ht⟩

theorem Apart.bounds (h : Apart c c') (r : List Located) :
    Bounds c.stmt c.stmtTokens (c'.tokens ++ r) := by
  obtain ⟨u, us, hus, hu⟩ := c'.head_valueTokens
  have hline : ∀ t ∈ c.stmtTokens.getLast?, u.line ≠ t.line :=
    fun t ht => Nat.ne_of_gt (h.newLine t ht u (by simp [hus]))
  have hminus := h.minus
  have hparen := h.paren
  rw [hus] at hminus hparen
  rw [tokens, hus, List.cons_append, List.cons_append]
  by_cases hclear : u.token.isClear = true
  · exact .of_isClear hclear fun _ _ => hline
  · -- Of the tokens that begin an expression only these two are not clear.
    obtain ⟨token, start, stop⟩ := u
    obtain rfl | rfl : token = .symbol .minus ∨ token = .symbol .leftParen := by
      by_contra hne
      exact hclear (isClear_of_beginsExpr hu (fun h => hne (.inl h)) fun h => hne (.inr h))
    · refine ⟨fun hs => ?_, fun _ _ => rfl, rfl, by simp [Lacks], by simp [BreaksLine]⟩
      rw [hminus rfl] at hs
      cases hs
    · refine ⟨fun _ => rfl, fun hs hbare => ?_, rfl, by simp [Lacks], by simp [BreaksLine]⟩
      rw [(hparen rfl hbare).1, (hparen rfl hbare).2] at hs
      rcases hs with hs | hs <;> cases hs

theorem reads (c : WrittenClause limit d) (hr : Bounds c.stmt c.stmtTokens r) :
    clause (expression limit d) (statement limit d)
    (c.tokens ++ r) = .ok ((c.value, c.stmt), r) := by
  have hvalue : expression limit d (c.valueTokens ++ c.colon :: (c.stmtTokens ++ r)) =
      .ok (c.value, c.colon :: (c.stmtTokens ++ r)) :=
    reads_expression c.expression_valueTokens (ends_of_symbol c.is_colon (by simp))
  rw [tokens, List.append_assoc, List.cons_append]
  unfold clause
  rw [bind_of_ok hvalue, symbol_bind c.is_colon, bind_of_ok (statement_append c.reads_stmt hr)]
  rfl

theorem readsMany {clauses : List (WrittenClause limit d)} {k : Keyword} (h : clauses.IsChain Apart)
    (ht : t.token = .keyword k) (hk : k ∈ [.OTHERWISE, .ENDCASE]) :
    ReadsMany (isOpen [.OTHERWISE, .ENDCASE]) (clause (expression limit d) (statement limit d))
      (clauses.flatMap tokens ++ t :: r) (clauses.map fun c => (c.value, c.stmt)) (t :: r) := by
  induction clauses with
  | nil => exact .stop (isOpen_of_closer ht hk)
  | cons c clauses ih =>
    have hclear : Token.isClear (.keyword k) = true := by
      simp only [List.mem_cons, List.not_mem_nil, or_false] at hk
      rcases hk with rfl | rfl <;> rfl
    have hr : Bounds c.stmt c.stmtTokens (clauses.flatMap tokens ++ t :: r) := by
      cases clauses with
      | nil => exact .of_isClear (ht ▸ hclear) (by simp [ht])
      | cons c' clauses =>
        rw [List.flatMap_cons, List.append_assoc]
        exact (List.isChain_cons_cons.mp h).1.bounds _
    obtain ⟨u, us, hus, hu⟩ := c.head_tokens
    rw [List.flatMap_cons, List.append_assoc]
    refine .more ?_ (c.reads hr) ?_ (ih h.tail)
    · rw [hus]
      exact isOpen_of_begins hu (by decide)
    · simp only [hus, List.length_append, List.length_cons]
      omega

end WrittenClause

/-- The part after `OTHERWISE`, which may be missing. -/
inductive WrittenOtherwise (limit d : Nat) : List Located → List Stmt → Prop where
  | none : WrittenOtherwise limit d [] []
  | some {t : Located} {ts : List Located} {body : List Stmt} : t.token = .keyword .OTHERWISE →
      block limit d [.ENDCASE] ts = .ok (body, []) → WrittenOtherwise limit d (t :: ts) body

theorem WrittenOtherwise.reads {limit d : Nat} {ts rest : List Located} {t : Located}
    {body : List Stmt}
    (h : WrittenOtherwise limit d ts body) (ht : t.token = .keyword .ENDCASE)
    (k : List Stmt → Stmt) : (do
      let body ← if ← acceptKeyword .OTHERWISE then block limit d [.ENDCASE] else pure []
      keyword .ENDCASE
      pure (k body)) (ts ++ t :: rest) = .ok (k body, rest) := by
  cases h with
  | none =>
    have hlacks : Lacks (.keyword .OTHERWISE) (t :: rest) := by simp [Lacks, ht]
    rw [List.nil_append, acceptKeyword_bind_of_not (startsWithKeyword_of_lacks hlacks)]
    change (keyword .ENDCASE >>= fun _ => pure (k [])) (t :: rest) = _
    rw [keyword_bind ht]
    rfl
  | @some u us _ hu hbody =>
    rw [List.cons_append, acceptKeyword_bind hu]
    change (block limit d [.ENDCASE] >>= fun body => keyword .ENDCASE >>= fun _ =>
      pure (k body)) _ = _
    rw [bind_of_ok (block_append hbody ht (List.mem_singleton.mpr rfl) rfl), keyword_bind ht]
    rfl

theorem WrittenOtherwise.exists_cons {limit d : Nat} {ts : List Located} {t : Located}
    {body : List Stmt} (h : WrittenOtherwise limit d ts body) (ht : t.token = .keyword .ENDCASE)
    (rest : List Located) :
    ∃ u us k, ts ++ t :: rest = u :: us ∧ u.token = .keyword k ∧ k ∈ [.OTHERWISE, .ENDCASE] := by
  cases h with
  | none => exact ⟨t, rest, .ENDCASE, rfl, ht, by simp⟩
  | some hu _ => exact ⟨_, _, .OTHERWISE, rfl, hu, by simp⟩

/-- The clauses of a selection are read as they are written if each starts on a new line, and not
with what the statement before it goes on with. -/
theorem clauses_separated {limit d : Nat} {clauses : List (WrittenClause limit d)}
    {otherwise : List Located} {body : List Stmt} {start of_ u stop : Located} {subject : String}
    (hstart : start.token = .keyword .CASE) (hof : of_.token = .keyword .OF)
    (hu : u.token = .name subject) (hclauses : clauses.IsChain WrittenClause.Apart)
    (hotherwise : WrittenOtherwise limit d otherwise body) (hstop : stop.token = .keyword .ENDCASE)
    (rest : List Located) :
    statement limit d
        (start :: of_ :: u ::
          (clauses.flatMap WrittenClause.tokens ++ (otherwise ++ stop :: rest))) =
      .ok (.caseOf subject (clauses.map fun c => (c.value, c.stmt)) body, rest) := by
  obtain ⟨v, vs, k, hvs, hv, hk⟩ := hotherwise.exists_cons hstop rest
  have hread := manyWhile_of_readsMany (WrittenClause.readsMany hclauses hv hk (r := vs))
  rw [← hvs] at hread
  rw [statement_keyword hstart]
  change selection (expression limit d) (block limit d) (statement limit d) _ = _
  unfold selection
  rw [keyword_bind hstart, keyword_bind hof, name_bind hu, bind_of_ok hread]
  exact hotherwise.reads hstop (Stmt.caseOf subject _)

def WrittenClause.onLine (line : Nat) (value : List Token) (e : Expr) (tokens : List Token)
    (s : Stmt)
    (hvalue : expression 2 2 (value.map fun token => ⟨token, ⟨0, line, 1⟩, 0⟩) = .ok (e, []))
    (hstmt : statement 2 2 (tokens.map fun token => ⟨token, ⟨0, line, 1⟩, 0⟩) = .ok (s, [])) :
    WrittenClause 2 2 :=
  ⟨e, s, _, ⟨.symbol .colon, ⟨0, line, 1⟩, 0⟩, _, hvalue, rfl, hstmt⟩

/-- `-b : OUTPUT b` -/
def signedClause : WrittenClause 2 2 :=
  .onLine 3 [.symbol .minus, .name "b"] (.unary .neg (.var "b" none))
    [.keyword .OUTPUT, .name "b"] (.output [.var "b" none]) rfl rfl

/-- `(b) : INPUT b` -/
def parenClause : WrittenClause 2 2 :=
  .onLine 2 [.symbol .leftParen, .name "b", .symbol .rightParen] (.var "b" none)
    [.keyword .INPUT, .name "b"] (.input "b") rfl rfl

/-- `CASE OF x` before the clauses, and after them what is given. -/
def caseOfTokens (clauses : List (WrittenClause 2 2)) (more : List Located) : List Located :=
  anywhere (.keyword .CASE) :: anywhere (.keyword .OF) :: anywhere (.name "x") ::
    (clauses.flatMap WrittenClause.tokens ++ more)

theorem clauses_separated_after_input :
    statement 2 2 (caseOfTokens [parenClause, signedClause] [anywhere (.keyword .OTHERWISE),
        anywhere (.keyword .INPUT), anywhere (.name "c"), anywhere (.keyword .ENDCASE)]) =
      .ok (.caseOf "x" [(.var "b" none, .input "b"),
        (.unary .neg (.var "b" none), .output [.var "b" none])] [.input "c"], []) := by
  have happart : WrittenClause.Apart parenClause signedClause := by
    refine ⟨fun t ht u hu => ?_, fun _ => rfl, fun hparen => by cases hparen⟩
    cases ht
    cases hu
    decide
  have hotherwise : WrittenOtherwise 2 2 [anywhere (.keyword .OTHERWISE),
    anywhere (.keyword .INPUT),
      anywhere (.name "c")] [.input "c"] := .some rfl rfl
  exact clauses_separated rfl rfl rfl (.cons_cons happart (.singleton _)) hotherwise rfl []

/-- `a : OUTPUT a` -/
def outputClause : WrittenClause 2 2 :=
  .onLine 1 [.name "a"] (.var "a" none) [.keyword .OUTPUT, .name "a"]
    (.output [.var "a" none]) rfl rfl

/-- `a : f` -/
def callClause : WrittenClause 2 2 :=
  .onLine 1 [.name "a"] (.var "a" none) [.name "f"] (.call "f" []) rfl rfl

/-- A new line alone does not separate clauses: `OUTPUT a` goes on with `-b`, and `f` with `(b)`. -/
theorem clauses_not_separated_by_newLine :
    (outputClause.NewLine signedClause ∧
      statement 2 2 (caseOfTokens [outputClause, signedClause] [anywhere (.keyword .ENDCASE)]) =
        .error ⟨.unexpectedOperand (.symbol .colon),
          signedClause.colon :: signedClause.stmtTokens ++ [anywhere (.keyword .ENDCASE)]⟩) ∧
    callClause.NewLine parenClause ∧
      statement 2 2 (caseOfTokens [callClause, parenClause] [anywhere (.keyword .ENDCASE)]) =
        .error ⟨.unexpectedOperand (.symbol .colon),
          parenClause.colon :: parenClause.stmtTokens ++ [anywhere (.keyword .ENDCASE)]⟩ := by
  refine ⟨⟨fun t ht u hu => ?_, rfl⟩, fun t ht u hu => ?_, rfl⟩
  all_goals
    cases ht
    cases hu
    decide

end Parser

end Chalkboard
