import Chalkboard.Proofs.Viability

/-! # Expressions and statements are viable

Every parser of expressions and statements is viable against itself with more levels: on a sign,
behind an opening parenthesis and in a block one level fewer is left, and where none is left the
parser with more of them goes on. After an expression no operator may come next and nothing that
extends a name; after a statement a keyword that begins no part of it.
-/

namespace Chalkboard.Parser

open Grammar

/-! ## What may come next -/

section Follow

variable {r : List Located} {token : Token}

def AfterOperand : Follow := fun r => extendsName r = false

structure AfterExpr (r : List Located) : Prop where
  operator : operatorAt? r = none
  name : extendsName r = false

/-- There is a keyword that no statement goes on with, or nothing. -/
structure AfterStmt (r : List Located) : Prop extends Clear r where
  keyword : ∀ t ∈ r.head?, ∃ k, t.token = .keyword k

def AfterBlock (closers : List Keyword) : Follow := Over (isOpen closers) AfterStmt

theorem AfterExpr.of_clear (h : Clear r) : AfterExpr r :=
  ⟨h.operator, h.name⟩

theorem Starts.exists_cons (h : Starts token r) : ∃ t us, r = t :: us ∧ t.token = token :=
  head_eq_some h

theorem Starts.lacks (h : Starts token r) {token' : Token} (hne : token ≠ token') :
    Lacks token' r := by
  obtain ⟨t, us, rfl, rfl⟩ := h.exists_cons
  simpa [Lacks] using hne

theorem Starts.afterExpr (h : Starts token r) (hr : AfterExpr [anywhere token]) : AfterExpr r := by
  obtain ⟨t, us, rfl, rfl⟩ := h.exists_cons
  exact ⟨hr.operator, hr.name⟩

theorem Starts.clear (h : Starts token r) (hr : Clear [anywhere token]) : Clear r := by
  obtain ⟨⟨token, start, stop⟩, us, rfl, rfl⟩ := h.exists_cons
  refine ⟨hr.operator, hr.name, ?_⟩
  cases token <;> exact hr.comma

theorem Clear.lacks_comma (h : Clear r) : Lacks (.symbol .comma) r := by
  intro t ht htoken
  obtain ⟨us, rfl⟩ := List.head?_eq_some_iff.mp ht
  have hcomma := h.comma
  rw [startsWithSymbol_iff.mpr ⟨t, us, rfl, htoken⟩] at hcomma
  cases hcomma

theorem Starts.afterStmt {k : Keyword} (h : Starts (.keyword k) r)
    (hk : Token.isClear (.keyword k) = true) : AfterStmt r where
  toClear := by
    obtain ⟨t, us, rfl, ht⟩ := h.exists_cons
    exact clear_keyword ht hk
  keyword := by
    obtain ⟨t, us, rfl, ht⟩ := h.exists_cons
    simp [ht]

theorem AfterStmt.lacks_name (h : AfterStmt r) (s : String) : Lacks (.name s) r := by
  intro t ht htoken
  obtain ⟨k, hk⟩ := h.keyword t ht
  cases htoken.symm.trans hk

theorem AfterStmt.lacks_symbol (h : AfterStmt r) (s : Symbol) : Lacks (.symbol s) r := by
  intro t ht htoken
  obtain ⟨k, hk⟩ := h.keyword t ht
  cases htoken.symm.trans hk

theorem Starts.afterBlock {k : Keyword} {closers : List Keyword} (h : Starts (.keyword k) r)
    (hmem : k ∈ closers) (hk : Token.isClear (.keyword k) = true) : AfterBlock closers r := by
  refine ⟨?_, h.afterStmt hk⟩
  obtain ⟨t, us, rfl, ht⟩ := h.exists_cons
  exact isOpen_of_closer ht hmem

theorem isOpen_congr {closers : List Keyword} (r r' : List Located) (h : r.head? = r'.head?) :
    isOpen closers r = isOpen closers r' := by
  cases r with
  | nil => rw [List.head?_eq_none_iff.mp h.symm]
  | cons t us =>
    obtain ⟨us', rfl⟩ := List.head?_eq_some_iff.mp h.symm
    obtain ⟨token, start, stop⟩ := t
    cases token <;> rfl

theorem AfterBlock.lacks {k : Keyword} {closers : List Keyword} (h : AfterBlock closers r)
    (hk : k ∉ closers) : Lacks (.keyword k) r := by
  intro t ht htoken
  obtain ⟨us, rfl⟩ := List.head?_eq_some_iff.mp ht
  have hclosed := h.1
  simp only [isOpen, List.isEmpty_cons, Bool.not_false, Bool.true_and, Bool.not_eq_false',
    List.any_eq_true] at hclosed
  obtain ⟨k', hk', hstarts⟩ := hclosed
  obtain ⟨_, _, heq, ht'⟩ := startsWithKeyword_iff.mp hstarts
  cases heq
  rw [htoken] at ht'
  cases ht'
  exact hk hk'

end Follow

/-! ## Expressions -/

/-- A parser of expressions and one with more levels. -/
structure Deeper (e e' : Parser Expr) : Prop where
  viable : ∀ n, Viable n AfterExpr (Starts (.keyword .TRUE)) e e'
  shrinks : Shrinks e
  shrinks' : Shrinks e'

section Expressions

variable {n : Nat} {F B : Follow} {e e' o o' : Parser Expr} {ts : List Located}

/-- The items of a list in parentheses after the opening one. -/
def upToParen {α : Type} (p : Parser α) : Parser (List α) := do
  let as ← if ← atSymbol .rightParen then pure [] else commaList p
  symbol .rightParen
  pure as

theorem viable_upToParen {α : Type} {p q : Parser α}
    (h : Viable n Clear B (commaList p) (commaList q)) :
    Viable n F (Starts (.symbol .rightParen)) (upToParen p) (upToParen q) := by
  have hclose : ∀ (p : Parser α) us, upToParen p (anywhere (.symbol .rightParen) :: us) =
    .ok ([], us) :=
    fun _ _ => rfl
  refine ⟨fun ts hts => ?_, [anywhere (.symbol .rightParen)], [],
    fun tail _ => ⟨rfl, hclose q tail⟩⟩
  by_cases hlacks : Lacks (.symbol .rightParen) ts
  · have hclose : ∀ as : List α, Viable n F (Starts (.symbol .rightParen))
        (symbol .rightParen >>= fun _ => pure as) (symbol .rightParen >>= fun _ => pure as) :=
      fun as => .symbol (.pure as)
    have hitems : ViableAt F (fun r => B r ∧ Nowhere r)
        (commaList p >>= fun as => symbol .rightParen >>= fun _ => pure as)
        (commaList q >>= fun as => symbol .rightParen >>= fun _ => pure as) ts :=
      (h.viableAt ts hts).bind
        (fun as rest _ => .take (takes_symbol _) (fun _ => .pure (n := rest.length) as)
          (Nat.le_succ _))
        (fun as => (hclose as).finishes) (fun r hr => hr.clear ⟨rfl, rfl, rfl⟩) fun _ => False.elim
    have hsame : ∀ (p : Parser α) r, r.head? = ts.head? ∨ B r ∧ Nowhere r → upToParen p r =
        (commaList p >>= fun as => symbol .rightParen >>= fun _ => pure as) r := by
      rintro p r (hr | hr)
      · have hr' : Lacks (.symbol .rightParen) r := by rwa [Lacks, hr]
        rw [upToParen, atSymbol_bind, startsWithSymbol_of_lacks hr']
        rfl
      · exact hr.2.elim
    exact (hitems.transfer (hsame p) (hsame q)).mono (fun _ => id) fun _ hr => hr.2.elim
  · obtain ⟨t, us, rfl, ht⟩ := starts_of_not_lacks hlacks
    have htake : ∀ (p : Parser α) us, upToParen p (t :: us) = (pure [] : Parser (List α)) us := by
      intro p us
      rw [upToParen, atSymbol_bind, startsWithSymbol_iff.mpr ⟨t, us, rfl, ht⟩]
      change (symbol .rightParen >>= fun _ => pure []) (t :: us) = _
      exact symbol_bind ht _
    exact .cons (.pure []) (Nat.le_refl _) (htake p) (htake q)

theorem Deeper.list (h : Deeper e e') :
    Viable n Clear (Starts (.keyword .TRUE)) (commaList e) (commaList e') :=
  .commaList h.viable h.shrinks h.shrinks' (fun _ => .of_clear) fun _ => Clear.lacks_comma

/-- An expression is over before a token that neither is an operator nor extends a name. -/
theorem Deeper.before {α : Type} {f g : Expr → Parser α} {token : Token} (h : Deeper e e')
    (hf : ∀ x, Viable n F (Starts token) (f x) (g x)) (htoken : AfterExpr [anywhere token]) :
    Viable n F (Starts (.keyword .TRUE)) (e >>= f) (e' >>= g) :=
  (h.viable n).bind hf fun _ hr => hr.afterExpr htoken

theorem Deeper.close {α : Type} (h : Deeper e e') {s : Symbol}
    (hs : AfterExpr [anywhere (.symbol s)]) (k : Expr → α) : Viable n F (Starts (.keyword .TRUE))
      (e >>= fun x => symbol s >>= fun _ => pure (k x))
      (e' >>= fun x => symbol s >>= fun _ => pure (k x)) :=
  h.before (fun x => .symbol (.pure (k x))) hs

/-- The tokens that extend a name. -/
def extensions : List Token := [.symbol .leftBracket, .symbol .leftParen, .symbol .dot]

theorem extendsName_eq_false_iff {r : List Located} :
    extendsName r = false ↔ LacksAll extensions r := by
  rcases r with - | ⟨⟨token, start, stop⟩, us⟩
  · simp [extendsName, extensions, LacksAll, Lacks]
  · cases token with
    | symbol s => cases s <;> simp [extendsName, extensions, LacksAll, Lacks]
    | _ => simp [extendsName, extensions, LacksAll, Lacks]

theorem viable_named (he : Deeper e e') (s : String) :
    Viable n AfterOperand AfterOperand (named e s) (named e' s) := by
  have hvar : ∀ (e : Parser Expr) r, LacksAll extensions r → named e s r = .ok (.var s none, r) :=
    fun e r hr => named_of_not_extendsName (extendsName_eq_false_iff.mpr hr)
  refine (Viable.pure (.var s none)).dispatch extensions (fun r => extendsName_eq_false_iff.mp)
    (hvar e) (hvar e') fun t us ht hts => ?_
  obtain ⟨token, start, stop⟩ := t
  simp only [extensions, List.mem_cons, List.not_mem_nil, or_false] at ht
  obtain rfl | rfl | rfl := ht
  · exact .cons (he.close ⟨rfl, rfl⟩ (.element s)) (Nat.le_refl _) (fun _ => rfl) fun _ => rfl
  · exact .cons ((viable_upToParen he.list).map (.call s)) (Nat.le_refl us.length) (fun _ => rfl)
      fun _ => rfl
  · exact .cons (.name fun field => .pure (.var s (some field))) (Nat.le_refl us.length)
      (fun _ => rfl) fun _ => rfl

theorem viableAt_primary (he : Deeper e e') (ts : List Located) :
    ViableAt AfterOperand B (primary e) (primary e') ts := by
  cases ts with
  | nil => exact .refused_nil rfl
  | cons t us =>
    obtain ⟨token, start, stop⟩ := t
    cases token with
    | number x real => exact .cons (.pure _) (Nat.le_refl _) (fun _ => rfl) fun _ => rfl
    | text s => exact .cons (.pure _) (Nat.le_refl _) (fun _ => rfl) fun _ => rfl
    | name s => exact .cons (viable_named he s) (Nat.le_refl _) (fun _ => rfl) fun _ => rfl
    | keyword k =>
      cases k with
      | TRUE => exact .cons (.pure _) (Nat.le_refl _) (fun _ => rfl) fun _ => rfl
      | FALSE => exact .cons (.pure _) (Nat.le_refl _) (fun _ => rfl) fun _ => rfl
      | _ => exact .refused_cons fun _ => rfl
    | symbol s =>
      cases s with
      | leftParen =>
        exact .cons (he.close ⟨rfl, rfl⟩ id) (Nat.le_refl _) (fun _ => rfl) fun _ => rfl
      | _ => exact .refused_cons fun _ => rfl

theorem viable_operandWith (ho : ∀ n, Viable n AfterOperand (Starts (.keyword .TRUE)) o o')
    (he : Deeper e e') :
    Viable n AfterOperand (Starts (.keyword .TRUE)) (operandWith o e) (operandWith o' e') where
  viableAt ts hts := by
    cases hsign : signAt? ts with
    | none =>
      have hsame : ∀ (o e : Parser Expr) r, r.head? = ts.head? ∨ Nowhere r →
          operandWith o e r = primary e r := by
        rintro o e r (hr | hr)
        · exact operandWith_of_none (by rwa [signAt?, hr])
        · exact hr.elim
      exact ((viableAt_primary he ts).transfer (hsame o e) (hsame o' e')).mono (fun _ => id)
        fun _ => False.elim
    | some op =>
      cases ts with
      | nil => cases hsign
      | cons t us =>
        have hsign' : ∀ us, signAt? (t :: us) = some op := fun _ => hsign
        exact .cons ((ho us.length).map (.unary op)) (Nat.le_refl _)
          (fun us => operandWith_of_some (hsign' us)) fun us => operandWith_of_some (hsign' us)
  finishes := ⟨[anywhere (.keyword .TRUE)], .literal (.bool true), fun _ _ => ⟨rfl, rfl⟩⟩

theorem climbOn_of_afterExpr (ho : Shrinks o) {level : Nat} {left : Expr} {r : List Located}
    (hr : AfterExpr r) : climbOn o level left r = .ok (left, r) := by
  rw [climbOn_eq ho, hr.operator]

theorem finishes_climbOn (ho : Shrinks o) (level : Nat) (left : Expr) :
    Finishes AfterExpr AfterExpr (climbOn o level left) :=
  ⟨[], left, fun _ htail => ⟨htail, climbOn_of_afterExpr ho htail⟩⟩

theorem viable_climbOn (ho : ∀ n, Viable n AfterOperand (Starts (.keyword .TRUE)) o o')
    (hs : Shrinks o) (hs' : Shrinks o') (level : Nat) (left : Expr) :
    Viable n AfterExpr AfterExpr (climbOn o level left) (climbOn o' level left) := by
  induction n using Nat.strongRecOn generalizing level left with
  | ind n ih =>
    refine ⟨fun ts hts => ?_, finishes_climbOn hs' level left⟩
    have hidle : (∀ r, r.head? = ts.head? → ∀ {o : Parser Expr}, Shrinks o →
        climbOn o level left r = .ok (left, r)) →
        ViableAt AfterExpr AfterExpr (climbOn o level left) (climbOn o' level left) ts := by
      refine fun hhere => .idle (a := left) (fun _ => id) fun r hr => ?_
      rcases hr with hr | hr
      · exact ⟨hhere r hr hs, hhere r hr hs'⟩
      · exact ⟨climbOn_of_afterExpr hs hr, climbOn_of_afterExpr hs' hr⟩
    cases hat : operatorAt? ts with
    | none =>
      refine hidle fun r hr o ho => ?_
      rw [climbOn_eq ho, operatorAt?, hr, ← operatorAt?, hat]
    | some op =>
      by_cases hle : level ≤ op.level
      · cases ts with
        | nil => cases hat
        | cons t us =>
          have hgo : ∀ {o : Parser Expr}, Shrinks o → ∀ us, climbOn o level left (t :: us) = (do
              let first ← o
              let right ← climbOn o (op.level + 1) first
              climbOn o level (.binary op left right)) us := by
            intro o ho us
            have hat' : operatorAt? (t :: us) = some op := hat
            rw [climbOn_eq ho, hat']
            simp only [hle, if_true]
            rfl
          have hlt : us.length < n := hts
          exact .cons ((ho us.length).bind
            (fun first => (ih us.length hlt (op.level + 1) first).bind
            (fun right => ih us.length hlt level (.binary op left right)) fun _ => id)
            fun _ => AfterExpr.name) (Nat.le_refl _) (hgo hs) (hgo hs')
      · refine hidle fun r hr o ho => ?_
        rw [climbOn_eq ho, operatorAt?, hr, ← operatorAt?, hat]
        simp only [hle, if_false]

theorem viable_climb (ho : ∀ n, Viable n AfterOperand (Starts (.keyword .TRUE)) o o')
    (hs : Shrinks o) (hs' : Shrinks o') :
    Viable n AfterExpr (Starts (.keyword .TRUE)) (climb o) (climb o') := by
  rw [climb_eq, climb_eq]
  exact (ho n).bind (fun first => viable_climbOn ho hs hs' 1 first) fun _ => AfterExpr.name

variable {limit limit' : Nat}

theorem finishes_operand (d : Nat) :
    Finishes AfterOperand (Starts (.keyword .TRUE)) (operand limit d) := by
  refine ⟨[anywhere (.keyword .TRUE)], .literal (.bool true), fun _ _ => ⟨rfl, ?_⟩⟩
  cases d <;> rfl

theorem finishes_climb (d : Nat) :
    Finishes AfterExpr (Starts (.keyword .TRUE)) (climb (operand limit d)) := by
  rw [climb_eq]
  exact (finishes_operand d).bind (finishes_climbOn (shrinks_operand limit d) 1) fun _ =>
    AfterExpr.name

theorem Shrinks.stuck {α : Type} (cause : Cause) : Shrinks (stuck cause : Parser α) := by
  intro ts a rest h
  cases h

theorem deeper_stuck (cause : Cause) (d : Nat) :
    Deeper (stuck cause) (climb (operand limit d)) where
  viable _ := .stuck (finishes_climb d)
  shrinks := .stuck cause
  shrinks' := shrinks_expression limit (d + 1)

theorem viable_operand {d d' : Nat} (h : d < d') :
    Viable n AfterOperand (Starts (.keyword .TRUE)) (operand limit d) (operand limit' d') := by
  induction d generalizing n d' with
  | zero =>
    obtain ⟨k, rfl⟩ := Nat.exists_eq_add_one_of_ne_zero (Nat.ne_of_gt h)
    exact viable_operandWith (fun _ => .stuck (finishes_operand k)) (deeper_stuck _ k)
  | succ d ih =>
    obtain ⟨k, rfl⟩ := Nat.exists_eq_add_one_of_ne_zero (Nat.ne_zero_of_lt h)
    have hd : d < k := Nat.lt_of_succ_lt_succ h
    exact viable_operandWith (fun _ => ih hd) ⟨fun _ => viable_climb (fun _ => ih hd)
      (shrinks_operand limit d) (shrinks_operand limit' k), shrinks_expression limit (d + 1),
      shrinks_expression limit' (k + 1)⟩

theorem deeper_expression {d d' : Nat} (h : d < d') :
    Deeper (expression limit d) (expression limit' d') := by
  obtain ⟨k, rfl⟩ := Nat.exists_eq_add_one_of_ne_zero (Nat.ne_zero_of_lt h)
  cases d with
  | zero => exact deeper_stuck _ k
  | succ d =>
    have hd : d < k := Nat.lt_of_succ_lt_succ h
    exact ⟨fun _ => viable_climb (fun _ => viable_operand hd) (shrinks_operand limit d)
      (shrinks_operand limit' k), shrinks_expression limit (d + 1),
      shrinks_expression limit' (k + 1)⟩

end Expressions

/-! ## Statements -/

section Statements

variable {n : Nat} {F : Follow} {e e' : Parser Expr} {b b' : List Keyword → Parser (List Stmt)}

/-- Parsers of blocks, of which the second has more levels. -/
def Blocks (b b' : List Keyword → Parser (List Stmt)) : Prop :=
  ∀ n closers, Viable n (AfterBlock closers) (AfterBlock closers) (b closers) (b' closers)

/-- Names with commas between them. -/
theorem viable_names : Viable n Clear (Starts (.name "x")) (commaList name) (commaList name) :=
  .commaList (fun _ => .single (takes_name "x")) sound_name.shrinks sound_name.shrinks
    (fun _ => id) fun _ => Clear.lacks_comma

theorem viable_declaration (he : Deeper e e') :
    Viable n F (Starts (.keyword .DECLARE)) (declaration e) (declaration e') := by
  apply Viable.keyword
  apply viable_names.bind
  · intro names
    apply Viable.symbol
    apply Viable.accept (offers_acceptKeyword .ARRAY)
    · intro m _
      exact .symbol (he.before (fun lower => .symbol (he.before (fun upper => .symbol (.keyword
        (.typeName (Stmt.declareArray names lower upper)))) ⟨rfl, rfl⟩)) ⟨rfl, rfl⟩)
    · exact .typeName (Stmt.declare names)
    · exact fun r hr => hr.lacks nofun
  · exact fun r hr => hr.clear ⟨rfl, rfl, rfl⟩

/-- The last part of a statement is an expression. -/
theorem Deeper.last (he : Deeper e e') (k : Expr → Stmt) :
    Viable n AfterStmt (Starts (.keyword .TRUE)) (e >>= fun x => pure (k x))
    (e' >>= fun x => pure (k x)) :=
  ((he.viable n).map k).mono (Nat.le_refl n) (fun _ hr => .of_clear hr.toClear) fun _ => id

theorem Deeper.assigned (he : Deeper e e') (k : Expr → Stmt) :
    Viable n AfterStmt (Starts (.symbol .assign))
    (symbol .assign >>= fun _ => e >>= fun x => pure (k x))
      (symbol .assign >>= fun _ => e' >>= fun x => pure (k x)) :=
  .symbol (he.last k)

theorem viable_constant (he : Deeper e e') :
    Viable n AfterStmt (Starts (.keyword .CONSTANT)) (constant e) (constant e') :=
  .keyword (.name fun s => he.assigned (.constant s))

theorem viable_output (he : Deeper e e') :
    Viable n AfterStmt (Starts (.keyword .OUTPUT)) (output e) (output e') :=
  .keyword ((he.list.map Stmt.output).mono (Nat.le_refl n) (fun _ => AfterStmt.toClear) fun _ => id)

theorem viable_input :
    Viable n F (Starts (.keyword .INPUT))
    (keyword .INPUT >>= fun _ => name >>= fun s => pure (Stmt.input s))
      (keyword .INPUT >>= fun _ => name >>= fun s => pure (Stmt.input s)) :=
  .keyword (.name fun s => .pure (Stmt.input s))

/-- What comes after the name of a subroutine that is called. -/
def invocationRest (e : Parser Expr) (s : String) : Parser Stmt := do
  let args ← if ← atSymbol .leftParen then arguments e else pure []
  pure (.call s args)

theorem invocationRest_of_lacks {r : List Located} (h : Lacks (.symbol .leftParen) r)
    (e : Parser Expr) (s : String) : invocationRest e s r = .ok (.call s [], r) := by
  rw [invocationRest, atSymbol_bind, startsWithSymbol_of_lacks h]
  rfl

theorem viable_invocationRest (he : Deeper e e') (s : String) :
    Viable n AfterStmt AfterStmt (invocationRest e s) (invocationRest e' s) := by
  refine (Viable.pure (.call s [])).dispatch [.symbol .leftParen]
    (fun r hr => ⟨hr.lacks_symbol _, trivial⟩)
    (fun r hr => invocationRest_of_lacks hr.1 e s) (fun r hr => invocationRest_of_lacks hr.1 e' s)
    fun t us ht hts => ?_
  obtain ⟨token, start, stop⟩ := t
  obtain rfl : token = _ := List.mem_singleton.mp ht
  exact .cons ((viable_upToParen he.list).map (.call s)) (Nat.le_refl us.length) (fun _ => rfl)
    fun _ => rfl

/-- What comes after the name with which a statement begins. -/
def afterName (e : Parser Expr) (s : String) : Parser Stmt := do
  match ← peek with
  | some (.symbol .assign) =>
    skip
    return .assign s none (← e)
  | some (.symbol .leftBracket) =>
    skip
    let index ← e
    symbol .rightBracket
    symbol .assign
    return .assignElement s index (← e)
  | some (.symbol .dot) =>
    skip
    let field ← name
    symbol .assign
    return .assign s (some field) (← e)
  | _ => invocationRest e s

theorem namedStatement_cons {t : Located} {s : String} (ht : t.token = .name s) (e : Parser Expr)
    (us : List Located) : namedStatement e (t :: us) = afterName e s us := by
  obtain ⟨token, start, stop⟩ := t
  subst ht
  rcases us with - | ⟨⟨token, start, stop⟩, us⟩
  · rfl
  · cases token with
    | symbol s => cases s <;> rfl
    | _ => rfl

/-- The tokens after a name that make it the beginning of an assignment. -/
def assigners : List Token := [.symbol .assign, .symbol .leftBracket, .symbol .dot]

theorem afterName_of_lacks {r : List Located} (h : LacksAll assigners r) (e : Parser Expr)
    (s : String) : afterName e s r = invocationRest e s r := by
  obtain ⟨hassign, hbracket, hdot, -⟩ := h
  rcases r with - | ⟨⟨token, start, stop⟩, us⟩
  · rfl
  · cases token with
    | symbol s => cases s with
      | assign => exact absurd rfl (hassign _ rfl)
      | leftBracket => exact absurd rfl (hbracket _ rfl)
      | dot => exact absurd rfl (hdot _ rfl)
      | _ => rfl
    | _ => rfl

theorem viable_afterName (he : Deeper e e') (s : String) :
    Viable n AfterStmt AfterStmt (afterName e s) (afterName e' s) := by
  refine (viable_invocationRest he s).dispatch assigners
    (fun r hr => ⟨hr.lacks_symbol _, hr.lacks_symbol _, hr.lacks_symbol _, trivial⟩)
    (fun r hr => afterName_of_lacks hr e s) (fun r hr => afterName_of_lacks hr e' s)
    fun t us ht hts => ?_
  obtain ⟨token, start, stop⟩ := t
  simp only [assigners, List.mem_cons, List.not_mem_nil, or_false] at ht
  obtain rfl | rfl | rfl := ht
  · exact .cons (he.last (.assign s none)) (Nat.le_refl us.length) (fun _ => rfl) fun _ => rfl
  · have hclose : ∀ index, Viable us.length AfterStmt (Starts (.symbol .rightBracket))
        (symbol .rightBracket >>= fun _ => symbol .assign >>= fun _ => e >>= fun x =>
          pure (Stmt.assignElement s index x))
        (symbol .rightBracket >>= fun _ => symbol .assign >>= fun _ => e' >>= fun x =>
          pure (Stmt.assignElement s index x)) :=
      fun index => .symbol (he.assigned (.assignElement s index))
    exact .cons (he.before hclose ⟨rfl, rfl⟩) (Nat.le_refl us.length) (fun _ => rfl) fun _ => rfl
  · exact .cons (.name fun field => he.assigned (.assign s (some field))) (Nat.le_refl us.length)
      (fun _ => rfl) fun _ => rfl

/-- A block before the word that closes it. -/
theorem Blocks.closed (hb : Blocks b b') {k : Keyword} {closers : List Keyword} {α : Type}
    (hmem : k ∈ closers) (hk : Token.isClear (.keyword k) = true) (x : List Stmt → α) :
    Viable n F (AfterBlock closers) (b closers >>= fun body => keyword k >>= fun _ => pure (x body))
      (b' closers >>= fun body => keyword k >>= fun _ => pure (x body)) :=
  (hb n closers).bind (fun body => .keyword (.pure (x body))) fun _ hr => hr.afterBlock hmem hk

/-- A block that may be there after a keyword, before the word that closes the statement. -/
theorem Blocks.alternative (hb : Blocks b b') (k close : Keyword) (hne : close ≠ k)
    (hclose : Token.isClear (.keyword close) = true) (x : List Stmt → Stmt) :
    Viable n F (Starts (.keyword close))
      (do
        let body ← if ← acceptKeyword k then b [close] else pure []
        keyword close
        pure (x body))
      (do
        let body ← if ← acceptKeyword k then b' [close] else pure []
        keyword close
        pure (x body)) := by
  apply Viable.accept (offers_acceptKeyword k)
  · exact fun m _ => hb.closed (List.mem_singleton.mpr rfl) hclose x
  · exact (Viable.pure []).bind (fun body => .keyword (.pure (x body))) fun _ => id
  · exact fun r hr => hr.lacks (by simpa using hne)

theorem viable_conditional (he : Deeper e e') (hb : Blocks b b') :
    Viable n F (Starts (.keyword .IF)) (conditional e b) (conditional e' b') := by
  apply Viable.keyword
  apply he.before
  · intro condition
    apply Viable.keyword
    apply (hb n _).bind
    · exact fun yes => hb.alternative .ELSE .ENDIF nofun rfl (.ifElse condition yes)
    · exact fun r hr => hr.afterBlock (by simp) rfl
  · exact ⟨rfl, rfl⟩

theorem viable_whileLoop (he : Deeper e e') (hb : Blocks b b') :
    Viable n F (Starts (.keyword .WHILE)) (whileLoop e b) (whileLoop e' b') :=
  .keyword (he.before (fun condition => .keyword (hb.closed (by simp) rfl (Stmt.whileDo condition)))
    ⟨rfl, rfl⟩)

/-- A loop up to its condition. -/
def repeatHead (b : List Keyword → Parser (List Stmt)) : Parser (List Stmt) := do
  keyword .REPEAT
  let body ← b [.UNTIL]
  keyword .UNTIL
  pure body

theorem repeatLoop_eq (e : Parser Expr) (b : List Keyword → Parser (List Stmt)) :
    repeatLoop e b = (do
      let body ← repeatHead b
      return .repeatUntil body (← e)) := by
  simp only [repeatLoop, repeatHead, bind_assoc, pure_bind]

theorem viable_repeatHead (hb : Blocks b b') :
    Viable n F (Starts (.keyword .REPEAT)) (repeatHead b) (repeatHead b') :=
  .keyword (hb.closed (by simp) rfl id)

theorem viable_repeatLoop (he : Deeper e e') (hb : Blocks b b') :
    Viable n AfterStmt (Starts (.keyword .REPEAT)) (repeatLoop e b) (repeatLoop e' b') := by
  rw [repeatLoop_eq, repeatLoop_eq]
  exact (viable_repeatHead hb).bind (fun body => he.last (.repeatUntil body)) fun _ => id

/-- The end of a loop: `NEXT`, and the name of the counter if it is on the same line. -/
def nextAndCounter (s : Stmt) : Parser Stmt := do
  let line ← peekLine
  keyword .NEXT
  counterAfterNext line
  pure s

theorem counterAfterNext_of_lacks {line : Option Nat} {r : List Located}
    (h : ∀ s, Lacks (.name s) r) : counterAfterNext line r = .ok ((), r) := by
  rcases r with - | ⟨⟨token, start, stop⟩, us⟩
  · rfl
  · cases token with
    | name s => exact absurd rfl (h s _ rfl)
    | _ => rfl

theorem counterAfterNext_of_ne {t : Located} {line : Nat} (hline : t.line ≠ line)
    (us : List Located) : counterAfterNext (some line) (t :: us) = .ok ((), t :: us) := by
  obtain ⟨token, start, stop⟩ := t
  cases token with
  | name s =>
    change (if some start.line = some line then skip else pure () : Parser Unit) _ = _
    rw [if_neg (by simpa [Located.line] using hline)]
    rfl
  | _ => rfl

theorem viable_counterAfterNext (line : Nat) :
    Viable n AfterStmt AfterStmt (counterAfterNext (some line)) (counterAfterNext (some line)) := by
  have hafter : ∀ r, AfterStmt r → counterAfterNext (some line) r = .ok ((), r) :=
    fun r hr => counterAfterNext_of_lacks hr.lacks_name
  have hidle : ∀ {ts}, (∀ r, r.head? = ts.head? → counterAfterNext (some line) r = .ok ((), r)) →
      ViableAt AfterStmt AfterStmt (counterAfterNext (some line))
      (counterAfterNext (some line)) ts := by
    refine fun hhere => .idle (a := ()) (fun _ => id) fun r hr => ?_
    have hr' := hr.elim (hhere r) (hafter r)
    exact ⟨hr', hr'⟩
  refine ⟨fun ts hts => ?_, [], (), fun tail htail => ⟨htail, hafter tail htail⟩⟩
  by_cases hname : ∀ s, Lacks (.name s) ts
  · exact hidle fun r hr => counterAfterNext_of_lacks fun s => by rw [Lacks, hr]; exact hname s
  · obtain ⟨s, hs⟩ := Classical.not_forall.mp hname
    obtain ⟨t, us, rfl, ht⟩ := starts_of_not_lacks hs
    by_cases hline : t.line = line
    · exact .cons (.pure ()) (Nat.le_refl _) (fun _ => counterAfterNext_of_line ht hline)
        fun _ => counterAfterNext_of_line ht hline
    · refine hidle fun r hr => ?_
      obtain ⟨us, rfl⟩ := List.head?_eq_some_iff.mp hr
      exact counterAfterNext_of_ne hline us

theorem nextAndCounter_cons (s : Stmt) {t : Located} (ht : t.token = .keyword .NEXT)
    (us : List Located) :
    nextAndCounter s (t :: us) = (counterAfterNext (some t.line) >>= fun _ => pure s) us := by
  change (keyword .NEXT >>= fun _ => counterAfterNext (some t.line) >>= fun _ => pure s) (t :: us) =
    _
  exact keyword_bind ht _

theorem viable_nextAndCounter (s : Stmt) :
    Viable n AfterStmt (Starts (.keyword .NEXT)) (nextAndCounter s) (nextAndCounter s) := by
  have hrest : ∀ line, Viable n AfterStmt AfterStmt
    (counterAfterNext (some line) >>= fun _ => pure s)
      (counterAfterNext (some line) >>= fun _ => pure s) :=
    fun line => (viable_counterAfterNext line).map fun _ => s
  refine ⟨fun ts hts => ?_, [anywhere (.keyword .NEXT)], s, fun tail htail => ⟨rfl, ?_⟩⟩
  · by_cases hlacks : Lacks (.keyword .NEXT) ts
    · have hstuck : ∀ r, r.head? = ts.head? →
          nextAndCounter s r = .error ⟨.expectedKeyword .NEXT, r⟩ := by
        intro r hr
        have hr' : Lacks (.keyword .NEXT) r := by rwa [Lacks, hr]
        change (keyword .NEXT >>= fun _ => _) r = _
        exact bind_of_error (by simp [keyword, startsWithKeyword_of_lacks hr'])
      exact .refused hstuck
    · obtain ⟨t, us, rfl, ht⟩ := starts_of_not_lacks hlacks
      exact .cons (hrest t.line) (Nat.le_of_succ_le hts) (nextAndCounter_cons s ht)
        (nextAndCounter_cons s ht)
  · rw [List.singleton_append, nextAndCounter_cons s rfl,
      bind_of_ok (counterAfterNext_of_lacks htail.lacks_name)]
    rfl

/-- A loop up to its `NEXT`. -/
def forHead (e : Parser Expr) (b : List Keyword → Parser (List Stmt)) : Parser Stmt := do
  keyword .FOR
  let counter ← name
  symbol .assign
  let start ← e
  keyword .TO
  let stop ← e
  let step ← if ← acceptKeyword .STEP then e else pure (.literal (.number 1.0))
  let body ← b [.NEXT]
  pure (.forTo counter start stop step body)

theorem forLoop_eq (e : Parser Expr) (b : List Keyword → Parser (List Stmt)) :
    forLoop e b = forHead e b >>= nextAndCounter := by
  have hbind : ∀ {α β : Type} {p : Parser α} {f g : α → Parser β}, (∀ a, f a = g a) →
      p >>= f = p >>= g := fun h => congrArg _ (funext h)
  simp only [forLoop, forHead, bind_assoc]
  refine hbind fun _ => hbind fun counter => hbind fun _ => hbind fun start => hbind fun _ =>
    hbind fun stop => hbind fun found => ?_
  cases found <;> simp [nextAndCounter]

theorem viable_forHead (he : Deeper e e') (hb : Blocks b b') :
    Viable n (AfterBlock [.NEXT]) (Starts (.keyword .FOR)) (forHead e b) (forHead e' b') := by
  apply Viable.keyword
  apply Viable.name
  intro counter
  apply Viable.symbol
  apply he.before
  · intro start
    apply Viable.keyword
    apply (he.viable n).bind
    · intro stop
      apply Viable.accept (offers_acceptKeyword .STEP)
      · intro m _
        apply (he.viable m).bind
        · exact fun step => (hb m _).map (Stmt.forTo counter start stop step)
        · exact fun r hr => .of_clear hr.2.toClear
      · exact (hb n _).map (Stmt.forTo counter start stop (.literal (.number 1.0)))
      · exact fun r hr => hr.lacks (by simp)
    · exact fun r hr => .of_clear hr.2.toClear
  · exact ⟨rfl, rfl⟩

theorem viable_forLoop (he : Deeper e e') (hb : Blocks b b') :
    Viable n AfterStmt (Starts (.keyword .FOR)) (forLoop e b) (forLoop e' b') := by
  rw [forLoop_eq, forLoop_eq]
  exact (viable_forHead he hb).bind viable_nextAndCounter fun r hr => hr.afterBlock (by simp) rfl

theorem viable_clause {i i' : Parser Stmt} (he : Deeper e e')
    (hi : Viable n AfterStmt (Starts (.keyword .INPUT)) i i') :
    Viable n AfterStmt (Starts (.keyword .TRUE)) (clause e i) (clause e' i') :=
  he.before (fun value => .symbol (hi.map fun s => (value, s))) ⟨rfl, rfl⟩

theorem viable_selection {i i' : Parser Stmt} (he : Deeper e e') (hb : Blocks b b')
    (hi : Viable n AfterStmt (Starts (.keyword .INPUT)) i i') (hc : Shortens (clause e i))
    (hc' : Shortens (clause e' i')) :
    Viable (n + 1) F (Starts (.keyword .CASE)) (selection e b i) (selection e' b' i') := by
  apply Viable.take_succ (takes_keyword .CASE)
  intro _
  apply Viable.keyword
  apply Viable.name
  intro subject
  apply ((viable_clause he hi).manyWhile hc hc' rfl isOpen_congr).bind
  · exact fun clauses => hb.alternative .OTHERWISE .ENDCASE nofun rfl (.caseOf subject clauses)
  · exact fun r hr => hr.afterBlock (by simp) rfl

/-- The statement that a keyword begins. -/
def keywordStatement (e : Parser Expr) (b : List Keyword → Parser (List Stmt)) (i : Parser Stmt) :
    Keyword → Parser Stmt
  | .DECLARE => declaration e
  | .CONSTANT => constant e
  | .OUTPUT => output e
  | .INPUT => do
    keyword .INPUT
    return .input (← name)
  | .IF => conditional e b
  | .WHILE => whileLoop e b
  | .REPEAT => repeatLoop e b
  | .FOR => forLoop e b
  | .CASE => selection e b i
  | .CALL => do
    keyword .CALL
    let s ← name
    invocationRest e s
  | .RETURN => do
    keyword .RETURN
    return .giveBack (← e)
  | k => stuck (.unexpectedKeyword k)

theorem statementWith_keyword {i : Parser Stmt} {t : Located} {k : Keyword}
    (ht : t.token = .keyword k)
    (us : List Located) : statementWith e b i (t :: us) = keywordStatement e b i k (t :: us) := by
  obtain ⟨token, start, stop⟩ := t
  subst ht
  cases k <;> rfl

theorem statementWith_name {i : Parser Stmt} {t : Located} {s : String} (ht : t.token = .name s)
    (us : List Located) : statementWith e b i (t :: us) = afterName e s us := by
  rw [← namedStatement_cons ht]
  obtain ⟨token, start, stop⟩ := t
  subst ht
  rfl

section Dispatch

variable {i i' : Parser Stmt} (he : Deeper e e') (hb : Blocks b b')
  (hi : Viable n AfterStmt (Starts (.keyword .INPUT)) i i') (hc : Shortens (clause e i))
  (hc' : Shortens (clause e' i'))

include he hb hi hc hc'

/-- Only the statements of clauses have to be viable for this, and only on shorter lists. -/
theorem viableAt_keywordStatement (k : Keyword) {ts : List Located} (hts : ts.length ≤ n + 1) :
    ViableAt AfterStmt (Starts (.keyword k)) (keywordStatement e b i k)
    (keywordStatement e' b' i' k) ts := by
  cases k with
  | DECLARE => exact (viable_declaration he).viableAt ts hts
  | CONSTANT => exact (viable_constant he).viableAt ts hts
  | OUTPUT => exact (viable_output he).viableAt ts hts
  | INPUT => exact viable_input.viableAt ts hts
  | IF => exact (viable_conditional he hb).viableAt ts hts
  | WHILE => exact (viable_whileLoop he hb).viableAt ts hts
  | REPEAT => exact (viable_repeatLoop he hb).viableAt ts hts
  | FOR => exact (viable_forLoop he hb).viableAt ts hts
  | CASE => exact (viable_selection he hb hi hc hc').viableAt ts hts
  | CALL => exact (Viable.keyword (.name fun s => viable_invocationRest he s)).viableAt ts hts
  | RETURN => exact (Viable.keyword (he.last .giveBack)).viableAt ts hts
  | _ => exact .refused fun _ _ => rfl

theorem viableAt_statementWith (hs : Shortens (statementWith e b i)) {ts : List Located}
    (hts : ts.length ≤ n + 1) {B : Follow} :
    ViableAt AfterStmt B (statementWith e b i) (statementWith e' b' i') ts := by
  rcases ts with - | ⟨t, us⟩
  · exact .refused_nil rfl
  · cases htoken : t.token with
    | keyword k =>
      have hstarts : Starts (.keyword k) (t :: us) := congrArg some htoken
      exact ((viableAt_keywordStatement he hb hi hc hc' k hts).of_starts hstarts
        (fun us ht => statementWith_keyword ht us) fun us ht =>
        statementWith_keyword ht us).of_shortens hs
    | name s =>
      exact .cons (viable_afterName he s) (Nat.le_refl _) (statementWith_name htoken)
        (statementWith_name htoken)
    | number x real =>
      obtain ⟨token, start, stop⟩ := t
      subst htoken
      exact .refused_cons fun _ => rfl
    | text s =>
      obtain ⟨token, start, stop⟩ := t
      subst htoken
      exact .refused_cons fun _ => rfl
    | symbol s =>
      obtain ⟨token, start, stop⟩ := t
      subst htoken
      exact .refused_cons fun _ => rfl

end Dispatch

variable {limit limit' : Nat}

theorem finishes_statement (d : Nat) :
    Finishes AfterStmt (Starts (.keyword .INPUT)) (statement limit d) := by
  refine ⟨[anywhere (.keyword .INPUT), anywhere (.name "x")], .input "x", fun tail _ => ⟨rfl, ?_⟩⟩
  rw [statement_eq]
  rfl

theorem shortens_block_clause (d : Nat) :
    Shortens (clause (expression limit d) (statement limit d)) :=
  shortens_clause limit (sound_statement limit d)

/-- Statements are viable if the blocks in them are. -/
theorem viable_statement_of_blocks {d d' : Nat} (hd : d < d')
    (hb : Blocks (block limit d) (block limit' d')) :
    Viable n AfterStmt (Starts (.keyword .INPUT)) (statement limit d) (statement limit' d') := by
  have heq : ∀ limit d, statement limit d =
      statementWith (expression limit d) (block limit d) (statement limit d) :=
    fun limit d => funext (statement_eq limit d)
  induction n with
  | zero =>
    refine ⟨fun ts hts => ?_, finishes_statement d'⟩
    obtain rfl := List.length_eq_zero_iff.mp (Nat.le_zero.mp hts)
    exact .refused_nil (by rw [statement_eq]; rfl)
  | succ n ih =>
    refine ⟨fun ts hts => ?_, finishes_statement d'⟩
    have hs := shortens_statement limit d
    have := viableAt_statementWith (deeper_expression hd) hb ih (shortens_block_clause d)
      (shortens_block_clause d') (heq limit d ▸ hs) hts (B := Starts (.keyword .INPUT))
    rwa [← heq, ← heq] at this

theorem blocks_block {d d' : Nat} (h : d < d') : Blocks (block limit d) (block limit' d') := by
  induction d generalizing d' with
  | zero =>
    obtain ⟨k, rfl⟩ := Nat.exists_eq_add_one_of_ne_zero (Nat.ne_zero_of_lt h)
    exact fun n closers => .stuck (.manyWhile (shortens_statement limit' k) rfl)
  | succ d ih =>
    obtain ⟨k, rfl⟩ := Nat.exists_eq_add_one_of_ne_zero (Nat.ne_zero_of_lt h)
    have hd : d < k := Nat.lt_of_succ_lt_succ h
    exact fun n closers => (viable_statement_of_blocks hd (ih hd)).manyWhile
      (shortens_statement limit d) (shortens_statement limit' k) rfl isOpen_congr

theorem viable_statement {d d' : Nat} (h : d < d') :
    Viable n AfterStmt (Starts (.keyword .INPUT)) (statement limit d) (statement limit' d') :=
  viable_statement_of_blocks h (blocks_block h)

end Statements

end Chalkboard.Parser
