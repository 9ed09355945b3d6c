import Chalkboard.Proofs.ExpressionReading
import Chalkboard.Proofs.Writing

/-! # Reading written statements

The tokens of an expression are derived in the grammar, so that they are read as that expression
wherever it is over. Statements are not separated by anything: what follows a statement is a
statement, a closing word or the value of a clause, and none of these goes on with it, if no value
but the first begins with `-` or `(`.
-/

namespace Chalkboard

open Chalkboard.Parser Chalkboard.Grammar

section Expressions

theorem BinaryOp.operator_token (op : BinaryOp) : Operator op.level op.token op := by
  cases op <;> constructor

theorem UnaryOp.sign_token (op : UnaryOp) : Sign op.token op := by
  cases op <;> constructor

theorem Expr.rung_le (e : Expr) : 1 ≤ e.rung ∧ e.rung ≤ 7 := by
  cases e with
  | binary op a b => cases op <;> simp [Expr.rung, BinaryOp.level]
  | _ => simp [Expr.rung]

/-- An expression takes a level for itself. -/
theorem expression_of_rung {d : Nat} {us : List Located} {e : Expr}
    (h : ∀ {d}, e.nesting ≤ d → Rung d e.rung us e) (hd : e.levels ≤ d) : Expression d us e := by
  cases d with
  | zero => cases hd
  | succ d => exact .mk (rung_of_le (h (Nat.le_of_succ_le_succ hd)) e.rung_le.1 e.rung_le.2)

/-- In parentheses, if it needs them, an expression is an operand of every operator. -/
theorem derives_enclose {d : Nat} {us : List Located} {e : Expr}
    (h : ∀ {d vs}, vs.map Located.token = e.tokens → e.nesting ≤ d → Rung d e.rung vs e)
    (hus : us.map Located.token = e.enclose e.tokens) (hd : e.encloseLevels e.nesting ≤ d) :
    Rung d 7 us e := by
  unfold Expr.enclose at hus
  unfold Expr.encloseLevels at hd
  split at hus
  · rename_i hrung
    simp only [List.map_eq_cons_iff, List.map_eq_append_iff, List.map_eq_nil_iff] at hus
    obtain ⟨l, _, rfl, hl, ts, _, rfl, hts, r, _, rfl, hr, rfl⟩ := hus
    rw [if_pos hrung] at hd
    exact .parens hl (expression_of_rung (h hts) hd) hr
  · rename_i hrung
    have heq : e.rung = 7 := by
      have := e.rung_le.2
      omega
    rw [if_neg hrung] at hd
    rw [← heq]
    exact h hus hd

theorem derives_arguments {d : Nat} {ts : List Located} {l r : Located} {args : List Expr}
    (hl : l.token = .symbol .leftParen) (hr : r.token = .symbol .rightParen)
    (hts : ts.map Located.token = commas (Expr.words args))
    (h : args ≠ [] → Expressions d ts args) : Arguments d (l :: ts ++ [r]) args := by
  by_cases hargs : args = []
  · subst hargs
    obtain rfl := List.map_eq_nil_iff.mp hts
    exact .none hl hr
  · exact .some hl (h hargs) hr

mutual

theorem derives_tokens {d : Nat} {us : List Located} : ∀ e : Expr, e.isWritable = true →
    us.map Located.token = e.tokens → e.nesting ≤ d → Rung d e.rung us e
  | .literal v, hw, hus, _ => by
    cases v with
    | null => cases hw
    | bool b =>
      cases b with
      | true =>
        obtain ⟨t, rfl, ht⟩ := List.map_eq_singleton_iff.mp hus
        exact .yes ht
      | false =>
        obtain ⟨t, rfl, ht⟩ := List.map_eq_singleton_iff.mp hus
        exact .no ht
    | number x =>
      obtain ⟨t, rfl, ht⟩ := List.map_eq_singleton_iff.mp hus
      exact .number ht
    | text s =>
      obtain ⟨t, rfl, ht⟩ := List.map_eq_singleton_iff.mp hus
      exact .text ht
  | .var s none, _, hus, _ => by
    obtain ⟨t, rfl, ht⟩ := List.map_eq_singleton_iff.mp hus
    exact .var ht
  | .var s (some field), _, hus, _ => by
    simp only [Expr.tokens, List.map_eq_cons_iff, List.map_eq_nil_iff] at hus
    obtain ⟨t, _, rfl, ht, dot, _, rfl, hdot, f, _, rfl, hf, rfl⟩ := hus
    exact .field ht hdot hf
  | .element s index, hw, hus, hd => by
    simp only [Expr.tokens, List.map_eq_cons_iff, List.map_eq_append_iff,
      List.map_eq_nil_iff] at hus
    obtain ⟨t, _, rfl, ht, l, _, rfl, hl, ts, _, rfl, hts, r, _, rfl, hr, rfl⟩ := hus
    exact .element ht hl (expression_of_rung (derives_tokens index hw hts) hd) hr
  | .call s args, hw, hus, hd => by
    simp only [Expr.tokens, List.map_eq_cons_iff, List.map_eq_append_iff,
      List.map_eq_nil_iff] at hus
    obtain ⟨t, _, rfl, ht, l, _, rfl, hl, ts, _, rfl, hts, r, _, rfl, hr, rfl⟩ := hus
    exact .call ht (derives_arguments hl hr hts fun hargs => derives_words args hw hargs hts hd)
  | .binary op a b, hw, hus, hd => by
    simp only [Expr.tokens, List.map_eq_cons_iff, List.map_eq_append_iff] at hus
    obtain ⟨ts, _, rfl, hts, t, vs, rfl, ht, hvs⟩ := hus
    simp only [Expr.isWritable, Bool.and_eq_true] at hw
    have hdab : _ ≤ d ∧ _ ≤ d := Nat.max_le.mp hd
    have ha := derives_enclose (derives_tokens a hw.1) hts hdab.1
    have hb := derives_enclose (derives_tokens b hw.2) hvs hdab.2
    have hle : op.level + 1 ≤ 7 := Nat.le_succ_of_le (Nat.succ_le_succ op.level_le)
    exact .binary (rung_of_le ha (Nat.le_of_succ_le hle) (Nat.le_refl 7)) (ht ▸ op.operator_token)
      (rung_of_le hb hle (Nat.le_refl 7))
  | .unary op e, hw, hus, hd => by
    simp only [Expr.tokens, List.map_eq_cons_iff] at hus
    obtain ⟨t, ts, rfl, ht, hts⟩ := hus
    cases d with
    | zero => cases hd
    | succ d =>
      have he := derives_enclose (derives_tokens e hw) hts (Nat.le_of_succ_le_succ hd)
      exact .unary (ht ▸ op.sign_token) (rung_of_le he (by decide) (Nat.le_refl 7))

theorem derives_words {d : Nat} {us : List Located} : ∀ es : List Expr, Expr.areWritable es = true →
    es ≠ [] → us.map Located.token = commas (Expr.words es) → Expr.listLevels es ≤ d →
    Expressions d us es
  | [], _, hne, _, _ => absurd rfl hne
  | [e], hw, _, hus, hd => by
    simp only [Expr.areWritable, Bool.and_true] at hw
    exact .one (expression_of_rung (derives_tokens e hw hus) (Nat.max_le.mp hd).1)
  | e :: e' :: es, hw, _, hus, hd => by
    obtain ⟨hwe, hwes⟩ := Bool.and_eq_true_iff.mp hw
    obtain ⟨hde, hdes⟩ : e.levels ≤ d ∧ Expr.listLevels (e' :: es) ≤ d := Nat.max_le.mp hd
    simp only [Expr.words, commas, List.map_eq_cons_iff, List.map_eq_append_iff] at hus
    obtain ⟨ts, _, rfl, hts, comma, vs, rfl, hcomma, hvs⟩ := hus
    exact .more (expression_of_rung (derives_tokens e hwe hts) hde) hcomma
      (derives_words (e' :: es) hwes (by simp) hvs hdes)

end

theorem derives_expression {d : Nat} {us : List Located} {e : Expr} (hw : e.isWritable = true)
    (hus : us.map Located.token = e.tokens) (hd : e.levels ≤ d) : Expression d us e :=
  expression_of_rung (derives_tokens e hw hus) hd

end Expressions

/-! ## Where one statement ends and the next begins -/

section Boundaries

variable {ts us rest : List Located} {t : Located}

/-- Nothing before these tokens goes on with them. -/
structure Clear (rest : List Located) : Prop where
  operator : operatorAt? rest = none
  name : extendsName rest = false
  comma : startsWithSymbol .comma rest = false

theorem Clear.ends (h : Clear rest) : Ends us rest :=
  ⟨h.operator, fun _ => h.name⟩

theorem Clear.nil : Clear [] :=
  ⟨rfl, rfl, rfl⟩

def Token.beginsExpr : Token → Bool
  | .number _ _ | .text _ | .name _ | .keyword .TRUE | .keyword .FALSE | .keyword .NOT
  | .symbol .minus | .symbol .leftParen => true
  | _ => false

def Token.beginsStmt : Token → Bool
  | .name _ | .keyword .DECLARE | .keyword .CONSTANT | .keyword .OUTPUT | .keyword .INPUT
  | .keyword .IF | .keyword .WHILE | .keyword .REPEAT | .keyword .FOR | .keyword .CASE
  | .keyword .CALL | .keyword .RETURN => true
  | _ => false

/-- Symbols and operators may belong to what is before them; nothing else does. -/
def Token.isClear : Token → Bool
  | .keyword .OR | .keyword .AND | .keyword .DIV | .keyword .MOD | .symbol _ => false
  | _ => true

theorem clear_cons (ht : t.token.isClear = true) : Clear (t :: ts) := by
  obtain ⟨token, start, stop⟩ := t
  cases token with
  | symbol s => cases ht
  | keyword k =>
    refine ⟨?_, rfl, rfl⟩
    cases k with
    | OR | AND | DIV | MOD => cases ht
    | _ => rfl
  | _ => exact ⟨rfl, rfl, rfl⟩

theorem clear_keyword {k : Keyword} (ht : t.token = .keyword k)
    (hk : Token.isClear (.keyword k) = true) : Clear (t :: ts) :=
  clear_cons (ht ▸ hk)

theorem isClear_of_beginsStmt {token : Token} (h : token.beginsStmt = true) :
    token.isClear = true := by
  unfold Token.beginsStmt at h
  split at h <;> simp_all [Token.isClear]

theorem isClear_of_beginsExpr {token : Token} (h : token.beginsExpr = true)
    (hminus : token ≠ .symbol .minus) (hparen : token ≠ .symbol .leftParen) :
    token.isClear = true := by
  unfold Token.beginsExpr at h
  split at h <;> simp_all [Token.isClear]

theorem Expr.head_tokens : ∀ e : Expr, e.isWritable = true →
    ∃ t ts, e.tokens = t :: ts ∧ t.beginsExpr = true
  | .literal v, hw => by
    cases v with
    | null => cases hw
    | bool b => cases b <;> exact ⟨_, _, rfl, rfl⟩
    | _ => exact ⟨_, _, rfl, rfl⟩
  | .var s none, _ => ⟨_, _, rfl, rfl⟩
  | .var s (some field), _ => ⟨_, _, rfl, rfl⟩
  | .element s index, _ => ⟨_, _, rfl, rfl⟩
  | .call s args, _ => ⟨_, _, rfl, rfl⟩
  | .binary op a b, hw => by
    simp only [Expr.isWritable, Bool.and_eq_true] at hw
    obtain ⟨t, ts, hts, ht⟩ := Expr.head_tokens a hw.1
    unfold Expr.tokens Expr.enclose
    split
    · exact ⟨_, _, rfl, rfl⟩
    · rw [hts]
      exact ⟨t, _, rfl, ht⟩
  | .unary op e, _ => by cases op <;> exact ⟨_, _, rfl, rfl⟩

theorem Stmt.head_tokens (s : Stmt) : ∃ t ts, s.tokens = t :: ts ∧ t.beginsStmt = true := by
  cases s with
  | assign s field e => cases field <;> exact ⟨_, _, rfl, rfl⟩
  | _ => exact ⟨_, _, rfl, rfl⟩

/-- A list goes on where one of its items begins. -/
theorem isOpen_of_begins {begins : Token → Bool} {closers : List Keyword}
    (ht : begins t.token = true) (hclosers : ∀ k ∈ closers, begins (.keyword k) = false) :
    isOpen closers (t :: ts) = true := by
  have hnone : ∀ k ∈ closers, startsWithKeyword k (t :: ts) ≠ true := by
    intro k hk hstarts
    obtain ⟨u, us, heq, hu⟩ := startsWithKeyword_iff.mp hstarts
    cases heq
    rw [hu, hclosers k hk] at ht
    cases ht
  simpa [isOpen] using hnone

theorem isOpen_of_closer {closers : List Keyword} {k : Keyword} (ht : t.token = .keyword k)
    (hk : k ∈ closers) : isOpen closers (t :: ts) = false := by
  have hstarts : startsWithKeyword k (t :: ts) = true := startsWithKeyword_iff.mpr ⟨t, ts, rfl, ht⟩
  simp only [isOpen, List.isEmpty_cons, Bool.not_false, Bool.true_and, Bool.not_eq_false',
    List.any_eq_true]
  exact ⟨k, hk, hstarts⟩

end Boundaries

/-! ## Statements -/

section Repetitions

variable {α : Type} {goesOn : List Located → Bool} {p : Parser α} {ts us rest : List Located}
  {a : α} {as : List α}

/-- The parser reads items as long as the tokens go on. -/
inductive ReadsMany (goesOn : List Located → Bool) (p : Parser α) :
    List Located → List α → List Located → Prop where
  | stop {rest : List Located} : goesOn rest = false → ReadsMany goesOn p rest [] rest
  | more {ts us rest : List Located} {a : α} {as : List α} : goesOn ts = true → p ts = .ok (a, us) →
      us.length < ts.length → ReadsMany goesOn p us as rest → ReadsMany goesOn p ts (a :: as) rest

theorem repeatWhile_of_readsMany (h : ReadsMany goesOn p ts as rest) {bound : List Located}
    (hbound : ts.length ≤ bound.length) : repeatWhile goesOn p bound ts = .ok (as, rest) := by
  induction h generalizing bound with
  | stop hstop =>
    cases bound with
    | nil => rfl
    | cons b bound =>
      change (if goesOn _ then _ else pure [] : Parser (List α)) _ = _
      rw [hstop]
      rfl
  | @more ts us rest a as hgo hp hlt _ ih =>
    cases bound with
    | nil => exact absurd (Nat.lt_of_lt_of_le hlt hbound) (Nat.not_lt_zero _)
    | cons b bound =>
      change (if goesOn ts then (do
        let a ← p
        let as ← repeatWhile goesOn p bound
        pure (a :: as)) else pure [] : Parser (List α)) ts = _
      rw [List.length_cons] at hbound
      rw [hgo, if_pos rfl, bind_of_ok hp, bind_of_ok (ih (by omega))]
      rfl

theorem manyWhile_of_readsMany (h : ReadsMany goesOn p ts as rest) :
    manyWhile goesOn p ts = .ok (as, rest) :=
  repeatWhile_of_readsMany h (Nat.le_refl _)

end Repetitions

/-- Wherever `NEXT` stands, the token after it is on the same line. -/
def NextInLine (ts : List Located) : Prop :=
  ∀ t u, [t, u] <:+: ts → t.token = .keyword .NEXT → u.line = t.line

theorem NextInLine.part {ts us : List Located} (h : NextInLine ts) (before after : List Located)
    (hts : before ++ us ++ after = ts) : NextInLine us :=
  fun t u htu => h t u (htu.trans ⟨before, after, hts⟩)

section Lists

variable {ts us rest : List Located} {t : Located}

theorem typeName_bind {β : Type} {type : String} (ht : t.token = typeToken type)
    (f : String → Parser β) : (typeName >>= f) (t :: ts) = f type ts := by
  obtain ⟨token, start, stop⟩ := t
  have htoken : token = typeToken type := ht
  subst htoken
  unfold typeToken
  cases hfind : typeKeywords.find? fun k => k.text == type with
  | none => rfl
  | some k =>
    obtain rfl : k.text = type := by simpa using List.find?_some hfind
    have hmem := List.mem_of_find?_eq_some hfind
    refine bind_of_ok (?_ : typeName (⟨.keyword k, start, stop⟩ :: ts) = .ok (k.text, ts))
    simp [typeName, hmem]

theorem startsWithKeyword_typeToken {type : String} (ht : t.token = typeToken type) :
    startsWithKeyword .ARRAY (t :: ts) = false := by
  refine Bool.eq_false_iff.mpr fun hstarts => ?_
  obtain ⟨_, _, heq, hu⟩ := startsWithKeyword_iff.mp hstarts
  cases heq
  rw [ht] at hu
  unfold typeToken at hu
  split at hu
  · rename_i k hfind
    cases hu
    exact absurd (List.mem_of_find?_eq_some hfind) (by decide)
  · cases hu

/-- Items that end by themselves are read as a list up to where no comma follows. -/
theorem readsList_of_words {α : Type} {p : Parser α} {word : α → List Token}
    (hp : ∀ a us rest, us.map Located.token = word a → p (us ++ rest) = .ok (a, rest)) {as : List α}
    (hne : as ≠ []) (hus : us.map Located.token = commas (as.map word))
    (hrest : startsWithSymbol .comma rest = false) : ReadsList p (us ++ rest) as rest := by
  induction as generalizing us with
  | nil => exact absurd rfl hne
  | cons a as ih =>
    cases as with
    | nil => exact .one (hp a us rest hus) (by simp) hrest
    | cons b as =>
      simp only [List.map_cons, commas, List.map_eq_append_iff, List.map_eq_cons_iff] at hus
      obtain ⟨vs, _, rfl, hvs, comma, ws, rfl, hcomma, hws⟩ := hus
      rw [List.append_assoc, List.cons_append]
      exact .more (hp a vs _ hvs) (by simp) hcomma (ih (by simp) (by simpa using hws))

theorem reads_names {names : List String} (hne : names ≠ [])
    (hus : us.map Located.token = nameTokens names) (hrest : startsWithSymbol .comma rest = false) :
    commaList name (us ++ rest) = .ok (names, rest) := by
  refine commaList_of_readsList (readsList_of_words (fun s us rest hus => ?_) hne hus hrest)
  obtain ⟨⟨token, start, stop⟩, rfl, rfl⟩ := List.map_eq_singleton_iff.mp hus
  rfl

end Lists

section Statements

variable (limit : Nat) {d : Nat}

theorem reads_tokens {us rest : List Located} {e : Expr} (hw : e.isWritable = true)
    (hd : e.levels ≤ d) (hus : us.map Located.token = e.tokens) (hrest : Ends us rest) :
    expression limit d (us ++ rest) = .ok (e, rest) :=
  reads_expression (derives_expression hw hus hd) hrest

/-- The statement parser reads the tokens of `s` as `s`. -/
def ReadsStmt (d : Nat) (s : Stmt) : Prop :=
  ∀ us rest bound, us.map Located.token = s.tokens → NextInLine us → Clear rest →
    (us ++ rest).length ≤ bound.length + 1 →
    statementWith (expression limit d) (block limit d)
      (statementUpTo (expression limit d) (block limit d) bound) (us ++ rest) = .ok (s, rest)

/-- The words that close a block. -/
def closingWords : List Keyword :=
  [.ELSE, .ENDIF, .ENDWHILE, .UNTIL, .NEXT, .ENDCASE, .ENDPROCEDURE, .ENDFUNCTION]

/-- The block parser reads the tokens of `stmts` as `stmts`, up to a closing word. -/
def ReadsBlock (d : Nat) (stmts : List Stmt) : Prop :=
  ∀ us rest t k closers, us.map Located.token = Stmt.listTokens stmts → NextInLine us →
    t.token = .keyword k → k ∈ closers → (∀ k ∈ closers, k ∈ closingWords) →
    block limit d closers (us ++ t :: rest) = .ok (stmts, t :: rest)

variable {limit}

theorem reads_declare {names : List String} {type : String} (hne : names ≠ []) :
    ReadsStmt limit d (.declare names type) := by
  intro us rest bound hus _ hrest _
  simp only [Stmt.tokens, List.map_eq_cons_iff, List.map_eq_append_iff, List.map_eq_nil_iff] at hus
  obtain ⟨⟨_, start, stop⟩, _, rfl, rfl, ts, _, rfl, hts, colon, _, rfl, hcolon, u, _,
    rfl, hu, rfl⟩ :=
    hus
  simp only [List.cons_append, List.append_assoc, List.nil_append]
  change declaration (expression limit d)
    (⟨.keyword .DECLARE, start, stop⟩ :: (ts ++ colon :: u :: rest)) = _
  unfold declaration
  rw [keyword_bind rfl, bind_of_ok (reads_names hne hts (startsWithSymbol_of_token hcolon _)),
    symbol_bind hcolon, acceptKeyword_bind_of_not (startsWithKeyword_typeToken hu)]
  exact typeName_bind hu _

theorem reads_declareArray {names : List String} {lower upper : Expr} {type : String}
    (hne : names ≠ []) (hlower : lower.isWritable = true) (hupper : upper.isWritable = true)
    (hdlower : lower.levels ≤ d) (hdupper : upper.levels ≤ d) :
    ReadsStmt limit d (.declareArray names lower upper type) := by
  intro us rest bound hus _ hrest _
  simp only [Stmt.tokens, List.map_eq_cons_iff, List.map_eq_append_iff, List.map_eq_nil_iff] at hus
  obtain ⟨⟨_, start, stop⟩, _, rfl, rfl, ts, _, rfl, hts, colon, _, rfl, hcolon, array, _, rfl,
    harray, l, _, rfl, hl, us, _, rfl, hus, between, _, rfl, hto, vs, _, rfl, hvs, r, _, rfl, hr,
    of_, _, rfl, hof, u, _, rfl, hu, rfl⟩ := hus
  simp only [List.cons_append, List.append_assoc, List.nil_append]
  change declaration (expression limit d) (⟨.keyword .DECLARE, start, stop⟩ ::
    (ts ++ colon :: array :: l :: (us ++ between :: (vs ++ r :: of_ :: u :: rest)))) = _
  unfold declaration
  rw [keyword_bind rfl, bind_of_ok (reads_names hne hts (startsWithSymbol_of_token hcolon _)),
    symbol_bind hcolon, acceptKeyword_bind harray]
  change (do
    symbol .leftBracket
    let lower ← expression limit d
    symbol .colon
    let upper ← expression limit d
    symbol .rightBracket
    keyword .OF
    return .declareArray names lower upper (← typeName) : Parser Stmt) _ = _
  rw [symbol_bind hl,
    bind_of_ok (reads_tokens limit hlower hdlower hus (ends_of_symbol hto (by simp))),
    symbol_bind hto,
    bind_of_ok (reads_tokens limit hupper hdupper hvs (ends_of_symbol hr (by simp))),
    symbol_bind hr, keyword_bind hof]
  exact typeName_bind hu _

theorem reads_constant {s : String} {e : Expr} (hw : e.isWritable = true) (hd : e.levels ≤ d) :
    ReadsStmt limit d (.constant s e) := by
  intro us rest bound hus _ hrest _
  simp only [Stmt.tokens, List.map_eq_cons_iff] at hus
  obtain ⟨⟨_, start, stop⟩, _, rfl, rfl, u, _, rfl, hu, arrow, ts, rfl, harrow, hts⟩ := hus
  change constant (expression limit d)
    (⟨.keyword .CONSTANT, start, stop⟩ :: u :: arrow :: (ts ++ rest)) = _
  unfold constant
  rw [keyword_bind rfl, name_bind hu, symbol_bind harrow,
    bind_of_ok (reads_tokens limit hw hd hts hrest.ends)]
  rfl

theorem reads_assign {s : String} {e : Expr} (hw : e.isWritable = true) (hd : e.levels ≤ d) :
    ReadsStmt limit d (.assign s none e) := by
  intro us rest bound hus _ hrest _
  simp only [Stmt.tokens, List.map_eq_cons_iff] at hus
  obtain ⟨⟨_, start, stop⟩, _, rfl, rfl, ⟨_, start', stop'⟩, ts, rfl, rfl, hts⟩ := hus
  change assignment (expression limit d)
    (⟨.name s, start, stop⟩ :: ⟨.symbol .assign, start', stop'⟩ :: (ts ++ rest)) = _
  unfold assignment
  rw [name_bind rfl, symbol_bind rfl, bind_of_ok (reads_tokens limit hw hd hts hrest.ends)]
  rfl

theorem reads_assignField {s field : String} {e : Expr} (hw : e.isWritable = true)
    (hd : e.levels ≤ d) : ReadsStmt limit d (.assign s (some field) e) := by
  intro us rest bound hus _ hrest _
  simp only [Stmt.tokens, List.map_eq_cons_iff] at hus
  obtain ⟨⟨_, start, stop⟩, _, rfl, rfl, ⟨_, start', stop'⟩, _, rfl, rfl, f, _, rfl, hf, arrow, ts,
    rfl, harrow, hts⟩ := hus
  change fieldAssignment (expression limit d)
    (⟨.name s, start, stop⟩ :: ⟨.symbol .dot, start', stop'⟩ :: f :: arrow :: (ts ++ rest)) = _
  unfold fieldAssignment
  rw [name_bind rfl, symbol_bind rfl, name_bind hf, symbol_bind harrow,
    bind_of_ok (reads_tokens limit hw hd hts hrest.ends)]
  rfl

theorem reads_assignElement {s : String} {index e : Expr} (hindex : index.isWritable = true)
    (hw : e.isWritable = true) (hdindex : index.levels ≤ d) (hd : e.levels ≤ d) :
    ReadsStmt limit d (.assignElement s index e) := by
  intro us rest bound hus _ hrest _
  simp only [Stmt.tokens, List.map_eq_cons_iff, List.map_eq_append_iff] at hus
  obtain ⟨⟨_, start, stop⟩, _, rfl, rfl, ⟨_, start', stop'⟩, _, rfl, rfl, ts, _, rfl, hts, r, _,
    rfl, hr, arrow, vs, rfl, harrow, hvs⟩ := hus
  simp only [List.cons_append, List.append_assoc]
  change elementAssignment (expression limit d) (⟨.name s, start, stop⟩ ::
    ⟨.symbol .leftBracket, start', stop'⟩ :: (ts ++ r :: arrow :: (vs ++ rest))) = _
  unfold elementAssignment
  rw [name_bind rfl, symbol_bind rfl,
    bind_of_ok (reads_tokens limit hindex hdindex hts (ends_of_symbol hr (by simp))),
    symbol_bind hr, symbol_bind harrow, bind_of_ok (reads_tokens limit hw hd hvs hrest.ends)]
  rfl

theorem reads_output {es : List Expr} (hne : es ≠ []) (hw : Expr.areWritable es = true)
    (hd : Expr.listLevels es ≤ d) : ReadsStmt limit d (.output es) := by
  intro us rest bound hus _ hrest _
  simp only [Stmt.tokens, List.map_eq_cons_iff] at hus
  obtain ⟨⟨_, start, stop⟩, ts, rfl, rfl, hts⟩ := hus
  have hlist : ReadsList (expression limit d) (ts ++ rest) es rest :=
    reads_expressions (derives_words es hw hne hts hd) hrest.ends hrest.comma
  change output (expression limit d) (⟨.keyword .OUTPUT, start, stop⟩ :: (ts ++ rest)) = _
  unfold output
  rw [keyword_bind rfl, bind_of_ok (commaList_of_readsList hlist)]
  rfl

theorem reads_input {s : String} : ReadsStmt limit d (.input s) := by
  intro us rest bound hus _ _ _
  simp only [Stmt.tokens, List.map_eq_cons_iff, List.map_eq_nil_iff] at hus
  obtain ⟨⟨_, start, stop⟩, _, rfl, rfl, ⟨_, start', stop'⟩, _, rfl, rfl, rfl⟩ := hus
  rfl

theorem reads_call {s : String} {args : List Expr} (hw : Expr.areWritable args = true)
    (hd : Expr.listLevels args ≤ d) : ReadsStmt limit d (.call s args) := by
  intro us rest bound hus _ _ _
  simp only [Stmt.tokens, List.map_eq_cons_iff, List.map_eq_append_iff, List.map_eq_nil_iff] at hus
  obtain ⟨⟨_, start, stop⟩, _, rfl, rfl, u, _, rfl, hu, l, _, rfl, hl, ts, _, rfl, hts, r, _, rfl,
    hr, rfl⟩ := hus
  have hargs : arguments (expression limit d) (l :: ts ++ [r] ++ rest) = .ok (args, rest) :=
    reads_arguments (derives_arguments hl hr hts fun hargs => derives_words args hw hargs hts hd)
  simp only [List.cons_append, List.append_assoc, List.nil_append] at hargs ⊢
  change invocation (expression limit d) (u :: l :: (ts ++ r :: rest)) = _
  unfold invocation
  rw [name_bind hu, atSymbol_bind, startsWithSymbol_of_token hl]
  change (arguments _ >>= fun args => pure (Stmt.call s args)) _ = _
  rw [bind_of_ok hargs]
  rfl

theorem reads_giveBack {e : Expr} (hw : e.isWritable = true) (hd : e.levels ≤ d) :
    ReadsStmt limit d (.giveBack e) := by
  intro us rest bound hus _ hrest _
  simp only [Stmt.tokens, List.map_eq_cons_iff] at hus
  obtain ⟨⟨_, start, stop⟩, ts, rfl, rfl, hts⟩ := hus
  change (expression limit d >>= fun e => pure (Stmt.giveBack e)) (ts ++ rest) = _
  rw [bind_of_ok (reads_tokens limit hw hd hts hrest.ends)]
  rfl

theorem closingWords_separate : ∀ k ∈ closingWords,
    Token.isClear (.keyword k) = true ∧ Token.beginsStmt (.keyword k) = false := by
  decide

theorem clear_closingWord {t : Located} {rest : List Located} {k : Keyword}
    (ht : t.token = .keyword k) (hk : k ∈ closingWords) : Clear (t :: rest) :=
  clear_keyword ht (closingWords_separate k hk).1

theorem clear_listTokens {us rest : List Located} {stmts : List Stmt}
    (hus : us.map Located.token = Stmt.listTokens stmts) (hrest : Clear rest) :
    Clear (us ++ rest) := by
  cases stmts with
  | nil =>
    obtain rfl := List.map_eq_nil_iff.mp hus
    exact hrest
  | cons s stmts =>
    obtain ⟨token, tokens, hs, hbegins⟩ := s.head_tokens
    rw [Stmt.listTokens, hs, List.cons_append, List.map_eq_cons_iff] at hus
    obtain ⟨t, vs, rfl, rfl, -⟩ := hus
    exact clear_cons (isClear_of_beginsStmt hbegins)

theorem statementUpTo_of_reads {s : Stmt} (h : ReadsStmt limit d s) {us rest bound : List Located}
    (hus : us.map Located.token = s.tokens) (hline : NextInLine us) (hrest : Clear rest)
    (hbound : (us ++ rest).length ≤ bound.length) :
    statementUpTo (expression limit d) (block limit d) bound (us ++ rest) = .ok (s, rest) := by
  cases bound with
  | nil =>
    obtain ⟨token, tokens, hs, -⟩ := s.head_tokens
    obtain ⟨rfl, rfl⟩ :=
      List.append_eq_nil_iff.mp (List.length_eq_zero_iff.mp (Nat.le_zero.mp hbound))
    rw [hs] at hus
    cases hus
  | cons b bound => exact h us rest bound hus hline hrest hbound

theorem statement_of_reads {s : Stmt} (h : ReadsStmt limit d s) {us rest : List Located}
    (hus : us.map Located.token = s.tokens) (hline : NextInLine us) (hrest : Clear rest) :
    statement limit d (us ++ rest) = .ok (s, rest) := by
  have hstatement : statement limit d (us ++ rest) =
      statementUpTo (expression limit d) (block limit d) (us ++ rest) (us ++ rest) := by
    cases d <;> rfl
  rw [hstatement]
  exact statementUpTo_of_reads h hus hline hrest (Nat.le_refl _)

theorem reads_block {stmts : List Stmt} (h : ∀ s ∈ stmts, ReadsStmt limit d s) :
    ReadsBlock limit (d + 1) stmts := by
  intro us rest t k closers hus hline ht hk hclosers
  refine manyWhile_of_readsMany ?_
  have hend : Clear (t :: rest) := clear_closingWord ht (hclosers k hk)
  induction stmts generalizing us with
  | nil =>
    obtain rfl := List.map_eq_nil_iff.mp hus
    exact .stop (isOpen_of_closer ht hk)
  | cons s stmts ih =>
    obtain ⟨token, tokens, hs, hbegins⟩ := s.head_tokens
    rw [Stmt.listTokens, List.map_eq_append_iff] at hus
    obtain ⟨vs, ws, rfl, hvs, hws⟩ := hus
    have hstmt := statement_of_reads (h s (by simp)) hvs (hline.part [] ws (by simp))
      (clear_listTokens hws hend)
    obtain ⟨u, vs', rfl, rfl, -⟩ := List.map_eq_cons_iff.mp (hvs.trans hs)
    rw [List.append_assoc]
    refine .more ?_ hstmt ?_ (ih (fun s hs => h s (by simp [hs])) ws hws ?_)
    · exact isOpen_of_begins hbegins fun k hk => (closingWords_separate k (hclosers k hk)).2
    · simp only [List.cons_append, List.length_cons, List.length_append]
      omega
    · exact hline.part (u :: vs') [] (by simp)

theorem reads_ifElse {e : Expr} {yes no : List Stmt} (hw : e.isWritable = true) (hd : e.levels ≤ d)
    (hyes : ReadsBlock limit d yes) (hno : ReadsBlock limit d no) :
    ReadsStmt limit d (.ifElse e yes no) := by
  intro us rest bound hus hline _ _
  simp only [Stmt.tokens, List.map_eq_cons_iff, List.map_eq_append_iff, List.map_eq_nil_iff] at hus
  obtain ⟨t, _, rfl, ht, ts, _, rfl, hts, u, _, rfl, hu, vs, _, rfl, hvs, v, _, rfl, hv, ws, _, rfl,
    hws, w, _, rfl, hend, rfl⟩ := hus
  simp only [List.cons_append, List.append_assoc, List.nil_append]
  have hyes' := hyes vs (ws ++ w :: rest) v .ELSE [.ELSE, .ENDIF] hvs
    (hline.part (t :: (ts ++ [u])) (v :: (ws ++ [w])) (by simp)) hv (by simp) (by decide)
  have hno' := hno ws rest w .ENDIF [.ENDIF] hws
    (hline.part (t :: (ts ++ u :: (vs ++ [v]))) [w] (by simp)) hend (by simp) (by decide)
  obtain ⟨_, start, stop⟩ := t
  cases ht
  change conditional (expression limit d) (block limit d)
    (⟨.keyword .IF, start, stop⟩ :: (ts ++ u :: (vs ++ v :: (ws ++ w :: rest)))) = _
  unfold conditional
  rw [keyword_bind rfl, bind_of_ok (reads_tokens limit hw hd hts (clear_keyword hu rfl).ends),
    keyword_bind hu, bind_of_ok hyes', acceptKeyword_bind hv]
  change (do
    let no ← block limit d [.ENDIF]
    keyword .ENDIF
    pure (.ifElse e yes no) : Parser Stmt) _ = _
  rw [bind_of_ok hno', keyword_bind hend]
  rfl

theorem reads_whileDo {e : Expr} {body : List Stmt} (hw : e.isWritable = true) (hd : e.levels ≤ d)
    (hbody : ReadsBlock limit d body) : ReadsStmt limit d (.whileDo e body) := by
  intro us rest bound hus hline _ _
  simp only [Stmt.tokens, List.map_eq_cons_iff, List.map_eq_append_iff, List.map_eq_nil_iff] at hus
  obtain ⟨t, _, rfl, ht, ts, _, rfl, hts, u, _, rfl, hu, vs, _, rfl, hvs, v, _, rfl, hv, rfl⟩ := hus
  simp only [List.cons_append, List.append_assoc, List.nil_append]
  have hbody' := hbody vs rest v .ENDWHILE [.ENDWHILE] hvs
    (hline.part (t :: (ts ++ [u])) [v] (by simp)) hv (by simp) (by decide)
  obtain ⟨_, start, stop⟩ := t
  cases ht
  change whileLoop (expression limit d) (block limit d)
    (⟨.keyword .WHILE, start, stop⟩ :: (ts ++ u :: (vs ++ v :: rest))) = _
  unfold whileLoop
  rw [keyword_bind rfl, bind_of_ok (reads_tokens limit hw hd hts (clear_keyword hu rfl).ends),
    keyword_bind hu, bind_of_ok hbody', keyword_bind hv]
  rfl

theorem reads_repeatUntil {e : Expr} {body : List Stmt} (hw : e.isWritable = true)
    (hd : e.levels ≤ d) (hbody : ReadsBlock limit d body) :
    ReadsStmt limit d (.repeatUntil body e) := by
  intro us rest bound hus hline hrest _
  simp only [Stmt.tokens, List.map_eq_cons_iff, List.map_eq_append_iff] at hus
  obtain ⟨t, _, rfl, ht, ts, _, rfl, hts, u, vs, rfl, hu, hvs⟩ := hus
  simp only [List.cons_append, List.append_assoc]
  have hbody' := hbody ts (vs ++ rest) u .UNTIL [.UNTIL] hts (hline.part [t] (u :: vs) (by simp)) hu
    (by simp) (by decide)
  obtain ⟨_, start, stop⟩ := t
  cases ht
  change repeatLoop (expression limit d) (block limit d)
    (⟨.keyword .REPEAT, start, stop⟩ :: (ts ++ u :: (vs ++ rest))) = _
  unfold repeatLoop
  rw [keyword_bind rfl, bind_of_ok hbody', keyword_bind hu,
    bind_of_ok (reads_tokens limit hw hd hvs hrest.ends)]
  rfl

theorem counterAfterNext_of_line {t : Located} {rest : List Located} {s : String} {line : Nat}
    (ht : t.token = .name s) (hline : t.line = line) :
    counterAfterNext (some line) (t :: rest) = .ok ((), rest) := by
  subst hline
  obtain ⟨_, start, stop⟩ := t
  cases ht
  change (if some start.line = some start.line then skip else pure () : Parser Unit) _ = _
  rw [if_pos rfl]
  rfl

theorem reads_forTo {s : String} {start stop step : Expr} {body : List Stmt}
    (hstart : start.isWritable = true) (hstop : stop.isWritable = true)
    (hstep : step.isWritable = true)
    (hdstart : start.levels ≤ d) (hdstop : stop.levels ≤ d) (hdstep : step.levels ≤ d)
    (hbody : ReadsBlock limit d body) : ReadsStmt limit d (.forTo s start stop step body) := by
  intro us rest bound hus hline hrest _
  simp only [Stmt.tokens, List.map_eq_cons_iff, List.map_eq_append_iff, List.map_eq_nil_iff] at hus
  obtain ⟨t, _, rfl, ht, u, _, rfl, hu, arrow, _, rfl, harrow, ts, _, rfl, hts, upto, _, rfl, hto,
    vs, _, rfl, hvs, w, _, rfl, hw, ws, _, rfl, hws, xs, _, rfl, hxs, next, _, rfl, hnext, c, _,
    rfl, hc, rfl⟩ := hus
  simp only [List.cons_append, List.append_assoc, List.nil_append]
  have hbody' := hbody xs (c :: rest) next .NEXT [.NEXT] hxs (hline.part
    (t :: u :: arrow :: (ts ++ upto :: (vs ++ w :: ws))) [next, c] (by simp)) hnext
    (by simp) (by decide)
  have hcounter : c.line = next.line := hline next c
    ⟨t :: u :: arrow :: (ts ++ upto :: (vs ++ w :: (ws ++ xs))), [], by simp⟩ hnext
  have hclear : Clear (xs ++ next :: c :: rest) := clear_listTokens hxs (clear_keyword hnext rfl)
  obtain ⟨_, from_, to_⟩ := t
  cases ht
  change forLoop (expression limit d) (block limit d) (⟨.keyword .FOR, from_, to_⟩ :: u :: arrow ::
    (ts ++ upto :: (vs ++ w :: (ws ++ (xs ++ next :: c :: rest))))) = _
  unfold forLoop
  rw [keyword_bind rfl, name_bind hu, symbol_bind harrow,
    bind_of_ok (reads_tokens limit hstart hdstart hts (clear_keyword hto rfl).ends),
    keyword_bind hto, bind_of_ok (reads_tokens limit hstop hdstop hvs (clear_keyword hw rfl).ends),
    acceptKeyword_bind hw]
  change (do
    let step ← expression limit d
    let body ← block limit d [.NEXT]
    let line ← peekLine
    keyword .NEXT
    counterAfterNext line
    pure (.forTo s start stop step body) : Parser Stmt) _ = _
  rw [bind_of_ok (reads_tokens limit hstep hdstep hws hclear.ends), bind_of_ok hbody']
  change (do
    keyword .NEXT
    counterAfterNext (some next.line)
    pure (.forTo s start stop step body) : Parser Stmt) _ = _
  rw [keyword_bind hnext, bind_of_ok (counterAfterNext_of_line hc hcounter)]
  rfl

/-- The tokens of clauses are clear if the first of them begins neither with `-` nor with `(`. -/
theorem clear_clauseTokens {us rest : List Located} {clauses : List (Expr × Stmt)}
    (hus : us.map Located.token = Stmt.clauseTokens clauses)
    (hw : ∀ c ∈ clauses, c.1.isWritable = true ∧ c.1.startsPlain = true) (hrest : Clear rest) :
    Clear (us ++ rest) := by
  cases clauses with
  | nil =>
    obtain rfl := List.map_eq_nil_iff.mp hus
    exact hrest
  | cons c clauses =>
    obtain ⟨hw, hplain⟩ := hw c (by simp)
    obtain ⟨token, tokens, hc, hbegins⟩ := c.1.head_tokens hw
    rw [Stmt.clauseTokens, hc, List.cons_append, List.map_eq_cons_iff] at hus
    obtain ⟨t, vs, rfl, rfl, -⟩ := hus
    rw [Expr.startsPlain, hc] at hplain
    refine clear_cons (isClear_of_beginsExpr hbegins ?_ ?_)
    · intro hminus
      simp [hminus] at hplain
    · intro hparen
      simp [hparen] at hplain

theorem readsMany_clauses {clauses : List (Expr × Stmt)} {us rest bound : List Located}
    {t : Located}
    (hw : ∀ c ∈ clauses, c.1.isWritable = true ∧ c.1.levels ≤ d ∧ ReadsStmt limit d c.2)
    (hplain : ∀ c ∈ clauses.tail, c.1.startsPlain = true)
    (hus : us.map Located.token = Stmt.clauseTokens clauses) (hline : NextInLine us)
    (ht : t.token = .keyword .OTHERWISE) (hbound : (us ++ t :: rest).length ≤ bound.length) :
    ReadsMany (isOpen [.OTHERWISE, .ENDCASE]) (clause (expression limit d)
      (statementUpTo (expression limit d) (block limit d) bound)) (us ++ t :: rest) clauses
      (t :: rest) := by
  induction clauses generalizing us with
  | nil =>
    obtain rfl := List.map_eq_nil_iff.mp hus
    exact .stop (isOpen_of_closer ht (by simp))
  | cons c clauses ih =>
    obtain ⟨value, stmt⟩ := c
    obtain ⟨hvalue, hlevels, hstmt⟩ := hw (value, stmt) (by simp)
    obtain ⟨token, tokens, htokens, hbegins⟩ := value.head_tokens hvalue
    simp only [Stmt.clauseTokens, List.map_eq_append_iff, List.map_eq_cons_iff] at hus
    obtain ⟨vs, _, rfl, hvs, colon, _, rfl, hcolon, ws, xs, rfl, hws, hxs⟩ := hus
    simp only [List.append_assoc, List.cons_append, List.length_append,
      List.length_cons] at hbound ⊢
    have hclear : Clear (xs ++ t :: rest) := clear_clauseTokens hxs
      (fun c hc => ⟨(hw c (by simp [hc])).1, hplain c hc⟩) (clear_keyword ht rfl)
    have hlen : (ws ++ (xs ++ t :: rest)).length ≤ bound.length := by
      simp only [List.length_append, List.length_cons]
      omega
    have hstmt' :=
      statementUpTo_of_reads hstmt hws (hline.part (vs ++ [colon]) xs (by simp)) hclear hlen
    have hread : clause (expression limit d)
      (statementUpTo (expression limit d) (block limit d) bound)
        (vs ++ colon :: (ws ++ (xs ++ t :: rest))) = .ok ((value, stmt), xs ++ t :: rest) := by
      unfold clause
      rw [bind_of_ok (reads_tokens limit hvalue hlevels hvs (ends_of_symbol hcolon (by simp))),
        symbol_bind hcolon, bind_of_ok hstmt']
      rfl
    refine .more ?_ hread ?_ (ih ?_ ?_ hxs ?_ ?_)
    · obtain ⟨u, vs', rfl, rfl, -⟩ := List.map_eq_cons_iff.mp (hvs.trans htokens)
      exact isOpen_of_begins hbegins (by decide)
    · simp only [List.length_append, List.length_cons]
      omega
    · exact fun c hc => hw c (by simp [hc])
    · exact fun c hc => hplain c (List.mem_of_mem_tail hc)
    · exact hline.part (vs ++ colon :: ws) [] (by simp)
    · simp only [List.length_append, List.length_cons]
      omega

theorem reads_caseOf {s : String} {clauses : List (Expr × Stmt)} {otherwise : List Stmt}
    (hw : ∀ c ∈ clauses, c.1.isWritable = true ∧ c.1.levels ≤ d ∧ ReadsStmt limit d c.2)
    (hplain : ∀ c ∈ clauses.tail, c.1.startsPlain = true)
    (hotherwise : ReadsBlock limit d otherwise) :
    ReadsStmt limit d (.caseOf s clauses otherwise) := by
  intro us rest bound hus hline _ hbound
  simp only [Stmt.tokens, List.map_eq_cons_iff, List.map_eq_append_iff, List.map_eq_nil_iff] at hus
  obtain ⟨t, _, rfl, ht, of_, _, rfl, hof, u, _, rfl, hu, ts, _, rfl, hts, v, _, rfl, hv, vs, _,
    rfl, hvs, w, _, rfl, hend, rfl⟩ := hus
  simp only [List.cons_append, List.append_assoc, List.nil_append, List.length_append,
    List.length_cons] at hbound ⊢
  have hlen : (ts ++ v :: (vs ++ w :: rest)).length ≤ bound.length := by
    simp only [List.length_append, List.length_cons]
    omega
  have hclauses := readsMany_clauses hw hplain hts
    (hline.part [t, of_, u] (v :: (vs ++ [w])) (by simp)) hv hlen
  have hotherwise' := hotherwise vs rest w .ENDCASE [.ENDCASE] hvs
    (hline.part (t :: of_ :: u :: (ts ++ [v])) [w] (by simp)) hend (by simp) (by decide)
  obtain ⟨_, start, stop⟩ := t
  cases ht
  change selection (expression limit d) (block limit d)
    (statementUpTo (expression limit d) (block limit d) bound)
    (⟨.keyword .CASE, start, stop⟩ :: of_ ::
      u :: (ts ++ v :: (vs ++ w :: rest))) = _
  unfold selection
  rw [keyword_bind rfl, keyword_bind hof, name_bind hu,
    bind_of_ok (manyWhile_of_readsMany hclauses), acceptKeyword_bind hv]
  change (do
    let otherwise ← block limit d [.ENDCASE]
    keyword .ENDCASE
    pure (.caseOf s clauses otherwise) : Parser Stmt) _ = _
  rw [bind_of_ok hotherwise', keyword_bind hend]
  rfl

/-- A block takes a level for itself. -/
theorem reads_block_of_levels {stmts : List Stmt}
    (h : ∀ {d}, Stmt.listLevels stmts ≤ d → ∀ s ∈ stmts, ReadsStmt limit d s)
    (hd : Stmt.listLevels stmts + 1 ≤ d) : ReadsBlock limit d stmts := by
  cases d with
  | zero => cases hd
  | succ d => exact reads_block (h (Nat.le_of_succ_le_succ hd))

mutual

theorem reads_stmt {d : Nat} : ∀ s : Stmt, s.isWritable = true → s.levels ≤ d → ReadsStmt limit d s
  | .declare names type, hw, _ => by
    simp only [Stmt.isWritable, Bool.not_eq_true', List.isEmpty_eq_false_iff] at hw
    exact reads_declare hw
  | .declareArray names lower upper type, hw, hd => by
    simp only [Stmt.isWritable, Bool.and_eq_true, Bool.not_eq_true',
      List.isEmpty_eq_false_iff] at hw
    simp only [Stmt.levels, Nat.max_le] at hd
    exact reads_declareArray hw.1.1 hw.1.2 hw.2 hd.1 hd.2
  | .constant s e, hw, hd => reads_constant hw hd
  | .assign s none e, hw, hd => reads_assign hw hd
  | .assign s (some field) e, hw, hd => reads_assignField hw hd
  | .assignElement s index e, hw, hd => by
    simp only [Stmt.isWritable, Bool.and_eq_true] at hw
    simp only [Stmt.levels, Nat.max_le] at hd
    exact reads_assignElement hw.1 hw.2 hd.1 hd.2
  | .output es, hw, hd => by
    simp only [Stmt.isWritable, Bool.and_eq_true, Bool.not_eq_true',
      List.isEmpty_eq_false_iff] at hw
    exact reads_output hw.1 hw.2 hd
  | .input s, _, _ => reads_input
  | .ifElse e yes no, hw, hd => by
    simp only [Stmt.isWritable, Bool.and_eq_true] at hw
    simp only [Stmt.levels, Nat.max_le] at hd
    exact reads_ifElse hw.1.1 hd.1 (reads_block_of_levels (reads_stmts yes hw.1.2) hd.2.1)
      (reads_block_of_levels (reads_stmts no hw.2) hd.2.2)
  | .whileDo e body, hw, hd => by
    simp only [Stmt.isWritable, Bool.and_eq_true] at hw
    simp only [Stmt.levels, Nat.max_le] at hd
    exact reads_whileDo hw.1 hd.1 (reads_block_of_levels (reads_stmts body hw.2) hd.2)
  | .repeatUntil body e, hw, hd => by
    simp only [Stmt.isWritable, Bool.and_eq_true] at hw
    simp only [Stmt.levels, Nat.max_le] at hd
    exact reads_repeatUntil hw.2 hd.2 (reads_block_of_levels (reads_stmts body hw.1) hd.1)
  | .forTo s start stop step body, hw, hd => by
    simp only [Stmt.isWritable, Bool.and_eq_true] at hw
    simp only [Stmt.levels, Nat.max_le] at hd
    exact reads_forTo hw.1.1.1 hw.1.1.2 hw.1.2 hd.1.1 hd.1.2 hd.2.1
      (reads_block_of_levels (reads_stmts body hw.2) hd.2.2)
  | .caseOf s clauses otherwise, hw, hd => by
    simp only [Stmt.isWritable, Bool.and_eq_true, List.all_eq_true] at hw
    simp only [Stmt.levels, Nat.max_le] at hd
    exact reads_caseOf (reads_clauses clauses hw.1.1 hd.1) hw.1.2
      (reads_block_of_levels (reads_stmts otherwise hw.2) hd.2)
  | .call s args, hw, hd => reads_call hw hd
  | .giveBack e, hw, hd => reads_giveBack hw hd

theorem reads_stmts {d : Nat} : ∀ stmts : List Stmt, Stmt.areWritable stmts = true →
    Stmt.listLevels stmts ≤ d → ∀ s ∈ stmts, ReadsStmt limit d s
  | [], _, _, _, hs => by cases hs
  | s :: stmts, hw, hd, s', hs => by
    simp only [Stmt.areWritable, Bool.and_eq_true] at hw
    simp only [Stmt.listLevels, Nat.max_le] at hd
    rcases List.mem_cons.mp hs with hs | hs
    · rw [hs]
      exact reads_stmt s hw.1 hd.1
    · exact reads_stmts stmts hw.2 hd.2 s' hs

theorem reads_clauses {d : Nat} : ∀ clauses : List (Expr × Stmt),
    Stmt.clausesWritable clauses = true → Stmt.clauseLevels clauses ≤ d →
    ∀ c ∈ clauses, c.1.isWritable = true ∧ c.1.levels ≤ d ∧ ReadsStmt limit d c.2
  | [], _, _, _, hc => by cases hc
  | (value, stmt) :: clauses, hw, hd, c, hc => by
    simp only [Stmt.clausesWritable, Bool.and_eq_true] at hw
    simp only [Stmt.clauseLevels, Nat.max_le] at hd
    rcases List.mem_cons.mp hc with hc | hc
    · rw [hc]
      exact ⟨hw.1.1, hd.1.1, reads_stmt stmt hw.1.2 hd.1.2⟩
    · exact reads_clauses clauses hw.2 hd.2 c hc

end

end Statements

end Chalkboard
