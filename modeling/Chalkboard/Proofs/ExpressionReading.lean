import Chalkboard.Proofs.ParserSoundness

/-! # Expressions of the grammar are read

The converse of soundness for expressions: the tokens of a derivation are read as its tree, if what
follows cannot go on with it. The climbing loop goes from operand to operand along the derivation.
On rung `n` it comes to the tree of the derivation for every level up to `n` it was called with,
since all operators of the derivation are of that level or a tighter one. With soundness this makes
the parser of expressions exact.
-/

namespace Chalkboard.Parser

open Grammar

section Steps

variable {β : Type} {ts : List Located} {t : Located}

theorem keyword_bind {k : Keyword} (ht : t.token = .keyword k) (f : Unit → Parser β) :
    (keyword k >>= f) (t :: ts) = f () ts := by
  have hstarts : startsWithKeyword k (t :: ts) = true := startsWithKeyword_iff.mpr ⟨t, ts, rfl, ht⟩
  exact bind_of_ok (by simp [keyword, hstarts])

theorem symbol_bind {s : Symbol} (ht : t.token = .symbol s) (f : Unit → Parser β) :
    (symbol s >>= f) (t :: ts) = f () ts := by
  have hstarts : startsWithSymbol s (t :: ts) = true := startsWithSymbol_iff.mpr ⟨t, ts, rfl, ht⟩
  exact bind_of_ok (by simp [symbol, hstarts])

theorem name_bind {s : String} (ht : t.token = .name s) (f : String → Parser β) :
    (name >>= f) (t :: ts) = f s ts := by
  obtain ⟨token, start, stop⟩ := t
  subst ht
  rfl

theorem acceptSymbol_bind {s : Symbol} (ht : t.token = .symbol s) (f : Bool → Parser β) :
    (acceptSymbol s >>= f) (t :: ts) = f true ts := by
  have hstarts : startsWithSymbol s (t :: ts) = true := startsWithSymbol_iff.mpr ⟨t, ts, rfl, ht⟩
  exact bind_of_ok (by simp [acceptSymbol, hstarts])

theorem acceptSymbol_bind_of_not {s : Symbol} (h : startsWithSymbol s ts = false)
    (f : Bool → Parser β) : (acceptSymbol s >>= f) ts = f false ts :=
  bind_of_ok (by simp [acceptSymbol, h])

theorem acceptKeyword_bind {k : Keyword} (ht : t.token = .keyword k) (f : Bool → Parser β) :
    (acceptKeyword k >>= f) (t :: ts) = f true ts := by
  have hstarts : startsWithKeyword k (t :: ts) = true := startsWithKeyword_iff.mpr ⟨t, ts, rfl, ht⟩
  exact bind_of_ok (by simp [acceptKeyword, hstarts])

theorem acceptKeyword_bind_of_not {k : Keyword} (h : startsWithKeyword k ts = false)
    (f : Bool → Parser β) : (acceptKeyword k >>= f) ts = f false ts :=
  bind_of_ok (by simp [acceptKeyword, h])

theorem atSymbol_bind (s : Symbol) (f : Bool → Parser β) :
    (atSymbol s >>= f) ts = f (startsWithSymbol s ts) ts := rfl

theorem startsWithSymbol_of_token {s : Symbol} (ht : t.token = .symbol s) (s' : Symbol) :
    startsWithSymbol s' (t :: ts) = (s == s') := by
  obtain ⟨token, start, stop⟩ := t
  subst ht
  rfl

end Steps

/-- Whether a name goes on here, with an index, arguments or a field. -/
def extendsName (ts : List Located) : Bool :=
  match ts.head?.map Located.token with
  | some (.symbol .leftBracket) | some (.symbol .leftParen) | some (.symbol .dot) => true
  | _ => false

/-- The last token is a name, and not the name of a field. -/
inductive EndsBare : List Located → Prop where
  | one {t : Located} {s : String} : t.token = .name s → EndsBare [t]
  | more {ts : List Located} {u t : Located} {s : String} : u.token ≠ .symbol .dot →
      t.token = .name s → EndsBare (ts ++ [u, t])

theorem EndsBare.append {us : List Located} (h : EndsBare us) {t : Located}
    (ht : t.token ≠ .symbol .dot) (ts : List Located) : EndsBare (ts ++ t :: us) := by
  cases h with
  | one hs => exact .more ht hs
  | @more vs u v s hu hs =>
    have h : EndsBare ((ts ++ t :: vs) ++ [u, v]) := .more hu hs
    simpa using h

theorem EndsBare.cons {us : List Located} (h : EndsBare us) {t : Located}
    (ht : t.token ≠ .symbol .dot) : EndsBare (t :: us) :=
  h.append ht []

/-- Here an expression of the tokens `us` is over. -/
structure Ends (us rest : List Located) : Prop where
  operator : operatorAt? rest = none
  name : EndsBare us → extendsName rest = false

section Lists

variable {α : Type} {p : Parser α} {ts us vs rest : List Located} {a : α} {as : List α}

/-- A list is read from `ts` on: its first item at once, and then one after each comma. -/
def ReadsList (p : Parser α) (ts : List Located) (as : List α) (rest : List Located) : Prop :=
  ∃ a as' vs, as = a :: as' ∧ p ts = .ok (a, vs) ∧ vs.length ≤ ts.length ∧
    ∀ bound : List Located, vs.length ≤ bound.length → repeatAfterComma p bound vs = .ok (as', rest)

theorem commaList_of_readsList (h : ReadsList p ts as rest) : commaList p ts = .ok (as, rest) := by
  obtain ⟨a, as', vs, rfl, hp, -, hmore⟩ := h
  unfold commaList
  rw [bind_of_ok hp]
  exact bind_of_ok (hmore vs (Nat.le_refl _))

theorem ReadsList.one (hp : p ts = .ok (a, rest)) (hle : rest.length ≤ ts.length)
    (hcomma : startsWithSymbol .comma rest = false) : ReadsList p ts [a] rest := by
  refine ⟨a, [], rest, rfl, hp, hle, fun bound _ => ?_⟩
  cases bound with
  | nil => rfl
  | cons b bound =>
    unfold repeatAfterComma
    rw [acceptSymbol_bind_of_not hcomma]
    rfl

theorem ReadsList.more {comma : Located} (hp : p ts = .ok (a, comma :: us))
    (hle : (comma :: us).length ≤ ts.length) (hc : comma.token = .symbol .comma)
    (hmore : ReadsList p us as rest) : ReadsList p ts (a :: as) rest := by
  obtain ⟨b, bs, vs, rfl, hfirst, hvs, hloop⟩ := hmore
  refine ⟨a, b :: bs, comma :: us, rfl, hp, hle, fun bound hlen => ?_⟩
  cases bound with
  | nil => simp at hlen
  | cons t bound =>
    rw [List.length_cons, List.length_cons] at hlen
    unfold repeatAfterComma
    rw [acceptSymbol_bind hc]
    change (p >>= fun a => do let as ← repeatAfterComma p bound; pure (a :: as)) _ = _
    rw [bind_of_ok hfirst, bind_of_ok (hloop bound (by omega))]
    rfl

end Lists

section Climbing

variable {operand : Parser Expr} {n m : Nat} {ts us rest : List Located} {t : Located}
  {op : BinaryOp} {first left right e : Expr}

theorem binaryOp?_of_operator {token : Token} (h : Operator n token op) :
    binaryOp? token = some op ∧ op.level = n := by
  cases h <;> exact ⟨rfl, rfl⟩

theorem not_dot_of_operator {token : Token} (h : Operator n token op) : token ≠ .symbol .dot := by
  rintro rfl
  cases h

theorem extendsName_of_operator (h : Operator n t.token op) : extendsName (t :: ts) = false := by
  obtain ⟨token, start, stop⟩ := t
  cases h <;> rfl

theorem climbFrom_stop {bound : List Located}
    (h : ∀ op, operatorAt? ts = some op → op.level < n) :
    climbFrom operand bound n left ts = .ok (left, ts) := by
  cases bound with
  | nil => rfl
  | cons b bound =>
    cases hat : operatorAt? ts with
    | none => exact climbFrom_of_none hat
    | some op => exact climbFrom_of_lt hat (h op hat)

theorem climbFrom_go {b : Located} {bound : List Located} (ht : Operator m t.token op)
    (hnm : n ≤ m) :
    climbFrom operand (b :: bound) n left (t :: ts) = (do
      let first ← operand
      let right ← climbFrom operand bound (m + 1) first
      climbFrom operand bound n (.binary op left right) : Parser Expr) ts := by
  obtain ⟨hop, rfl⟩ := binaryOp?_of_operator ht
  exact climbFrom_of_le hop hnm

/-- From one expression and the tokens after it, the loop comes to another, for every level up to
`n` and as long as there are enough rounds. -/
def ClimbsTo (operand : Parser Expr) (n : Nat) (first : Expr) (ts : List Located) (e : Expr)
    (rest : List Located) : Prop :=
  ∀ m bound, m ≤ n → ts.length ≤ bound.length → ∃ bound' : List Located,
    rest.length ≤ bound'.length ∧
      climbFrom operand bound m first ts = climbFrom operand bound' m e rest

theorem ClimbsTo.refl : ClimbsTo operand n e rest e rest :=
  fun _ bound _ hlen => ⟨bound, hlen, rfl⟩

theorem ClimbsTo.mono (h : ClimbsTo operand m first ts e rest) (hnm : n ≤ m) :
    ClimbsTo operand n first ts e rest :=
  fun k bound hk hlen => h k bound (Nat.le_trans hk hnm) hlen

/-- One operator and its right operand further, if no tighter operator is next. -/
theorem ClimbsTo.step {ls : List Located} {next : Expr} {vs : List Located}
    (hleft : ClimbsTo operand n first ls left (t :: us)) (ht : Operator n t.token op)
    (hnext : operand us = .ok (next, vs)) (hlen : vs.length ≤ us.length)
    (hright : ClimbsTo operand (n + 1) next vs right rest) (hrest : rest.length ≤ us.length)
    (hstop : ∀ op, operatorAt? rest = some op → op.level ≤ n) :
    ClimbsTo operand n first ls (.binary op left right) rest := by
  intro m bound hm hbound
  obtain ⟨bound₁, hbound₁, h₁⟩ := hleft m bound hm hbound
  cases bound₁ with
  | nil => simp at hbound₁
  | cons b bound₁ =>
    have hus : us.length ≤ bound₁.length := Nat.le_of_succ_le_succ hbound₁
    obtain ⟨bound₂, -, h₂⟩ := hright (n + 1) bound₁ (Nat.le_refl _) (Nat.le_trans hlen hus)
    rw [climbFrom_stop fun op hop => Nat.lt_succ_of_le (hstop op hop)] at h₂
    refine ⟨bound₁, Nat.le_trans hrest hus, ?_⟩
    rw [h₁, climbFrom_go ht hm, bind_of_ok hnext, bind_of_ok h₂]

end Climbing

section Reading

variable (limit : Nat) {d n : Nat} {us rest : List Located} {e : Expr}

/-- An expression is over before a symbol that closes or separates. -/
theorem ends_of_symbol {t : Located} {s : Symbol} (ht : t.token = .symbol s)
    (hs : s = .rightParen ∨ s = .rightBracket ∨ s = .comma ∨ s = .colon) :
    Ends us (t :: rest) := by
  constructor
  · rcases hs with rfl | rfl | rfl | rfl <;> simp [operatorAt?, ht, binaryOp?]
  · intro _
    rcases hs with rfl | rfl | rfl | rfl <;> simp [extendsName, ht]

theorem operand_eq_primary {t : Located} (ht : unaryOp? t.token = none) :
    operand limit d (t :: rest) = primary (expression limit d) (t :: rest) := by
  cases d <;> exact operandWith_of_none ht

theorem unaryOp?_of_sign {token : Token} {op : UnaryOp} (h : Sign token op) :
    unaryOp? token = some op := by
  cases h <;> rfl

theorem operand_of_sign {t : Located} {op : UnaryOp} (ht : Sign t.token op)
    (h : operand limit d us = .ok (e, rest)) :
    operand limit (d + 1) (t :: us) = .ok (.unary op e, rest) := by
  rw [operand, operandWith_of_some (unaryOp?_of_sign ht), bind_of_ok h]
  rfl

theorem not_dot_of_sign {token : Token} {op : UnaryOp} (h : Sign token op) :
    token ≠ .symbol .dot := by
  rintro rfl
  cases h

theorem length_le_of_operand {ts : List Located} (h : operand limit d ts = .ok (e, rest)) :
    rest.length ≤ ts.length := by
  obtain ⟨used, rfl, -⟩ := sound_operand limit d ts e rest h
  simp

theorem named_of_not_extendsName {p : Parser Expr} {s : String} (h : extendsName rest = false) :
    named p s rest = .ok (.var s none, rest) := by
  change (match rest.head?.map Located.token with
    | some (.symbol .leftBracket) => _
    | some (.symbol .leftParen) => _
    | some (.symbol .dot) => _
    | _ => pure (.var s none) : Parser Expr) rest = _
  unfold extendsName at h
  generalize rest.head?.map Located.token = head at h ⊢
  split at h
  · cases h
  · cases h
  · cases h
  · rfl

theorem arguments_head {args : List Expr} (h : Arguments d us args) :
    ∃ l ts, us = l :: ts ∧ l.token = .symbol .leftParen := by
  cases h with
  | none hl _ => exact ⟨_, _, rfl, hl⟩
  | some hl _ _ => exact ⟨_, _, rfl, hl⟩

/-- No expression begins with a closing parenthesis. -/
theorem not_rightParen_of_expression {ts : List Located}
    (h : expression limit d ts = .ok (e, rest)) : startsWithSymbol .rightParen ts = false := by
  refine Bool.eq_false_iff.mpr fun hstarts => ?_
  obtain ⟨⟨token, start, stop⟩, us, rfl, rfl⟩ := startsWithSymbol_iff.mp hstarts
  cases d with
  | zero => cases h
  | succ d =>
    obtain ⟨first, vs, h₁, -⟩ := bind_eq_ok (show (operand limit d >>= _) _ = _ from h)
    rw [operand_eq_primary limit rfl] at h₁
    cases h₁

end Reading

section Derivations

variable {limit : Nat}

/-- From the signs on there is nothing to climb. -/
theorem climbsTo_whole {d n : Nat} {ts rest : List Located} {e : Expr}
    (h : operand limit d ts = .ok (e, rest)) :
    ∃ first vs, operand limit d ts = .ok (first, vs) ∧
      ClimbsTo (operand limit d) n first vs e rest ∧ (6 ≤ n → first = e ∧ vs = rest) :=
  ⟨e, rest, h, .refl, fun _ => ⟨rfl, rfl⟩⟩

mutual

theorem reads_expression {d : Nat} {us rest : List Located} {e : Expr} : Expression d us e →
    Ends us rest → expression limit d (us ++ rest) = .ok (e, rest)
  | .mk h, hrest => by
    have hops : ∀ op, operatorAt? rest = some op → op.level ≤ 1 := by simp [hrest.operator]
    obtain ⟨first, vs, hfirst, hclimb, -⟩ := reads_rung h hrest.name hops
    obtain ⟨bound, -, hbound⟩ := hclimb 1 vs (Nat.le_refl 1) (Nat.le_refl _)
    have hstop : ∀ op, operatorAt? rest = some op → op.level < 1 := by simp [hrest.operator]
    change (operand limit _ >>= fun first ts => climbFrom _ ts 1 first ts) (us ++ rest) = _
    rw [bind_of_ok hfirst, hbound, climbFrom_stop hstop]

theorem reads_rung {d n : Nat} {us rest : List Located} {e : Expr} : Rung d n us e →
    (EndsBare us → extendsName rest = false) →
    (∀ op, operatorAt? rest = some op → op.level ≤ n) →
    ∃ first vs, operand limit d (us ++ rest) = .ok (first, vs) ∧
      ClimbsTo (operand limit d) n first vs e rest ∧ (6 ≤ n → first = e ∧ vs = rest)
  | @Rung.binary _ _ ts us t op a b ha ht hb, hname, hops => by
    obtain ⟨hop, hlevel⟩ := binaryOp?_of_operator ht
    rw [List.append_assoc, List.cons_append]
    have hops_a : ∀ op', operatorAt? (t :: (us ++ rest)) = some op' → op'.level ≤ n := by
      intro op' hop'
      obtain rfl : op = op' := Option.some.inj (hop.symm.trans hop')
      exact Nat.le_of_eq hlevel
    obtain ⟨first, vs, hfirst, hclimb, -⟩ := reads_rung ha
      (fun _ => extendsName_of_operator ht) hops_a
    obtain ⟨next, ws, hnext, hclimb', -⟩ := reads_rung hb
      (fun hbare => hname (hbare.append (not_dot_of_operator ht) ts))
      (fun op hop => Nat.le_succ_of_le (hops op hop))
    refine ⟨first, vs, hfirst, ?_, fun hn => ?_⟩
    · exact hclimb.step ht hnext (length_le_of_operand limit hnext) hclimb' (by simp) hops
    · have := op.level_le
      omega
  | .tighter hn h, hname, hops => by
    obtain ⟨first, vs, hfirst, hclimb, heq⟩ :=
      reads_rung h hname fun op hop => Nat.le_succ_of_le (hops op hop)
    exact ⟨first, vs, hfirst, hclimb.mono (Nat.le_succ n), fun hn => heq (Nat.le_succ_of_le hn)⟩
  | .unary ht h, hname, hops => by
    obtain ⟨_, _, hfirst, -, heq⟩ := reads_rung h
      (fun hbare => hname (hbare.cons (not_dot_of_sign ht))) hops
    obtain ⟨rfl, rfl⟩ := heq (Nat.le_refl 6)
    exact climbsTo_whole (operand_of_sign limit ht hfirst)
  | @Rung.number _ ⟨_, _, _⟩ _ _ rfl, _, _ => climbsTo_whole (operand_eq_primary limit rfl)
  | @Rung.text _ ⟨_, _, _⟩ _ rfl, _, _ => climbsTo_whole (operand_eq_primary limit rfl)
  | @Rung.yes _ ⟨_, _, _⟩ rfl, _, _ => climbsTo_whole (operand_eq_primary limit rfl)
  | @Rung.no _ ⟨_, _, _⟩ rfl, _, _ => climbsTo_whole (operand_eq_primary limit rfl)
  | @Rung.parens _ ts ⟨_, start, stop⟩ r e rfl h hr, _, _ => by
    have hin := reads_expression h (ends_of_symbol hr (.inl rfl) : Ends ts (r :: rest))
    have hprimary : primary (expression limit d)
        (⟨.symbol .leftParen, start, stop⟩ :: (ts ++ r :: rest)) = .ok (e, rest) := by
      change (do let e ← expression limit d; symbol .rightParen; pure e : Parser Expr)
        (ts ++ r :: rest) = _
      rw [bind_of_ok hin, symbol_bind hr]
      rfl
    rw [List.append_assoc]
    exact climbsTo_whole ((operand_eq_primary limit rfl).trans hprimary)
  | @Rung.var _ ⟨_, _, _⟩ s rfl, hname, _ => by
    have hnamed : named (expression limit d) s rest = .ok (.var s none, rest) :=
      named_of_not_extendsName (hname (.one rfl))
    exact climbsTo_whole ((operand_eq_primary limit rfl).trans hnamed)
  | @Rung.field _ ⟨_, _, _⟩ ⟨_, _, _⟩ ⟨_, _, _⟩ _ _ rfl rfl rfl, _, _ =>
    climbsTo_whole (operand_eq_primary limit rfl)
  | @Rung.element _ ts ⟨_, _, _⟩ ⟨_, start, stop⟩ r s index rfl rfl h hr, _, _ => by
    have hin := reads_expression h (ends_of_symbol hr (.inr (.inl rfl)) : Ends ts (r :: rest))
    have hnamed : named (expression limit d) s
        (⟨.symbol .leftBracket, start, stop⟩ :: (ts ++ r :: rest)) =
        .ok (.element s index, rest) := by
      change (do let index ← expression limit d; symbol .rightBracket; pure (.element s index) :
        Parser Expr) (ts ++ r :: rest) = _
      rw [bind_of_ok hin, symbol_bind hr]
      rfl
    rw [List.append_assoc]
    exact climbsTo_whole ((operand_eq_primary limit rfl).trans hnamed)
  | @Rung.call _ ts ⟨_, _, _⟩ s args rfl h, _, _ => by
    have hargs : arguments (expression limit d) (ts ++ rest) = .ok (args, rest) := reads_arguments h
    obtain ⟨⟨token, start, stop⟩, us, rfl, rfl⟩ := arguments_head h
    have hnamed : named (expression limit d) s (⟨.symbol .leftParen, start, stop⟩ :: us ++ rest) =
        .ok (.call s args, rest) := by
      change (arguments _ >>= fun args => pure (Expr.call s args)) _ = _
      rw [bind_of_ok hargs]
      rfl
    exact climbsTo_whole ((operand_eq_primary limit rfl).trans hnamed)

theorem reads_arguments {d : Nat} {us rest : List Located} {args : List Expr} :
    Arguments d us args → arguments (expression limit d) (us ++ rest) = .ok (args, rest)
  | @Arguments.none _ l r hl hr => by
    unfold arguments
    rw [List.cons_append, symbol_bind hl, List.cons_append, atSymbol_bind,
      startsWithSymbol_of_token hr]
    change (do symbol .rightParen; pure [] : Parser (List Expr)) (r :: rest) = _
    rw [symbol_bind hr]
    rfl
  | @Arguments.some _ ts l r _ hl h hr => by
    have hlist := reads_expressions h (ends_of_symbol hr (.inl rfl) : Ends ts (r :: rest))
      (startsWithSymbol_of_token hr .comma)
    have ⟨_, _, _, _, hfirst, _, _⟩ := hlist
    unfold arguments
    rw [List.append_assoc, List.cons_append, symbol_bind hl, atSymbol_bind, List.singleton_append,
      not_rightParen_of_expression limit hfirst]
    change (commaList _ >>= fun args => do symbol .rightParen; pure args) _ = _
    rw [bind_of_ok (commaList_of_readsList hlist), symbol_bind hr]
    rfl

theorem reads_expressions {d : Nat} {us rest : List Located} {es : List Expr} :
    Expressions d us es → Ends us rest → startsWithSymbol .comma rest = false →
    ReadsList (expression limit d) (us ++ rest) es rest
  | .one h, hrest, hcomma => .one (reads_expression h hrest) (by simp) hcomma
  | @Expressions.more _ ts us comma e es h hc hmore, hrest, hcomma => by
    have hname : EndsBare us → extendsName rest = false :=
      fun hbare => hrest.name (hbare.append (by simp [hc]) ts)
    have hlist := reads_expressions hmore ⟨hrest.operator, hname⟩ hcomma
    have hin := reads_expression h (ends_of_symbol hc (by simp) : Ends ts (comma :: (us ++ rest)))
    rw [List.append_assoc, List.cons_append]
    exact .more hin (by simp) hc hlist

end

end Derivations

section Depth

mutual

/-- An expression may also stand where more levels are left. -/
theorem expression_mono {k d : Nat} {us : List Located} {e : Expr} : Expression k us e → k ≤ d →
    Expression d us e
  | .mk h, hle => by
    obtain ⟨c, rfl⟩ : ∃ c, d = c + 1 := ⟨d - 1, by omega⟩
    exact .mk (rung_mono h (Nat.le_of_succ_le_succ hle))

theorem rung_mono {k d n : Nat} {us : List Located} {e : Expr} : Rung k n us e → k ≤ d →
    Rung d n us e
  | .binary ha ht hb, hle => .binary (rung_mono ha hle) ht (rung_mono hb hle)
  | .tighter hn h, hle => .tighter hn (rung_mono h hle)
  | .unary ht h, hle => by
    obtain ⟨c, rfl⟩ : ∃ c, d = c + 1 := ⟨d - 1, by omega⟩
    exact .unary ht (rung_mono h (Nat.le_of_succ_le_succ hle))
  | .number ht, _ => .number ht
  | .text ht, _ => .text ht
  | .yes ht, _ => .yes ht
  | .no ht, _ => .no ht
  | .parens hl h hr, hle => .parens hl (expression_mono h hle) hr
  | .var ht, _ => .var ht
  | .field ht hdot hf, _ => .field ht hdot hf
  | .element ht hl h hr, hle => .element ht hl (expression_mono h hle) hr
  | .call ht h, hle => .call ht (arguments_mono h hle)

theorem arguments_mono {k d : Nat} {us : List Located} {args : List Expr} : Arguments k us args →
    k ≤ d → Arguments d us args
  | .none hl hr, _ => .none hl hr
  | .some hl h hr, hle => .some hl (expressions_mono h hle) hr

theorem expressions_mono {k d : Nat} {us : List Located} {es : List Expr} : Expressions k us es →
    k ≤ d → Expressions d us es
  | .one h, hle => .one (expression_mono h hle)
  | .more h hc hmore, hle => .more (expression_mono h hle) hc (expressions_mono hmore hle)

end

end Depth

section Exactness

variable {us rest : List Located}

theorem operatorAt?_eq_none (h : ∀ t ∈ rest.head?, ∀ n op, ¬ Operator n t.token op) :
    operatorAt? rest = none := by
  refine Option.eq_none_iff_forall_not_mem.mpr fun op hop => ?_
  obtain ⟨token, hhead, hop?⟩ := Option.bind_eq_some_iff.mp hop
  obtain ⟨t, ts, rfl, rfl⟩ := head_eq_some hhead
  exact h t rfl op.level op (operator_of_binaryOp? hop?)

theorem extendsName_eq_false (h : ∀ t ∈ rest.head?,
    t.token ∉ [.symbol .leftBracket, .symbol .leftParen, .symbol .dot]) :
    extendsName rest = false := by
  have hhead : ∀ s : Symbol, rest.head?.map Located.token = some (.symbol s) →
      s ∉ [.leftBracket, .leftParen, .dot] := by
    intro s hs hmem
    obtain ⟨t, ts, rfl, ht⟩ := head_eq_some hs
    exact h t rfl (by simpa [ht] using hmem)
  unfold extendsName
  split
  · exact absurd (by decide) (hhead .leftBracket ‹_›)
  · exact absurd (by decide) (hhead .leftParen ‹_›)
  · exact absurd (by decide) (hhead .dot ‹_›)
  · rfl

/-- The parser of expressions reads the grammar exactly. What it takes is written for the tree that
it gives; and what is written for a tree is read as this tree, to its last token, if its nesting
fits into the levels that are left and the next token cannot go on with it: it is no operator and,
after a name that stands bare, nothing that goes on with a name. -/
theorem expression_exact (limit d : Nat) :
    (∀ ts e rest, expression limit d ts = .ok (e, rest) →
      ∃ used, ts = used ++ rest ∧ Expression d used e) ∧
    (∀ k us e rest, Expression k us e → k ≤ d →
      (∀ t ∈ rest.head?, ∀ n op, ¬ Operator n t.token op) →
      (EndsBare us → ∀ t ∈ rest.head?,
        t.token ∉ [.symbol .leftBracket, .symbol .leftParen, .symbol .dot]) →
      expression limit d (us ++ rest) = .ok (e, rest)) := by
  refine ⟨sound_expression limit d, fun k us e rest h hle hop hname => ?_⟩
  refine reads_expression (expression_mono h hle) ⟨operatorAt?_eq_none hop, fun hbare => ?_⟩
  exact extendsName_eq_false (hname hbare)

/-- In `- a + b * c` the sign binds tightest, and `+` loosest; before `THEN` the expression is
over. -/
theorem expression_exact_sum :
    let at_ (token : Token) : Located := ⟨token, ⟨0, 1, 1⟩, 0⟩
    let us := [at_ (.symbol .minus), at_ (.name "a"), at_ (.symbol .plus), at_ (.name "b"),
      at_ (.symbol .star), at_ (.name "c")]
    let e : Expr := .binary .add (.unary .neg (.var "a" none))
      (.binary .mul (.var "b" none) (.var "c" none))
    Expression 2 us e ∧ expression nestingLimit 7 (us ++ [at_ (.keyword .THEN)]) =
      .ok (e, [at_ (.keyword .THEN)]) := by
  intro at_ us e
  have hread : expression nestingLimit 2 us = .ok (e, []) := rfl
  obtain ⟨used, hused, hderives⟩ := (expression_exact nestingLimit 2).1 us e [] hread
  rw [List.append_nil] at hused
  subst hused
  refine ⟨hderives, (expression_exact nestingLimit 7).2 2 us e _ hderives (by omega) ?_ ?_⟩
  · rintro t ⟨⟩ n op hop
    cases hop
  · rintro - t ⟨⟩
    simp [at_]

end Exactness

end Chalkboard.Parser
