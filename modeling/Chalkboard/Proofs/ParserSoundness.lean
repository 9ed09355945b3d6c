import Chalkboard.Proofs.Parsing

/-! # The parser is sound for the grammar

Every parser takes a sequence of the language that the grammar names for it. For expressions this is
the ladder: the operators that the climbing loop takes one after another never bind tighter than the
one before, so that what is read so far always stands on the rung of the next operator. A program
takes all tokens, since no item is empty.
-/

namespace Chalkboard

theorem BinaryOp.level_le (op : BinaryOp) : op.level ≤ 5 := by
  cases op <;> decide

namespace Parser

open Grammar

section Expressions

variable {d : Nat} {ts rest : List Located} {operand expression : Parser Expr}

theorem operator_of_binaryOp? {t : Token} {op : BinaryOp} (h : binaryOp? t = some op) :
    Operator op.level t op := by
  unfold binaryOp? at h
  split at h <;> cases h <;> constructor

theorem sign_of_unaryOp? {t : Token} {op : UnaryOp} (h : unaryOp? t = some op) : Sign t op := by
  unfold unaryOp? at h
  split at h <;> cases h <;> constructor

theorem expressions_of_commas {es : List Expr} (h : Commas (Expression d) ts es) :
    Expressions d ts es := by
  induction h with
  | one h => exact .one h
  | more h hcomma _ ih => exact .more h hcomma ih

theorem rung_of_le {n m : Nat} {e : Expr} (h : Rung d m ts e) (hnm : n ≤ m) (hm : m ≤ 7) :
    Rung d n ts e := by
  induction hnm with
  | refl => exact h
  | step hle ih => exact ih (.tighter (by omega) h) (by omega)

theorem sound_arguments (he : Sound expression (Expression d)) :
    Sound (arguments expression) (Arguments d) := by
  intro ts args rest h
  obtain ⟨_, _, _, rfl, ⟨l, rfl, hl⟩, h₁⟩ := (sound_symbol .leftParen).step h
  obtain ⟨empty, _, _, rfl, rfl, h₂⟩ := (sound_atSymbol .rightParen).step h₁
  cases empty with
  | true =>
    obtain ⟨_, _, _, rfl, ⟨rfl, rfl⟩, h₃⟩ := (sound_pure []).step h₂
    obtain ⟨_, _, _, rfl, ⟨r, rfl, hr⟩, h₄⟩ := (sound_symbol .rightParen).step h₃
    cases h₄
    exact ⟨[l, r], rfl, .none hl hr⟩
  | false =>
    obtain ⟨args, us, _, rfl, hargs, h₃⟩ := (sound_commaList he).step h₂
    obtain ⟨_, _, _, rfl, ⟨r, rfl, hr⟩, h₄⟩ := (sound_symbol .rightParen).step h₃
    cases h₄
    exact ⟨l :: us ++ [r], by simp, .some hl (expressions_of_commas hargs) hr⟩

theorem sound_named (he : Sound expression (Expression d)) {t : Located} {s : String} {e : Expr}
    (ht : t.token = .name s) (h : named expression s ts = .ok (e, rest)) :
    ∃ used, ts = used ++ rest ∧ Rung d 7 (t :: used) e := by
  obtain ⟨head, hhead, h⟩ := peek_step h
  split at h
  · obtain ⟨l, us, rfl, hl⟩ := head_eq_some hhead
    rw [skip_bind] at h
    obtain ⟨index, vs, _, rfl, hindex, h₁⟩ := he.step h
    obtain ⟨_, _, _, rfl, ⟨r, rfl, hr⟩, h₂⟩ := (sound_symbol .rightBracket).step h₁
    cases h₂
    exact ⟨l :: vs ++ [r], by simp, .element ht hl hindex hr⟩
  · obtain ⟨args, us, _, rfl, hargs, h₁⟩ := (sound_arguments he).step h
    cases h₁
    exact ⟨us, rfl, .call ht hargs⟩
  · obtain ⟨dot, us, rfl, hdot⟩ := head_eq_some hhead
    rw [skip_bind] at h
    obtain ⟨field, _, _, rfl, ⟨hf⟩, h₁⟩ := sound_name.step h
    cases h₁
    exact ⟨[dot, _], rfl, .field ht hdot hf⟩
  · cases h
    exact ⟨[], rfl, .var ht⟩

theorem sound_primary (he : Sound expression (Expression d)) :
    Sound (primary expression) (Rung d 7) := by
  intro ts e rest h
  obtain ⟨head, hhead, h⟩ := peek_step h
  split at h
  · cases h
  · obtain ⟨t, us, rfl, ht⟩ := head_eq_some hhead
    cases h
    exact ⟨[t], rfl, .number ht⟩
  · obtain ⟨t, us, rfl, ht⟩ := head_eq_some hhead
    cases h
    exact ⟨[t], rfl, .text ht⟩
  · obtain ⟨t, us, rfl, ht⟩ := head_eq_some hhead
    cases h
    exact ⟨[t], rfl, .yes ht⟩
  · obtain ⟨t, us, rfl, ht⟩ := head_eq_some hhead
    cases h
    exact ⟨[t], rfl, .no ht⟩
  · obtain ⟨l, us, rfl, hl⟩ := head_eq_some hhead
    rw [skip_bind] at h
    obtain ⟨e, vs, _, rfl, he, h₁⟩ := he.step h
    obtain ⟨_, _, _, rfl, ⟨r, rfl, hr⟩, h₂⟩ := (sound_symbol .rightParen).step h₁
    cases h₂
    exact ⟨l :: vs ++ [r], by simp, .parens hl he hr⟩
  · obtain ⟨t, us, rfl, ht⟩ := head_eq_some hhead
    rw [skip_bind] at h
    obtain ⟨used, rfl, hrung⟩ := sound_named he ht h
    exact ⟨t :: used, rfl, hrung⟩
  · cases h

/-- The operator that is next, if one is. -/
def operatorAt? (ts : List Located) : Option BinaryOp :=
  (ts.head?.map Located.token).bind binaryOp?

/-- The sign that is next, if one is. -/
def signAt? (ts : List Located) : Option UnaryOp :=
  (ts.head?.map Located.token).bind unaryOp?

theorem operandWith_of_none (h : signAt? ts = none) :
    operandWith operand expression ts = primary expression ts := by
  rw [operandWith, bind_of_ok (show peek ts = .ok (_, ts) from rfl)]
  rw [signAt?] at h
  simp only [h]

theorem operandWith_of_some {t : Located} {op : UnaryOp} (h : signAt? (t :: ts) = some op) :
    operandWith operand expression (t :: ts) = (operand >>= fun e => pure (.unary op e)) ts := by
  rw [operandWith, bind_of_ok (show peek (t :: ts) = .ok (_, t :: ts) from rfl)]
  rw [signAt?] at h
  simp only [h]
  rfl

section Climbing

variable {b : Located} {bound : List Located} {n : Nat} {left : Expr} {op : BinaryOp}

theorem climbFrom_of_none (h : operatorAt? ts = none) :
    climbFrom operand (b :: bound) n left ts = .ok (left, ts) := by
  rw [climbFrom, bind_of_ok (show peek ts = .ok (_, ts) from rfl)]
  rw [operatorAt?] at h
  simp only [h]
  rfl

theorem climbFrom_of_lt (h : operatorAt? ts = some op) (hlevel : op.level < n) :
    climbFrom operand (b :: bound) n left ts = .ok (left, ts) := by
  rw [climbFrom, bind_of_ok (show peek ts = .ok (_, ts) from rfl)]
  rw [operatorAt?] at h
  simp only [h, if_neg (Nat.not_le.mpr hlevel)]
  rfl

theorem climbFrom_of_le {t : Located} (h : operatorAt? (t :: ts) = some op)
    (hlevel : n ≤ op.level) : climbFrom operand (b :: bound) n left (t :: ts) = (do
      let first ← operand
      let right ← climbFrom operand bound (op.level + 1) first
      climbFrom operand bound n (.binary op left right) : Parser Expr) ts := by
  rw [climbFrom, bind_of_ok (show peek (t :: ts) = .ok (_, t :: ts) from rfl)]
  rw [operatorAt?] at h
  simp only [h, if_pos hlevel]
  rfl

end Climbing

/-- What has been read so far stands on rung `m`, and no tighter operator is next. The result stands
on rung `n`, and no operator of that rung or a tighter one is left over. -/
theorem sound_climbFrom (hop : Sound operand (Rung d 6)) {bound ls : List Located} {n m : Nat}
    {left e : Expr} (hlen : ts.length ≤ bound.length) (hn : n ≤ m) (hm : m ≤ 6)
    (hleft : Rung d m ls left) (hnext : ∀ op, operatorAt? ts = some op → op.level ≤ m)
    (h : climbFrom operand bound n left ts = .ok (e, rest)) :
    ∃ used, ts = used ++ rest ∧ Rung d n (ls ++ used) e ∧
      ∀ op, operatorAt? rest = some op → op.level < n := by
  induction bound generalizing ts ls n m left e rest with
  | nil =>
    cases h
    obtain rfl := List.length_eq_zero_iff.mp (Nat.le_zero.mp hlen)
    exact ⟨[], rfl, by simpa using rung_of_le hleft hn (by omega), fun op hop => by cases hop⟩
  | cons b bound ih =>
    cases hat : operatorAt? ts with
    | none =>
      rw [climbFrom_of_none hat] at h
      cases h
      exact ⟨[], rfl, by simpa using rung_of_le hleft hn (by omega), by simp [hat]⟩
    | some op =>
      rcases Nat.lt_or_ge op.level n with hlevel | hlevel
      · rw [climbFrom_of_lt hat hlevel] at h
        cases h
        refine ⟨[], rfl, by simpa using rung_of_le hleft hn (by omega), fun op' hop' => ?_⟩
        obtain rfl : op = op' := by simpa [hat] using hop'
        exact hlevel
      · obtain ⟨token, hhead, hop?⟩ := Option.bind_eq_some_iff.mp hat
        obtain ⟨t, us, rfl, rfl⟩ := head_eq_some hhead
        have hle := op.level_le
        rw [climbFrom_of_le hat hlevel] at h
        obtain ⟨first, vs, ws, rfl, hfirst, h₁⟩ := hop.step h
        obtain ⟨right, xs, h₂, h₃⟩ := bind_eq_ok h₁
        simp only [List.length_cons, List.length_append] at hlen
        -- The right operand takes all operators that bind tighter than this one.
        have hany : ∀ op', operatorAt? ws = some op' → op'.level ≤ 6 :=
          fun op' _ => Nat.le_succ_of_le op'.level_le
        obtain ⟨used, rfl, hright, hstop⟩ := ih (by omega) (by omega) (Nat.le_refl 6) hfirst hany h₂
        have hbinary := Rung.binary (rung_of_le hleft (hnext op hat) (by omega))
          (operator_of_binaryOp? hop?) hright
        simp only [List.length_append] at hlen
        -- So the next operator binds no tighter, and the result is a left operand for it.
        obtain ⟨used', rfl, he, hstop'⟩ := ih (by omega) hlevel (by omega) hbinary
          (fun op' hop' => Nat.le_of_lt_succ (hstop op' hop')) h₃
        exact ⟨t :: (vs ++ used ++ used'), by simp, by simpa using he, hstop'⟩

theorem sound_climb (hop : Sound operand (Rung d 6)) : Sound (climb operand) (Rung d 1) := by
  intro ts e rest h
  obtain ⟨first, us, vs, rfl, hfirst, h₁⟩ := hop.step h
  have hany : ∀ op, operatorAt? vs = some op → op.level ≤ 6 :=
    fun op _ => Nat.le_succ_of_le op.level_le
  obtain ⟨used, rfl, he, -⟩ :=
    sound_climbFrom hop (Nat.le_refl _) (by omega) (Nat.le_refl 6) hfirst hany h₁
  exact ⟨us ++ used, by simp, he⟩

theorem sound_operandWith (hop : Sound operand fun ts e => ∃ c, d = c + 1 ∧ Rung c 6 ts e)
    (he : Sound expression (Expression d)) : Sound (operandWith operand expression) (Rung d 6) := by
  intro ts e rest h
  cases hsign : signAt? ts with
  | none =>
    rw [operandWith_of_none hsign] at h
    obtain ⟨used, rfl, hrung⟩ := sound_primary he _ _ _ h
    exact ⟨used, rfl, .tighter (by omega) hrung⟩
  | some op =>
    obtain ⟨token, hhead, hop?⟩ := Option.bind_eq_some_iff.mp hsign
    obtain ⟨t, us, rfl, rfl⟩ := head_eq_some hhead
    rw [operandWith_of_some hsign] at h
    obtain ⟨e, vs, _, rfl, ⟨c, rfl, hrung⟩, h₁⟩ := hop.step h
    cases h₁
    exact ⟨t :: vs, rfl, .unary (sign_of_unaryOp? hop?) hrung⟩

theorem sound_operand (limit : Nat) : ∀ d, Sound (Parser.operand limit d) (Rung d 6)
  | 0 => sound_operandWith (.stuck _) (.stuck _)
  | d + 1 => by
    have hop := sound_operand limit d
    refine sound_operandWith (fun ts e rest h => ?_) (fun ts e rest h => ?_)
    · obtain ⟨used, rfl, hrung⟩ := hop ts e rest h
      exact ⟨used, rfl, d, rfl, hrung⟩
    · obtain ⟨used, rfl, hrung⟩ := sound_climb hop ts e rest h
      exact ⟨used, rfl, .mk hrung⟩

theorem sound_expression (limit : Nat) : ∀ d, Sound (Parser.expression limit d) (Expression d)
  | 0 => .stuck _
  | d + 1 => by
    intro ts e rest h
    obtain ⟨used, rfl, hrung⟩ := sound_climb (sound_operand limit d) ts e rest h
    exact ⟨used, rfl, .mk hrung⟩

end Expressions

section Statements

variable {d : Nat} {ts rest : List Located} {expression : Parser Expr}

theorem sound_declaration (he : Sound expression (Expression d)) :
    Sound (declaration expression) (Statement d) := by
  intro ts stmt rest h
  obtain ⟨_, _, _, rfl, ⟨t, rfl, ht⟩, h₁⟩ := (sound_keyword .DECLARE).step h
  obtain ⟨names, us, _, rfl, hnames, h₂⟩ := (sound_commaList sound_name).step h₁
  obtain ⟨_, _, _, rfl, ⟨colon, rfl, hcolon⟩, h₃⟩ := (sound_symbol .colon).step h₂
  obtain ⟨isArray, _, _, rfl, harray, h₄⟩ := (sound_acceptKeyword .ARRAY).step h₃
  rcases harray with ⟨rfl, array, rfl, harray⟩ | ⟨rfl, rfl⟩
  · obtain ⟨_, _, _, rfl, ⟨l, rfl, hl⟩, h₅⟩ := (sound_symbol .leftBracket).step h₄
    obtain ⟨lower, vs, _, rfl, hlower, h₆⟩ := he.step h₅
    obtain ⟨_, _, _, rfl, ⟨between, rfl, hto⟩, h₇⟩ := (sound_symbol .colon).step h₆
    obtain ⟨upper, ws, _, rfl, hupper, h₈⟩ := he.step h₇
    obtain ⟨_, _, _, rfl, ⟨r, rfl, hr⟩, h₉⟩ := (sound_symbol .rightBracket).step h₈
    obtain ⟨_, _, _, rfl, ⟨of_, rfl, hof⟩, h₁₀⟩ := (sound_keyword .OF).step h₉
    obtain ⟨type, _, _, rfl, ⟨u, rfl, htype⟩, h₁₁⟩ := sound_typeName.step h₁₀
    cases h₁₁
    exact ⟨t :: us ++ colon :: array :: l :: vs ++ between :: ws ++ [r, of_, u], by simp,
      .declareArray ht hnames hcolon harray hl hlower hto hupper hr hof htype⟩
  · obtain ⟨type, _, _, rfl, ⟨u, rfl, htype⟩, h₅⟩ := sound_typeName.step h₄
    cases h₅
    exact ⟨t :: us ++ [colon, u], by simp, .declare ht hnames hcolon htype⟩

theorem sound_constant (he : Sound expression (Expression d)) :
    Sound (constant expression) (Statement d) := by
  intro ts stmt rest h
  obtain ⟨_, _, _, rfl, ⟨t, rfl, ht⟩, h₁⟩ := (sound_keyword .CONSTANT).step h
  obtain ⟨s, _, _, rfl, ⟨hs⟩, h₂⟩ := sound_name.step h₁
  obtain ⟨_, _, _, rfl, ⟨arrow, rfl, harrow⟩, h₃⟩ := (sound_symbol .assign).step h₂
  obtain ⟨e, us, _, rfl, he, h₄⟩ := he.step h₃
  cases h₄
  exact ⟨t :: _ :: arrow :: us, rfl, .constant ht hs harrow he⟩

theorem sound_assignment (he : Sound expression (Expression d)) :
    Sound (assignment expression) (Statement d) := by
  intro ts stmt rest h
  obtain ⟨s, _, _, rfl, ⟨hs⟩, h₁⟩ := sound_name.step h
  obtain ⟨_, _, _, rfl, ⟨arrow, rfl, harrow⟩, h₂⟩ := (sound_symbol .assign).step h₁
  obtain ⟨e, us, _, rfl, he, h₃⟩ := he.step h₂
  cases h₃
  exact ⟨_ :: arrow :: us, rfl, .assign hs harrow he⟩

theorem sound_fieldAssignment (he : Sound expression (Expression d)) :
    Sound (fieldAssignment expression) (Statement d) := by
  intro ts stmt rest h
  obtain ⟨s, _, _, rfl, ⟨hs⟩, h₁⟩ := sound_name.step h
  obtain ⟨_, _, _, rfl, ⟨dot, rfl, hdot⟩, h₂⟩ := (sound_symbol .dot).step h₁
  obtain ⟨field, _, _, rfl, ⟨hf⟩, h₃⟩ := sound_name.step h₂
  obtain ⟨_, _, _, rfl, ⟨arrow, rfl, harrow⟩, h₄⟩ := (sound_symbol .assign).step h₃
  obtain ⟨e, us, _, rfl, he, h₅⟩ := he.step h₄
  cases h₅
  exact ⟨_ :: dot :: _ :: arrow :: us, rfl, .assignField hs hdot hf harrow he⟩

theorem sound_elementAssignment (he : Sound expression (Expression d)) :
    Sound (elementAssignment expression) (Statement d) := by
  intro ts stmt rest h
  obtain ⟨s, _, _, rfl, ⟨hs⟩, h₁⟩ := sound_name.step h
  obtain ⟨_, _, _, rfl, ⟨l, rfl, hl⟩, h₂⟩ := (sound_symbol .leftBracket).step h₁
  obtain ⟨index, us, _, rfl, hindex, h₃⟩ := he.step h₂
  obtain ⟨_, _, _, rfl, ⟨r, rfl, hr⟩, h₄⟩ := (sound_symbol .rightBracket).step h₃
  obtain ⟨_, _, _, rfl, ⟨arrow, rfl, harrow⟩, h₅⟩ := (sound_symbol .assign).step h₄
  obtain ⟨e, vs, _, rfl, he, h₆⟩ := he.step h₅
  cases h₆
  exact ⟨_ :: l :: us ++ r :: arrow :: vs, by simp, .assignElement hs hl hindex hr harrow he⟩

theorem sound_invocation (he : Sound expression (Expression d)) :
    Sound (invocation expression)
      fun ts stmt => ∃ s args, stmt = .call s args ∧ Invocation d ts (s, args) := by
  intro ts stmt rest h
  obtain ⟨s, _, _, rfl, ⟨hs⟩, h₁⟩ := sound_name.step h
  obtain ⟨applied, _, _, rfl, rfl, h₂⟩ := (sound_atSymbol .leftParen).step h₁
  cases applied with
  | true =>
    obtain ⟨args, us, _, rfl, hargs, h₃⟩ := (sound_arguments he).step h₂
    cases h₃
    exact ⟨_ :: us, rfl, s, args, rfl, .applied hs hargs⟩
  | false =>
    obtain ⟨args, _, _, rfl, ⟨rfl, rfl⟩, h₃⟩ := (sound_pure []).step h₂
    cases h₃
    exact ⟨[_], rfl, s, [], rfl, .bare hs⟩

theorem sound_namedStatement (he : Sound expression (Expression d)) :
    Sound (namedStatement expression) (Statement d) := by
  intro ts stmt rest h
  obtain ⟨second, -, h⟩ := peekSecond_step h
  split at h
  · exact sound_assignment he _ _ _ h
  · exact sound_elementAssignment he _ _ _ h
  · exact sound_fieldAssignment he _ _ _ h
  · obtain ⟨used, rfl, s, args, rfl, hcall⟩ := sound_invocation he _ _ _ h
    exact ⟨used, rfl, .call hcall⟩

theorem sound_output (he : Sound expression (Expression d)) :
    Sound (output expression) (Statement d) := by
  intro ts stmt rest h
  obtain ⟨_, _, _, rfl, ⟨t, rfl, ht⟩, h₁⟩ := (sound_keyword .OUTPUT).step h
  obtain ⟨es, us, _, rfl, hes, h₂⟩ := (sound_commaList he).step h₁
  cases h₂
  exact ⟨t :: us, rfl, .output ht (expressions_of_commas hes)⟩

variable {block : List Keyword → Parser (List Stmt)}

/-- A block that is there only after a keyword. -/
theorem sound_alternative {α : Type} {k : Keyword} {p : Parser (List Stmt)}
    {f : List Stmt → Parser α} {a : α} (hp : Sound p (Block d))
    (h : (do let body ← if ← acceptKeyword k then p else pure []
             f body) ts = .ok (a, rest)) :
    ∃ body us vs, ts = us ++ vs ∧ Alternative d k us body ∧ f body vs = .ok (a, rest) := by
  obtain ⟨found, _, _, rfl, hfound, h₁⟩ := (sound_acceptKeyword k).step h
  rcases hfound with ⟨rfl, t, rfl, ht⟩ | ⟨rfl, rfl⟩
  · obtain ⟨body, us, vs, rfl, hbody, h₂⟩ := hp.step h₁
    exact ⟨body, t :: us, vs, rfl, .some ht hbody, h₂⟩
  · obtain ⟨body, _, vs, rfl, ⟨rfl, rfl⟩, h₂⟩ := (sound_pure []).step h₁
    exact ⟨[], [], vs, rfl, .none, h₂⟩

theorem sound_conditional (he : Sound expression (Expression d))
    (hb : ∀ closers, Sound (block closers) (Block d)) :
    Sound (conditional expression block) (Statement d) := by
  intro ts stmt rest h
  obtain ⟨_, _, _, rfl, ⟨t, rfl, ht⟩, h₁⟩ := (sound_keyword .IF).step h
  obtain ⟨e, us, _, rfl, he, h₂⟩ := he.step h₁
  obtain ⟨_, _, _, rfl, ⟨u, rfl, hu⟩, h₃⟩ := (sound_keyword .THEN).step h₂
  obtain ⟨yes, vs, _, rfl, hyes, h₄⟩ := (hb _).step h₃
  obtain ⟨no, ws, _, rfl, hno, h₅⟩ := sound_alternative (hb _) h₄
  obtain ⟨_, _, _, rfl, ⟨v, rfl, hv⟩, h₆⟩ := (sound_keyword .ENDIF).step h₅
  cases h₆
  exact ⟨t :: us ++ u :: vs ++ ws ++ [v], by simp, .ifElse ht he hu hyes hno hv⟩

theorem sound_whileLoop (he : Sound expression (Expression d))
    (hb : ∀ closers, Sound (block closers) (Block d)) :
    Sound (whileLoop expression block) (Statement d) := by
  intro ts stmt rest h
  obtain ⟨_, _, _, rfl, ⟨t, rfl, ht⟩, h₁⟩ := (sound_keyword .WHILE).step h
  obtain ⟨e, us, _, rfl, he, h₂⟩ := he.step h₁
  obtain ⟨_, _, _, rfl, ⟨u, rfl, hu⟩, h₃⟩ := (sound_keyword .DO).step h₂
  obtain ⟨body, vs, _, rfl, hbody, h₄⟩ := (hb _).step h₃
  obtain ⟨_, _, _, rfl, ⟨v, rfl, hv⟩, h₅⟩ := (sound_keyword .ENDWHILE).step h₄
  cases h₅
  exact ⟨t :: us ++ u :: vs ++ [v], by simp, .whileDo ht he hu hbody hv⟩

theorem sound_repeatLoop (he : Sound expression (Expression d))
    (hb : ∀ closers, Sound (block closers) (Block d)) :
    Sound (repeatLoop expression block) (Statement d) := by
  intro ts stmt rest h
  obtain ⟨_, _, _, rfl, ⟨t, rfl, ht⟩, h₁⟩ := (sound_keyword .REPEAT).step h
  obtain ⟨body, us, _, rfl, hbody, h₂⟩ := (hb _).step h₁
  obtain ⟨_, _, _, rfl, ⟨u, rfl, hu⟩, h₃⟩ := (sound_keyword .UNTIL).step h₂
  obtain ⟨e, vs, _, rfl, he, h₄⟩ := he.step h₃
  cases h₄
  exact ⟨t :: us ++ u :: vs, by simp, .repeatUntil ht hbody hu he⟩

theorem sound_counterAfterNext (line : Nat) :
    Sound (counterAfterNext (some line)) fun ts _ => AfterNext line ts := by
  intro ts a rest h
  obtain ⟨head, hhead, h⟩ := peek_step h
  split at h
  · obtain ⟨t, us, rfl, ht⟩ := head_eq_some hhead
    change (if some t.line = some line then skip else pure () : Parser Unit) (t :: us) = _ at h
    split at h
    · rename_i hline
      cases h
      exact ⟨[t], rfl, .counter ht (Option.some.inj hline)⟩
    · cases h
      exact ⟨[], rfl, .nothing⟩
  · cases h
    exact ⟨[], rfl, .nothing⟩

/-- A step that is there only after its keyword. -/
theorem sound_step {α : Type} {f : Expr → Parser α} {a : α} (he : Sound expression (Expression d))
    (h : (do let step ← if ← acceptKeyword .STEP then expression else pure (.literal (.number 1.0))
             f step) ts = .ok (a, rest)) :
    ∃ step us vs, ts = us ++ vs ∧ Step d us step ∧ f step vs = .ok (a, rest) := by
  obtain ⟨found, _, _, rfl, hfound, h₁⟩ := (sound_acceptKeyword .STEP).step h
  rcases hfound with ⟨rfl, t, rfl, ht⟩ | ⟨rfl, rfl⟩
  · obtain ⟨step, us, vs, rfl, hstep, h₂⟩ := he.step h₁
    exact ⟨step, t :: us, vs, rfl, .written ht hstep, h₂⟩
  · obtain ⟨step, _, vs, rfl, ⟨rfl, rfl⟩, h₂⟩ := (sound_pure _).step h₁
    exact ⟨_, [], vs, rfl, .unit, h₂⟩

theorem sound_forLoop (he : Sound expression (Expression d))
    (hb : ∀ closers, Sound (block closers) (Block d)) :
    Sound (forLoop expression block) (Statement d) := by
  intro ts stmt rest h
  obtain ⟨_, _, _, rfl, ⟨t, rfl, ht⟩, h₁⟩ := (sound_keyword .FOR).step h
  obtain ⟨s, _, _, rfl, ⟨hs⟩, h₂⟩ := sound_name.step h₁
  obtain ⟨_, _, _, rfl, ⟨arrow, rfl, harrow⟩, h₃⟩ := (sound_symbol .assign).step h₂
  obtain ⟨start, us, _, rfl, hstart, h₄⟩ := he.step h₃
  obtain ⟨_, _, _, rfl, ⟨u, rfl, hu⟩, h₅⟩ := (sound_keyword .TO).step h₄
  obtain ⟨stop, vs, _, rfl, hstop, h₆⟩ := he.step h₅
  obtain ⟨step, ws, _, rfl, hstep, h₇⟩ := sound_step he h₆
  obtain ⟨body, xs, _, rfl, hbody, h₈⟩ := (hb _).step h₇
  obtain ⟨line, hline, h₉⟩ := peekLine_step h₈
  obtain ⟨_, _, _, rfl, ⟨next, rfl, hnext⟩, h₁₀⟩ := (sound_keyword .NEXT).step h₉
  subst hline
  obtain ⟨_, ys, _, rfl, hcounter, h₁₁⟩ := (sound_counterAfterNext next.line).step h₁₀
  cases h₁₁
  exact ⟨t :: _ :: arrow :: us ++ u :: vs ++ ws ++ xs ++ next :: ys, by simp,
    .forTo ht hs harrow hstart hu hstop hstep hbody hnext hcounter⟩

theorem sound_clause {statement : Parser Stmt} (he : Sound expression (Expression d))
    (hs : Sound statement (Statement d)) :
    Sound (clause expression statement) fun ts c => ∃ us colon vs, ts = us ++ colon :: vs ∧
      Expression d us c.1 ∧ colon.token = .symbol .colon ∧ Statement d vs c.2 := by
  intro ts c rest h
  obtain ⟨value, us, _, rfl, hvalue, h₁⟩ := he.step h
  obtain ⟨_, _, _, rfl, ⟨colon, rfl, hcolon⟩, h₂⟩ := (sound_symbol .colon).step h₁
  obtain ⟨stmt, vs, _, rfl, hstmt, h₃⟩ := hs.step h₂
  cases h₃
  exact ⟨us ++ colon :: vs, by simp, us, colon, vs, rfl, hvalue, hcolon, hstmt⟩

theorem clauses_of_many {cs : List (Expr × Stmt)}
    (h : Many (fun ts c => ∃ us colon vs, ts = us ++ colon :: vs ∧ Expression d us c.1 ∧
      colon.token = .symbol .colon ∧ Statement d vs c.2) ts cs) : Clauses d ts cs := by
  induction h with
  | nil => exact .nil
  | cons h _ ih =>
    obtain ⟨us, colon, vs, rfl, hvalue, hcolon, hstmt⟩ := h
    exact .cons hvalue hcolon hstmt ih

theorem sound_selection {statement : Parser Stmt} (he : Sound expression (Expression d))
    (hb : ∀ closers, Sound (block closers) (Block d)) (hs : Sound statement (Statement d)) :
    Sound (selection expression block statement) (Statement d) := by
  intro ts stmt rest h
  obtain ⟨_, _, _, rfl, ⟨t, rfl, ht⟩, h₁⟩ := (sound_keyword .CASE).step h
  obtain ⟨_, _, _, rfl, ⟨of_, rfl, hof⟩, h₂⟩ := (sound_keyword .OF).step h₁
  obtain ⟨s, _, _, rfl, ⟨hs'⟩, h₃⟩ := sound_name.step h₂
  obtain ⟨clauses, us, _, rfl, hclauses, h₄⟩ := (sound_manyWhile (sound_clause he hs) _).step h₃
  obtain ⟨otherwise, vs, _, rfl, hotherwise, h₅⟩ := sound_alternative (hb _) h₄
  obtain ⟨_, _, _, rfl, ⟨v, rfl, hv⟩, h₆⟩ := (sound_keyword .ENDCASE).step h₅
  cases h₆
  exact ⟨t :: of_ :: _ :: us ++ vs ++ [v], by simp,
    .caseOf ht hof hs' (clauses_of_many hclauses) hotherwise hv⟩

theorem sound_statementWith {inner : Parser Stmt} (he : Sound expression (Expression d))
    (hb : ∀ closers, Sound (block closers) (Block d)) (hinner : Sound inner (Statement d)) :
    Sound (statementWith expression block inner) (Statement d) := by
  intro ts stmt rest h
  obtain ⟨head, hhead, h⟩ := peek_step h
  split at h
  · cases h
  · exact sound_declaration he _ _ _ h
  · exact sound_constant he _ _ _ h
  · exact sound_output he _ _ _ h
  · obtain ⟨t, us, rfl, ht⟩ := head_eq_some hhead
    rw [skip_bind] at h
    obtain ⟨s, _, _, rfl, ⟨hs⟩, h₁⟩ := sound_name.step h
    cases h₁
    exact ⟨[t, _], rfl, .input ht hs⟩
  · exact sound_conditional he hb _ _ _ h
  · exact sound_whileLoop he hb _ _ _ h
  · exact sound_repeatLoop he hb _ _ _ h
  · exact sound_forLoop he hb _ _ _ h
  · exact sound_selection he hb hinner _ _ _ h
  · obtain ⟨t, us, rfl, ht⟩ := head_eq_some hhead
    rw [skip_bind] at h
    obtain ⟨used, rfl, s, args, rfl, hcall⟩ := sound_invocation he _ _ _ h
    exact ⟨t :: used, rfl, .callWord ht hcall⟩
  · obtain ⟨t, us, rfl, ht⟩ := head_eq_some hhead
    rw [skip_bind] at h
    obtain ⟨e, vs, _, rfl, he, h₁⟩ := he.step h
    cases h₁
    exact ⟨t :: vs, rfl, .giveBack ht he⟩
  · cases h
  · exact sound_namedStatement he _ _ _ h
  · cases h

theorem sound_statementUpTo (he : Sound expression (Expression d))
    (hb : ∀ closers, Sound (block closers) (Block d)) (bound : List Located) :
    Sound (statementUpTo expression block bound) (Statement d) := by
  induction bound with
  | nil => exact .stuck _
  | cons t bound ih => exact sound_statementWith he hb ih

theorem statements_of_many {stmts : List Stmt} (h : Many (Statement d) ts stmts) :
    Statements d ts stmts := by
  induction h with
  | nil => exact .nil
  | cons h _ ih => exact .cons h ih

theorem sound_block_of_statement {p : Parser Stmt} (hp : Sound p (Statement d))
    (goesOn : List Located → Bool) : Sound (manyWhile goesOn p) (Block (d + 1)) := by
  intro ts stmts rest h
  obtain ⟨used, rfl, hmany⟩ := sound_manyWhile hp goesOn _ _ _ h
  exact ⟨used, rfl, .mk (statements_of_many hmany)⟩

theorem sound_statement (limit : Nat) : ∀ d, Sound (statement limit d) (Statement d)
  | 0 => fun ts => sound_statementUpTo (sound_expression limit 0) (fun _ => .stuck _) ts ts
  | d + 1 => fun ts => sound_statementUpTo (sound_expression limit (d + 1))
      (fun closers => sound_block_of_statement (sound_statement limit d) (isOpen closers)) ts ts

theorem sound_block (limit d : Nat) (closers : List Keyword) :
    Sound (Parser.block limit d closers) (Block d) := by
  cases d with
  | zero => exact .stuck _
  | succ d => exact sound_block_of_statement (sound_statement limit d) (isOpen closers)

end Statements

section Items

theorem sound_param : Sound param Grammar.Param := by
  intro ts p rest h
  obtain ⟨byRef, _, _, rfl, hbyRef, h₁⟩ := (sound_acceptKeyword .BYREF).step h
  rcases hbyRef with ⟨rfl, t, rfl, ht⟩ | ⟨rfl, rfl⟩
  · obtain ⟨s, _, _, rfl, ⟨hs⟩, h₂⟩ := sound_name.step h₁
    obtain ⟨_, _, _, rfl, ⟨colon, rfl, hcolon⟩, h₃⟩ := (sound_symbol .colon).step h₂
    obtain ⟨type, _, _, rfl, ⟨u, rfl, htype⟩, h₄⟩ := sound_typeName.step h₃
    cases h₄
    exact ⟨[t] ++ [_, colon, u], rfl, .mk (.byRef ht) hs hcolon htype⟩
  · obtain ⟨byVal, ms, _, rfl, hbyVal, h₂⟩ := (sound_acceptKeyword .BYVAL).step h₁
    have hmark : Mark ms false := by
      rcases hbyVal with ⟨-, t, rfl, ht⟩ | ⟨-, rfl⟩
      · exact .byVal ht
      · exact .none
    obtain ⟨s, _, _, rfl, ⟨hs⟩, h₃⟩ := sound_name.step h₂
    obtain ⟨_, _, _, rfl, ⟨colon, rfl, hcolon⟩, h₄⟩ := (sound_symbol .colon).step h₃
    obtain ⟨type, _, _, rfl, ⟨u, rfl, htype⟩, h₅⟩ := sound_typeName.step h₄
    cases h₅
    exact ⟨ms ++ [_, colon, u], by simp, .mk hmark hs hcolon htype⟩

theorem sound_params : Sound params Grammar.Params := by
  intro ts ps rest h
  obtain ⟨found, _, _, rfl, hfound, h₁⟩ := (sound_acceptSymbol .leftParen).step h
  rcases hfound with ⟨rfl, l, rfl, hl⟩ | ⟨rfl, rfl⟩
  · obtain ⟨empty, _, _, rfl, rfl, h₂⟩ := (sound_atSymbol .rightParen).step h₁
    cases empty with
    | true =>
      obtain ⟨_, _, _, rfl, ⟨rfl, rfl⟩, h₃⟩ := (sound_pure []).step h₂
      obtain ⟨_, _, _, rfl, ⟨r, rfl, hr⟩, h₄⟩ := (sound_symbol .rightParen).step h₃
      cases h₄
      exact ⟨[l, r], rfl, .empty hl hr⟩
    | false =>
      obtain ⟨ps, us, _, rfl, hps, h₃⟩ := (sound_commaList sound_param).step h₂
      obtain ⟨_, _, _, rfl, ⟨r, rfl, hr⟩, h₄⟩ := (sound_symbol .rightParen).step h₃
      cases h₄
      exact ⟨l :: us ++ [r], by simp, .some hl hps hr⟩
  · cases h₁
    exact ⟨[], rfl, .none⟩

theorem sound_fieldDecls : Sound fieldDecls Fields := by
  intro ts fields rest h
  obtain ⟨found, _, _, rfl, hfound, h₁⟩ := (sound_acceptKeyword .DECLARE).step h
  rcases hfound with ⟨rfl, t, rfl, ht⟩ | ⟨rfl, rfl⟩
  · obtain ⟨names, us, _, rfl, hnames, h₂⟩ := (sound_commaList sound_name).step h₁
    obtain ⟨_, _, _, rfl, ⟨colon, rfl, hcolon⟩, h₃⟩ := (sound_symbol .colon).step h₂
    obtain ⟨type, _, _, rfl, ⟨u, rfl, htype⟩, h₄⟩ := sound_typeName.step h₃
    cases h₄
    exact ⟨t :: us ++ [colon, u], by simp, .mk ht hnames hcolon htype⟩
  · cases h₁

variable (limit : Nat)

theorem sound_recordType :
    Sound recordType fun ts type => Grammar.Item limit ts (.recordType type) := by
  intro ts type rest h
  obtain ⟨_, _, _, rfl, ⟨t, rfl, ht⟩, h₁⟩ := (sound_keyword .TYPE).step h
  obtain ⟨s, _, _, rfl, ⟨hs⟩, h₂⟩ := sound_name.step h₁
  obtain ⟨fields, us, _, rfl, hfields, h₃⟩ := (sound_manyWhile sound_fieldDecls _).step h₂
  obtain ⟨_, _, _, rfl, ⟨v, rfl, hv⟩, h₄⟩ := (sound_keyword .ENDTYPE).step h₃
  cases h₄
  exact ⟨t :: _ :: us ++ [v], by simp, .recordType ht hs hfields hv⟩

theorem sound_procedure :
    Sound (procedure limit) fun ts sub => Grammar.Item limit ts (.subroutine sub) := by
  intro ts sub rest h
  obtain ⟨_, _, _, rfl, ⟨t, rfl, ht⟩, h₁⟩ := (sound_keyword .PROCEDURE).step h
  obtain ⟨s, _, _, rfl, ⟨hs⟩, h₂⟩ := sound_name.step h₁
  obtain ⟨ps, us, _, rfl, hps, h₃⟩ := sound_params.step h₂
  obtain ⟨body, vs, _, rfl, hbody, h₄⟩ := (sound_block limit limit _).step h₃
  obtain ⟨_, _, _, rfl, ⟨v, rfl, hv⟩, h₅⟩ := (sound_keyword .ENDPROCEDURE).step h₄
  cases h₅
  exact ⟨t :: _ :: us ++ vs ++ [v], by simp, .procedure ht hs hps hbody hv⟩

theorem sound_function :
    Sound (function limit) fun ts sub => Grammar.Item limit ts (.subroutine sub) := by
  intro ts sub rest h
  obtain ⟨_, _, _, rfl, ⟨t, rfl, ht⟩, h₁⟩ := (sound_keyword .FUNCTION).step h
  obtain ⟨s, _, _, rfl, ⟨hs⟩, h₂⟩ := sound_name.step h₁
  obtain ⟨ps, us, _, rfl, hps, h₃⟩ := sound_params.step h₂
  obtain ⟨_, _, _, rfl, ⟨r, rfl, hr⟩, h₄⟩ := (sound_keyword .RETURNS).step h₃
  obtain ⟨type, _, _, rfl, ⟨w, rfl, htype⟩, h₅⟩ := sound_typeName.step h₄
  obtain ⟨body, vs, _, rfl, hbody, h₆⟩ := (sound_block limit limit _).step h₅
  obtain ⟨_, _, _, rfl, ⟨v, rfl, hv⟩, h₇⟩ := (sound_keyword .ENDFUNCTION).step h₆
  cases h₇
  exact ⟨t :: _ :: us ++ r :: w :: vs ++ [v], by simp, .function ht hs hps hr htype hbody hv⟩

theorem sound_item : Sound (item limit) (Grammar.Item limit) := by
  intro ts i rest h
  obtain ⟨head, hhead, h⟩ := peek_step h
  split at h
  · obtain ⟨sub, us, _, rfl, hsub, h₁⟩ := (sound_procedure limit).step h
    cases h₁
    exact ⟨us, rfl, hsub⟩
  · obtain ⟨sub, us, _, rfl, hsub, h₁⟩ := (sound_function limit).step h
    cases h₁
    exact ⟨us, rfl, hsub⟩
  · obtain ⟨type, us, _, rfl, htype, h₁⟩ := (sound_recordType limit).step h
    cases h₁
    exact ⟨us, rfl, htype⟩
  · obtain ⟨stmt, us, _, rfl, hstmt, h₁⟩ := (sound_statement limit limit).step h
    cases h₁
    exact ⟨us, rfl, .statement hstmt⟩

variable {limit} {ts : List Located}

theorem item_ne_nil {i : Chalkboard.Item} (h : Grammar.Item limit ts i) : ts ≠ [] := by
  cases h with
  | statement h =>
    cases h with
    | call h => cases h <;> simp
    | _ => simp
  | _ => simp

/-- A program is read to its last token, since every item takes at least one. -/
theorem derives_of_program {p : Chalkboard.Program} {rest : List Located}
    (h : program limit ts = .ok (p, rest)) : rest = [] ∧ Grammar.Program limit ts p := by
  obtain ⟨items, us, h₁, h₂⟩ := bind_eq_ok h
  cases h₂
  obtain ⟨used, rfl, hmany, hstop⟩ := sound_repeatWhile (sound_item limit) _ h₁
  have hrest : rest = [] := by simpa using hstop item_ne_nil (Nat.le_refl _) rfl
  subst hrest
  exact ⟨rfl, by simpa [Grammar.Program] using hmany⟩

end Items

end Parser

/-- Whatever the parser accepts is a program of the grammar, all tokens taken once and in order, and
the result is the tree it is written for. -/
theorem parse_derives {size : Nat} {ts : List Located} {p : Program}
    (h : Program.parse size ts = .ok p) : Grammar.Program Parser.nestingLimit ts p := by
  unfold Program.parse Parser.parse at h
  split at h
  · rename_i hp
    cases h
    exact (Parser.derives_of_program hp).2
  · cases h

/-- The tokens of `FOR i ← a TO b` and of `NEXT i` on the second line. -/
def loopTokens : List Located :=
  [⟨.keyword .FOR, ⟨0, 1, 1⟩, 3⟩, ⟨.name "i", ⟨4, 1, 5⟩, 5⟩, ⟨.symbol .assign, ⟨6, 1, 7⟩, 9⟩,
    ⟨.name "a", ⟨10, 1, 9⟩, 11⟩, ⟨.keyword .TO, ⟨12, 1, 11⟩, 14⟩, ⟨.name "b", ⟨15, 1, 14⟩, 16⟩,
    ⟨.keyword .NEXT, ⟨17, 2, 1⟩, 21⟩, ⟨.name "i", ⟨22, 2, 6⟩, 23⟩]

/-- A loop without a step, which is closed with the name of its counter. -/
theorem parse_derives_loop :
    Program.parse 23 loopTokens =
      .ok ⟨[.statement (.forTo "i" (.var "a" none) (.var "b" none) (.literal (.number 1.0)) [])]⟩ ∧
    Grammar.Program Parser.nestingLimit loopTokens
      ⟨[.statement (.forTo "i" (.var "a" none) (.var "b" none) (.literal (.number 1.0)) [])]⟩ :=
  ⟨rfl, parse_derives (show Program.parse 23 loopTokens = _ from rfl)⟩

end Chalkboard
