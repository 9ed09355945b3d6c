import Chalkboard.Proofs.FirstOffender
import Chalkboard.Proofs.Walks

/-! # Walks that do what parsers do

A walk does on all tokens, from the cursor on, what the parser of the same name does on the tokens
that are left. It never needs more rounds or deeper calls than it is given, since every round and
every call inside of a call comes after a token that was taken. When it ends, in success or not,
only the cursor has moved.
-/

namespace Chalkboard

open Chalkboard.Parser (Cause Stuck Shortens Shrinks nestingLimit shrinks_operand
  shortens_statement)

namespace Walker

variable (w : Walker)

theorem left_eq : w.left = w.tokens.length - w.taken := List.length_drop

theorem left_le : w.left ≤ w.tokens.length := by
  rw [left_eq]
  exact Nat.sub_le _ _

theorem rest_move (k : Nat) : (w.move k).rest = w.rest.drop k := List.drop_drop.symm

theorem left_move (k : Nat) : (w.move k).left = w.left - k := by
  rw [left, rest_move, List.length_drop, left]

theorem left_move_le (k : Nat) : (w.move k).left ≤ w.left := by
  rw [left_move]
  exact Nat.sub_le _ _

theorem move_move (k j : Nat) : (w.move k).move j = w.move (k + j) := by
  simp only [move, Nat.add_assoc]

/-- What a walk makes of a walker, given what a parser makes of the tokens that are left. The cursor
goes to the tokens behind those that are read, or to the offending one, and nothing else changes. -/
inductive Tracks {α : Type} :
    Except Stuck (α × List Located) → EStateM.Result Halt Walker α → Prop where
  | ok {a : α} {k : Nat} (le : k ≤ w.left) : Tracks (.ok (a, (w.move k).rest)) (.ok a (w.move k))
  | refused {cause : Cause} {k : Nat} (le : k ≤ w.left) :
    Tracks (.error ⟨cause, (w.move k).rest⟩)
    (.error (.refused ((w.move k).errorHere cause)) (w.move k))

variable {w}

theorem rest_eq_nil (h : w.left ≤ 0) : w.rest = [] :=
  List.length_eq_zero_iff.mp (Nat.le_zero.mp h)

theorem Tracks.of_move {α : Type} {k : Nat} (hk : k ≤ w.left) {r : Except Stuck (α × List Located)}
    {r' : EStateM.Result Halt Walker α} (h : (w.move k).Tracks r r') : w.Tracks r r' := by
  have hle : ∀ {j}, j ≤ (w.move k).left → k + j ≤ w.left := by
    intro j hj
    rw [left_move] at hj
    omega
  cases h with
  | ok hj =>
    rw [move_move]
    exact .ok (hle hj)
  | refused hj =>
    rw [move_move]
    exact .refused (hle hj)

end Walker

/-- The operator that is next, if it is one of at least the given level. -/
def Parser.operatorFrom? (level : Nat) (ts : List Located) : Option BinaryOp :=
  (operatorAt? ts).filter fun op => level ≤ op.level

/-- Operands joined by operators of at least the given level. -/
def Parser.joined (operand : Parser Expr) (level : Nat) : Parser Expr := do
  let first ← operand
  climbOn operand level first

theorem Parser.name_eq_peek : Parser.name = (do
    match ← peek with
    | some (.name s) =>
      skip
      pure s
    | _ => stuck .expectedName) := by
  funext ts
  cases ts with
  | nil => rfl
  | cons t ts =>
    cases t with
    | mk token start stop => cases token <;> rfl

theorem Parser.typeName_eq_peek : Parser.typeName = (do
    match ← peek with
    | some (.name s) =>
      skip
      pure s
    | some (.keyword k) =>
      if k ∈ typeKeywords then
        skip
        pure k.text
      else stuck .expectedType
    | _ => stuck .expectedType) := by
  funext ts
  cases ts with
  | nil => rfl
  | cons t ts =>
    cases t with
    | mk token start stop =>
      cases token with
      | keyword k =>
        change (if k ∈ typeKeywords then _ else _) =
          (if k ∈ typeKeywords then _ else _ : Parser String) _
        split <;> rfl
      | _ => rfl

/-- The walk does at this walker what the parser does. -/
def Copies {α : Type} (m : Walk α) (p : Parser α) (w : Walker) : Prop := w.Tracks (p w.rest) (m w)

section Copies

variable {α β : Type} {m : Walk α} {p : Parser α} {f : α → Walk β} {g : α → Parser β} {w : Walker}

theorem Copies.pure (a : α) : Copies (pure a) (pure a) w := .ok (k := 0) (Nat.zero_le _)

theorem Copies.refuse (cause : Cause) :
    Copies (α := α) (Walk.refuse cause) (Parser.stuck cause) w :=
  .refused (k := 0) (Nat.zero_le _)

theorem Copies.bind (hm : Copies m p w)
    (hf : ∀ a k, p w.rest = .ok (a, (w.move k).rest) → Copies (f a) (g a) (w.move k)) :
    Copies (m >>= f) (p >>= g) w := by
  unfold Copies at hm ⊢
  generalize hr : p w.rest = r, hr' : m w = r' at hm
  cases hm with
  | @ok a k hk =>
    rw [Parser.bind_of_ok hr, show (m >>= f) w =
      f a (w.move k) by simp [Bind.bind, EStateM.bind, hr']]
    exact .of_move hk (hf a k hr)
  | @refused cause k hk =>
    rw [Parser.bind_of_error hr,
      show (m >>= f) w = .error (.refused ((w.move k).errorHere cause)) (w.move k) by
        simp [Bind.bind, EStateM.bind, hr']]
    exact .refused hk

theorem Copies.advance (w : Walker) : Copies Walk.advance Parser.skip w := by
  unfold Copies Walk.advance
  split
  · rename_i hlt
    have htail : Parser.skip w.rest = .ok ((), (w.move 1).rest) := by
      rw [w.rest_move, List.drop_one]
      rfl
    rw [htail]
    exact .ok (by rw [w.left_eq]; omega)
  · rename_i hle
    have hrest : w.rest = [] := List.drop_eq_nil_of_le (Nat.le_of_not_lt hle)
    have htail : Parser.skip w.rest = .ok ((), (w.move 0).rest) := by
      rw [w.rest_move, hrest]
      rfl
    rw [htail]
    exact .ok (k := 0) (Nat.zero_le _)

end Copies

section Taking

open Chalkboard.Parser Grammar

theorem shortens_stuck {α : Type} (cause : Cause) : Shortens (α := α) (stuck cause) := by
  intro ts a rest h
  cases h

theorem shortens_keyword (k : Keyword) : Shortens (keyword k) :=
  (sound_keyword k).shortens (by rintro _ _ ⟨t, rfl, -⟩; simp)

theorem shortens_name : Shortens name :=
  sound_name.shortens (by rintro _ _ ⟨-⟩; simp)

theorem shortens_param : Shortens Parser.param :=
  sound_param.shortens (by rintro _ _ ⟨-⟩; simp)

theorem rung_ne_nil {d n : Nat} {us : List Located} {e : Expr} : Rung d n us e → us ≠ []
  | .tighter _ h => rung_ne_nil h
  | .binary .. | .unary .. | .number .. | .text .. | .yes .. | .no .. | .parens ..
      | .var .. | .field ..
  | .element .. | .call .. => by simp

theorem expression_ne_nil {d : Nat} {us : List Located} {e : Expr}
    (h : Expression d us e) : us ≠ [] := by
  cases h with
  | mk h => exact rung_ne_nil h

theorem shortens_expression (limit d : Nat) : Shortens (Parser.expression limit d) :=
  (sound_expression limit d).shortens expression_ne_nil

end Taking

/-- The walk does what the parser does wherever fewer than `n` tokens are left and `d` levels may be
opened. -/
def Imitates {α : Type} (n d : Nat) (m : Walk α) (p : Parser α) : Prop :=
  ∀ w : Walker, w.left < n → w.levels = d → Copies m p w

/-- The walk does what the parser does wherever a token is next, no more than `n` are left and `d`
levels may be opened. -/
def ImitatesAhead {α : Type} (n d : Nat) (m : Walk α) (p : Parser α) : Prop :=
  ∀ w : Walker, w.rest ≠ [] → w.left ≤ n → w.levels = d → Copies m p w

section Ahead

variable {α : Type} {n d : Nat} {m : Walk α} {p : Parser α}

theorem ImitatesAhead.here (h : Imitates (n + 1) d m p) : ImitatesAhead n d m p :=
  fun w _ hw hd => h w (Nat.lt_succ_of_le hw) hd

theorem left_lt_of_skip {w : Walker} (hne : w.rest ≠ []) {k : Nat}
    (h : Parser.skip w.rest = .ok ((), (w.move k).rest)) : (w.move k).left < w.left := by
  obtain ⟨t, ts, hrest⟩ := List.exists_cons_of_ne_nil hne
  rw [hrest] at h
  obtain ⟨-, htail⟩ := Prod.mk.inj (Except.ok.inj h)
  rw [Walker.left, Walker.left, ← htail, hrest]
  exact Nat.lt_succ_self _

theorem ImitatesAhead.advance {f : Unit → Walk α} {g : Unit → Parser α}
    (hf : ∀ u, Imitates n d (f u) (g u)) :
    ImitatesAhead n d (Walk.advance >>= f) (Parser.skip >>= g) := by
  intro w hne hw hd
  refine (Copies.advance w).bind fun a k hok => hf a _ ?_ hd
  exact Nat.lt_of_lt_of_le (left_lt_of_skip hne hok) hw

end Ahead

namespace Imitates

variable {α β : Type} {n n' d : Nat} {m m' : Walk α} {p p' : Parser α} {f : α → Walk β}
  {g : α → Parser β}

theorem mono (h : Imitates n d m p) (hn : n' ≤ n) : Imitates n' d m p :=
  fun w hw hd => h w (Nat.lt_of_lt_of_le hw hn) hd

theorem zero : Imitates 0 d m p := fun _ hw => absurd hw (Nat.not_lt_zero _)

theorem pure (a : α) : Imitates n d (pure a) (pure a) := fun _ _ _ => .pure a

theorem refuse (cause : Cause) : Imitates (α := α) n d (Walk.refuse cause) (Parser.stuck cause) :=
  fun _ _ _ => .refuse cause

theorem bind (hm : Imitates n d m p) (hf : ∀ a, Imitates n d (f a) (g a)) :
    Imitates n d (m >>= f) (p >>= g) := by
  intro w hw hd
  refine (hm w hw hd).bind fun a k _ => hf a _ ?_ hd
  exact Nat.lt_of_le_of_lt (w.left_move_le k) hw

/-- After a parser that takes a token, fewer tokens are left. -/
theorem bindTaking (hm : Imitates (n + 1) d m p) (hp : Shortens p)
    (hf : ∀ a, Imitates n d (f a) (g a)) : Imitates (n + 1) d (m >>= f) (p >>= g) := by
  intro w hw hd
  refine (hm w hw hd).bind fun a k hok => hf a _ ?_ hd
  exact Nat.lt_of_lt_of_le (hp _ _ _ hok) (Nat.le_of_lt_succ hw)

theorem ite {c : Prop} [Decidable c] (hm : Imitates n d m p) (hm' : Imitates n d m' p') :
    Imitates n d (if c then m else m') (if c then p else p') := by
  split
  · exact hm
  · exact hm'

/-- Both go on in the same way after either branch. -/
theorem iteBind {c : Prop} [Decidable c] (hm : Imitates n d m p) (hm' : Imitates n d m' p')
    (hf : ∀ a, Imitates n d (f a) (g a)) :
    Imitates n d (if c then m >>= f else m' >>= f) (if c then p >>= g else p' >>= g) :=
  .ite (.bind hm hf) (.bind hm' hf)

/-! ## Single tokens -/

theorem peek : Imitates n d Walk.peek Parser.peek := fun _ _ _ => .ok (k := 0) (Nat.zero_le _)

theorem peekSecond :
    Imitates n d Walk.peekSecond Parser.peekSecond := fun _ _ _ => .ok (k := 0) (Nat.zero_le _)

theorem peekLine :
    Imitates n d Walk.peekLine Parser.peekLine := fun _ _ _ => .ok (k := 0) (Nat.zero_le _)

theorem advance : Imitates n d Walk.advance Parser.skip := fun w _ _ => .advance w

theorem atSymbol (s : Symbol) : Imitates n d (Walk.atSymbol s) (Parser.atSymbol s) :=
  fun _ _ _ => .ok (k := 0) (Nat.zero_le _)

/-- What is decided by the next tokens, they decide alike. -/
theorem decide {found : List Located → Bool} (hm : Imitates n d m p) (hm' : Imitates n d m' p') :
    Imitates n d (do if found (← Walk.here) then m else m') fun ts => if found ts then p ts
    else p' ts := by
  intro w hw hd
  change w.Tracks (if found w.rest then p w.rest else p' w.rest)
    ((if found w.rest then m else m') w)
  split
  · exact hm w hw hd
  · exact hm' w hw hd

theorem acceptSymbol (s : Symbol) : Imitates n d (Walk.acceptSymbol s) (Parser.acceptSymbol s) :=
  .decide (.bind .advance fun _ => .pure true) (.pure false)

theorem acceptKeyword (k : Keyword) :
    Imitates n d (Walk.acceptKeyword k) (Parser.acceptKeyword k) :=
  .decide (.bind .advance fun _ => .pure true) (.pure false)

theorem symbol (s : Symbol) : Imitates n d (Walk.symbol s) (Parser.symbol s) :=
  .decide .advance (.refuse _)

theorem keyword (k : Keyword) : Imitates n d (Walk.keyword k) (Parser.keyword k) :=
  .decide .advance (.refuse _)

/-- What is done about the next token may take it. -/
theorem ofPeek {f : Option Token → Walk α} {g : Option Token → Parser α}
    (hnone : Imitates (n + 1) d (f none) (g none))
    (hsome : ∀ t, ImitatesAhead n d (f (some t)) (g (some t))) :
    Imitates (n + 1) d (Walk.peek >>= f) (Parser.peek >>= g) := by
  intro w hw hd
  change Copies (f (w.rest.head?.map Located.token)) (g (w.rest.head?.map Located.token)) w
  cases hhead : w.rest.head?.map Located.token with
  | none => exact hnone w hw hd
  | some t =>
    refine hsome t w (fun hnil => ?_) (Nat.le_of_lt_succ hw) hd
    rw [hnil] at hhead
    cases hhead

theorem name : Imitates n d Walk.name Parser.name := by
  rw [Parser.name_eq_peek]
  refine .mono (.ofPeek (.refuse _) fun t => ?_) (Nat.le_succ n)
  cases t with
  | name s => exact .advance fun _ => .pure _
  | _ => exact .here (.refuse _)

theorem typeName : Imitates n d Walk.typeName Parser.typeName := by
  rw [Parser.typeName_eq_peek]
  refine .mono (.ofPeek (.refuse _) fun t => ?_) (Nat.le_succ n)
  cases t with
  | name s => exact .advance fun _ => .pure _
  | keyword k => exact .here (.ite (.bind .advance fun _ => .pure _) (.refuse _))
  | _ => exact .here (.refuse _)

/-! ## Repetitions -/

section Repetitions

variable {goesOn : List Located → Bool} (hm : Imitates n d m p) {w : Walker}

include hm

/-- By induction on the rounds, of which there are at least as many as tokens left: each one takes a
token. -/
theorem goWhile (hp : Shortens p) (hnil : goesOn [] = false) {rounds : Nat}
    (hrounds : w.left ≤ rounds) (hw : w.left < n) (hd : w.levels = d) :
    Copies (Walk.goWhile goesOn m rounds) (Parser.manyWhile goesOn p) w := by
  induction rounds generalizing w with
  | zero =>
    -- The rounds are used up only when the tokens are, and then the loop does not go on.
    have hrest := Walker.rest_eq_nil hrounds
    have hstop : goesOn w.rest = false := hrest ▸ hnil
    unfold Copies
    rw [Parser.manyWhile_eq hp hnil, hstop]
    change w.Tracks _ ((if goesOn w.rest then Walk.endless else Pure.pure []) w)
    rw [hstop]
    exact Copies.pure []
  | succ rounds ih =>
    unfold Copies
    rw [Parser.manyWhile_eq hp hnil]
    change w.Tracks _ ((if goesOn w.rest then _ else _ : Walk (List α)) w)
    split
    · refine Copies.bind (hm w hw hd) fun a k hok => ?_
      have hlt : (w.move k).left < w.left := hp _ _ _ hok
      exact (ih (w := w.move k) (by omega) (by omega) hd).bind fun as _ _ => .pure (a :: as)
    · exact Copies.pure []

theorem manyWhile (hp : Shortens p) (hnil : goesOn [] = false) :
    Imitates n d (Walk.manyWhile goesOn m) (Parser.manyWhile goesOn p) :=
  fun w hw hd => goWhile hm hp hnil w.left_le hw hd

theorem goAfterComma (hp : Shrinks p) {rounds : Nat} (hrounds : w.left ≤ rounds) (hw : w.left < n)
    (hd : w.levels = d) : Copies (Walk.goAfterComma m rounds) (Parser.moreAfterComma p) w := by
  induction rounds generalizing w with
  | zero =>
    have hrest := Walker.rest_eq_nil hrounds
    have hstop : Parser.startsWithSymbol .comma w.rest = false := by
      rw [hrest]
      rfl
    have hnone : Parser.moreAfterComma p w.rest = .ok ([], w.rest) := by
      rw [hrest]
      exact Parser.repeatAfterComma_nil []
    unfold Copies
    rw [hnone]
    change w.Tracks _
      ((if Parser.startsWithSymbol .comma w.rest then Walk.endless else Pure.pure []) w)
    rw [hstop]
    exact Copies.pure []
  | succ rounds ih =>
    rw [Parser.moreAfterComma_eq hp]
    refine Copies.bind (acceptSymbol (n := n) .comma w hw hd) fun found k hfound => ?_
    obtain ⟨-, hlt⟩ := Parser.acceptSymbol_length hfound
    cases found with
    | false => exact .pure []
    | true =>
      have hlt : (w.move k).left < w.left := hlt rfl
      refine Copies.bind (hm _ (by omega) hd) fun a j hok => ?_
      have hle : ((w.move k).move j).left ≤ (w.move k).left := hp _ _ _ hok
      exact (ih (w := (w.move k).move j) (by omega) (by omega) hd).bind fun as _ _ =>
        .pure (a :: as)

theorem commaList (hp : Shortens p) : Imitates n d (Walk.commaList m) (Parser.commaList p) := by
  intro w hw hd
  rw [Parser.commaList_eq]
  refine Copies.bind (hm w hw hd) fun a k hok => ?_
  have hlt : (w.move k).left < w.left := hp _ _ _ hok
  have hle := w.left_le
  have hrounds : (w.move k).left ≤ w.tokens.length - 1 := by omega
  have hmore := goAfterComma hm hp.shrinks hrounds (by omega) hd
  exact hmore.bind fun as _ _ => .pure (a :: as)

end Repetitions

/-! ## Levels -/

/-- One level deeper, one level less may be opened, and afterwards the counter is what it was. -/
theorem nested (hm : Imitates n d m p) : Imitates n (d + 1) (Walk.nested m) p := by
  intro w hw hd
  have hdepth : ¬ nestingLimit ≤ w.depth := by
    simp only [Walker.levels] at hd
    omega
  have hdeeper : ({ w with depth := w.depth + 1 } : Walker).levels = d := by
    simp only [Walker.levels] at hd ⊢
    omega
  have hres := hm { w with depth := w.depth + 1 } hw hdeeper
  unfold Copies at hres ⊢
  rw [Walk.nested, if_neg hdepth]
  change Walker.Tracks _ (p w.rest) _ at hres
  generalize p w.rest = r, m { w with depth := w.depth + 1 } = r' at hres
  cases hres with
  | ok hk => exact Walker.Tracks.ok (w := w) hk
  | refused hk => exact Walker.Tracks.refused (w := w) hk

theorem nested_of_none : Imitates n 0 (Walk.nested m) (Parser.stuck (.tooDeep nestingLimit)) := by
  intro w hw hd
  unfold Copies
  rw [Walk.nested, if_pos (Nat.le_of_sub_eq_zero hd)]
  exact Copies.refuse _

theorem counterAfterNext (line : Option Nat) :
    Imitates n d (Walk.counterAfterNext line) (Parser.counterAfterNext line) := by
  refine .bind .peek fun head => ?_
  cases head with
  | none => exact .pure ()
  | some t =>
    cases t with
    | name s => exact .bind .peekLine fun _ => .ite .advance (.pure ())
    | _ => exact .pure ()

/-! ## Expressions -/

section Expressions

variable {e : Walk Expr} {x : Parser Expr}

theorem arguments (he : Imitates n d e x) (hx : Shortens x) :
    Imitates n d (Walk.arguments e) (Parser.arguments x) :=
  .bind (.symbol .leftParen) fun _ => .bind (.atSymbol .rightParen) fun _ =>
    .iteBind (.pure []) (.commaList he hx) fun args =>
      .bind (.symbol .rightParen) fun _ => .pure args

theorem named (he : Imitates n d e x) (hx : Shortens x) (s : String) :
    Imitates n d (Walk.named e s) (Parser.named x s) := by
  refine .bind .peek fun head => ?_
  cases head with
  | none => exact .pure _
  | some t =>
    cases t with
    | symbol sym =>
      cases sym with
      | leftBracket =>
        exact .bind .advance fun _ => .bind he fun _ =>
          .bind (.symbol .rightBracket) fun _ => .pure _
      | leftParen => exact .bind (.arguments he hx) fun _ => .pure _
      | dot => exact .bind .advance fun _ => .bind .name fun _ => .pure _
      | _ => exact .pure _
    | _ => exact .pure _

theorem primary (he : Imitates n d e x) (hx : Shortens x) :
    Imitates (n + 1) d (Walk.primary e) (Parser.primary x) := by
  refine .ofPeek (.refuse _) fun t => ?_
  cases t with
  | number => exact .advance fun _ => .pure _
  | text => exact .advance fun _ => .pure _
  | keyword k =>
    cases k with
    | TRUE => exact .advance fun _ => .pure _
    | FALSE => exact .advance fun _ => .pure _
    | _ => exact .here (.refuse _)
  | symbol sym =>
    cases sym with
    | leftParen =>
      exact .advance fun _ => .bind he fun _ => .bind (.symbol .rightParen) fun _ => .pure _
    | _ => exact .here (.refuse _)
  | name s => exact .advance fun _ => .named he hx s

theorem unaryWith {u : Walk Expr} {o : Parser Expr} (ho : Imitates n d (Walk.nested u) o)
    (he : Imitates n d e x) (hx : Shortens x) :
    Imitates (n + 1) d (Walk.unaryWith u e) (Parser.operandWith o x) := by
  refine .ofPeek (.primary he hx) fun t => ?_
  simp only [Option.bind_some]
  cases Parser.unaryOp? t with
  | some op => exact .advance fun _ => .bind ho fun _ => .pure _
  | none => exact .here (.primary he hx)

end Expressions

section Climbing

variable {c : Nat} {u : Walk Expr} {o : Parser Expr} {b : Nat → Walk Expr}

theorem climbOn_step (ho : Shrinks o) (level : Nat) (left : Expr) (ts : List Located) :
    Parser.climbOn o level left ts =
      (match Parser.operatorFrom? level ts with
      | some op => do
        Parser.skip
        let right ← Parser.joined o (op.level + 1)
        Parser.climbOn o level (.binary op left right)
      | none => Pure.pure left) ts := by
  rw [Parser.climbOn_eq ho, Parser.operatorFrom?]
  cases Parser.operatorAt? ts with
  | none => rfl
  | some op =>
    by_cases hle : level ≤ op.level
    · simp only [Option.filter, hle, decide_true, if_true, Parser.joined, bind_assoc]
    · simp only [Option.filter, hle, decide_false, if_false, Bool.false_eq_true]
      rfl

/-- By induction on the rounds: each one takes an operator. -/
theorem chain (ho : Shrinks o) (hb : ∀ level, Imitates c d (b level) (Parser.joined o level))
    {level rounds : Nat}
    {left : Expr} {w : Walker} (hrounds : w.left ≤ rounds) (hc : w.left ≤ c) (hd : w.levels = d) :
    Copies (Walk.chain b level rounds left) (Parser.climbOn o level left) w := by
  induction rounds generalizing left w with
  | zero =>
    have hrest := Walker.rest_eq_nil hrounds
    have hnext : Parser.operatorFrom? level w.rest = none := by
      rw [hrest]
      rfl
    unfold Copies
    rw [climbOn_step ho, hnext]
    change w.Tracks _ ((match Parser.operatorFrom? level w.rest with
      | some _ => Walk.endless
      | none => Pure.pure left) w)
    rw [hnext]
    exact Copies.pure left
  | succ rounds ih =>
    unfold Copies
    rw [climbOn_step ho]
    change w.Tracks _ ((match Parser.operatorFrom? level w.rest with
      | some op => do
        Walk.advance
        let right ← b (op.level + 1)
        Walk.chain b level rounds (.binary op left right)
      | none => Pure.pure left) w)
    cases hnext : Parser.operatorFrom? level w.rest with
    | none => exact Copies.pure left
    | some op =>
      have hne : w.rest ≠ [] := by
        intro hnil
        rw [hnil] at hnext
        cases hnext
      refine Copies.bind (Copies.advance w) fun _ k hok => ?_
      have hlt := left_lt_of_skip hne hok
      refine Copies.bind (hb (op.level + 1) _ (by omega) hd) fun right j _ => ?_
      have hle := (w.move k).left_move_le j
      exact ih (w := (w.move k).move j) (by omega) (by omega) hd

/-- By induction on how deep the calls go: the operator before each call is a token less. -/
theorem binary (hu : Imitates n d u o) (ho : Shrinks o) {calls : Nat} (hcalls : calls ≤ n)
    (level : Nat) : Imitates calls d (Walk.binary u calls level) (Parser.joined o level) := by
  induction calls generalizing level with
  | zero => exact .zero
  | succ calls ih =>
    intro w hw hd
    refine Copies.bind (hu w (by omega) hd) fun first k hok => ?_
    have hle := w.left_move_le k
    exact chain ho (fun level => ih (by omega) level) (w.move k).left_le (by omega) hd

end Climbing

/-- By induction on how deep the calls go: what is called again comes after a sign, a parenthesis or
a name. -/
theorem unary (calls d : Nat) :
    Imitates calls d (Walk.unary calls) (Parser.operand nestingLimit d) := by
  induction calls generalizing d with
  | zero => exact .zero
  | succ calls ih =>
    cases d with
    | zero => exact .unaryWith .nested_of_none .nested_of_none (shortens_stuck _)
    | succ d =>
      have hx := shortens_expression nestingLimit (d + 1)
      exact .unaryWith (.nested (ih d)) (.nested
        (.binary (ih d) (shrinks_operand _ d) (Nat.le_refl _) 1)) hx

theorem expression (calls d : Nat) :
    Imitates calls d (Walk.expression calls) (Parser.expression nestingLimit d) := by
  cases d with
  | zero => exact .nested_of_none
  | succ d => exact .nested (.binary (.unary calls d) (shrinks_operand _ d) (Nat.le_refl _) 1)

/-! ## Statements -/

theorem clause {e : Walk Expr} {x : Parser Expr} (he : Imitates n d e x) {i : Walk Stmt}
    {z : Parser Stmt}
    (hi : Imitates n d i z) : Imitates n d (Walk.clause e i) (Parser.clause x z) :=
  .bind he fun _ => .bind (.symbol .colon) fun _ => .bind hi fun _ => .pure _

section Statements

variable {e : Walk Expr} {x : Parser Expr} (he : Imitates (n + 1) d e x)

include he

theorem declaration : Imitates (n + 1) d (Walk.declaration e) (Parser.declaration x) := by
  refine .bind (.keyword .DECLARE) fun _ => .bind (.commaList .name shortens_name) fun names => ?_
  refine .bind (.symbol .colon) fun _ => .bind (.acceptKeyword .ARRAY) fun _ => .ite ?_ ?_
  · refine .bind (.symbol .leftBracket) fun _ => .bind he fun lower => ?_
    refine .bind (.symbol .colon) fun _ => .bind he fun upper =>
      .bind (.symbol .rightBracket) fun _ => ?_
    exact .bind (.keyword .OF) fun _ => .bind .typeName fun type => .pure _
  · exact .bind .typeName fun type => .pure _

theorem constant : Imitates (n + 1) d (Walk.constant e) (Parser.constant x) :=
  .bind (.keyword .CONSTANT) fun _ => .bind .name fun _ => .bind (.symbol .assign) fun _ =>
    .bind he fun _ => .pure _

theorem assignment : Imitates (n + 1) d (Walk.assignment e) (Parser.assignment x) :=
  .bind .name fun _ => .bind (.symbol .assign) fun _ => .bind he fun _ => .pure _

theorem fieldAssignment : Imitates (n + 1) d (Walk.fieldAssignment e) (Parser.fieldAssignment x) :=
  .bind .name fun _ => .bind (.symbol .dot) fun _ => .bind .name fun _ =>
    .bind (.symbol .assign) fun _ =>
    .bind he fun _ => .pure _

theorem elementAssignment :
    Imitates (n + 1) d (Walk.elementAssignment e) (Parser.elementAssignment x) :=
  .bind .name fun _ => .bind (.symbol .leftBracket) fun _ => .bind he fun _ =>
    .bind (.symbol .rightBracket) fun _ => .bind (.symbol .assign) fun _ =>
      .bind he fun _ => .pure _

variable (hx : Shortens x)

include hx

theorem invocation : Imitates (n + 1) d (Walk.invocation e) (Parser.invocation x) :=
  .bind .name fun _ => .bind (.atSymbol .leftParen) fun _ =>
    .iteBind (.arguments he hx) (.pure []) fun _ => .pure _

theorem namedStatement : Imitates (n + 1) d (Walk.namedStatement e) (Parser.namedStatement x) := by
  refine .bind .peekSecond fun second => ?_
  cases second with
  | none => exact .invocation he hx
  | some t =>
    cases t with
    | symbol s =>
      cases s with
      | assign => exact .assignment he
      | leftBracket => exact .elementAssignment he
      | dot => exact .fieldAssignment he
      | _ => exact .invocation he hx
    | _ => exact .invocation he hx

theorem output : Imitates (n + 1) d (Walk.output e) (Parser.output x) :=
  .bind (.keyword .OUTPUT) fun _ => .bind (.commaList he hx) fun _ => .pure _

omit hx

variable {b : List Keyword → Walk (List Stmt)} {y : List Keyword → Parser (List Stmt)}
  (hb : ∀ closers, Imitates n d (b closers) (y closers))

include hb

theorem conditional : Imitates (n + 1) d (Walk.conditional e b) (Parser.conditional x y) := by
  have he' := he.mono (Nat.le_succ n)
  refine .bindTaking (.keyword .IF) (shortens_keyword _) fun _ => .bind he' fun _ => ?_
  refine .bind (.keyword .THEN) fun _ => .bind (hb _) fun _ =>
    .bind (.acceptKeyword .ELSE) fun _ => ?_
  exact .iteBind (hb _) (.pure []) fun _ => .bind (.keyword .ENDIF) fun _ => .pure _

theorem whileLoop : Imitates (n + 1) d (Walk.whileLoop e b) (Parser.whileLoop x y) := by
  have he' := he.mono (Nat.le_succ n)
  refine .bindTaking (.keyword .WHILE) (shortens_keyword _) fun _ => .bind he' fun _ => ?_
  exact .bind (.keyword .DO) fun _ => .bind (hb _) fun _ =>
    .bind (.keyword .ENDWHILE) fun _ => .pure _

theorem repeatLoop : Imitates (n + 1) d (Walk.repeatLoop e b) (Parser.repeatLoop x y) := by
  have he' := he.mono (Nat.le_succ n)
  refine .bindTaking (.keyword .REPEAT) (shortens_keyword _) fun _ => .bind (hb _) fun _ => ?_
  exact .bind (.keyword .UNTIL) fun _ => .bind he' fun _ => .pure _

theorem forLoop : Imitates (n + 1) d (Walk.forLoop e b) (Parser.forLoop x y) := by
  have he' := he.mono (Nat.le_succ n)
  refine .bindTaking (.keyword .FOR) (shortens_keyword _) fun _ => .bind .name fun _ => ?_
  refine .bind (.symbol .assign) fun _ => .bind he' fun _ => .bind (.keyword .TO) fun _ =>
    .bind he' fun _ => ?_
  refine .bind (.acceptKeyword .STEP) fun _ => .iteBind he' (.pure _) fun _ =>
    .bind (hb _) fun _ => ?_
  exact .bind .peekLine fun _ => .bind (.keyword .NEXT) fun _ =>
    .bind (.counterAfterNext _) fun _ => .pure _

variable {i : Walk Stmt} {z : Parser Stmt} (hi : Imitates n d i z)

include hi

theorem selection (hz : Shortens (Parser.clause x z)) :
    Imitates (n + 1) d (Walk.selection e b i) (Parser.selection x y z) := by
  refine .bindTaking (.keyword .CASE) (shortens_keyword _) fun _ => .bind (.keyword .OF) fun _ => ?_
  refine .bind .name fun _ => .bind (.manyWhile (.clause (he.mono (Nat.le_succ n)) hi) hz rfl)
    fun _ => ?_
  refine .bind (.acceptKeyword .OTHERWISE) fun _ => ?_
  exact .iteBind (hb _) (.pure []) fun _ => .bind (.keyword .ENDCASE) fun _ => .pure _

theorem statementWith (hx : Shortens x) (hz : Shortens (Parser.clause x z)) :
    Imitates (n + 1) d (Walk.statementWith e b i) (Parser.statementWith x y z) := by
  refine .bind .peek fun head => ?_
  cases head with
  | none => exact .refuse _
  | some t =>
    cases t with
    | keyword k =>
      cases k with
      | DECLARE => exact .declaration he
      | CONSTANT => exact .constant he
      | OUTPUT => exact .output he hx
      | INPUT => exact .bind .advance fun _ => .bind .name fun _ => .pure _
      | IF => exact .conditional he hb
      | WHILE => exact .whileLoop he hb
      | REPEAT => exact .repeatLoop he hb
      | FOR => exact .forLoop he hb
      | CASE => exact .selection he hb hi hz
      | CALL => exact .bind .advance fun _ => .invocation he hx
      | RETURN => exact .bind .advance fun _ => .bind he fun _ => .pure _
      | _ => exact .refuse _
    | name s => exact .namedStatement he hx
    | _ => exact .refuse _

end Statements

theorem body {s : Walk Stmt} (hs : ∀ d, Imitates n d s (Parser.statement nestingLimit d)) (d : Nat)
    (closers : List Keyword) :
    Imitates n d (Walk.body s closers) (Parser.block nestingLimit d closers) := by
  cases d with
  | zero => exact .nested_of_none
  | succ d => exact .nested (.manyWhile (hs d) (shortens_statement _ d) rfl)

/-- By induction on how deep the calls go: blocks and clauses are read after the first keyword of a
statement. -/
theorem statement (calls d : Nat) :
    Imitates calls d (Walk.statement calls) (Parser.statement nestingLimit d) := by
  induction calls generalizing d with
  | zero => exact .zero
  | succ calls ih =>
    have hx := shortens_expression nestingLimit d
    have hz : Shortens (Parser.clause (Parser.expression nestingLimit d)
        (Parser.statement nestingLimit d)) :=
      Parser.shortens_clause nestingLimit (Parser.sound_statement nestingLimit d)
    intro w hw hd
    unfold Copies
    rw [Parser.statement_eq nestingLimit d w.rest]
    exact statementWith (.expression (calls + 1) d) (body ih d) (ih d) hx hz w hw hd

/-! ## Items -/

theorem param : Imitates n d Walk.param Parser.param := by
  refine .bind (.acceptKeyword .BYREF) fun byRef => ?_
  have hrest : Imitates n d
      (do
        let s ← Walk.name
        Walk.symbol .colon
        return ⟨s, ← Walk.typeName, byRef⟩)
      (do
        let s ← Parser.name
        Parser.symbol .colon
        return (⟨s, ← Parser.typeName, byRef⟩ : Param)) :=
    .bind .name fun _ => .bind (.symbol .colon) fun _ => .bind .typeName fun _ => .pure _
  cases byRef with
  | true => exact hrest
  | false => exact .bind (.acceptKeyword .BYVAL) fun _ => hrest

theorem params : Imitates n d Walk.params Parser.params := by
  refine .bind (.acceptSymbol .leftParen) fun _ => .ite ?_ (.pure [])
  refine .bind (.atSymbol .rightParen) fun _ =>
    .iteBind (.pure []) (.commaList .param shortens_param) fun _ => ?_
  exact .bind (.symbol .rightParen) fun _ => .pure _

theorem fieldDecls : Imitates n d Walk.fieldDecls Parser.fieldDecls := by
  refine .bind (.acceptKeyword .DECLARE) fun found => ?_
  have hrest : Imitates n d
      (do
        let names ← Walk.commaList Walk.name
        Walk.symbol .colon
        let type ← Walk.typeName
        Pure.pure (names.map fun s => ⟨s, type⟩))
      (do
        let names ← Parser.commaList Parser.name
        Parser.symbol .colon
        let type ← Parser.typeName
        Pure.pure (names.map fun s => (⟨s, type⟩ : FieldDecl))) :=
    .bind (.commaList .name shortens_name) fun _ => .bind (.symbol .colon) fun _ =>
    .bind .typeName fun _ => .pure _
  cases found with
  | true => exact hrest
  | false => exact .bind (.refuse _) fun _ => hrest

theorem recordType : Imitates n d Walk.recordType Parser.recordType :=
  .bind (.keyword .TYPE) fun _ => .bind .name fun _ =>
    .bind (.manyWhile .fieldDecls Parser.shortens_fieldDecls rfl) fun _ =>
      .bind (.keyword .ENDTYPE) fun _ => .pure _

section Items

variable {b : List Keyword → Walk (List Stmt)}
  (hb : ∀ closers, Imitates n nestingLimit (b closers)
    (Parser.block nestingLimit nestingLimit closers))

include hb

theorem procedure : Imitates n nestingLimit (Walk.procedure b) (Parser.procedure nestingLimit) := by
  refine .bind (.keyword .PROCEDURE) fun _ => .bind .name fun _ => .bind .params fun _ => ?_
  exact .bind (hb _) fun _ => .bind (.keyword .ENDPROCEDURE) fun _ => .pure _

theorem function : Imitates n nestingLimit (Walk.function b) (Parser.function nestingLimit) := by
  refine .bind (.keyword .FUNCTION) fun _ => .bind .name fun _ => .bind .params fun _ => ?_
  refine .bind (.keyword .RETURNS) fun _ => .bind .typeName fun _ => ?_
  exact .bind (hb _) fun _ => .bind (.keyword .ENDFUNCTION) fun _ => .pure _

end Items

theorem item (calls : Nat) :
    Imitates calls nestingLimit (Walk.item calls) (Parser.item nestingLimit) := by
  have hb := body (statement calls) nestingLimit
  have hs := statement calls nestingLimit
  refine .bind .peek fun head => ?_
  cases head with
  | none => exact .bind hs fun _ => .pure _
  | some t =>
    cases t with
    | keyword k =>
      cases k with
      | PROCEDURE => exact .bind (.procedure hb) fun _ => .pure _
      | FUNCTION => exact .bind (.function hb) fun _ => .pure _
      | TYPE => exact .bind .recordType fun _ => .pure _
      | _ => exact .bind hs fun _ => .pure _
    | _ => exact .bind hs fun _ => .pure _

theorem program (calls : Nat) :
    Imitates calls nestingLimit (Walk.program calls) (Parser.program nestingLimit) :=
  .bind (.manyWhile (.item calls) (Parser.shortens_item _) rfl) fun _ => .pure _

end Imitates

end Chalkboard
