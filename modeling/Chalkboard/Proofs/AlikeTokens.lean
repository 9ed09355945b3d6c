import Chalkboard.Proofs.Parsing
import Chalkboard.Proofs.Renaming

/-! # Alike tokens

Two lists of tokens are alike if they differ only in where the tokens stand and in how names are
spelled, and if after each `NEXT` a name is on the same line in both or in neither. A parser that is
given alike tokens gives the same result but for the spelling of names, or gets stuck for the same
cause at alike tokens.
-/

namespace Chalkboard

def Token.rename (f : String → String) : Token → Token
  | .name s => .name (f s)
  | token => token

def Token.isName : Token → Bool
  | .name _ => true
  | _ => false

def Located.rename (f : String → String) (t : Located) : Located :=
  { t with token := t.token.rename f }

namespace Parser

/-- Do the tokens begin with `NEXT` and the name of a counter on the same line? -/
def namesCounter : List Located → Bool
  | next :: counter :: ts =>
    startsWithKeyword .NEXT (next :: counter :: ts) && counter.token.isName &&
      counter.line == next.line
  | _ => false

/-- Tokens that are the same but for the spelling of names, place by place related, and broken into
lines alike after `NEXT`. -/
inductive Alike (f : String → String) (R : Located → Located → Prop) :
    List Located → List Located → Prop where
  | nil : Alike f R [] []
  | cons {t u : Located} {ts us : List Located} (token : u.token = t.token.rename f) (place : R t u)
    (counter : namesCounter (u :: us) = namesCounter (t :: ts)) (rest : Alike f R ts us) :
    Alike f R (t :: ts) (u :: us)

namespace Alike

variable {f : String → String} {R : Located → Located → Prop} {ts us : List Located}

theorem tail (h : Alike f R ts us) : Alike f R ts.tail us.tail := by
  cases h with
  | nil => exact .nil
  | cons _ _ _ hrest => exact hrest

theorem head_token (h : Alike f R ts us) :
    us.head?.map Located.token = (ts.head?.map Located.token).map (Token.rename f) := by
  cases h with
  | nil => rfl
  | cons htoken => exact congrArg some htoken

theorem isEmpty (h : Alike f R ts us) : us.isEmpty = ts.isEmpty := by
  cases h <;> rfl

theorem startsWithSymbol (h : Alike f R ts us) (s : Symbol) :
    startsWithSymbol s us = startsWithSymbol s ts := by
  cases h with
  | nil => rfl
  | @cons t u _ _ htoken =>
    obtain ⟨token, start, stop⟩ := t
    obtain ⟨_, start', stop'⟩ := u
    obtain rfl := htoken
    cases token <;> rfl

theorem startsWithKeyword (h : Alike f R ts us) (k : Keyword) :
    startsWithKeyword k us = startsWithKeyword k ts := by
  cases h with
  | nil => rfl
  | @cons t u _ _ htoken =>
    obtain ⟨token, start, stop⟩ := t
    obtain ⟨_, start', stop'⟩ := u
    obtain rfl := htoken
    cases token <;> rfl

theorem isOpen (h : Alike f R ts us) (closers : List Keyword) :
    isOpen closers us = isOpen closers ts := by
  simp only [Parser.isOpen, h.isEmpty, h.startsWithKeyword]

end Alike

/-- Both parses succeed, with results that differ in the spelling of names only, or both get stuck
for the same cause; the tokens that are left are alike. -/
inductive AlikeResult {α β : Type} (f : String → String) (R : Located → Located → Prop)
    (φ : α → β) : Except Stuck (α × List Located) → Except Stuck (β × List Located) → Prop where
  | ok {a : α} {ts us : List Located} :
    Alike f R ts us → AlikeResult f R φ (.ok (a, ts)) (.ok (φ a, us))
  | stuck {cause : Cause} {ts us : List Located} :
    Alike f R ts us → AlikeResult f R φ (.error ⟨cause, ts⟩) (.error ⟨cause, us⟩)

/-- On alike tokens, the second parser does what the first one does. -/
def Similar {α β : Type} (f : String → String) (R : Located → Located → Prop) (φ : α → β)
    (p : Parser α) (q : Parser β) : Prop :=
  ∀ ts us, Alike f R ts us → AlikeResult f R φ (p ts) (q us)

namespace Similar

variable {f : String → String} {R : Located → Located → Prop} {α β γ δ : Type}
  {φ : α → β} {ψ : γ → δ}

theorem pure (a : α) : Similar f R φ (pure a) (pure (φ a)) := fun _ _ h => .ok h

theorem stuck (cause : Cause) : Similar f R φ (stuck cause) (stuck cause) := fun _ _ h => .stuck h

theorem bind {p : Parser α} {q : Parser β} {g : α → Parser γ} {g' : β → Parser δ}
    (hp : Similar f R φ p q) (hg : ∀ a, Similar f R ψ (g a) (g' (φ a))) :
    Similar f R ψ (p >>= g) (q >>= g') := by
  intro ts us h
  generalize hr : p ts = r, hr' : q us = r'
  have hres := hp _ _ h
  rw [hr, hr'] at hres
  cases hres with
  | @ok a ts' us' hrest =>
    rw [bind_of_ok hr, bind_of_ok hr']
    exact hg a _ _ hrest
  | stuck hrest =>
    rw [bind_of_error hr, bind_of_error hr']
    exact .stuck hrest

theorem ite {c : Prop} [Decidable c] {p p' : Parser α} {q q' : Parser β} (hp : Similar f R φ p q)
    (hp' : Similar f R φ p' q') : Similar f R φ (if c then p else p') (if c then q else q') := by
  split
  · exact hp
  · exact hp'

/-- The parsers go on in the same way after either branch. -/
theorem iteBind {c : Prop} [Decidable c] {p p' : Parser α} {q q' : Parser β} {g : α → Parser γ}
    {g' : β → Parser δ} (hp : Similar f R φ p q) (hp' : Similar f R φ p' q')
    (hg : ∀ a, Similar f R ψ (g a) (g' (φ a))) :
    Similar f R ψ (if c then p >>= g else p' >>= g) (if c then q >>= g' else q' >>= g') :=
  .ite (.bind hp hg) (.bind hp' hg)

theorem ifGoesOn {goesOn : List Located → Bool}
    (hgo : ∀ {ts us}, Alike f R ts us → goesOn us = goesOn ts) {p p' : Parser α} {q q' : Parser β}
    (hp : Similar f R φ p q) (hp' : Similar f R φ p' q') :
    Similar f R φ (do if goesOn (← get) then p else p') (do if goesOn (← get) then q else q') := by
  intro ts us h
  change AlikeResult f R φ ((if goesOn ts then p else p') ts) ((if goesOn us then q else q') us)
  rw [hgo h]
  exact ite hp hp' ts us h

/-! ## Single tokens -/

theorem skip : Similar f R id skip skip := fun _ _ h => .ok h.tail

theorem peek : Similar f R (Option.map (Token.rename f)) peek peek := by
  intro ts us h
  rw [Parser.peek, Parser.peek, h.head_token]
  exact .ok h

theorem peekSecond : Similar f R (Option.map (Token.rename f)) peekSecond peekSecond := by
  intro ts us h
  rw [Parser.peekSecond, Parser.peekSecond, h.tail.head_token]
  exact .ok h

theorem atSymbol (s : Symbol) : Similar f R id (atSymbol s) (atSymbol s) := by
  intro ts us h
  rw [Parser.atSymbol, Parser.atSymbol, h.startsWithSymbol]
  exact .ok h

theorem acceptSymbol (s : Symbol) : Similar f R id (acceptSymbol s) (acceptSymbol s) := by
  intro ts us h
  rw [Parser.acceptSymbol, Parser.acceptSymbol, h.startsWithSymbol]
  split
  · exact .ok h.tail
  · exact .ok h

theorem acceptKeyword (k : Keyword) : Similar f R id (acceptKeyword k) (acceptKeyword k) := by
  intro ts us h
  rw [Parser.acceptKeyword, Parser.acceptKeyword, h.startsWithKeyword]
  split
  · exact .ok h.tail
  · exact .ok h

theorem symbol (s : Symbol) : Similar f R id (symbol s) (symbol s) := by
  intro ts us h
  rw [Parser.symbol, Parser.symbol, h.startsWithSymbol]
  split
  · exact .ok h.tail
  · exact .stuck h

theorem keyword (k : Keyword) : Similar f R id (keyword k) (keyword k) := by
  intro ts us h
  rw [Parser.keyword, Parser.keyword, h.startsWithKeyword]
  split
  · exact .ok h.tail
  · exact .stuck h

theorem name : Similar f R f name name := by
  intro ts us h
  cases h with
  | nil => exact .stuck .nil
  | @cons t u _ _ htoken hplace hcounter hrest =>
    have halike := Alike.cons htoken hplace hcounter hrest
    obtain ⟨token, start, stop⟩ := t
    obtain ⟨_, start', stop'⟩ := u
    obtain rfl := htoken
    cases token with
    | name s => exact .ok hrest
    | _ => exact .stuck halike

/-- The names of the built-in types are spelled as they are. -/
def KeepsTypes (f : String → String) : Prop := ∀ k ∈ typeKeywords, f k.text = k.text

theorem typeName (hf : KeepsTypes f) : Similar f R f typeName typeName := by
  intro ts us h
  cases h with
  | nil => exact .stuck .nil
  | @cons t u ts us htoken hplace hcounter hrest =>
    have halike := Alike.cons htoken hplace hcounter hrest
    obtain ⟨token, start, stop⟩ := t
    obtain ⟨_, start', stop'⟩ := u
    obtain rfl := htoken
    cases token with
    | name s => exact .ok hrest
    | keyword k =>
      simp only [Parser.typeName, Token.rename]
      split
      · rename_i hk
        have hok := AlikeResult.ok (φ := f) (a := k.text) hrest
        rwa [hf k hk] at hok
      · exact .stuck halike
    | _ => exact .stuck halike

/-! ## Looking ahead -/

/-- Both parsers look at the next token, or the one after it: only what they do about a name
differs. -/
theorem of_look {look : Parser (Option Token)} {g : Option Token → Parser α}
    {g' : Option Token → Parser β} (hlook : Similar f R (Option.map (Token.rename f)) look look)
    (hname : ∀ s, Similar f R φ (g (some (.name s))) (g' (some (.name (f s)))))
    (hother : ∀ head, (∀ s, head ≠ some (.name s)) → Similar f R φ (g head) (g' head)) :
    Similar f R φ (look >>= g) (look >>= g') := by
  refine .bind hlook fun head => ?_
  cases head with
  | none => exact hother none (by simp)
  | some token =>
    cases token with
    | name s => exact hname s
    | _ => exact hother (some _) (by simp)

/-! ## Repetitions -/

section Repetitions

variable {p : Parser α} {q : Parser β} (hp : Similar f R φ p q) {bound bound' : List Located}

include hp

theorem repeatWhile {goesOn : List Located → Bool}
    (hgo : ∀ {ts us}, Alike f R ts us → goesOn us = goesOn ts) (hb : Alike f R bound bound') :
    Similar f R (List.map φ) (repeatWhile goesOn p bound) (repeatWhile goesOn q bound') := by
  induction hb with
  | nil => exact .pure []
  | cons _ _ _ _ ih =>
    exact .ifGoesOn hgo (.bind hp fun a => .bind ih fun as => .pure (a :: as)) (.pure [])

theorem manyWhile {goesOn : List Located → Bool}
    (hgo : ∀ {ts us}, Alike f R ts us → goesOn us = goesOn ts) :
    Similar f R (List.map φ) (manyWhile goesOn p) (manyWhile goesOn q) :=
  fun _ _ h => repeatWhile hp hgo h _ _ h

theorem repeatAfterComma (hb : Alike f R bound bound') :
    Similar f R (List.map φ) (repeatAfterComma p bound) (repeatAfterComma q bound') := by
  induction hb with
  | nil => exact .pure []
  | cons _ _ _ _ ih =>
    refine .bind (.acceptSymbol .comma) fun _ => .ite ?_ (.pure [])
    exact .bind hp fun a => .bind ih fun as => .pure (a :: as)

theorem commaList : Similar f R (List.map φ) (commaList p) (commaList q) :=
  .bind hp fun a => .bind (fun _ _ h => repeatAfterComma hp h _ _ h) fun as => .pure (a :: as)

end Repetitions

/-! ## Expressions -/

section Expressions

variable {expression operand : Parser Expr} (he : Similar f R (Expr.rename f) expression expression)

include he

theorem arguments :
    Similar f R (List.map (Expr.rename f)) (arguments expression) (arguments expression) :=
  .bind (.symbol .leftParen) fun _ => .bind (.atSymbol .rightParen) fun _ =>
    .iteBind (.pure []) (.commaList he) fun args => .bind (.symbol .rightParen) fun _ => .pure args

theorem named (s : String) :
    Similar f R (Expr.rename f) (named expression s) (named expression (f s)) := by
  refine .of_look .peek (fun _ => .pure (Expr.var s none)) fun head hname => ?_
  split
  · refine .bind .skip fun _ => .bind he fun index => .bind (.symbol .rightBracket) fun _ => ?_
    exact .pure (Expr.element s index)
  · refine .bind (.arguments he) fun args => ?_
    rw [← Expr.renameAll_eq_map]
    exact .pure (Expr.call s args)
  · exact .bind .skip fun _ => .bind .name fun field => .pure (Expr.var s (some field))
  · exact .pure (Expr.var s none)

theorem primary : Similar f R (Expr.rename f) (primary expression) (primary expression) := by
  refine .of_look .peek (fun s => .bind .skip fun _ => .named he s) fun head hname => ?_
  split
  · exact .stuck _
  · exact .bind .skip fun _ => .pure (Expr.literal _)
  · exact .bind .skip fun _ => .pure (Expr.literal _)
  · exact .bind .skip fun _ => .pure (Expr.literal _)
  · exact .bind .skip fun _ => .pure (Expr.literal _)
  · exact .bind .skip fun _ => .bind he fun e => .bind (.symbol .rightParen) fun _ => .pure e
  · exact absurd rfl (hname _)
  · exact .stuck _

end Expressions

theorem unaryOp?_rename (head : Option Token) :
    (head.map (Token.rename f)).bind unaryOp? = head.bind unaryOp? := by
  cases head with
  | none => rfl
  | some token => cases token <;> rfl

theorem binaryOp?_rename (head : Option Token) :
    (head.map (Token.rename f)).bind binaryOp? = head.bind binaryOp? := by
  cases head with
  | none => rfl
  | some token => cases token <;> rfl

theorem operandWith {operand expression : Parser Expr}
    (ho : Similar f R (Expr.rename f) operand operand)
    (he : Similar f R (Expr.rename f) expression expression) :
    Similar f R (Expr.rename f) (operandWith operand expression)
    (operandWith operand expression) := by
  refine .bind .peek fun head => ?_
  rw [unaryOp?_rename]
  split
  · exact .bind .skip fun _ => .bind ho fun e => .pure (Expr.unary _ e)
  · exact .primary he

theorem climbFrom {operand : Parser Expr} (ho : Similar f R (Expr.rename f) operand operand)
    {bound bound' : List Located} (hb : Alike f R bound bound') (level : Nat) (left : Expr) :
    Similar f R (Expr.rename f) (climbFrom operand bound level left)
      (climbFrom operand bound' level (left.rename f)) := by
  induction hb generalizing level left with
  | nil => exact .pure left
  | cons _ _ _ _ ih =>
    refine .bind .peek fun head => ?_
    rw [binaryOp?_rename]
    split
    · refine .ite (.bind .skip fun _ => .bind ho fun first => ?_) (.pure left)
      exact .bind (ih _ first) fun right => ih level (.binary _ left right)
    · exact .pure left

theorem climb {operand : Parser Expr} (ho : Similar f R (Expr.rename f) operand operand) :
    Similar f R (Expr.rename f) (climb operand) (climb operand) :=
  .bind ho fun first _ _ h => climbFrom ho h 1 first _ _ h

theorem operand (limit : Nat) : ∀ d, Similar f R (Expr.rename f) (operand limit d) (operand limit d)
  | 0 => .operandWith (.stuck _) (.stuck _)
  | d + 1 => .operandWith (operand limit d) (.climb (operand limit d))

theorem expression (limit : Nat) : ∀ d,
    Similar f R (Expr.rename f) (expression limit d) (expression limit d)
  | 0 => .stuck _
  | d + 1 => .climb (.operand limit d)

/-! ## Statements -/

section Statements

variable {expression : Parser Expr} (he : Similar f R (Expr.rename f) expression expression)

include he

theorem declaration (hf : KeepsTypes f) :
    Similar f R (Stmt.rename f) (declaration expression) (declaration expression) := by
  refine .bind (.keyword .DECLARE) fun _ => .bind (.commaList .name) fun names => ?_
  refine .bind (.symbol .colon) fun _ => .bind (.acceptKeyword .ARRAY) fun _ => .ite ?_ ?_
  · refine .bind (.symbol .leftBracket) fun _ => .bind he fun lower => ?_
    refine .bind (.symbol .colon) fun _ => .bind he fun upper =>
      .bind (.symbol .rightBracket) fun _ => ?_
    refine .bind (.keyword .OF) fun _ => .bind (.typeName hf) fun type => ?_
    exact .pure (Stmt.declareArray names lower upper type)
  · exact .bind (.typeName hf) fun type => .pure (Stmt.declare names type)

theorem constant : Similar f R (Stmt.rename f) (constant expression) (constant expression) :=
  .bind (.keyword .CONSTANT) fun _ => .bind .name fun s => .bind (.symbol .assign) fun _ =>
    .bind he fun e => .pure (Stmt.constant s e)

theorem assignment : Similar f R (Stmt.rename f) (assignment expression) (assignment expression) :=
  .bind .name fun s => .bind (.symbol .assign) fun _ => .bind he fun e =>
    .pure (Stmt.assign s none e)

theorem fieldAssignment :
    Similar f R (Stmt.rename f) (fieldAssignment expression) (fieldAssignment expression) :=
  .bind .name fun s => .bind (.symbol .dot) fun _ => .bind .name fun field =>
    .bind (.symbol .assign) fun _ => .bind he fun e => .pure (Stmt.assign s (some field) e)

theorem elementAssignment :
    Similar f R (Stmt.rename f) (elementAssignment expression) (elementAssignment expression) :=
  .bind .name fun s => .bind (.symbol .leftBracket) fun _ => .bind he fun index =>
    .bind (.symbol .rightBracket) fun _ => .bind (.symbol .assign) fun _ =>
      .bind he fun e => .pure (Stmt.assignElement s index e)

theorem invocation :
    Similar f R (Stmt.rename f) (invocation expression) (invocation expression) := by
  refine .bind .name fun s => .bind (.atSymbol .leftParen) fun _ => ?_
  refine .iteBind (.arguments he) (.pure []) fun args => ?_
  rw [← Expr.renameAll_eq_map]
  exact .pure (Stmt.call s args)

theorem namedStatement :
    Similar f R (Stmt.rename f) (namedStatement expression) (namedStatement expression) := by
  refine .of_look .peekSecond (fun s => .invocation he) fun second _ => ?_
  split
  · exact .assignment he
  · exact .elementAssignment he
  · exact .fieldAssignment he
  · exact .invocation he

theorem output : Similar f R (Stmt.rename f) (output expression) (output expression) := by
  refine .bind (.keyword .OUTPUT) fun _ => .bind (.commaList he) fun exprs => ?_
  rw [← Expr.renameAll_eq_map]
  exact .pure (Stmt.output exprs)

variable {block : List Keyword → Parser (List Stmt)}
  (hblock : ∀ closers, Similar f R (List.map (Stmt.rename f)) (block closers) (block closers))

include hblock

theorem conditional :
    Similar f R (Stmt.rename f) (conditional expression block) (conditional expression block) := by
  refine .bind (.keyword .IF) fun _ => .bind he fun condition => .bind (.keyword .THEN) fun _ => ?_
  refine .bind (hblock _) fun yes => .bind (.acceptKeyword .ELSE) fun _ => ?_
  refine .iteBind (hblock _) (.pure []) fun no => .bind (.keyword .ENDIF) fun _ => ?_
  rw [← Stmt.renameAll_eq_map, ← Stmt.renameAll_eq_map]
  exact .pure (Stmt.ifElse condition yes no)

theorem whileLoop :
    Similar f R (Stmt.rename f) (whileLoop expression block) (whileLoop expression block) := by
  refine .bind (.keyword .WHILE) fun _ => .bind he fun condition => .bind (.keyword .DO) fun _ => ?_
  refine .bind (hblock _) fun body => .bind (.keyword .ENDWHILE) fun _ => ?_
  rw [← Stmt.renameAll_eq_map]
  exact .pure (Stmt.whileDo condition body)

theorem repeatLoop :
    Similar f R (Stmt.rename f) (repeatLoop expression block) (repeatLoop expression block) := by
  refine .bind (.keyword .REPEAT) fun _ => .bind (hblock _) fun body => ?_
  refine .bind (.keyword .UNTIL) fun _ => .bind he fun condition => ?_
  rw [← Stmt.renameAll_eq_map]
  exact .pure (Stmt.repeatUntil body condition)

end Statements

/-- After `NEXT`, the name on the same line is taken if there is one. -/
theorem counterAfterNext_eq (next : Position) (stop : Nat) (ts : List Located) :
    counterAfterNext (some next.line) ts =
      .ok ((), if namesCounter (⟨.keyword .NEXT, next, stop⟩ :: ts) then ts.tail else ts) := by
  cases ts with
  | nil => rfl
  | cons t ts =>
    obtain ⟨token, start, stop'⟩ := t
    cases token with
    | name s =>
      change (if some start.line = some next.line then Parser.skip else Pure.pure ()) _ =
        .ok ((), if (start.line == next.line) = true then _ else _)
      by_cases hline : start.line = next.line
      · simp [hline, Parser.skip]
      · simp [hline]
        rfl
    | _ => rfl

/-- `NEXT` and the name of the counter, if it is on the same line. -/
theorem nextCounter {g : Unit → Parser α} {g' : Unit → Parser β}
    (hg : ∀ u, Similar f R φ (g u) (g' u)) :
    Similar f R φ
      (do
        let line ← peekLine
        Parser.keyword .NEXT
        let u ← counterAfterNext line
        g u)
      (do
        let line ← peekLine
        Parser.keyword .NEXT
        let u ← counterAfterNext line
        g' u) := by
  intro ts us h
  change AlikeResult f R φ ((Parser.keyword .NEXT >>= fun _ =>
      counterAfterNext (ts.head?.map Located.line) >>= g) ts)
    ((Parser.keyword .NEXT >>= fun _ => counterAfterNext (us.head?.map Located.line) >>= g') us)
  cases hnext : startsWithKeyword .NEXT ts with
  | false =>
    have hts : Parser.keyword .NEXT ts = .error ⟨.expectedKeyword .NEXT, ts⟩ := by
      simp [Parser.keyword, hnext]
    have hus : Parser.keyword .NEXT us = .error ⟨.expectedKeyword .NEXT, us⟩ := by
      simp [Parser.keyword, h.startsWithKeyword, hnext]
    rw [bind_of_error hts, bind_of_error hus]
    exact .stuck h
  | true =>
    obtain ⟨⟨_, next, stop⟩, ts, rfl, rfl⟩ := startsWithKeyword_iff.mp hnext
    cases h with
    | @cons _ u _ us htoken hplace hcounter hrest =>
      obtain ⟨_, next', stop'⟩ := u
      obtain rfl := htoken
      have hts := counterAfterNext_eq next stop ts
      have hus := counterAfterNext_eq next' stop' us
      -- The lines of the two `NEXT` may differ, but the name after them is taken by both or by
      -- neither.
      rw [show namesCounter (⟨.keyword .NEXT, next', stop'⟩ :: us) = _ from hcounter] at hus
      change AlikeResult f R φ ((counterAfterNext (some next.line) >>= g) ts)
        ((counterAfterNext (some next'.line) >>= g') us)
      rw [bind_of_ok hts, bind_of_ok hus]
      split
      · exact hg () _ _ hrest.tail
      · exact hg () _ _ hrest

section Blocks

variable {expression : Parser Expr} (he : Similar f R (Expr.rename f) expression expression)
  {block : List Keyword → Parser (List Stmt)}
  (hblock : ∀ closers, Similar f R (List.map (Stmt.rename f)) (block closers) (block closers))
  {inner inner' : Parser Stmt}

include he

theorem clause (hi : Similar f R (Stmt.rename f) inner inner') :
    Similar f R (Prod.map (Expr.rename f) (Stmt.rename f)) (clause expression inner)
      (clause expression inner') :=
  .bind he fun value => .bind (.symbol .colon) fun _ => .bind hi fun stmt => .pure (value, stmt)

include hblock

theorem forLoop :
    Similar f R (Stmt.rename f) (forLoop expression block) (forLoop expression block) := by
  refine .bind (.keyword .FOR) fun _ => .bind .name fun counter =>
    .bind (.symbol .assign) fun _ => ?_
  refine .bind he fun start => .bind (.keyword .TO) fun _ => .bind he fun stop => ?_
  refine .bind (.acceptKeyword .STEP) fun _ => .iteBind he (.pure (Expr.literal _)) fun step => ?_
  refine .bind (hblock _) fun body => .nextCounter fun _ => ?_
  rw [← Stmt.renameAll_eq_map]
  exact .pure (Stmt.forTo counter start stop step body)

theorem selection (hi : Similar f R (Stmt.rename f) inner inner') :
    Similar f R (Stmt.rename f) (selection expression block inner)
      (selection expression block inner') := by
  refine .bind (.keyword .CASE) fun _ => .bind (.keyword .OF) fun _ => .bind .name fun subject => ?_
  refine .bind (.manyWhile (.clause he hi) fun h => h.isOpen _) fun clauses => ?_
  refine .bind (.acceptKeyword .OTHERWISE) fun _ => ?_
  refine .iteBind (hblock _) (.pure []) fun otherwise => .bind (.keyword .ENDCASE) fun _ => ?_
  rw [← Stmt.renameAll_eq_map, ← Stmt.renameClauses_eq_map]
  exact .pure (Stmt.caseOf subject clauses otherwise)

theorem statementWith (hf : KeepsTypes f) (hi : Similar f R (Stmt.rename f) inner inner') :
    Similar f R (Stmt.rename f) (statementWith expression block inner)
      (statementWith expression block inner') := by
  refine .of_look .peek (fun _ => .namedStatement he) fun head hname => ?_
  split
  · exact .stuck _
  · exact .declaration he hf
  · exact .constant he
  · exact .output he
  · exact .bind .skip fun _ => .bind .name fun s => .pure (Stmt.input s)
  · exact .conditional he hblock
  · exact .whileLoop he hblock
  · exact .repeatLoop he hblock
  · exact .forLoop he hblock
  · exact .selection he hblock hi
  · exact .bind .skip fun _ => .invocation he
  · exact .bind .skip fun _ => .bind he fun e => .pure (Stmt.giveBack e)
  · exact .stuck _
  · exact absurd rfl (hname _)
  · exact .stuck _

theorem statementUpTo (hf : KeepsTypes f) {bound bound' : List Located}
    (hb : Alike f R bound bound') :
    Similar f R (Stmt.rename f) (statementUpTo expression block bound)
      (statementUpTo expression block bound') := by
  induction hb with
  | nil => exact .stuck _
  | cons _ _ _ _ ih => exact .statementWith he hblock hf ih

end Blocks

variable (hf : KeepsTypes f) (limit : Nat)

include hf

theorem statement : ∀ d, Similar f R (Stmt.rename f) (statement limit d) (statement limit d)
  | 0 => fun _ _ h => statementUpTo (.expression limit 0) (fun _ => .stuck _) hf h _ _ h
  | d + 1 => fun _ _ h =>
    statementUpTo (.expression limit (d + 1))
      (fun closers => .manyWhile (statement d) fun h => h.isOpen closers) hf h _ _ h

theorem block (d : Nat) (closers : List Keyword) :
    Similar f R (List.map (Stmt.rename f)) (block limit d closers) (block limit d closers) := by
  cases d with
  | zero => exact .stuck _
  | succ d => exact .manyWhile (.statement hf limit d) fun h => h.isOpen closers

/-! ## Items -/

theorem param : Similar f R (Param.rename f) param param := by
  refine .bind (.acceptKeyword .BYREF) fun byRef => ?_
  have hrest : Similar f R (Param.rename f)
      (do
        let s ← Parser.name
        Parser.symbol .colon
        return ⟨s, ← Parser.typeName, byRef⟩)
      (do
        let s ← Parser.name
        Parser.symbol .colon
        return ⟨s, ← Parser.typeName, byRef⟩) := by
    refine .bind .name fun s => .bind (.symbol .colon) fun _ => ?_
    exact .bind (.typeName hf) fun type => .pure (Param.mk s type byRef)
  cases byRef with
  | true => exact hrest
  | false => exact .bind (.acceptKeyword .BYVAL) fun _ => hrest

theorem params : Similar f R (List.map (Param.rename f)) params params := by
  refine .bind (.acceptSymbol .leftParen) fun _ => .ite ?_ (.pure [])
  refine .bind (.atSymbol .rightParen) fun _ => ?_
  refine .iteBind (.pure []) (.commaList (.param hf)) fun params => ?_
  exact .bind (.symbol .rightParen) fun _ => .pure params

theorem fieldDecls : Similar f R (List.map (FieldDecl.rename f)) fieldDecls fieldDecls := by
  refine .bind (.acceptKeyword .DECLARE) fun found => ?_
  have hrest : Similar f R (List.map (FieldDecl.rename f))
      (do
        let names ← Parser.commaList Parser.name
        Parser.symbol .colon
        let type ← Parser.typeName
        return names.map fun s => ⟨s, type⟩)
      (do
        let names ← Parser.commaList Parser.name
        Parser.symbol .colon
        let type ← Parser.typeName
        return names.map fun s => ⟨s, type⟩) := by
    refine .bind (.commaList .name) fun names => .bind (.symbol .colon) fun _ => ?_
    refine .bind (.typeName hf) fun type => ?_
    have hmap : (names.map f).map (fun s => (⟨s, f type⟩ : FieldDecl)) =
        (names.map fun s => ⟨s, type⟩).map (FieldDecl.rename f) := by
      simp only [List.map_map, Function.comp_def, FieldDecl.rename]
    rw [hmap]
    exact .pure _
  cases found with
  | true => exact hrest
  | false => exact .bind (φ := id) (.stuck _) fun _ => hrest

theorem recordType : Similar f R (RecordType.rename f) recordType recordType := by
  refine .bind (.keyword .TYPE) fun _ => .bind .name fun s => ?_
  refine .bind (.manyWhile (.fieldDecls hf) fun h => h.isOpen _) fun fields => ?_
  refine .bind (.keyword .ENDTYPE) fun _ => ?_
  rw [← List.map_flatten]
  exact .pure (RecordType.mk s fields.flatten)

theorem procedure : Similar f R (Subroutine.rename f) (procedure limit) (procedure limit) := by
  refine .bind (.keyword .PROCEDURE) fun _ => .bind .name fun s => .bind (.params hf) fun ps => ?_
  refine .bind (.block hf limit limit _) fun body => .bind (.keyword .ENDPROCEDURE) fun _ => ?_
  rw [← Stmt.renameAll_eq_map]
  exact .pure (Subroutine.mk s ps none body)

theorem function : Similar f R (Subroutine.rename f) (function limit) (function limit) := by
  refine .bind (.keyword .FUNCTION) fun _ => .bind .name fun s => .bind (.params hf) fun ps => ?_
  refine .bind (.keyword .RETURNS) fun _ => .bind (.typeName hf) fun type => ?_
  refine .bind (.block hf limit limit _) fun body => .bind (.keyword .ENDFUNCTION) fun _ => ?_
  rw [← Stmt.renameAll_eq_map]
  exact .pure (Subroutine.mk s ps (some type) body)

theorem item : Similar f R (Item.rename f) (item limit) (item limit) := by
  have hstmt : Similar f R (Item.rename f)
      (do return .statement (← Parser.statement limit limit))
      (do return .statement (← Parser.statement limit limit)) :=
    .bind (.statement hf limit limit) fun stmt => .pure (Item.statement stmt)
  refine .of_look .peek (fun _ => hstmt) fun head _ => ?_
  split
  · exact .bind (.procedure hf limit) fun sub => .pure (Item.subroutine sub)
  · exact .bind (.function hf limit) fun sub => .pure (Item.subroutine sub)
  · exact .bind (.recordType hf) fun type => .pure (Item.recordType type)
  · exact hstmt

theorem program : Similar f R (Program.rename f) (program limit) (program limit) := by
  refine .bind (.manyWhile (.item hf limit) ?_) fun items => .pure (Program.mk items)
  intro ts us h
  rw [h.isEmpty]

end Similar

/-! ## Renamed tokens -/

def SamePlace (t u : Located) : Prop := u.start = t.start ∧ u.stop = t.stop

theorem namesCounter_rename (f : String → String) (ts : List Located) :
    namesCounter (ts.map (Located.rename f)) = namesCounter ts := by
  match ts with
  | [] | [_] => rfl
  | next :: counter :: ts =>
    have hnext : startsWithKeyword .NEXT ((next :: counter :: ts).map (Located.rename f)) =
        startsWithKeyword .NEXT (next :: counter :: ts) := by
      obtain ⟨token, _, _⟩ := next
      cases token <;> rfl
    have hcounter : (counter.rename f).token.isName = counter.token.isName := by
      obtain ⟨token, _, _⟩ := counter
      cases token <;> rfl
    simp only [List.map_cons] at hnext ⊢
    simp only [namesCounter, hnext, hcounter]
    rfl

theorem Alike.rename (f : String → String) (ts : List Located) :
    Alike f SamePlace ts (ts.map (Located.rename f)) := by
  induction ts with
  | nil => exact .nil
  | cons t ts ih => exact .cons rfl ⟨rfl, rfl⟩ (namesCounter_rename f (t :: ts)) ih

theorem ofStuck_eq {f : String → String} {ts us : List Located} (h : Alike f SamePlace ts us)
    (size : Nat) (cause : Cause) :
    ParseError.ofStuck size ⟨cause, us⟩ = ParseError.ofStuck size ⟨cause, ts⟩ := by
  cases h with
  | nil => rfl
  | cons _ hplace => simp only [ParseError.ofStuck, Located.line, Located.span, hplace.1, hplace.2]

end Parser

/-- Renaming before a parse is renaming after it, and does not touch errors. -/
theorem Program.parse_rename {f : String → String} (hf : Parser.Similar.KeepsTypes f) (size : Nat)
    (ts : List Located) :
    Program.parse size (ts.map (Located.rename f)) =
    (Program.parse size ts).map (Program.rename f) := by
  have hres := Parser.Similar.program hf Parser.nestingLimit _ _ (Parser.Alike.rename f ts)
  simp only [Program.parse, Parser.parse]
  generalize Parser.program Parser.nestingLimit ts = r at hres ⊢
  generalize Parser.program Parser.nestingLimit (ts.map (Located.rename f)) = r' at hres ⊢
  cases hres with
  | ok => rfl
  | stuck hrest => exact congrArg Except.error (Parser.ofStuck_eq hrest size _)

end Chalkboard
