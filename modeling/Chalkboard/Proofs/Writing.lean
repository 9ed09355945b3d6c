import Chalkboard.Proofs.Grammar

/-! # Writing programs

How a program is written as tokens. Every operand that is itself made with an operator stands in
parentheses, every call has its argument list, and every optional part is written out: the step of a
loop, the alternative of a condition, the rest of a selection and the mark of a parameter. A loop is
closed by its counter's name. Not every tree can be written: the null value has no literal, a list
of names is never empty, and the clauses of a selection are told apart only by how they begin.
-/

namespace Chalkboard

def BinaryOp.token : BinaryOp → Token
  | or => .keyword .OR
  | and => .keyword .AND
  | eq => .symbol .eq
  | notEq => .symbol .notEq
  | less => .symbol .less
  | greater => .symbol .greater
  | lessEq => .symbol .lessEq
  | greaterEq => .symbol .greaterEq
  | add => .symbol .plus
  | sub => .symbol .minus
  | concat => .symbol .ampersand
  | mul => .symbol .star
  | div => .symbol .slash
  | intDiv => .keyword .DIV
  | mod => .keyword .MOD
  | pow => .symbol .caret

def UnaryOp.token : UnaryOp → Token
  | not => .keyword .NOT
  | neg => .symbol .minus

/-- The literal of a value; the null value has none. -/
def Value.tokens : Value → List Token
  | null => []
  | bool true => [.keyword .TRUE]
  | bool false => [.keyword .FALSE]
  | number x => [.number x false]
  | text s => [.text s]

/-- A built-in type is written as its keyword, a record type by its name. -/
def typeToken (type : String) : Token :=
  match Parser.typeKeywords.find? fun k => k.text == type with
  | some k => .keyword k
  | none => .name type

def commas : List (List Token) → List Token
  | [] => []
  | [word] => word
  | word :: words => word ++ .symbol .comma :: commas words

def nameTokens (names : List String) : List Token :=
  commas (names.map fun s => [.name s])

/-- The rung of the grammar that an expression stands on when nothing is put around it. -/
def Expr.rung : Expr → Nat
  | .binary op _ _ => op.level
  | .unary _ _ => 6
  | _ => 7

/-- The tokens of an operand, in parentheses if it is made with an operator. -/
def Expr.enclose (e : Expr) (tokens : List Token) : List Token :=
  if e.rung < 7 then .symbol .leftParen :: (tokens ++ [.symbol .rightParen]) else tokens

mutual

def Expr.tokens : Expr → List Token
  | .literal v => v.tokens
  | .var s none => [.name s]
  | .var s (some field) => [.name s, .symbol .dot, .name field]
  | .element s index => .name s :: .symbol .leftBracket :: (index.tokens ++ [.symbol .rightBracket])
  | .call s args =>
    .name s :: .symbol .leftParen :: (commas (Expr.words args) ++ [.symbol .rightParen])
  | .binary op a b => a.enclose a.tokens ++ op.token :: b.enclose b.tokens
  | .unary op e => op.token :: e.enclose e.tokens

def Expr.words : List Expr → List (List Token)
  | [] => []
  | e :: es => e.tokens :: Expr.words es

end

mutual

@[simp] def Stmt.tokens : Stmt → List Token
  | .declare names type =>
    .keyword .DECLARE :: (nameTokens names ++ [.symbol .colon, typeToken type])
  | .declareArray names lower upper type =>
    .keyword .DECLARE :: (nameTokens names ++ .symbol .colon :: .keyword .ARRAY ::
      .symbol .leftBracket :: (lower.tokens ++ .symbol .colon :: (upper.tokens ++
        [.symbol .rightBracket, .keyword .OF, typeToken type])))
  | .constant s e => .keyword .CONSTANT :: .name s :: .symbol .assign :: e.tokens
  | .assign s none e => .name s :: .symbol .assign :: e.tokens
  | .assign s (some field) e =>
    .name s :: .symbol .dot :: .name field :: .symbol .assign :: e.tokens
  | .assignElement s index e =>
    .name s :: .symbol .leftBracket :: (index.tokens ++ .symbol .rightBracket :: .symbol .assign ::
      e.tokens)
  | .output es => .keyword .OUTPUT :: commas (Expr.words es)
  | .input s => [.keyword .INPUT, .name s]
  | .ifElse e yes no =>
    .keyword .IF :: (e.tokens ++ .keyword .THEN :: (Stmt.listTokens yes ++ .keyword .ELSE ::
      (Stmt.listTokens no ++ [.keyword .ENDIF])))
  | .whileDo e body =>
    .keyword .WHILE :: (e.tokens ++ .keyword .DO :: (Stmt.listTokens body ++ [.keyword .ENDWHILE]))
  | .repeatUntil body e => .keyword .REPEAT :: (Stmt.listTokens body ++ .keyword .UNTIL :: e.tokens)
  | .forTo s start stop step body =>
    .keyword .FOR :: .name s :: .symbol .assign :: (start.tokens ++ .keyword .TO :: (stop.tokens ++
      .keyword .STEP :: (step.tokens ++ (Stmt.listTokens body ++ [.keyword .NEXT, .name s]))))
  | .caseOf s clauses otherwise =>
    .keyword .CASE :: .keyword .OF :: .name s ::
      (Stmt.clauseTokens clauses ++ .keyword .OTHERWISE ::
      (Stmt.listTokens otherwise ++ [.keyword .ENDCASE]))
  | .call s args =>
    .keyword .CALL :: .name s :: .symbol .leftParen :: (commas (Expr.words args) ++
      [.symbol .rightParen])
  | .giveBack e => .keyword .RETURN :: e.tokens

def Stmt.listTokens : List Stmt → List Token
  | [] => []
  | stmt :: stmts => stmt.tokens ++ Stmt.listTokens stmts

def Stmt.clauseTokens : List (Expr × Stmt) → List Token
  | [] => []
  | (value, stmt) :: clauses =>
    value.tokens ++ .symbol .colon :: (stmt.tokens ++ Stmt.clauseTokens clauses)

end

def FieldDecl.tokens (f : FieldDecl) : List Token :=
  [.keyword .DECLARE, .name f.name, .symbol .colon, typeToken f.type]

def Param.tokens (p : Param) : List Token :=
  [.keyword (if p.byRef then .BYREF else .BYVAL), .name p.name, .symbol .colon, typeToken p.type]

def Item.tokens : Item → List Token
  | .recordType type =>
    .keyword .TYPE :: .name type.name :: (type.fields.flatMap FieldDecl.tokens ++
      [.keyword .ENDTYPE])
  | .subroutine ⟨s, params, none, body⟩ =>
    .keyword .PROCEDURE :: .name s :: .symbol .leftParen :: (commas (params.map Param.tokens) ++
      .symbol .rightParen :: (Stmt.listTokens body ++ [.keyword .ENDPROCEDURE]))
  | .subroutine ⟨s, params, some type, body⟩ =>
    .keyword .FUNCTION :: .name s :: .symbol .leftParen :: (commas (params.map Param.tokens) ++
      .symbol .rightParen :: .keyword .RETURNS :: typeToken type :: (Stmt.listTokens body ++
        [.keyword .ENDFUNCTION]))
  | .statement stmt => stmt.tokens

def Program.tokens (p : Program) : List Token :=
  p.items.flatMap Item.tokens

/-! ## What can be written -/

/-- Neither `-` nor `(` is the first token. -/
def Expr.startsPlain (e : Expr) : Bool :=
  match e.tokens.head? with
  | some (.symbol .minus) | some (.symbol .leftParen) => false
  | _ => true

mutual

def Expr.isWritable : Expr → Bool
  | .literal .null => false
  | .literal _ => true
  | .var _ _ => true
  | .element _ index => index.isWritable
  | .call _ args => Expr.areWritable args
  | .binary _ a b => a.isWritable && b.isWritable
  | .unary _ e => e.isWritable

def Expr.areWritable : List Expr → Bool
  | [] => true
  | e :: es => e.isWritable && Expr.areWritable es

end

mutual

def Stmt.isWritable : Stmt → Bool
  | .declare names _ => !names.isEmpty
  | .declareArray names lower upper _ => !names.isEmpty && lower.isWritable && upper.isWritable
  | .constant _ e => e.isWritable
  | .assign _ _ e => e.isWritable
  | .assignElement _ index e => index.isWritable && e.isWritable
  | .output es => !es.isEmpty && Expr.areWritable es
  | .input _ => true
  | .ifElse e yes no => e.isWritable && Stmt.areWritable yes && Stmt.areWritable no
  | .whileDo e body => e.isWritable && Stmt.areWritable body
  | .repeatUntil body e => Stmt.areWritable body && e.isWritable
  | .forTo _ start stop step body =>
    start.isWritable && stop.isWritable && step.isWritable && Stmt.areWritable body
  | .caseOf _ clauses otherwise =>
    Stmt.clausesWritable clauses && clauses.tail.all (·.1.startsPlain) && Stmt.areWritable otherwise
  | .call _ args => Expr.areWritable args
  | .giveBack e => e.isWritable

def Stmt.areWritable : List Stmt → Bool
  | [] => true
  | stmt :: stmts => stmt.isWritable && Stmt.areWritable stmts

def Stmt.clausesWritable : List (Expr × Stmt) → Bool
  | [] => true
  | (value, stmt) :: clauses => value.isWritable && stmt.isWritable && Stmt.clausesWritable clauses

end

def Item.isWritable : Item → Bool
  | .recordType _ => true
  | .subroutine sub => Stmt.areWritable sub.body
  | .statement stmt => stmt.isWritable

def Program.isWritable (p : Program) : Bool :=
  p.items.all Item.isWritable

/-! ## How deep it nests

An expression and a block take one level each, and so does the operand of a sign.
-/

/-- The levels of an operand, given those below it: parentheses take one. -/
def Expr.encloseLevels (e : Expr) (levels : Nat) : Nat :=
  if e.rung < 7 then levels + 1 else levels

mutual

/-- The levels below the one that an expression takes for itself. -/
def Expr.nesting : Expr → Nat
  | .literal _ => 0
  | .var _ _ => 0
  | .element _ index => index.nesting + 1
  | .call _ args => Expr.listLevels args
  | .binary _ a b => max (a.encloseLevels a.nesting) (b.encloseLevels b.nesting)
  | .unary _ e => e.encloseLevels e.nesting + 1

def Expr.listLevels : List Expr → Nat
  | [] => 0
  | e :: es => max (e.nesting + 1) (Expr.listLevels es)

end

def Expr.levels (e : Expr) : Nat := e.nesting + 1

mutual

def Stmt.levels : Stmt → Nat
  | .declare _ _ => 0
  | .declareArray _ lower upper _ => max lower.levels upper.levels
  | .constant _ e => e.levels
  | .assign _ _ e => e.levels
  | .assignElement _ index e => max index.levels e.levels
  | .output es => Expr.listLevels es
  | .input _ => 0
  | .ifElse e yes no => max e.levels (max (Stmt.listLevels yes + 1) (Stmt.listLevels no + 1))
  | .whileDo e body => max e.levels (Stmt.listLevels body + 1)
  | .repeatUntil body e => max (Stmt.listLevels body + 1) e.levels
  | .forTo _ start stop step body =>
    max (max start.levels stop.levels) (max step.levels (Stmt.listLevels body + 1))
  | .caseOf _ clauses otherwise => max (Stmt.clauseLevels clauses) (Stmt.listLevels otherwise + 1)
  | .call _ args => Expr.listLevels args
  | .giveBack e => e.levels

def Stmt.listLevels : List Stmt → Nat
  | [] => 0
  | stmt :: stmts => max stmt.levels (Stmt.listLevels stmts)

def Stmt.clauseLevels : List (Expr × Stmt) → Nat
  | [] => 0
  | (value, stmt) :: clauses => max (max value.levels stmt.levels) (Stmt.clauseLevels clauses)

end

def Item.levels : Item → Nat
  | .recordType _ => 0
  | .subroutine sub => Stmt.listLevels sub.body + 1
  | .statement stmt => stmt.levels

/-- The deepest nesting anywhere in the program, as it is written. -/
def Program.levels (p : Program) : Nat :=
  (p.items.map Item.levels).foldr max 0

end Chalkboard
