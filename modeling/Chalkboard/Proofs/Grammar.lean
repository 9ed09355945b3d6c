import Chalkboard.Parser.Program

/-! # The grammar of programs

Which sequences of tokens are written for which tree. Nothing here looks ahead or back: every rule
takes its tokens from left to right, each once. Expressions stand on a ladder of rungs, the loosest
operators at the bottom. The number that goes along with blocks and expressions says how many levels
may still be nested there; a block and an expression take one each, and so does an operand under a
sign.
-/

namespace Chalkboard.Grammar

/-- The operators between two operands and their rungs, from the loosest to the tightest. -/
inductive Operator : Nat → Token → BinaryOp → Prop where
  | or : Operator 1 (.keyword .OR) .or
  | and : Operator 2 (.keyword .AND) .and
  | eq : Operator 3 (.symbol .eq) .eq
  | notEq : Operator 3 (.symbol .notEq) .notEq
  | less : Operator 3 (.symbol .less) .less
  | greater : Operator 3 (.symbol .greater) .greater
  | lessEq : Operator 3 (.symbol .lessEq) .lessEq
  | greaterEq : Operator 3 (.symbol .greaterEq) .greaterEq
  | add : Operator 4 (.symbol .plus) .add
  | sub : Operator 4 (.symbol .minus) .sub
  | concat : Operator 4 (.symbol .ampersand) .concat
  | mul : Operator 5 (.symbol .star) .mul
  | div : Operator 5 (.symbol .slash) .div
  | intDiv : Operator 5 (.keyword .DIV) .intDiv
  | mod : Operator 5 (.keyword .MOD) .mod
  | pow : Operator 5 (.symbol .caret) .pow

/-- The operators before an operand. -/
inductive Sign : Token → UnaryOp → Prop where
  | not : Sign (.keyword .NOT) .not
  | neg : Sign (.symbol .minus) .neg

/-- A type is named by a keyword or by the name of a record type. -/
inductive TypeName : Token → String → Prop where
  | builtIn {k : Keyword} : k ∈ [.INTEGER, .REAL, .STRING, .BOOLEAN, .CHAR, .DATE] →
      TypeName (.keyword k) k.text
  | record {s : String} : TypeName (.name s) s

/-- A language of token sequences with the trees they are written for. -/
abbrev TreeLanguage (α : Type) := List Located → α → Prop

inductive Commas {α : Type} (L : TreeLanguage α) : TreeLanguage (List α) where
  | one {ts : List Located} {a : α} : L ts a → Commas L ts [a]
  | more {ts us : List Located} {comma : Located} {a : α} {as : List α} : L ts a →
      comma.token = .symbol .comma → Commas L us as → Commas L (ts ++ comma :: us) (a :: as)

inductive Many {α : Type} (L : TreeLanguage α) : TreeLanguage (List α) where
  | nil : Many L [] []
  | cons {ts us : List Located} {a : α} {as : List α} : L ts a → Many L us as →
      Many L (ts ++ us) (a :: as)

inductive Name : TreeLanguage String where
  | mk {t : Located} {s : String} : t.token = .name s → Name [t] s

mutual

/-- An expression takes a level for itself. -/
inductive Expression : Nat → TreeLanguage Expr where
  | mk {d : Nat} {ts : List Located} {e : Expr} : Rung d 1 ts e → Expression (d + 1) ts e

/-- The expressions of a rung: rungs 1 to 5 have operators that group to the left, rung 6 has the
signs, and rung 7 what is not divided further. -/
inductive Rung : Nat → Nat → TreeLanguage Expr where
  | binary {d n : Nat} {ts us : List Located} {t : Located} {op : BinaryOp} {a b : Expr} :
      Rung d n ts a → Operator n t.token op → Rung d (n + 1) us b →
      Rung d n (ts ++ t :: us) (.binary op a b)
  | tighter {d n : Nat} {ts : List Located} {e : Expr} : n < 7 → Rung d (n + 1) ts e → Rung d n ts e
  | unary {d : Nat} {ts : List Located} {t : Located} {op : UnaryOp} {e : Expr} :
      Sign t.token op → Rung d 6 ts e → Rung (d + 1) 6 (t :: ts) (.unary op e)
  | number {d : Nat} {t : Located} {x : Float} {real : Bool} : t.token = .number x real →
      Rung d 7 [t] (.literal (.number x))
  | text {d : Nat} {t : Located} {s : String} : t.token = .text s →
      Rung d 7 [t] (.literal (.text s))
  | yes {d : Nat} {t : Located} : t.token = .keyword .TRUE → Rung d 7 [t] (.literal (.bool true))
  | no {d : Nat} {t : Located} : t.token = .keyword .FALSE → Rung d 7 [t] (.literal (.bool false))
  | parens {d : Nat} {ts : List Located} {l r : Located} {e : Expr} :
      l.token = .symbol .leftParen → Expression d ts e → r.token = .symbol .rightParen →
      Rung d 7 (l :: ts ++ [r]) e
  | var {d : Nat} {t : Located} {s : String} : t.token = .name s → Rung d 7 [t] (.var s none)
  | field {d : Nat} {t dot f : Located} {s field : String} : t.token = .name s →
      dot.token = .symbol .dot → f.token = .name field → Rung d 7 [t, dot, f] (.var s (some field))
  | element {d : Nat} {ts : List Located} {t l r : Located} {s : String} {index : Expr} :
      t.token = .name s → l.token = .symbol .leftBracket → Expression d ts index →
      r.token = .symbol .rightBracket → Rung d 7 (t :: l :: ts ++ [r]) (.element s index)
  | call {d : Nat} {ts : List Located} {t : Located} {s : String} {args : List Expr} :
      t.token = .name s → Arguments d ts args → Rung d 7 (t :: ts) (.call s args)

/-- Arguments stand in parentheses, which may be empty. -/
inductive Arguments : Nat → TreeLanguage (List Expr) where
  | none {d : Nat} {l r : Located} : l.token = .symbol .leftParen → r.token = .symbol .rightParen →
      Arguments d [l, r] []
  | some {d : Nat} {ts : List Located} {l r : Located} {args : List Expr} :
      l.token = .symbol .leftParen → Expressions d ts args → r.token = .symbol .rightParen →
      Arguments d (l :: ts ++ [r]) args

inductive Expressions : Nat → TreeLanguage (List Expr) where
  | one {d : Nat} {ts : List Located} {e : Expr} : Expression d ts e → Expressions d ts [e]
  | more {d : Nat} {ts us : List Located} {comma : Located} {e : Expr} {es : List Expr} :
      Expression d ts e → comma.token = .symbol .comma → Expressions d us es →
      Expressions d (ts ++ comma :: us) (e :: es)

end

inductive Invocation (d : Nat) : TreeLanguage (String × List Expr) where
  | bare {t : Located} {s : String} : t.token = .name s → Invocation d [t] (s, [])
  | applied {ts : List Located} {t : Located} {s : String} {args : List Expr} : t.token = .name s →
      Arguments d ts args → Invocation d (t :: ts) (s, args)

/-- The step of a loop; it is one if none is written. -/
inductive Step (d : Nat) : TreeLanguage Expr where
  | unit : Step d [] (.literal (.number 1.0))
  | written {ts : List Located} {t : Located} {e : Expr} : t.token = .keyword .STEP →
      Expression d ts e → Step d (t :: ts) e

/-- After `NEXT` a name may stand on the same line. -/
inductive AfterNext (line : Nat) : List Located → Prop where
  | nothing : AfterNext line []
  | counter {t : Located} {s : String} : t.token = .name s → t.line = line → AfterNext line [t]

mutual

inductive Statement : Nat → TreeLanguage Stmt where
  | declare {d : Nat} {ts : List Located} {t colon u : Located} {names : List String}
      {type : String} :
      t.token = .keyword .DECLARE → Commas Name ts names → colon.token = .symbol .colon →
      TypeName u.token type → Statement d (t :: ts ++ [colon, u]) (.declare names type)
  | declareArray {d : Nat} {ts us vs : List Located} {t colon array l between r of_ u : Located}
      {names : List String} {lower upper : Expr} {type : String} :
      t.token = .keyword .DECLARE → Commas Name ts names → colon.token = .symbol .colon →
      array.token = .keyword .ARRAY → l.token = .symbol .leftBracket → Expression d us lower →
      between.token = .symbol .colon → Expression d vs upper → r.token = .symbol .rightBracket →
      of_.token = .keyword .OF → TypeName u.token type →
      Statement d (t :: ts ++ colon :: array :: l :: us ++ between :: vs ++ [r, of_, u])
        (.declareArray names lower upper type)
  | constant {d : Nat} {ts : List Located} {t u arrow : Located} {s : String} {e : Expr} :
      t.token = .keyword .CONSTANT → u.token = .name s → arrow.token = .symbol .assign →
      Expression d ts e → Statement d (t :: u :: arrow :: ts) (.constant s e)
  | assign {d : Nat} {ts : List Located} {t arrow : Located} {s : String} {e : Expr} :
      t.token = .name s → arrow.token = .symbol .assign → Expression d ts e →
      Statement d (t :: arrow :: ts) (.assign s none e)
  | assignField {d : Nat} {ts : List Located} {t dot f arrow : Located} {s field : String}
      {e : Expr} : t.token = .name s → dot.token = .symbol .dot → f.token = .name field →
      arrow.token = .symbol .assign → Expression d ts e →
      Statement d (t :: dot :: f :: arrow :: ts) (.assign s (some field) e)
  | assignElement {d : Nat} {ts us : List Located} {t l r arrow : Located} {s : String}
      {index e : Expr} :
      t.token = .name s → l.token = .symbol .leftBracket → Expression d ts index →
      r.token = .symbol .rightBracket → arrow.token = .symbol .assign → Expression d us e →
      Statement d (t :: l :: ts ++ r :: arrow :: us) (.assignElement s index e)
  | output {d : Nat} {ts : List Located} {t : Located} {es : List Expr} :
      t.token = .keyword .OUTPUT → Expressions d ts es → Statement d (t :: ts) (.output es)
  | input {d : Nat} {t u : Located} {s : String} : t.token = .keyword .INPUT → u.token = .name s →
      Statement d [t, u] (.input s)
  | ifElse {d : Nat} {ts us vs : List Located} {t u v : Located} {e : Expr} {yes no : List Stmt} :
      t.token = .keyword .IF → Expression d ts e → u.token = .keyword .THEN → Block d us yes →
      Alternative d .ELSE vs no → v.token = .keyword .ENDIF →
      Statement d (t :: ts ++ u :: us ++ vs ++ [v]) (.ifElse e yes no)
  | whileDo {d : Nat} {ts us : List Located} {t u v : Located} {e : Expr} {body : List Stmt} :
      t.token = .keyword .WHILE → Expression d ts e → u.token = .keyword .DO → Block d us body →
      v.token = .keyword .ENDWHILE → Statement d (t :: ts ++ u :: us ++ [v]) (.whileDo e body)
  | repeatUntil {d : Nat} {ts us : List Located} {t u : Located} {body : List Stmt} {e : Expr} :
      t.token = .keyword .REPEAT → Block d ts body → u.token = .keyword .UNTIL → Expression d us e →
      Statement d (t :: ts ++ u :: us) (.repeatUntil body e)
  | forTo {d : Nat} {ts us vs ws xs : List Located} {t u arrow v next : Located} {s : String}
      {start stop step : Expr} {body : List Stmt} :
      t.token = .keyword .FOR → u.token = .name s → arrow.token = .symbol .assign →
      Expression d ts start → v.token = .keyword .TO → Expression d us stop → Step d vs step →
      Block d ws body → next.token = .keyword .NEXT → AfterNext next.line xs →
      Statement d (t :: u :: arrow :: ts ++ v :: us ++ vs ++ ws ++ next :: xs)
        (.forTo s start stop step body)
  | caseOf {d : Nat} {ts us : List Located} {t of_ u v : Located} {s : String}
      {clauses : List (Expr × Stmt)} {otherwise : List Stmt} :
      t.token = .keyword .CASE → of_.token = .keyword .OF → u.token = .name s →
      Clauses d ts clauses → Alternative d .OTHERWISE us otherwise → v.token = .keyword .ENDCASE →
      Statement d (t :: of_ :: u :: ts ++ us ++ [v]) (.caseOf s clauses otherwise)
  | call {d : Nat} {ts : List Located} {s : String} {args : List Expr} : Invocation d ts (s, args) →
      Statement d ts (.call s args)
  | callWord {d : Nat} {ts : List Located} {t : Located} {s : String} {args : List Expr} :
      t.token = .keyword .CALL → Invocation d ts (s, args) → Statement d (t :: ts) (.call s args)
  | giveBack {d : Nat} {ts : List Located} {t : Located} {e : Expr} : t.token = .keyword .RETURN →
      Expression d ts e → Statement d (t :: ts) (.giveBack e)

/-- A block takes a level for itself. -/
inductive Block : Nat → TreeLanguage (List Stmt) where
  | mk {d : Nat} {ts : List Located} {body : List Stmt} : Statements d ts body →
      Block (d + 1) ts body

inductive Statements : Nat → TreeLanguage (List Stmt) where
  | nil {d : Nat} : Statements d [] []
  | cons {d : Nat} {ts us : List Located} {stmt : Stmt} {stmts : List Stmt} : Statement d ts stmt →
      Statements d us stmts → Statements d (ts ++ us) (stmt :: stmts)

/-- A block after a keyword, or nothing at all, which stands for the empty block. -/
inductive Alternative : Nat → Keyword → TreeLanguage (List Stmt) where
  | none {d : Nat} {k : Keyword} : Alternative d k [] []
  | some {d : Nat} {k : Keyword} {ts : List Located} {t : Located} {body : List Stmt} :
      t.token = .keyword k → Block d ts body → Alternative d k (t :: ts) body

inductive Clauses : Nat → TreeLanguage (List (Expr × Stmt)) where
  | nil {d : Nat} : Clauses d [] []
  | cons {d : Nat} {ts us vs : List Located} {colon : Located} {value : Expr} {stmt : Stmt}
      {clauses : List (Expr × Stmt)} : Expression d ts value → colon.token = .symbol .colon →
      Statement d us stmt → Clauses d vs clauses →
      Clauses d (ts ++ colon :: us ++ vs) ((value, stmt) :: clauses)

end

/-- How a parameter is passed: by reference only if it is marked so. -/
inductive Mark : TreeLanguage Bool where
  | none : Mark [] false
  | byRef {t : Located} : t.token = .keyword .BYREF → Mark [t] true
  | byVal {t : Located} : t.token = .keyword .BYVAL → Mark [t] false

inductive Param : TreeLanguage Chalkboard.Param where
  | mk {ts : List Located} {t colon u : Located} {s type : String} {byRef : Bool} : Mark ts byRef →
      t.token = .name s → colon.token = .symbol .colon → TypeName u.token type →
      Param (ts ++ [t, colon, u]) ⟨s, type, byRef⟩

/-- Parameters stand in parentheses, which may be empty or missing. -/
inductive Params : TreeLanguage (List Chalkboard.Param) where
  | none : Params [] []
  | empty {l r : Located} : l.token = .symbol .leftParen → r.token = .symbol .rightParen →
      Params [l, r] []
  | some {ts : List Located} {l r : Located} {params : List Chalkboard.Param} :
      l.token = .symbol .leftParen → Commas Param ts params → r.token = .symbol .rightParen →
      Params (l :: ts ++ [r]) params

inductive Fields : TreeLanguage (List FieldDecl) where
  | mk {ts : List Located} {t colon u : Located} {names : List String} {type : String} :
      t.token = .keyword .DECLARE → Commas Name ts names → colon.token = .symbol .colon →
      TypeName u.token type → Fields (t :: ts ++ [colon, u]) (names.map fun s => ⟨s, type⟩)

/-- Record types and subroutines are items of a program, and so are statements. -/
inductive Item (d : Nat) : TreeLanguage Chalkboard.Item where
  | recordType {ts : List Located} {t u v : Located} {s : String} {fields : List (List FieldDecl)} :
      t.token = .keyword .TYPE → u.token = .name s → Many Fields ts fields →
      v.token = .keyword .ENDTYPE → Item d (t :: u :: ts ++ [v]) (.recordType ⟨s, fields.flatten⟩)
  | procedure {ts us : List Located} {t u v : Located} {s : String} {params : List Chalkboard.Param}
      {body : List Stmt} :
      t.token = .keyword .PROCEDURE → u.token = .name s → Params ts params → Block d us body →
      v.token = .keyword .ENDPROCEDURE →
      Item d (t :: u :: ts ++ us ++ [v]) (.subroutine ⟨s, params, none, body⟩)
  | function {ts us : List Located} {t u r w v : Located} {s type : String}
      {params : List Chalkboard.Param} {body : List Stmt} :
      t.token = .keyword .FUNCTION → u.token = .name s → Params ts params →
      r.token = .keyword .RETURNS → TypeName w.token type → Block d us body →
      v.token = .keyword .ENDFUNCTION →
      Item d (t :: u :: ts ++ r :: w :: us ++ [v]) (.subroutine ⟨s, params, some type, body⟩)
  | statement {ts : List Located} {stmt : Stmt} : Statement d ts stmt → Item d ts (.statement stmt)

/-- A program whose blocks and expressions nest at most `d` levels. -/
def Program (d : Nat) : TreeLanguage Chalkboard.Program :=
  fun ts p => Many (Item d) ts p.items

end Chalkboard.Grammar
