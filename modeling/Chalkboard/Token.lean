import Chalkboard.Number.Layout
import Chalkboard.Text.Position

/-! # Tokens

The words, literals and symbols of a program text. Keywords are known by their upper-case spelling,
and both spellings of the assignment arrow are one symbol.
-/

namespace Chalkboard

/-- The reserved words, named by their spelling. -/
inductive Keyword where
  | DECLARE | CONSTANT | TYPE | ENDTYPE | INPUT | OUTPUT | IF | THEN | ELSE | ENDIF | CASE | OF
  | OTHERWISE | ENDCASE | FOR | TO | STEP | NEXT | WHILE | DO | ENDWHILE | REPEAT | UNTIL
  | PROCEDURE | ENDPROCEDURE | FUNCTION | ENDFUNCTION | RETURNS | RETURN | CALL | BYREF | BYVAL
  | ARRAY | INTEGER | REAL | STRING | BOOLEAN | CHAR | DATE | MOD | DIV | AND | OR | NOT | TRUE
  | FALSE
deriving DecidableEq

namespace Keyword

def text : Keyword → String
  | DECLARE => "DECLARE"
  | CONSTANT => "CONSTANT"
  | TYPE => "TYPE"
  | ENDTYPE => "ENDTYPE"
  | INPUT => "INPUT"
  | OUTPUT => "OUTPUT"
  | IF => "IF"
  | THEN => "THEN"
  | ELSE => "ELSE"
  | ENDIF => "ENDIF"
  | CASE => "CASE"
  | OF => "OF"
  | OTHERWISE => "OTHERWISE"
  | ENDCASE => "ENDCASE"
  | FOR => "FOR"
  | TO => "TO"
  | STEP => "STEP"
  | NEXT => "NEXT"
  | WHILE => "WHILE"
  | DO => "DO"
  | ENDWHILE => "ENDWHILE"
  | REPEAT => "REPEAT"
  | UNTIL => "UNTIL"
  | PROCEDURE => "PROCEDURE"
  | ENDPROCEDURE => "ENDPROCEDURE"
  | FUNCTION => "FUNCTION"
  | ENDFUNCTION => "ENDFUNCTION"
  | RETURNS => "RETURNS"
  | RETURN => "RETURN"
  | CALL => "CALL"
  | BYREF => "BYREF"
  | BYVAL => "BYVAL"
  | ARRAY => "ARRAY"
  | INTEGER => "INTEGER"
  | REAL => "REAL"
  | STRING => "STRING"
  | BOOLEAN => "BOOLEAN"
  | CHAR => "CHAR"
  | DATE => "DATE"
  | MOD => "MOD"
  | DIV => "DIV"
  | AND => "AND"
  | OR => "OR"
  | NOT => "NOT"
  | TRUE => "TRUE"
  | FALSE => "FALSE"

def all : List Keyword :=
  [.DECLARE, .CONSTANT, .TYPE, .ENDTYPE, .INPUT, .OUTPUT, .IF, .THEN, .ELSE, .ENDIF, .CASE, .OF,
    .OTHERWISE, .ENDCASE, .FOR, .TO, .STEP, .NEXT, .WHILE, .DO, .ENDWHILE, .REPEAT, .UNTIL,
    .PROCEDURE, .ENDPROCEDURE, .FUNCTION, .ENDFUNCTION, .RETURNS, .RETURN, .CALL, .BYREF, .BYVAL,
    .ARRAY, .INTEGER, .REAL, .STRING, .BOOLEAN, .CHAR, .DATE, .MOD, .DIV, .AND, .OR, .NOT, .TRUE,
    .FALSE]

/-- The keyword with this spelling, which has to be in upper case. -/
def ofText? (s : String) : Option Keyword :=
  all.find? fun k => k.text == s

end Keyword

inductive Symbol where
  | assign
  | eq | notEq | less | greater | lessEq | greaterEq
  | plus | minus | star | slash | caret | ampersand
  | colon | comma | dot | leftParen | rightParen | leftBracket | rightBracket
deriving DecidableEq

def Symbol.text : Symbol → String
  | assign => "←"
  | eq => "="
  | notEq => "<>"
  | less => "<"
  | greater => ">"
  | lessEq => "<="
  | greaterEq => ">="
  | plus => "+"
  | minus => "-"
  | star => "*"
  | slash => "/"
  | caret => "^"
  | ampersand => "&"
  | colon => ":"
  | comma => ","
  | dot => "."
  | leftParen => "("
  | rightParen => ")"
  | leftBracket => "["
  | rightBracket => "]"

inductive Token where
  | keyword (k : Keyword)
  | name (s : String)
  | number (value : Float) (real : Bool)
  | text (s : String)
  | symbol (s : Symbol)

namespace Token

inductive Kind where
  | text | real | integer | keyword | name | assignment | comparison | operator | punctuation
deriving DecidableEq

def Kind.label : Kind → String
  | .text => "StringLiteral"
  | .real => "RealLiteral"
  | .integer => "IntegerLiteral"
  | .keyword => "Keyword"
  | .name => "Identifier"
  | .assignment => "Assign"
  | .comparison => "Comparison"
  | .operator => "Operator"
  | .punctuation => "Punctuation"

def kind : Token → Kind
  | keyword _ => .keyword
  | name _ => .name
  | number _ true => .real
  | number _ false => .integer
  | text _ => .text
  | symbol .assign => .assignment
  | symbol .eq | symbol .notEq | symbol .less | symbol .greater | symbol .lessEq
  | symbol .greaterEq => .comparison
  | symbol .plus | symbol .minus | symbol .star | symbol .slash | symbol .caret
  | symbol .ampersand => .operator
  | symbol _ => .punctuation

/-- Number literals are shown without an exponent, however long that is. -/
def numberLayout : NumberLayout where
  tie := .up
  positional _ := true
  exactWhole := false
  wholeTail := ""
  exponentSign := ""
  infinity := "inf"

/-- A token as messages show it: keywords in upper case, texts in double quotes. -/
def toText : Token → String
  | keyword k => k.text
  | name s => s
  | number x _ => numberLayout.render x
  | text s => "\"" ++ s ++ "\""
  | symbol s => s.text

end Token

structure Located where
  token : Token
  start : Position
  stop : Nat

def Located.span (t : Located) : Span := ⟨t.start.offset, t.stop⟩

def Located.line (t : Located) : Nat := t.start.line

end Chalkboard
