import Chalkboard.Proofs.Imitation

/-! # The parser goes forward

Each function of the parser moves the cursor forward over at least the tokens that it cannot do
without, and never past the end. Where it fails, the cursor stands at the token the error is about.
The counter of levels is always what it was before. So the parser comes to an end on all tokens, in
no more rounds of any loop than there are tokens.
-/

namespace Chalkboard

open Chalkboard.Parser (Shortens Shrinks nestingLimit)

/-- The functions of the parser as walks, each with the parser that it imitates and the number of
tokens that it takes at least. They may call each other so deep, and so many levels may be
opened. -/
inductive ParseFunction (calls levels : Nat) : {α : Type} → Walk α → Parser α → Nat → Prop where
  | symbol (s : Symbol) : ParseFunction calls levels (Walk.symbol s) (Parser.symbol s) 1
  | keyword (k : Keyword) : ParseFunction calls levels (Walk.keyword k) (Parser.keyword k) 1
  | name : ParseFunction calls levels Walk.name Parser.name 1
  | typeName : ParseFunction calls levels Walk.typeName Parser.typeName 1
  | nameList : ParseFunction calls levels (Walk.commaList Walk.name)
      (Parser.commaList Parser.name) 1
  | param : ParseFunction calls levels Walk.param Parser.param 1
  | params : ParseFunction calls levels Walk.params Parser.params 0
  | fieldDecls : ParseFunction calls levels Walk.fieldDecls Parser.fieldDecls 1
  | arguments : ParseFunction calls levels (Walk.arguments (Walk.expression calls))
      (Parser.arguments (Parser.expression nestingLimit levels)) 1
  | primary : ParseFunction calls levels (Walk.primary (Walk.expression calls))
      (Parser.primary (Parser.expression nestingLimit levels)) 1
  | unary : ParseFunction calls levels (Walk.unary calls) (Parser.operand nestingLimit levels) 1
  | binary (level : Nat) : ParseFunction calls levels (Walk.binary (Walk.unary calls) calls level)
      (Parser.joined (Parser.operand nestingLimit levels) level) 1
  | expression : ParseFunction calls levels (Walk.expression calls)
      (Parser.expression nestingLimit levels) 1
  | declaration : ParseFunction calls levels (Walk.declaration (Walk.expression calls))
      (Parser.declaration (Parser.expression nestingLimit levels)) 1
  | constant : ParseFunction calls levels (Walk.constant (Walk.expression calls))
      (Parser.constant (Parser.expression nestingLimit levels)) 1
  | assignment : ParseFunction calls levels (Walk.assignment (Walk.expression calls))
      (Parser.assignment (Parser.expression nestingLimit levels)) 1
  | fieldAssignment : ParseFunction calls levels (Walk.fieldAssignment (Walk.expression calls))
      (Parser.fieldAssignment (Parser.expression nestingLimit levels)) 1
  | elementAssignment : ParseFunction calls levels (Walk.elementAssignment (Walk.expression calls))
      (Parser.elementAssignment (Parser.expression nestingLimit levels)) 1
  | invocation : ParseFunction calls levels (Walk.invocation (Walk.expression calls))
      (Parser.invocation (Parser.expression nestingLimit levels)) 1
  | output : ParseFunction calls levels (Walk.output (Walk.expression calls))
      (Parser.output (Parser.expression nestingLimit levels)) 1
  | conditional :
    ParseFunction calls levels (Walk.conditional (Walk.expression calls)
      (Walk.body (Walk.statement calls)))
      (Parser.conditional (Parser.expression nestingLimit levels)
        (Parser.block nestingLimit levels)) 1
  | whileLoop :
    ParseFunction calls levels (Walk.whileLoop (Walk.expression calls)
      (Walk.body (Walk.statement calls)))
      (Parser.whileLoop (Parser.expression nestingLimit levels) (Parser.block nestingLimit levels))
      1
  | repeatLoop :
    ParseFunction calls levels (Walk.repeatLoop (Walk.expression calls)
      (Walk.body (Walk.statement calls)))
      (Parser.repeatLoop (Parser.expression nestingLimit levels) (Parser.block nestingLimit levels))
      1
  | forLoop :
    ParseFunction calls levels (Walk.forLoop (Walk.expression calls)
      (Walk.body (Walk.statement calls)))
      (Parser.forLoop (Parser.expression nestingLimit levels) (Parser.block nestingLimit levels)) 1
  | clause : ParseFunction calls levels (Walk.clause (Walk.expression calls) (Walk.statement calls))
      (Parser.clause (Parser.expression nestingLimit levels) (Parser.statement nestingLimit levels))
      1
  | selection :
    ParseFunction calls levels
      (Walk.selection (Walk.expression calls) (Walk.body (Walk.statement calls))
        (Walk.statement calls))
      (Parser.selection (Parser.expression nestingLimit levels) (Parser.block nestingLimit levels)
        (Parser.statement nestingLimit levels)) 1
  | statement : ParseFunction calls levels (Walk.statement calls)
      (Parser.statement nestingLimit levels) 1
  | body (closers : List Keyword) :
    ParseFunction calls levels (Walk.body (Walk.statement calls) closers)
    (Parser.block nestingLimit levels closers) 0
  | recordType : ParseFunction calls levels Walk.recordType Parser.recordType 1
  | procedure (top : levels = nestingLimit) :
    ParseFunction calls levels (Walk.procedure (Walk.body (Walk.statement calls)))
    (Parser.procedure nestingLimit) 1
  | function (top : levels = nestingLimit) :
    ParseFunction calls levels (Walk.function (Walk.body (Walk.statement calls)))
    (Parser.function nestingLimit) 1
  | item (top : levels = nestingLimit) :
    ParseFunction calls levels (Walk.item calls) (Parser.item nestingLimit) 1
  | program (top : levels = nestingLimit) :
    ParseFunction calls levels (Walk.program calls) (Parser.program nestingLimit) 0

section Languages

open Grammar

variable {us : List Located}

theorem names_ne_nil {names : List String} (h : Commas Name us names) : us ≠ [] := by
  rcases h with ⟨⟨⟩⟩ | _ <;> simp

theorem arguments_ne_nil {d : Nat} {args : List Expr} (h : Arguments d us args) : us ≠ [] := by
  cases h <;> simp

end Languages

namespace ParseFunction

variable {calls levels : Nat} {α : Type} {m : Walk α} {p : Parser α} {k : Nat}

theorem imitates (h : ParseFunction calls levels m p k) : Imitates calls levels m p := by
  cases calls with
  | zero => exact .zero
  | succ n =>
    have he := Imitates.expression (n + 1) levels
    have hx := shortens_expression nestingLimit levels
    have hb : ∀ closers, Imitates n levels (Walk.body (Walk.statement (n + 1)) closers)
        (Parser.block nestingLimit levels closers) :=
      fun closers => (Imitates.body (Imitates.statement (n + 1)) levels closers).mono
      (Nat.le_succ n)
    have hs := Imitates.statement (n + 1) levels
    cases h with
    | symbol s => exact .symbol s
    | keyword k => exact .keyword k
    | name => exact .name
    | typeName => exact .typeName
    | nameList => exact .commaList .name shortens_name
    | param => exact .param
    | params => exact .params
    | fieldDecls => exact .fieldDecls
    | arguments => exact .arguments he hx
    | primary => exact .primary (he.mono (Nat.le_succ n)) hx
    | unary => exact .unary _ _
    | binary level => exact .binary (.unary _ _) (Parser.shrinks_operand _ _) (Nat.le_refl _) level
    | expression => exact he
    | declaration => exact .declaration he
    | constant => exact .constant he
    | assignment => exact .assignment he
    | fieldAssignment => exact .fieldAssignment he
    | elementAssignment => exact .elementAssignment he
    | invocation => exact .invocation he hx
    | output => exact .output he hx
    | conditional => exact .conditional he hb
    | whileLoop => exact .whileLoop he hb
    | repeatLoop => exact .repeatLoop he hb
    | forLoop => exact .forLoop he hb
    | clause => exact .clause he hs
    | selection =>
      exact .selection he hb (hs.mono (Nat.le_succ n))
        (Parser.shortens_clause _ (Parser.sound_statement _ _))
    | statement => exact hs
    | body closers => exact .body (.statement (n + 1)) levels closers
    | recordType => exact .recordType
    | procedure top =>
      subst top
      exact .procedure (Imitates.body (Imitates.statement (n + 1)) nestingLimit)
    | function top =>
      subst top
      exact .function (Imitates.body (Imitates.statement (n + 1)) nestingLimit)
    | item top =>
      subst top
      exact .item _
    | program top =>
      subst top
      exact .program _

theorem takes (h : ParseFunction calls levels m p k) {ts rest : List Located} {a : α}
    (hp : p ts = .ok (a, rest)) : rest.length + k ≤ ts.length := by
  have he := Parser.sound_expression nestingLimit levels
  have hb := Parser.sound_block nestingLimit levels
  have hs := Parser.sound_statement nestingLimit levels
  have hstmt : ∀ {q : Parser Stmt}, Parser.Sound q (Grammar.Statement levels) →
      ∀ {s}, q ts = .ok (s, rest) → rest.length + 1 ≤ ts.length :=
    fun hq s hok => hq.shortens Parser.statement_ne_nil ts s rest hok
  cases h with
  | symbol s =>
    exact (Parser.sound_symbol s).shortens (by rintro _ _ ⟨t, rfl, -⟩; simp) ts a rest hp
  | keyword k => exact shortens_keyword k ts a rest hp
  | name => exact shortens_name ts a rest hp
  | typeName => exact Parser.sound_typeName.shortens (by rintro _ _ ⟨t, rfl, -⟩; simp) ts a rest hp
  | nameList => exact (Parser.sound_commaList Parser.sound_name).shortens names_ne_nil ts a rest hp
  | param => exact shortens_param ts a rest hp
  | params => exact Parser.sound_params.shrinks ts a rest hp
  | fieldDecls => exact Parser.shortens_fieldDecls ts a rest hp
  | arguments => exact (Parser.sound_arguments he).shortens arguments_ne_nil ts a rest hp
  | primary => exact (Parser.sound_primary he).shortens rung_ne_nil ts a rest hp
  | unary => exact (Parser.sound_operand nestingLimit levels).shortens rung_ne_nil ts a rest hp
  | binary level =>
    have ho := (Parser.sound_operand nestingLimit levels).shortens rung_ne_nil
    obtain ⟨first, us, hfirst, hmore⟩ := Parser.bind_eq_ok hp
    have hlt := ho ts first us hfirst
    have hle := Parser.shrinks_climbFrom ho.shrinks us level first us a rest hmore
    omega
  | expression => exact shortens_expression nestingLimit levels ts a rest hp
  | declaration => exact hstmt (Parser.sound_declaration he) hp
  | constant => exact hstmt (Parser.sound_constant he) hp
  | assignment => exact hstmt (Parser.sound_assignment he) hp
  | fieldAssignment => exact hstmt (Parser.sound_fieldAssignment he) hp
  | elementAssignment => exact hstmt (Parser.sound_elementAssignment he) hp
  | invocation =>
    refine (Parser.sound_invocation he).shortens ?_ ts a rest hp
    rintro us _ ⟨s, args, rfl, hcall⟩
    exact Parser.statement_ne_nil (.call hcall)
  | output => exact hstmt (Parser.sound_output he) hp
  | conditional => exact hstmt (Parser.sound_conditional he hb) hp
  | whileLoop => exact hstmt (Parser.sound_whileLoop he hb) hp
  | repeatLoop => exact hstmt (Parser.sound_repeatLoop he hb) hp
  | forLoop => exact hstmt (Parser.sound_forLoop he hb) hp
  | clause => exact Parser.shortens_clause nestingLimit hs ts a rest hp
  | selection => exact hstmt (Parser.sound_selection he hb hs) hp
  | statement => exact hstmt hs hp
  | body closers => exact (hb closers).shrinks ts a rest hp
  | recordType =>
    exact (Parser.sound_recordType nestingLimit).shortens
      (fun h => Parser.item_ne_nil h) ts a rest hp
  | procedure =>
    exact (Parser.sound_procedure nestingLimit).shortens
      (fun h => Parser.item_ne_nil h) ts a rest hp
  | function =>
    exact (Parser.sound_function nestingLimit).shortens (fun h => Parser.item_ne_nil h) ts a rest hp
  | item => exact Parser.shortens_item nestingLimit ts a rest hp
  | program =>
    obtain ⟨items, us, hitems, hpure⟩ := Parser.bind_eq_ok hp
    cases hpure
    exact (Parser.sound_manyWhile (Parser.sound_item nestingLimit) _).shrinks ts items rest hitems

end ParseFunction

theorem Walker.standsAt_errorHere {w : Walker} (h : w.taken ≤ w.tokens.length)
    (cause : Parser.Cause) : (w.errorHere cause).StandsAt w.size w.tokens w.taken := by
  have hhead : w.rest.head? = w.tokens[w.taken]? := List.head?_drop
  refine ⟨h, ?_, ?_⟩
  · rw [errorHere, hhead]
  · rw [errorHere, hhead]

theorem Walker.errorHere_eq (w : Walker) (cause : Parser.Cause) :
    w.errorHere cause = ParseError.ofStuck w.size ⟨cause, w.rest⟩ := by
  unfold errorHere ParseError.ofStuck
  cases w.rest <;> rfl

/-- Wherever a function of the parser starts, it ends. If it succeeds, the cursor has moved over at
least as many tokens as the function needs, and not past the end; if it fails, the cursor stands at
the token that the error is about, or at the end. Nothing else has changed, the counter of levels
included, and the parser of the tokens that are left does the same. So no loop of the whole parser
needs more rounds than there are tokens, and no chain of calls is much longer than that. -/
theorem parser_goes_forward :
    (∀ {calls : Nat} {α : Type} {m : Walk α} {p : Parser α} {k : Nat} (w : Walker),
      ParseFunction calls w.levels m p k → w.taken ≤ w.tokens.length → w.left < calls →
      (∃ a taken, m w = .ok a { w with taken := taken } ∧ w.taken + k ≤ taken ∧
        taken ≤ w.tokens.length ∧ p w.rest = .ok (a, w.tokens.drop taken)) ∨
      (∃ e taken, m w = .error (.refused e) { w with taken := taken } ∧ w.taken ≤ taken ∧
        e.StandsAt w.size w.tokens taken ∧ p w.rest = .error ⟨e.cause, w.tokens.drop taken⟩)) ∧
    ∀ size ts, Walk.parse size ts = (Program.parse size ts).mapError .refused := by
  refine ⟨fun {calls α m p k} w hm hin hcalls => ?_, fun size ts => ?_⟩
  · have hleft := w.left_eq
    have hres := hm.imitates w hcalls rfl
    unfold Copies at hres
    generalize hr : p w.rest = r, hr' : m w = r' at hres
    cases hres with
    | @ok a j hj =>
      have hlen := hm.takes hr
      have hmoved := w.left_move j
      simp only [Walker.left] at hlen hmoved hleft hj
      exact .inl ⟨a, w.taken + j, rfl, by omega, by omega, rfl⟩
    | @refused cause j hj =>
      have hstands :=
        Walker.standsAt_errorHere (w := w.move j) (by simp only [Walker.move]; omega) cause
      exact .inr ⟨_, w.taken + j, rfl, Nat.le_add_right _ _, hstands, rfl⟩
  · have hres := Imitates.program (ts.length + 1) (.start size ts) (Nat.lt_succ_self _) rfl
    unfold Copies at hres
    rw [Walk.parse, Program.parse, Parser.parse]
    change Walker.Tracks _ (Parser.program nestingLimit ts) _ at hres
    generalize Parser.program nestingLimit ts =
      r, Walk.program (ts.length + 1) (.start size ts) = r' at hres
    cases hres with
    | ok => rfl
    | refused => exact congrArg (Except.error ∘ Halt.refused) (Walker.errorHere_eq _ _)

/-- A statement that breaks off inside of parentheses: both levels are closed again, and the cursor
stands at the comma. -/
theorem parser_goes_forward_parens :
    let ts : List Located := [⟨.keyword .OUTPUT, ⟨0, 1, 1⟩, 6⟩, ⟨.symbol .leftParen, ⟨7, 1, 8⟩, 8⟩,
      ⟨.name "x", ⟨8, 1, 9⟩, 9⟩, ⟨.symbol .comma, ⟨9, 1, 10⟩, 10⟩]
    ∃ e, Walk.statement 5 (.start 10 ts) = .error (.refused e) ⟨ts, 10, 3, 0⟩ ∧
    e.StandsAt 10 ts 3 := by
  intro ts
  have hrun : Walk.statement 5 (.start 10 ts) =
      .error (.refused ⟨.expectedSymbol .rightParen, some 1, ⟨9, 10⟩⟩) ⟨ts, 10, 3, 0⟩ := rfl
  have hcalls : (Walker.start 10 ts).left < 5 := Nat.lt_succ_self _
  have hprogress := parser_goes_forward.1 (.start 10 ts) .statement (Nat.zero_le _) hcalls
  rw [hrun] at hprogress
  rcases hprogress with ⟨a, taken, hok, -⟩ | ⟨e, taken, herr, -, hstands, -⟩
  · cases hok
  · obtain ⟨he, hw⟩ := EStateM.Result.error.inj herr
    obtain rfl : taken = 3 := (congrArg Walker.taken hw).symm
    exact ⟨e, hrun.trans herr, hstands⟩

end Chalkboard
