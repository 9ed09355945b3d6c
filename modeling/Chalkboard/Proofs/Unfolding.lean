import Chalkboard.Proofs.ExpressionReading

/-! # Loops without their bounds

The loops of the parser run on a bound, and so do the statements of clauses. No bound ends them
early, since every round takes a token: each loop satisfies the equation that says what a round does
and goes on with the same loop, and a statement is read by the same parser inside of clauses as
outside.
-/

namespace Chalkboard.Parser

open Grammar

section Lengths

variable {α β : Type} {p : Parser α} {ts rest : List Located} {a : α}

/-- What is left after a success is no longer than what was there. -/
def Shrinks (p : Parser α) : Prop :=
  ∀ ts a rest, p ts = .ok (a, rest) → rest.length ≤ ts.length

def Shortens (p : Parser α) : Prop :=
  ∀ ts a rest, p ts = .ok (a, rest) → rest.length < ts.length

theorem Shortens.shrinks (h : Shortens p) : Shrinks p :=
  fun ts a rest hp => Nat.le_of_lt (h ts a rest hp)

theorem Sound.shrinks {L : TreeLanguage α} (h : Sound p L) : Shrinks p := by
  intro ts a rest hp
  obtain ⟨used, rfl, -⟩ := h ts a rest hp
  simp

theorem Sound.shortens {L : TreeLanguage α} (h : Sound p L) (hL : ∀ {us a}, L us a → us ≠ []) :
    Shortens p := by
  intro ts a rest hp
  obtain ⟨used, rfl, hused⟩ := h ts a rest hp
  have := List.length_pos_iff.mpr (hL hused)
  simp only [List.length_append]
  omega

/-- Two ways to go on agree if they agree on what the first parser leaves. -/
theorem bind_congr {f g : α → Parser β} (h : ∀ a rest, p ts = .ok (a, rest) → f a rest = g a rest) :
    (p >>= f) ts = (p >>= g) ts := by
  cases hp : p ts with
  | ok r => rw [bind_of_ok hp, bind_of_ok hp, h r.1 r.2 hp]
  | error s => rw [bind_of_error hp, bind_of_error hp]

theorem bind_congr_left {p q : Parser α} {f : α → Parser β} (h : p ts = q ts) :
    (p >>= f) ts = (q >>= f) ts := by
  cases hp : p ts with
  | ok r => rw [bind_of_ok hp, bind_of_ok (h ▸ hp)]
  | error s => rw [bind_of_error hp, bind_of_error (h ▸ hp)]

end Lengths

section Repetitions

variable {α : Type} {p q : Parser α} {goesOn : List Located → Bool} {ts : List Located}

theorem repeatWhile_cons (t : Located) (bound : List Located) :
    repeatWhile goesOn p (t :: bound) ts = (if goesOn ts then (do
      let a ← p
      let as ← repeatWhile goesOn p bound
      pure (a :: as)) else pure []) ts := rfl

theorem repeatWhile_nil (hnil : goesOn [] = false) (bound : List Located) :
    repeatWhile goesOn p bound [] = .ok ([], []) := by
  cases bound with
  | nil => rfl
  | cons t bound =>
    rw [repeatWhile_cons, hnil]
    rfl

/-- Two repetitions agree if their items agree on what they are given, whatever the bounds. -/
theorem repeatWhile_congr (hp : Shortens p) (hnil : goesOn [] = false) {bound bound' : List Located}
    (hpq : ∀ us, us.length ≤ ts.length → p us = q us) (hb : ts.length ≤ bound.length)
    (hb' : ts.length ≤ bound'.length) :
    repeatWhile goesOn p bound ts = repeatWhile goesOn q bound' ts := by
  induction bound generalizing ts bound' with
  | nil =>
    obtain rfl := List.length_eq_zero_iff.mp (Nat.le_zero.mp hb)
    rw [repeatWhile_nil hnil, repeatWhile_nil hnil]
  | cons t bound ih =>
    cases bound' with
    | nil =>
      obtain rfl := List.length_eq_zero_iff.mp (Nat.le_zero.mp hb')
      rw [repeatWhile_nil hnil, repeatWhile_nil hnil]
    | cons t' bound' =>
      rw [repeatWhile_cons, repeatWhile_cons]
      split
      · rw [← bind_congr_left (hpq ts (Nat.le_refl _))]
        refine bind_congr fun a rest hok => bind_congr_left ?_
        have hlt := hp ts a rest hok
        simp only [List.length_cons] at hb hb'
        exact ih (fun us hus => hpq us (by omega)) (by omega) (by omega)
      · rfl

/-- As long as the tokens go on, an item is followed by the rest of the repetition. -/
theorem manyWhile_eq (hp : Shortens p) (hnil : goesOn [] = false) (ts : List Located) :
    manyWhile goesOn p ts = (if goesOn ts then (do
      let a ← p
      let as ← manyWhile goesOn p
      pure (a :: as)) else pure []) ts := by
  cases ts with
  | nil =>
    rw [hnil]
    exact repeatWhile_nil hnil []
  | cons t ts =>
    change repeatWhile goesOn p (t :: ts) (t :: ts) = _
    rw [repeatWhile_cons]
    split
    · refine bind_congr fun a rest hok => bind_congr_left ?_
      have hlt := hp _ a rest hok
      exact repeatWhile_congr hp hnil (fun _ _ => rfl) (Nat.le_of_lt_succ hlt) (Nat.le_refl _)
    · rfl

def moreAfterComma (p : Parser α) : Parser (List α) :=
  fun ts => repeatAfterComma p ts ts

theorem commaList_eq (p : Parser α) : commaList p = (do
    let a ← p
    let as ← moreAfterComma p
    pure (a :: as)) := rfl

theorem repeatAfterComma_nil (bound : List Located) :
    repeatAfterComma p bound [] = .ok ([], []) := by
  cases bound <;> rfl

theorem acceptSymbol_length {s : Symbol} {found : Bool} {rest : List Located}
    (h : acceptSymbol s ts = .ok (found, rest)) :
    rest.length ≤ ts.length ∧ (found = true → rest.length < ts.length) := by
  obtain ⟨used, rfl, ⟨rfl, t, rfl, -⟩ | ⟨rfl, rfl⟩⟩ := sound_acceptSymbol s ts found rest h
  · simp
  · simp

theorem repeatAfterComma_congr (hp : Shrinks p) {bound bound' : List Located}
    (hb : ts.length ≤ bound.length) (hb' : ts.length ≤ bound'.length) :
    repeatAfterComma p bound ts = repeatAfterComma p bound' ts := by
  induction bound generalizing ts bound' with
  | nil =>
    obtain rfl := List.length_eq_zero_iff.mp (Nat.le_zero.mp hb)
    rw [repeatAfterComma_nil, repeatAfterComma_nil]
  | cons t bound ih =>
    cases bound' with
    | nil =>
      obtain rfl := List.length_eq_zero_iff.mp (Nat.le_zero.mp hb')
      rw [repeatAfterComma_nil, repeatAfterComma_nil]
    | cons t' bound' =>
      refine bind_congr fun found us hfound => ?_
      obtain ⟨-, hlt⟩ := acceptSymbol_length hfound
      cases found with
      | false => rfl
      | true =>
        refine bind_congr fun a rest hok => bind_congr_left ?_
        have hle := hp us a rest hok
        have hlt := hlt rfl
        simp only [List.length_cons] at hb hb'
        exact ih (by omega) (by omega)

theorem moreAfterComma_eq (hp : Shrinks p) : moreAfterComma p = (do
    if ← acceptSymbol .comma then
      let a ← p
      let as ← moreAfterComma p
      pure (a :: as)
    else pure []) := by
  funext ts
  cases ts with
  | nil => rfl
  | cons t ts =>
    refine bind_congr fun found us hfound => ?_
    obtain ⟨-, hlt⟩ := acceptSymbol_length hfound
    cases found with
    | false => rfl
    | true =>
      refine bind_congr fun a rest hok => bind_congr_left ?_
      have hle := hp us a rest hok
      have hlt : us.length ≤ ts.length := Nat.le_of_lt_succ (hlt rfl)
      exact repeatAfterComma_congr hp (by omega) (Nat.le_refl _)

end Repetitions

section Climbing

variable {operand : Parser Expr} {ts : List Located}

/-- Continue `left` by the operators of at least the given level. -/
def climbOn (operand : Parser Expr) (level : Nat) (left : Expr) : Parser Expr :=
  fun ts => climbFrom operand ts level left ts

theorem climb_eq (operand : Parser Expr) : climb operand = (do
    let first ← operand
    climbOn operand 1 first) := rfl

theorem climbFrom_nil (bound : List Located) (level : Nat) (left : Expr) :
    climbFrom operand bound level left [] = .ok (left, []) :=
  climbFrom_stop fun _ h => by cases h

theorem climbFrom_cons {t : Located} {bound : List Located} {level : Nat} {left : Expr}
    {op : BinaryOp} {u : Located} (hop : operatorAt? (u :: ts) = some op) :
    climbFrom operand (t :: bound) level left (u :: ts) = (if level ≤ op.level then (do
      let first ← operand
      let right ← climbFrom operand bound (op.level + 1) first
      climbFrom operand bound level (.binary op left right)) ts else .ok (left, u :: ts)) := by
  split
  · rename_i hle
    exact climbFrom_of_le hop hle
  · rename_i hlt
    exact climbFrom_of_lt hop (Nat.lt_of_not_le hlt)

theorem shrinks_climbFrom (ho : Shrinks operand) (bound : List Located) (level : Nat)
    (left : Expr) : Shrinks (climbFrom operand bound level left) := by
  induction bound generalizing level left with
  | nil =>
    intro ts e rest h
    cases h
    exact Nat.le_refl _
  | cons t bound ih =>
    intro ts e rest h
    cases hat : operatorAt? ts with
    | none =>
      rw [climbFrom_of_none hat] at h
      cases h
      exact Nat.le_refl _
    | some op =>
      obtain ⟨token, hhead, -⟩ := Option.bind_eq_some_iff.mp hat
      obtain ⟨u, us, rfl, -⟩ := head_eq_some hhead
      rw [climbFrom_cons hat] at h
      split at h
      · obtain ⟨first, vs, h₁, h₂⟩ := bind_eq_ok h
        obtain ⟨right, ws, h₃, h₄⟩ := bind_eq_ok h₂
        have hfirst := ho us first vs h₁
        have hright := ih _ _ vs right ws h₃
        have hlast := ih _ _ ws e rest h₄
        simp only [List.length_cons]
        omega
      · cases h
        exact Nat.le_refl _

theorem climbFrom_congr (ho : Shrinks operand) {bound bound' : List Located} {level : Nat}
    {left : Expr} (hb : ts.length ≤ bound.length) (hb' : ts.length ≤ bound'.length) :
    climbFrom operand bound level left ts = climbFrom operand bound' level left ts := by
  induction bound generalizing ts bound' level left with
  | nil =>
    obtain rfl := List.length_eq_zero_iff.mp (Nat.le_zero.mp hb)
    rw [climbFrom_nil, climbFrom_nil]
  | cons t bound ih =>
    cases bound' with
    | nil =>
      obtain rfl := List.length_eq_zero_iff.mp (Nat.le_zero.mp hb')
      rw [climbFrom_nil, climbFrom_nil]
    | cons t' bound' =>
      cases hat : operatorAt? ts with
      | none => rw [climbFrom_of_none hat, climbFrom_of_none hat]
      | some op =>
        obtain ⟨token, hhead, -⟩ := Option.bind_eq_some_iff.mp hat
        obtain ⟨u, us, rfl, -⟩ := head_eq_some hhead
        simp only [List.length_cons] at hb hb'
        rw [climbFrom_cons hat, climbFrom_cons hat]
        split
        · refine bind_congr fun first vs hfirst => ?_
          have hvs := ho us first vs hfirst
          have hright := @ih vs bound' (op.level + 1) first (by omega) (by omega)
          rw [bind_congr_left hright]
          refine bind_congr fun right ws hright => ?_
          have hws := shrinks_climbFrom ho _ _ _ vs right ws hright
          exact ih (by omega) (by omega)
        · rfl

theorem climbFrom_eq_climbOn (ho : Shrinks operand) {bound : List Located} {level : Nat}
    {left : Expr} (hb : ts.length ≤ bound.length) :
    climbFrom operand bound level left ts = climbOn operand level left ts :=
  climbFrom_congr ho hb (Nat.le_refl _)

/-- What the loop does about the operator that is next, if one is. -/
theorem climbOn_eq (ho : Shrinks operand) (level : Nat) (left : Expr) (ts : List Located) :
    climbOn operand level left ts = (match operatorAt? ts with
      | some op => if level ≤ op.level then (do
          skip
          let first ← operand
          let right ← climbOn operand (op.level + 1) first
          climbOn operand level (.binary op left right) : Parser Expr) ts else .ok (left, ts)
      | none => .ok (left, ts)) := by
  cases hat : operatorAt? ts with
  | none => exact climbFrom_stop fun op h => by simp [hat] at h
  | some op =>
    obtain ⟨token, hhead, -⟩ := Option.bind_eq_some_iff.mp hat
    obtain ⟨u, us, rfl, -⟩ := head_eq_some hhead
    change climbFrom operand (u :: us) level left (u :: us) = _
    rw [climbFrom_cons hat]
    dsimp only
    split
    · rw [skip_bind]
      refine bind_congr fun first vs hfirst => ?_
      have hvs := ho us first vs hfirst
      rw [bind_congr_left (climbFrom_eq_climbOn ho hvs)]
      refine bind_congr fun right ws hright => ?_
      have hws := shrinks_climbFrom ho _ _ _ vs right ws hright
      exact climbFrom_eq_climbOn ho (Nat.le_trans hws hvs)
    · rfl

end Climbing

section Statements

variable {d : Nat} {ts : List Located}

theorem statement_ne_nil {us : List Located} {s : Stmt} (h : Statement d us s) : us ≠ [] := by
  cases h with
  | call h => cases h <;> simp
  | _ => simp

variable (limit : Nat)

theorem shrinks_expression (d : Nat) : Shrinks (expression limit d) :=
  (sound_expression limit d).shrinks

theorem shrinks_operand (d : Nat) : Shrinks (operand limit d) :=
  (sound_operand limit d).shrinks

theorem shortens_statement (d : Nat) : Shortens (statement limit d) :=
  (sound_statement limit d).shortens statement_ne_nil

/-- A clause is read alike by two parsers of statements that agree on what is left after its
value. -/
theorem clause_congr {inner inner' : Parser Stmt}
    (h : ∀ us, us.length < ts.length → inner us = inner' us) :
    clause (expression limit d) inner ts = clause (expression limit d) inner' ts := by
  refine bind_congr fun value us hvalue => bind_congr fun _ vs hcolon => bind_congr_left (h vs ?_)
  have hle := shrinks_expression limit d ts value us hvalue
  obtain ⟨used, rfl, t, rfl, -⟩ := sound_symbol .colon us () vs hcolon
  simp only [List.length_append, List.length_cons, List.length_nil] at hle
  omega

theorem shortens_clause {inner : Parser Stmt} (h : Sound inner (Statement d)) :
    Shortens (clause (expression limit d) inner) := by
  refine (sound_clause (sound_expression limit d) h).shortens ?_
  rintro us c ⟨vs, colon, ws, rfl, -⟩
  simp

/-- A selection reads the statements of its clauses from fewer tokens than it has itself. -/
theorem selection_congr {inner inner' : Parser Stmt} (hinner : Sound inner (Statement d))
    (h : ∀ us, us.length < ts.length → inner us = inner' us) :
    selection (expression limit d) (block limit d) inner ts =
      selection (expression limit d) (block limit d) inner' ts := by
  refine bind_congr fun _ us hcase => bind_congr fun _ vs hof => bind_congr fun s ws hname => ?_
  obtain ⟨_, rfl, t, rfl, -⟩ := sound_keyword .CASE ts () us hcase
  obtain ⟨_, rfl, u, rfl, -⟩ := sound_keyword .OF us () vs hof
  obtain ⟨_, rfl, -⟩ := sound_name vs s ws hname
  refine bind_congr_left (repeatWhile_congr (shortens_clause limit hinner) rfl (fun xs hxs => ?_)
    (Nat.le_refl _) (Nat.le_refl _))
  refine clause_congr limit fun ys hys => h ys ?_
  simp only [List.length_append, List.length_cons]
  omega

theorem statementWith_congr {inner inner' : Parser Stmt} (hinner : Sound inner (Statement d))
    (h : ∀ us, us.length < ts.length → inner us = inner' us) :
    statementWith (expression limit d) (block limit d) inner ts =
      statementWith (expression limit d) (block limit d) inner' ts := by
  refine bind_congr fun head us hpeek => ?_
  obtain ⟨-, rfl⟩ : _ = head ∧ ts = us := by simpa [peek] using hpeek
  clear hpeek
  split
  case h_10 => exact selection_congr limit hinner h
  all_goals rfl

theorem statementUpTo_congr {bound bound' : List Located} (hb : ts.length ≤ bound.length)
    (hb' : ts.length ≤ bound'.length) :
    statementUpTo (expression limit d) (block limit d) bound ts =
      statementUpTo (expression limit d) (block limit d) bound' ts := by
  induction bound generalizing ts bound' with
  | nil =>
    obtain rfl := List.length_eq_zero_iff.mp (Nat.le_zero.mp hb)
    cases bound' <;> rfl
  | cons t bound ih =>
    cases bound' with
    | nil =>
      obtain rfl := List.length_eq_zero_iff.mp (Nat.le_zero.mp hb')
      rfl
    | cons t' bound' =>
      simp only [List.length_cons] at hb hb'
      refine statementWith_congr limit ?_ fun us hus => ih (by omega) (by omega)
      exact sound_statementUpTo (sound_expression limit d) (sound_block limit d) bound

theorem statement_eq_upTo (d : Nat) (ts : List Located) :
    statement limit d ts = statementUpTo (expression limit d) (block limit d) ts ts := by
  cases d <;> rfl

/-- A statement of a clause is read like any other statement. -/
theorem statement_eq (d : Nat) (ts : List Located) :
    statement limit d ts =
      statementWith (expression limit d) (block limit d) (statement limit d) ts := by
  rw [statement_eq_upTo]
  cases ts with
  | nil => rfl
  | cons t ts =>
    refine statementWith_congr limit ?_ fun us hus => ?_
    · exact sound_statementUpTo (sound_expression limit d) (sound_block limit d) ts
    · rw [statement_eq_upTo]
      exact statementUpTo_congr limit (Nat.le_of_lt_succ hus) (Nat.le_refl _)

end Statements

end Chalkboard.Parser
