import Chalkboard.Proofs.StatementReading

/-! # Reading what was written

Parsing is the inverse of writing: the tokens of a program that can be written are read back as that
program. Items, like statements, are not separated by anything; each begins with a token that does
not go on with the item before it.
-/

namespace Chalkboard

open Chalkboard.Parser Chalkboard.Grammar

section Items

variable {limit : Nat} {us rest : List Located}

theorem reads_fieldDecls {f : FieldDecl} (hus : us.map Located.token = f.tokens) :
    fieldDecls (us ++ rest) = .ok ([f], rest) := by
  simp only [FieldDecl.tokens, List.map_eq_cons_iff, List.map_eq_nil_iff] at hus
  obtain ⟨t, _, rfl, ht, u, _, rfl, hu, colon, _, rfl, hcolon, v, _, rfl, hv, rfl⟩ := hus
  have hnames : commaList name ([u] ++ colon :: v :: rest) = .ok ([f.name], colon :: v :: rest) :=
    reads_names (by simp) (by simp [hu, nameTokens, commas]) (startsWithSymbol_of_token hcolon _)
  unfold fieldDecls
  rw [List.cons_append, acceptKeyword_bind ht]
  change (do
    let names ← commaList name
    symbol .colon
    let type ← typeName
    pure (names.map fun s => ⟨s, type⟩) : Parser (List FieldDecl)) ([u] ++ colon :: v :: rest) = _
  rw [bind_of_ok hnames, symbol_bind hcolon, typeName_bind hv]
  rfl

theorem readsMany_fields {fields : List FieldDecl} {t : Located}
    (hus : us.map Located.token = fields.flatMap FieldDecl.tokens)
    (ht : t.token = .keyword .ENDTYPE) :
    ReadsMany (isOpen [.ENDTYPE]) fieldDecls (us ++ t :: rest) (fields.map ([·])) (t :: rest) := by
  induction fields generalizing us with
  | nil =>
    obtain rfl := List.map_eq_nil_iff.mp hus
    exact .stop (isOpen_of_closer ht (by simp))
  | cons f fields ih =>
    rw [List.flatMap_cons, List.map_eq_append_iff] at hus
    obtain ⟨vs, ws, rfl, hvs, hws⟩ := hus
    have hread : fieldDecls (vs ++ (ws ++ t :: rest)) = .ok ([f], ws ++ t :: rest) :=
      reads_fieldDecls hvs
    obtain ⟨u, vs', rfl, hu, -⟩ := List.map_eq_cons_iff.mp hvs
    rw [List.append_assoc]
    refine .more ?_ hread ?_ (ih hws)
    · have hbegins : u.token.beginsStmt = true := by
        rw [hu]
        rfl
      exact isOpen_of_begins hbegins (by decide)
    · simp only [List.cons_append, List.length_cons, List.length_append]
      omega

theorem reads_param {p : Chalkboard.Param} (hus : us.map Located.token = p.tokens) :
    param (us ++ rest) = .ok (p, rest) := by
  obtain ⟨s, type, byRef⟩ := p
  simp only [Param.tokens, List.map_eq_cons_iff, List.map_eq_nil_iff] at hus
  obtain ⟨t, _, rfl, ht, u, _, rfl, hu, colon, _, rfl, hcolon, v, _, rfl, hv, rfl⟩ := hus
  have hrest : (do
      let s ← name
      symbol .colon
      return ⟨s, ← typeName, byRef⟩ : Parser Chalkboard.Param) (u :: colon :: v :: rest) =
        .ok (⟨s, type, byRef⟩, rest) := by
    rw [name_bind hu, symbol_bind hcolon, typeName_bind hv]
    rfl
  obtain ⟨_, start, stop⟩ := t
  cases byRef <;> cases ht <;> exact hrest

/-- Every parameter begins with its mark. -/
theorem head_commas_params {ps : List Chalkboard.Param} (hne : ps ≠ []) :
    ∃ k tokens, commas (ps.map Param.tokens) = .keyword k :: tokens := by
  match ps with
  | [p] => exact ⟨_, _, rfl⟩
  | p :: q :: ps => exact ⟨_, _, rfl⟩

theorem reads_params {ps : List Chalkboard.Param} {l r : Located}
    (hl : l.token = .symbol .leftParen) (hr : r.token = .symbol .rightParen)
    (hus : us.map Located.token = commas (ps.map Param.tokens)) :
    params (l :: (us ++ r :: rest)) = .ok (ps, rest) := by
  unfold params
  rw [acceptSymbol_bind hl, if_pos rfl, atSymbol_bind]
  by_cases hps : ps = []
  · subst hps
    obtain rfl := List.map_eq_nil_iff.mp hus
    rw [List.nil_append, startsWithSymbol_of_token hr]
    change (do symbol .rightParen; pure [] : Parser (List Chalkboard.Param)) (r :: rest) = _
    rw [symbol_bind hr]
    rfl
  · have hlist : commaList param (us ++ r :: rest) = .ok (ps, r :: rest) :=
      commaList_of_readsList (readsList_of_words (fun p us rest => reads_param) hps hus
        (startsWithSymbol_of_token hr .comma))
    obtain ⟨k, tokens, hhead⟩ := head_commas_params hps
    obtain ⟨⟨_, start, stop⟩, vs, rfl, rfl, -⟩ := List.map_eq_cons_iff.mp (hus.trans hhead)
    change (do
      let params ← commaList param
      symbol .rightParen
      pure params : Parser (List Chalkboard.Param)) _ = _
    rw [bind_of_ok hlist, symbol_bind hr]
    rfl

theorem reads_recordType {type : RecordType}
    (hus : us.map Located.token = (Chalkboard.Item.recordType type).tokens) :
    item limit (us ++ rest) = .ok (.recordType type, rest) := by
  obtain ⟨s, fields⟩ := type
  simp only [Item.tokens, List.map_eq_cons_iff, List.map_eq_append_iff, List.map_eq_nil_iff] at hus
  obtain ⟨⟨_, start, stop⟩, _, rfl, rfl, u, _, rfl, hu, ts, _, rfl, hts, v, _, rfl, hv, rfl⟩ := hus
  have hfields : manyWhile (isOpen [.ENDTYPE]) fieldDecls (ts ++ v :: rest) =
      .ok (fields.map ([·]), v :: rest) := manyWhile_of_readsMany (readsMany_fields hts hv)
  have hflatten : (fields.map ([·])).flatten = fields := by
    rw [← List.flatMap_def, List.flatMap_singleton']
  have hread : recordType (⟨.keyword .TYPE, start, stop⟩ :: u :: (ts ++ v :: rest)) =
      .ok (⟨s, fields⟩, rest) := by
    unfold recordType
    rw [keyword_bind rfl, name_bind hu, bind_of_ok hfields, keyword_bind hv, hflatten]
    rfl
  simp only [List.cons_append, List.append_assoc, List.nil_append]
  change (recordType >>= fun type => pure (Chalkboard.Item.recordType type)) _ = _
  rw [bind_of_ok hread]
  rfl

theorem reads_subroutine {sub : Subroutine} (hbody : ReadsBlock limit limit sub.body)
    (hus : us.map Located.token = (Chalkboard.Item.subroutine sub).tokens) (hline : NextInLine us) :
    item limit (us ++ rest) = .ok (.subroutine sub, rest) := by
  obtain ⟨s, ps, returns, body⟩ := sub
  cases returns with
  | none =>
    simp only [Item.tokens, List.map_eq_cons_iff, List.map_eq_append_iff,
      List.map_eq_nil_iff] at hus
    obtain ⟨t, _, rfl, ht, u, _, rfl, hu, l, _, rfl, hl, ts, _, rfl, hts, r, _, rfl, hr, vs, _, rfl,
      hvs, v, _, rfl, hv, rfl⟩ := hus
    have hbody' := hbody vs rest v .ENDPROCEDURE [.ENDPROCEDURE] hvs
      (hline.part (t :: u :: l :: (ts ++ [r])) [v] (by simp)) hv (by simp) (by decide)
    obtain ⟨_, start, stop⟩ := t
    cases ht
    have hread : procedure limit
        (⟨.keyword .PROCEDURE, start, stop⟩ :: u :: l :: (ts ++ r :: (vs ++ v :: rest))) =
          .ok (⟨s, ps, none, body⟩, rest) := by
      unfold procedure
      rw [keyword_bind rfl, name_bind hu, bind_of_ok (reads_params hl hr hts), bind_of_ok hbody',
        keyword_bind hv]
      rfl
    simp only [List.cons_append, List.append_assoc, List.nil_append]
    change (procedure limit >>= fun sub => pure (Chalkboard.Item.subroutine sub)) _ = _
    rw [bind_of_ok hread]
    rfl
  | some type =>
    simp only [Item.tokens, List.map_eq_cons_iff, List.map_eq_append_iff,
      List.map_eq_nil_iff] at hus
    obtain ⟨t, _, rfl, ht, u, _, rfl, hu, l, _, rfl, hl, ts, _, rfl, hts, r, _, rfl, hr, w, _, rfl,
      hw, x, _, rfl, hx, vs, _, rfl, hvs, v, _, rfl, hv, rfl⟩ := hus
    have hbody' := hbody vs rest v .ENDFUNCTION [.ENDFUNCTION] hvs
      (hline.part (t :: u :: l :: (ts ++ [r, w, x])) [v] (by simp)) hv (by simp) (by decide)
    obtain ⟨_, start, stop⟩ := t
    cases ht
    have hread : function limit
        (⟨.keyword .FUNCTION, start, stop⟩ :: u :: l :: (ts ++ r :: w :: x :: (vs ++ v :: rest))) =
          .ok (⟨s, ps, some type, body⟩, rest) := by
      unfold function
      rw [keyword_bind rfl, name_bind hu, bind_of_ok (reads_params hl hr hts), keyword_bind hw,
        typeName_bind hx, bind_of_ok hbody', keyword_bind hv]
      rfl
    simp only [List.cons_append, List.append_assoc, List.nil_append]
    change (function limit >>= fun sub => pure (Chalkboard.Item.subroutine sub)) _ = _
    rw [bind_of_ok hread]
    rfl

theorem item_of_beginsStmt {t : Located} (ht : t.token.beginsStmt = true) :
    item limit (t :: rest) =
      (statement limit limit >>= fun s => pure (Chalkboard.Item.statement s)) (t :: rest) := by
  obtain ⟨token, start, stop⟩ := t
  change token.beginsStmt = true at ht
  unfold Token.beginsStmt at ht
  split at ht <;> first | rfl | cases ht

theorem reads_item {i : Chalkboard.Item} (hw : i.isWritable = true) (hd : i.levels ≤ limit)
    (hus : us.map Located.token = i.tokens) (hline : NextInLine us) (hrest : Clear rest) :
    item limit (us ++ rest) = .ok (i, rest) := by
  cases i with
  | recordType type => exact reads_recordType hus
  | subroutine sub =>
    exact reads_subroutine (reads_block_of_levels (reads_stmts sub.body hw) hd) hus hline
  | statement s =>
    have hread : statement limit limit (us ++ rest) = .ok (s, rest) :=
      statement_of_reads (reads_stmt s hw hd) hus hline hrest
    obtain ⟨token, tokens, hs, hbegins⟩ := s.head_tokens
    obtain ⟨t, vs, rfl, rfl, -⟩ := List.map_eq_cons_iff.mp (hus.trans hs)
    rw [List.cons_append, item_of_beginsStmt hbegins, ← List.cons_append, bind_of_ok hread]
    rfl

theorem head_item_tokens (i : Chalkboard.Item) :
    ∃ t ts, i.tokens = t :: ts ∧ t.isClear = true := by
  cases i with
  | recordType type => exact ⟨_, _, rfl, rfl⟩
  | subroutine sub =>
    obtain ⟨s, params, returns, body⟩ := sub
    cases returns <;> exact ⟨_, _, rfl, rfl⟩
  | statement s =>
    obtain ⟨t, ts, hs, hbegins⟩ := s.head_tokens
    exact ⟨t, ts, hs, isClear_of_beginsStmt hbegins⟩

theorem readsMany_items {items : List Chalkboard.Item}
    (hw : ∀ i ∈ items, i.isWritable = true) (hd : ∀ i ∈ items, i.levels ≤ limit)
    (hus : us.map Located.token = items.flatMap Item.tokens) (hline : NextInLine us) :
    Clear us ∧ ReadsMany (!·.isEmpty) (item limit) us items [] := by
  induction items generalizing us with
  | nil =>
    obtain rfl := List.map_eq_nil_iff.mp hus
    exact ⟨.nil, .stop rfl⟩
  | cons i items ih =>
    rw [List.flatMap_cons, List.map_eq_append_iff] at hus
    obtain ⟨vs, ws, rfl, hvs, hws⟩ := hus
    obtain ⟨hclear, hmore⟩ :=
      ih (fun i hi => hw i (by simp [hi])) (fun i hi => hd i (by simp [hi])) hws
      (hline.part vs [] (by simp))
    have hread :=
      reads_item (hw i (by simp)) (hd i (by simp)) hvs (hline.part [] ws (by simp)) hclear
    obtain ⟨token, tokens, hi, hfirst⟩ := head_item_tokens i
    obtain ⟨t, vs', rfl, rfl, -⟩ := List.map_eq_cons_iff.mp (hvs.trans hi)
    refine ⟨clear_cons hfirst, .more (by simp) hread ?_ hmore⟩
    simp only [List.cons_append, List.length_cons, List.length_append]
    omega

end Items

theorem Program.levels_of_mem {p : Program} {n : Nat} (h : p.levels ≤ n) :
    ∀ i ∈ p.items, i.levels ≤ n := by
  unfold Program.levels at h
  generalize p.items = items at h
  induction items with
  | nil => simp
  | cons i items ih =>
    simp only [List.map_cons, List.foldr_cons, Nat.max_le] at h
    intro j hj
    rcases List.mem_cons.mp hj with rfl | hj
    · exact h.1
    · exact ih h.2 j hj

/-- Parsing gives back a program from the tokens it is written with, wherever they stand in the
text, as long as every `NEXT` and the name of its counter are on one line. -/
theorem parse_tokens (p : Program) (size : Nat) (ts : List Located)
    (hts : ts.map Located.token = p.tokens) (hline : NextInLine ts) (hw : p.isWritable = true)
    (hd : p.levels ≤ nestingLimit) : Program.parse size ts = .ok p := by
  obtain ⟨-, hitems⟩ :=
    readsMany_items (List.all_eq_true.mp hw) (Program.levels_of_mem hd) hts hline
  have hprogram : program nestingLimit ts = .ok (p, []) := by
    unfold program
    rw [bind_of_ok (manyWhile_of_readsMany hitems)]
    rfl
  rw [Program.parse, Parser.parse, hprogram]

/-- A loop over a selection whose second clause has a value made with an operator. -/
def loopWithSelection : Program :=
  ⟨[.subroutine ⟨"f", [⟨"x", "REAL", true⟩], some "INTEGER",
    [.giveBack (.unary .neg (.var "x" none))]⟩,
    .statement (.forTo "i" (.var "a" none) (.call "f" []) (.literal (.bool true))
      [.caseOf "i" [(.unary .neg (.var "n" none), .input "m"),
          (.binary .add (.var "n" none) (.binary .mul (.var "i" none) (.var "i" none)),
            .assignElement "v" (.var "i" none) (.literal (.text "t")))]
        [.call "p" [.var "r" (some "k")]]])]⟩

theorem parse_tokens_loopWithSelection :
    loopWithSelection.isWritable = true ∧ loopWithSelection.levels = 3 ∧
    Program.parse 0 (loopWithSelection.tokens.map fun t => ⟨t, ⟨0, 1, 1⟩, 0⟩) =
      .ok loopWithSelection := by
  refine ⟨rfl, rfl, parse_tokens _ _ _ ?_ ?_ rfl (by decide)⟩
  · rw [List.map_map]
    exact List.map_id _
  · have hone : ∀ t ∈ loopWithSelection.tokens.map fun t => (⟨t, ⟨0, 1, 1⟩, 0⟩ : Located),
        t.line = 1 := by
      simp [Located.line]
    intro t u htu _
    rw [hone t (htu.subset (by simp)), hone u (htu.subset (by simp))]

end Chalkboard
