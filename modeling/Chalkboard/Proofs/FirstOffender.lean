import Chalkboard.Proofs.ViableParsers

/-! # The offending token is the first one

The parser of programs takes no token that does not fit, and it never looks beyond the offending
one. So a parse error is about the first token with which no program goes on, and it stays the same
whatever comes after that token.
-/

namespace Chalkboard

namespace Parser

/-! ## Programs -/

section Programs

variable {n : Nat} {F : Follow}

theorem viable_param : Viable n F (Starts (.name "x")) param param := by
  have hrest : ∀ m byRef, Viable m F (Starts (.name "x"))
      (name >>= fun s => symbol .colon >>= fun _ => typeName >>= fun type =>
        pure (Chalkboard.Param.mk s type byRef))
      (name >>= fun s => symbol .colon >>= fun _ => typeName >>= fun type =>
        pure ⟨s, type, byRef⟩) :=
    fun m byRef => .name fun s => .symbol (.typeName fun type => Chalkboard.Param.mk s type byRef)
  apply Viable.accept (offers_acceptKeyword .BYREF)
  · exact fun m _ => hrest m true
  · apply Viable.accept (offers_acceptKeyword .BYVAL)
    · exact fun m _ => hrest m false
    · exact hrest n false
    · exact fun r hr => hr.lacks nofun
  · exact fun r hr => hr.lacks nofun

/-- Nothing comes next that parameters begin with. -/
theorem viable_params :
    Viable n (Lacks (.symbol .leftParen)) (Lacks (.symbol .leftParen)) params params := by
  apply Viable.accept (offers_acceptSymbol .leftParen)
  · exact fun m _ => viable_upToParen (.commaList (fun _ => viable_param) sound_param.shrinks
      sound_param.shrinks (fun _ => id) fun _ => Clear.lacks_comma)
  · exact .pure []
  · exact fun _ => id

def fieldStart : Parser Unit := do
  unless ← acceptKeyword .DECLARE do
    stuck .expectedField

theorem fieldStart_of_lacks {r : List Located} (h : Lacks (.keyword .DECLARE) r) :
    fieldStart r = .error ⟨.expectedField, r⟩ :=
  acceptKeyword_bind_of_not (startsWithKeyword_of_lacks h) _

theorem takes_fieldStart : Takes (.keyword .DECLARE) fieldStart where
  dichotomy ts := by
    by_cases hlacks : Lacks (.keyword .DECLARE) ts
    · exact .inl ⟨.expectedField, fun r hr => fieldStart_of_lacks (by rwa [Lacks, hr])⟩
    · obtain ⟨t, us, rfl, ht⟩ := starts_of_not_lacks hlacks
      exact .inr ⟨t, us, (), rfl, fun r => acceptKeyword_bind ht _⟩
  takes := ⟨(), fun _ => rfl⟩

theorem fieldDecls_eq : fieldDecls = (do
    fieldStart
    let names ← commaList name
    symbol .colon
    let type ← typeName
    pure (names.map fun s => ⟨s, type⟩)) := by
  funext ts
  by_cases hlacks : Lacks (.keyword .DECLARE) ts
  · rw [bind_of_error (fieldStart_of_lacks hlacks)]
    exact acceptKeyword_bind_of_not (startsWithKeyword_of_lacks hlacks) _
  · obtain ⟨⟨token, start, stop⟩, us, rfl, rfl⟩ := starts_of_not_lacks hlacks
    rfl

theorem viable_fieldDecls :
    Viable n AfterStmt (Starts (.keyword .DECLARE)) fieldDecls fieldDecls := by
  rw [fieldDecls_eq]
  apply Viable.take takes_fieldStart
  intro _
  apply viable_names.bind
  · exact fun names => .symbol (.typeName fun type => names.map fun s => (⟨s, type⟩ : FieldDecl))
  · exact fun r hr => hr.clear ⟨rfl, rfl, rfl⟩

theorem shortens_fieldDecls : Shortens fieldDecls := by
  refine sound_fieldDecls.shortens fun h => ?_
  cases h
  simp

theorem viable_recordType :
    Viable n AfterStmt (Starts (.keyword .TYPE)) recordType recordType := by
  apply Viable.keyword
  apply Viable.name
  intro s
  apply (viable_fieldDecls.manyWhile shortens_fieldDecls shortens_fieldDecls rfl isOpen_congr).bind
  · exact fun fields => .keyword (.pure (⟨s, fields.flatten⟩ : RecordType))
  · exact fun r hr => hr.afterBlock (by simp) rfl

variable {limit limit' : Nat}

theorem viable_procedure (h : limit < limit') :
    Viable n AfterStmt (Starts (.keyword .PROCEDURE)) (procedure limit) (procedure limit') := by
  apply Viable.keyword
  apply Viable.name
  intro s
  apply viable_params.bind
  · exact fun params => (blocks_block h).closed (by simp) rfl (Subroutine.mk s params none)
  · exact fun r hr => hr.2.lacks_symbol _

theorem viable_function (h : limit < limit') :
    Viable n AfterStmt (Starts (.keyword .FUNCTION)) (function limit) (function limit') := by
  apply Viable.keyword
  apply Viable.name
  intro s
  apply viable_params.bind
  · intro params
    apply Viable.keyword
    exact .take takes_typeName fun type =>
      (blocks_block h).closed (by simp) rfl (Subroutine.mk s params (some type))
  · exact fun r hr => hr.lacks nofun

theorem shortens_item (limit : Nat) : Shortens (item limit) :=
  (sound_item limit).shortens item_ne_nil

theorem viable_item (h : limit < limit') :
    Viable n AfterStmt (Starts (.keyword .INPUT)) (item limit) (item limit') := by
  have hother : ∀ limit r, LacksAll [.keyword .PROCEDURE, .keyword .FUNCTION, .keyword .TYPE] r →
      item limit r = (statement limit limit >>= fun s => pure (.statement s)) r := by
    rintro limit r ⟨hproc, hfun, htype, -⟩
    rcases r with - | ⟨⟨token, start, stop⟩, us⟩
    · rfl
    · cases token with
      | keyword k => cases k with
        | PROCEDURE => exact absurd rfl (hproc _ rfl)
        | FUNCTION => exact absurd rfl (hfun _ rfl)
        | TYPE => exact absurd rfl (htype _ rfl)
        | _ => rfl
      | _ => rfl
  refine ((viable_statement h).map .statement).dispatch
    [.keyword .PROCEDURE, .keyword .FUNCTION, .keyword .TYPE]
    (fun r hr => ⟨hr.lacks nofun, hr.lacks nofun, hr.lacks nofun, trivial⟩) (hother limit)
    (hother limit') fun t us ht hts => ?_
  have hs := shortens_item limit
  simp only [List.mem_cons, List.not_mem_nil, or_false] at ht
  obtain ht | ht | ht := ht
  · have hstarts : Starts (.keyword .PROCEDURE) (t :: us) := congrArg some ht
    refine .of_shortens (.of_starts (((viable_procedure h).map .subroutine).viableAt _ hts)
      hstarts ?_ ?_) hs
    · rintro ⟨_, _, _⟩ us rfl
      rfl
    · rintro ⟨_, _, _⟩ us rfl
      rfl
  · have hstarts : Starts (.keyword .FUNCTION) (t :: us) := congrArg some ht
    refine .of_shortens (.of_starts (((viable_function h).map .subroutine).viableAt _ hts)
      hstarts ?_ ?_) hs
    · rintro ⟨_, _, _⟩ us rfl
      rfl
    · rintro ⟨_, _, _⟩ us rfl
      rfl
  · have hstarts : Starts (.keyword .TYPE) (t :: us) := congrArg some ht
    refine .of_shortens (.of_starts ((viable_recordType.map .recordType).viableAt _ hts)
      hstarts ?_ ?_) hs
    · rintro ⟨_, _, _⟩ us rfl
      rfl
    · rintro ⟨_, _, _⟩ us rfl
      rfl

theorem viable_program (h : limit < limit') :
    Viable n (Over (!·.isEmpty) AfterStmt) (Over (!·.isEmpty) AfterStmt) (program limit)
    (program limit') := by
  refine ((viable_item h).manyWhile (shortens_item limit) (shortens_item limit') rfl ?_).map
    Program.mk
  intro r r' hr
  cases r with
  | nil => rw [List.head?_eq_none_iff.mp hr.symm]
  | cons t us =>
    obtain ⟨us', rfl⟩ := List.head?_eq_some_iff.mp hr.symm
    rfl

variable {ts : List Located}

/-- More levels change nothing about a program that is accepted. -/
theorem program_of_lt (h : limit < limit') {p : Chalkboard.Program} {rest : List Located}
    (hok : program limit ts = .ok (p, rest)) : program limit' ts = .ok (p, rest) := by
  obtain ⟨used, rfl, -, hsame⟩ := ((viable_program h).viableAt ts (Nat.le_refl _)).ok hok
  exact (hsame rest (.inl rfl)).2

/-- The parser gets stuck at the first token that does not fit, whatever comes after it. With more
levels to nest, some program begins with the tokens before that one. -/
theorem program_eq_error {s : Stuck} (h : program limit ts = .error s) :
    ∃ used, ts = used ++ s.rest ∧
    (∀ r, r.head? = s.rest.head? → program limit (used ++ r) = .error ⟨s.cause, r⟩) ∧
    ∃ more p, ∀ limit' > limit, program limit' (used ++ more) = .ok (p, []) := by
  have hviable := viable_program (n := ts.length) (Nat.lt_succ_self limit)
  have hend : Over (!·.isEmpty) AfterStmt [] := ⟨rfl, .nil, nofun⟩
  obtain ⟨used, hts, hlocal, hmore⟩ := (hviable.viableAt ts (Nat.le_refl _)).error h
  refine ⟨used, hts, hlocal, ?_⟩
  obtain ⟨more, p, hok⟩ : ∃ more p, program (limit + 1) (used ++ more) = .ok (p, []) := by
    by_cases hused : used = []
    · obtain ⟨more, p, hfin⟩ := hviable.finishes
      exact ⟨more, p, by simpa [hused] using (hfin [] hend).2⟩
    · obtain ⟨more, p, hmore⟩ := hmore hused
      exact ⟨more, p, by simpa using hmore [] hend⟩
  refine ⟨more, p, fun limit' hlt => ?_⟩
  obtain hlt | rfl : limit + 1 < limit' ∨ limit + 1 = limit' := Nat.lt_or_eq_of_le hlt
  · exact program_of_lt hlt hok
  · exact hok

end Programs

end Parser

/-- The tokens are a program if nesting is not limited. -/
def AcceptedUnlimited (ts : List Located) (p : Program) : Prop :=
  ∃ n, ∀ limit ≥ n, Parser.program limit ts = .ok (p, [])

/-- A parse error is about the first token that does not fit, or about the end if all tokens do: the
tokens before it begin some program, and with it they begin none, since everything that begins with
these tokens fails with the same error. -/
theorem parse_error_at_first_offender {size : Nat} {ts : List Located} {e : ParseError}
    (h : Program.parse size ts = .error e) :
    ∃ k ≤ ts.length, Parser.program Parser.nestingLimit ts = .error ⟨e.cause, ts.drop k⟩ ∧
      ((k = ts.length ∧ e.line = none ∧ e.span = ⟨size, size⟩) ∨
        ∃ t, ts[k]? = some t ∧ e.line = some t.line ∧ e.span = t.span ∧
          ∀ size' us, ts.take (k + 1) <+: us → Program.parse size' us = .error e) ∧
      ∃ more p, AcceptedUnlimited (ts.take k ++ more) p := by
  simp only [Program.parse, Parser.parse] at h
  split at h
  · cases h
  · rename_i s hs
    cases h
    obtain ⟨cause, rest⟩ := s
    obtain ⟨used, rfl, hlocal, more, p, hmore⟩ := Parser.program_eq_error hs
    have hmore' : ∃ more p, AcceptedUnlimited ((used ++ rest).take used.length ++ more) p :=
      ⟨more, p, Parser.nestingLimit + 1, fun limit hle => by simpa using hmore limit hle⟩
    refine ⟨used.length, by simp, ?_, ?_, hmore'⟩
    · cases rest <;> simpa [ParseError.ofStuck] using hs
    · cases rest with
      | nil => exact .inl ⟨by simp, rfl, rfl⟩
      | cons t rest =>
        refine .inr ⟨t, by simp, rfl, rfl, fun size' us hus => ?_⟩
        obtain ⟨tail, rfl⟩ := hus
        have htake : (used ++ t :: rest).take (used.length + 1) = used ++ [t] := by
          simp [List.take_append, List.take_of_length_le]
        have hstuck := hlocal (t :: tail) rfl
        rw [htake, List.append_assoc, List.singleton_append]
        simp only [Program.parse, Parser.parse, hstuck]
        rfl

/-- `OUTPUT )` is wrong from its second token on. -/
def outputNothing : List Located :=
  [⟨.keyword .OUTPUT, .origin, 6⟩, ⟨.symbol .rightParen, ⟨7, 1, 8⟩, 8⟩]

theorem parse_error_at_first_offender_parenthesis :
    ∃ e, Program.parse 8 outputNothing = .error e ∧
      e.cause = .unexpectedOperand (.symbol .rightParen) ∧ e.line = some 1 ∧ e.span = ⟨7, 8⟩ ∧
      Parser.program Parser.nestingLimit outputNothing = .error ⟨e.cause, outputNothing.drop 1⟩ ∧
      (∀ size' us, outputNothing <+: us → Program.parse size' us = .error e) ∧
      ∃ more p, AcceptedUnlimited (outputNothing.take 1 ++ more) p := by
  obtain ⟨k, hk, hstuck, hplace, hmore⟩ :=
    parse_error_at_first_offender (show Program.parse 8 outputNothing = _ from rfl)
  obtain rfl : k = 1 := by
    have hdrop := congrArg Parser.Stuck.rest (Except.error.inj hstuck)
    have hlength : outputNothing.length - 1 = outputNothing.length - k := by
      simpa using congrArg List.length hdrop
    simp [outputNothing] at hk hlength
    omega
  obtain ⟨hend, -⟩ | ⟨t, -, -, -, hsame⟩ := hplace
  · cases hend
  · exact ⟨_, rfl, rfl, rfl, rfl, hstuck, hsame, hmore⟩

end Chalkboard
