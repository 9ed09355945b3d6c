import Chalkboard.Proofs.AlikeTokens
import Chalkboard.Proofs.FirstOffender

/-! # Programs may be laid out freely

Tokens that stand elsewhere in the text are alike, as long as the names after `NEXT` keep to the
line of the `NEXT` or to another one. So they are read as the same program, or are refused for the
same cause at the same token.
-/

namespace Chalkboard

/-- Wherever `NEXT` is directly followed by a name, the two stand on one line in both lists or in
neither. -/
def AgreeAfterNext (ts us : List Located) : Prop :=
  ∀ i next counter next' counter', ts[i]? = some next → ts[i + 1]? = some counter →
    us[i]? = some next' → us[i + 1]? = some counter' → next.token = .keyword .NEXT →
    counter.token.isName = true → (counter.line = next.line ↔ counter'.line = next'.line)

theorem AgreeAfterNext.tail {t u : Located} {ts us : List Located}
    (h : AgreeAfterNext (t :: ts) (u :: us)) : AgreeAfterNext ts us :=
  fun i next counter next' counter' hnext hcounter hnext' hcounter' =>
    h (i + 1) next counter next' counter' hnext hcounter hnext' hcounter'

namespace Parser

theorem rename_id_token (token : Token) : token.rename id = token := by
  cases token <;> rfl

theorem namesCounter_iff {ts : List Located} : namesCounter ts = true ↔
    ∃ next counter rest, ts = next :: counter :: rest ∧ next.token = .keyword .NEXT ∧
      counter.token.isName = true ∧ counter.line = next.line := by
  constructor
  · intro h
    unfold namesCounter at h
    split at h
    · rename_i next counter rest
      simp only [Bool.and_eq_true, beq_iff_eq, startsWithKeyword_iff] at h
      obtain ⟨⟨⟨_, _, heq, hnext⟩, hname⟩, hline⟩ := h
      cases heq
      exact ⟨next, counter, rest, rfl, hnext, hname, hline⟩
    · cases h
  · rintro ⟨next, counter, rest, rfl, hnext, hname, hline⟩
    have hstarts : startsWithKeyword .NEXT (next :: counter :: rest) = true :=
      startsWithKeyword_iff.mpr ⟨next, _, rfl, hnext⟩
    simp [namesCounter, hstarts, hname, hline]

/-- Only where `NEXT` is directly followed by a name does it matter on which lines the two stand. -/
theorem namesCounter_eq {ts us : List Located}
    (htokens : us.map Located.token = ts.map Located.token)
    (hnext : AgreeAfterNext ts us) : namesCounter us = namesCounter ts := by
  rw [Bool.eq_iff_iff, namesCounter_iff, namesCounter_iff]
  constructor
  · rintro ⟨next, counter, rest, rfl, hn, hname, hline⟩
    obtain ⟨next', _, rfl, ht, htokens⟩ := List.map_eq_cons_iff.mp htokens.symm
    obtain ⟨counter', rest', rfl, ht', -⟩ := List.map_eq_cons_iff.mp htokens
    rw [← ht] at hn
    rw [← ht'] at hname
    exact ⟨next', counter', rest', rfl, hn, hname,
      (hnext 0 _ _ _ _ rfl rfl rfl rfl hn hname).mpr hline⟩
  · rintro ⟨next, counter, rest, rfl, hn, hname, hline⟩
    obtain ⟨next', _, rfl, ht, htokens⟩ := List.map_eq_cons_iff.mp htokens
    obtain ⟨counter', rest', rfl, ht', -⟩ := List.map_eq_cons_iff.mp htokens
    have hline' := (hnext 0 _ _ _ _ rfl rfl rfl rfl hn hname).mp hline
    exact ⟨next', counter', rest', rfl, ht.trans hn, by rwa [ht'], hline'⟩

theorem alike_of_agreeAfterNext {ts us : List Located}
    (htokens : us.map Located.token = ts.map Located.token) (hnext : AgreeAfterNext ts us) :
    Alike id (fun _ _ => True) ts us := by
  induction ts generalizing us with
  | nil =>
    obtain rfl := List.map_eq_nil_iff.mp htokens
    exact .nil
  | cons t ts ih =>
    cases us with
    | nil => cases htokens
    | cons u us =>
      obtain ⟨htoken, hrest⟩ := List.cons.inj htokens
      refine .cons ?_ trivial (namesCounter_eq htokens hnext) (ih hrest hnext.tail)
      rw [rename_id_token, htoken]

theorem Alike.length_eq {f : String → String} {R : Located → Located → Prop} {ts us : List Located}
    (h : Alike f R ts us) : us.length = ts.length := by
  induction h with
  | nil => rfl
  | cons _ _ _ _ ih => rw [List.length_cons, List.length_cons, ih]

end Parser

/-- Where the tokens of a program stand does not matter, the line of a name after `NEXT` apart: the
same tokens are read as the same program, or are refused for the same cause at the same place among
them. -/
theorem parse_ignores_layout (size size' : Nat) (ts us : List Located)
    (htokens : us.map Located.token = ts.map Located.token) (hnext : AgreeAfterNext ts us) :
    (∃ p, Program.parse size ts = .ok p ∧ Program.parse size' us = .ok p) ∨
    (∃ e e' k, Program.parse size ts = .error e ∧ Program.parse size' us = .error e' ∧
      e'.cause = e.cause ∧ e.StandsAt size ts k ∧ e'.StandsAt size' us k) := by
  have hkeeps : Parser.Similar.KeepsTypes id := fun _ _ => rfl
  have hres := Parser.Similar.program hkeeps Parser.nestingLimit _ _
    (Parser.alike_of_agreeAfterNext htokens hnext)
  simp only [Program.parse, Parser.parse]
  generalize hr : Parser.program Parser.nestingLimit ts = r at hres ⊢
  generalize hr' : Parser.program Parser.nestingLimit us = r' at hres ⊢
  cases hres with
  | @ok p _ _ _ => exact .inl ⟨p, rfl, by rw [p.rename_id]⟩
  | @stuck cause rest rest' hrest =>
    obtain ⟨used, rfl, -⟩ := Parser.program_eq_error hr
    obtain ⟨used', rfl, -⟩ := Parser.program_eq_error hr'
    have hlength : used'.length = used.length := by
      have := congrArg List.length htokens
      simp only [List.length_map, List.length_append, hrest.length_eq] at this
      omega
    refine .inr ⟨_, _, used.length, rfl, rfl, ?_, ParseError.standsAt_ofStuck .., ?_⟩
    · cases hrest <;> rfl
    · rw [← hlength]
      exact ParseError.standsAt_ofStuck ..

/-- `FOR i ← TRUE TO TRUE NEXT i`, each token on the line that is given for it. -/
def spreadLoop (lines : List Nat) : List Located :=
  let tokens : List Token :=
    [.keyword .FOR, .name "i", .symbol .assign, .keyword .TRUE, .keyword .TO,
    .keyword .TRUE, .keyword .NEXT, .name "i"]
  List.zipWith (fun token line => ⟨token, ⟨0, line, 1⟩, 0⟩) tokens lines

theorem parse_ignores_layout_next :
    ∃ p, Program.parse 0 (spreadLoop [1, 1, 1, 1, 1, 1, 1, 1]) = .ok p ∧
      Program.parse 9 (spreadLoop [1, 2, 3, 4, 5, 6, 7, 7]) = .ok p := by
  have htokens : (spreadLoop [1, 2, 3, 4, 5, 6, 7, 7]).map Located.token =
      (spreadLoop [1, 1, 1, 1, 1, 1, 1, 1]).map Located.token := rfl
  have hnext : AgreeAfterNext (spreadLoop [1, 1, 1, 1, 1, 1, 1, 1])
      (spreadLoop [1, 2, 3, 4, 5, 6, 7, 7]) := by
    intro i next counter next' counter' hnext hcounter hnext' hcounter' htoken _
    -- `NEXT` is the token number six, and nothing comes after the name that follows it.
    rcases i with - | - | - | - | - | - | - | i
    case succ.succ.succ.succ.succ.succ.succ => cases hcounter
    all_goals cases hnext
    all_goals try cases htoken
    cases hcounter
    cases hnext'
    cases hcounter'
    decide
  obtain hok | ⟨_, _, _, herror, _⟩ := parse_ignores_layout 0 9 _ _ htokens hnext
  · exact hok
  · cases herror

end Chalkboard
