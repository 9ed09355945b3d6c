import Chalkboard.Proofs.Grammar

/-! # Parsers and what they take

A parser succeeds with a result and the tokens that are left, or gets stuck. It is sound for a
language if the tokens it takes are a sequence of the language that is written for its result. The
parsers that all others are made of are sound for single tokens, for lists with commas and for
repetitions.
-/

namespace Chalkboard

namespace Parser

open Grammar (TreeLanguage Commas Many Name TypeName)

section Sequences

variable {α β : Type} {p : Parser α} {f : α → Parser β} {ts rest : List Located} {a : α} {b : β}
  {s : Stuck}

theorem bind_of_ok (h : p ts = .ok (a, rest)) : (p >>= f) ts = f a rest := by
  simp [bind, StateT.bind, Except.bind, h]

theorem bind_of_error (h : p ts = .error s) : (p >>= f) ts = .error s := by
  simp [bind, StateT.bind, Except.bind, h]

theorem bind_eq_ok (h : (p >>= f) ts = .ok (b, rest)) :
    ∃ a us, p ts = .ok (a, us) ∧ f a us = .ok (b, rest) := by
  cases hp : p ts with
  | ok r =>
    rw [bind_of_ok hp] at h
    exact ⟨_, _, rfl, h⟩
  | error s =>
    rw [bind_of_error hp] at h
    cases h

theorem peek_step {g : Option Token → Parser β} {r : Except Stuck (β × List Located)}
    (h : (peek >>= g) ts = r) : ∃ head, ts.head?.map Located.token = head ∧ g head ts = r :=
  ⟨_, rfl, h⟩

theorem peekSecond_step {g : Option Token → Parser β} {r : Except Stuck (β × List Located)}
    (h : (peekSecond >>= g) ts = r) :
    ∃ second, ts.tail.head?.map Located.token = second ∧ g second ts = r :=
  ⟨_, rfl, h⟩

theorem peekLine_step {g : Option Nat → Parser β} {r : Except Stuck (β × List Located)}
    (h : (peekLine >>= g) ts = r) : ∃ line, ts.head?.map Located.line = line ∧ g line ts = r :=
  ⟨_, rfl, h⟩

theorem skip_bind (g : Unit → Parser β) (t : Located) (ts : List Located) :
    (skip >>= g) (t :: ts) = g () ts := rfl

theorem head_eq_some {token : Token} (h : ts.head?.map Located.token = some token) :
    ∃ t us, ts = t :: us ∧ t.token = token := by
  cases ts with
  | nil => cases h
  | cons t us => exact ⟨t, us, rfl, Option.some.inj h⟩

end Sequences

/-- What the parser takes belongs to the language, with the result as its tree. -/
def Sound {α : Type} (p : Parser α) (L : TreeLanguage α) : Prop :=
  ∀ ts a rest, p ts = .ok (a, rest) → ∃ used, ts = used ++ rest ∧ L used a

section Rules

variable {α β : Type} {p : Parser α} {f : α → Parser β} {L : TreeLanguage α}
  {ts rest : List Located} {a : α} {b : β}

/-- The first of two parsers takes its tokens, and the second one goes on after them. -/
theorem Sound.step (hp : Sound p L) (h : (p >>= f) ts = .ok (b, rest)) :
    ∃ a us vs, ts = us ++ vs ∧ L us a ∧ f a vs = .ok (b, rest) := by
  obtain ⟨a, vs, h₁, h₂⟩ := bind_eq_ok h
  obtain ⟨us, rfl, hL⟩ := hp ts a vs h₁
  exact ⟨a, us, vs, rfl, hL, h₂⟩

theorem Sound.stuck (cause : Cause) : Sound (stuck cause) L := by
  intro ts a rest h
  cases h

theorem startsWithKeyword_iff {k : Keyword} :
    startsWithKeyword k ts = true ↔ ∃ t us, ts = t :: us ∧ t.token = .keyword k := by
  constructor
  · intro h
    unfold startsWithKeyword at h
    split at h
    · obtain rfl := beq_iff_eq.mp h
      exact ⟨_, _, rfl, rfl⟩
    · cases h
  · rintro ⟨⟨token, start, stop⟩, us, rfl, rfl⟩
    exact beq_self_eq_true k

theorem startsWithSymbol_iff {s : Symbol} :
    startsWithSymbol s ts = true ↔ ∃ t us, ts = t :: us ∧ t.token = .symbol s := by
  constructor
  · intro h
    unfold startsWithSymbol at h
    split at h
    · obtain rfl := beq_iff_eq.mp h
      exact ⟨_, _, rfl, rfl⟩
    · cases h
  · rintro ⟨⟨token, start, stop⟩, us, rfl, rfl⟩
    exact beq_self_eq_true s

/-- One token and nothing else. -/
def Only (token : Token) : TreeLanguage Unit := fun ts _ => ∃ t, ts = [t] ∧ t.token = token

/-- One token, or nothing, as the answer says. -/
def Maybe (token : Token) : TreeLanguage Bool := fun ts found =>
  (found = true ∧ ∃ t, ts = [t] ∧ t.token = token) ∨ (found = false ∧ ts = [])

theorem sound_keyword (k : Keyword) : Sound (keyword k) (Only (.keyword k)) := by
  intro ts a rest h
  unfold keyword at h
  split at h
  · rename_i hk
    obtain ⟨t, us, rfl, ht⟩ := startsWithKeyword_iff.mp hk
    cases h
    exact ⟨[t], rfl, t, rfl, ht⟩
  · cases h

theorem sound_symbol (s : Symbol) : Sound (symbol s) (Only (.symbol s)) := by
  intro ts a rest h
  unfold symbol at h
  split at h
  · rename_i hk
    obtain ⟨t, us, rfl, ht⟩ := startsWithSymbol_iff.mp hk
    cases h
    exact ⟨[t], rfl, t, rfl, ht⟩
  · cases h

theorem sound_acceptKeyword (k : Keyword) : Sound (acceptKeyword k) (Maybe (.keyword k)) := by
  intro ts a rest h
  unfold acceptKeyword at h
  split at h
  · rename_i hk
    obtain ⟨t, us, rfl, ht⟩ := startsWithKeyword_iff.mp hk
    cases h
    exact ⟨[t], rfl, .inl ⟨rfl, t, rfl, ht⟩⟩
  · cases h
    exact ⟨[], rfl, .inr ⟨rfl, rfl⟩⟩

theorem sound_acceptSymbol (s : Symbol) : Sound (acceptSymbol s) (Maybe (.symbol s)) := by
  intro ts a rest h
  unfold acceptSymbol at h
  split at h
  · rename_i hk
    obtain ⟨t, us, rfl, ht⟩ := startsWithSymbol_iff.mp hk
    cases h
    exact ⟨[t], rfl, .inl ⟨rfl, t, rfl, ht⟩⟩
  · cases h
    exact ⟨[], rfl, .inr ⟨rfl, rfl⟩⟩

theorem sound_atSymbol (s : Symbol) : Sound (atSymbol s) fun ts _ => ts = [] := by
  intro ts a rest h
  cases h
  exact ⟨[], rfl, rfl⟩

theorem sound_pure (a : α) : Sound (pure a) fun ts b => ts = [] ∧ b = a := by
  intro ts b rest h
  cases h
  exact ⟨[], rfl, rfl, rfl⟩

theorem sound_name : Sound name Name := by
  intro ts a rest h
  unfold name at h
  split at h
  · cases h
    exact ⟨[_], rfl, .mk rfl⟩
  · cases h

theorem sound_typeName : Sound typeName fun ts s => ∃ t, ts = [t] ∧ TypeName t.token s := by
  intro ts a rest h
  unfold typeName at h
  split at h
  · cases h
    exact ⟨[_], rfl, _, rfl, .record⟩
  · split at h
    · rename_i hk
      cases h
      exact ⟨[_], rfl, _, rfl, .builtIn hk⟩
    · cases h
  · cases h

/-- A repetition takes items one after the other; given enough rounds, and if no item is empty, it
stops only where it does not go on. -/
theorem sound_repeatWhile (hp : Sound p L) (goesOn : List Located → Bool) {bound : List Located}
    {as : List α} (h : repeatWhile goesOn p bound ts = .ok (as, rest)) :
    ∃ used, ts = used ++ rest ∧ Many L used as ∧
      ((∀ {us a}, L us a → us ≠ []) → ts.length ≤ bound.length → goesOn [] = false →
        goesOn rest = false) := by
  induction bound generalizing ts as with
  | nil =>
    cases h
    refine ⟨[], rfl, .nil, fun _ hlen hnil => ?_⟩
    rw [List.length_eq_zero_iff.mp (Nat.le_zero.mp hlen)]
    exact hnil
  | cons t bound ih =>
    have hget : repeatWhile goesOn p (t :: bound) ts = (if goesOn ts then do
        let a ← p
        let as ← repeatWhile goesOn p bound
        pure (a :: as)
      else pure []) ts := rfl
    rw [hget] at h
    split at h
    · obtain ⟨a, us, vs, rfl, hL, h₁⟩ := hp.step h
      obtain ⟨as, ws, h₂, h₃⟩ := bind_eq_ok h₁
      cases h₃
      obtain ⟨used, rfl, hmany, hstop⟩ := ih h₂
      refine ⟨us ++ used, by simp, .cons hL hmany, fun hne hlen hnil => hstop hne ?_ hnil⟩
      have hpos := List.length_pos_iff.mpr (hne hL)
      simp only [List.length_append, List.length_cons] at hlen ⊢
      omega
    · rename_i hgo
      cases h
      exact ⟨[], rfl, .nil, fun _ _ _ => Bool.eq_false_iff.mpr hgo⟩

theorem sound_manyWhile (hp : Sound p L) (goesOn : List Located → Bool) :
    Sound (manyWhile goesOn p) (Many L) := by
  intro ts as rest h
  obtain ⟨used, hts, hmany, -⟩ := sound_repeatWhile hp goesOn h
  exact ⟨used, hts, hmany⟩

theorem sound_repeatAfterComma (hp : Sound p L) {bound us : List Located} {as : List α}
    (h : repeatAfterComma p bound ts = .ok (as, rest)) (hL : L us a) :
    ∃ used, ts = used ++ rest ∧ Commas L (us ++ used) (a :: as) := by
  induction bound generalizing ts us a as with
  | nil =>
    cases h
    exact ⟨[], rfl, by simpa using .one hL⟩
  | cons t bound ih =>
    obtain ⟨found, _, _, rfl, hfound, h₁⟩ := (sound_acceptSymbol .comma).step h
    rcases hfound with ⟨rfl, comma, rfl, hcomma⟩ | ⟨rfl, rfl⟩
    · obtain ⟨b, vs, _, rfl, hb, h₂⟩ := hp.step h₁
      obtain ⟨bs, ws, h₃, h₄⟩ := bind_eq_ok h₂
      cases h₄
      obtain ⟨used, rfl, hcommas⟩ := ih h₃ hb
      exact ⟨comma :: (vs ++ used), by simp, .more hL hcomma hcommas⟩
    · cases h₁
      exact ⟨[], rfl, by simpa using .one hL⟩

theorem sound_commaList (hp : Sound p L) : Sound (commaList p) (Commas L) := by
  intro ts as rest h
  obtain ⟨a, us, _, rfl, ha, h₁⟩ := hp.step h
  obtain ⟨as, ws, h₂, h₃⟩ := bind_eq_ok h₁
  cases h₃
  obtain ⟨used, rfl, hcommas⟩ := sound_repeatAfterComma hp h₂ ha
  exact ⟨us ++ used, by simp, hcommas⟩

end Rules

end Parser

/-- The error is about the token with the given number, or about the end of the text if there is
none. -/
structure ParseError.StandsAt (e : ParseError) (size : Nat) (ts : List Located)
    (k : Nat) : Prop where
  le_length : k ≤ ts.length
  line : e.line = ts[k]?.map Located.line
  span : e.span = (ts[k]?.map Located.span).getD ⟨size, size⟩

theorem ParseError.standsAt_ofStuck (size : Nat) (cause : Parser.Cause) (used rest : List Located) :
    (ParseError.ofStuck size ⟨cause, rest⟩).StandsAt size (used ++ rest) used.length := by
  cases rest with
  | nil => exact ⟨by simp, by simp [ofStuck], by simp [ofStuck]⟩
  | cons t rest => exact ⟨by simp, by simp [ofStuck], by simp [ofStuck]⟩

end Chalkboard
