import Chalkboard.Proofs.StatementReading
import Chalkboard.Proofs.Unfolding

/-! # Viable prefixes

A parser looks at the tokens that it takes and at the one after them, and at nothing else. It takes
no token after which its input cannot be completed: when it gets stuck, some tokens can be put in
place of the offending one so that a parser with a level more to nest succeeds.

Both are said for a parser and one with more levels, and relative to what may come next: a follow
set holds the token lists that do not go on with what was read. The rule for sequences asks that
whatever the second parser may begin with is in the follow set of the first.
-/

namespace Chalkboard.Parser

open Grammar

/-- A set of token lists that may come next. -/
abbrev Follow := List Located → Prop

/-- The lists that begin with this token. -/
def Starts (token : Token) : Follow := fun ts => ts.head?.map Located.token = some token

def Nowhere : Follow := fun _ => False

/-- The lists of a follow set where a repetition does not go on. -/
def Over (goesOn : List Located → Bool) (F : Follow) : Follow := fun ts => goesOn ts = false ∧ F ts

def anywhere (token : Token) : Located := ⟨token, .origin, 0⟩

theorem starts_anywhere (token : Token) (ts : List Located) :
    Starts token (anywhere token :: ts) := rfl

/-! ## One parser and one input -/

section Viable

variable {α β : Type} {F F₁ B B₁ B₂ B₃ : Follow} {p q p' q' : Parser α} {f g : α → Parser β}
  {ts : List Located} {n : Nat}

/-- The parser succeeds on some tokens that were made up for it, and these begin as told. -/
def Finishes (F B : Follow) (q : Parser α) : Prop :=
  ∃ more a, ∀ tail, F tail → B (more ++ tail) ∧ q (more ++ tail) = .ok (a, tail)

/-- What `p` does on `ts` depends on the tokens that it takes and the one after them. If it
succeeds, so does `q`, also before everything in the follow set. If it gets stuck after some tokens,
then `q` succeeds on these and some tokens that were made up. -/
structure ViableAt (F B : Follow) (p q : Parser α) (ts : List Located) : Prop where
  ok : ∀ {a rest}, p ts = .ok (a, rest) → ∃ used, ts = used ++ rest ∧
    (used = [] → ∀ r, F r → B r) ∧
    ∀ r, r.head? = rest.head? ∨ F r → p (used ++ r) = .ok (a, r) ∧ q (used ++ r) = .ok (a, r)
  error : ∀ {s}, p ts = .error s → ∃ used, ts = used ++ s.rest ∧
    (∀ r, r.head? = s.rest.head? → p (used ++ r) = .error ⟨s.cause, r⟩) ∧
    (used ≠ [] → ∃ more a, ∀ tail, F tail → q (used ++ (more ++ tail)) = .ok (a, tail))

/-- The same on all inputs of at most `n` tokens; and `q` can be finished from its beginning. -/
structure Viable (n : Nat) (F B : Follow) (p q : Parser α) : Prop where
  viableAt : ∀ ts, ts.length ≤ n → ViableAt F B p q ts
  finishes : Finishes F B q

/-- The parser takes the first token, or refuses it. It takes the token that is named. -/
structure Takes (token : Token) (p : Parser α) : Prop where
  dichotomy : ∀ ts, (∃ cause, ∀ r, r.head? = ts.head? → p r = .error ⟨cause, r⟩) ∨
    ∃ t us a, ts = t :: us ∧ ∀ r, p (t :: r) = .ok (a, r)
  takes : ∃ a, ∀ r, p (anywhere token :: r) = .ok (a, r)

def Lacks (token : Token) : Follow := fun ts => ∀ t ∈ ts.head?, t.token ≠ token

theorem starts_of_not_lacks {token : Token} (h : ¬ Lacks token ts) :
    ∃ t us, ts = t :: us ∧ t.token = token := by
  cases ts with
  | nil => simp [Lacks] at h
  | cons t us => exact ⟨t, us, rfl, by simpa [Lacks] using h⟩

def LacksAll : List Token → Follow
  | [] => fun _ => True
  | token :: tokens => fun ts => Lacks token ts ∧ LacksAll tokens ts

theorem LacksAll.congr {tokens : List Token} {r : List Located} (h : LacksAll tokens ts)
    (hr : r.head? = ts.head?) : LacksAll tokens r := by
  induction tokens with
  | nil => trivial
  | cons token tokens ih =>
    refine ⟨?_, ih h.2⟩
    rw [Lacks, hr]
    exact h.1

theorem starts_of_not_lacksAll {tokens : List Token} (h : ¬ LacksAll tokens ts) :
    ∃ t us, ts = t :: us ∧ t.token ∈ tokens := by
  induction tokens with
  | nil => exact absurd trivial h
  | cons token tokens ih =>
    by_cases hlacks : Lacks token ts
    · obtain ⟨t, us, rfl, ht⟩ := ih fun hrest => h ⟨hlacks, hrest⟩
      exact ⟨t, us, rfl, List.mem_cons_of_mem _ ht⟩
    · obtain ⟨t, us, rfl, rfl⟩ := starts_of_not_lacks hlacks
      exact ⟨t, us, rfl, List.mem_cons_self⟩

/-- The parser takes this token if it is there, and says whether it was. -/
structure Offers (token : Token) (p : Parser Bool) : Prop where
  yes : ∀ {t : Located} us, t.token = token → p (t :: us) = .ok (true, us)
  no : ∀ {ts}, Lacks token ts → p ts = .ok (false, ts)

theorem startsWithKeyword_of_lacks {k : Keyword} (h : Lacks (.keyword k) ts) :
    startsWithKeyword k ts = false := by
  refine Bool.eq_false_iff.mpr fun hstarts => ?_
  obtain ⟨t, us, rfl, ht⟩ := startsWithKeyword_iff.mp hstarts
  exact h t rfl ht

theorem startsWithSymbol_of_lacks {s : Symbol} (h : Lacks (.symbol s) ts) :
    startsWithSymbol s ts = false := by
  refine Bool.eq_false_iff.mpr fun hstarts => ?_
  obtain ⟨t, us, rfl, ht⟩ := startsWithSymbol_iff.mp hstarts
  exact h t rfl ht

theorem offers_acceptKeyword (k : Keyword) : Offers (.keyword k) (acceptKeyword k) where
  yes us ht := by
    have hstarts := startsWithKeyword_iff.mpr ⟨_, us, rfl, ht⟩
    simp [acceptKeyword, hstarts]
  no h := by simp [acceptKeyword, startsWithKeyword_of_lacks h]

theorem offers_acceptSymbol (s : Symbol) : Offers (.symbol s) (acceptSymbol s) where
  yes us ht := by
    have hstarts := startsWithSymbol_iff.mpr ⟨_, us, rfl, ht⟩
    simp [acceptSymbol, hstarts]
  no h := by simp [acceptSymbol, startsWithSymbol_of_lacks h]

theorem takes_keyword (k : Keyword) : Takes (.keyword k) (keyword k) where
  dichotomy ts := by
    by_cases hlacks : Lacks (.keyword k) ts
    · refine .inl ⟨.expectedKeyword k, fun r hr => ?_⟩
      have hr' : Lacks (.keyword k) r := by rwa [Lacks, hr]
      simp [keyword, startsWithKeyword_of_lacks hr']
    · obtain ⟨t, us, rfl, ht⟩ := starts_of_not_lacks hlacks
      refine .inr ⟨t, us, (), rfl, fun r => ?_⟩
      have hstarts := startsWithKeyword_iff.mpr ⟨t, r, rfl, ht⟩
      simp [keyword, hstarts]
  takes := ⟨(), fun r => by simp [keyword, anywhere, startsWithKeyword]⟩

theorem takes_symbol (s : Symbol) : Takes (.symbol s) (symbol s) where
  dichotomy ts := by
    by_cases hlacks : Lacks (.symbol s) ts
    · refine .inl ⟨.expectedSymbol s, fun r hr => ?_⟩
      have hr' : Lacks (.symbol s) r := by rwa [Lacks, hr]
      simp [symbol, startsWithSymbol_of_lacks hr']
    · obtain ⟨t, us, rfl, ht⟩ := starts_of_not_lacks hlacks
      refine .inr ⟨t, us, (), rfl, fun r => ?_⟩
      have hstarts := startsWithSymbol_iff.mpr ⟨t, r, rfl, ht⟩
      simp [symbol, hstarts]
  takes := ⟨(), fun r => by simp [symbol, anywhere, startsWithSymbol]⟩

theorem takes_name (s : String) : Takes (.name s) name where
  dichotomy ts := by
    cases ts with
    | nil =>
      refine .inl ⟨.expectedName, fun r hr => ?_⟩
      obtain rfl := List.head?_eq_none_iff.mp hr
      rfl
    | cons t us =>
      obtain ⟨token, start, stop⟩ := t
      cases token with
      | name s => exact .inr ⟨_, us, s, rfl, fun _ => rfl⟩
      | _ =>
        refine .inl ⟨.expectedName, fun r hr => ?_⟩
        obtain ⟨r, rfl⟩ := List.head?_eq_some_iff.mp hr
        rfl
  takes := ⟨s, fun _ => rfl⟩

theorem takes_typeName : Takes (.keyword .INTEGER) typeName where
  dichotomy ts := by
    cases ts with
    | nil =>
      refine .inl ⟨.expectedType, fun r hr => ?_⟩
      obtain rfl := List.head?_eq_none_iff.mp hr
      rfl
    | cons t us =>
      obtain ⟨token, start, stop⟩ := t
      cases token with
      | name s => exact .inr ⟨_, us, s, rfl, fun _ => rfl⟩
      | keyword k =>
        by_cases hk : k ∈ typeKeywords
        · exact .inr ⟨_, us, k.text, rfl, fun _ => by simp [typeName, hk]⟩
        · refine .inl ⟨.expectedType, fun r hr => ?_⟩
          obtain ⟨r, rfl⟩ := List.head?_eq_some_iff.mp hr
          simp [typeName, hk]
      | _ =>
        refine .inl ⟨.expectedType, fun r hr => ?_⟩
        obtain ⟨r, rfl⟩ := List.head?_eq_some_iff.mp hr
        rfl
  takes := ⟨Keyword.INTEGER.text, fun _ => rfl⟩

theorem head?_append_congr {used rest r : List Located}
    (h : used = [] → r.head? = rest.head? ∨ F (used ++ r)) :
    (used ++ r).head? = (used ++ rest).head? ∨ F (used ++ r) := by
  cases used with
  | nil => exact h rfl
  | cons t used => exact .inl rfl

theorem head?_append_eq {used rest r : List Located} (h : used = [] → r.head? = rest.head?) :
    (used ++ r).head? = (used ++ rest).head? := by
  cases used with
  | nil => exact h rfl
  | cons t used => rfl

namespace ViableAt

theorem refused {cause : Cause} (h : ∀ r, r.head? = ts.head? → p r = .error ⟨cause, r⟩) :
    ViableAt F B p q ts where
  ok h' := by
    rw [h ts rfl] at h'
    cases h'
  error h' := by
    rw [h ts rfl] at h'
    cases h'
    exact ⟨[], rfl, h, fun hne => absurd rfl hne⟩

theorem refused_nil {cause : Cause} (h : p [] = .error ⟨cause, []⟩) : ViableAt F B p q [] :=
  refused fun r hr => by rwa [List.head?_eq_none_iff.mp hr]

theorem refused_cons {t : Located} {cause : Cause}
    (h : ∀ us, p (t :: us) = .error ⟨cause, t :: us⟩) : ViableAt F B p q (t :: ts) :=
  refused fun r hr => by
    obtain ⟨us, rfl⟩ := List.head?_eq_some_iff.mp hr
    exact h us

theorem idle {a : α} (hB : ∀ r, F r → B r)
    (h : ∀ r, r.head? = ts.head? ∨ F r → p r = .ok (a, r) ∧ q r = .ok (a, r)) :
    ViableAt F B p q ts where
  ok h' := by
    rw [(h ts (.inl rfl)).1] at h'
    cases h'
    exact ⟨[], rfl, fun _ => hB, h⟩
  error h' := by
    rw [(h ts (.inl rfl)).1] at h'
    cases h'

theorem mono (h : ViableAt F B p q ts) (hF : ∀ r, F₁ r → F r) (hB : ∀ r, B r → B₁ r) :
    ViableAt F₁ B₁ p q ts where
  ok h' := by
    obtain ⟨used, rfl, hB', hok⟩ := h.ok h'
    exact ⟨used, rfl, fun hused r hr => hB r (hB' hused r (hF r hr)),
      fun r hr => hok r (hr.imp_right (hF r))⟩
  error h' := by
    obtain ⟨used, rfl, hlocal, hmore⟩ := h.error h'
    refine ⟨used, rfl, hlocal, fun hused => ?_⟩
    obtain ⟨more, a, hmore⟩ := hmore hused
    exact ⟨more, a, fun tail htail => hmore tail (hF tail htail)⟩

/-- A parser that takes a token is not asked what comes next if it takes none. -/
theorem of_shortens (h : ViableAt F B p q ts) (hp : Shortens p) : ViableAt F B₁ p q ts where
  ok h' := by
    obtain ⟨used, hts, -, hok⟩ := h.ok h'
    refine ⟨used, hts, fun hused => ?_, hok⟩
    subst hused
    exact absurd (hp _ _ _ h') (by simp [hts])
  error := h.error

/-- Parsers may be replaced by others that agree on the lists that begin like this one or as
told. -/
theorem transfer (h : ViableAt F B p q ts) (hp : ∀ r, r.head? = ts.head? ∨ B r → p' r = p r)
    (hq : ∀ r, r.head? = ts.head? ∨ B r → q' r = q r) : ViableAt F B p' q' ts where
  ok h' := by
    rw [hp ts (.inl rfl)] at h'
    obtain ⟨used, rfl, hB, hok⟩ := h.ok h'
    refine ⟨used, rfl, hB, fun r hr => ?_⟩
    have hbegin : (used ++ r).head? = (used ++ _).head? ∨ B (used ++ r) :=
      head?_append_congr fun hused => by
        subst hused
        exact hr.imp_right (hB rfl r)
    rw [hp _ hbegin, hq _ hbegin]
    exact hok r hr
  error {s} h' := by
    rw [hp ts (.inl rfl)] at h'
    obtain ⟨used, rfl, hlocal, hmore⟩ := h.error h'
    refine ⟨used, rfl, fun r hr => ?_, fun hused => ?_⟩
    · rw [hp _ (.inl (head?_append_eq fun _ => hr))]
      exact hlocal r hr
    · obtain ⟨more, a, hmore⟩ := hmore hused
      refine ⟨more, a, fun tail htail => ?_⟩
      have hbegin : (used ++ (more ++ tail)).head? = (used ++ s.rest).head? :=
        head?_append_eq fun hnil => absurd hnil hused
      rw [hq _ (.inl hbegin)]
      exact hmore tail htail

/-- Here the parsers do what others do wherever this token is next. -/
theorem of_starts {token : Token} (h : ViableAt F (Starts token) p q ts) (hts : Starts token ts)
    (hp : ∀ {t : Located} us, t.token = token → p' (t :: us) = p (t :: us))
    (hq : ∀ {t : Located} us, t.token = token → q' (t :: us) = q (t :: us)) :
    ViableAt F (Starts token) p' q' ts := by
  have hstarts : ∀ r, r.head? = ts.head? ∨ Starts token r → ∃ t us, r = t :: us ∧
      t.token = token := by
    rintro r (hr | hr)
    · exact head_eq_some (by rw [hr]; exact hts)
    · exact head_eq_some hr
  refine h.transfer (fun r hr => ?_) fun r hr => ?_
  · obtain ⟨t, us, rfl, ht⟩ := hstarts r hr
    exact hp us ht
  · obtain ⟨t, us, rfl, ht⟩ := hstarts r hr
    exact hq us ht

/-- The parsers take the first token, whatever comes after it, and go on as others that are
viable. -/
theorem cons {p₁ q₁ : Parser α} {t : Located} (hv : Viable n F B₁ p₁ q₁) (hlen : ts.length ≤ n)
    (hp : ∀ us, p (t :: us) = p₁ us) (hq : ∀ us, q (t :: us) = q₁ us) :
    ViableAt F B p q (t :: ts) where
  ok h := by
    rw [hp] at h
    obtain ⟨used, rfl, -, hok⟩ := (hv.viableAt ts hlen).ok h
    refine ⟨t :: used, rfl, by simp, fun r hr => ?_⟩
    rw [List.cons_append, hp, hq]
    exact hok r hr
  error h := by
    rw [hp] at h
    obtain ⟨used, rfl, hlocal, hmore⟩ := (hv.viableAt ts hlen).error h
    refine ⟨t :: used, rfl, fun r hr => ?_, fun _ => ?_⟩
    · rw [List.cons_append, hp]
      exact hlocal r hr
    · -- If nothing was taken after the token, the rest is made up from its beginning.
      by_cases hused : used = []
      · subst hused
        obtain ⟨more, a, hfin⟩ := hv.finishes
        refine ⟨more, a, fun tail htail => ?_⟩
        rw [List.singleton_append, hq]
        exact (hfin tail htail).2
      · obtain ⟨more, a, hmore⟩ := hmore hused
        refine ⟨more, a, fun tail htail => ?_⟩
        rw [List.cons_append, hq]
        exact hmore tail htail

/-- What comes after a token has to be viable on shorter lists only. -/
theorem take {token : Token} (hp : Takes token p) (hf : ∀ a, Viable n F B₁ (f a) (g a))
    (hts : ts.length ≤ n + 1) : ViableAt F B (p >>= f) (p >>= g) ts := by
  obtain ⟨cause, hstuck⟩ | ⟨t, us, a, rfl, htake⟩ := hp.dichotomy ts
  · exact .refused fun r hr => bind_of_error (hstuck r hr)
  · exact .cons (hf a) (Nat.le_of_succ_le_succ hts) (fun r => bind_of_ok (htake r))
      fun r => bind_of_ok (htake r)

/-- One parser after another, if the first stops before whatever the second may begin with. -/
theorem bind (hp : ViableAt F₁ B₁ p q ts)
    (hf : ∀ a rest, p ts = .ok (a, rest) → ViableAt F B₃ (f a) (g a) rest)
    (hfin : ∀ a, Finishes F B₂ (g a)) (hsub : ∀ r, B₂ r → F₁ r) (hsub' : ∀ r, B₃ r → F₁ r) :
    ViableAt F (fun r => B₁ r ∧ B₃ r) (p >>= f) (q >>= g) ts where
  ok {b rest} h := by
    obtain ⟨a, us, h₁, h₂⟩ := bind_eq_ok h
    obtain ⟨used₂, rfl, hB₃, hok₂⟩ := (hf a us h₁).ok h₂
    obtain ⟨used₁, rfl, hB₁, hok₁⟩ := hp.ok h₁
    refine ⟨used₁ ++ used₂, by simp, fun hused r hr => ?_, fun r hr => ?_⟩
    · obtain ⟨rfl, rfl⟩ := List.append_eq_nil_iff.mp hused
      have hr₃ := hB₃ rfl r hr
      exact ⟨hB₁ rfl r (hsub' r hr₃), hr₃⟩
    · obtain ⟨hr₂, hr₂'⟩ := hok₂ r hr
      have hfollow : (used₂ ++ r).head? = (used₂ ++ rest).head? ∨ F₁ (used₂ ++ r) :=
        head?_append_congr fun hused => by
          subst hused
          exact hr.imp_right fun hr => hsub' r (hB₃ rfl r hr)
      obtain ⟨hr₁, hr₁'⟩ := hok₁ (used₂ ++ r) hfollow
      rw [List.append_assoc, bind_of_ok hr₁, bind_of_ok hr₁']
      exact ⟨hr₂, hr₂'⟩
  error {s} h := by
    cases h₁ : p ts with
    | error s' =>
      rw [bind_of_error h₁] at h
      cases h
      obtain ⟨used, rfl, hlocal, hmore⟩ := hp.error h₁
      refine ⟨used, rfl, fun r hr => bind_of_error (hlocal r hr), fun hused => ?_⟩
      obtain ⟨more, a, hmore⟩ := hmore hused
      obtain ⟨more₂, b, hfin⟩ := hfin a
      refine ⟨more ++ more₂, b, fun tail htail => ?_⟩
      obtain ⟨hB, hg⟩ := hfin tail htail
      rw [List.append_assoc, bind_of_ok (hmore _ (hsub _ hB)), hg]
    | ok r =>
      obtain ⟨a, us⟩ := r
      rw [bind_of_ok h₁] at h
      obtain ⟨used₂, rfl, hlocal, hmore⟩ := (hf a us h₁).error h
      obtain ⟨used₁, rfl, -, hok⟩ := hp.ok h₁
      refine ⟨used₁ ++ used₂, by simp, fun r hr => ?_, fun _ => ?_⟩
      · rw [List.append_assoc, bind_of_ok
          (hok _ (.inl (head?_append_eq fun _ => hr))).1, hlocal r hr]
      · by_cases hused : used₂ = []
        · subst hused
          obtain ⟨more, b, hfin⟩ := hfin a
          refine ⟨more, b, fun tail htail => ?_⟩
          obtain ⟨hB, hg⟩ := hfin tail htail
          rw [List.append_nil, bind_of_ok (hok _ (.inr (hsub _ hB))).2, hg]
        · obtain ⟨more, b, hmore⟩ := hmore hused
          refine ⟨more, b, fun tail htail => ?_⟩
          have hhead : (used₂ ++ (more ++ tail)).head? = (used₂ ++ s.rest).head? :=
            head?_append_eq fun hnil => absurd hnil hused
          rw [List.append_assoc, bind_of_ok (hok _ (.inl hhead)).2, hmore tail htail]

end ViableAt

/-! ## Single tokens and sequences -/

theorem Finishes.bind (hq : Finishes F₁ B₁ q) (hg : ∀ a, Finishes F B₂ (g a))
    (hsub : ∀ r, B₂ r → F₁ r) : Finishes F B₁ (q >>= g) := by
  obtain ⟨more, a, hq⟩ := hq
  obtain ⟨more', b, hg⟩ := hg a
  refine ⟨more ++ more', b, fun tail htail => ?_⟩
  obtain ⟨hB₂, hg⟩ := hg tail htail
  obtain ⟨hB₁, hq⟩ := hq _ (hsub _ hB₂)
  rw [List.append_assoc]
  exact ⟨hB₁, by rw [bind_of_ok hq, hg]⟩

theorem Finishes.congr (h : Finishes F B q) (hq : ∀ r, B r → q' r = q r) : Finishes F B q' := by
  obtain ⟨more, a, hmore⟩ := h
  refine ⟨more, a, fun tail htail => ?_⟩
  obtain ⟨hbegin, hok⟩ := hmore tail htail
  exact ⟨hbegin, (hq _ hbegin).trans hok⟩

theorem manyWhile_of_stop {goesOn : List Located → Bool} (hp : Shortens p)
    (hnil : goesOn [] = false)
    (hts : goesOn ts = false) : manyWhile goesOn p ts = .ok ([], ts) := by
  rw [manyWhile_eq hp hnil, hts]
  rfl

theorem Finishes.manyWhile {goesOn : List Located → Bool} (hq : Shortens q)
    (hnil : goesOn [] = false) : Finishes (Over goesOn F) (Over goesOn F) (manyWhile goesOn q) :=
  ⟨[], [], fun _ htail => ⟨htail, manyWhile_of_stop hq hnil htail.1⟩⟩

namespace Viable

theorem mono (h : Viable n F B p q) {m : Nat} (hm : m ≤ n) (hF : ∀ r, F₁ r → F r)
    (hB : ∀ r, B r → B₁ r) : Viable m F₁ B₁ p q where
  viableAt ts hts := (h.viableAt ts (Nat.le_trans hts hm)).mono hF hB
  finishes := by
    obtain ⟨more, a, hmore⟩ := h.finishes
    refine ⟨more, a, fun tail htail => ?_⟩
    obtain ⟨hbegin, hq⟩ := hmore tail (hF tail htail)
    exact ⟨hB _ hbegin, hq⟩

theorem of_le (h : Viable n F B p q) {m : Nat} (hm : m ≤ n) : Viable m F B p q :=
  h.mono hm (fun _ => id) fun _ => id

theorem stuck {cause : Cause} (h : Finishes F B q) : Viable n F B (stuck cause) q where
  viableAt _ _ := .refused fun _ _ => rfl
  finishes := h

theorem pure (a : α) : Viable n F F (pure a) (pure a) where
  viableAt _ _ := .idle (fun _ => id) fun _ _ => ⟨rfl, rfl⟩
  finishes := ⟨[], a, fun _ htail => ⟨htail, rfl⟩⟩

theorem bind (hp : Viable n F₁ B₁ p q) (hf : ∀ a, Viable n F B₂ (f a) (g a))
    (hsub : ∀ r, B₂ r → F₁ r) : Viable n F B₁ (p >>= f) (q >>= g) where
  viableAt ts hts := by
    have hlen : ∀ a rest, p ts = .ok (a, rest) → rest.length ≤ n := by
      intro a rest hok
      obtain ⟨used, rfl, -⟩ := (hp.viableAt ts hts).ok hok
      simp only [List.length_append] at hts
      omega
    have hbind :=
      (hp.viableAt ts hts).bind (fun a rest hok => (hf a).viableAt rest (hlen a rest hok))
      (fun a => (hf a).finishes) hsub hsub
    exact hbind.mono (fun _ => id) fun _ => And.left
  finishes := hp.finishes.bind (fun a => (hf a).finishes) hsub

theorem map (h : Viable n F B p q) (k : α → β) :
    Viable n F B (p >>= fun a => Pure.pure (k a)) (q >>= fun a => Pure.pure (k a)) :=
  h.bind (fun a => .pure (k a)) fun _ => id

theorem take_succ {token : Token} {p : Parser α} (hp : Takes token p)
    (hf : ∀ a, Viable n F B (f a) (g a)) : Viable (n + 1) F (Starts token) (p >>= f) (p >>= g) where
  viableAt ts hts := .take hp hf hts
  finishes := by
    obtain ⟨a, htake⟩ := hp.takes
    obtain ⟨more, b, hmore⟩ := (hf a).finishes
    refine ⟨anywhere token :: more, b, fun tail htail => ⟨starts_anywhere .., ?_⟩⟩
    rw [List.cons_append, bind_of_ok (htake _)]
    exact (hmore tail htail).2

theorem take {token : Token} {p : Parser α} (hp : Takes token p)
    (hf : ∀ a, Viable n F B (f a) (g a)) : Viable n F (Starts token) (p >>= f) (p >>= g) :=
  (take_succ hp hf).of_le (Nat.le_succ n)

theorem keyword {k : Keyword} {f g : Unit → Parser β} (h : Viable n F B (f ()) (g ())) :
    Viable n F (Starts (.keyword k)) (keyword k >>= f) (keyword k >>= g) :=
  take (takes_keyword k) fun _ => h

theorem symbol {s : Symbol} {f g : Unit → Parser β} (h : Viable n F B (f ()) (g ())) :
    Viable n F (Starts (.symbol s)) (symbol s >>= f) (symbol s >>= g) :=
  take (takes_symbol s) fun _ => h

theorem name {f g : String → Parser β} (h : ∀ s, Viable n F B (f s) (g s)) :
    Viable n F (Starts (.name "x")) (name >>= f) (name >>= g) :=
  take (takes_name "x") h

theorem typeName (k : String → β) : Viable n F (Starts (.keyword .INTEGER))
    (typeName >>= fun s => Pure.pure (k s)) (typeName >>= fun s => Pure.pure (k s)) :=
  take takes_typeName fun s => .pure (k s)

theorem single {token : Token} {p : Parser α} (hp : Takes token p) :
    Viable n F (Starts token) p p := by
  have h := take (n := n) hp fun a => Viable.pure (F := F) a
  simpa only [bind_pure] using h

/-- Unless one of some tokens is next, the parsers do what viable ones do, and these begin with none
of the tokens. -/
theorem dispatch (h : Viable n F B p q) (tokens : List Token) (hB : ∀ r, B r → LacksAll tokens r)
    (hp : ∀ r, LacksAll tokens r → p' r = p r) (hq : ∀ r, LacksAll tokens r → q' r = q r)
    (hstarts : ∀ (t : Located) us, t.token ∈ tokens → us.length + 1 ≤ n →
      ViableAt F B p' q' (t :: us)) :
    Viable n F B p' q' where
  viableAt ts hts := by
    by_cases hlacks : LacksAll tokens ts
    · have hsame : ∀ r, r.head? = ts.head? ∨ B r → LacksAll tokens r :=
        fun r hr => hr.elim (fun hr => hlacks.congr hr) (hB r)
      exact (h.viableAt ts hts).transfer (fun r hr => hp r (hsame r hr)) fun r hr =>
        hq r (hsame r hr)
    · obtain ⟨t, us, rfl, ht⟩ := starts_of_not_lacksAll hlacks
      exact hstarts t us ht hts
  finishes := h.finishes.congr fun r hr => hq r (hB r hr)

/-- Go on one way after a token that may be there, and another way without it. Whatever the other
way may begin with is not that token. -/
theorem accept {token : Token} {p : Parser Bool} {f g : Bool → Parser β} (hp : Offers token p)
    (hyes : ∀ m < n, Viable m F B₁ (f true) (g true)) (hno : Viable n F B (f false) (g false))
    (hB : ∀ r, B r → Lacks token r) : Viable n F B (p >>= f) (p >>= g) := by
  refine hno.dispatch [token] (fun r hr => ⟨hB r hr, trivial⟩) (fun r hr => bind_of_ok (hp.no hr.1))
    (fun r hr => bind_of_ok (hp.no hr.1)) fun t us ht hts => ?_
  have htoken : t.token = token := List.mem_singleton.mp ht
  exact .cons (hyes us.length hts) (Nat.le_refl _) (fun r => bind_of_ok (hp.yes r htoken))
    fun r => bind_of_ok (hp.yes r htoken)

/-! ## Loops -/

theorem moreAfterComma (hp : ∀ n, Viable n F B p q) (hshrinks : Shrinks p) (hshrinks' : Shrinks q)
    (hF : ∀ r, F₁ r → F r) (hcomma : ∀ r, F₁ r → Lacks (.symbol .comma) r) :
    Viable n F₁ F₁ (moreAfterComma p) (moreAfterComma q) := by
  induction n using Nat.strongRecOn with
  | ind n ih =>
    rw [moreAfterComma_eq hshrinks, moreAfterComma_eq hshrinks']
    exact accept (offers_acceptSymbol .comma)
      (fun m hm => (hp m).bind (fun a => (ih m hm).map (a :: ·)) hF) (.pure []) hcomma

theorem commaList (hp : ∀ n, Viable n F B p q) (hshrinks : Shrinks p) (hshrinks' : Shrinks q)
    (hF : ∀ r, F₁ r → F r) (hcomma : ∀ r, F₁ r → Lacks (.symbol .comma) r) :
    Viable n F₁ B (commaList p) (commaList q) := by
  rw [commaList_eq, commaList_eq]
  exact (hp n).bind (fun a => (moreAfterComma hp hshrinks hshrinks' hF hcomma).map (a :: ·)) hF

theorem manyWhile {goesOn : List Located → Bool} (hp : Viable n F B p q) (hshortens : Shortens p)
    (hshortens' : Shortens q) (hnil : goesOn [] = false)
    (hhead : ∀ r r' : List Located, r.head? = r'.head? → goesOn r = goesOn r') :
    Viable n (Over goesOn F) (Over goesOn F) (manyWhile goesOn p) (manyWhile goesOn q) := by
  have hfin : Finishes (Over goesOn F) (Over goesOn F) (Parser.manyWhile goesOn q) :=
    .manyWhile hshortens' hnil
  induction n using Nat.strongRecOn with
  | ind n ih =>
    refine ⟨fun ts hts => ?_, hfin⟩
    cases hgo : goesOn ts with
    | false =>
      refine .idle (a := []) (fun _ => id) fun r hr => ?_
      have hr' : goesOn r = false := hr.elim (fun hr => (hhead r ts hr).trans hgo) And.left
      exact ⟨manyWhile_of_stop hshortens hnil hr', manyWhile_of_stop hshortens' hnil hr'⟩
    | true =>
      -- The item takes a token, so that the rest of the repetition has fewer of them.
      have hrest : ∀ a rest, p ts = .ok (a, rest) → ViableAt (Over goesOn F) (Over goesOn F)
          (Parser.manyWhile goesOn p >>= fun as => Pure.pure (a :: as))
          (Parser.manyWhile goesOn q >>= fun as => Pure.pure (a :: as)) rest := by
        intro a rest hok
        have hlt := hshortens ts a rest hok
        have hmany := ih rest.length (by omega) (hp.of_le (by omega))
        exact (hmany.map (a :: ·)).viableAt rest (Nat.le_refl _)
      have htakes : ViableAt F Nowhere p q ts := (hp.viableAt ts hts).of_shortens hshortens
      have hround := htakes.bind hrest
        (fun a => hfin.bind (fun as => (Viable.pure (n := 0) (a :: as)).finishes) fun _ => id)
        (fun _ => And.right) fun _ => And.right
      have hsame : ∀ {p : Parser α} r, Shortens p → r.head? = ts.head? ∨ Nowhere r ∧
        Over goesOn F r →
          Parser.manyWhile goesOn p r = (do
            let a ← p
            let as ← Parser.manyWhile goesOn p
            Pure.pure (a :: as)) r := by
        rintro p r hp (hr | hr)
        · rw [manyWhile_eq hp hnil, hhead r ts hr, hgo]
          rfl
        · exact hr.1.elim
      exact (hround.transfer (fun r => hsame r hshortens) fun r => hsame r hshortens').mono
        (fun _ => id) fun _ => And.right

end Viable

end Viable

end Chalkboard.Parser
