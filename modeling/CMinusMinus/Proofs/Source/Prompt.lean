import CMinusMinus.Proofs.Source.Completeness
import CMinusMinus.Proofs.Source.Languages

/-!
# Prompt parsers

A prompt parser takes a word of a language away, or else refuses a token behind what begins a word; and it
looks at no more than the next token, so that on other tokens that are the same up to there, it stops there
again. Parsers made of prompt parsers are prompt for the products and sums of their languages.
-/

namespace CMinusMinus.Parser

open Grammar

/-! ## Prompt parsers -/

/-- Other tokens `us` that are the tokens `ts`, and the same token next. -/
structure Echoes (ts rest us more : List Lexeme) : Prop where
  taken : us.map Lexeme.token = ts.map Lexeme.token
  next : more.head?.map Lexeme.token = rest.head?.map Lexeme.token

theorem Echoes.head {ts rest us more : List Lexeme} (h : Echoes ts rest us more) :
    (us ++ more).head?.map Lexeme.token = (ts ++ rest).head?.map Lexeme.token := by
  obtain ⟨taken, next⟩ := h
  cases us with
  | nil =>
    obtain rfl : ts = [] := by simpa using taken.symm
    exact next
  | cons u us =>
    cases ts with
    | nil => cases taken
    | cons t ts => simpa using (List.cons.inj taken).1

theorem Echoes.split {ts us rest vs more : List Lexeme} (h : Echoes (ts ++ us) rest vs more) :
    ∃ vs₁ vs₂, vs = vs₁ ++ vs₂ ∧ Echoes ts (us ++ rest) vs₁ (vs₂ ++ more) ∧ Echoes us rest vs₂ more := by
  obtain ⟨vs₁, vs₂, rfl, h₁, h₂⟩ := List.map_eq_append_iff.1 (h.taken.trans List.map_append)
  have hlast : Echoes us rest vs₂ more := ⟨h₂, h.next⟩
  exact ⟨vs₁, vs₂, rfl, ⟨h₁, hlast.head⟩, hlast⟩

theorem Echoes.length_eq {ts rest us more : List Lexeme} (h : Echoes ts rest us more) :
    us.length = ts.length := by
  simpa using congrArg List.length h.taken

section Prompt

variable {α β : Type} {c n : Nat} {L M : Language Token} {tokens : List Lexeme} {p q p' q' : Parser α}

/-- What `p` takes from the tokens is a word, and where it refuses, what it took begins one. On any tokens
that are the same up to the next one, `p'`, which may go `c` deeper and has rounds for `c` tokens more, stops
where `p` does and as `p` does. -/
structure PromptAt (c n : Nat) (L : Language Token) (tokens : List Lexeme) (p p' : Parser α) : Prop where
  read {d : Nat} {x : α} {s : State} : p ⟨tokens, d⟩ = .ok (x, s) →
    ∃ ts rest, tokens = ts ++ rest ∧ s = ⟨rest, d⟩ ∧ ts.map Lexeme.token ∈ L ∧
      ∀ us more, Echoes ts rest us more → (us ++ more).length ≤ c + n →
        ∃ y, p' ⟨us ++ more, c + d⟩ = .ok (y, ⟨more, c + d⟩)
  refused {d : Nat} {wanted : Wanted} {rest : List Lexeme} : p ⟨tokens, d⟩ = .error ⟨some wanted, rest⟩ →
    ∃ ts, tokens = ts ++ rest ∧ (∃ more, Spelled more ∧ ts.map Lexeme.token ++ more ∈ L) ∧
      ∀ us more, Echoes ts rest us more → (us ++ more).length ≤ c + n →
        p' ⟨us ++ more, c + d⟩ = .error ⟨some wanted, more⟩

/-- Of up to `n` tokens. -/
def Prompt (c n : Nat) (L : Language Token) (p p' : Parser α) : Prop :=
  ∀ tokens : List Lexeme, tokens.length ≤ n → PromptAt c n L tokens p p'

theorem PromptAt.mono (h : PromptAt c n L tokens p p') (hLM : L ≤ M) : PromptAt c n M tokens p p' := by
  constructor
  · intro d x s hrun
    obtain ⟨ts, rest, htokens, hs, hts, hagain⟩ := h.read hrun
    exact ⟨ts, rest, htokens, hs, hLM hts, hagain⟩
  · intro d wanted rest hrun
    obtain ⟨ts, htokens, ⟨more, hspelled, hmore⟩, hagain⟩ := h.refused hrun
    exact ⟨ts, htokens, ⟨more, hspelled, hLM hmore⟩, hagain⟩

theorem Prompt.mono (h : Prompt c n L p p') (hLM : L ≤ M) : Prompt c n M p p' :=
  fun tokens hn => (h tokens hn).mono hLM

theorem Prompt.of_le {m : Nat} (h : Prompt c n L p p') (hm : m ≤ n) : Prompt c m L p p' := by
  intro tokens hn
  constructor
  · intro d x s hrun
    obtain ⟨ts, rest, htokens, hs, hts, hagain⟩ := (h tokens (hn.trans hm)).read hrun
    exact ⟨ts, rest, htokens, hs, hts, fun us more hu hlength => hagain us more hu (by omega)⟩
  · intro d wanted rest hrun
    obtain ⟨ts, htokens, hmore, hagain⟩ := (h tokens (hn.trans hm)).refused hrun
    exact ⟨ts, htokens, hmore, fun us more hu hlength => hagain us more hu (by omega)⟩

/-- Where `first` is the next token, or where it is none and the tokens end, `p` does what `q` does. -/
def Becomes (first : Option Token) (p q : Parser α) : Prop :=
  ∀ us d, us.head?.map Lexeme.token = first → p ⟨us, d⟩ = q ⟨us, d⟩

theorem PromptAt.congr {first : Option Token} (h : PromptAt c n L tokens q q')
    (hfirst : tokens.head?.map Lexeme.token = first) (hp : Becomes first p q) (hp' : Becomes first p' q') :
    PromptAt c n L tokens p p' := by
  constructor
  · intro d x s hrun
    rw [hp tokens d hfirst] at hrun
    obtain ⟨ts, rest, rfl, hs, hts, hagain⟩ := h.read hrun
    refine ⟨ts, rest, rfl, hs, hts, fun us more hu hlength => ?_⟩
    rw [hp' _ _ (hu.head.trans hfirst)]
    exact hagain us more hu hlength
  · intro d wanted rest hrun
    rw [hp tokens d hfirst] at hrun
    obtain ⟨ts, rfl, hmore, hagain⟩ := h.refused hrun
    refine ⟨ts, rfl, hmore, fun us more hu hlength => ?_⟩
    rw [hp' _ _ (hu.head.trans hfirst)]
    exact hagain us more hu hlength

/-! ### Steps -/

theorem bind_error {f : α → Parser β} {s : State} {refusal : Refusal} (h : (p >>= f) s = .error refusal) :
    p s = .error refusal ∨ ∃ x s', p s = .ok (x, s') ∧ f x s' = .error refusal := by
  have hbind : (p >>= f) s = (p s >>= fun read => f read.1 read.2) := rfl
  rw [hbind] at h
  cases hp : p s with
  | error first =>
    rw [hp] at h
    cases h
    exact .inl rfl
  | ok read =>
    rw [hp] at h
    exact .inr ⟨read.1, read.2, rfl, h⟩

theorem bind_eq_error {f : α → Parser β} {s : State} {refusal : Refusal} (h : p s = .error refusal) :
    (p >>= f) s = .error refusal := by
  have hbind : (p >>= f) s = (p s >>= fun read => f read.1 read.2) := rfl
  rw [hbind, h]
  rfl

theorem exists_cons_of_head {t : Token} (h : tokens.head?.map Lexeme.token = some t) :
    ∃ l rest, tokens = ⟨t, l⟩ :: rest := by
  obtain ⟨⟨_, l⟩, hfirst, rfl⟩ := Option.map_eq_some_iff.1 h
  obtain ⟨rest, rfl⟩ := List.head?_eq_some_iff.1 hfirst
  exact ⟨l, rest, rfl⟩

theorem token_eq {t : Token} {l : Loc} {d : Nat} :
    token t ⟨⟨t, l⟩ :: tokens, d⟩ = .ok ((), ⟨tokens, d⟩) :=
  bind_eq accept_eq rfl

theorem prompt_pure (x y : α) : Prompt c n 1 (pure x) (pure y) := by
  intro tokens hn
  constructor
  · intro d z s hrun
    obtain ⟨rfl, rfl⟩ := pure_ok hrun
    refine ⟨[], tokens, rfl, rfl, rfl, fun us more hu _ => ?_⟩
    obtain rfl : us = [] := by simpa using hu.taken
    exact ⟨y, rfl⟩
  · intro d wanted rest hrun
    cases hrun

theorem prompt_refuse (hL : Filled L) (wanted : Wanted) :
    Prompt c n L (refuse wanted : Parser α) (refuse wanted) := by
  intro tokens hn
  constructor
  · intro d x s hrun
    cases hrun
  · intro d wanted' rest hrun
    cases hrun
    refine ⟨[], rfl, hL, fun us more hu _ => ?_⟩
    obtain rfl : us = [] := by simpa using hu.taken
    rfl

theorem Prompt.bind {f f' : α → Parser β} (k : Nat) (hp : Prompt c n L p p') (hk : ∀ ts ∈ L, k ≤ ts.length)
    (hM : Filled M) (hf : ∀ x y m, m + k ≤ n → Prompt c m M (f x) (f' y)) :
    Prompt c n (L * M) (p >>= f) (p' >>= f') := by
  -- what `f` does behind what `p` has read, also where `p'` read another value
  have hrest : ∀ {ts rest : List Lexeme}, (ts ++ rest).length ≤ n → ts.map Lexeme.token ∈ L →
      k ≤ ts.length ∧ ∀ x y, PromptAt c (n - k) M rest (f x) (f' y) := by
    intro ts rest hn hts
    have hlength : k ≤ ts.length := by simpa using hk _ hts
    rw [List.length_append] at hn
    exact ⟨hlength, fun x y => hf x y (n - k) (by omega) rest (by omega)⟩
  intro tokens hn
  constructor
  · intro d z s hrun
    obtain ⟨x, s, hx, hz⟩ := bind_ok hrun
    obtain ⟨ts, rest, rfl, rfl, hts, hagain⟩ := (hp _ hn).read hx
    obtain ⟨hlength, hrest⟩ := hrest hn hts
    obtain ⟨us, rest, rfl, rfl, hus, -⟩ := (hrest x x).read hz
    refine ⟨ts ++ us, rest, (List.append_assoc ..).symm, rfl, ?_, fun vs more hv hmore => ?_⟩
    · rw [List.map_append]
      exact ⟨_, hts, _, hus, rfl⟩
    · obtain ⟨vs₁, vs₂, rfl, hv₁, hv₂⟩ := hv.split
      have hv₁length := hv₁.length_eq
      rw [List.append_assoc] at hmore ⊢
      obtain ⟨y, hy⟩ := hagain _ _ hv₁ hmore
      obtain ⟨us', rest', heq, hs, -, hagain⟩ := (hrest x y).read hz
      cases hs
      obtain rfl := List.append_cancel_right heq
      rw [List.length_append] at hmore
      obtain ⟨z', hz'⟩ := hagain _ _ hv₂ (by omega)
      exact ⟨z', bind_eq hy hz'⟩
  · intro d wanted rest hrun
    rcases bind_error hrun with hx | ⟨x, s, hx, hz⟩
    · obtain ⟨ts, rfl, ⟨more, hspelled, hmore⟩, hagain⟩ := (hp _ hn).refused hx
      obtain ⟨last, hspelled', hlast⟩ := hM
      refine ⟨ts, rfl, ⟨more ++ last, hspelled.append hspelled', ?_⟩,
        fun us more hu hmore => bind_eq_error (hagain us more hu hmore)⟩
      rw [← List.append_assoc]
      exact ⟨_, hmore, _, hlast, rfl⟩
    · obtain ⟨ts, rest, rfl, rfl, hts, hagain⟩ := (hp _ hn).read hx
      obtain ⟨hlength, hrest⟩ := hrest hn hts
      obtain ⟨us, rfl, ⟨last, hspelled, hlast⟩, -⟩ := (hrest x x).refused hz
      refine ⟨ts ++ us, (List.append_assoc ..).symm, ⟨last, hspelled, ?_⟩, fun vs more hv hmore => ?_⟩
      · rw [List.map_append, List.append_assoc]
        exact ⟨_, hts, _, hlast, rfl⟩
      · obtain ⟨vs₁, vs₂, rfl, hv₁, hv₂⟩ := hv.split
        have hv₁length := hv₁.length_eq
        rw [List.append_assoc] at hmore ⊢
        obtain ⟨y, hy⟩ := hagain _ _ hv₁ hmore
        obtain ⟨us', heq, -, hagain⟩ := (hrest x y).refused hz
        obtain rfl := List.append_cancel_right heq
        rw [List.length_append] at hmore
        exact bind_eq hy (hagain _ _ hv₂ (by omega))

theorem Prompt.map {f f' : α → β} (hp : Prompt c n L p p') :
    Prompt c n L (do return f (← p)) (do return f' (← p')) :=
  (hp.bind 0 (by simp) filled_one fun x y _ _ => prompt_pure (f x) (f' y)).mono (mul_one L).le

/-- A token that decides how to go on is in front of one of two languages. -/
theorem prompt_accept (t : Token) (hp : ∀ m, m + 1 ≤ n → Prompt c m L p p') (hq : Prompt c n M q q') :
    Prompt c n (word t * L + M) (do if ← accept t then p else q) (do if ← accept t then p' else q') := by
  intro tokens hn
  by_cases hnext : tokens.head?.map Lexeme.token = some t
  · obtain ⟨l, rest, rfl⟩ := exists_cons_of_head hnext
    rw [List.length_cons] at hn
    have hrest := hp (n - 1) (by omega) rest (by omega)
    constructor
    · intro d x s hrun
      obtain ⟨ts, rest, rfl, rfl, hts, hagain⟩ := hrest.read ((bind_eq accept_eq rfl).symm.trans hrun)
      refine ⟨⟨t, l⟩ :: ts, rest, rfl, rfl, .inl ⟨_, rfl, _, hts, rfl⟩, fun us more hu hmore => ?_⟩
      obtain ⟨⟨_, l'⟩, us, rfl, rfl, hus⟩ := List.map_eq_cons_iff.1 hu.taken
      rw [List.cons_append, List.length_cons] at hmore
      obtain ⟨y, hy⟩ := hagain us more ⟨hus, hu.next⟩ (by omega)
      exact ⟨y, bind_eq accept_eq hy⟩
    · intro d wanted rest hrun
      obtain ⟨ts, rfl, ⟨last, hspelled, hlast⟩, hagain⟩ :=
        hrest.refused ((bind_eq accept_eq rfl).symm.trans hrun)
      refine ⟨⟨t, l⟩ :: ts, rfl, ⟨last, hspelled, .inl ⟨_, rfl, _, hlast, rfl⟩⟩, fun us more hu hmore => ?_⟩
      obtain ⟨⟨_, l'⟩, us, rfl, rfl, hus⟩ := List.map_eq_cons_iff.1 hu.taken
      rw [List.cons_append, List.length_cons] at hmore
      exact bind_eq accept_eq (hagain us more ⟨hus, hu.next⟩ (by omega))
  · have hother : Becomes (tokens.head?.map Lexeme.token) (accept t) (pure false) := fun us d hus =>
      accept_ne fun next hmem heq => hnext (by rw [← hus, Option.mem_def.1 hmem, Option.map_some, heq])
    exact ((hq tokens hn).mono le_add_self).congr rfl (fun us d hus => bind_eq (hother us d hus) rfl)
      fun us d hus => bind_eq (hother us d hus) rfl

theorem prompt_token {t : Token} (ht : Filled (word t)) : Prompt c n (word t) (token t) (token t) := by
  have hrefuse : Prompt c n (word t) (refuse (.token t) : Parser Unit) (refuse (.token t)) :=
    prompt_refuse ht _
  refine (prompt_accept t (fun m _ => prompt_pure () ()) hrefuse).mono ?_
  rw [mul_one, add_idem]

theorem prompt_identifier : Prompt c n names identifier identifier := by
  intro tokens hn
  by_cases hnext : ∃ name, tokens.head?.map Lexeme.token = some (.identifier name)
  · obtain ⟨name, hnext⟩ := hnext
    obtain ⟨l, rest, rfl⟩ := exists_cons_of_head hnext
    constructor
    · intro d x s hrun
      cases hrun
      refine ⟨[⟨.identifier name, l⟩], rest, rfl, rfl, ⟨name, rfl⟩, fun us more hu _ => ?_⟩
      obtain ⟨⟨_, l'⟩, us, rfl, rfl, hus⟩ := List.map_eq_cons_iff.1 hu.taken
      obtain rfl : us = [] := by simpa using hus
      exact ⟨_, identifier_eq⟩
    · intro d wanted rest hrun
      cases hrun
  · have hother : Becomes (tokens.head?.map Lexeme.token) identifier (refuse .identifier) := by
      intro us d hus
      match us with
      | [] | ⟨.integer _, _⟩ :: _ | ⟨.keyword _, _⟩ :: _ | ⟨.mark _, _⟩ :: _ | ⟨.operator _, _⟩ :: _ => rfl
      | ⟨.identifier name, l⟩ :: us => exact absurd ⟨name, hus.symm⟩ hnext
    exact (prompt_refuse filled_names .identifier tokens hn).congr rfl hother hother

theorem Prompt.nest (hp : Prompt c n L p p') : Prompt c n L (nest p) (nest p') := by
  intro tokens hn
  constructor
  · intro d x s hrun
    obtain ⟨u, s₁, h₁, hrun⟩ := bind_ok hrun
    cases d with
    | zero => cases h₁
    | succ d =>
      cases h₁
      obtain ⟨x', s₂, hx, hrun⟩ := bind_ok hrun
      obtain ⟨ts, rest, rfl, rfl, hts, hagain⟩ := (hp _ hn).read hx
      cases hrun
      refine ⟨ts, rest, rfl, rfl, hts, fun us more hu hmore => ?_⟩
      obtain ⟨y, hy⟩ := hagain us more hu hmore
      exact ⟨y, nest_eq hy⟩
  · intro d wanted rest hrun
    rcases bind_error hrun with h₁ | ⟨u, s₁, h₁, hrun⟩
    · cases d <;> cases h₁
    · cases d with
      | zero => cases h₁
      | succ d =>
        cases h₁
        rcases bind_error hrun with hx | ⟨x, s₂, -, hrun⟩
        · obtain ⟨ts, rfl, hts, hagain⟩ := (hp _ hn).refused hx
          exact ⟨ts, rfl, hts, fun us more hu hmore => bind_eq rfl (bind_eq_error (hagain us more hu hmore))⟩
        · cases hrun

theorem Prompt.andThen {f f' : α → Parser β} (hp : Prompt c n L p p') (hM : Filled M)
    (hf : ∀ x y, Prompt c n M (f x) (f' y)) : Prompt c n (L * M) (p >>= f) (p' >>= f') :=
  hp.bind 0 (by simp) hM fun x y _ hm => (hf x y).of_le hm

theorem Prompt.afterToken {t : Token} (hL : Filled (word t * L)) (hp : ∀ m, m + 1 ≤ n → Prompt c m L p p') :
    Prompt c n (word t * L) (token t >>= fun _ => p) (token t >>= fun _ => p') :=
  have ⟨ht, hL⟩ := filled_mul.1 hL
  (prompt_token ht).bind 1 (fun _ hts => by rw [hts]; rfl) hL fun _ _ => hp

theorem Prompt.beforeToken {t : Token} {f f' : α → β} (ht : Filled (word t)) (hp : Prompt c n L p p') :
    Prompt c n (L * word t) (do let x ← p; token t; return f x) (do let x ← p'; token t; return f' x) :=
  hp.andThen ht fun x y => ((prompt_token ht).andThen filled_one fun _ _ =>
    prompt_pure (f x) (f' y)).mono (mul_one _).le

/-- A loop that has no rounds left has no tokens left either. -/
theorem prompt_noTokens {x y : α} (hL : 1 ≤ L) (hp : Becomes none p (pure x))
    (hp' : Becomes none p' (pure y)) : Prompt c 0 L p p' := by
  intro tokens hn
  obtain rfl := List.eq_nil_of_length_eq_zero (Nat.le_zero.1 hn)
  exact ((prompt_pure x y [] hn).mono hL).congr rfl hp hp'

theorem becomes_of_end (q : Parser α) : Becomes none (do if (← ahead).isEmpty then p else q) p := by
  intro us d hus
  obtain rfl : us = [] := by simpa using hus
  rfl

theorem becomes_of_more {first : Token} (p : Parser α) :
    Becomes (some first) (do if (← ahead).isEmpty then p else q) q := by
  intro us d hus
  obtain ⟨l, us, rfl⟩ := exists_cons_of_head hus
  rfl

/-- The end of the tokens decides how to go on. -/
theorem prompt_isEmpty (hp : Prompt c n L p p')
    (hq : Prompt c n L q q') :
    Prompt c n L (do if (← ahead).isEmpty then p else q) (do if (← ahead).isEmpty then p' else q') := by
  intro tokens hn
  cases tokens with
  | nil => exact (hp [] hn).congr rfl (becomes_of_end q) (becomes_of_end q')
  | cons first rest => exact (hq _ hn).congr rfl (becomes_of_more p) (becomes_of_more p')

theorem prompt_tooDeep (p' : Parser α) : Prompt c n L tooDeep p' :=
  fun _ _ => ⟨nofun, nofun⟩

end Prompt

/-! ## Lists -/

section Lists

variable {α : Type} {c n : Nat} {I A : Language Token} {item item' : Parser α}

theorem prompt_items (hitem : Prompt c n I item item') (hA : Filled A) (hlast : I ≤ A)
    (hmore : I * (word (.mark .comma) * A) ≤ A) {left m : Nat} (hm : m ≤ n) (hleft : m < left)
    (read read' : Array α) :
    Prompt c m (A * word (.mark .closeParen)) (items item left read) (items item' (c + left) read') := by
  induction left generalizing m read read' with
  | zero => cases hleft
  | succ left ih =>
    rw [← Nat.add_assoc, items, items]
    have hgo : ∀ x y, Prompt c m
        (word (.mark .closeParen) * 1 + word (.mark .comma) * (A * word (.mark .closeParen)))
        (do
          if ← accept (.mark .closeParen) then
            return (read.push x).toList
          else
            mark .comma
            items item left (read.push x))
        (do
          if ← accept (.mark .closeParen) then
            return (read'.push y).toList
          else
            mark .comma
            items item' (c + left) (read'.push y)) := fun x y =>
      prompt_accept _ (fun _ _ => prompt_pure _ _)
        (.afterToken (by simp [hA]) fun k hk => ih (by omega) (by omega) _ _)
    refine ((hitem.of_le hm).andThen (by simp) hgo).mono ?_
    rw [mul_add, mul_one, ← mul_assoc, ← mul_assoc, mul_assoc I]
    exact add_le (mul_le_mul_left hlast _) (mul_le_mul_left hmore _)

/-- What follows the opening parenthesis of a list. -/
def listed (rounds : Nat) (item : Parser α) : Parser (List α) := do
  if ← accept (.mark .closeParen) then
    return []
  else
    items item rounds #[]

theorem parenthesized_eq (rounds : Nat) (item : Parser α) :
    parenthesized rounds item = mark .openParen >>= fun _ => listed rounds item :=
  rfl

theorem prompt_listed (hitem : Prompt c n I item item') (hA : Filled A) (hlast : I ≤ A)
    (hmore : I * (word (.mark .comma) * A) ≤ A) {rounds m : Nat} (hm : m ≤ n) (hrounds : m < rounds) :
    Prompt c m (word (.mark .closeParen) + A * word (.mark .closeParen)) (listed rounds item)
      (listed (c + rounds) item') := by
  refine (prompt_accept _ (fun _ _ => prompt_pure [] [])
    (prompt_items hitem hA hlast hmore hm hrounds #[] #[])).mono ?_
  rw [mul_one]

theorem prompt_parenthesized (hitem : Prompt c n I item item') (hA : Filled A) (hlast : I ≤ A)
    (hmore : I * (word (.mark .comma) * A) ≤ A) {rounds : Nat} (hrounds : n ≤ rounds) :
    Prompt c n (word (.mark .openParen) * (word (.mark .closeParen) + A * word (.mark .closeParen)))
      (parenthesized rounds item) (parenthesized (c + rounds) item') :=
  .afterToken (by simp [hA]) fun m hm => prompt_listed hitem hA hlast hmore (by omega) (by omega)

end Lists

end CMinusMinus.Parser
