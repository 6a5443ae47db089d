import CMinusMinus.Operator

/-!
# Triples

What holds before and after an action that may stop with an error.
-/

namespace CMinusMinus

variable {ε σ α β : Type}

/-- A result satisfies `Q`, or `E` where it is an error. -/
def Ends (Q : α → σ → Prop) (E : ε → σ → Prop) : EStateM.Result ε σ α → Prop
  | .ok x s => Q x s
  | .error e s => E e s

/-- Started where `P` holds, an action ends where `Q` holds of its result, or stops where `E` holds of its
cause. -/
def Triple (P : σ → Prop) (a : EStateM ε σ α) (Q : α → σ → Prop) (E : ε → σ → Prop) : Prop :=
  ∀ s, P s → Ends Q E (a.run s)

namespace Triple

variable {P P' : σ → Prop} {Q Q' : α → σ → Prop} {R : β → σ → Prop} {E : ε → σ → Prop}

theorem pure {x : α} (h : ∀ s, P s → Q x s) : Triple P (pure x : EStateM ε σ α) Q E :=
  h

theorem throw {e : ε} (h : ∀ s, P s → E e s) : Triple P (throw e : EStateM ε σ α) Q E :=
  h

theorem modify {f : σ → σ} {Q : Unit → σ → Prop} (h : ∀ s, P s → Q () (f s)) :
    Triple P (modify f : EStateM ε σ Unit) Q E :=
  h

theorem bind {a : EStateM ε σ α} {f : α → EStateM ε σ β} (ha : Triple P a Q E)
    (hf : ∀ x, Triple (Q x) (f x) R E) : Triple P (a >>= f) R E := by
  intro s hs
  have ha := ha s hs
  rw [EStateM.run_bind]
  cases hr : a.run s with
  | ok x s' =>
    rw [hr] at ha
    exact hf x s' ha
  | error e s' =>
    rw [hr] at ha
    exact ha

theorem imp {a : EStateM ε σ α} (ha : Triple P a Q E) (hp : ∀ s, P' s → P s)
    (hq : ∀ x s, Q x s → Q' x s) : Triple P' a Q' E := by
  intro s hs
  have ha := ha s (hp s hs)
  cases hr : a.run s with
  | ok x s' =>
    rw [hr] at ha
    exact hq x s' ha
  | error e s' =>
    rw [hr] at ha
    exact ha

end Triple

end CMinusMinus
