import Mathlib.Data.List.Basic

/-! # Computations in lockstep

`Lockstep R x y` says that `x` and `y` fail with the same error or return values
that `R` relates. A step that both make, or that one of them makes and that
cannot fail, keeps it; a loop keeps it when every round does. -/

/-- `x` and `y` fail alike, or return related values. -/
inductive Lockstep {ε α β : Type} (R : α → β → Prop) : Except ε α → Except ε β → Prop
  | error (e : ε) : Lockstep R (.error e) (.error e)
  | ok {a : α} {b : β} (h : R a b) : Lockstep R (.ok a) (.ok b)

namespace Lockstep
variable {ε α β γ δ κ : Type} {R : α → β → Prop} {S : γ → δ → Prop}

theorem bind {x : Except ε α} {y : Except ε β} {f : α → Except ε γ} {g : β → Except ε δ}
    (h : Lockstep R x y) (hf : ∀ a b, R a b → Lockstep S (f a) (g b)) :
    Lockstep S (x >>= f) (y >>= g) := by
  cases h with
  | error e => exact .error e
  | ok hab => exact hf _ _ hab

theorem mono {R' : α → β → Prop} {x : Except ε α} {y : Except ε β} (h : Lockstep R x y)
    (hR : ∀ a b, R a b → R' a b) : Lockstep R' x y := by
  cases h with
  | error e => exact .error e
  | ok hab => exact .ok (hR _ _ hab)

/-- A step that both make. -/
theorem same (x : Except ε κ) {f : κ → Except ε γ} {g : κ → Except ε δ}
    (hf : ∀ a, x = .ok a → Lockstep S (f a) (g a)) : Lockstep S (x >>= f) (x >>= g) := by
  cases x with
  | error e => exact .error e
  | ok a => exact hf a rfl

/-- A step that only the left one makes. -/
theorem left {x : Except ε κ} {y : Except ε δ} {a : κ} {f : κ → Except ε γ} (hx : x = .ok a)
    (h : Lockstep S (f a) y) : Lockstep S (x >>= f) y := by
  subst hx
  exact h

/-- A step that only the right one makes. -/
theorem right {x : Except ε γ} {y : Except ε κ} {a : κ} {g : κ → Except ε δ} (hy : y = .ok a)
    (h : Lockstep S x (g a)) : Lockstep S x (y >>= g) := by
  subst hy
  exact h

/-- A guard that fires for neither. -/
theorem guard_left {c : Prop} [Decidable c] {e : ε} {x : Except ε γ} {y : Except ε δ} (hc : ¬c)
    (h : Lockstep S x y) : Lockstep S (if c then .error e else x) y := by
  rw [if_neg hc]
  exact h

/-- A loop over one list, with a relation indexed by the elements processed. -/
theorem foldlM {f : γ → κ → Except ε γ} {g : δ → κ → Except ε δ} (I : Nat → γ → δ → Prop) :
    ∀ {l : List κ} {c : γ} {d : δ}, I 0 c d →
      (∀ k a c d, l[k]? = some a → I k c d → Lockstep (I (k + 1)) (f c a) (g d a)) →
      Lockstep (I l.length) (l.foldlM f c) (l.foldlM g d) := by
  intro l
  induction l generalizing I with
  | nil => exact fun h0 _ => .ok h0
  | cons a l ih =>
    intro c d h0 hs
    rw [List.foldlM_cons, List.foldlM_cons]
    refine (hs 0 a c d rfl h0).bind fun c' d' h' => ?_
    exact ih (fun k => I (k + 1)) h' fun k b c d hb => hs (k + 1) b c d (by simpa using hb)

theorem eq {x y : Except ε κ} (h : Lockstep (· = ·) x y) : x = y := by
  cases h with
  | error e => rfl
  | ok hab => rw [hab]

end Lockstep
