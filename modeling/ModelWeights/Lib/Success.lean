import Mathlib.Data.List.Forall2
import Mathlib.Data.List.Induction

/-! # Computations that return

`Succeeds x P` says that `x` ends without an error, with a value of which `P`
holds. Its rules follow the structure of the computation, so that a proof of
success visits every step that could have failed. -/

/-- `x` returns a value with `P`. -/
def Succeeds {ε α : Type} (x : Except ε α) (P : α → Prop) : Prop := ∃ a, x = .ok a ∧ P a

namespace Succeeds
variable {ε α β : Type} {P : α → Prop} {Q : β → Prop}

theorem of_eq {x : Except ε α} {a : α} (h : x = .ok a) (hP : P a) : Succeeds x P := ⟨a, h, hP⟩

theorem of_ok {a : α} (h : P a) : Succeeds (.ok a : Except ε α) P := of_eq rfl h

theorem mono {x : Except ε α} {P' : α → Prop} (h : Succeeds x P) (hP : ∀ a, P a → P' a) :
    Succeeds x P' := by
  obtain ⟨a, rfl, ha⟩ := h
  exact of_ok (hP a ha)

theorem bind {x : Except ε α} {f : α → Except ε β} (h : Succeeds x P)
    (hf : ∀ a, P a → Succeeds (f a) Q) : Succeeds (x >>= f) Q := by
  obtain ⟨a, rfl, ha⟩ := h
  exact hf a ha

/-- A step whose value is known. -/
theorem step {x : Except ε α} {f : α → Except ε β} {a : α} (h : x = .ok a)
    (hf : Succeeds (f a) Q) : Succeeds (x >>= f) Q := by
  subst h
  exact hf

/-- A guard that does not fire. -/
theorem guard {c : Prop} [Decidable c] {e : ε} {x : Except ε α} (hc : ¬c) (h : Succeeds x P) :
    Succeeds (if c then .error e else x) P := by
  rw [if_neg hc]
  exact h

/-- A loop with an invariant that is indexed by the number of elements processed. -/
theorem foldlM {f : β → α → Except ε β} (I : Nat → β → Prop) :
    ∀ {l : List α} {b : β}, I 0 b →
      (∀ (k : Nat) (a : α) (x : β), l[k]? = some a → I k x → Succeeds (f x a) (I (k + 1))) →
      Succeeds (l.foldlM f b) (I l.length) := by
  intro l
  induction l generalizing I with
  | nil => exact fun h0 _ => of_ok h0
  | cons a l ih =>
    intro b h0 hs
    rw [List.foldlM_cons]
    refine (hs 0 a b rfl h0).bind fun x hx => ?_
    exact ih (fun k => I (k + 1)) hx fun k a' y ha => hs (k + 1) a' y (by simpa using ha)

theorem mapM {f : α → Except ε β} {R : α → β → Prop} :
    ∀ {l : List α}, (∀ a ∈ l, Succeeds (f a) (R a)) → Succeeds (l.mapM f) (List.Forall₂ R l)
  | [], _ => of_ok .nil
  | a :: l, h => by
    rw [List.mapM_cons]
    refine (h a (List.mem_cons_self ..)).bind fun b hb => ?_
    refine (mapM fun c hc => h c (List.mem_cons_of_mem _ hc)).bind fun bs hbs => ?_
    exact of_ok (.cons hb hbs)

end Succeeds

/-! ## Exact outcomes -/

section Exact
variable {ε α β : Type}

theorem bind_eq_ok_iff {x : Except ε α} {f : α → Except ε β} {b : β} :
    x >>= f = .ok b ↔ ∃ a, x = .ok a ∧ f a = .ok b := by
  cases x with
  | error e => exact ⟨fun h => (by cases h), fun ⟨_, h, _⟩ => (by cases h)⟩
  | ok a =>
    refine ⟨fun h => ⟨a, rfl, h⟩, ?_⟩
    rintro ⟨_, h, hf⟩
    cases h
    exact hf

/-- A step that returns nothing. -/
theorem bind_unit_eq_ok_iff {x : Except ε Unit} {f : Unit → Except ε β} {b : β} :
    x >>= f = .ok b ↔ x = .ok () ∧ f () = .ok b :=
  bind_eq_ok_iff.trans ⟨fun ⟨(), h⟩ => h, fun h => ⟨(), h⟩⟩

theorem guard_eq_ok_iff {c : Prop} [Decidable c] {e : ε} {x : Except ε α} {a : α} :
    (if c then .error e else x) = .ok a ↔ ¬c ∧ x = .ok a := by
  split
  · next h => exact ⟨fun h => (by cases h), fun h' => absurd h h'.1⟩
  · next h => exact ⟨fun h' => ⟨h, h'⟩, And.right⟩

theorem mapM_eq_ok_iff {f : α → Except ε β} {l : List α} {r : List β} :
    l.mapM f = .ok r ↔ List.Forall₂ (fun a b => f a = .ok b) l r := by
  induction l generalizing r with
  | nil =>
    rw [List.mapM_nil, List.forall₂_nil_left_iff]
    exact ⟨fun h => (Except.ok.inj h).symm, fun h => congrArg Except.ok h.symm⟩
  | cons a l ih =>
    rw [List.mapM_cons, bind_eq_ok_iff, List.forall₂_cons_left_iff]
    simp only [bind_eq_ok_iff, ih]
    constructor
    · rintro ⟨b, hb, bs, hbs, hr⟩
      exact ⟨b, bs, hb, hbs, (Except.ok.inj hr).symm⟩
    · rintro ⟨b, bs, hb, hbs, rfl⟩
      exact ⟨b, hb, bs, hbs, rfl⟩

/-- A loop that ends exactly in the states that an invariant of the processed elements
allows. -/
theorem foldlM_eq_ok_iff {f : β → α → Except ε β} {start : β}
    (I : List α → β → Prop) (hnil : ∀ b, I [] b ↔ b = start)
    (hsnoc : ∀ l a b, I (l ++ [a]) b ↔ ∃ c, I l c ∧ f c a = .ok b) {l : List α} {b : β} :
    l.foldlM f start = .ok b ↔ I l b := by
  induction l using List.reverseRecOn generalizing b with
  | nil =>
    rw [List.foldlM_nil, hnil]
    exact ⟨fun h => (Except.ok.inj h).symm, fun h => congrArg Except.ok h.symm⟩
  | append_singleton l a ih =>
    rw [List.foldlM_append, hsnoc]
    cases hl : l.foldlM f start with
    | error e =>
      refine ⟨fun h => (by cases h), ?_⟩
      rintro ⟨c, hc, _⟩
      rw [ih.mpr hc] at hl
      cases hl
    | ok c =>
      have hlast : (Except.ok c >>= fun c => [a].foldlM f c) = f c a := by
        show (f c a >>= Except.ok) = f c a
        cases f c a <;> rfl
      rw [hlast]
      refine ⟨fun h => ⟨c, ih.mp hl, h⟩, ?_⟩
      rintro ⟨d, hd, h⟩
      obtain rfl := Except.ok.inj (hl.symm.trans (ih.mpr hd))
      exact h

end Exact
