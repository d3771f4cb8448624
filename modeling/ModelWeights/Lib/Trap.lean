import Mathlib.Data.List.Basic

/-! # Runs that can trap

A run ends with a value, with an error that the program returns, or in a trap:
an index out of bounds or an underflow. `Settles x r` says that `x` does not
trap and ends as the pure computation `r` does; its rules follow the run step by
step, and a later step may use what the earlier ones returned. -/
namespace Trap

/-- A run that returns `α` or an error `ε`, or traps. -/
abbrev Run (ε α : Type) := ExceptT ε Option α

section Primitives
variable {ε α : Type}

def settle (r : Except ε α) : Run ε α := ExceptT.mk (some r)

def trap : Run ε α := ExceptT.mk none

/-- `xs[i]`. -/
def index (xs : List α) (i : Nat) : Run ε α :=
  match xs[i]? with
  | some x => settle (.ok x)
  | none => trap

/-- `xs[i] = x`. -/
def store (xs : List α) (i : Nat) (x : α) : Run ε (List α) :=
  if i < xs.length then settle (.ok (xs.set i x)) else trap

/-- `a - b`. -/
def subtract (a b : Nat) : Run ε Nat := if b ≤ a then settle (.ok (a - b)) else trap

/-- The result of `x`, its error included. -/
def attempt (x : Run ε α) : Run ε (Except ε α) := ExceptT.mk (x.run.map .ok)

/-- `x` without the text of its error. -/
def hide (x : Run ε α) : Run Unit α := ExceptT.mk (x.run.map (Except.mapError fun _ => ()))

end Primitives

/-- `x` does not trap, and ends as `r` does. -/
def Settles {ε α : Type} (x : Run ε α) (r : Except ε α) : Prop := x.run = some r

namespace Settles
variable {ε α β γ : Type}

theorem of_settle (r : Except ε α) : Settles (settle r) r := rfl

theorem of_pure (a : α) : Settles (pure a : Run ε α) (.ok a) := rfl

theorem of_index {xs : List α} {i : Nat} {a : α} (h : xs[i]? = some a) :
    Settles (index xs i : Run ε α) (.ok a) := by
  rw [index, h]
  exact of_settle _

theorem of_index_getD {xs : List α} {i : Nat} (d : α) (h : i < xs.length) :
    Settles (index xs i : Run ε α) (.ok (xs.getD i d)) := by
  refine of_index ?_
  rw [List.getD_eq_getElem?_getD, List.getElem?_eq_getElem h]
  rfl

theorem of_store {xs : List α} {i : Nat} (a : α) (h : i < xs.length) :
    Settles (store xs i a : Run ε (List α)) (.ok (xs.set i a)) := by
  rw [store, if_pos h]
  exact of_settle _

theorem of_subtract {a b : Nat} (h : b ≤ a) : Settles (subtract a b : Run ε Nat) (.ok (a - b)) := by
  rw [subtract, if_pos h]
  exact of_settle _

theorem of_attempt {x : Run ε α} {r : Except ε α} (h : Settles x r) :
    Settles (attempt x) (.ok r) := by
  unfold Settles at h
  rw [Settles, attempt, ExceptT.run_mk, h]
  rfl

theorem of_hide {x : Run ε α} {r : Except ε α} (h : Settles x r) :
    Settles (hide x) (r.mapError fun _ => ()) := by
  unfold Settles at h
  rw [Settles, hide, ExceptT.run_mk, h]
  rfl

/-- The next step may use what the step before it returned. -/
theorem bind {x : Run ε α} {r : Except ε α} {f : α → Run ε β} {g : α → Except ε β}
    (h : Settles x r) (hf : ∀ a, r = .ok a → Settles (f a) (g a)) :
    Settles (x >>= f) (r >>= g) := by
  unfold Settles at h
  rw [Settles, ExceptT.run_bind, h]
  cases r with
  | error e => rfl
  | ok a => exact hf a rfl

theorem bind_value {x : Run ε α} {a : α} {f : α → Run ε β} {r : Except ε β}
    (h : Settles x (.ok a)) (hf : Settles (f a) r) : Settles (x >>= f) r :=
  bind (g := fun _ => r) h fun b hb => by
    obtain rfl := Except.ok.inj hb
    exact hf

theorem bind_error {x : Run ε α} {e : ε} {f : α → Run ε β} (h : Settles x (.error e)) :
    Settles (x >>= f) (.error e) :=
  bind (g := fun _ => .error e) h fun b hb => by cases hb

/-- `x` keeps more than the pure computation, as `m` says. -/
theorem bind_map {x : Run ε β} {m : α → β} {r : Except ε α} {f : β → Run ε γ}
    {g : α → Except ε γ} (h : Settles x (r.map m))
    (hf : ∀ a, r = .ok a → Settles (f (m a)) (g a)) : Settles (x >>= f) (r >>= g) := by
  cases r with
  | error e => exact bind_error h
  | ok a => exact bind_value h (hf a rfl)

theorem of_ite {c : Prop} [Decidable c] {x y : Run ε α} {r s : Except ε α}
    (hx : c → Settles x r) (hy : ¬c → Settles y s) :
    Settles (if c then x else y) (if c then r else s) := by
  split
  · next h => exact hx h
  · next h => exact hy h

theorem of_mapM {f : α → Run ε β} {g : α → Except ε β} :
    ∀ {l : List α}, (∀ a ∈ l, Settles (f a) (g a)) → Settles (l.mapM f) (l.mapM g)
  | [], _ => of_pure []
  | a :: l, h => by
    rw [List.mapM_cons, List.mapM_cons]
    refine bind (h a (List.mem_cons_self ..)) fun b _ => ?_
    refine bind (of_mapM fun c hc => h c (List.mem_cons_of_mem _ hc)) fun bs _ => ?_
    exact of_pure _

theorem of_mapM_value {f : α → Run ε β} {g : α → β} :
    ∀ {l : List α}, (∀ a ∈ l, Settles (f a) (.ok (g a))) → Settles (l.mapM f) (.ok (l.map g))
  | [], _ => of_pure []
  | a :: l, h => by
    rw [List.mapM_cons]
    refine bind_value (h a (List.mem_cons_self ..)) ?_
    exact bind_value (of_mapM_value fun c hc => h c (List.mem_cons_of_mem _ hc)) (of_pure _)

theorem of_foldlM {f : β → α → Run ε β} {g : β → α → Except ε β} :
    ∀ {l : List α} {b : β}, (∀ b, ∀ a ∈ l, Settles (f b a) (g b a)) →
      Settles (l.foldlM f b) (l.foldlM g b)
  | [], b, _ => of_pure b
  | a :: l, b, h => by
    rw [List.foldlM_cons, List.foldlM_cons]
    exact bind (h b a (List.mem_cons_self ..)) fun b' _ =>
      of_foldlM fun c x hx => h c x (List.mem_cons_of_mem _ hx)

end Settles

end Trap
