import Mathlib.Logic.Relation

/-! # Transition systems with executable actions

A system is a partial function on states for every action; an action without a
result is blocked. Reachability, the invariant rule, runs that keep to a
condition, and concrete schedules. -/
namespace Transition
variable {S A : Type} (act : A → S → Option S)

def Step (s t : S) : Prop := ∃ a, act a s = some t

def Reachable : S → S → Prop := Relation.ReflTransGen (Step act)

/-- Runs in which every action meets `C` in the state it is taken in. -/
def ReachableUnder (C : A → S → Prop) : S → S → Prop :=
  Relation.ReflTransGen fun s t => ∃ a, C a s ∧ act a s = some t

/-- No action is possible. -/
def Stuck (s : S) : Prop := ∀ a, act a s = none

/-- A schedule, carried out from `s`. -/
def run : List A → S → Option S
  | [], s => some s
  | a :: rest, s => (act a s).bind (run rest)

variable {act}

/-- What holds at the start and is kept by every action holds in every state. -/
theorem Reachable.invariant {I : S → Prop} {s t : S} (h : Reachable act s t) (hs : I s)
    (hstep : ∀ a s t, I s → act a s = some t → I t) : I t := by
  induction h with
  | refl => exact hs
  | tail _ h ih =>
    obtain ⟨a, ha⟩ := h
    exact hstep a _ _ ih ha

theorem ReachableUnder.invariant {C : A → S → Prop} {I : S → Prop} {s t : S}
    (h : ReachableUnder act C s t) (hs : I s)
    (hstep : ∀ a s t, C a s → I s → act a s = some t → I t) : I t := by
  induction h with
  | refl => exact hs
  | tail _ h ih =>
    obtain ⟨a, hC, ha⟩ := h
    exact hstep a _ _ hC ih ha

theorem reachable_of_run : ∀ {actions : List A} {s t : S}, run act actions s = some t →
    Reachable act s t
  | [], s, t, h => by
    obtain rfl : s = t := by simpa [run] using h
    exact .refl
  | a :: rest, s, t, h => by
    obtain ⟨u, hu, h⟩ := Option.bind_eq_some_iff.mp h
    exact .head ⟨a, hu⟩ (reachable_of_run h)

theorem not_stuck {s : S} (h : ¬Stuck act s) : ∃ a t, act a s = some t := by
  obtain ⟨a, ha⟩ := Classical.not_forall.mp h
  exact ⟨a, Option.ne_none_iff_exists'.mp ha⟩

end Transition
