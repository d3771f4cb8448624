import Mathlib.Logic.Relation

/-! # Graphs of partial functions

Every point has at most one successor. A walk from a point on a cycle never leaves
the cycle, so a graph in which every walk ends has no cycle. -/
namespace FunctionalGraph
open Relation
variable {α : Type} {next : α → Option α} {a b c : α}

def Step (next : α → Option α) (a b : α) : Prop := next a = some b

def Acyclic (next : α → Option α) : Prop := ∀ a, ¬TransGen (Step next) a a

/-- A walk from `a` ends at `b`. -/
def EndsAt (next : α → Option α) (a b : α) : Prop := ReflTransGen (Step next) a b ∧ next b = none

theorem Step.unique (h : Step next a b) (h' : Step next a c) : b = c :=
  Option.some.inj (h.symm.trans h')

/-- The successor of a point on a cycle is on a cycle. -/
theorem cycle_step (hcycle : TransGen (Step next) a a) (h : Step next a b) :
    TransGen (Step next) b b := by
  obtain ⟨c, hfirst, hrest⟩ := TransGen.head'_iff.mp hcycle
  obtain rfl := h.unique hfirst
  exact TransGen.tail' hrest h

theorem cycle_walk (hcycle : TransGen (Step next) a a) (h : ReflTransGen (Step next) a b) :
    TransGen (Step next) b b := by
  induction h with
  | refl => exact hcycle
  | tail _ hstep ih => exact cycle_step ih hstep

/-- No walk that ends started on a cycle. -/
theorem EndsAt.not_cycle (h : EndsAt next a b) : ¬TransGen (Step next) a a := by
  intro hcycle
  obtain ⟨c, hfirst, _⟩ := TransGen.head'_iff.mp (cycle_walk hcycle h.1)
  rw [Step, h.2] at hfirst
  cases hfirst

theorem acyclic_of_ends (h : ∀ a b, next a = some b → ∃ c, EndsAt next a c) : Acyclic next := by
  intro a hcycle
  obtain ⟨b, hfirst, _⟩ := TransGen.head'_iff.mp hcycle
  obtain ⟨c, hc⟩ := h a b hfirst
  exact hc.not_cycle hcycle

end FunctionalGraph
