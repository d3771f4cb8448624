import ModelWeights.Error
import Mathlib.Algebra.BigOperators.Group.List.Basic

/-! # Weighted host resources

The arithmetic of `ResourceWeights` and the permits of the resource budget. A
permit is the weight it reserves; the budget keeps the sum of the permits that
are out. The observed peaks only feed the report and are left out. -/
namespace ModelWeights.Pipeline

structure ResourceWeights where
  sourceBytes : Nat
  scratchBytes : Nat
  preparedBytes : Nat
  deriving DecidableEq, Repr

/-- The three dimensions of a weight. -/
inductive Dimension where
  | source
  | scratch
  | prepared
  deriving DecidableEq, Repr

namespace ResourceWeights

def get (w : ResourceWeights) : Dimension → Nat
  | .source => w.sourceBytes
  | .scratch => w.scratchBytes
  | .prepared => w.preparedBytes

@[ext] theorem ext_get {v w : ResourceWeights} (h : ∀ d, v.get d = w.get d) : v = w := by
  obtain ⟨a, b, c⟩ := v
  obtain ⟨a', b', c'⟩ := w
  have hs := h .source
  have ht := h .scratch
  have hp := h .prepared
  simp only [get] at hs ht hp
  rw [hs, ht, hp]

def default : ResourceWeights := ⟨0, 0, 0⟩

/-- A weight of prepared bytes alone. -/
def ofPrepared (bytes : Nat) : ResourceWeights := ⟨0, 0, bytes⟩

def withoutPrepared (w : ResourceWeights) : ResourceWeights := { w with preparedBytes := 0 }

@[simp] theorem get_default (d : Dimension) : default.get d = 0 := by cases d <;> rfl

@[simp] theorem get_ofPrepared (n : Nat) (d : Dimension) :
    (ofPrepared n).get d = if d = .prepared then n else 0 := by cases d <;> rfl

@[simp] theorem get_withoutPrepared (w : ResourceWeights) (d : Dimension) :
    w.withoutPrepared.get d = if d = .prepared then 0 else w.get d := by cases d <;> rfl

end ResourceWeights

open ResourceWeights

def fits (used requested limit : ResourceWeights) : Bool :=
  requested.sourceBytes ≤ limit.sourceBytes - used.sourceBytes &&
    requested.scratchBytes ≤ limit.scratchBytes - used.scratchBytes &&
    requested.preparedBytes ≤ limit.preparedBytes - used.preparedBytes

def addWeights (left right : ResourceWeights) : ResourceWeights :=
  ⟨left.sourceBytes + right.sourceBytes, left.scratchBytes + right.scratchBytes,
    left.preparedBytes + right.preparedBytes⟩

def subtractWeights (left right : ResourceWeights) : ResourceWeights :=
  ⟨left.sourceBytes - right.sourceBytes, left.scratchBytes - right.scratchBytes,
    left.preparedBytes - right.preparedBytes⟩

def maxWeights (left right : ResourceWeights) : ResourceWeights :=
  ⟨max left.sourceBytes right.sourceBytes, max left.scratchBytes right.scratchBytes,
    max left.preparedBytes right.preparedBytes⟩

@[simp] theorem get_addWeights (v w : ResourceWeights) (d : Dimension) :
    (addWeights v w).get d = v.get d + w.get d := by cases d <;> rfl

@[simp] theorem get_subtractWeights (v w : ResourceWeights) (d : Dimension) :
    (subtractWeights v w).get d = v.get d - w.get d := by cases d <;> rfl

def totalWeights (permits : List ResourceWeights) : ResourceWeights :=
  permits.foldr addWeights .default

@[simp] theorem get_totalWeights (permits : List ResourceWeights) (d : Dimension) :
    (totalWeights permits).get d = (permits.map fun w => w.get d).sum := by
  induction permits with
  | nil => exact get_default d
  | cons w rest ih =>
    rw [List.map_cons, List.sum_cons, ← ih]
    exact get_addWeights w (totalWeights rest) d

theorem fits_iff {used requested limit : ResourceWeights} :
    fits used requested limit = true ↔ ∀ d, requested.get d ≤ limit.get d - used.get d := by
  simp only [fits, Bool.and_eq_true, decide_eq_true_eq]
  constructor
  · rintro ⟨⟨hs, ht⟩, hp⟩ d
    cases d
    · exact hs
    · exact ht
    · exact hp
  · intro h
    exact ⟨⟨h .source, h .scratch⟩, h .prepared⟩

/-! ## Limits -/

structure ExecutionLimits where
  workers : Nat
  maxWorkItems : Nat
  deliveryQueueDepth : Nat
  dispatchLookahead : Nat
  sourceBytes : Nat
  scratchBytes : Nat
  preparedBytes : Nat
  deriving DecidableEq, Repr

namespace ExecutionLimits

def validate (limits : ExecutionLimits) : Result Unit :=
  if limits.workers = 0 ∨ limits.maxWorkItems = 0 ∨ limits.deliveryQueueDepth = 0 ∨
      limits.dispatchLookahead = 0 ∨ limits.sourceBytes = 0 ∨ limits.scratchBytes = 0 ∨
      limits.preparedBytes = 0 then
    .error (.limit "execution limits must all be greater than zero")
  else .ok ()

/-- The limit of the resource budget. -/
def budget (limits : ExecutionLimits) : ResourceWeights :=
  ⟨limits.sourceBytes, limits.scratchBytes, limits.preparedBytes⟩

end ExecutionLimits

/-! ## Permits of a prepared output -/

/-- The prepared bytes an output keeps: those of its first permit and those of
each promotion. -/
structure OutputReservation where
  initial : Nat
  promotedPrepared : List Nat
  deriving DecidableEq, Repr

/-- The loop of `OutputReservation::retain_prepared` over the promotions. -/
def retainPromoted : Nat → List Nat → List Nat
  | _, [] => []
  | remaining, reserved :: rest =>
    let retained := min reserved remaining
    retained :: retainPromoted (remaining - retained) rest

def OutputReservation.retainPrepared (initial : ResourceWeights) (promotedPrepared : List Nat)
    (preparedBytes : Nat) : OutputReservation :=
  let retained := min initial.preparedBytes preparedBytes
  ⟨retained, retainPromoted (preparedBytes - retained) promotedPrepared⟩

def OutputReservation.held (r : OutputReservation) : ResourceWeights :=
  .ofPrepared (r.initial + r.promotedPrepared.sum)

theorem retainPromoted_sum_le : ∀ (remaining : Nat) (promoted : List Nat),
    (retainPromoted remaining promoted).sum ≤ promoted.sum
  | _, [] => Nat.le_refl _
  | remaining, reserved :: rest => by
    have := retainPromoted_sum_le (remaining - min reserved remaining) rest
    simp only [retainPromoted, List.sum_cons]
    omega

end ModelWeights.Pipeline
