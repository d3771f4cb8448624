import ModelWeights.Pipeline.Machine
import Mathlib.Algebra.BigOperators.Group.Multiset.Basic

/-! # The budget and the permits that are out

`ResourceBudget` alone, with the permits in circulation whoever holds them. The
lock makes every operation one step, and the operations come in any order. A
permit is the weight it reserves. -/
namespace ModelWeights.Pipeline
open ResourceWeights

structure Ledger where
  used : ResourceWeights
  live : Multiset ResourceWeights

/-- The calls that reach the budget; a permit is dropped on every path that
does not pass it on. -/
inductive PermitOp where
  | acquire (requested : ResourceWeights) (cancelled : Bool)
  | releasePrepared (permit : ResourceWeights)
  | splitPrepared (permit : ResourceWeights)
  | retainPrepared (permit : ResourceWeights) (preparedBytes : Nat)
  | drop (permit : ResourceWeights)

/-- The permits that take the place of a permit. -/
def ResourceWeights.splitPrepared (permit : ResourceWeights) : Multiset ResourceWeights :=
  permit.withoutPrepared ::ₘ
    if permit.preparedBytes > 0 then {ofPrepared permit.preparedBytes} else 0

def ResourceWeights.retainPrepared (permit : ResourceWeights) (preparedBytes : Nat) : ResourceWeights :=
  ofPrepared (min permit.preparedBytes preparedBytes)

namespace PermitOp

/-- The permit an operation is called on. -/
def permit? : PermitOp → Option ResourceWeights
  | .acquire _ _ => none
  | .releasePrepared permit | .splitPrepared permit | .retainPrepared permit _ | .drop permit =>
    some permit

/-- What an operation passes to `ResourceBudget::release`. -/
def released : PermitOp → ResourceWeights
  | .acquire _ _ | .splitPrepared _ => .default
  | .releasePrepared permit => ofPrepared permit.preparedBytes
  | .retainPrepared permit preparedBytes =>
    subtractWeights permit (permit.retainPrepared preparedBytes)
  | .drop permit => permit

/-- The permits an operation leaves of the one it is called on. -/
def kept : PermitOp → Multiset ResourceWeights
  | .acquire _ _ | .drop _ => 0
  | .releasePrepared permit => {permit.withoutPrepared}
  | .splitPrepared permit => permit.splitPrepared
  | .retainPrepared permit preparedBytes => {permit.retainPrepared preparedBytes}

end PermitOp

namespace Ledger

def empty : Ledger := ⟨.default, 0⟩

def total (live : Multiset ResourceWeights) (d : Dimension) : Nat := (live.map fun w => w.get d).sum

def act (limit : ResourceWeights) (op : PermitOp) (l : Ledger) : Option Ledger :=
  match op with
  | .acquire requested cancelled =>
    match Pipeline.acquire limit l.used requested cancelled with
    | none => none
    | some (.error _) => some l
    | some (.ok used) => some ⟨used, requested ::ₘ l.live⟩
  | .releasePrepared permit | .splitPrepared permit | .retainPrepared permit _ | .drop permit =>
    if permit ∈ l.live then
      some ⟨subtractWeights l.used op.released, op.kept + l.live.erase permit⟩
    else none

section Total

@[simp] theorem total_zero (d : Dimension) : total 0 d = 0 := rfl

@[simp] theorem total_cons (w : ResourceWeights) (live : Multiset ResourceWeights) (d : Dimension) :
    total (w ::ₘ live) d = w.get d + total live d := by
  simp [total]

@[simp] theorem total_singleton (w : ResourceWeights) (d : Dimension) : total {w} d = w.get d := by
  simp [total]

@[simp] theorem total_add (a b : Multiset ResourceWeights) (d : Dimension) :
    total (a + b) d = total a d + total b d := by
  simp [total]

theorem total_erase {w : ResourceWeights} {live : Multiset ResourceWeights} (h : w ∈ live)
    (d : Dimension) : w.get d + total (live.erase w) d = total live d := by
  rw [← total_cons, Multiset.cons_erase h]

theorem le_total {w : ResourceWeights} {live : Multiset ResourceWeights} (h : w ∈ live)
    (d : Dimension) : w.get d ≤ total live d := by
  rw [← total_erase h d]
  exact Nat.le_add_right _ _

end Total

/-- An operation splits its permit in what it keeps and what it gives back. -/
theorem released_kept {op : PermitOp} {permit : ResourceWeights} (h : op.permit? = some permit)
    (d : Dimension) : op.released.get d + total op.kept d = permit.get d := by
  cases op with
  | acquire requested cancelled => cases h
  | releasePrepared p =>
    obtain rfl := Option.some.inj h
    simp only [PermitOp.released, PermitOp.kept, get_ofPrepared, total_singleton,
      get_withoutPrepared]
    cases d <;> simp [ResourceWeights.get]
  | splitPrepared p =>
    obtain rfl := Option.some.inj h
    simp only [PermitOp.released, PermitOp.kept, ResourceWeights.splitPrepared, get_default, total_cons,
      get_withoutPrepared]
    by_cases hp : p.preparedBytes > 0
    · cases d <;> simp [hp, ResourceWeights.get, ofPrepared]
    · cases d <;> simp [hp, ResourceWeights.get]
      omega
  | retainPrepared p bytes =>
    obtain rfl := Option.some.inj h
    simp only [PermitOp.released, PermitOp.kept, ResourceWeights.retainPrepared, get_subtractWeights,
      get_ofPrepared, total_singleton]
    cases d <;> simp [ResourceWeights.get]
  | drop p =>
    obtain rfl := Option.some.inj h
    simp [PermitOp.released, PermitOp.kept]

/-! ## The invariant -/

/-- The counter is the sum of the permits, within the limit. -/
structure Balanced (limit : ResourceWeights) (l : Ledger) : Prop where
  used : ∀ d, l.used.get d = total l.live d
  within : ∀ d, l.used.get d ≤ limit.get d

/-- No arithmetic of the next operation wraps or saturates: the subtraction in
`fits`, the addition of a granted request, the subtraction in `release`, and
the one of `retain_prepared`. -/
structure Exact (limit : ResourceWeights) (l : Ledger) (op : PermitOp) : Prop where
  fits : ∀ d, l.used.get d ≤ limit.get d
  granted : ∀ requested cancelled used, op = .acquire requested cancelled →
    Pipeline.acquire limit l.used requested cancelled = some (.ok used) →
    ∀ d, used.get d = l.used.get d + requested.get d ∧ used.get d ≤ limit.get d
  released : ∀ permit ∈ op.permit?, permit ∈ l.live → ∀ d, op.released.get d ≤ l.used.get d
  retained : ∀ permit bytes, op = .retainPrepared permit bytes →
    ∀ d, (permit.retainPrepared bytes).get d ≤ permit.get d

variable {limit : ResourceWeights} {l l' : Ledger} {op : PermitOp}

theorem acquire_ok {used requested used' : ResourceWeights} {cancelled : Bool}
    (h : Pipeline.acquire limit used requested cancelled = some (.ok used'))  :
    used' = addWeights used requested ∧ ∀ d, requested.get d ≤ limit.get d - used.get d := by
  unfold Pipeline.acquire at h
  split at h
  · cases h
  · split at h
    · cases h
    · split at h
      · next hf =>
        cases h
        exact ⟨rfl, fits_iff.mp hf⟩
      · cases h

/-- One operation: a request is granted, refused, or a permit is taken apart. -/
theorem act_cases (h : act limit op l = some l') :
    l' = l ∨ (∃ requested cancelled used, op = .acquire requested cancelled ∧
      Pipeline.acquire limit l.used requested cancelled = some (.ok used) ∧
      l' = ⟨used, requested ::ₘ l.live⟩) ∨
    ∃ permit, op.permit? = some permit ∧ permit ∈ l.live ∧
      l' = ⟨subtractWeights l.used op.released, op.kept + l.live.erase permit⟩ := by
  have hcall : ∀ permit : ResourceWeights, op.permit? = some permit →
      (if permit ∈ l.live then some (⟨subtractWeights l.used op.released,
        op.kept + l.live.erase permit⟩ : Ledger) else none) = some l' →
      ∃ permit, op.permit? = some permit ∧ permit ∈ l.live ∧
        l' = ⟨subtractWeights l.used op.released, op.kept + l.live.erase permit⟩ := by
    intro permit hpermit hif
    split at hif
    · next hm => exact ⟨permit, hpermit, hm, (Option.some.inj hif).symm⟩
    · cases hif
  cases op with
  | acquire requested cancelled =>
    dsimp only [act] at h
    cases hacquire : Pipeline.acquire limit l.used requested cancelled with
    | none => rw [hacquire] at h; cases h
    | some r =>
      rw [hacquire] at h
      cases r with
      | error e => exact .inl (Option.some.inj h).symm
      | ok used =>
        exact .inr (.inl ⟨requested, cancelled, used, rfl, hacquire, (Option.some.inj h).symm⟩)
  | releasePrepared permit => exact .inr (.inr (hcall permit rfl h))
  | splitPrepared permit => exact .inr (.inr (hcall permit rfl h))
  | retainPrepared permit bytes => exact .inr (.inr (hcall permit rfl h))
  | drop permit => exact .inr (.inr (hcall permit rfl h))

theorem Balanced.granted (h : Balanced limit l) {requested used : ResourceWeights}
    {cancelled : Bool}
    (hacquire : Pipeline.acquire limit l.used requested cancelled = some (.ok used))
    (d : Dimension) :
    used.get d = l.used.get d + requested.get d ∧ used.get d ≤ limit.get d := by
  obtain ⟨rfl, hfits⟩ := acquire_ok hacquire
  have := hfits d
  have := h.within d
  rw [get_addWeights]
  omega

theorem Balanced.released (h : Balanced limit l) {permit : ResourceWeights}
    (hp : op.permit? = some permit) (hm : permit ∈ l.live) (d : Dimension) :
    op.released.get d ≤ l.used.get d := by
  have := released_kept hp d
  have := le_total hm d
  rw [h.used d]
  omega

theorem Balanced.exact (h : Balanced limit l) (op : PermitOp) : Exact limit l op where
  fits := h.within
  granted := by
    rintro requested cancelled used rfl hacquire
    exact h.granted hacquire
  released := fun permit hp hm => h.released hp hm
  retained := by
    rintro permit bytes rfl d
    simp only [ResourceWeights.retainPrepared, get_ofPrepared]
    cases d <;> simp [ResourceWeights.get]

theorem Balanced.act (h : Balanced limit l) (hs : act limit op l = some l') : Balanced limit l' := by
  obtain rfl | ⟨requested, cancelled, used, -, hacquire, rfl⟩ | ⟨permit, hp, hm, rfl⟩ := act_cases hs
  · exact h
  · refine ⟨fun d => ?_, fun d => (h.granted hacquire d).2⟩
    rw [(h.granted hacquire d).1, total_cons, h.used d, Nat.add_comm]
  · constructor
    · intro d
      have hsplit := released_kept hp d
      have herase := total_erase hm d
      have hused := h.used d
      simp only [get_subtractWeights, total_add]
      omega
    · intro d
      have := h.within d
      simp only [get_subtractWeights]
      omega

theorem balanced_empty (limit : ResourceWeights) : Balanced limit empty :=
  ⟨fun d => get_default d, fun d => by simp [empty]⟩

/-- Reachable ledgers are balanced. -/
theorem balanced (h : Transition.Reachable (Ledger.act limit) empty l) : Balanced limit l :=
  h.invariant (balanced_empty limit) fun _ _ _ hl hs => hl.act hs

end Ledger

end ModelWeights.Pipeline
