import ModelWeights.Graph.Liveness
import ModelWeights.Lib.RefCount

/-! # The invariant of the liveness schedule

`Accounted vals s` relates the three tables of a schedule: every allocation is
recorded with as many references as there are live values on it, none without a
reference, and the live-byte counter is the sum of the recorded sizes. Every
operation keeps it, and on an accounted schedule none of the integrity errors
can arise: what is left are counter overflows (`OnlyLimit`). -/
namespace ModelWeights.Graph
open RefCount

/-! ## Computations that can only overflow -/

section OnlyLimit
variable {α β : Type} {P : α → Prop} {Q : β → Prop}

/-- `x` returns a value with `P` or an overflow of the accounting. -/
def OnlyLimit (x : Exec α) (P : α → Prop) : Prop :=
  match x with
  | .ok a => P a
  | .error (.limit _) => True
  | .error _ => False

theorem OnlyLimit.bind {x : Exec α} {f : α → Exec β} (hx : OnlyLimit x P)
    (hf : ∀ a, P a → OnlyLimit (f a) Q) : OnlyLimit (x >>= f) Q := by
  match x, hx with
  | .ok a, hx => exact hf a hx
  | .error (.limit l), _ => exact trivial

theorem OnlyLimit.mono {P' : α → Prop} {x : Exec α} (hx : OnlyLimit x P)
    (h : ∀ a, P a → P' a) : OnlyLimit x P' := by
  match x, hx with
  | .ok a, hx => exact h a hx
  | .error (.limit l), _ => exact trivial

theorem onlyLimit_orLimit {o : Option α} {l : LivenessLimit} (h : ∀ a, o = some a → P a) :
    OnlyLimit (orLimit o l) P := by
  cases o with
  | none => exact trivial
  | some a => exact h a rfl

theorem onlyLimit_orFault {o : Option α} {f : LivenessFault} {a : α} (ho : o = some a)
    (h : P a) : OnlyLimit (orFault o f) P := by
  subst ho; exact h

theorem OnlyLimit.ok {x : Exec α} {a : α} (hx : OnlyLimit x P) (h : x = .ok a) : P a := by
  subst h; exact hx

end OnlyLimit

/-! ## The invariant -/

/-- The allocation a live value stands on. -/
def LivenessSchedule.owner (s : LivenessSchedule) (value : ValueRef) : Option Nat :=
  (s.values value).bind LiveValue.allocation

/-- Remaining uses, zero when none are recorded. -/
def LivenessSchedule.uses (s : LivenessSchedule) (value : ValueRef) : Nat :=
  (s.remainingUses value).getD 0

structure Accounted (vals : List ValueRef) (s : LivenessSchedule) : Prop where
  nodup : vals.Nodup
  known : ∀ v, (s.values v).isSome → v ∈ vals
  references : ∀ a, count vals s.owner a = (s.allocations a).elim 0 LiveAllocation.references
  referenced : ∀ a st, s.allocations a = some st → 0 < st.references
  fresh : ∀ a, s.nextAllocation ≤ a → s.allocations a = none
  live : s.liveBytes = total s.allocations LiveAllocation.bytes s.nextAllocation
  peak : s.liveBytes ≤ s.peakBytes

namespace Accounted
variable {vals : List ValueRef} {s : LivenessSchedule}

/-- A live value's allocation is recorded. -/
theorem recorded (h : Accounted vals s) {v : ValueRef} {a : Nat} (hv : s.owner v = some a) :
    ∃ st, s.allocations a = some st := by
  have hm : v ∈ vals := by
    apply h.known
    rw [LivenessSchedule.owner, Option.bind_eq_some_iff] at hv
    obtain ⟨lv, hlv, _⟩ := hv
    rw [hlv]; rfl
  have hpos : 0 < count vals s.owner a := count_pos.mpr ⟨v, hm, hv⟩
  rw [h.references a] at hpos
  cases hst : s.allocations a with
  | none => simp [hst] at hpos
  | some st => exact ⟨st, rfl⟩

/-- A recorded allocation has a live value on it. -/
theorem owned (h : Accounted vals s) {a : Nat} {st : LiveAllocation}
    (ha : s.allocations a = some st) : ∃ v ∈ vals, s.owner v = some a := by
  apply count_pos.mp
  rw [h.references a, ha]
  exact h.referenced a st ha

theorem lt_next (h : Accounted vals s) {a : Nat} {st : LiveAllocation}
    (ha : s.allocations a = some st) : a < s.nextAllocation := by
  by_contra hge
  rw [h.fresh a (by omega)] at ha
  cases ha

theorem outputBytes_le (h : Accounted vals s) (v : ValueRef) : s.outputBytes v ≤ s.liveBytes := by
  rw [h.live, LivenessSchedule.outputBytes]
  cases ho : (s.values v).bind LiveValue.allocation with
  | none => exact Nat.zero_le _
  | some a =>
    rw [Option.bind_some]
    cases hst : s.allocations a with
    | none => exact Nat.zero_le _
    | some st => exact le_total (f := LiveAllocation.bytes) (h.lt_next hst) hst

end Accounted

theorem owner_update {s s' : LivenessSchedule} {v : ValueRef} {x : Option LiveValue}
    (h : s'.values = Function.update s.values v x) :
    s'.owner = Function.update s.owner v (x.bind LiveValue.allocation) := by
  funext w
  rw [LivenessSchedule.owner, h]
  by_cases hw : w = v
  · subst hw; simp
  · rw [Function.update_of_ne hw, Function.update_of_ne hw]; rfl

/-! ## New values -/

/-- What inserting a value on an existing allocation, or on none, does. -/
structure Inserted (s s' : LivenessSchedule) (v : ValueRef) (allocation : Option Nat) : Prop where
  values : s'.values = Function.update s.values v (some ⟨allocation⟩)
  uses : s'.remainingUses = s.remainingUses
  live : s'.liveBytes = s.liveBytes
  peak : s'.peakBytes = s.peakBytes
  bytes : ∀ a, (s'.allocations a).map LiveAllocation.bytes =
    (s.allocations a).map LiveAllocation.bytes

theorem Accounted.not_live {vals : List ValueRef} {s : LivenessSchedule} {v : ValueRef}
    (h : Accounted vals s) (hv : v ∉ vals) : s.values v = none := by
  cases hx : s.values v with
  | none => rfl
  | some _ => exact absurd (h.known v (by rw [hx]; rfl)) hv

theorem nodup_concat {vals : List ValueRef} {v : ValueRef} (hn : vals.Nodup) (hv : v ∉ vals) :
    (vals ++ [v]).Nodup := by
  rw [List.nodup_append]
  refine ⟨hn, by simp, ?_⟩
  rintro x hx y hy rfl
  exact hv (List.mem_singleton.mp hy ▸ hx)

theorem Accounted.known_concat {vals : List ValueRef} {s : LivenessSchedule} {v w : ValueRef}
    {x : Option LiveValue} (h : Accounted vals s) (hw : (Function.update s.values v x w).isSome) :
    w ∈ vals ++ [v] := by
  by_cases hwv : w = v
  · simp [hwv]
  · rw [Function.update_of_ne hwv] at hw
    exact List.mem_append_left _ (h.known w hw)

theorem retain_spec {s : LivenessSchedule} {a : Nat} {st : LiveAllocation}
    (hst : s.allocations a = some st) : OnlyLimit (s.retain (some a)) fun allocations =>
      allocations = Function.update s.allocations a (some ⟨st.bytes, st.references + 1⟩) := by
  refine (onlyLimit_orFault (P := fun x => x = st) hst rfl).bind ?_
  intro state hstate
  subst hstate
  refine (onlyLimit_orLimit (P := fun n => n = state.references + 1) ?_).bind ?_
  · intro n hn; exact (checkedAdd_eq_some.mp hn).2
  rintro _ rfl
  exact rfl

/-! Tables that differ in one entry. -/

section Tables
variable {allocs : Nat → Option LiveAllocation} {a₀ n m : Nat} {x : Option LiveAllocation}

theorem referenced_update (h : ∀ a st, allocs a = some st → 0 < st.references)
    (hx : ∀ st, x = some st → 0 < st.references) :
    ∀ a st, Function.update allocs a₀ x a = some st → 0 < st.references := by
  intro a st hst
  by_cases he : a = a₀
  · subst he
    rw [Function.update_self] at hst
    exact hx st hst
  · rw [Function.update_of_ne he] at hst
    exact h a st hst

theorem fresh_update (h : ∀ a, n ≤ a → allocs a = none) (hnm : n ≤ m) (ha : a₀ < m) :
    ∀ a, m ≤ a → Function.update allocs a₀ x a = none := by
  intro a hle
  rw [Function.update_of_ne (by omega)]
  exact h a (by omega)

theorem bytes_update (hx : ∀ st, x = some st →
      (allocs a₀).map LiveAllocation.bytes = some st.bytes) :
    ∀ a st, Function.update allocs a₀ x a = some st →
      (allocs a).map LiveAllocation.bytes = some st.bytes := by
  intro a st hst
  by_cases he : a = a₀
  · subst he
    rw [Function.update_self] at hst
    exact hx st hst
  · rw [Function.update_of_ne he] at hst
    rw [hst]; rfl

/-- Reference counts do not enter the total. -/
theorem total_references {st : LiveAllocation} (hst : allocs a₀ = some st) (references : Nat) :
    total (Function.update allocs a₀ (some ⟨st.bytes, references⟩)) LiveAllocation.bytes n =
      total allocs LiveAllocation.bytes n :=
  total_replace hst rfl

end Tables

theorem Accounted.insertShared {vals : List ValueRef} {s : LivenessSchedule} {v : ValueRef}
    {allocation : Option Nat} (h : Accounted vals s) (hv : v ∉ vals)
    (ha : ∀ a, allocation = some a → (s.allocations a).isSome) :
    OnlyLimit (s.insertValue v allocation) fun s' =>
      Accounted (vals ++ [v]) s' ∧ Inserted s s' v allocation := by
  unfold LivenessSchedule.insertValue
  rw [if_neg (by simp [h.not_live hv])]
  cases allocation with
  | none =>
    refine ⟨⟨nodup_concat h.nodup hv, fun w => h.known_concat, ?_, h.referenced, h.fresh, h.live,
      h.peak⟩, rfl, rfl, rfl, rfl, fun _ => rfl⟩
    intro a
    rw [owner_update (s := s) rfl, count_insert hv, if_neg (by simp)]
    exact h.references a
  | some a₀ =>
    obtain ⟨st, hst⟩ := Option.isSome_iff_exists.mp (ha a₀ rfl)
    refine (retain_spec hst).bind ?_
    rintro _ rfl
    refine ⟨⟨nodup_concat h.nodup hv, fun w => h.known_concat, ?_,
      referenced_update h.referenced (fun _ hx => Option.some.inj hx ▸ Nat.succ_pos _),
      fresh_update h.fresh (Nat.le_refl _) (h.lt_next hst),
      h.live.trans (total_references hst _).symm, h.peak⟩, rfl, rfl, rfl, rfl, ?_⟩
    · intro a
      rw [owner_update (s := s) rfl, count_insert hv, h.references a]
      by_cases he : a = a₀
      · subst he; simp [hst]
      · rw [if_neg (by simpa using fun h => he h.symm)]
        simp [Function.update_of_ne he]
    · intro a
      by_cases he : a = a₀
      · subst he; simp [hst]
      · simp [Function.update_of_ne he]

/-- What creating an allocation and putting the first value on it does. -/
structure InsertedFresh (s s' : LivenessSchedule) (v : ValueRef) (bytes : Nat) : Prop where
  values : s'.values = Function.update s.values v (some ⟨some s.nextAllocation⟩)
  uses : s'.remainingUses = s.remainingUses
  next : s'.nextAllocation = s.nextAllocation + 1
  live : s'.liveBytes = s.liveBytes + bytes
  peak : s'.peakBytes = max s.peakBytes (s.liveBytes + bytes)
  allocations : s'.allocations =
    Function.update s.allocations s.nextAllocation (some ⟨bytes, 1⟩)

theorem createAllocation_spec (s : LivenessSchedule) (bytes : Nat) :
    OnlyLimit (s.createAllocation bytes) fun r => r = (s.nextAllocation, { s with
      nextAllocation := s.nextAllocation + 1
      liveBytes := s.liveBytes + bytes
      peakBytes := max s.peakBytes (s.liveBytes + bytes)
      allocations := Function.update s.allocations s.nextAllocation (some ⟨bytes, 0⟩) }) := by
  refine (onlyLimit_orLimit (P := fun n => n = s.nextAllocation + 1) ?_).bind ?_
  · intro n hn; exact (checkedAdd_eq_some.mp hn).2
  rintro _ rfl
  refine (onlyLimit_orLimit (P := fun n => n = s.liveBytes + bytes) ?_).bind ?_
  · intro n hn; exact (checkedAdd_eq_some.mp hn).2
  rintro _ rfl
  exact rfl

theorem Accounted.insertFresh {vals : List ValueRef} {s : LivenessSchedule} {v : ValueRef}
    (h : Accounted vals s) (hv : v ∉ vals) (bytes : Nat) :
    OnlyLimit (s.createAllocation bytes >>= fun r => r.2.insertValue v (some r.1)) fun s' =>
      Accounted (vals ++ [v]) s' ∧ InsertedFresh s s' v bytes := by
  refine (createAllocation_spec s bytes).bind ?_
  rintro _ rfl
  unfold LivenessSchedule.insertValue
  rw [if_neg (by simp [h.not_live hv])]
  refine (@retain_spec _ _ ⟨bytes, 0⟩ (Function.update_self ..)).bind ?_
  rintro _ rfl
  simp only [Function.update_idem]
  refine ⟨⟨nodup_concat h.nodup hv, fun w => h.known_concat, ?_,
    referenced_update h.referenced (fun _ hx => Option.some.inj hx ▸ Nat.one_pos),
    fresh_update h.fresh (Nat.le_succ _) (Nat.lt_succ_self _), ?_, Nat.le_max_right _ _⟩,
    rfl, rfl, rfl, rfl, rfl, rfl⟩
  · intro a
    rw [owner_update (s := s) rfl, count_insert hv, h.references a]
    by_cases he : a = s.nextAllocation
    · subst he; simp [h.fresh _ (Nat.le_refl _)]
    · rw [if_neg (by simpa using fun h => he h.symm)]
      simp [Function.update_of_ne he]
  · show s.liveBytes + bytes = _
    rw [h.live]
    exact (total_insert (b := (⟨bytes, 1⟩ : LiveAllocation))).symm

/-! ## Removed values -/

/-- What removing a value does: an allocation keeps its size while it is there,
and the last value takes its allocation with it. -/
structure Removed (s s' : LivenessSchedule) (v : ValueRef) : Prop where
  values : s'.values = Function.update s.values v none
  uses : s'.remainingUses = s.remainingUses
  next : s'.nextAllocation = s.nextAllocation
  peak : s'.peakBytes = s.peakBytes
  bytes : ∀ a st, s'.allocations a = some st →
    (s.allocations a).map LiveAllocation.bytes = some st.bytes

theorem Accounted.removeValue {vals : List ValueRef} {s : LivenessSchedule} {v : ValueRef}
    (h : Accounted vals s) (hv : (s.values v).isSome) :
    ∃ s', s.removeValue v = .ok s' ∧ Accounted vals s' ∧ Removed s s' v := by
  obtain ⟨⟨allocation⟩, hlv⟩ := Option.isSome_iff_exists.mp hv
  have hmem : v ∈ vals := h.known v hv
  have hknown : ∀ w, (Function.update s.values v none w).isSome → w ∈ vals := by
    intro w hw
    by_cases hwv : w = v
    · exact hwv ▸ hmem
    · rw [Function.update_of_ne hwv] at hw
      exact h.known w hw
  have howner : s.owner v = allocation := by rw [LivenessSchedule.owner, hlv]; rfl
  have hcount : ∀ a, count vals (Function.update s.owner v none) a +
      (if allocation = some a then 1 else 0) =
        (s.allocations a).elim 0 LiveAllocation.references := by
    intro a
    rw [← h.references a, ← howner]
    exact count_remove h.nodup hmem
  cases allocation with
  | none =>
    refine ⟨{ s with values := Function.update s.values v none },
      by rw [LivenessSchedule.removeValue, hlv]; rfl,
      ⟨h.nodup, hknown, ?_, h.referenced, h.fresh, h.live, h.peak⟩, rfl, rfl, rfl, rfl,
      fun a st hst => ?_⟩
    · intro a
      rw [owner_update (s := s) rfl]
      simpa using hcount a
    · have hst : s.allocations a = some st := hst
      rw [hst]; rfl
  | some a₀ =>
    obtain ⟨st, hst⟩ := h.recorded howner
    have hpos := h.referenced a₀ st hst
    have hlt := h.lt_next hst
    have hle : st.bytes ≤ s.liveBytes := by
      rw [h.live]; exact le_total (f := LiveAllocation.bytes) hlt hst
    have hsub : checkedSub st.references 1 = some (st.references - 1) := by
      rw [checkedSub, if_pos (show 1 ≤ st.references from hpos)]
    have hlive : checkedSub s.liveBytes st.bytes = some (s.liveBytes - st.bytes) := by
      rw [checkedSub, if_pos hle]
    have hrefs : ∀ (x : Option LiveAllocation),
        x.elim 0 LiveAllocation.references = st.references - 1 → ∀ a,
        count vals (Function.update s.owner v none) a =
          (Function.update s.allocations a₀ x a).elim 0 LiveAllocation.references := by
      intro x hx a
      have := hcount a
      by_cases he : a = a₀
      · subst he
        rw [hst, if_pos rfl, Option.elim_some] at this
        rw [Function.update_self, hx]
        omega
      · rw [if_neg (by simpa using fun h => he h.symm)] at this
        simpa [Function.update_of_ne he] using this
    by_cases hlast : st.references - 1 = 0
    · -- the last reference: the allocation goes
      refine ⟨{ s with values := Function.update s.values v none
                       allocations := Function.update s.allocations a₀ none
                       liveBytes := s.liveBytes - st.bytes }, ?_,
        ⟨h.nodup, hknown, ?_, referenced_update h.referenced (fun _ hx => by cases hx),
          fresh_update h.fresh (Nat.le_refl _) hlt, ?_, Nat.le_trans (Nat.sub_le _ _) h.peak⟩,
        rfl, rfl, rfl, rfl, bytes_update fun _ hx => by cases hx⟩
      · simp only [LivenessSchedule.removeValue, LivenessSchedule.release, hlv, hst, orFault,
          bind, Except.bind, hsub, if_pos hlast, hlive]
      · intro a
        rw [owner_update (s := s) rfl]
        exact hrefs none hlast.symm a
      · have := total_remove (f := LiveAllocation.bytes) hlt hst
        have hl := h.live
        show s.liveBytes - st.bytes =
          total (Function.update s.allocations a₀ none) LiveAllocation.bytes s.nextAllocation
        omega
    · refine ⟨{ s with values := Function.update s.values v none
                       allocations := Function.update s.allocations a₀
                         (some ⟨st.bytes, st.references - 1⟩) }, ?_,
        ⟨h.nodup, hknown, ?_,
          referenced_update h.referenced
            (fun _ hx => Option.some.inj hx ▸ Nat.pos_of_ne_zero hlast),
          fresh_update h.fresh (Nat.le_refl _) hlt, h.live.trans (total_references hst _).symm,
          h.peak⟩,
        rfl, rfl, rfl, rfl, bytes_update fun _ hx => by rw [hst, ← Option.some.inj hx]; rfl⟩
      · simp only [LivenessSchedule.removeValue, LivenessSchedule.release, hlv, hst, orFault,
          bind, Except.bind, hsub, if_neg hlast]
      · intro a
        rw [owner_update (s := s) rfl]
        exact hrefs _ rfl a

/-! ## Scratch and uses -/

theorem Accounted.observeTransient {vals : List ValueRef} {s : LivenessSchedule} (n : Nat)
    (h : Accounted vals s) : OnlyLimit (s.observeTransient n) fun s' =>
      Accounted vals s' ∧ s' = { s with peakBytes := max s.peakBytes (s.liveBytes + n) } := by
  refine (onlyLimit_orLimit (P := fun x => x = s.liveBytes + n) ?_).bind ?_
  · intro x hx; exact (checkedAdd_eq_some.mp hx).2
  rintro _ rfl
  exact ⟨⟨h.nodup, h.known, h.references, h.referenced, h.fresh, h.live,
    Nat.le_trans h.peak (Nat.le_max_left _ _)⟩, rfl⟩

/-- What one use of a value does: the value goes with its last use. -/
structure Consumed (s s' : LivenessSchedule) (v : ValueRef) (last : Bool) : Prop where
  uses : ∀ w, s'.uses w = if w = v then s.uses v - 1 else s.uses w
  isLast : last = true ↔ s.uses v = 1
  values : s'.values = if last then Function.update s.values v none else s.values
  next : s'.nextAllocation = s.nextAllocation
  peak : s'.peakBytes = s.peakBytes
  bytes : ∀ a st, s'.allocations a = some st →
    (s.allocations a).map LiveAllocation.bytes = some st.bytes

theorem Accounted.consumeValue {vals : List ValueRef} {s : LivenessSchedule} {v : ValueRef}
    (h : Accounted vals s) (hu : 0 < s.uses v) (hv : (s.values v).isSome) :
    ∃ last s', s.consumeValue v = .ok (last, s') ∧ Accounted vals s' ∧ Consumed s s' v last := by
  obtain ⟨n, hn⟩ : ∃ n, s.remainingUses v = some n := by
    cases hx : s.remainingUses v with
    | none => simp [LivenessSchedule.uses, hx] at hu
    | some n => exact ⟨n, rfl⟩
  have hun : s.uses v = n := by simp [LivenessSchedule.uses, hn]
  have hsub : checkedSub n 1 = some (n - 1) := by rw [checkedSub, if_pos (by omega)]
  let s₁ : LivenessSchedule :=
    { s with remainingUses := Function.update s.remainingUses v (some (n - 1)) }
  have h₁ : Accounted vals s₁ :=
    ⟨h.nodup, h.known, h.references, h.referenced, h.fresh, h.live, h.peak⟩
  have huses : ∀ w, s₁.uses w = if w = v then s.uses v - 1 else s.uses w := by
    intro w
    by_cases hw : w = v
    · subst hw; simp [LivenessSchedule.uses, s₁, hn]
    · simp [LivenessSchedule.uses, s₁, hw]
  by_cases hlast : n - 1 = 0
  · obtain ⟨s', hs', ha, hr⟩ := h₁.removeValue (v := v) hv
    refine ⟨true, s', ?_, ha, ?_, ?_, ?_, hr.next, hr.peak, hr.bytes⟩
    · simp only [LivenessSchedule.consumeValue, hn, orFault, bind, Except.bind, hsub, if_pos hlast]
      simp only [s₁] at hs'
      rw [hs']
    · intro w
      rw [← huses w, LivenessSchedule.uses, LivenessSchedule.uses, hr.uses]
    · simp; omega
    · exact hr.values
  · refine ⟨false, s₁, ?_, h₁, huses, ?_, rfl, rfl, rfl, ?_⟩
    · simp only [LivenessSchedule.consumeValue, hn, orFault, bind, Except.bind, hsub,
        if_neg hlast, s₁]
    · simp; omega
    · intro a st hst
      have hst : s.allocations a = some st := hst
      rw [hst]; rfl

end ModelWeights.Graph
