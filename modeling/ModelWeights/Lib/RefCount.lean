import Mathlib.Algebra.Order.Ring.Nat
import Mathlib.Tactic.Common
import Mathlib.Data.List.Nodup
import Mathlib.Data.List.Perm.Basic
import Mathlib.Logic.Function.Basic
import Mathlib.Algebra.BigOperators.Group.List.Basic
import Mathlib.Algebra.Order.BigOperators.Group.Finset

/-! # Reference counting

Owners hold at most one resource each. `count` is the number of owners of a
resource among a finite list of candidates and `total` the size of all resources
that are recorded. How both change when an owner appears or disappears, and when
a resource is recorded, resized to the same size or dropped. -/
namespace RefCount
variable {V A β : Type}

/-! ## Owners of a resource -/

section Count
variable [DecidableEq A] {vals : List V} {owner : V → Option A} {v : V} {a : A}

def count (vals : List V) (owner : V → Option A) (a : A) : Nat :=
  vals.countP fun v => owner v = some a

theorem count_pos : 0 < count vals owner a ↔ ∃ v ∈ vals, owner v = some a := by
  simp [count, List.countP_pos_iff]

variable [DecidableEq V]

theorem count_insert (hv : v ∉ vals) (x : Option A) :
    count (vals ++ [v]) (Function.update owner v x) a =
      count vals owner a + if x = some a then 1 else 0 := by
  rw [count, List.countP_append]
  congr 1
  · apply List.countP_congr
    intro w hw
    have hne : w ≠ v := fun h => hv (h ▸ hw)
    rw [Function.update_of_ne hne]
  · simp [List.countP_cons]

/-- Removing an owner takes one reference away from what it held. -/
theorem count_remove (hn : vals.Nodup) (hv : v ∈ vals) :
    count vals (Function.update owner v none) a + (if owner v = some a then 1 else 0) =
      count vals owner a := by
  induction vals with
  | nil => cases hv
  | cons w vals ih =>
    obtain ⟨hw, hn⟩ := List.nodup_cons.mp hn
    simp only [count, List.countP_cons] at ih ⊢
    rcases List.mem_cons.mp hv with rfl | hv
    · have hrest : List.countP (fun w => Function.update owner v none w = some a) vals =
          List.countP (fun w => owner w = some a) vals := by
        apply List.countP_congr
        intro u hu
        have hne : u ≠ v := fun h => hw (h ▸ hu)
        rw [Function.update_of_ne hne]
      simp [hrest]
    · have hne : w ≠ v := fun h => hw (h ▸ hv)
      rw [Function.update_of_ne hne, ← ih hn hv]
      omega

end Count

/-! ## Recorded sizes -/

section Total
variable {size : Nat → Option β} {f : β → Nat} {n a : Nat} {b b' : β}

def total (size : Nat → Option β) (f : β → Nat) (n : Nat) : Nat :=
  ((List.range n).map fun a => (size a).elim 0 f).sum

theorem total_congr {γ : Type} {size' : Nat → Option γ} {f' : γ → Nat}
    (h : ∀ a < n, (size a).elim 0 f = (size' a).elim 0 f') : total size f n = total size' f' n := by
  unfold total
  congr 1
  apply List.map_congr_left
  intro a ha
  exact h a (List.mem_range.mp ha)

theorem total_succ : total size f (n + 1) = total size f n + (size n).elim 0 f := by
  simp [total, List.range_succ]

theorem total_insert : total (Function.update size n (some b)) f (n + 1) =
    total size f n + f b := by
  rw [total_succ, Function.update_self]
  congr 1
  apply total_congr
  intro a ha
  rw [Function.update_of_ne (by omega)]

theorem total_replace (hs : size a = some b) (hf : f b' = f b) :
    total (Function.update size a (some b')) f n = total size f n := by
  apply total_congr
  intro c _
  by_cases hc : c = a
  · subst hc; simp [hs, hf]
  · rw [Function.update_of_ne hc]

theorem total_remove (ha : a < n) (hs : size a = some b) :
    total (Function.update size a none) f n + f b = total size f n := by
  induction n with
  | zero => omega
  | succ n ih =>
    rw [total_succ, total_succ]
    rcases Nat.lt_or_ge a n with hlt | hge
    · rw [Function.update_of_ne (by omega), ← ih hlt]
      omega
    · obtain rfl : a = n := by omega
      rw [Function.update_self, hs]
      have : total (Function.update size a none) f a = total size f a := by
        apply total_congr
        intro c hc
        rw [Function.update_of_ne (by omega)]
      simp [this]

theorem le_total (ha : a < n) (hs : size a = some b) : f b ≤ total size f n := by
  have := total_remove (f := f) ha hs
  omega

/-- The total as a sum over any list that enumerates the recorded resources. -/
theorem total_eq_sum {l : List (Nat × β)} (hn : l.Nodup)
    (hl : ∀ a b, (a, b) ∈ l ↔ a < n ∧ size a = some b) :
    total size f n = (l.map fun x => f x.2).sum := by
  let listed := (List.range n).filterMap fun a => (size a).map fun b => (a, b)
  have hperm : listed.Perm l := by
    refine (List.perm_ext_iff_of_nodup ?_ hn).mpr ?_
    · refine List.nodup_range.filterMap ?_
      intro a a' x hx hx'
      simp only [Option.mem_def, Option.map_eq_some_iff] at hx hx'
      obtain ⟨_, _, rfl⟩ := hx
      obtain ⟨_, _, h⟩ := hx'
      exact (congrArg Prod.fst h).symm
    · rintro ⟨a, b⟩
      rw [hl]
      simp only [listed, List.mem_filterMap, List.mem_range, Option.map_eq_some_iff,
        Prod.mk.injEq]
      constructor
      · rintro ⟨_, hlt, _, hs, rfl, rfl⟩
        exact ⟨hlt, hs⟩
      · rintro ⟨hlt, hs⟩
        exact ⟨a, hlt, b, hs, rfl, rfl⟩
  rw [← (hperm.map _).sum_eq]
  clear hperm hl
  induction n with
  | zero => rfl
  | succ n ih =>
    rw [total_succ, ih]
    simp only [listed, List.range_succ, List.filterMap_append, List.map_append, List.sum_append]
    cases hs : size n <;> simp [hs]

theorem total_eq_finset : total size f n = ∑ a ∈ Finset.range n, (size a).elim 0 f := rfl

/-- Resources that map into distinct resources of at least their size. -/
theorem total_le_of_injOn {γ : Type} {size' : Nat → Option γ} {f' : γ → Nat} {m : Nat}
    (g : Nat → Nat)
    (hg : ∀ a b, a < n → size a = some b →
      g a < m ∧ ∃ b', size' (g a) = some b' ∧ f b ≤ f' b')
    (hinj : ∀ a a', (size a).isSome → (size a').isSome → g a = g a' → a = a') :
    total size f n ≤ total size' f' m := by
  let recorded := (Finset.range n).filter fun a => (size a).isSome
  have hon : Set.InjOn g recorded := by
    intro a ha a' ha'
    exact hinj a a' (Finset.mem_filter.mp ha).2 (Finset.mem_filter.mp ha').2
  have hsub : recorded.image g ⊆ Finset.range m := by
    intro c hc
    obtain ⟨a, ha, rfl⟩ := Finset.mem_image.mp hc
    obtain ⟨hlt, hs⟩ := Finset.mem_filter.mp ha
    obtain ⟨b, hb⟩ := Option.isSome_iff_exists.mp hs
    exact Finset.mem_range.mpr (hg a b (Finset.mem_range.mp hlt) hb).1
  calc total size f n = ∑ a ∈ recorded, (size a).elim 0 f := by
        rw [total_eq_finset]
        refine (Finset.sum_filter_of_ne ?_).symm
        intro a _ hne
        cases hs : size a with
        | none => simp [hs] at hne
        | some b => rfl
    _ ≤ ∑ a ∈ recorded, (size' (g a)).elim 0 f' := by
        refine Finset.sum_le_sum fun a ha => ?_
        obtain ⟨hlt, hs⟩ := Finset.mem_filter.mp ha
        obtain ⟨b, hb⟩ := Option.isSome_iff_exists.mp hs
        obtain ⟨_, b', hb', hle⟩ := hg a b (Finset.mem_range.mp hlt) hb
        rw [hb, hb']
        exact hle
    _ = ∑ c ∈ recorded.image g, (size' c).elim 0 f' := (Finset.sum_image (f := fun c => (size' c).elim 0 f') hon).symm
    _ ≤ total size' f' m := by
        rw [total_eq_finset]
        exact Finset.sum_le_sum_of_subset hsub

end Total

end RefCount
