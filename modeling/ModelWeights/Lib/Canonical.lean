import Mathlib.Data.List.Sort
import Mathlib.Order.Lex

/-! # Canonical lists

Sorting and removing duplicates makes a list that depends on the set of its
elements only. A sort by a key whose order among equal keys is unspecified is a
`KeySort`; on distinct keys all of them agree. -/
namespace Canonical

section Dedup
variable {α : Type} [LinearOrder α]

/-- Without consecutive repetitions. -/
def dedupAdjacent : List α → List α
  | [] => []
  | a :: l =>
    match dedupAdjacent l with
    | [] => [a]
    | b :: rest => if a = b then b :: rest else a :: b :: rest

/-- The elements of a list in increasing order, without repetitions. -/
def sortDedup (l : List α) : List α := dedupAdjacent (l.insertionSort (· ≤ ·))

theorem mem_dedupAdjacent {x : α} : ∀ {l : List α}, x ∈ dedupAdjacent l ↔ x ∈ l
  | [] => Iff.rfl
  | a :: l => by
    rw [List.mem_cons, ← @mem_dedupAdjacent x l, dedupAdjacent]
    cases dedupAdjacent l with
    | nil => simp
    | cons b rest =>
      simp only
      split
      · next h => subst h; simp
      · rw [List.mem_cons]

theorem pairwise_dedupAdjacent : ∀ {l : List α}, l.Pairwise (· ≤ ·) →
    (dedupAdjacent l).Pairwise (· < ·)
  | [], _ => List.Pairwise.nil
  | a :: l, h => by
    obtain ⟨ha, hl⟩ := List.pairwise_cons.mp h
    have ih := pairwise_dedupAdjacent hl
    rw [dedupAdjacent]
    cases hd : dedupAdjacent l with
    | nil => exact List.pairwise_singleton _ _
    | cons b rest =>
      rw [hd] at ih
      simp only
      split
      · exact ih
      · next hne =>
        have hab : a < b := by
          have hb : b ∈ dedupAdjacent l := hd ▸ List.mem_cons_self ..
          exact lt_of_le_of_ne (ha b (mem_dedupAdjacent.mp hb)) hne
        refine List.pairwise_cons.mpr ⟨fun c hc => ?_, ih⟩
        rcases List.mem_cons.mp hc with rfl | hc
        · exact hab
        · exact hab.trans ((List.pairwise_cons.mp ih).1 c hc)

@[simp] theorem mem_sortDedup {x : α} {l : List α} : x ∈ sortDedup l ↔ x ∈ l := by
  rw [sortDedup, mem_dedupAdjacent, List.mem_insertionSort]

theorem pairwise_sortDedup (l : List α) : (sortDedup l).Pairwise (· < ·) :=
  pairwise_dedupAdjacent (List.pairwise_insertionSort _ l)

/-- Increasing lists with the same elements are equal. -/
theorem eq_of_pairwise_lt {l₁ l₂ : List α} (h₁ : l₁.Pairwise (· < ·)) (h₂ : l₂.Pairwise (· < ·))
    (h : ∀ x, x ∈ l₁ ↔ x ∈ l₂) : l₁ = l₂ := by
  have hperm : l₁.Perm l₂ := (List.perm_ext_iff_of_nodup (h₁.imp ne_of_lt)
    (h₂.imp ne_of_lt)).mpr h
  exact hperm.eq_of_pairwise (fun a b _ _ hab hba => absurd hab (not_lt_of_gt hba)) h₁ h₂

/-- Only the set of the elements matters. -/
theorem sortDedup_congr {l₁ l₂ : List α} (h : ∀ x, x ∈ l₁ ↔ x ∈ l₂) :
    sortDedup l₁ = sortDedup l₂ :=
  eq_of_pairwise_lt (pairwise_sortDedup l₁) (pairwise_sortDedup l₂) fun x => by
    rw [mem_sortDedup, mem_sortDedup, h]

end Dedup

/-! ## Sorts by a key -/

/-- `sort_unstable_by` on a key: some permutation in key order. -/
structure KeySort (κ : Type) [LinearOrder κ] where
  sort : {α : Type} → (α → κ) → List α → List α
  perm : ∀ {α : Type} (key : α → κ) (l : List α), (sort key l).Perm l
  sorted : ∀ {α : Type} (key : α → κ) (l : List α),
    (sort key l).Pairwise fun a b => key a ≤ key b

section KeySort
variable {κ α : Type} [LinearOrder κ]

/-- The stable sort is one of them. -/
def insertionKeySort : KeySort κ where
  sort key l := l.insertionSort fun a b => key a ≤ key b
  perm _ l := List.perm_insertionSort _ l
  sorted key l := by
    have : Std.Total fun a b => key a ≤ key b := ⟨fun a b => le_total (key a) (key b)⟩
    have : IsTrans _ fun a b => key a ≤ key b := ⟨fun _ _ _ => le_trans⟩
    exact List.pairwise_insertionSort _ l

theorem KeySort.mem {s : KeySort κ} {key : α → κ} {l : List α} {a : α} :
    a ∈ s.sort key l ↔ a ∈ l :=
  (s.perm key l).mem_iff

/-- Lists in key order with distinct keys are equal when they are permutations of
each other. -/
theorem eq_of_perm_of_keys {key : α → κ} {l₁ l₂ : List α} (h : l₁.Perm l₂)
    (hn : (l₁.map key).Nodup) (h₁ : l₁.Pairwise fun a b => key a ≤ key b)
    (h₂ : l₂.Pairwise fun a b => key a ≤ key b) : l₁ = l₂ := by
  have hinj : ∀ a ∈ l₁, ∀ b ∈ l₁, key a = key b → a = b := fun a ha b hb =>
    List.inj_on_of_nodup_map hn ha hb
  exact h.eq_of_pairwise (fun a b ha hb hab hba => hinj a ha b (h.mem_iff.mpr hb)
    (le_antisymm hab hba)) h₁ h₂

/-- On distinct keys neither the sort nor the order of its input matters. -/
theorem KeySort.eq_of_perm (s t : KeySort κ) {key : α → κ} {l₁ l₂ : List α} (h : l₁.Perm l₂)
    (hn : (l₁.map key).Nodup) : s.sort key l₁ = t.sort key l₂ := by
  have hp : (s.sort key l₁).Perm (t.sort key l₂) :=
    (s.perm key l₁).trans (h.trans (t.perm key l₂).symm)
  refine eq_of_perm_of_keys hp ?_ (s.sorted key l₁) (t.sorted key l₂)
  exact ((s.perm key l₁).map key).nodup_iff.mpr hn

theorem KeySort.eq_self (s : KeySort κ) {key : α → κ} {l : List α}
    (h : l.Pairwise fun a b => key a < key b) : s.sort key l = l := by
  have hn : (l.map key).Nodup := by
    rw [List.nodup_iff_pairwise_ne, List.pairwise_map]
    exact h.imp ne_of_lt
  refine eq_of_perm_of_keys (s.perm key l) ?_ (s.sorted key l) (h.imp le_of_lt)
  exact ((s.perm key l).map key).nodup_iff.mpr hn

end KeySort

end Canonical
