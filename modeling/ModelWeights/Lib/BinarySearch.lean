import Mathlib.Data.List.Sort
import Mathlib.Order.Compare
import Mathlib.Tactic.Common

/-! # Binary search

`binarySearchBy` halves the range that can hold a match until one position is
left. On a list in the strict order of a key it finds the position of a key
exactly if the key is there. -/
namespace BinarySearch
variable {α κ : Type}

/-- The position that is left of the `size` positions from `base` on. -/
def narrow (order : α → Ordering) (l : List α) : (fuel base size : Nat) → Nat
  | 0, base, _ => base
  | fuel + 1, base, size =>
    if size ≤ 1 then base
    else
      let half := size / 2
      let mid := base + half
      let base := if l[mid]?.map order = some .gt then base else mid
      narrow order l fuel base (size - half)

/-- The position of a match, or where it could be inserted. -/
def binarySearchBy (order : α → Ordering) (l : List α) : Except Nat Nat :=
  let base := narrow order l l.length 0 l.length
  match l[base]?.map order with
  | some .eq => .ok base
  | some .lt => .error (base + 1)
  | _ => .error base

/-- The element found by a search for a key. -/
def findBy [LinearOrder κ] (key : α → κ) (k : κ) (l : List α) : Option α :=
  (binarySearchBy (fun a => compare (key a) k) l).toOption.bind (l[·]?)

section Search
variable [LinearOrder κ] {key : α → κ} {k : κ} {l : List α}

/-- The range keeps the position of the key. -/
theorem narrow_eq (hs : l.Pairwise fun a b => key a < key b) {j : Nat} {a : α}
    (ha : l[j]? = some a) (hk : key a = k) : ∀ (fuel base size : Nat),
    size ≤ fuel + 1 → base + size ≤ l.length → base ≤ j → j < base + size →
    narrow (fun a => compare (key a) k) l fuel base size = j := by
  intro fuel
  obtain ⟨hj, rfl⟩ := List.getElem?_eq_some_iff.mp ha
  have hlt := List.pairwise_iff_getElem.mp hs
  induction fuel with
  | zero =>
    intro base size hfuel hbound hbase hend
    rw [narrow]
    omega
  | succ fuel ih =>
    intro base size hfuel hbound hbase hend
    rw [narrow]
    by_cases hsize : size ≤ 1
    · rw [if_pos hsize]
      omega
    · rw [if_neg hsize]
      dsimp only
      by_cases hgt : l[base + size / 2]?.map (fun a => compare (key a) k) = some .gt
      · rw [if_pos hgt]
        obtain ⟨mid, hmid, hgt⟩ := Option.map_eq_some_iff.mp hgt
        obtain ⟨hm, rfl⟩ := List.getElem?_eq_some_iff.mp hmid
        have hgt := compare_gt_iff_gt.mp hgt
        have hbefore : j < base + size / 2 := by
          by_contra hle
          rcases Nat.lt_or_eq_of_le (Nat.not_lt.mp hle) with h | h
          · exact absurd (hlt _ _ hm hj h) (by rw [hk]; exact lt_asymm hgt)
          · subst h
            exact absurd hk hgt.ne'
        exact ih _ _ (by omega) (by omega) hbase (by omega)
      · rw [if_neg hgt]
        refine ih _ _ (by omega) (by omega) ?_ (by omega)
        by_contra hafter
        have hm : base + size / 2 < l.length := by omega
        have hless := hlt _ _ hj hm (Nat.not_le.mp hafter)
        rw [hk] at hless
        refine hgt ?_
        rw [List.getElem?_eq_getElem hm, Option.map_some, compare_gt_iff_gt.mpr hless]

theorem binarySearchBy_eq_ok {order : α → Ordering} {i : Nat}
    (h : binarySearchBy order l = .ok i) : ∃ a, l[i]? = some a ∧ order a = .eq := by
  unfold binarySearchBy at h
  generalize narrow order l l.length 0 l.length = base at h
  dsimp only at h
  split at h
  · next heq =>
    cases h
    exact Option.map_eq_some_iff.mp heq
  · cases h
  · cases h

/-- **A search finds exactly the keys of the list**, with the element that has the key. -/
theorem findBy_eq_some (hs : l.Pairwise fun a b => key a < key b) {a : α} :
    findBy key k l = some a ↔ a ∈ l ∧ key a = k := by
  constructor
  · intro h
    obtain ⟨i, hi, ha⟩ := Option.bind_eq_some_iff.mp h
    have hsearch : binarySearchBy (fun a => compare (key a) k) l = .ok i := by
      cases hb : binarySearchBy (fun a => compare (key a) k) l with
      | error e => rw [hb] at hi; cases hi
      | ok j => rw [hb] at hi; cases hi; rfl
    obtain ⟨b, hb, heq⟩ := binarySearchBy_eq_ok hsearch
    obtain rfl := Option.some.inj (ha.symm.trans hb)
    exact ⟨List.mem_of_getElem? ha, compare_eq_iff_eq.mp heq⟩
  · rintro ⟨hmem, hk⟩
    obtain ⟨j, ha⟩ := List.getElem?_of_mem hmem
    obtain ⟨hj, _⟩ := List.getElem?_eq_some_iff.mp ha
    have hbase := narrow_eq hs ha hk l.length 0 l.length (by omega) (by omega) (by omega) (by omega)
    have hsearch : binarySearchBy (fun a => compare (key a) k) l = .ok j := by
      unfold binarySearchBy
      rw [hbase]
      dsimp only
      rw [ha, Option.map_some, compare_eq_iff_eq.mpr hk]
    unfold findBy
    rw [hsearch]
    exact ha

end Search

end BinarySearch
