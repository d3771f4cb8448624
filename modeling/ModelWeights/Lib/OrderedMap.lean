import Mathlib.Data.List.Sort
import Mathlib.Order.Basic
import Mathlib.Data.List.Pairwise
import Mathlib.Data.String.Basic

/-! # Maps in key order

A finite map as the list of its entries in increasing key order. Two maps with
the same lookups are equal. -/
variable {κ ν : Type} [LinearOrder κ]

structure OrderedMap (κ ν : Type) [LinearOrder κ] where
  entries : List (κ × ν)
  sorted : entries.Pairwise fun a b => a.1 < b.1

namespace OrderedMap

theorem ext_entries {m n : OrderedMap κ ν} (h : m.entries = n.entries) : m = n := by
  cases m
  cases n
  obtain rfl := h
  rfl

instance [DecidableEq ν] : DecidableEq (OrderedMap κ ν) := fun m n =>
  decidable_of_iff (m.entries = n.entries) (by cases m; cases n; simp)

def empty : OrderedMap κ ν := ⟨[], List.Pairwise.nil⟩

/-! ## Lookups -/

def find (k : κ) : List (κ × ν) → Option ν
  | [] => none
  | (k', v) :: rest => if k = k' then some v else find k rest

def get? (m : OrderedMap κ ν) (k : κ) : Option ν := find k m.entries

def contains (m : OrderedMap κ ν) (k : κ) : Bool := (m.get? k).isSome

theorem mem_of_find {k : κ} {v : ν} : ∀ {l : List (κ × ν)}, find k l = some v → (k, v) ∈ l
  | (k', w) :: rest, h => by
    rw [find] at h
    split at h
    · next hk =>
      obtain rfl := Option.some.inj h
      exact hk ▸ List.mem_cons_self ..
    · exact List.mem_cons_of_mem _ (mem_of_find h)

theorem find_of_mem {k : κ} {v : ν} : ∀ {l : List (κ × ν)}, (l.map Prod.fst).Nodup →
    (k, v) ∈ l → find k l = some v
  | (k', w) :: rest, hn, h => by
    rw [List.map_cons, List.nodup_cons] at hn
    rcases List.mem_cons.mp h with he | hm
    · obtain ⟨rfl, rfl⟩ := Prod.mk.inj he
      rw [find, if_pos rfl]
    · rw [find, if_neg, find_of_mem hn.2 hm]
      rintro rfl
      exact hn.1 (List.mem_map.mpr ⟨_, hm, rfl⟩)

theorem nodup_keys (m : OrderedMap κ ν) : (m.entries.map Prod.fst).Nodup := by
  rw [List.nodup_iff_pairwise_ne, List.pairwise_map]
  exact m.sorted.imp fun h => ne_of_lt h

theorem get?_eq_some {m : OrderedMap κ ν} {k : κ} {v : ν} :
    m.get? k = some v ↔ (k, v) ∈ m.entries :=
  ⟨mem_of_find, find_of_mem m.nodup_keys⟩

/-- Lists with increasing keys and the same members are equal. -/
theorem eq_of_increasing {α : Type} {f : α → κ} {l₁ l₂ : List α}
    (h₁ : l₁.Pairwise fun a b => f a < f b) (h₂ : l₂.Pairwise fun a b => f a < f b)
    (h : ∀ a, a ∈ l₁ ↔ a ∈ l₂) : l₁ = l₂ := by
  have hantisymm : Std.Antisymm fun a b : α => f a < f b :=
    ⟨fun a b hab hba => absurd hab (lt_asymm hba)⟩
  have hirrefl : Std.Irrefl fun a b : α => f a < f b := ⟨fun a => lt_irrefl (f a)⟩
  exact h₁.eq_of_mem_iff h₂ h

/-- Sorted entry lists with the same members are equal. -/
theorem entries_eq {l₁ l₂ : List (κ × ν)} (h₁ : l₁.Pairwise fun a b => a.1 < b.1)
    (h₂ : l₂.Pairwise fun a b => a.1 < b.1) (h : ∀ e, e ∈ l₁ ↔ e ∈ l₂) : l₁ = l₂ :=
  eq_of_increasing h₁ h₂ h

@[ext] theorem ext_get? {m n : OrderedMap κ ν} (h : ∀ k, m.get? k = n.get? k) : m = n := by
  have : m.entries = n.entries := by
    refine entries_eq m.sorted n.sorted fun ⟨k, v⟩ => ?_
    rw [← get?_eq_some, ← get?_eq_some, h]
  cases m
  cases n
  simpa using this

/-! ## Insertion -/

def insertEntry (k : κ) (v : ν) : List (κ × ν) → List (κ × ν)
  | [] => [(k, v)]
  | (k', w) :: rest =>
    if k < k' then (k, v) :: (k', w) :: rest
    else if k = k' then (k, v) :: rest
    else (k', w) :: insertEntry k v rest

theorem mem_insertEntry {k : κ} {v : ν} {e : κ × ν} : ∀ {l : List (κ × ν)},
    e ∈ insertEntry k v l → e = (k, v) ∨ e ∈ l
  | [], h => by simpa [insertEntry] using h
  | (k', w) :: rest, h => by
    rw [insertEntry] at h
    split at h
    · exact List.mem_cons.mp h
    · split at h
      · rcases List.mem_cons.mp h with rfl | h
        · exact .inl rfl
        · exact .inr (List.mem_cons_of_mem _ h)
      · rcases List.mem_cons.mp h with rfl | h
        · exact .inr (List.mem_cons_self ..)
        · exact (mem_insertEntry h).imp id (List.mem_cons_of_mem _)

theorem sorted_insertEntry (k : κ) (v : ν) : ∀ {l : List (κ × ν)},
    l.Pairwise (fun a b => a.1 < b.1) → (insertEntry k v l).Pairwise fun a b => a.1 < b.1
  | [], _ => List.pairwise_singleton _ _
  | (k', w) :: rest, h => by
    have hrest := List.pairwise_cons.mp h
    rw [insertEntry]
    split
    · next hlt =>
      refine List.pairwise_cons.mpr ⟨fun e he => ?_, h⟩
      rcases List.mem_cons.mp he with rfl | he
      · exact hlt
      · exact hlt.trans (hrest.1 e he)
    · next hle =>
      split
      · next heq =>
        refine List.pairwise_cons.mpr ⟨fun e he => ?_, hrest.2⟩
        exact heq ▸ hrest.1 e he
      · next hne =>
        refine List.pairwise_cons.mpr ⟨fun e he => ?_, sorted_insertEntry k v hrest.2⟩
        rcases mem_insertEntry he with rfl | he
        · exact lt_of_le_of_ne (not_lt.mp hle) (Ne.symm hne)
        · exact hrest.1 e he

def insert (m : OrderedMap κ ν) (k : κ) (v : ν) : OrderedMap κ ν :=
  ⟨insertEntry k v m.entries, sorted_insertEntry k v m.sorted⟩

theorem find_insertEntry (k k' : κ) (v : ν) : ∀ {l : List (κ × ν)},
    l.Pairwise (fun a b => a.1 < b.1) →
    find k' (insertEntry k v l) = if k' = k then some v else find k' l
  | [], _ => rfl
  | (j, w) :: rest, h => by
    have hrest := List.pairwise_cons.mp h
    rw [insertEntry]
    split
    · rfl
    · next hle =>
      split
      · next heq =>
        subst heq
        rw [find, find]
        split <;> rfl
      · next hne =>
        rw [find, find_insertEntry k k' v hrest.2, find]
        by_cases hk : k' = j
        · rw [if_pos hk, if_pos hk, if_neg fun he => hne (he.symm.trans hk)]
        · rw [if_neg hk, if_neg hk]

theorem get?_insert (m : OrderedMap κ ν) (k k' : κ) (v : ν) :
    (m.insert k v).get? k' = if k' = k then some v else m.get? k' :=
  find_insertEntry k k' v m.sorted

theorem length_insertEntry_le (k : κ) (v : ν) (l : List (κ × ν)) :
    (insertEntry k v l).length ≤ l.length + 1 := by
  induction l with
  | nil => exact Nat.le_refl 1
  | cons entry rest ih =>
    unfold insertEntry
    split
    · exact Nat.le_refl _
    · split
      · exact Nat.le_succ _
      · exact Nat.succ_le_succ ih

/-! ## Removal -/

def erase (m : OrderedMap κ ν) (k : κ) : OrderedMap κ ν :=
  ⟨m.entries.filter fun e => e.1 ≠ k, m.sorted.filter _⟩

theorem mem_erase {m : OrderedMap κ ν} {k : κ} {e : κ × ν} :
    e ∈ (m.erase k).entries ↔ e ∈ m.entries ∧ e.1 ≠ k := by
  simp [erase, List.mem_filter]

theorem get?_erase (m : OrderedMap κ ν) (k k' : κ) :
    (m.erase k).get? k' = if k' = k then none else m.get? k' := by
  refine Option.ext fun v => ?_
  rw [get?_eq_some, mem_erase]
  split
  · next h => simp [h]
  · next h => simp [h, get?_eq_some]

theorem length_erase_lt {m : OrderedMap κ ν} {k : κ} {v : ν} (h : m.get? k = some v) :
    (m.erase k).entries.length < m.entries.length :=
  List.length_filter_lt_length_iff_exists.mpr ⟨(k, v), get?_eq_some.mp h, by simp⟩

/-- An entry that is taken out and put back. -/
theorem insert_erase {m : OrderedMap κ ν} {k : κ} {v : ν} (h : m.get? k = some v) :
    (m.erase k).insert k v = m := by
  ext1 k'
  rw [get?_insert, get?_erase]
  by_cases hk : k' = k
  · rw [if_pos hk, hk, h]
  · rw [if_neg hk, if_neg hk]

/-- All entries of a list, later ones over earlier ones. -/
def ofList (l : List (κ × ν)) : OrderedMap κ ν :=
  l.foldl (fun m e => m.insert e.1 e.2) empty

/-- With distinct keys nothing is overwritten. -/
theorem get?_foldl_insert {k : κ} : ∀ {l : List (κ × ν)} {m : OrderedMap κ ν},
    (l.map Prod.fst).Nodup → (∀ e ∈ l, m.get? e.1 = none) →
    (l.foldl (fun m e => m.insert e.1 e.2) m).get? k = (m.get? k <|> find k l)
  | [], m, _, _ => by simp [find]
  | (j, v) :: rest, m, hn, hnew => by
    rw [List.map_cons, List.nodup_cons] at hn
    rw [List.foldl_cons, get?_foldl_insert hn.2, get?_insert, find]
    · by_cases hk : k = j
      · subst hk
        rw [if_pos rfl, if_pos rfl, hnew (k, v) (List.mem_cons_self ..)]
        rfl
      · rw [if_neg hk, if_neg hk]
    · intro e he
      rw [get?_insert, if_neg, hnew e (List.mem_cons_of_mem _ he)]
      rintro rfl
      exact hn.1 (List.mem_map.mpr ⟨e, he, rfl⟩)

theorem get?_ofList {l : List (κ × ν)} (h : (l.map Prod.fst).Nodup) (k : κ) :
    (ofList l).get? k = find k l := by
  rw [ofList, get?_foldl_insert h fun _ _ => rfl]
  rfl

end OrderedMap
