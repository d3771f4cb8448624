import Mathlib.Data.List.Basic
import Mathlib.Data.List.Nodup

/-! # Grouping a sequence by keys

The elements of a sequence that have a given key, in the order of the sequence. The
groups of distinct keys that cover the sequence are a rearrangement of it: nothing is
lost and nothing is listed twice. -/
namespace Groups
variable {α κ : Type} [DecidableEq κ]

def group (key : α → κ) (k : κ) (l : List α) : List α := l.filter fun a => key a = k

@[simp] theorem group_nil (key : α → κ) (k : κ) : group key k [] = [] := rfl

theorem group_append (key : α → κ) (k : κ) (l m : List α) :
    group key k (l ++ m) = group key k l ++ group key k m :=
  List.filter_append ..

theorem group_singleton (key : α → κ) (k : κ) (a : α) :
    group key k [a] = if key a = k then [a] else [] := by
  rw [group, List.filter_singleton]
  by_cases h : key a = k
  · rw [if_pos h, decide_eq_true h, cond_true]
  · rw [if_neg h, decide_eq_false h, cond_false]

theorem mem_group {key : α → κ} {k : κ} {l : List α} {a : α} :
    a ∈ group key k l ↔ a ∈ l ∧ key a = k := by
  rw [group, List.mem_filter, decide_eq_true_eq]

/-- With distinct keys an element is found by its own. -/
theorem find?_key {key : α → κ} {l : List α} (hn : (l.map key).Nodup) {a : α} (ha : a ∈ l) :
    l.find? (fun b => key b = key a) = some a := by
  cases hf : l.find? fun b => key b = key a with
  | none =>
    have hnone := List.find?_eq_none.mp hf a ha
    exact absurd (decide_eq_true rfl) hnone
  | some b =>
    have hkey : key b = key a := by simpa using List.find?_some hf
    rw [List.inj_on_of_nodup_map hn (List.mem_of_find?_eq_some hf) ha hkey]

end Groups
