import Mathlib.Data.List.Basic

/-! # Prefix codes

A code under which no word starts another word can be concatenated: the sequence of
the coded values is determined by the concatenation. -/
namespace PrefixCode
variable {α β : Type}

/-- `f` codes the values that meet `P` by words of which none starts another. -/
structure PrefixFree (P : α → Prop) (f : α → List β) : Prop where
  ne_nil : ∀ {a : α}, P a → f a ≠ []
  split : ∀ {a b : α} {s t : List β}, P a → P b → f a ++ s = f b ++ t → a = b ∧ s = t

/-- Concatenations are uniquely decodable. -/
theorem PrefixFree.flatMap_injective {P : α → Prop} {f : α → List β} (h : PrefixFree P f) :
    ∀ {l l' : List α}, (∀ a ∈ l, P a) → (∀ a ∈ l', P a) → l.flatMap f = l'.flatMap f → l = l'
  | [], [], _, _, _ => rfl
  | [], b :: l', _, hl', he => by
    rw [List.flatMap_nil, List.flatMap_cons] at he
    exact absurd (List.append_eq_nil_iff.mp he.symm).1 (h.ne_nil (hl' b (List.mem_cons_self ..)))
  | a :: l, [], hl, _, he => by
    rw [List.flatMap_nil, List.flatMap_cons] at he
    exact absurd (List.append_eq_nil_iff.mp he).1 (h.ne_nil (hl a (List.mem_cons_self ..)))
  | a :: l, b :: l', hl, hl', he => by
    rw [List.flatMap_cons, List.flatMap_cons] at he
    obtain ⟨rfl, hrest⟩ := h.split (hl a (List.mem_cons_self ..)) (hl' b (List.mem_cons_self ..)) he
    rw [h.flatMap_injective (fun c hc => hl c (List.mem_cons_of_mem _ hc))
      (fun c hc => hl' c (List.mem_cons_of_mem _ hc)) hrest]

end PrefixCode
