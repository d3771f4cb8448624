import Mathlib.Data.List.Pairwise
import Mathlib.Data.List.Nodup
import Mathlib.Tactic.Common

/-! # Half-open spans that tile a range

Spans given by a start and an exclusive end. A sorted list of spans that follow
one another without a gap is the same as a tiling: every position is in exactly
one span, and the empty spans are on its boundaries. -/
namespace Tiling
variable {α : Type} (start finish : α → Nat)

/-- The spans of a list follow one another from `a` to `b`. -/
def Chained : Nat → List α → Nat → Prop
  | a, [], b => a = b
  | a, x :: rest, b => start x = a ∧ Chained (finish x) rest b

/-- The non-empty spans partition the positions from `a` to `b`, and an empty
one is at `a` or where a non-empty one ends. -/
structure Tiles (l : List α) (a b : Nat) : Prop where
  within : ∀ x ∈ l, a ≤ start x ∧ start x ≤ finish x ∧ finish x ≤ b
  covered : ∀ p, a ≤ p → p < b → ∃! x, x ∈ l ∧ start x ≤ p ∧ p < finish x
  boundary : ∀ x ∈ l, start x = finish x →
    start x = a ∨ ∃ y ∈ l, start y < finish y ∧ finish y = start x

/-- The order by start, then by end. -/
def SpanLe (x y : α) : Prop := start x < start y ∨ start x = start y ∧ finish x ≤ finish y

variable {start finish} {l : List α} {a b : Nat}

theorem Chained.le : ∀ {l : List α} {a : Nat}, (∀ x ∈ l, start x ≤ finish x) →
    Chained start finish a l b → a ≤ b
  | [], a, _, h => Nat.le_of_eq h
  | x :: rest, a, hle, ⟨hx, hrest⟩ => by
    have h₁ := hle x (List.mem_cons_self ..)
    have h₂ := Chained.le (fun y hy => hle y (List.mem_cons_of_mem _ hy)) hrest
    omega

/-- A chain is a tiling. -/
theorem Chained.tiles : ∀ {l : List α} {a : Nat}, (∀ x ∈ l, start x ≤ finish x) →
    Chained start finish a l b → Tiles start finish l a b
  | [], a, _, h => by
    obtain rfl : a = b := h
    refine ⟨fun x hx => (by cases hx), fun p h₁ h₂ => ?_, fun x hx => (by cases hx)⟩
    omega
  | x :: rest, a, hle, ⟨hx, hrest⟩ => by
    have hxle := hle x (List.mem_cons_self ..)
    have hrestle : ∀ y ∈ rest, start y ≤ finish y := fun y hy => hle y (List.mem_cons_of_mem _ hy)
    have ih := Chained.tiles hrestle hrest
    have hend := Chained.le hrestle hrest
    refine ⟨fun y hy => ?_, fun p h₁ h₂ => ?_, fun y hy he => ?_⟩
    · rcases List.mem_cons.mp hy with rfl | hy
      · omega
      · have := ih.within y hy
        omega
    · by_cases hp : p < finish x
      · refine ⟨x, ⟨List.mem_cons_self .., by omega, hp⟩, ?_⟩
        rintro y ⟨hy, hs, hf⟩
        rcases List.mem_cons.mp hy with rfl | hy
        · rfl
        · have := ih.within y hy
          omega
      · obtain ⟨y, ⟨hy, hs, hf⟩, hunique⟩ := ih.covered p (Nat.not_lt.mp hp) h₂
        refine ⟨y, ⟨List.mem_cons_of_mem _ hy, hs, hf⟩, ?_⟩
        rintro z ⟨hz, hzs, hzf⟩
        rcases List.mem_cons.mp hz with rfl | hz
        · omega
        · exact hunique z ⟨hz, hzs, hzf⟩
    · rcases List.mem_cons.mp hy with rfl | hy
      · exact .inl hx
      · rcases ih.boundary y hy he with hy' | ⟨z, hz, hne, hzf⟩
        · rcases Nat.eq_or_lt_of_le hxle with heq | hlt
          · exact .inl (by omega)
          · exact .inr ⟨x, List.mem_cons_self .., hlt, hy'.symm⟩
        · exact .inr ⟨z, List.mem_cons_of_mem _ hz, hne, hzf⟩

/-- The pieces that a chain cuts out of a sequence make up the sequence. -/
theorem Chained.flatMap_pieces {β : Type} (data : List β) {l : List α} {a : Nat}
    (hle : ∀ x ∈ l, start x ≤ finish x) (h : Chained start finish a l b) :
    l.flatMap (fun x => (data.drop (start x)).take (finish x - start x)) =
      (data.drop a).take (b - a) := by
  induction l generalizing a with
  | nil =>
    obtain rfl : a = b := h
    rw [Nat.sub_self, List.take_zero, List.flatMap_nil]
  | cons x rest ih =>
    obtain ⟨rfl, hrest⟩ := h
    have hx := hle x (List.mem_cons_self ..)
    have hle' : ∀ y ∈ rest, start y ≤ finish y := fun y hy => hle y (List.mem_cons_of_mem _ hy)
    have hend := Chained.le hle' hrest
    have hcut : b - start x = (finish x - start x) + (b - finish x) := by omega
    have hmove : start x + (finish x - start x) = finish x := by omega
    rw [List.flatMap_cons, ih hle' hrest, hcut, List.take_add, List.drop_drop, hmove]

/-- The first span of a sorted tiling starts it. -/
theorem Tiles.head {x : α} {rest : List α} (h : Tiles start finish (x :: rest) a b)
    (hsorted : (x :: rest).Pairwise (SpanLe start finish)) : start x = a := by
  have hx := h.within x (List.mem_cons_self ..)
  by_contra hne
  obtain ⟨y, ⟨hy, hs, _⟩, _⟩ := h.covered a (Nat.le_refl _) (by omega)
  rcases List.mem_cons.mp hy with rfl | hy
  · omega
  · have := (List.pairwise_cons.mp hsorted).1 y hy
    unfold SpanLe at this
    omega

/-- The other spans of a sorted tiling start where the first one ends. -/
theorem Tiles.after_head {x y : α} {rest : List α} (h : Tiles start finish (x :: rest) a b)
    (hsorted : (x :: rest).Pairwise (SpanLe start finish)) (hnodup : (x :: rest).Nodup)
    (hy : y ∈ rest) : finish x ≤ start y := by
  have hstart := h.head hsorted
  have hx := h.within x (List.mem_cons_self ..)
  have hyw := h.within y (List.mem_cons_of_mem _ hy)
  have hle := (List.pairwise_cons.mp hsorted).1 y hy
  have hfresh := (List.nodup_cons.mp hnodup).1
  unfold SpanLe at hle
  by_contra hlt
  -- a span that begins inside the first one shares a position with it
  have hshared : ∀ z ∈ rest, ∀ p, start x ≤ p → p < finish x → start z ≤ p → p < finish z →
      False := by
    intro z hz p h₁ h₂ h₃ h₄
    obtain ⟨w, _, hunique⟩ := h.covered p (by omega) (by omega)
    have hwx := hunique x ⟨List.mem_cons_self .., h₁, h₂⟩
    have hwz := hunique z ⟨List.mem_cons_of_mem _ hz, h₃, h₄⟩
    exact hfresh (hwx.trans hwz.symm ▸ hz)
  rcases Nat.eq_or_lt_of_le hyw.2.1 with hempty | hfull
  · rcases h.boundary y (List.mem_cons_of_mem _ hy) hempty with hya | ⟨z, hz, hne, hzf⟩
    · omega
    · have hzw := h.within z hz
      rcases List.mem_cons.mp hz with rfl | hz
      · omega
      · have hzle := (List.pairwise_cons.mp hsorted).1 z hz
        unfold SpanLe at hzle
        exact hshared z hz (start y - 1) (by omega) (by omega) (by omega) (by omega)
  · exact hshared y hy (start y) (by omega) (by omega) (Nat.le_refl _) hfull

/-- A sorted tiling is a chain. -/
theorem Tiles.chained : ∀ {l : List α} {a : Nat}, a ≤ b → l.Pairwise (SpanLe start finish) →
    l.Nodup → Tiles start finish l a b → Chained start finish a l b
  | [], a, hab, _, _, h => by
    by_contra hne
    obtain ⟨x, ⟨hx, _⟩, _⟩ := h.covered a (Nat.le_refl _) (Nat.lt_of_le_of_ne hab hne)
    cases hx
  | x :: rest, a, hab, hsorted, hnodup, h => by
    have hstart := h.head hsorted
    have hx := h.within x (List.mem_cons_self ..)
    refine ⟨hstart, Tiles.chained hx.2.2 (List.pairwise_cons.mp hsorted).2
      (List.nodup_cons.mp hnodup).2 ⟨fun y hy => ?_, fun p h₁ h₂ => ?_, fun y hy he => ?_⟩⟩
    · have := h.within y (List.mem_cons_of_mem _ hy)
      exact ⟨h.after_head hsorted hnodup hy, this.2⟩
    · obtain ⟨y, ⟨hy, hs, hf⟩, hunique⟩ := h.covered p (by omega) h₂
      rcases List.mem_cons.mp hy with rfl | hy
      · omega
      · exact ⟨y, ⟨hy, hs, hf⟩, fun z ⟨hz, hzs, hzf⟩ =>
          hunique z ⟨List.mem_cons_of_mem _ hz, hzs, hzf⟩⟩
    · have hge := h.after_head hsorted hnodup hy
      rcases h.boundary y (List.mem_cons_of_mem _ hy) he with hya | ⟨z, hz, hne, hzf⟩
      · exact .inl (by omega)
      · rcases List.mem_cons.mp hz with rfl | hz
        · exact .inl hzf.symm
        · exact .inr ⟨z, hz, hne, hzf⟩

/-- Tilings do not depend on the order of the list. -/
theorem Tiles.of_mem_iff {l' : List α} (h : Tiles start finish l a b)
    (hmem : ∀ x, x ∈ l' ↔ x ∈ l) : Tiles start finish l' a b where
  within := fun x hx => h.within x ((hmem x).mp hx)
  covered := fun p h₁ h₂ => by
    simp only [hmem]
    exact h.covered p h₁ h₂
  boundary := fun x hx he => by
    simp only [hmem]
    exact h.boundary x ((hmem x).mp hx) he

/-- Tilings of the images of different elements. -/
theorem tiles_map {β : Type} {g : β → α} {l : List β} (hg : (l.map g).Nodup) :
    Tiles start finish (l.map g) a b ↔ Tiles (fun x => start (g x)) (fun x => finish (g x)) l a b := by
  have hinj : ∀ x ∈ l, ∀ y ∈ l, g x = g y → x = y := fun x hx y hy =>
    List.inj_on_of_nodup_map hg hx hy
  constructor
  · intro h
    refine ⟨fun x hx => h.within (g x) (List.mem_map_of_mem hx), fun p h₁ h₂ => ?_,
      fun x hx he => ?_⟩
    · obtain ⟨_, ⟨hm, hs, hf⟩, hunique⟩ := h.covered p h₁ h₂
      obtain ⟨x, hx, rfl⟩ := List.mem_map.mp hm
      refine ⟨x, ⟨hx, hs, hf⟩, ?_⟩
      rintro y ⟨hy, hys, hyf⟩
      exact hinj y hy x hx (hunique (g y) ⟨List.mem_map_of_mem hy, hys, hyf⟩)
    · refine (h.boundary (g x) (List.mem_map_of_mem hx) he).imp id ?_
      rintro ⟨_, hm, hne, hf⟩
      obtain ⟨y, hy, rfl⟩ := List.mem_map.mp hm
      exact ⟨y, hy, hne, hf⟩
  · intro h
    refine ⟨fun z hz => ?_, fun p h₁ h₂ => ?_, fun z hz he => ?_⟩
    · obtain ⟨x, hx, rfl⟩ := List.mem_map.mp hz
      exact h.within x hx
    · obtain ⟨x, ⟨hx, hs, hf⟩, hunique⟩ := h.covered p h₁ h₂
      refine ⟨g x, ⟨List.mem_map_of_mem hx, hs, hf⟩, ?_⟩
      rintro z ⟨hz, hzs, hzf⟩
      obtain ⟨y, hy, rfl⟩ := List.mem_map.mp hz
      rw [hunique y ⟨hy, hzs, hzf⟩]
    · obtain ⟨x, hx, rfl⟩ := List.mem_map.mp hz
      refine (h.boundary x hx he).imp id ?_
      rintro ⟨y, hy, hne, hf⟩
      exact ⟨g y, List.mem_map_of_mem hy, hne, hf⟩

end Tiling
