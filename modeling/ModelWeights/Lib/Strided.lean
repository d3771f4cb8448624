import Mathlib.Algebra.Order.Ring.Nat
import Mathlib.Tactic.Common
import Mathlib.Algebra.BigOperators.Group.List.Basic
import Mathlib.Data.List.Nodup

/-! # Strided index arithmetic

Coordinates of a rank-`n` box, the row-major numbering of a box, and linear
maps from coordinates to storage positions. The row-major map is a bijection
onto an initial segment; a stride vector whose axes can be ordered so that each
stride is at least the span of the axes before it is injective. -/
namespace Strided

/-- `coord` lies in the box `shape`. -/
def InBounds : List Nat → List Nat → Prop
  | [], [] => True
  | d :: ds, c :: cs => c < d ∧ InBounds ds cs
  | _, _ => False

instance decidableInBounds : (shape coord : List Nat) → Decidable (InBounds shape coord)
  | [], [] => isTrue trivial
  | d :: ds, c :: cs =>
    letI := decidableInBounds ds cs
    inferInstanceAs (Decidable (c < d ∧ InBounds ds cs))
  | [], _ :: _ => isFalse id
  | _ :: _, [] => isFalse id

/-- All coordinates of a box, in row-major order. -/
def coords : List Nat → List (List Nat)
  | [] => [[]]
  | d :: ds => (List.range d).flatMap fun a => (coords ds).map (a :: ·)

/-- Row-major strides of a box. -/
def rowMajor : List Nat → List Nat
  | [] => []
  | _ :: ds => ds.prod :: rowMajor ds

/-- The storage position of a coordinate under a stride vector. -/
def dot : List Nat → List Nat → Nat
  | s :: ss, c :: cs => c * s + dot ss cs
  | _, _ => 0

/-- The coordinate with row-major number `i`. -/
def unravel : List Nat → Nat → List Nat
  | [], _ => []
  | d :: ds, i => (i / ds.prod) % d :: unravel ds i

@[simp] theorem length_rowMajor (shape : List Nat) : (rowMajor shape).length = shape.length := by
  induction shape with
  | nil => rfl
  | cons d ds ih => simp [rowMajor, ih]

@[simp] theorem length_unravel (shape : List Nat) (i : Nat) :
    (unravel shape i).length = shape.length := by
  induction shape with
  | nil => rfl
  | cons d ds ih => simp [unravel, ih]

theorem InBounds.length_eq : ∀ {shape coord : List Nat}, InBounds shape coord →
    coord.length = shape.length
  | [], [], _ => rfl
  | _ :: _, _ :: _, h => by simp [InBounds.length_eq h.2]

theorem inBounds_iff : ∀ {shape coord : List Nat}, InBounds shape coord ↔
    coord.length = shape.length ∧ ∀ (i d : Nat), shape[i]? = some d → coord.getD i 0 < d
  | [], [] => by simp [InBounds]
  | [], c :: cs => by simp [InBounds]
  | d :: ds, [] => by simp [InBounds]
  | d :: ds, c :: cs => by
    simp only [InBounds, @inBounds_iff ds cs, List.length_cons,
      Nat.add_right_cancel_iff]
    constructor
    · rintro ⟨hc, hl, hr⟩
      refine ⟨hl, fun i x hx => ?_⟩
      cases i with
      | zero => simpa using (by simpa using hx : d = x) ▸ hc
      | succ i => simpa using hr i x (by simpa using hx)
    · rintro ⟨hl, hr⟩
      exact ⟨by simpa using hr 0 d rfl, hl, fun i x hx => by simpa using hr (i + 1) x (by simpa using hx)⟩

theorem mem_coords : ∀ {shape coord : List Nat}, coord ∈ coords shape ↔ InBounds shape coord
  | [], [] => by simp [coords, InBounds]
  | [], c :: cs => by simp [coords, InBounds]
  | d :: ds, [] => by simp [coords, InBounds]
  | d :: ds, c :: cs => by
    simp only [coords, List.mem_flatMap, List.mem_range, List.mem_map, InBounds,
      ← @mem_coords ds cs]
    constructor
    · rintro ⟨a, ha, x, hx, he⟩
      cases he
      exact ⟨ha, hx⟩
    · rintro ⟨hc, hcs⟩
      exact ⟨c, hc, cs, hcs, rfl⟩

/-! ## The row-major numbering -/

theorem range_mul (d p : Nat) :
    List.range (d * p) = (List.range d).flatMap fun a => (List.range p).map (a * p + ·) := by
  induction d with
  | zero => simp
  | succ d ih =>
    rw [Nat.succ_mul, List.range_add, ih, List.range_succ, List.flatMap_append]
    simp

theorem dot_coords : ∀ shape : List Nat,
    (coords shape).map (dot (rowMajor shape)) = List.range shape.prod
  | [] => rfl
  | d :: ds => by
    rw [List.prod_cons, range_mul, coords, List.map_flatMap]
    congr 1
    funext a
    rw [← dot_coords ds, List.map_map, List.map_map]
    rfl

/-- The numbering of the inner axes is periodic in their product. -/
theorem unravel_add_mul : ∀ (ds : List Nat) (a r : Nat),
    unravel ds (a * ds.prod + r) = unravel ds r
  | [], _, _ => rfl
  | d :: ds, a, r => by
    rw [unravel, unravel, List.prod_cons, ← Nat.mul_assoc]
    rw [unravel_add_mul ds (a * d) r]
    congr 1
    rcases Nat.eq_zero_or_pos ds.prod with hz | hp
    · simp [hz]
    · rw [Nat.add_comm, Nat.add_mul_div_right _ _ hp, Nat.add_mul_mod_self_right]

theorem coords_eq_unravel : ∀ shape : List Nat,
    coords shape = (List.range shape.prod).map (unravel shape)
  | [] => rfl
  | d :: ds => by
    rw [List.prod_cons, range_mul, coords, List.map_flatMap]
    apply List.flatMap_congr
    intro a ha
    rw [coords_eq_unravel ds, List.map_map, List.map_map]
    apply List.map_congr_left
    intro r hr
    have hr := List.mem_range.mp hr
    have hp : 0 < ds.prod := by omega
    simp only [Function.comp_apply, unravel, unravel_add_mul]
    rw [Nat.add_comm, Nat.add_mul_div_right _ _ hp, Nat.div_eq_of_lt hr, Nat.zero_add,
      Nat.mod_eq_of_lt (List.mem_range.mp ha)]

theorem coords_append : ∀ xs ys : List Nat,
    coords (xs ++ ys) = (coords xs).flatMap fun p => (coords ys).map (p ++ ·)
  | [], ys => by simp [coords]
  | x :: xs, ys => by
    simp only [List.cons_append, coords, coords_append xs ys, List.flatMap_assoc,
      List.map_flatMap, List.flatMap_map, List.map_map]
    rfl

theorem length_coords (shape : List Nat) : (coords shape).length = shape.prod := by
  rw [coords_eq_unravel]; simp

theorem nodup_coords (shape : List Nat) : (coords shape).Nodup := by
  apply List.Nodup.of_map (dot (rowMajor shape))
  rw [dot_coords]; exact List.nodup_range

theorem unravel_inBounds {shape : List Nat} {i : Nat} (h : i < shape.prod) :
    InBounds shape (unravel shape i) := by
  apply mem_coords.mp
  rw [coords_eq_unravel]
  exact List.mem_map.mpr ⟨i, List.mem_range.mpr h, rfl⟩

theorem dot_unravel {shape : List Nat} {i : Nat} (h : i < shape.prod) :
    dot (rowMajor shape) (unravel shape i) = i := by
  have hc := dot_coords shape
  rw [coords_eq_unravel, List.map_map] at hc
  have := congrArg (fun l => l[i]?) hc
  simpa [List.getElem?_range h] using this

/-- Every coordinate of the box has a number. -/
theorem InBounds.exists_unravel {shape coord : List Nat} (h : InBounds shape coord) :
    ∃ i, i < shape.prod ∧ unravel shape i = coord := by
  have := mem_coords.mpr h
  rw [coords_eq_unravel] at this
  obtain ⟨i, hi, he⟩ := List.mem_map.mp this
  exact ⟨i, List.mem_range.mp hi, he⟩

/-! ## Injective stride vectors

An axis is a pair of a dimension and a stride. `Separated span axes` reads the
axes in an order in which each stride is at least the span of what came before;
`spanOf` is the span of all of them. -/

def Separated : Nat → List (Nat × Nat) → Prop
  | _, [] => True
  | span, (d, s) :: rest => span ≤ s ∧ Separated ((d - 1) * s + span) rest

def spanOf : Nat → List (Nat × Nat) → Nat
  | span, [] => span
  | span, (d, s) :: rest => spanOf ((d - 1) * s + span) rest

/-- The position of a list of (axis, index) pairs. -/
def position (q : List ((Nat × Nat) × Nat)) : Nat := (q.map fun x => x.2 * x.1.2).sum

@[simp] theorem position_nil : position [] = 0 := rfl

@[simp] theorem position_cons (x : (Nat × Nat) × Nat) (q : List ((Nat × Nat) × Nat)) :
    position (x :: q) = x.2 * x.1.2 + position q := by simp [position]

theorem position_perm {q q' : List ((Nat × Nat) × Nat)} (h : q.Perm q') :
    position q = position q' := (h.map _).sum_eq

private theorem term_lt {c d s r span : Nat} (hc : c < d) (hr : r < span) :
    r + c * s < (d - 1) * s + span := by
  have : c * s ≤ (d - 1) * s := Nat.mul_le_mul_right s (by omega)
  omega

theorem position_lt : ∀ (q : List ((Nat × Nat) × Nat)) (span r : Nat), r < span →
    (∀ x ∈ q, x.2 < x.1.1) → r + position q < spanOf span (q.map Prod.fst)
  | [], _, _, hr, _ => by simpa [spanOf] using hr
  | ((d, s), c) :: q, span, r, hr, hb => by
    have hc : c < d := hb _ (List.mem_cons_self ..)
    have := position_lt q _ (r + c * s) (term_lt (s := s) hc hr)
      (fun x hx => hb x (List.mem_cons_of_mem _ hx))
    simpa [spanOf, Nat.add_assoc] using this

/-- Two index choices over one separated list of axes that reach the same
position are equal. The induction carries the position reached so far, which
stays below the span. -/
theorem separated_injective : ∀ (q : List ((Nat × Nat) × Nat × Nat)) (span r r' : Nat),
    Separated span (q.map Prod.fst) → r < span → r' < span →
    (∀ x ∈ q, x.2.1 < x.1.1 ∧ x.2.2 < x.1.1) →
    r + position (q.map fun x => (x.1, x.2.1)) = r' + position (q.map fun x => (x.1, x.2.2)) →
    r = r' ∧ ∀ x ∈ q, x.2.1 = x.2.2
  | [], _, _, _, _, _, _, _, he => ⟨by simpa using he, by simp⟩
  | ((d, s), c, c') :: q, span, r, r', hs, hr, hr', hb, he => by
    obtain ⟨hle, hrest⟩ := hs
    obtain ⟨hc, hc'⟩ := hb _ (List.mem_cons_self ..)
    simp only [List.map_cons, position_cons] at he
    obtain ⟨hR, hq⟩ := separated_injective q _ (r + c * s) (r' + c' * s) hrest
      (term_lt hc hr) (term_lt hc' hr') (fun x hx => hb x (List.mem_cons_of_mem _ hx))
      (by omega)
    have hpos : 0 < s := by omega
    have hdiv : c = c' := by
      have h1 : (r + c * s) / s = c := by
        rw [Nat.add_mul_div_right _ _ hpos, Nat.div_eq_of_lt (by omega), Nat.zero_add]
      have h2 : (r' + c' * s) / s = c' := by
        rw [Nat.add_mul_div_right _ _ hpos, Nat.div_eq_of_lt (by omega), Nat.zero_add]
      rw [← h1, hR, h2]
    subst hdiv
    refine ⟨by omega, ?_⟩
    intro x hx
    rcases List.mem_cons.mp hx with rfl | hx
    · rfl
    · exact hq x hx

/-- A permutation of the images comes from a permutation of the list. -/
theorem perm_lift {α β : Type} (f : α → β) {l l' : List β} (h : l.Perm l') :
    ∀ q : List α, q.map f = l → ∃ q' : List α, q'.Perm q ∧ q'.map f = l' := by
  induction h with
  | nil => intro q hq; exact ⟨q, .refl _, hq⟩
  | cons x _ ih =>
    intro q hq
    obtain ⟨a, q, rfl⟩ : ∃ a q₀, q = a :: q₀ := by
      cases q with
      | nil => simp at hq
      | cons a q => exact ⟨a, q, rfl⟩
    simp only [List.map_cons, List.cons.injEq] at hq
    obtain ⟨q', hp, hm⟩ := ih q hq.2
    exact ⟨a :: q', hp.cons a, by simp [hq.1, hm]⟩
  | swap x y l =>
    intro q hq
    match q, hq with
    | a :: b :: q, hq =>
      simp only [List.map_cons, List.cons.injEq] at hq
      exact ⟨b :: a :: q, .swap .., by simp [hq.1, hq.2.1, hq.2.2]⟩
  | trans _ _ ih₁ ih₂ =>
    intro q hq
    obtain ⟨q₁, hp₁, hm₁⟩ := ih₁ q hq
    obtain ⟨q₂, hp₂, hm₂⟩ := ih₂ q₁ hm₁
    exact ⟨q₂, hp₂.trans hp₁, hm₂⟩

theorem dot_eq_position : ∀ {shape strides coord : List Nat},
    strides.length = shape.length → InBounds shape coord →
    dot strides coord = position (((shape.zip strides).zip coord).filter fun x => 1 < x.1.1)
  | [], [], [], _, _ => rfl
  | d :: ds, s :: ss, c :: cs, hl, hb => by
    have ih := @dot_eq_position ds ss cs (by simpa using hl) hb.2
    simp only [List.zip_cons_cons, List.filter_cons, dot, ih]
    split
    · simp
    · have hc := hb.1
      have : c = 0 := by simp_all; omega
      simp [this]

section Validated
variable {shape strides : List Nat} {sorted : List (Nat × Nat)}

/-- The varying axes of a box with their indices, in the order of `sorted`. -/
theorem exists_sorted_indices {γ : Type} (coord : List γ)
    (hlen : strides.length = shape.length) (hc : coord.length = shape.length)
    (hp : ((shape.zip strides).filter fun x => 1 < x.1).Perm sorted) :
    ∃ q : List ((Nat × Nat) × γ),
      q.Perm (((shape.zip strides).zip coord).filter fun x => 1 < x.1.1) ∧
      q.map Prod.fst = sorted := by
  apply perm_lift Prod.fst hp
  have hz : (((shape.zip strides).zip coord).filter fun x => 1 < x.1.1).map Prod.fst =
      (((shape.zip strides).zip coord).map Prod.fst).filter fun x => 1 < x.1 := by
    rw [List.filter_map]; rfl
  rw [hz, List.map_fst_zip (by simp [hlen, hc])]

theorem index_lt_of_mem_zip : ∀ {shape strides coord : List Nat} {x : (Nat × Nat) × Nat},
    InBounds shape coord → x ∈ (shape.zip strides).zip coord → x.2 < x.1.1
  | d :: ds, s :: ss, c :: cs, x, hb, hx => by
    simp only [List.zip_cons_cons, List.mem_cons] at hx
    rcases hx with rfl | hx
    · exact hb.1
    · exact index_lt_of_mem_zip hb.2 hx
  | [], [], _, _, _, hx | [], _ :: _, _, _, _, hx | _ :: _, [], _, _, _, hx
  | _ :: _, _ :: _, [], _, _, hx => by simp at hx

theorem dot_lt_spanOf {coord : List Nat} (hlen : strides.length = shape.length)
    (hp : ((shape.zip strides).filter fun x => 1 < x.1).Perm sorted)
    (hb : InBounds shape coord) : dot strides coord < spanOf 1 sorted := by
  obtain ⟨q, hq, hm⟩ := exists_sorted_indices coord hlen hb.length_eq hp
  rw [dot_eq_position hlen hb, ← position_perm hq, ← hm]
  have := position_lt q 1 0 (by omega) (fun x hx =>
    index_lt_of_mem_zip hb (List.mem_filter.mp (hq.subset hx)).1)
  omega

private theorem zip_pair_fst : ∀ (l : List (Nat × Nat)) (c c' : List Nat), c.length = c'.length →
    (l.zip (c.zip c')).map (fun x => (x.1, x.2.1)) = l.zip c ∧
    (l.zip (c.zip c')).map (fun x => (x.1, x.2.2)) = l.zip c'
  | [], _, _, _ => by simp
  | _ :: _, [], [], _ => by simp
  | a :: l, x :: c, y :: c', h => by
    simpa using zip_pair_fst l c c' (by simpa using h)

private theorem eq_of_zip_eq : ∀ {shape strides c c' : List Nat},
    strides.length = shape.length → InBounds shape c → InBounds shape c' →
    (∀ x ∈ (((shape.zip strides).zip (c.zip c')).filter fun x => 1 < x.1.1), x.2.1 = x.2.2) →
    c = c'
  | [], [], [], [], _, _, _, _ => rfl
  | d :: ds, s :: ss, a :: c, b :: c', hl, hb, hb', hx => by
    simp only [List.zip_cons_cons, List.filter_cons] at hx
    have ht := @eq_of_zip_eq ds ss c c' (by simpa using hl) hb.2 hb'.2
      (fun x hm => hx x (by split <;> simp_all))
    have ha := hb.1
    have hb := hb'.1
    have hh : a = b := by
      by_cases hd : 1 < d
      · exact hx ((d, s), a, b) (by simp [hd])
      · omega
    rw [hh, ht]

/-- A stride vector whose varying axes are separated in some order is injective
on the box. -/
theorem dot_injective {c c' : List Nat} (hlen : strides.length = shape.length)
    (hp : ((shape.zip strides).filter fun x => 1 < x.1).Perm sorted)
    (hs : Separated 1 sorted) (hb : InBounds shape c) (hb' : InBounds shape c')
    (he : dot strides c = dot strides c') : c = c' := by
  have hcc : c.length = c'.length := by rw [hb.length_eq, hb'.length_eq]
  obtain ⟨q, hq, hm⟩ := exists_sorted_indices (c.zip c') hlen
    (by simp [hb.length_eq, hb'.length_eq]) hp
  obtain ⟨hz, hz'⟩ := zip_pair_fst (shape.zip strides) c c' hcc
  have hpos : position (q.map fun x => (x.1, x.2.1)) = dot strides c := by
    rw [dot_eq_position hlen hb, position_perm (hq.map _), ← hz, List.filter_map]; rfl
  have hpos' : position (q.map fun x => (x.1, x.2.2)) = dot strides c' := by
    rw [dot_eq_position hlen hb', position_perm (hq.map _), ← hz', List.filter_map]; rfl
  have hmem : ∀ x ∈ q, x.2.1 < x.1.1 ∧ x.2.2 < x.1.1 := by
    intro x hx
    have hx := (List.mem_filter.mp (hq.subset hx)).1
    constructor
    · apply index_lt_of_mem_zip (x := (x.1, x.2.1)) hb
      rw [← hz]; exact List.mem_map.mpr ⟨x, hx, rfl⟩
    · apply index_lt_of_mem_zip (x := (x.1, x.2.2)) hb'
      rw [← hz']; exact List.mem_map.mpr ⟨x, hx, rfl⟩
  have hall := (separated_injective q 1 0 0 (hm ▸ hs) (by omega) (by omega) hmem (by omega)).2
  exact eq_of_zip_eq hlen hb hb' (fun x hx => hall x (hq.symm.subset hx))

end Validated

end Strided
