import ModelWeights.Lib.Strided
import Mathlib.Data.Multiset.Bind
import Mathlib.Data.Multiset.Range
import Mathlib.Data.Multiset.Pairwise
import Mathlib.Data.Set.Function
import Mathlib.Order.Interval.Set.Defs

/-! # Mixed-radix stride systems

An axis is a pair of a dimension and a stride. `positions base axes` is the
multiset of all sums of a base position and one multiple of each stride. It does
not depend on the order of the axes. Read in the order of their strides, the
axes reach every position of an initial segment exactly once if and only if
each stride is the product of the dimensions before it (`positions_range_iff`). -/
namespace Strided

/-- The positions that one more axis reaches. -/
def extend (base : Multiset Nat) (axis : Nat × Nat) : Multiset Nat :=
  (Multiset.range axis.1).bind fun c => base.map fun b => b + c * axis.2

def positions : Multiset Nat → List (Nat × Nat) → Multiset Nat
  | base, [] => base
  | base, axis :: rest => positions (extend base axis) rest

/-- Each stride is the product of the dimensions before it. -/
def MixedRadix : Nat → List (Nat × Nat) → Prop
  | _, [] => True
  | stride, (d, s) :: rest => s = stride ∧ MixedRadix (stride * d) rest

/-! ## Order and size of the axes -/

theorem extend_comm (base : Multiset Nat) (a b : Nat × Nat) :
    extend (extend base a) b = extend (extend base b) a := by
  unfold extend
  simp only [Multiset.map_bind, Multiset.map_map, Function.comp_def]
  rw [Multiset.bind_bind]
  simp only [Nat.add_right_comm]

theorem positions_perm {axes axes' : List (Nat × Nat)} (h : axes.Perm axes') :
    ∀ base, positions base axes = positions base axes' := by
  induction h with
  | nil => exact fun _ => rfl
  | cons a _ ih => exact fun base => ih _
  | swap a b rest =>
    intro base
    rw [positions, positions, positions, positions, extend_comm]
  | trans _ _ ih₁ ih₂ => exact fun base => (ih₁ base).trans (ih₂ base)

theorem extend_one (base : Multiset Nat) (s : Nat) : extend base (1, s) = base := by
  rw [extend, show Multiset.range 1 = {0} from rfl, Multiset.singleton_bind]
  simp

/-- Axes of dimension one do not move. -/
theorem positions_filter : ∀ {axes : List (Nat × Nat)}, (∀ a ∈ axes, a.1 ≠ 0) → ∀ base,
    positions base (axes.filter fun a => 1 < a.1) = positions base axes
  | [], _, _ => rfl
  | (d, s) :: rest, h, base => by
    have hrest := @positions_filter rest fun a ha => h a (List.mem_cons_of_mem _ ha)
    have hd : d ≠ 0 := h (d, s) (List.mem_cons_self ..)
    rw [List.filter_cons]
    split
    · exact hrest _
    · next hone =>
      have hone : d = 1 := by
        simp only [decide_eq_true_eq] at hone
        omega
      rw [positions, hone, extend_one]
      exact hrest base

theorem card_positions : ∀ (axes : List (Nat × Nat)) (base : Multiset Nat),
    (positions base axes).card = base.card * (axes.map Prod.fst).prod
  | [], base => by simp [positions]
  | (d, s) :: rest, base => by
    rw [positions, card_positions rest, extend, Multiset.card_bind, List.map_cons, List.prod_cons,
      ← Nat.mul_assoc]
    simp [Nat.mul_comm]

theorem le_positions : ∀ {axes : List (Nat × Nat)}, (∀ a ∈ axes, a.1 ≠ 0) → ∀ base,
    base ≤ positions base axes
  | [], _, _ => le_refl _
  | (d, s) :: rest, h, base => by
    have hd : 0 < d := Nat.pos_of_ne_zero (h (d, s) (List.mem_cons_self ..))
    have hstep : base ≤ extend base (d, s) := by
      have := Multiset.le_bind (f := fun c => base.map fun b => b + c * s) (Multiset.range d)
        (Multiset.mem_range.mpr hd)
      simpa [extend] using this
    exact hstep.trans (le_positions (fun a ha => h a (List.mem_cons_of_mem _ ha)) _)

/-- Longer strides do not reach a position that the base misses. -/
theorem not_mem_positions {p : Nat} : ∀ {axes : List (Nat × Nat)} {base : Multiset Nat},
    p ∉ base → (∀ a ∈ axes, p < a.2) → p ∉ positions base axes
  | [], _, hp, _ => hp
  | (d, s) :: rest, base, hp, hs => by
    rw [positions]
    refine not_mem_positions (fun hmem => ?_) fun a ha => hs a (List.mem_cons_of_mem _ ha)
    obtain ⟨c, _, hmem⟩ := Multiset.mem_bind.mp hmem
    obtain ⟨b, hb, he⟩ := Multiset.mem_map.mp hmem
    have hlt : p < s := hs (d, s) (List.mem_cons_self ..)
    cases c with
    | zero =>
      rw [Nat.zero_mul, Nat.add_zero] at he
      exact hp (he ▸ hb)
    | succ c =>
      have : s ≤ (c + 1) * s := Nat.le_mul_of_pos_left s (Nat.succ_pos c)
      dsimp only at he
      omega

/-! ## The criterion -/

theorem extend_range (p d : Nat) : extend (Multiset.range p) (d, p) = Multiset.range (p * d) := by
  rw [Nat.mul_comm]
  unfold extend Multiset.range
  rw [range_mul, ← Multiset.coe_bind]
  refine Multiset.bind_congr fun c _ => ?_
  simp [Nat.add_comm]

theorem positions_of_mixedRadix : ∀ {axes : List (Nat × Nat)} {p : Nat}, MixedRadix p axes →
    positions (Multiset.range p) axes = Multiset.range (p * (axes.map Prod.fst).prod)
  | [], p, _ => by simp [positions]
  | (d, s) :: rest, p, h => by
    obtain ⟨rfl, hrest⟩ := h
    rw [positions, extend_range, positions_of_mixedRadix hrest, List.map_cons, List.prod_cons,
      Nat.mul_assoc]

/-- A stride below the span of the axes before it reaches a position twice. -/
theorem not_nodup_extend {p d s : Nat} (hd : 1 < d) (hs : s < p) :
    ¬ (extend (Multiset.range p) (d, s)).Nodup := by
  intro hnodup
  rw [extend, Multiset.nodup_bind] at hnodup
  have : Std.Symm (Function.onFun Disjoint fun c =>
      (Multiset.range p).map fun b => b + c * (d, s).2) := ⟨fun _ _ h => Disjoint.symm h⟩
  have hdisjoint := Multiset.Pairwise.forall hnodup.2 (Multiset.mem_range.mpr (Nat.zero_lt_of_lt hd))
    (Multiset.mem_range.mpr hd) Nat.zero_ne_one
  have hzero : s ∈ (Multiset.range p).map fun b => b + 0 * s :=
    Multiset.mem_map.mpr ⟨s, Multiset.mem_range.mpr hs, by omega⟩
  have hone : s ∈ (Multiset.range p).map fun b => b + 1 * s :=
    Multiset.mem_map.mpr ⟨0, Multiset.mem_range.mpr (by omega), by omega⟩
  exact Multiset.disjoint_left.mp hdisjoint hzero hone

/-- The next stride of a system that reaches an initial segment exactly once is the
span of the axes before it. A shorter stride reaches a position twice, and if the
next stride is longer, so are all others, and the span itself is missed. -/
theorem mixedRadix_of_positions : ∀ {axes : List (Nat × Nat)} {p n : Nat}, 0 < p →
    (∀ a ∈ axes, 1 < a.1) → axes.Pairwise (fun a b => a.2 ≤ b.2) →
    positions (Multiset.range p) axes = Multiset.range n → MixedRadix p axes
  | [], _, _, _, _, _, _ => trivial
  | (d, s) :: rest, p, n, hp, hd, hsorted, h => by
    obtain ⟨hhead, htail⟩ := List.pairwise_cons.mp hsorted
    have hdim : 1 < d := hd (d, s) (List.mem_cons_self ..)
    have hpos : ∀ a ∈ (d, s) :: rest, a.1 ≠ 0 := fun a ha => by
      have := hd a ha
      omega
    have hcard : n = p * (d * (rest.map Prod.fst).prod) := by
      have := congrArg Multiset.card h
      rw [card_positions, Multiset.card_range, Multiset.card_range] at this
      rw [← this, List.map_cons, List.prod_cons]
    have hprod : 0 < (rest.map Prod.fst).prod := by
      refine Nat.pos_of_ne_zero fun hzero => ?_
      obtain ⟨_, hmem, hx⟩ := List.prod_eq_zero_iff_exists_zero_nat.mp hzero
      obtain ⟨a, ha, hax⟩ := List.mem_map.mp hmem
      exact hpos a (List.mem_cons_of_mem _ ha) (hax.trans hx)
    have hlt : p < n := by
      rw [hcard]
      calc p = p * 1 := (Nat.mul_one p).symm
        _ < p * d := Nat.mul_lt_mul_of_pos_left hdim hp
        _ ≤ p * (d * (rest.map Prod.fst).prod) :=
          Nat.mul_le_mul_left _ (Nat.le_mul_of_pos_right _ hprod)
    have hnodup : (positions (extend (Multiset.range p) (d, s)) rest).Nodup := by
      rw [positions] at h
      rw [h]
      exact Multiset.nodup_range n
    have hle : s ≤ p := by
      refine Nat.not_lt.mp fun hgt => ?_
      have hmiss : p ∉ positions (Multiset.range p) ((d, s) :: rest) := by
        refine not_mem_positions Multiset.notMem_range_self fun a ha => ?_
        rcases List.mem_cons.mp ha with rfl | ha
        · exact hgt
        · exact Nat.lt_of_lt_of_le hgt (hhead a ha)
      rw [h] at hmiss
      exact hmiss (Multiset.mem_range.mpr hlt)
    have hge : p ≤ s := by
      refine Nat.not_lt.mp fun hshort => not_nodup_extend hdim hshort ?_
      exact Multiset.nodup_of_le
        (le_positions (fun a ha => hpos a (List.mem_cons_of_mem _ ha)) _) hnodup
    obtain rfl : s = p := Nat.le_antisymm hle hge
    rw [positions, extend_range] at h
    exact ⟨rfl, mixedRadix_of_positions (Nat.mul_pos hp (Nat.zero_lt_of_lt hdim))
      (fun a ha => hd a (List.mem_cons_of_mem _ ha)) htail h⟩

theorem positions_range_iff {axes : List (Nat × Nat)} (hd : ∀ a ∈ axes, 1 < a.1)
    (hsorted : axes.Pairwise fun a b => a.2 ≤ b.2) :
    positions {0} axes = Multiset.range (axes.map Prod.fst).prod ↔ MixedRadix 1 axes := by
  constructor
  · exact mixedRadix_of_positions Nat.one_pos hd hsorted
  · intro h
    have := positions_of_mixedRadix h
    rwa [Nat.one_mul] at this

/-! ## Coordinates -/

theorem positions_coords : ∀ {shape strides : List Nat}, strides.length = shape.length →
    ∀ base, positions base (shape.zip strides) =
      base.bind fun b => ((coords shape : List (List Nat)) : Multiset (List Nat)).map fun c =>
        b + dot strides c
  | [], [], _, base => by
    have hcoords : ((coords [] : List (List Nat)) : Multiset (List Nat)) = {[]} := rfl
    simp only [hcoords, Multiset.map_singleton, dot, Nat.add_zero]
    exact ((Multiset.bind_singleton base fun b => b).trans (Multiset.map_id' base)).symm
  | d :: ds, s :: ss, h, base => by
    rw [List.zip_cons_cons, positions, positions_coords (by simpa using h)]
    have hcoords : ((coords (d :: ds) : List (List Nat)) : Multiset (List Nat)) =
        (Multiset.range d).bind fun c =>
          ((coords ds : List (List Nat)) : Multiset (List Nat)).map (c :: ·) := by
      rw [coords, ← Multiset.coe_bind]
      rfl
    rw [hcoords, extend, Multiset.bind_assoc]
    simp only [Multiset.map_bind, Multiset.bind_map, Multiset.map_map, Function.comp_def, dot,
      Nat.add_assoc]
    rw [Multiset.bind_bind]

/-- The stride map is a bijection of the box and an initial segment exactly if it
lists the segment. -/
theorem bijOn_dot_iff {shape strides : List Nat} (hlen : strides.length = shape.length) (n : Nat) :
    Set.BijOn (dot strides) {c | InBounds shape c} (Set.Iio n) ↔
      positions {0} (shape.zip strides) = Multiset.range n := by
  rw [positions_coords hlen, Multiset.singleton_bind]
  simp only [Nat.zero_add]
  constructor
  · intro h
    refine (Multiset.Nodup.ext ?_ (Multiset.nodup_range n)).mpr fun p => ?_
    · refine Multiset.Nodup.map_on ?_ (nodup_coords shape)
      intro c hc c' hc' he
      exact h.injOn (mem_coords.mp hc) (mem_coords.mp hc') he
    · rw [Multiset.mem_map, Multiset.mem_range]
      constructor
      · rintro ⟨c, hc, rfl⟩
        exact h.mapsTo (mem_coords.mp hc)
      · intro hp
        obtain ⟨c, hc, he⟩ := h.surjOn hp
        exact ⟨c, mem_coords.mpr hc, he⟩
  · intro h
    have hmem : ∀ p, (∃ c, InBounds shape c ∧ dot strides c = p) ↔ p < n := by
      intro p
      rw [← Multiset.mem_range, ← h, Multiset.mem_map]
      simp only [Multiset.mem_coe, mem_coords]
    refine ⟨fun c hc => (hmem _).mp ⟨c, hc, rfl⟩, fun c hc c' hc' he => ?_, fun p hp =>
      (hmem p).mpr hp⟩
    have hnodup : ((coords shape).map (dot strides)).Nodup := by
      have := h ▸ Multiset.nodup_range n
      simpa using this
    exact List.inj_on_of_nodup_map hnodup (mem_coords.mpr hc) (mem_coords.mpr hc') he

end Strided
