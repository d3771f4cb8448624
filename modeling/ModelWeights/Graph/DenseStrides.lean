import ModelWeights.Graph.Addressing
import ModelWeights.Lib.MixedRadix

/-! # Dense logical strides

`validate_dense_strides` sorts the varying axes by stride and multiplies. On a
tensor with elements the criterion is exact: it accepts the stride vectors that
number the elements from zero without a gap and without a repetition. -/
namespace ModelWeights.Graph
open Strided

theorem varyingAxes_sorted (shape strides : List Nat) :
    (varyingAxes shape strides).Pairwise fun a b => a.2 ≤ b.2 := by
  have : Std.Total (fun a b : Nat × Nat => a.2 ≤ b.2) := ⟨fun a b => Nat.le_total a.2 b.2⟩
  have : IsTrans (Nat × Nat) fun a b => a.2 ≤ b.2 := ⟨fun _ _ _ => Nat.le_trans⟩
  exact List.pairwise_insertionSort _ _

/-- The loop accepts exactly the mixed-radix systems, as long as its products fit. -/
theorem denseLoop_iff : ∀ {axes : List (Nat × Nat)} {stride n : Nat},
    stride * (axes.map Prod.fst).prod < u64Size → (∀ a ∈ axes, a.1 ≠ 0) →
    (denseLoop stride axes = .ok n ↔
      MixedRadix stride axes ∧ n = stride * (axes.map Prod.fst).prod)
  | [], stride, n, _, _ => by
    simp [denseLoop, MixedRadix, eq_comm]
  | (d, s) :: rest, stride, n, hfit, hd => by
    have hrest : ∀ a ∈ rest, a.1 ≠ 0 := fun a ha => hd a (List.mem_cons_of_mem _ ha)
    rw [List.map_cons, List.prod_cons, ← Nat.mul_assoc] at hfit ⊢
    rw [denseLoop, MixedRadix]
    by_cases hs : s = stride
    · have hpos : 0 < (rest.map Prod.fst).prod := by
        refine Nat.pos_of_ne_zero fun hzero => ?_
        obtain ⟨_, hmem, hx⟩ := List.prod_eq_zero_iff_exists_zero_nat.mp hzero
        obtain ⟨a, ha, hax⟩ := List.mem_map.mp hmem
        exact hrest a ha (hax.trans hx)
      have hnext : stride * d < u64Size :=
        Nat.lt_of_le_of_lt (Nat.le_mul_of_pos_right _ hpos) hfit
      rw [if_neg (not_not.mpr hs), okOr_mul _ hnext]
      show denseLoop (stride * d) rest = .ok n ↔ _
      rw [denseLoop_iff hfit hrest]
      exact ⟨fun h => ⟨⟨hs, h.1⟩, h.2⟩, fun h => ⟨h.1.2, h.2⟩⟩
    · rw [if_pos hs]
      exact ⟨fun h => (nomatch h), fun h => absurd h.1.1 hs⟩

theorem varyingAxes_prod {shape strides : List Nat} (hlen : strides.length = shape.length)
    (hd : ∀ d ∈ shape, d ≠ 0) :
    ((varyingAxes shape strides).map Prod.fst).prod = shape.prod := by
  rw [← ((varyingAxes_perm shape strides).map Prod.fst).prod_eq]
  have hone : ∀ l : List (Nat × Nat), (∀ a ∈ l, a.1 ≠ 0) →
      ((l.filter fun a => 1 < a.1).map Prod.fst).prod = (l.map Prod.fst).prod := by
    intro l hl
    have := congrArg Multiset.card (positions_filter hl {0})
    simpa only [card_positions, Multiset.card_singleton, Nat.one_mul] using this
  rw [hone _ fun a ha => hd _ (List.of_mem_zip ha).1, List.map_fst_zip (Nat.le_of_eq hlen.symm)]

section Criterion
variable {shape strides : List Nat}

theorem prod_ne_zero (hd : ∀ d ∈ shape, d ≠ 0) : shape.prod ≠ 0 := by
  intro hzero
  obtain ⟨_, hmem, hx⟩ := List.prod_eq_zero_iff_exists_zero_nat.mp hzero
  exact hd _ hmem hx

theorem one_lt_varyingAxes {a : Nat × Nat} (ha : a ∈ varyingAxes shape strides) : 1 < a.1 := by
  have := (List.mem_filter.mp ((varyingAxes_perm shape strides).mem_iff.mpr ha)).2
  simpa using this

/-- The varying axes are a mixed-radix system exactly if all axes together list the
initial segment. -/
theorem mixedRadix_varyingAxes_iff (hd : ∀ d ∈ shape, d ≠ 0)
    (hlen : strides.length = shape.length) :
    MixedRadix 1 (varyingAxes shape strides) ↔
      positions {0} (shape.zip strides) = Multiset.range shape.prod := by
  have hzip : ∀ a ∈ shape.zip strides, a.1 ≠ 0 := fun a ha => hd _ (List.of_mem_zip ha).1
  rw [(positions_filter hzip {0}).symm.trans (positions_perm (varyingAxes_perm shape strides) {0}),
    ← varyingAxes_prod hlen hd,
    positions_range_iff (fun _ => one_lt_varyingAxes) (varyingAxes_sorted shape strides)]

theorem validateDenseStrides_iff_mixedRadix (hd : ∀ d ∈ shape, d ≠ 0)
    (hfit : shape.prod < u64Size) (hlen : strides.length = shape.length) :
    validateDenseStrides shape strides shape.prod = .ok () ↔
      MixedRadix 1 (varyingAxes shape strides) := by
  have hprod := varyingAxes_prod hlen hd
  have hloop : ∀ n, denseLoop 1 (varyingAxes shape strides) = .ok n ↔
      MixedRadix 1 (varyingAxes shape strides) ∧ n = shape.prod := by
    intro n
    rw [denseLoop_iff (by rwa [Nat.one_mul, hprod]) fun a ha => Nat.ne_of_gt
      (Nat.lt_trans Nat.zero_lt_one (one_lt_varyingAxes ha)), Nat.one_mul, hprod]
  unfold validateDenseStrides
  rw [if_neg (prod_ne_zero hd)]
  constructor
  · intro h
    obtain ⟨n, hn, _⟩ := bind_ok h
    exact ((hloop n).mp hn).1
  · intro h
    rw [(hloop shape.prod).mpr ⟨h, rfl⟩]
    show (if _ then _ else _) = _
    rw [if_neg (not_not.mpr rfl)]

end Criterion

/-- **The dense stride check is exact.** For a shape without a zero dimension whose
element count fits 64 bits, a stride vector passes if and only if it maps the
coordinates bijectively onto the positions below the element count. -/
theorem validateDenseStrides_iff {shape strides : List Nat} (hd : ∀ d ∈ shape, d ≠ 0)
    (hfit : shape.prod < u64Size) (hlen : strides.length = shape.length) :
    validateDenseStrides shape strides shape.prod = .ok () ↔
      Set.BijOn (dot strides) {c | InBounds shape c} (Set.Iio shape.prod) := by
  rw [validateDenseStrides_iff_mixedRadix hd hfit hlen, mixedRadix_varyingAxes_iff hd hlen,
    bijOn_dot_iff hlen]

/-- A permuted matrix of rank three with an axis of size one. -/
theorem validateDenseStrides_iff_sample :
    validateDenseStrides [2, 1, 3] [1, 7, 2] 6 = .ok () ∧
      Set.BijOn (dot [1, 7, 2]) {c | InBounds [2, 1, 3] c} (Set.Iio 6) := by
  have hok : validateDenseStrides [2, 1, 3] [1, 7, 2] 6 = .ok () := by decide
  have hd : ∀ d ∈ [2, 1, 3], d ≠ 0 := by decide
  have hlen : [1, 7, 2].length = [2, 1, 3].length := rfl
  exact ⟨hok, (validateDenseStrides_iff hd (by decide) hlen).mp hok⟩

/-! ## Contiguous facts -/

/-- A mixed-radix system passes the storage check with its full span. -/
theorem storageSpanLoop_mixedRadix : ∀ {axes : List (Nat × Nat)} {span : Nat},
    MixedRadix span axes → (∀ a ∈ axes, 1 < a.1) →
    span * (axes.map Prod.fst).prod < u64Size →
    storageSpanLoop span axes = .ok (span * (axes.map Prod.fst).prod)
  | [], span, _, _, _ => by rw [storageSpanLoop, List.map_nil, List.prod_nil, Nat.mul_one]
  | (d, s) :: rest, span, h, hd, hfit => by
    obtain ⟨rfl, hrest⟩ := h
    have hdim : 1 < d := hd (d, s) (List.mem_cons_self ..)
    have hdims : ∀ a ∈ rest, 1 < a.1 := fun a ha => hd a (List.mem_cons_of_mem _ ha)
    rw [List.map_cons, List.prod_cons, ← Nat.mul_assoc] at hfit ⊢
    have hpos : 0 < (rest.map Prod.fst).prod := by
      refine Nat.pos_of_ne_zero (prod_ne_zero fun x hx => ?_)
      obtain ⟨a, ha, rfl⟩ := List.mem_map.mp hx
      exact Nat.ne_of_gt (Nat.lt_trans Nat.zero_lt_one (hdims a ha))
    have hnext : s * d < u64Size := Nat.lt_of_le_of_lt (Nat.le_mul_of_pos_right _ hpos) hfit
    have hextent : (d - 1) * s + s = s * d := by
      rw [← Nat.succ_mul, Nat.succ_eq_add_one, Nat.sub_add_cancel (Nat.le_of_lt hdim), Nat.mul_comm]
    have hstep : ((checkedSub d 1).bind fun extent =>
        (checkedMul extent s).bind fun extent => checkedAdd extent s) = some (s * d) := by
      rw [checkedSub, if_pos (Nat.le_of_lt hdim), Option.bind_some, checkedMul,
        if_pos (by omega), Option.bind_some, checkedAdd, if_pos (by omega), hextent]
    rw [storageSpanLoop, if_neg (Nat.lt_irrefl s), hstep]
    exact storageSpanLoop_mixedRadix hrest hdims hfit

/-- The row-major strides number the elements in the order of their coordinates. -/
theorem mixedRadix_rowMajor {shape : List Nat} (hd : ∀ d ∈ shape, d ≠ 0) :
    MixedRadix 1 (varyingAxes shape (rowMajor shape)) := by
  have hlen := length_rowMajor shape
  rw [mixedRadix_varyingAxes_iff hd hlen, positions_coords hlen, Multiset.singleton_bind]
  simp only [Nat.zero_add]
  rw [Multiset.map_coe, dot_coords]
  rfl

section Contiguous
variable {shape : List Nat} {dtype : DType}

theorem contiguous_isContiguous :
    (Representation.contiguous dtype).layout.isContiguous = true := rfl

theorem validateStorageStrides_rowMajor (hne : shape.prod ≠ 0) (hprod : shape.prod < u64Size) :
    validateStorageStrides shape (rowMajor shape) shape.prod shape.prod = .ok () := by
  have hd : ∀ d ∈ shape, d ≠ 0 := fun d hd hzero =>
    hne (List.prod_eq_zero_iff_exists_zero_nat.mpr ⟨d, hd, hzero⟩)
  have haxes := varyingAxes_prod (length_rowMajor shape) hd
  have hloop := storageSpanLoop_mixedRadix (mixedRadix_rowMajor hd)
    (fun _ => one_lt_varyingAxes) (by rwa [Nat.one_mul, haxes])
  rw [Nat.one_mul, haxes] at hloop
  unfold validateStorageStrides
  rw [if_neg hne, if_neg hne, hloop]
  exact if_neg (Nat.lt_irrefl _)

/-- Contiguous facts exist for every non-empty shape whose bytes fit 64 bits. -/
theorem TensorFacts.contiguous_succeeds (hrank : shape.length < 2 ^ 32) (hne : shape.prod ≠ 0)
    (hfit : shape.prod * (dtype.bits / 8) < u64Size) :
    ∃ f, TensorFacts.contiguous shape (.contiguous dtype) = .ok f := by
  have hd : ∀ d ∈ shape, d ≠ 0 := fun d hd hzero =>
    hne (List.prod_eq_zero_iff_exists_zero_nat.mpr ⟨d, hd, hzero⟩)
  have hprod : shape.prod < u64Size :=
    Nat.lt_of_le_of_lt (Nat.le_mul_of_pos_right _ dtype.width_pos) hfit
  have hlen := length_rowMajor shape
  have hstrides : contiguousStrides shape = .ok (rowMajor shape) :=
    (contiguousStrides_iff hrank).mpr fun n =>
      Nat.lt_of_le_of_lt (prod_sublist_le (List.drop_sublist n _) hne) hprod
  have hcount : checkedElementCount shape = .ok shape.prod := checkedElementCount_iff.mpr fun n =>
    Nat.lt_of_le_of_lt (prod_sublist_le (List.take_sublist n _) hne) hprod
  have hbytes : dtype.byteLen shape = .ok (shape.prod * (dtype.bits / 8)) := by
    rw [DType.byteLen, ← checkedElementCount, hcount]
    exact okOr_mul _ hfit
  have hrankOk : validateRank shape.length = .ok () := if_pos hrank
  have hdense := (validateDenseStrides_iff_mixedRadix hd hprod hlen).mpr (mixedRadix_rowMajor hd)
  have hspan := validateStorageStrides_rowMajor hne hprod
  have hcontiguous : validateContiguousStorage shape shape (rowMajor shape)
      (.contiguous dtype) = .ok () := by
    unfold validateContiguousStorage
    rw [if_pos contiguous_isContiguous, hstrides]
    exact if_neg (by simp)
  have hvalid : validateFacts shape shape (rowMajor shape) (rowMajor shape) (.contiguous dtype)
      (shape.prod * (dtype.bits / 8)) = .ok () := by
    unfold validateFacts
    rw [hrankOk, hcount]
    show (if _ then _ else _) = _
    rw [if_neg (not_not.mpr rfl), if_neg (not_not.mpr hlen.symm), if_neg (not_not.mpr hlen.symm)]
    show (validateDenseStrides _ _ _ >>= fun _ => _) = _
    rw [hdense]
    show (validateStorageStrides _ _ _ _ >>= fun _ => _) = _
    rw [hspan]
    show (validateContiguousStorage _ _ _ _ >>= fun _ => _) = _
    rw [hcontiguous]
    show (dtype.byteLen shape >>= fun _ => _) = _
    rw [hbytes]
    exact if_neg (not_not.mpr rfl)
  refine ⟨⟨shape, shape, rowMajor shape, rowMajor shape, .contiguous dtype, _, hvalid⟩, ?_⟩
  unfold TensorFacts.contiguous
  rw [if_neg (by rw [contiguous_isContiguous]; exact nofun), hstrides]
  show (dtype.byteLen shape >>= fun _ => _) = _
  rw [hbytes]
  show TensorFacts.new _ _ _ _ _ _ = _
  unfold TensorFacts.new
  split
  · rfl
  · next e h =>
    rw [hvalid] at h
    cases h

end Contiguous

end ModelWeights.Graph
