import ModelWeights.Graph.InferSpec
import ModelWeights.Lib.Success

/-! # Kernels that return

Every product and every bounds check of a kernel succeeds on facts that were
admitted, as long as the products it forms by itself fit 64 bits. A tensor that
holds an element bounds all of them; an empty one does not. -/
namespace ModelWeights.Graph
open Strided Buffer

/-! ## Checked steps -/

theorem okOr_add {a b : Nat} (e : Error) (h : a + b < u64Size) :
    okOr (checkedAdd a b) e = .ok (a + b) := by
  rw [checkedAdd, if_pos h]
  rfl

theorem okOr_mul {a b : Nat} (e : Error) (h : a * b < u64Size) :
    okOr (checkedMul a b) e = .ok (a * b) := by
  rw [checkedMul, if_pos h]
  rfl

theorem okOr_sub {a b : Nat} (e : Error) (h : b ≤ a) :
    okOr (checkedSub a b) e = .ok (a - b) := by
  rw [checkedSub, if_pos h]
  rfl

theorem checkedByteRange_eq {offset length bound : Nat} (h : offset + length ≤ bound)
    (hbound : bound < u64Size) :
    checkedByteRange offset length bound = .ok (offset, offset + length) := by
  unfold checkedByteRange
  rw [okOr_add _ (by omega)]
  show (if _ then _ else _) = _
  rw [if_neg (by omega)]

theorem validateViewLen_eq {view : Bytes} {n : Nat} (description : String)
    (h : view.length = n) : validateViewLen view n description = .ok () := by
  rw [validateViewLen, if_neg (by simpa using h)]

theorem TensorFacts.byteLen_lt (f : TensorFacts) : f.byteLen < u64Size := by
  obtain ⟨elements, _, hbytes⟩ := bind_ok f.checks.bytes
  obtain ⟨hlt, hbytes⟩ := checkedMul_eq_some.mp (okOr_eq_ok.mp hbytes)
  rw [hbytes]
  exact hlt

theorem TensorFacts.rank_lt (f : TensorFacts) : f.logicalShape.length < 2 ^ 32 := by
  have hrank := f.checks.logicalRank
  unfold validateRank at hrank
  split at hrank
  · assumption
  · cases hrank

/-! ## Leading products -/

/-- The products that `checked_element_count` forms, from the first axis on. -/
def LeadingFit (shape : List Nat) : Prop := ∀ n, (shape.take n).prod < u64Size

theorem leading_of_foldlM {e : Error} : ∀ {shape : List Nat} {a n : Nat}, a < u64Size →
    shape.foldlM (fun p d => okOr (checkedMul p d) e) a = Except.ok n →
    ∀ k, a * (shape.take k).prod < u64Size
  | [], a, n, ha, _, k => by rwa [List.take_nil, List.prod_nil, Nat.mul_one]
  | d :: ds, a, n, ha, h, k => by
    rw [List.foldlM_cons] at h
    obtain ⟨m, hm, h⟩ := bind_ok h
    obtain ⟨hlt, rfl⟩ := checkedMul_eq_some.mp (okOr_eq_ok.mp hm)
    cases k with
    | zero => rwa [List.take_zero, List.prod_nil, Nat.mul_one]
    | succ k =>
      rw [List.take_succ_cons, List.prod_cons, ← Nat.mul_assoc]
      exact leading_of_foldlM hlt h k

theorem checkedElementCount_iff {shape : List Nat} :
    checkedElementCount shape = .ok shape.prod ↔ LeadingFit shape := by
  constructor
  · intro h k
    rw [← Nat.one_mul (shape.take k).prod]
    exact leading_of_foldlM (by decide) h k
  · exact fun h => foldlM_checkedMul_one _ h

theorem checkedElementCount_ok {shape : List Nat} {n : Nat} (h : checkedElementCount shape = .ok n) :
    LeadingFit shape := by
  rw [elementProduct_ok h] at h
  exact checkedElementCount_iff.mp h

theorem TensorFacts.leadingFit (f : TensorFacts) : LeadingFit f.logicalShape :=
  checkedElementCount_iff.mp f.checks.logicalElements

theorem LeadingFit.take {shape : List Nat} (h : LeadingFit shape) (k : Nat) :
    LeadingFit (shape.take k) := by
  intro n
  rw [List.take_take]
  exact h _

theorem TensorFacts.prod_lt (f : TensorFacts) : f.logicalShape.prod < u64Size := by
  have h := f.leadingFit f.logicalShape.length
  rwa [List.take_length] at h

theorem le_prod_of_mem : ∀ {shape : List Nat} {d : Nat}, 0 < shape.prod → d ∈ shape →
    d ≤ shape.prod
  | a :: shape, d, hpos, hd => by
    rw [List.prod_cons] at hpos ⊢
    rcases List.mem_cons.mp hd with rfl | hd
    · exact Nat.le_mul_of_pos_right _ (Nat.pos_of_mul_pos_left hpos)
    · exact Nat.le_trans (le_prod_of_mem (Nat.pos_of_mul_pos_left hpos) hd)
        (Nat.le_mul_of_pos_left _ (Nat.pos_of_mul_pos_right hpos))

/-- A coordinate of the box fits 64 bits. -/
theorem TensorFacts.coordinate_lt (f : TensorFacts) {coord : List Nat}
    (h : InBounds f.logicalShape coord) {axis : Nat} (haxis : axis < f.logicalShape.length) :
    coord.getD axis 0 < u64Size := by
  have hlt := (inBounds_iff.mp h).2 axis _ (List.getElem?_eq_getElem haxis)
  have hle := le_prod_of_mem (prod_pos_of_inBounds h) (List.getElem_mem haxis)
  have hprod := f.prod_lt
  omega

/-! ## Trailing products -/

/-- The products that `contiguous_strides` forms, from the last axis on. -/
def TrailingFit (shape : List Nat) : Prop := ∀ n, (shape.drop n).prod < u64Size

theorem contiguousStridesLoop_succeeds : ∀ {shape : List Nat}, TrailingFit shape →
    contiguousStridesLoop shape = .ok (rowMajor shape, shape.prod)
  | [], _ => rfl
  | d :: ds, h => by
    have hrest : TrailingFit ds := fun n => h (n + 1)
    have hprod : ds.prod * d < u64Size := by
      have := h 0
      rwa [List.drop_zero, List.prod_cons, Nat.mul_comm] at this
    rw [contiguousStridesLoop, contiguousStridesLoop_succeeds hrest]
    show (okOr _ _ >>= fun next => Except.ok (ds.prod :: rowMajor ds, next)) = _
    rw [okOr_mul _ hprod, List.prod_cons, Nat.mul_comm]
    rfl

theorem trailingFit_of_loop : ∀ {shape strides : List Nat} {next : Nat},
    contiguousStridesLoop shape = .ok (strides, next) → TrailingFit shape
  | [], _, _, _ => by
    intro n
    rw [List.drop_nil, List.prod_nil]
    decide
  | d :: ds, strides, next, h => by
    obtain ⟨⟨ss, stride⟩, hloop, h⟩ := bind_ok h
    obtain ⟨m, hm, _⟩ := bind_ok h
    have hlt := (checkedMul_eq_some.mp (okOr_eq_ok.mp hm)).1
    intro n
    cases n with
    | zero =>
      rw [(contiguousStridesLoop_ok hloop).2, Nat.mul_comm] at hlt
      rwa [List.drop_zero, List.prod_cons]
    | succ n => exact trailingFit_of_loop hloop n

/-- `contiguous_strides` fails on exactly the shapes whose trailing products do not fit. -/
theorem contiguousStrides_iff {shape : List Nat} (hrank : shape.length < 2 ^ 32) :
    contiguousStrides shape = .ok (rowMajor shape) ↔ TrailingFit shape := by
  constructor
  · intro h
    obtain ⟨_, _, h⟩ := bind_ok h
    obtain ⟨⟨ss, next⟩, hloop, _⟩ := bind_ok h
    exact trailingFit_of_loop hloop
  · intro h
    unfold contiguousStrides validateRank
    rw [if_pos hrank, contiguousStridesLoop_succeeds h]
    rfl

theorem trailingFit_of_contiguous {shape : List Nat} {r : Representation} {f : TensorFacts}
    (h : TensorFacts.contiguous shape r = .ok f) : TrailingFit shape := by
  obtain ⟨_, h⟩ := unless_error_ok h
  obtain ⟨strides, hs, _⟩ := bind_ok h
  obtain ⟨_, _, hs⟩ := bind_ok hs
  obtain ⟨⟨ss, next⟩, hloop, _⟩ := bind_ok hs
  exact trailingFit_of_loop hloop

theorem trailingFit_of_canonical {f : TensorFacts} (h : f.isCanonicalContiguous = true) :
    TrailingFit f.logicalShape := by
  unfold TensorFacts.isCanonicalContiguous at h
  rw [Bool.and_eq_true] at h
  obtain ⟨_, h⟩ := h
  split at h
  · next strides hs =>
    obtain ⟨_, _, hs⟩ := bind_ok hs
    obtain ⟨⟨ss, next⟩, hloop, _⟩ := bind_ok hs
    exact trailingFit_of_loop hloop
  · cases h

/-! ## The copy loop -/

theorem copyElement_eq {source target : Bytes} {s t width : Nat}
    (hs : s * width + width ≤ source.length) (ht : t * width + width ≤ target.length)
    (hsource : source.length < u64Size) (htarget : target.length < u64Size) :
    copyElement source s target t width =
      .ok (write target (t * width) (slice source (s * width) width)) := by
  unfold copyElement
  rw [okOr_mul _ (by omega), okOr_mul _ (by omega)]
  show (checkedByteRange _ _ _ >>= fun _ => checkedByteRange _ _ _ >>= fun _ => _) = _
  rw [checkedByteRange_eq hs hsource, checkedByteRange_eq ht htarget]
  rfl

/-- The copy loop returns when every position it visits lies inside both buffers. -/
theorem copyElements_succeeds {f : TensorFacts} {address : Nat → Result (Bytes × Nat × Nat)}
    (ha : ∀ i < f.logicalShape.prod, ∃ source s,
      address i = .ok (source, s, f.offset (unravel f.logicalShape i)) ∧
        s * f.width + f.width ≤ source.length ∧ source.length < u64Size) :
    Succeeds (copyElements f.elementCount f.width address (List.replicate f.byteLen 0) ⟨false⟩)
      fun _ => True := by
  refine Succeeds.bind (P := fun out => out.length = f.byteLen) ?_ fun out _ =>
    Succeeds.step rfl (Succeeds.of_ok trivial)
  refine Succeeds.foldlM (fun _ (out : Bytes) => out.length = f.byteLen) List.length_replicate ?_
  intro k i out hk hout
  obtain ⟨hlt, hk⟩ := List.getElem?_eq_some_iff.mp hk
  rw [List.getElem_range] at hk
  subst hk
  rw [List.length_range, f.elementCount_eq] at hlt
  obtain ⟨source, s, haddress, hfit, hsize⟩ := ha k hlt
  have ht := f.element_fits (unravel_inBounds hlt)
  have hcancel : checkCopyCancellation k ⟨false⟩ = .ok () := by
    unfold checkCopyCancellation
    split
    · rfl
    · rfl
  refine Succeeds.step hcancel ?_
  refine Succeeds.step haddress ?_
  refine Succeeds.of_eq (copyElement_eq hfit (by rw [hout]; exact ht) hsize
    (by rw [hout]; exact f.byteLen_lt)) ?_
  rw [length_write (by rw [length_slice hfit, hout]; exact ht), hout]

theorem sum_range_le {rank k : Nat} (g : Nat → Nat) (h : k ≤ rank) :
    ((List.range k).map g).sum ≤ ((List.range rank).map g).sum := by
  obtain ⟨m, rfl⟩ := Nat.exists_eq_add_of_le h
  rw [List.range_add, List.map_append, List.sum_append]
  exact Nat.le_add_right _ _

theorem checkedOffsetTerm_eq {offset c s : Nat} (h : offset + c * s < u64Size) :
    checkedOffsetTerm offset c s = .ok (offset + c * s) := by
  unfold checkedOffsetTerm checkedMul
  rw [if_pos (by omega)]
  exact okOr_add _ h

/-- The inner loop returns both sums when they fit. -/
theorem elementOffsets_eq {rank : Nat} {term : Nat → Result AxisTerm} {f g : Nat → Nat}
    (ht : ∀ axis < rank, ∃ t, term axis = .ok t ∧ t.sourceCoordinate * t.sourceStride = f axis ∧
      t.targetCoordinate * t.targetStride = g axis)
    (hf : ((List.range rank).map f).sum < u64Size)
    (hg : ((List.range rank).map g).sum < u64Size) :
    elementOffsets rank term =
      .ok (((List.range rank).map f).sum, ((List.range rank).map g).sum) := by
  have hloop : Succeeds (elementOffsets rank term) fun r =>
      r = (((List.range rank).map f).sum, ((List.range rank).map g).sum) := by
    refine (Succeeds.foldlM (fun k x => k ≤ rank →
      x = (((List.range k).map f).sum, ((List.range k).map g).sum)) (fun _ => rfl) ?_).mono
      fun r hr => by simpa using hr
    intro k axis x hk hx
    obtain ⟨hlt, hk⟩ := List.getElem?_eq_some_iff.mp hk
    rw [List.getElem_range] at hk
    subst hk
    rw [List.length_range] at hlt
    obtain ⟨t, hterm, htf, htg⟩ := ht k hlt
    have hfk := sum_range_le f (Nat.succ_le_of_lt hlt)
    have hgk := sum_range_le g (Nat.succ_le_of_lt hlt)
    rw [List.range_succ, List.map_append, List.sum_append, List.map_singleton,
      List.sum_singleton] at hfk hgk
    rw [hx (Nat.le_of_lt hlt)]
    refine Succeeds.step hterm ?_
    refine Succeeds.step (checkedOffsetTerm_eq (by rw [htf]; omega)) ?_
    refine Succeeds.step (checkedOffsetTerm_eq (by rw [htg]; omega)) ?_
    refine Succeeds.of_ok fun _ => ?_
    rw [htf, htg, List.range_succ]
    simp
  obtain ⟨r, hr, rfl⟩ := hloop
  exact hr

theorem rowMajor_ne_zero : ∀ {shape : List Nat} {axis stride : Nat}, shape.prod ≠ 0 →
    (rowMajor shape)[axis]? = some stride → stride ≠ 0
  | d :: ds, axis, stride, hprod, h => by
    rw [List.prod_cons] at hprod
    cases axis with
    | zero =>
      rw [rowMajor, List.getElem?_cons_zero, Option.some.injEq] at h
      rw [← h]
      exact Nat.ne_zero_of_mul_ne_zero_right hprod
    | succ axis => exact rowMajor_ne_zero (Nat.ne_zero_of_mul_ne_zero_right hprod) h
  | [], _, _, _, h => by simp [rowMajor] at h

theorem logicalCoordinate_eq {linear axis : Nat} {shape : List Nat} (hprod : shape.prod ≠ 0)
    (haxis : axis < shape.length) :
    logicalCoordinate linear axis shape (rowMajor shape) =
      .ok ((unravel shape linear).getD axis 0) := by
  have hd : shape[axis]? = some shape[axis] := List.getElem?_eq_getElem haxis
  have hlen : axis < (rowMajor shape).length := by rwa [length_rowMajor]
  have hs : (rowMajor shape)[axis]? = some (rowMajor shape)[axis] := List.getElem?_eq_getElem hlen
  have hd0 : shape[axis] ≠ 0 := by
    intro hzero
    have hmem : 0 ∈ shape := hzero ▸ List.getElem_mem haxis
    exact hprod (List.prod_eq_zero_iff_exists_zero_nat.mpr ⟨0, hmem, rfl⟩)
  unfold logicalCoordinate
  rw [hd, hs]
  show (if _ then _ else _) = _
  rw [if_neg (not_or.mpr ⟨hd0, rowMajor_ne_zero hprod hs⟩), getD_unravel hd hs]

/-! ## Strided kernels -/

section Strided
variable {inF outF : TensorFacts} {input : Bytes} {e : Elements}

/-- The offset of a coordinate of the box fits 64 bits. -/
theorem TensorFacts.offset_lt_u64 (f : TensorFacts) {coord : List Nat}
    (h : InBounds f.logicalShape coord) : f.offset coord < u64Size := by
  have hfit := f.element_fits h
  have hlen := f.byteLen_lt
  have hle := Nat.le_mul_of_pos_right (f.offset coord) f.width_pos
  omega

/-- The loop of a strided kernel: each position of the output is written at its own
offset, with an element inside its buffer. -/
def Addresses (outF : TensorFacts) (address : Nat → Result (Bytes × Nat × Nat)) : Prop :=
  ∀ i < outF.logicalShape.prod, ∃ source s,
    address i = .ok (source, s, outF.offset (unravel outF.logicalShape i)) ∧
      s * outF.width + outF.width ≤ source.length ∧ source.length < u64Size

/-- The inner loop finds the offsets of an input and an output coordinate. -/
theorem elementOffsets_offset {term : Nat → Result AxisTerm} {rank : Nat} {source target : List Nat}
    (hs : InBounds inF.logicalShape source) (ht : InBounds outF.logicalShape target)
    (hrank : inF.logicalShape.length = rank) (hrank' : outF.logicalShape.length = rank)
    (hterm : ∀ axis < rank, ∃ t, term axis = .ok t ∧
      t.sourceCoordinate * t.sourceStride = source.getD axis 0 * inF.storageStrides.getD axis 0 ∧
      t.targetCoordinate * t.targetStride = target.getD axis 0 * outF.storageStrides.getD axis 0) :
    elementOffsets rank term = .ok (inF.offset source, outF.offset target) := by
  have hf := inF.offset_lt_u64 hs
  have hg := outF.offset_lt_u64 ht
  rw [inF.offset_eq_sum hs.length_eq, hrank] at hf ⊢
  rw [outF.offset_eq_sum ht.length_eq, hrank'] at hg ⊢
  exact elementOffsets_eq hterm hf hg

/-- The copied element lies inside the input buffer. -/
theorem Holds.fits (hin : Holds inF input e) {coord : List Nat} (hc : InBounds inF.logicalShape coord)
    (hw : inF.width = outF.width) :
    inF.offset coord * outF.width + outF.width ≤ input.length ∧ input.length < u64Size := by
  rw [← hw, hin.length]
  exact ⟨inF.element_fits hc, inF.byteLen_lt⟩

/-- Position `linear` of `execute_storage_copy`. -/
def storageCopyAddress (inF outF : TensorFacts) (input : Bytes) (linear : Nat) :
    Result (Bytes × Nat × Nat) := do
  let shape := outF.logicalShape
  let offsets ← elementOffsets shape.length fun logicalAxis => do
    let coordinate ← logicalCoordinate linear logicalAxis shape (rowMajor shape)
    .ok ⟨coordinate, inF.storageStrides.getD logicalAxis 0,
      coordinate, outF.storageStrides.getD logicalAxis 0⟩
  .ok (input, offsets)

theorem storageCopyAddress_addresses (hin : Holds inF input e)
    (hshape : inF.logicalShape = outF.logicalShape) (hw : inF.width = outF.width) :
    Addresses outF (storageCopyAddress inF outF input) := by
  intro i hi
  have hc := unravel_inBounds hi
  have hs : InBounds inF.logicalShape (unravel outF.logicalShape i) := by rwa [hshape]
  refine ⟨input, inF.offset (unravel outF.logicalShape i), ?_, hin.fits hs hw⟩
  unfold storageCopyAddress
  dsimp only
  rw [elementOffsets_offset hs hc (by rw [hshape]) rfl fun axis ha => ?_]
  · rfl
  · rw [logicalCoordinate_eq (Nat.ne_zero_of_lt hi) ha]
    exact ⟨_, rfl, rfl, rfl⟩

theorem executeStorageCopy_succeeds (hin : Holds inF input e)
    (hshape : inF.logicalShape = outF.logicalShape) (hw : inF.width = outF.width)
    (hfit : TrailingFit outF.logicalShape) :
    Succeeds (executeStorageCopy inF outF input (List.replicate outF.byteLen 0) ⟨false⟩)
      fun _ => True := by
  refine Succeeds.step (validateViewLen_eq _ hin.length) ?_
  refine Succeeds.guard (not_not.mpr hshape) ?_
  refine Succeeds.step (dtypeWidth_eq _) ?_
  refine Succeeds.step ((contiguousStrides_iff outF.rank_lt).mpr hfit) ?_
  show Succeeds (copyElements outF.elementCount inF.width (storageCopyAddress inF outF input)
    _ _) _
  rw [hw]
  exact copyElements_succeeds (storageCopyAddress_addresses hin hshape hw)

/-- Position `linear` of `execute_slice_bytes`. -/
def sliceAddress (ranges : List AxisRange) (inF outF : TensorFacts) (input : Bytes)
    (linear : Nat) : Result (Bytes × Nat × Nat) := do
  let shape := outF.logicalShape
  let offsets ← elementOffsets ranges.length fun logicalAxis => do
    let outputCoordinate ← logicalCoordinate linear logicalAxis shape (rowMajor shape)
    let sourceCoordinate ← okOr
      (checkedAdd (ranges.getD logicalAxis ⟨0, 0⟩).start outputCoordinate)
      (.limit "slice source coordinate overflows u64")
    .ok ⟨sourceCoordinate, inF.storageStrides.getD logicalAxis 0,
      outputCoordinate, outF.storageStrides.getD logicalAxis 0⟩
  .ok (input, offsets)

theorem sliceAddress_addresses {ranges : List AxisRange} (hin : Holds inF input e)
    (hs : Sliced ranges inF.logicalShape outF.logicalShape) (hw : inF.width = outF.width) :
    Addresses outF (sliceAddress ranges inF outF input) := by
  intro i hi
  have hc := unravel_inBounds hi
  have hlen : outF.logicalShape.length = ranges.length := by rw [hs.outShape, List.length_map]
  have hsource : InBounds inF.logicalShape (List.zipWith (fun (range : AxisRange) c =>
      range.start + c) ranges (unravel outF.logicalShape i)) :=
    sliced_inBounds ⟨hs.length, rfl, hs.inside⟩ (hs.outShape ▸ hc)
  refine ⟨input, _, ?_, hin.fits hsource hw⟩
  unfold sliceAddress
  dsimp only
  rw [elementOffsets_offset hsource hc hs.length.symm hlen fun axis ha => ?_]
  · rfl
  · have hcoord : axis < (unravel outF.logicalShape i).length := by rwa [hc.length_eq, hlen]
    have hget : (List.zipWith (fun (range : AxisRange) c => range.start + c) ranges
        (unravel outF.logicalShape i)).getD axis 0 =
        (ranges.getD axis ⟨0, 0⟩).start + (unravel outF.logicalShape i).getD axis 0 := by
      simp [List.getElem?_zipWith, List.getElem?_eq_getElem ha, List.getElem?_eq_getElem hcoord]
    have haxis : axis < inF.logicalShape.length := by rwa [← hs.length]
    have hlt := inF.coordinate_lt hsource haxis
    rw [hget] at hlt ⊢
    rw [logicalCoordinate_eq (Nat.ne_zero_of_lt hi) (by rw [hlen]; exact ha)]
    show ∃ t, (okOr _ _ >>= fun c => Except.ok (AxisTerm.mk c _ _ _)) = .ok t ∧ _
    rw [okOr_add _ hlt]
    exact ⟨_, rfl, rfl, rfl⟩

theorem executeSliceBytes_succeeds {ranges : List AxisRange} (hin : Holds inF input e)
    (hs : Sliced ranges inF.logicalShape outF.logicalShape) (hw : inF.width = outF.width)
    (hfit : TrailingFit outF.logicalShape) :
    Succeeds (executeSliceBytes ranges inF input outF (List.replicate outF.byteLen 0) ⟨false⟩)
      fun _ => True := by
  refine Succeeds.step (validateViewLen_eq _ hin.length) ?_
  refine Succeeds.guard (not_not.mpr hs.length) ?_
  refine Succeeds.step (dtypeWidth_eq _) ?_
  refine Succeeds.step ((contiguousStrides_iff outF.rank_lt).mpr hfit) ?_
  show Succeeds (copyElements outF.elementCount inF.width (sliceAddress ranges inF outF input)
    _ _) _
  rw [hw]
  exact copyElements_succeeds (sliceAddress_addresses hin hs hw)

/-- Position `linear` of a logical `execute_permute_bytes`. -/
def permuteAddress (order : List Nat) (inF outF : TensorFacts) (input : Bytes) (linear : Nat) :
    Result (Bytes × Nat × Nat) := do
  let shape := outF.logicalShape
  let offsets ← elementOffsets order.length fun outputAxis => do
    let coordinate ← logicalCoordinate linear outputAxis shape (rowMajor shape)
    .ok ⟨coordinate, inF.storageStrides.getD (order.getD outputAxis 0) 0,
      coordinate, outF.storageStrides.getD outputAxis 0⟩
  .ok (input, offsets)

theorem permuteAddress_addresses {order : List Nat} (hin : Holds inF input e)
    (hp : validatePermutation order = .ok ()) (hlen : order.length = inF.logicalShape.length)
    (hshape : outF.logicalShape = permuteShape order inF.logicalShape)
    (hw : inF.width = outF.width) : Addresses outF (permuteAddress order inF outF input) := by
  obtain ⟨hn, hp⟩ := validatePermutation_ok hp
  intro i hi
  have hc := unravel_inBounds hi
  have hlo : outF.logicalShape.length = order.length := by
    rw [hshape, permuteShape, List.length_map]
  have hbox : InBounds (permuteShape order inF.logicalShape) (unravel outF.logicalShape i) := by
    rw [← hshape]
    exact hc
  have hsource := permute_inBounds hp hlen hbox
  have hs := inF.offset_lt_u64 hsource
  have ht := outF.offset_lt_u64 hc
  rw [inF.offset_permuted hn hp hlen] at hs
  rw [outF.offset_eq_sum hc.length_eq, hlo] at ht
  refine ⟨input, _, ?_, hin.fits hsource hw⟩
  unfold permuteAddress
  dsimp only
  rw [elementOffsets_eq (fun axis ha => ?_) hs ht, inF.offset_permuted hn hp hlen,
    outF.offset_eq_sum hc.length_eq, hlo]
  · rfl
  · rw [logicalCoordinate_eq (Nat.ne_zero_of_lt hi) (by rw [hlo]; exact ha)]
    exact ⟨_, rfl, rfl, rfl⟩

theorem executePermuteBytes_succeeds {permute : Permute} (hin : Holds inF input e)
    (hp : validatePermutation permute.order = .ok ())
    (hlen : permute.order.length = inF.logicalShape.length) (hmode : permute.mode = .logical)
    (hshape : outF.logicalShape = permuteShape permute.order inF.logicalShape)
    (hw : inF.width = outF.width) (hfit : TrailingFit outF.logicalShape) :
    Succeeds (executePermuteBytes permute inF outF input (List.replicate outF.byteLen 0) ⟨false⟩)
      fun _ => True := by
  rw [executePermuteBytes, hmode]
  refine Succeeds.step (validateViewLen_eq _ hin.length) ?_
  refine Succeeds.step (dtypeWidth_eq _) ?_
  refine Succeeds.step ((contiguousStrides_iff outF.rank_lt).mpr hfit) ?_
  refine Succeeds.step (x := permutationIndices permute.order) rfl ?_
  show Succeeds (copyElements outF.elementCount inF.width
    (permuteAddress permute.order inF outF input) _ _) _
  rw [hw]
  exact copyElements_succeeds (permuteAddress_addresses hin hp hlen hshape hw)

end Strided

/-! ## Concatenation -/

section Concatenation
variable {axis : Nat} {ins : List (TensorFacts × Elements)} {views : List Bytes}
  {outF : TensorFacts}

/-- The starts of the inputs, and the owner of every coordinate between `n` and their end. -/
theorem concatStarts_succeeds : ∀ {facts : List TensorFacts} {n : Nat},
    n + (facts.map fun f => f.logicalShape.getD axis 0).sum < u64Size →
    Succeeds (concatStarts axis n facts) fun starts =>
      ∀ k, n ≤ k → k < n + (facts.map fun f => f.logicalShape.getD axis 0).sum →
        ∃ idx, (starts.zip facts).findIdx? (fun x =>
          decide (k < saturatingAdd x.1 (x.2.logicalShape.getD axis 0))) = some idx ∧
          idx < facts.length
  | [], n, _ => by
    refine Succeeds.of_ok fun k hle hlt => ?_
    rw [List.map_nil, List.sum_nil] at hlt
    omega
  | f :: facts, n, h => by
    rw [List.map_cons, List.sum_cons] at h
    have hnext : n + f.logicalShape.getD axis 0 < u64Size := by omega
    refine Succeeds.step (okOr_add _ hnext) ?_
    refine (@concatStarts_succeeds facts _ (by omega)).bind fun starts howner => ?_
    refine Succeeds.of_ok fun k hle hlt => ?_
    have hsat : saturatingAdd n (f.logicalShape.getD axis 0) = n + f.logicalShape.getD axis 0 := by
      unfold saturatingAdd
      omega
    rw [List.zip_cons_cons, List.findIdx?_cons]
    dsimp only
    rw [hsat]
    by_cases hown : k < n + f.logicalShape.getD axis 0
    · rw [if_pos (decide_eq_true hown)]
      exact ⟨0, rfl, Nat.succ_pos _⟩
    · rw [if_neg (by simpa using hown)]
      rw [List.map_cons, List.sum_cons] at hlt
      obtain ⟨idx, hidx, hbound⟩ := howner k (by omega) (by omega)
      rw [hidx]
      exact ⟨idx + 1, rfl, Nat.succ_lt_succ hbound⟩

theorem validateConcatInputs_eq : ∀ {ins : List (TensorFacts × Elements)} {views : List Bytes},
    HoldsAll ins views → validateConcatInputs (ins.map Prod.fst) views = .ok ()
  | [], [], _ => rfl
  | x :: ins, view :: views, .cons hx h => by
    rw [List.map_cons, validateConcatInputs, validateViewLen_eq _ hx.length]
    exact validateConcatInputs_eq h

theorem validateAxis_eq {rank : Nat} (h : axis < rank) : validateAxis axis rank = .ok axis := by
  rw [validateAxis, if_neg (Nat.not_le.mpr h)]

theorem HoldsAll.length (h : HoldsAll ins views) : (ins.map Prod.fst).length = views.length := by
  rw [List.length_map, h.length_eq]

/-- Position `linear` of `execute_concat_bytes`, for inputs that start at `starts`. -/
def concatAddress (axis : Nat) (inputFacts : List TensorFacts) (outF : TensorFacts)
    (inputs : List Bytes) (starts : List Nat) (linear : Nat) : Result (Bytes × Nat × Nat) := do
  let shape := outF.logicalShape
  let axisCoordinate ← logicalCoordinate linear axis shape (rowMajor shape)
  let index ← okOr ((starts.zip inputFacts).findIdx? fun x =>
      axisCoordinate < saturatingAdd x.1 (x.2.logicalShape.getD axis 0))
    (.integrity "concatenation coordinate has no source input")
  let input ← okOr inputFacts[index]? (.integrity "concatenation coordinate has no source input")
  let offsets ← elementOffsets shape.length fun logicalAxis => do
    let coordinate ← logicalCoordinate linear logicalAxis shape (rowMajor shape)
    let coordinate ← concatLocal axis logicalAxis coordinate (starts.getD index 0)
    let outputCoordinate ← logicalCoordinate linear logicalAxis shape (rowMajor shape)
    .ok ⟨coordinate, input.storageStrides.getD logicalAxis 0,
      outputCoordinate, outF.storageStrides.getD logicalAxis 0⟩
  .ok (inputs.getD index [], offsets)

theorem concatAddress_addresses (hc : Concatenated axis (ins.map Prod.fst) outF)
    (hin : HoldsAll ins views) {starts : List Nat}
    (hstarts : concatStarts axis 0 (ins.map Prod.fst) = .ok starts)
    (hsum : ((ins.map Prod.fst).map fun f => f.logicalShape.getD axis 0).sum < u64Size) :
    Addresses outF (concatAddress axis (ins.map Prod.fst) outF views starts) := by
  obtain ⟨starts', hstarts', howner⟩ := @concatStarts_succeeds axis _ 0
    (by rwa [Nat.zero_add])
  obtain rfl := Except.ok.inj (hstarts.symm.trans hstarts')
  intro i hi
  have hb := unravel_inBounds hi
  have hax : axis < (unravel outF.logicalShape i).length := by rw [hb.length_eq]; exact hc.axisLt
  have hk : (unravel outF.logicalShape i).getD axis 0 <
      0 + ((ins.map Prod.fst).map fun f => f.logicalShape.getD axis 0).sum := by
    rw [Nat.zero_add]
    exact (inBounds_iff.mp hb).2 axis _ hc.axisLength
  obtain ⟨idx, hidx, hbound⟩ := howner _ (Nat.zero_le _) hk
  obtain ⟨f, e, hins, hle, hdim, _⟩ := owner_ok hax hstarts hidx (Nat.zero_le _)
  have hf : (ins.map Prod.fst)[idx]? = some f := by rw [List.getElem?_map, hins]; rfl
  have hmem := List.mem_of_getElem? hf
  obtain ⟨bytes, hview, hholds⟩ := hin.get hins
  have hsource := set_axis_inBounds hc hmem hb hdim
  refine ⟨bytes, _, ?_, hholds.fits hsource (hc.width f hmem)⟩
  unfold concatAddress
  dsimp only
  rw [logicalCoordinate_eq (Nat.ne_zero_of_lt hi) hc.axisLt]
  show (okOr _ _ >>= _) = _
  rw [hidx]
  show (okOr (ins.map Prod.fst)[idx]? _ >>= _) = _
  rw [hf]
  show (elementOffsets _ _ >>= _) = _
  rw [elementOffsets_offset hsource hb (hc.rank f hmem) rfl fun a ha => ?_]
  · show Except.ok (views.getD idx [], _) = _
    rw [List.getD_eq_getElem?_getD, hview]
    rfl
  · rw [logicalCoordinate_eq (Nat.ne_zero_of_lt hi) ha]
    have hlocal : concatLocal axis a ((unravel outF.logicalShape i).getD a 0)
        (starts.getD idx 0) = .ok (((unravel outF.logicalShape i).set axis
          ((unravel outF.logicalShape i).getD axis 0 - starts.getD idx 0)).getD a 0) := by
      unfold concatLocal
      by_cases he : a = axis
      · subst he
        rw [if_pos rfl, okOr_sub _ hle, List.getD_eq_getElem?_getD (l := List.set _ _ _),
          List.getElem?_set_self hax]
        rfl
      · rw [if_neg he]
        simp [List.getElem?_set_ne (Ne.symm he)]
    show ∃ t, (concatLocal _ _ _ _ >>= _) = .ok t ∧ _
    rw [hlocal]
    exact ⟨_, rfl, rfl, rfl⟩

theorem executeConcatBytes_succeeds (hc : Concatenated axis (ins.map Prod.fst) outF)
    (hin : HoldsAll ins views) (hfit : TrailingFit outF.logicalShape)
    (hsum : ((ins.map Prod.fst).map fun f => f.logicalShape.getD axis 0).sum < u64Size) :
    Succeeds (executeConcatBytes axis (ins.map Prod.fst) outF views (List.replicate outF.byteLen 0)
      ⟨false⟩) fun _ => True := by
  refine Succeeds.guard (not_not.mpr hin.length) ?_
  refine Succeeds.step (validateConcatInputs_eq hin) ?_
  refine Succeeds.step (validateAxis_eq hc.axisLt) ?_
  refine Succeeds.step (dtypeWidth_eq _) ?_
  refine Succeeds.step ((contiguousStrides_iff outF.rank_lt).mpr hfit) ?_
  obtain ⟨starts, hstarts, _⟩ := concatStarts_succeeds (n := 0) (by rwa [Nat.zero_add])
  refine Succeeds.step hstarts ?_
  show Succeeds (copyElements outF.elementCount outF.width
    (concatAddress axis (ins.map Prod.fst) outF views starts) _ _) _
  exact copyElements_succeeds (concatAddress_addresses hc hin hstarts hsum)

/-! ### The contiguous kernel -/

theorem appendTiles_succeeds {source : Bytes} {off len : Nat} (hfit : off + len ≤ source.length)
    (hsize : source.length < u64Size) : ∀ {fuel copied : Nat} {target : Bytes}, copied ≤ len →
    Succeeds (appendTiles source off len ⟨false⟩ fuel copied target) fun _ => True
  | 0, copied, target, _ => Succeeds.of_ok trivial
  | fuel + 1, copied, target, hle => by
    rw [appendTiles]
    split
    · next hlt =>
      have hmin := Nat.min_le_right tileBytes (len - copied)
      refine Succeeds.step rfl ?_
      dsimp only
      refine Succeeds.step (okOr_add _ (by omega)) ?_
      refine Succeeds.step (checkedByteRange_eq (by omega) hsize) ?_
      refine Succeeds.step (okOr_add _ (by omega)) ?_
      exact appendTiles_succeeds hfit hsize (by omega)
    · exact Succeeds.of_ok trivial

theorem appendByteRangeTiled_succeeds {source target : Bytes} {off len : Nat}
    (hfit : off + len ≤ source.length) (hsize : source.length < u64Size) :
    Succeeds (appendByteRangeTiled source off len target ⟨false⟩) fun r =>
      r.length = target.length + len := by
  obtain ⟨r, hr, _⟩ := @appendTiles_succeeds source off len hfit hsize (len / tileBytes + 1) 0
    target (Nat.zero_le _)
  refine Succeeds.of_eq hr ?_
  rw [appendByteRangeTiled_ok hr, List.length_append, length_slice hfit]

/-- The bytes that one outer index appends. -/
def rowBytes (axis inner : Nat) (facts : List TensorFacts) : Nat :=
  (facts.map fun f => f.logicalShape.getD axis 0 * inner).sum

theorem concatChunks_succeeds {inner o outer : Nat} (ho : o < outer) :
    ∀ {pairs : List (TensorFacts × Bytes)} {st : Bytes × Nat},
    (∀ x ∈ pairs, outer * (x.1.logicalShape.getD axis 0 * inner) = x.2.length ∧
      x.2.length < u64Size) →
    st.2 = st.1.length → st.1.length + rowBytes axis inner (pairs.map Prod.fst) < u64Size →
    Succeeds (concatChunks axis inner o ⟨false⟩ pairs st) fun r => r.2 = r.1.length ∧
      r.1.length = st.1.length + rowBytes axis inner (pairs.map Prod.fst)
  | [], st, _, hst, _ => Succeeds.of_ok ⟨hst, rfl⟩
  | (f, input) :: pairs, (output, offset), hall, hst, hsize => by
    obtain ⟨hlen, hlt⟩ := hall _ (List.mem_cons_self ..)
    dsimp only at hlen hlt hst
    have hrow : rowBytes axis inner (((f, input) :: pairs).map Prod.fst) =
        f.logicalShape.getD axis 0 * inner + rowBytes axis inner (pairs.map Prod.fst) := by
      rw [rowBytes, List.map_cons, List.map_cons, List.sum_cons]
      rfl
    rw [hrow] at hsize ⊢
    replace hsize : output.length + (f.logicalShape.getD axis 0 * inner +
      rowBytes axis inner (pairs.map Prod.fst)) < u64Size := hsize
    have hnext : (o + 1) * (f.logicalShape.getD axis 0 * inner) ≤ input.length := by
      rw [← hlen]
      exact Nat.mul_le_mul_right _ ho
    rw [Nat.succ_mul] at hnext
    rw [concatChunks]
    refine Succeeds.step (okOr_mul _ (by omega)) ?_
    refine Succeeds.step (okOr_mul _ (by omega)) ?_
    refine (appendByteRangeTiled_succeeds hnext hlt).bind fun output' houtput => ?_
    refine Succeeds.step (okOr_add _ (by omega)) ?_
    have hrest : Succeeds (concatChunks axis inner o ⟨false⟩ pairs
        (output', offset + f.logicalShape.getD axis 0 * inner)) _ :=
      concatChunks_succeeds ho (fun x hx => hall x (List.mem_cons_of_mem _ hx))
        (by rw [hst, houtput]) (by rw [houtput]; omega)
    refine hrest.mono fun r hr => ⟨hr.1, ?_⟩
    rw [hr.2, houtput, Nat.add_assoc]

/-- The products the contiguous kernel forms from the axes after the
concatenated one. -/
def InnerFit (axis : Nat) (f : TensorFacts) : Prop :=
  LeadingFit (f.logicalShape.drop (axis + 1)) ∧
    (f.logicalShape.drop (axis + 1)).prod * f.width < u64Size

theorem rowBytes_eq (axis inner : Nat) : ∀ facts : List TensorFacts,
    rowBytes axis inner facts = (facts.map fun f => f.logicalShape.getD axis 0).sum * inner
  | [] => by rw [rowBytes, List.map_nil, List.map_nil, List.sum_nil, Nat.zero_mul]
  | f :: facts => by
    rw [rowBytes, List.map_cons, List.map_cons, List.sum_cons, List.sum_cons, Nat.add_mul,
      ← rowBytes_eq axis inner facts]
    rfl

/-- The shape of a canonical tensor, cut at one axis. -/
theorem byteLen_split {f : TensorFacts} (hcont : f.isCanonicalContiguous = true)
    (hax : axis < f.logicalShape.length) :
    f.byteLen = (f.logicalShape.take axis).prod * (f.logicalShape.getD axis 0 *
      ((f.logicalShape.drop (axis + 1)).prod * f.width)) := by
  obtain ⟨hst, _, _⟩ := TensorFacts.isCanonicalContiguous_iff hcont
  have hsplit : f.logicalShape.prod = (f.logicalShape.take axis).prod *
      (f.logicalShape.getD axis 0 * (f.logicalShape.drop (axis + 1)).prod) := by
    conv_lhs => rw [← List.take_append_drop axis f.logicalShape, List.drop_eq_getElem_cons hax]
    rw [List.prod_append, List.prod_cons, List.getD_eq_getElem?_getD, List.getElem?_eq_getElem hax]
    rfl
  rw [f.spec.byteLen, hst, hsplit]
  simp only [Nat.mul_assoc]

theorem holdsAll_zip {P : TensorFacts × Bytes → Prop} (hin : HoldsAll ins views)
    (h : ∀ x ∈ ins, ∀ b, Holds x.1 b x.2 → P (x.1, b)) :
    ∀ y ∈ (ins.map Prod.fst).zip views, P y := by
  induction hin with
  | nil => exact fun y hy => (List.not_mem_nil hy).elim
  | @cons x b ins views hx _ ih =>
    intro y hy
    rw [List.map_cons, List.zip_cons_cons] at hy
    rcases List.mem_cons.mp hy with rfl | hy
    · exact h x (List.mem_cons_self ..) b hx
    · exact ih (fun z hz => h z (List.mem_cons_of_mem _ hz)) y hy

theorem buildContiguousConcat_succeeds (hc : Concatenated axis (ins.map Prod.fst) outF)
    (hin : HoldsAll ins views)
    (hcont : ∀ f ∈ ins.map Prod.fst, f.isCanonicalContiguous = true)
    (hout : outF.isCanonicalContiguous = true) {first : TensorFacts}
    (hfirst : (ins.map Prod.fst)[0]? = some first) (hfit : InnerFit axis first) :
    Succeeds (buildContiguousConcat axis (ins.map Prod.fst) outF views ⟨false⟩) fun _ => True := by
  have hmem := List.mem_of_getElem? hfirst
  obtain ⟨hpre, hpost⟩ := hc.split_eq hmem
  have hwidth := hc.width first hmem
  obtain ⟨hleading, hinner⟩ := hfit
  refine Succeeds.step rfl ?_
  refine Succeeds.guard (not_not.mpr hin.length) ?_
  refine Succeeds.step (validateConcatInputs_eq hin) ?_
  refine Succeeds.step (validateAxis_eq hc.axisLt) ?_
  refine Succeeds.step (x := validateHostLen outF.byteLen) rfl ?_
  refine Succeeds.step (okOr_eq_ok.mpr hfirst) ?_
  refine Succeeds.step (checkedElementCount_iff.mpr (first.leadingFit.take axis)) ?_
  refine Succeeds.step (checkedElementCount_iff.mpr hleading) ?_
  refine Succeeds.step (dtypeWidth_eq _) ?_
  refine Succeeds.step (okOr_mul _ hinner) ?_
  show Succeeds ((List.range (first.logicalShape.take axis).prod).foldlM _ _ >>= _) _
  have hinnerBytes : (first.logicalShape.drop (axis + 1)).prod *
      (first.representation.dtype.bits / 8) =
      (outF.logicalShape.drop (axis + 1)).prod * outF.width := by
    rw [hpost, ← hwidth]
    rfl
  rw [hpre, hinnerBytes]
  generalize hib : (outF.logicalShape.drop (axis + 1)).prod * outF.width = innerBytes
  -- `outer` rows of the inputs make up the output
  have htotal : outF.byteLen = (outF.logicalShape.take axis).prod *
      rowBytes axis innerBytes (ins.map Prod.fst) := by
    have haxis : outF.logicalShape.getD axis 0 =
        ((ins.map Prod.fst).map fun f => f.logicalShape.getD axis 0).sum := by
      rw [List.getD_eq_getElem?_getD, hc.axisLength]
      rfl
    rw [byteLen_split hout hc.axisLt, hib, rowBytes_eq, haxis]
  have hinputs : ∀ x ∈ (ins.map Prod.fst).zip views,
      (outF.logicalShape.take axis).prod * (x.1.logicalShape.getD axis 0 * innerBytes) =
        x.2.length ∧ x.2.length < u64Size := by
    refine holdsAll_zip hin fun x hx b hb => ?_
    have hxm : x.1 ∈ ins.map Prod.fst := List.mem_map.mpr ⟨x, hx, rfl⟩
    obtain ⟨hxpre, hxpost⟩ := hc.split_eq hxm
    refine ⟨?_, by rw [hb.length]; exact x.1.byteLen_lt⟩
    rw [hb.length, byteLen_split (hcont _ hxm) (by rw [hc.rank _ hxm]; exact hc.axisLt), hxpre,
      hxpost, hc.width _ hxm, hib]
  have hfst : ((ins.map Prod.fst).zip views).map Prod.fst = ins.map Prod.fst :=
    List.map_fst_zip (Nat.le_of_eq hin.length)
  have hrun : Succeeds ((List.range (outF.logicalShape.take axis).prod).foldlM
      (fun state outerIndex => do
        CancellationToken.check ⟨false⟩
        concatChunks axis innerBytes outerIndex ⟨false⟩ ((ins.map Prod.fst).zip views) state)
      (([], 0) : Bytes × Nat)) fun r => r.2 = r.1.length ∧ r.1.length = outF.byteLen := by
    refine (Succeeds.foldlM (fun k (st : Bytes × Nat) => st.2 = st.1.length ∧
      st.1.length = k * rowBytes axis innerBytes (ins.map Prod.fst)) ⟨rfl, by simp⟩ ?_).mono
      fun r hr => ⟨hr.1, by rw [hr.2, List.length_range, htotal]⟩
    intro k o st hk hst
    obtain ⟨hlt, hk⟩ := List.getElem?_eq_some_iff.mp hk
    rw [List.getElem_range] at hk
    subst hk
    rw [List.length_range] at hlt
    have hrow : (k + 1) * rowBytes axis innerBytes (ins.map Prod.fst) ≤ outF.byteLen := by
      rw [htotal]
      exact Nat.mul_le_mul_right _ hlt
    have hbytes := outF.byteLen_lt
    rw [Nat.succ_mul] at hrow
    refine Succeeds.step rfl ?_
    refine (concatChunks_succeeds hlt hinputs hst.1 (by rw [hfst, hst.2]; omega)).mono
      fun r hr => ⟨hr.1, ?_⟩
    rw [hr.2, hfst, hst.2, Nat.succ_mul]
  refine hrun.bind fun r hr => ?_
  refine Succeeds.guard ?_ (Succeeds.step rfl (Succeeds.of_ok trivial))
  rw [not_or, not_not, not_not]
  exact hr

/-- The contiguous kernel returns only when its inner products fit. -/
theorem innerFit_of_ok {out : Bytes} {first : TensorFacts}
    (hfirst : (ins.map Prod.fst)[0]? = some first)
    (h : buildContiguousConcat axis (ins.map Prod.fst) outF views ⟨false⟩ = .ok out) :
    InnerFit axis first := by
  obtain ⟨_, _, h⟩ := bind_ok h
  obtain ⟨_, h⟩ := unless_error_ok h
  obtain ⟨_, _, h⟩ := bind_ok h
  obtain ⟨axis', haxis, h⟩ := bind_ok h
  obtain rfl : axis = axis' := Except.ok.inj (unless_error_ok haxis).2
  obtain ⟨_, _, h⟩ := bind_ok h
  obtain ⟨first', hfirst', h⟩ := bind_ok h
  obtain rfl := Option.some.inj (hfirst.symm.trans (okOr_eq_ok.mp hfirst'))
  obtain ⟨_, _, h⟩ := bind_ok h
  obtain ⟨inner, hinner, h⟩ := bind_ok h
  obtain ⟨width, hwidth, h⟩ := bind_ok h
  obtain ⟨innerBytes, hib, _⟩ := bind_ok h
  rw [dtypeWidth_eq] at hwidth
  obtain ⟨hlt, _⟩ := checkedMul_eq_some.mp (okOr_eq_ok.mp hib)
  refine ⟨checkedElementCount_ok hinner, ?_⟩
  rw [← elementProduct_ok hinner]
  rw [← Except.ok.inj hwidth] at hlt
  exact hlt

end Concatenation

end ModelWeights.Graph
