import ModelWeights.Graph.Layout

/-! # What every kernel computes

The meaning of each structural operation on contents, and the theorem that the
kernels which implement it, strided or specialised, lay that meaning out. -/
namespace ModelWeights.Graph
open Strided Buffer

/-! ## Meanings -/

/-- The input that owns the axis coordinate provides the element. -/
def concatElements (axis : Nat) : List (TensorFacts × Elements) → Elements
  | [], _ => []
  | (f, e) :: rest, coord =>
    if coord.getD axis 0 < f.logicalShape.getD axis 0 then e coord
    else concatElements axis rest
      (coord.set axis (coord.getD axis 0 - f.logicalShape.getD axis 0))

/-- Output axis `j` runs along input axis `order[j]`. -/
def permuteElements (order : List Nat) (e : Elements) : Elements :=
  fun coord => e ((List.range order.length).map fun a => coord.getD (order.idxOf a) 0)

def sliceElements (ranges : List AxisRange) (e : Elements) : Elements :=
  fun coord => e (List.zipWith (fun range c => range.start + c) ranges coord)

def splitElements (axis : Nat) (range : AxisRange) (e : Elements) : Elements :=
  fun coord => e (coord.set axis (range.start + coord.getD axis 0))

/-- The element with the same row-major number. -/
def reshapeElements (shape outputShape : List Nat) (e : Elements) : Elements :=
  fun coord => e (unravel shape (dot (rowMajor outputShape) coord))

/-! ## Storage copies -/

section Strided
variable {inF outF : TensorFacts} {input out : Bytes} {e : Elements}
  {cancellation : CancellationToken}

theorem allocateTensor_ok (h : allocateTensor outF cancellation = .ok out) :
    out = List.replicate outF.byteLen 0 := by
  obtain ⟨_, _, h⟩ := bind_ok h
  obtain ⟨n, hn, h⟩ := bind_ok h
  rw [← Except.ok.inj h, ← Except.ok.inj hn]

theorem executeStorageCopy_layout (hin : Holds inF input e) (hw : inF.width = outF.width)
    (h : executeStorageCopy inF outF input (List.replicate outF.byteLen 0) cancellation =
      .ok out) : out = outF.layout e := by
  obtain ⟨_, _, h⟩ := bind_ok h
  obtain ⟨hshape, h⟩ := unless_error_ok h
  have hshape : inF.logicalShape = outF.logicalShape := by simpa using hshape
  obtain ⟨width, hwidth, h⟩ := bind_ok h
  obtain ⟨rows, hrows, h⟩ := bind_ok h
  rw [dtypeWidth_eq] at hwidth
  refine copyElements_layout ((Except.ok.inj hwidth).symm.trans hw) ?_ h
  intro i r hi hr
  obtain ⟨offsets, ho, hr⟩ := bind_ok hr
  have hc := unravel_inBounds hi
  have ho := elementOffsets_ok
    (f := fun a => (unravel outF.logicalShape i).getD a 0 * inF.storageStrides.getD a 0)
    (g := fun a => (unravel outF.logicalShape i).getD a 0 * outF.storageStrides.getD a 0) ?_ ho
  · rw [← Except.ok.inj hr, ho]
    refine ⟨(outF.offset_eq_sum (by simp)).symm, ?_⟩
    have := hin.read (unravel outF.logicalShape i) (by rw [hshape]; exact hc)
    rw [← this, TensorFacts.element, inF.offset_eq_sum (by simp [hshape]), hw, hshape]
  intro axis t _ ht
  obtain ⟨c, hcoord, ht⟩ := bind_ok ht
  rw [← Except.ok.inj ht, logicalCoordinate_ok (contiguousStrides_ok hrows) hcoord]
  exact ⟨rfl, rfl⟩

/-! ## Slices -/

/-- The ranges of a slice lie inside the input and give the output shape. -/
structure Sliced (ranges : List AxisRange) (shape outShape : List Nat) : Prop where
  length : ranges.length = shape.length
  outShape : outShape = ranges.map AxisRange.len
  inside : ∀ (i : Nat) (range : AxisRange), ranges[i]? = some range →
    range.start ≤ range.stop ∧ ∀ d, shape[i]? = some d → range.stop ≤ d

theorem sliced_inBounds : ∀ {ranges : List AxisRange} {shape coord : List Nat},
    Sliced ranges shape (ranges.map AxisRange.len) → InBounds (ranges.map AxisRange.len) coord →
      InBounds shape (List.zipWith (fun range c => range.start + c) ranges coord)
  | [], shape, coord, hs, hb => by
    have : shape = [] := List.length_eq_zero_iff.mp hs.length.symm
    subst this
    simp [InBounds]
  | range :: ranges, [], _, hs, _ => by
    have := hs.length
    simp at this
  | range :: ranges, d :: shape, [], _, hb => by simp [InBounds] at hb
  | range :: ranges, d :: shape, c :: coord, hs, hb => by
    have h0 := hs.inside 0 range rfl
    have hd := h0.2 d rfl
    obtain ⟨hc, hrest⟩ := hb
    refine ⟨?_, sliced_inBounds ⟨by simpa using hs.length, rfl, ?_⟩ hrest⟩
    · simp only [AxisRange.len] at hc
      show range.start + c < d
      omega
    · intro i r hi
      exact hs.inside (i + 1) r (by simpa using hi)

theorem executeSliceBytes_layout {ranges : List AxisRange} (hin : Holds inF input e)
    (hs : Sliced ranges inF.logicalShape outF.logicalShape) (hw : inF.width = outF.width)
    (h : executeSliceBytes ranges inF input outF (List.replicate outF.byteLen 0) cancellation =
      .ok out) : out = outF.layout (sliceElements ranges e) := by
  obtain ⟨_, _, h⟩ := bind_ok h
  obtain ⟨_, h⟩ := unless_error_ok h
  obtain ⟨width, hwidth, h⟩ := bind_ok h
  obtain ⟨rows, hrows, h⟩ := bind_ok h
  rw [dtypeWidth_eq] at hwidth
  refine copyElements_layout ((Except.ok.inj hwidth).symm.trans hw) ?_ h
  intro i r hi hr
  obtain ⟨offsets, ho, hr⟩ := bind_ok hr
  have hc := unravel_inBounds hi
  have hlen : outF.logicalShape.length = ranges.length := by rw [hs.outShape]; simp
  let coord := unravel outF.logicalShape i
  have hcl : coord.length = ranges.length := by rw [← hlen]; simp [coord]
  let source := List.zipWith (fun (range : AxisRange) c => range.start + c) ranges coord
  have hsl : source.length = inF.logicalShape.length := by
    rw [← hs.length]; simp [source, hcl]
  have ho := elementOffsets_ok
    (f := fun a => source.getD a 0 * inF.storageStrides.getD a 0)
    (g := fun a => coord.getD a 0 * outF.storageStrides.getD a 0) ?_ ho
  · rw [← Except.ok.inj hr, ho]
    refine ⟨by rw [outF.offset_eq_sum (by simp), hlen], ?_⟩
    have hsrc : InBounds inF.logicalShape source :=
      sliced_inBounds ⟨hs.length, rfl, hs.inside⟩ (hs.outShape ▸ hc)
    rw [sliceElements, ← hin.read source hsrc, TensorFacts.element, inF.offset_eq_sum hsl, hw,
      hs.length]
  intro axis t hax ht
  obtain ⟨c, hcoord, ht⟩ := bind_ok ht
  obtain ⟨s, hstart, ht⟩ := bind_ok ht
  have hstart := (checkedAdd_eq_some.mp (okOr_eq_ok.mp hstart)).2
  have hcoord := logicalCoordinate_ok (contiguousStrides_ok hrows) hcoord
  rw [← Except.ok.inj ht, hstart, hcoord]
  refine ⟨?_, rfl⟩
  simp [source, List.getElem?_zipWith, List.getElem?_eq_getElem hax,
    List.getElem?_eq_getElem (show axis < coord.length by omega), coord]

/-! ## Logical permutations -/

theorem permutationLoop_ok : ∀ {order : List Nat} {seen : List Bool},
    permutationLoop order seen = .ok () →
      order.Nodup ∧ ∀ a ∈ order, seen[a]? = some false
  | [], _, _ => by simp
  | axis :: rest, seen, h => by
    rw [permutationLoop] at h
    split at h
    · cases h
    · cases h
    · next hfree =>
      obtain ⟨hn, hall⟩ := permutationLoop_ok h
      have hlt := (List.getElem?_eq_some_iff.mp hfree).1
      refine ⟨List.nodup_cons.mpr ⟨fun hm => ?_, hn⟩, ?_⟩
      · have := hall axis hm
        simp [hlt] at this
      · intro a ha
        rcases List.mem_cons.mp ha with rfl | ha
        · exact hfree
        · have := hall a ha
          by_cases he : axis = a
          · subst he; exact hfree
          · rwa [List.getElem?_set_ne he] at this

/-- A validated order is a permutation of its axes. -/
theorem validatePermutation_ok {order : List Nat} (h : validatePermutation order = .ok ()) :
    order.Nodup ∧ order.Perm (List.range order.length) := by
  obtain ⟨_, _, h⟩ := bind_ok h
  obtain ⟨hn, hall⟩ := permutationLoop_ok h
  refine ⟨hn, (List.subperm_of_subset hn ?_).perm_of_length_le (by simp)⟩
  intro a ha
  have := (List.getElem?_eq_some_iff.mp (hall a ha)).1
  simpa using this

theorem permute_inBounds {order shape coord : List Nat}
    (hp : order.Perm (List.range order.length)) (hlen : order.length = shape.length)
    (hc : InBounds (permuteShape order shape) coord) :
    InBounds shape ((List.range order.length).map fun a => coord.getD (order.idxOf a) 0) := by
  rw [inBounds_iff] at hc ⊢
  refine ⟨by simp [hlen], ?_⟩
  intro a d hd
  have ha : a < order.length := by rw [hlen]; exact (List.getElem?_eq_some_iff.mp hd).1
  have hm : a ∈ order := hp.mem_iff.mpr (List.mem_range.mpr ha)
  have hi := List.idxOf_lt_length_of_mem hm
  have := hc.2 (order.idxOf a) d (by simp [permuteShape, List.getElem?_eq_getElem hi, hd])
  simpa [List.getElem?_range ha] using this

/-- The kernel sums along the output axes, the offset along the input axes. -/
theorem TensorFacts.offset_permuted (f : TensorFacts) {order coord : List Nat} (hn : order.Nodup)
    (hp : order.Perm (List.range order.length)) (hlen : order.length = f.logicalShape.length) :
    f.offset ((List.range order.length).map fun a => coord.getD (order.idxOf a) 0) =
      ((List.range order.length).map fun j =>
        coord.getD j 0 * f.storageStrides.getD (order.getD j 0) 0).sum := by
  rw [f.offset_eq_sum (by simp [hlen]), ← hlen, ← (hp.map _).sum_eq]
  congr 1
  apply List.ext_getElem?
  intro j
  rcases Nat.lt_or_ge j order.length with hj | hj
  · have ha : order[j] < order.length :=
      List.mem_range.mp (hp.mem_iff.mp (List.getElem_mem hj))
    simp only [List.getElem?_map, List.getElem?_eq_getElem hj, List.getElem?_range hj,
      Option.map_some]
    simp [List.getElem?_range ha, List.getElem?_eq_getElem hj, hn.idxOf_getElem j hj]
  · rw [List.getElem?_eq_none (by simpa using hj), List.getElem?_eq_none (by simpa using hj)]

theorem executePermuteBytes_layout {permute : Permute} (hin : Holds inF input e)
    (hp : validatePermutation permute.order = .ok ())
    (hlen : permute.order.length = inF.logicalShape.length) (hmode : permute.mode = .logical)
    (hshape : outF.logicalShape = permuteShape permute.order inF.logicalShape)
    (hw : inF.width = outF.width)
    (h : executePermuteBytes permute inF outF input (List.replicate outF.byteLen 0) cancellation =
      .ok out) : out = outF.layout (permuteElements permute.order e) := by
  obtain ⟨hn, hp⟩ := validatePermutation_ok hp
  rw [executePermuteBytes, hmode] at h
  obtain ⟨_, _, h⟩ := bind_ok h
  obtain ⟨width, hwidth, h⟩ := bind_ok h
  obtain ⟨rows, hrows, h⟩ := bind_ok h
  obtain ⟨order, horder, h⟩ := bind_ok h
  obtain rfl := Except.ok.inj horder
  rw [dtypeWidth_eq] at hwidth
  refine copyElements_layout ((Except.ok.inj hwidth).symm.trans hw) ?_ h
  intro i r hi hr
  obtain ⟨offsets, ho, hr⟩ := bind_ok hr
  let order := permute.order
  let coord := unravel outF.logicalShape i
  have hlo : outF.logicalShape.length = order.length := by simp [hshape, permuteShape, order]
  let source := (List.range order.length).map fun a => coord.getD (order.idxOf a) 0
  have hsl : source.length = inF.logicalShape.length := by simp [source, order, hlen]
  have ho := elementOffsets_ok
    (f := fun j => coord.getD j 0 * inF.storageStrides.getD (order.getD j 0) 0)
    (g := fun j => coord.getD j 0 * outF.storageStrides.getD j 0) ?_ ho
  · rw [← Except.ok.inj hr, ho]
    refine ⟨by rw [outF.offset_eq_sum (by simp), hlo], ?_⟩
    have hsrc : InBounds inF.logicalShape source :=
      permute_inBounds hp hlen (hshape ▸ unravel_inBounds hi)
    rw [permuteElements, ← hin.read source hsrc, TensorFacts.element,
      inF.offset_permuted hn hp hlen, hw]
  intro axis t _ ht
  obtain ⟨c, hcoord, ht⟩ := bind_ok ht
  rw [← Except.ok.inj ht, logicalCoordinate_ok (contiguousStrides_ok hrows) hcoord]
  exact ⟨rfl, rfl⟩

end Strided

end ModelWeights.Graph
