import ModelWeights.Graph.Kernel

/-! # Tensors and the bytes that hold them

The contents of a value are a function from logical coordinates to elements.
`TensorFacts.element` reads them through the storage strides and
`TensorFacts.layout` writes them, with zero in every storage byte that no
element addresses. Every strided kernel that returns produces the layout of
reindexed contents (`copyElements_layout`). -/
namespace ModelWeights.Graph
open Strided Buffer

/-- Contents of a tensor: the bytes of the element at a logical coordinate. -/
abbrev Elements := List Nat → Bytes

/-- The element at `coord` of a buffer with these facts. -/
def TensorFacts.element (f : TensorFacts) (bytes : Bytes) : Elements :=
  fun coord => slice bytes (f.offset coord * f.width) f.width

/-- The storage of the given contents. -/
def TensorFacts.layout (f : TensorFacts) (elements : Elements) : Bytes :=
  place f.byteLen f.width (coords f.logicalShape) f.offset elements 0

/-- `bytes` holds `elements`: it has the declared length and reads back as them. -/
structure Holds (f : TensorFacts) (bytes : Bytes) (elements : Elements) : Prop where
  length : bytes.length = f.byteLen
  read : ∀ coord, InBounds f.logicalShape coord → f.element bytes coord = elements coord

theorem holds_element {f : TensorFacts} {bytes : Bytes} (h : bytes.length = f.byteLen) :
    Holds f bytes (f.element bytes) := ⟨h, fun _ _ => rfl⟩

theorem Holds.element_length {f : TensorFacts} {bytes : Bytes} {e : Elements}
    (h : Holds f bytes e) {coord : List Nat} (hc : InBounds f.logicalShape coord) :
    (e coord).length = f.width := by
  rw [← h.read coord hc]
  exact length_slice (by rw [h.length]; exact f.element_fits hc)

/-- A layout reads back as the contents it was made from. -/
theorem holds_layout {f : TensorFacts} {e : Elements}
    (h : ∀ coord, InBounds f.logicalShape coord → (e coord).length = f.width) :
    Holds f (f.layout e) e := by
  refine ⟨by simp [TensorFacts.layout], fun coord hc => ?_⟩
  exact slice_place f.nodup_offsets (mem_coords.mpr hc) (h coord hc) (f.element_fits hc)

theorem layout_congr {f : TensorFacts} {e e' : Elements}
    (h : ∀ coord, InBounds f.logicalShape coord → e coord = e' coord) :
    f.layout e = f.layout e' :=
  place_congr fun c hc => h c (mem_coords.mp hc)

/-- In storage without padding every byte belongs to an element. -/
theorem Holds.eq_layout {f : TensorFacts} {bytes : Bytes} {e : Elements} (h : Holds f bytes e)
    (hdense : f.storageShape.prod = f.logicalShape.prod) : bytes = f.layout e := by
  have hlen : f.byteLen = f.logicalShape.prod * f.width := by rw [f.spec.byteLen, hdense]
  rw [TensorFacts.layout, hlen]
  refine eq_place f.width_pos f.nodup_offsets ?_ (length_coords _) (by rw [h.length, hlen]) ?_
  · intro c hc
    exact hdense ▸ f.offset_lt (mem_coords.mp hc)
  · intro c hc
    exact h.read c (mem_coords.mp hc)

/-- Row-major storage lists the elements in the order of their coordinates. -/
theorem layout_eq_flatMap {f : TensorFacts} {e : Elements}
    (hshape : f.storageShape = f.logicalShape)
    (hstrides : f.storageStrides = rowMajor f.logicalShape)
    (h : ∀ coord, InBounds f.logicalShape coord → (e coord).length = f.width) :
    f.layout e = (coords f.logicalShape).flatMap e := by
  rw [TensorFacts.layout, f.spec.byteLen, hshape]
  refine place_eq_flatMap f.width_pos ?_ (fun c hc => h c (mem_coords.mp hc))
  rw [← dot_coords, ← hstrides]
  rfl

/-! ## The copy loop -/

theorem copyElement_ok {source target out : Bytes} {s t width : Nat}
    (h : copyElement source s target t width = .ok out) :
    out = write target (t * width) (slice source (s * width) width) ∧
      s * width + width ≤ source.length ∧ t * width + width ≤ target.length := by
  obtain ⟨ss, hss, h⟩ := bind_ok h
  obtain ⟨ts, hts, h⟩ := bind_ok h
  obtain ⟨⟨a, b⟩, hsr, h⟩ := bind_ok h
  obtain ⟨⟨c, d⟩, htr, h⟩ := bind_ok h
  have hss := (checkedMul_eq_some.mp (okOr_eq_ok.mp hss)).2
  have hts := (checkedMul_eq_some.mp (okOr_eq_ok.mp hts)).2
  obtain ⟨e, he, hsr⟩ := bind_ok hsr
  obtain ⟨e', he', htr⟩ := bind_ok htr
  have he := (checkedAdd_eq_some.mp (okOr_eq_ok.mp he)).2
  have he' := (checkedAdd_eq_some.mp (okOr_eq_ok.mp he')).2
  obtain ⟨hsb, hsr⟩ := unless_error_ok hsr
  obtain ⟨htb, htr⟩ := unless_error_ok htr
  simp only [Except.ok.injEq, Prod.mk.injEq] at hsr htr h
  rw [← h, ← hsr.1, ← htr.1, hss, hts]
  exact ⟨rfl, by omega, by omega⟩

/-- The copy loop over the logical positions of `f`, started on a zeroed buffer,
lays out the elements it reads. -/
theorem copyElements_layout {f : TensorFacts} {width : Nat}
    {address : Nat → Result (Bytes × Nat × Nat)} {out : Bytes} {cancellation : CancellationToken}
    {e : Elements} (hw : width = f.width)
    (ha : ∀ i r, i < f.logicalShape.prod → address i = .ok r →
      r.2.2 = f.offset (unravel f.logicalShape i) ∧
        slice r.1 (r.2.1 * f.width) f.width = e (unravel f.logicalShape i))
    (h : copyElements f.elementCount width address (List.replicate f.byteLen 0) cancellation =
      .ok out) : out = f.layout e := by
  subst hw
  obtain ⟨r, hfold, h⟩ := bind_ok h
  obtain ⟨_, _, h⟩ := bind_ok h
  rw [f.elementCount_eq] at hfold
  let cs := coords f.logicalShape
  -- after `k` positions the loop has written the first `k` coordinates
  have hinv := foldlM_ok (fun k x => k ≤ f.logicalShape.prod →
    x = (cs.take k).foldl (fun b c => write b (f.offset c * f.width) (e c))
        (List.replicate f.byteLen 0) ∧
      ∀ c ∈ cs.take k, (e c).length = f.width) (by simp) ?_ hfold
  · rw [List.length_range] at hinv
    obtain ⟨hr, hlen⟩ := hinv (Nat.le_refl _)
    rw [List.take_of_length_le (by rw [length_coords])] at hr hlen
    rw [← Except.ok.inj h, hr]
    exact foldl_write_eq_place f.nodup_offsets hlen
      (fun c hc => f.element_fits (mem_coords.mp hc))
  intro k i x y hi hx hy hk
  obtain ⟨_, hi⟩ := List.getElem?_eq_some_iff.mp hi
  rw [List.getElem_range] at hi
  subst hi
  obtain ⟨hx, hlen⟩ := hx (by omega)
  obtain ⟨_, _, hy⟩ := bind_ok hy
  obtain ⟨⟨source, s, t⟩, haddr, hy⟩ := bind_ok hy
  obtain ⟨ht, hs⟩ := ha k _ (by omega) haddr
  obtain ⟨hy, hfit, _⟩ := copyElement_ok hy
  simp only at ht hs
  have hk' : cs[k]? = some (unravel f.logicalShape k) := by
    simp [cs, coords_eq_unravel, List.getElem?_range (show k < f.logicalShape.prod by omega)]
  rw [List.take_add_one, hk', List.foldl_append]
  refine ⟨?_, ?_⟩
  · rw [hy, hx, ht, hs]; rfl
  · intro c hc
    rcases List.mem_append.mp hc with hc | hc
    · exact hlen c hc
    · obtain rfl : c = unravel f.logicalShape k := by simpa using hc
      rw [← hs]
      exact length_slice hfit

/-! ## The inner loop -/

theorem checkedOffsetTerm_ok {offset c s r : Nat} (h : checkedOffsetTerm offset c s = .ok r) :
    r = offset + c * s := by
  obtain ⟨t, ht, h⟩ := Option.bind_eq_some_iff.mp (okOr_eq_ok.mp h)
  rw [(checkedAdd_eq_some.mp h).2, (checkedMul_eq_some.mp ht).2]

/-- The inner loop sums one product per axis on each side. -/
theorem elementOffsets_ok {rank : Nat} {term : Nat → Result AxisTerm} {f g : Nat → Nat}
    {r : Nat × Nat}
    (ht : ∀ axis t, axis < rank → term axis = .ok t →
      t.sourceCoordinate * t.sourceStride = f axis ∧ t.targetCoordinate * t.targetStride = g axis)
    (h : elementOffsets rank term = .ok r) :
    r = (((List.range rank).map f).sum, ((List.range rank).map g).sum) := by
  have hinv := foldlM_ok (fun k x => k ≤ rank →
    x = (((List.range k).map f).sum, ((List.range k).map g).sum)) (by simp) ?_ h
  · simpa using hinv
  intro k axis x y hk hx hy hle
  obtain ⟨_, hk⟩ := List.getElem?_eq_some_iff.mp hk
  rw [List.getElem_range] at hk
  subst hk
  obtain ⟨t, htk, hy⟩ := bind_ok hy
  obtain ⟨s, hs, hy⟩ := bind_ok hy
  obtain ⟨d, hd, hy⟩ := bind_ok hy
  obtain ⟨hf, hg⟩ := ht k t (by omega) htk
  rw [← Except.ok.inj hy, checkedOffsetTerm_ok hs, checkedOffsetTerm_ok hd, hf, hg, hx (by omega),
    List.range_succ]
  simp

theorem getD_unravel : ∀ {shape : List Nat} {axis d stride linear : Nat},
    shape[axis]? = some d → (rowMajor shape)[axis]? = some stride →
      (unravel shape linear).getD axis 0 = (linear / stride) % d
  | _ :: _, 0, _, _, _, hd, hs => by
    simp only [rowMajor, List.getElem?_cons_zero, Option.some.injEq] at hd hs
    simp [unravel, hd, hs]
  | _ :: ds, axis + 1, _, _, _, hd, hs => by
    simp only [rowMajor, List.getElem?_cons_succ] at hd hs
    simpa [unravel] using getD_unravel hd hs
  | [], _, _, _, _, hd, _ => by simp at hd

theorem logicalCoordinate_ok {linear axis c : Nat} {shape strides : List Nat}
    (hs : strides = rowMajor shape) (h : logicalCoordinate linear axis shape strides = .ok c) :
    c = (unravel shape linear).getD axis 0 := by
  obtain ⟨d, hd, h⟩ := bind_ok h
  obtain ⟨stride, hstride, h⟩ := bind_ok h
  obtain ⟨_, h⟩ := unless_error_ok h
  rw [← Except.ok.inj h, getD_unravel (okOr_eq_ok.mp hd) (hs ▸ okOr_eq_ok.mp hstride)]

theorem dot_eq_sum : ∀ {strides coord : List Nat} {n : Nat}, strides.length = n →
    coord.length = n →
      dot strides coord = ((List.range n).map fun i => coord.getD i 0 * strides.getD i 0).sum
  | [], [], 0, _, _ => rfl
  | s :: ss, c :: cs, n + 1, hs, hc => by
    rw [List.range_succ_eq_map, List.map_cons, List.sum_cons, List.map_map, dot,
      dot_eq_sum (n := n) (by simpa using hs) (by simpa using hc)]
    rfl

/-- The offset of a coordinate, as the sum a kernel computes. -/
theorem TensorFacts.offset_eq_sum (f : TensorFacts) {coord : List Nat}
    (h : coord.length = f.logicalShape.length) :
    f.offset coord = ((List.range f.logicalShape.length).map fun i =>
      coord.getD i 0 * f.storageStrides.getD i 0).sum :=
  dot_eq_sum f.spec.strideRank h

end ModelWeights.Graph
