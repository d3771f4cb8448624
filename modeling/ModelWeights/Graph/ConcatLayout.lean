import ModelWeights.Graph.KernelLayout

/-! # Concatenation

The strided kernel finds the owner of an axis coordinate by a search over the
starts of the inputs; the contiguous kernel appends one chunk of every input
for each outer index. Both lay out `concatElements`. -/
namespace ModelWeights.Graph
open Strided Buffer

/-- What `infer_concat` established about the inputs and the output. -/
structure Concatenated (axis : Nat) (inputs : List TensorFacts) (outF : TensorFacts) : Prop where
  axisLt : axis < outF.logicalShape.length
  rank : ∀ f ∈ inputs, f.logicalShape.length = outF.logicalShape.length
  dims : ∀ f ∈ inputs, ∀ i, i ≠ axis → f.logicalShape[i]? = outF.logicalShape[i]?
  width : ∀ f ∈ inputs, f.width = outF.width
  axisLength : outF.logicalShape[axis]? =
    some (inputs.map fun f => f.logicalShape.getD axis 0).sum

/-- Every input buffer holds its contents. -/
abbrev HoldsAll (ins : List (TensorFacts × Elements)) (views : List Bytes) : Prop :=
  List.Forall₂ (fun x bytes => Holds x.1 bytes x.2) ins views

section Owner
variable {axis : Nat}

theorem set_axis_inBounds {f outF : TensorFacts} {inputs : List TensorFacts}
    (hc : Concatenated axis inputs outF) (hf : f ∈ inputs) {coord : List Nat} {k : Nat}
    (hb : InBounds outF.logicalShape coord) (hk : k < f.logicalShape.getD axis 0) :
    InBounds f.logicalShape (coord.set axis k) := by
  rw [inBounds_iff] at hb ⊢
  refine ⟨by rw [List.length_set, hb.1, hc.rank f hf], fun i d hd => ?_⟩
  by_cases hi : i = axis
  · subst hi
    have hlt : i < coord.length := by rw [hb.1]; exact hc.axisLt
    simp only [List.getD_eq_getElem?_getD, hd, Option.getD_some] at hk
    simp [hlt, hk]
  · have := hb.2 i d (by rw [← hc.dims f hf i hi, hd])
    simpa [List.getElem?_set_ne (Ne.symm hi)] using this

/-- The search of the strided kernel finds the owner: the element it reads is
the one `concatElements` selects. The induction carries the start `n` of the
remaining inputs. -/
theorem owner_ok {coord : List Nat} {k : Nat} (hlt : axis < coord.length) :
    ∀ {ins : List (TensorFacts × Elements)} {n idx : Nat} {starts : List Nat},
      concatStarts axis n (ins.map Prod.fst) = .ok starts →
      (starts.zip (ins.map Prod.fst)).findIdx? (fun x =>
        decide (k < saturatingAdd x.1 (x.2.logicalShape.getD axis 0))) = some idx → n ≤ k →
      ∃ f e, ins[idx]? = some (f, e) ∧ starts.getD idx 0 ≤ k ∧
        k - starts.getD idx 0 < f.logicalShape.getD axis 0 ∧
        concatElements axis ins (coord.set axis (k - n)) =
          e (coord.set axis (k - starts.getD idx 0))
  | [], n, idx, starts, hs, hi, _ => by
    obtain rfl := Except.ok.inj hs
    simp at hi
  | (f, e) :: rest, n, idx, starts, hs, hi, hnk => by
    rw [List.map_cons, concatStarts] at hs
    obtain ⟨next, hnext, hs⟩ := bind_ok hs
    obtain ⟨more, hmore, hs⟩ := bind_ok hs
    obtain ⟨hfit, hnext⟩ := checkedAdd_eq_some.mp (okOr_eq_ok.mp hnext)
    dsimp only at hfit hnext
    obtain rfl := Except.ok.inj hs
    have hsat : saturatingAdd n (f.logicalShape.getD axis 0) = n + f.logicalShape.getD axis 0 := by
      unfold saturatingAdd; omega
    have hget : (coord.set axis (k - n)).getD axis 0 = k - n := by simp [hlt]
    rw [List.map_cons, List.zip_cons_cons, List.findIdx?_cons] at hi
    simp only [hsat] at hi
    by_cases hown : k < n + f.logicalShape.getD axis 0
    · rw [if_pos (by simpa using hown)] at hi
      obtain rfl := Option.some.inj hi
      refine ⟨f, e, rfl, by simpa using hnk, by simp at hown ⊢; omega, ?_⟩
      rw [concatElements, hget, if_pos (by omega)]
      rfl
    · rw [if_neg (by simpa using hown), Option.map_eq_some_iff] at hi
      obtain ⟨j, hj, rfl⟩ := hi
      obtain ⟨f', e', hget', hle, hdim, heq⟩ := owner_ok hlt hmore hj (by omega)
      refine ⟨f', e', by simpa using hget', by simpa using hle, by simpa using hdim, ?_⟩
      rw [concatElements, hget, if_neg (by omega), List.set_set]
      rw [show k - n - f.logicalShape.getD axis 0 = k - next by omega]
      simpa using heq

end Owner

section Kernels
variable {axis : Nat} {ins : List (TensorFacts × Elements)} {views : List Bytes}
  {outF : TensorFacts} {out : Bytes} {cancellation : CancellationToken}

theorem HoldsAll.get (h : HoldsAll ins views) {i : Nat} {f : TensorFacts} {e : Elements}
    (hi : ins[i]? = some (f, e)) : ∃ b, views[i]? = some b ∧ Holds f b e := by
  obtain ⟨hlt, hget⟩ := List.getElem?_eq_some_iff.mp hi
  have hlt' : i < views.length := h.length_eq ▸ hlt
  refine ⟨views[i], List.getElem?_eq_getElem hlt', ?_⟩
  have := List.Forall₂.get h hlt hlt'
  simp only [List.get_eq_getElem, hget] at this
  exact this

theorem executeConcatBytes_layout (hc : Concatenated axis (ins.map Prod.fst) outF)
    (hin : HoldsAll ins views)
    (h : executeConcatBytes axis (ins.map Prod.fst) outF views (List.replicate outF.byteLen 0)
      cancellation = .ok out) : out = outF.layout (concatElements axis ins) := by
  obtain ⟨_, h⟩ := unless_error_ok h
  obtain ⟨_, _, h⟩ := bind_ok h
  obtain ⟨axis', haxis, h⟩ := bind_ok h
  obtain rfl : axis = axis' := Except.ok.inj (unless_error_ok haxis).2
  obtain ⟨width, hwidth, h⟩ := bind_ok h
  obtain ⟨rows, hrows, h⟩ := bind_ok h
  obtain ⟨starts, hstarts, h⟩ := bind_ok h
  rw [dtypeWidth_eq] at hwidth
  refine copyElements_layout (Except.ok.inj hwidth).symm ?_ h
  intro i r hi hr
  let coord := unravel outF.logicalShape i
  have hb : InBounds outF.logicalShape coord := unravel_inBounds hi
  obtain ⟨k, hk, hr⟩ := bind_ok hr
  obtain ⟨idx, hidx, hr⟩ := bind_ok hr
  obtain ⟨f, hf, hr⟩ := bind_ok hr
  obtain ⟨offsets, ho, hr⟩ := bind_ok hr
  have hres := Except.ok.inj hr
  have hk : k = coord.getD axis 0 := logicalCoordinate_ok (contiguousStrides_ok hrows) hk
  have hax : axis < coord.length := by rw [hb.length_eq]; exact hc.axisLt
  obtain ⟨f', e, hins, hle, hdim, heq⟩ :=
    owner_ok hax hstarts (okOr_eq_ok.mp hidx) (Nat.zero_le _)
  obtain rfl : f' = f := by
    have := okOr_eq_ok.mp hf
    simpa [List.getElem?_map, hins] using this
  have hmem : f' ∈ ins.map Prod.fst := List.mem_map.mpr ⟨_, List.mem_of_getElem? hins, rfl⟩
  obtain ⟨bytes, hview, hholds⟩ := hin.get hins
  let source := coord.set axis (k - starts.getD idx 0)
  have hself : coord.set axis (k - 0) = coord := by
    rw [hk, Nat.sub_zero, List.getD_eq_getElem?_getD, List.getElem?_eq_getElem hax]
    exact List.set_getElem_self hax
  have hsel : concatElements axis ins coord = e source := by rw [← hself]; exact heq
  have hsl : source.length = f'.logicalShape.length := by
    rw [List.length_set, hb.length_eq, hc.rank f' hmem]
  have ho := elementOffsets_ok
    (f := fun a => source.getD a 0 * f'.storageStrides.getD a 0)
    (g := fun a => coord.getD a 0 * outF.storageStrides.getD a 0) ?_ ho
  · rw [← hres, ho]
    refine ⟨(outF.offset_eq_sum hb.length_eq).symm, ?_⟩
    rw [hsel, ← hholds.read source (set_axis_inBounds hc hmem hb hdim),
      TensorFacts.element, f'.offset_eq_sum hsl, hc.rank f' hmem, hc.width f' hmem]
    simp [hview]
  intro a t ha ht
  obtain ⟨c, hcoord, ht⟩ := bind_ok ht
  obtain ⟨local', hlocal, ht⟩ := bind_ok ht
  obtain ⟨c', hcoord', ht⟩ := bind_ok ht
  have hcoord := logicalCoordinate_ok (contiguousStrides_ok hrows) hcoord
  have hcoord' := logicalCoordinate_ok (contiguousStrides_ok hrows) hcoord'
  have hlocal : local' = source.getD a 0 := by
    by_cases he : a = axis
    · subst he
      rw [concatLocal, if_pos rfl] at hlocal
      rw [(checkedSub_eq_some.mp (okOr_eq_ok.mp hlocal)).2, hcoord,
        show source.getD a 0 = k - starts.getD idx 0 by simp [source, hax], hk]
    · rw [concatLocal, if_neg he] at hlocal
      rw [← Except.ok.inj hlocal, hcoord]
      simp [source, List.getElem?_set_ne (Ne.symm he), coord]
  rw [← Except.ok.inj ht, hlocal, hcoord']
  exact ⟨rfl, rfl⟩

/-! ## The contiguous kernel -/

theorem appendTiles_ok {source : Bytes} {off len : Nat} : ∀ {fuel copied : Nat} {target r : Bytes},
    copied ≤ len → len - copied ≤ fuel * tileBytes →
      appendTiles source off len cancellation fuel copied target = .ok r →
      r = target ++ slice source (off + copied) (len - copied)
  | 0, copied, target, r, hc, hf, h => by
    rw [← Except.ok.inj h, show len - copied = 0 by omega]
    simp [slice]
  | fuel + 1, copied, target, r, hc, hf, h => by
    rw [appendTiles] at h
    split at h
    · obtain ⟨_, _, h⟩ := bind_ok h
      obtain ⟨start, hstart, h⟩ := bind_ok h
      obtain ⟨⟨a, b⟩, hrange, h⟩ := bind_ok h
      obtain ⟨next, hnext, h⟩ := bind_ok h
      have hstart := (checkedAdd_eq_some.mp (okOr_eq_ok.mp hstart)).2
      have hnext := (checkedAdd_eq_some.mp (okOr_eq_ok.mp hnext)).2
      obtain ⟨_, _, hrange⟩ := bind_ok hrange
      have hrange := Except.ok.inj (unless_error_ok hrange).2
      simp only [Prod.mk.injEq] at hrange
      rw [Nat.succ_mul] at hf
      have hmin := Nat.min_le_right tileBytes (len - copied)
      rw [appendTiles_ok (by omega) (by omega) h, List.append_assoc, ← hrange.1, hstart, hnext,
        ← Nat.add_assoc off, slice_append]
      congr 2
      omega
    · rw [← Except.ok.inj h, show len - copied = 0 by omega]
      simp [slice]

theorem appendByteRangeTiled_ok {source target r : Bytes} {off len : Nat}
    (h : appendByteRangeTiled source off len target cancellation = .ok r) :
    r = target ++ slice source off len := by
  have hfuel : len ≤ (len / tileBytes + 1) * tileBytes := by
    have := Nat.lt_div_mul_add (a := len) (b := tileBytes) (by decide)
    rw [Nat.succ_mul]
    omega
  simpa using appendTiles_ok (Nat.zero_le _) (by omega) h

theorem concatChunks_ok {inner o : Nat} : ∀ {pairs : List (TensorFacts × Bytes)}
    {st r : Bytes × Nat}, concatChunks axis inner o cancellation pairs st = .ok r →
      r.1 = st.1 ++ pairs.flatMap fun x =>
        slice x.2 (o * (x.1.logicalShape.getD axis 0 * inner)) (x.1.logicalShape.getD axis 0 * inner)
  | [], st, r, h => by
    rw [← Except.ok.inj h]; simp
  | (f, input) :: rest, (output, offset), r, h => by
    rw [concatChunks] at h
    obtain ⟨chunk, hchunk, h⟩ := bind_ok h
    obtain ⟨start, hstart, h⟩ := bind_ok h
    obtain ⟨next, hnext, h⟩ := bind_ok h
    obtain ⟨_, _, h⟩ := bind_ok h
    have hchunk := (checkedMul_eq_some.mp (okOr_eq_ok.mp hchunk)).2
    have hstart := (checkedMul_eq_some.mp (okOr_eq_ok.mp hstart)).2
    rw [concatChunks_ok h, appendByteRangeTiled_ok hnext, hstart, hchunk]
    simp [List.append_assoc]

/-- The elements of one outer index of one input. -/
def outerBlock (axis : Nat) (post : List Nat) (x : TensorFacts × Elements) (p : List Nat) : Bytes :=
  (List.range (x.1.logicalShape.getD axis 0)).flatMap fun k =>
    (coords post).flatMap fun q => x.2 (p ++ k :: q)

/-- Along one outer index the concatenation is the blocks of the inputs in a row. -/
theorem concat_blocks {post p : List Nat} (hp : p.length = axis) :
    ∀ ins : List (TensorFacts × Elements),
      ((List.range (ins.map fun x => x.1.logicalShape.getD axis 0).sum).flatMap fun k =>
        (coords post).flatMap fun q => concatElements axis ins (p ++ k :: q)) =
      ins.flatMap fun x => outerBlock axis post x p
  | [] => by simp
  | (f, e) :: rest => by
    rw [List.map_cons, List.sum_cons, List.range_add, List.flatMap_append, List.flatMap_map,
      List.flatMap_cons]
    congr 1
    · apply List.flatMap_congr
      intro k hk
      apply List.flatMap_congr
      intro q _
      have hk := List.mem_range.mp hk
      rw [concatElements, if_pos (by simpa [hp] using hk)]
    · rw [← concat_blocks hp rest]
      apply List.flatMap_congr
      intro k _
      apply List.flatMap_congr
      intro q _
      rw [concatElements, if_neg (by simp [← hp])]
      congr 1
      simp [← hp]

/-- The coordinates of a shape, split at one axis. -/
theorem flatMap_coords_split {shape : List Nat} {d : Nat} (h : shape[axis]? = some d)
    (g : List Nat → Bytes) :
    (coords shape).flatMap g = (coords (shape.take axis)).flatMap fun p =>
      (List.range d).flatMap fun k => (coords (shape.drop (axis + 1))).flatMap fun q =>
        g (p ++ k :: q) := by
  obtain ⟨hlt, hd⟩ := List.getElem?_eq_some_iff.mp h
  conv_lhs => rw [← List.take_append_drop axis shape, List.drop_eq_getElem_cons hlt, hd]
  rw [coords_append, List.flatMap_assoc]
  apply List.flatMap_congr
  intro p _
  rw [List.flatMap_map, coords, List.flatMap_assoc]
  apply List.flatMap_congr
  intro k _
  rw [List.flatMap_map]

theorem length_outerBlock {f : TensorFacts} {e : Elements} {bytes : Bytes} (h : Holds f bytes e)
    (hax : axis < f.logicalShape.length) {p : List Nat}
    (hp : p ∈ coords (f.logicalShape.take axis)) :
    (outerBlock axis (f.logicalShape.drop (axis + 1)) (f, e) p).length =
      f.logicalShape.getD axis 0 * ((f.logicalShape.drop (axis + 1)).prod * f.width) := by
  rw [outerBlock, length_flatMap_uniform (w := (f.logicalShape.drop (axis + 1)).prod * f.width),
    List.length_range]
  intro k hk
  rw [length_flatMap_uniform (w := f.width), length_coords]
  intro q hq
  apply h.element_length
  -- the coordinate `p ++ k :: q` is one of the box
  apply mem_coords.mp
  have hk := List.mem_range.mp hk
  rw [← List.take_append_drop axis f.logicalShape, List.drop_eq_getElem_cons hax, coords_append,
    List.mem_flatMap]
  refine ⟨p, hp, List.mem_map.mpr ⟨k :: q, ?_, rfl⟩⟩
  rw [mem_coords]
  exact ⟨by simpa [List.getElem?_eq_getElem hax] using hk, mem_coords.mp hq⟩

theorem concatElements_owner {coord : List Nat} (hax : axis < coord.length) :
    ∀ {ins : List (TensorFacts × Elements)} {k : Nat},
      k < (ins.map fun x => x.1.logicalShape.getD axis 0).sum →
      ∃ x ∈ ins, ∃ j < x.1.logicalShape.getD axis 0,
        concatElements axis ins (coord.set axis k) = x.2 (coord.set axis j)
  | [], k, hk => by simp at hk
  | (f, e) :: rest, k, hk => by
    have hget : (coord.set axis k).getD axis 0 = k := by simp [hax]
    rw [concatElements, hget]
    split
    · next hlt => exact ⟨(f, e), List.mem_cons_self .., k, hlt, rfl⟩
    · rw [List.map_cons, List.sum_cons] at hk
      dsimp only at hk
      rw [List.set_set]
      have hrest : k - f.logicalShape.getD axis 0 <
          (rest.map fun x => x.1.logicalShape.getD axis 0).sum := by omega
      obtain ⟨x, hx, j, hj, he⟩ := concatElements_owner hax hrest
      exact ⟨x, List.mem_cons_of_mem _ hx, j, hj, he⟩

theorem HoldsAll.mem (h : HoldsAll ins views) {x : TensorFacts × Elements} (hx : x ∈ ins) :
    ∃ b, Holds x.1 b x.2 := by
  obtain ⟨i, hi⟩ := List.mem_iff_getElem?.mp hx
  obtain ⟨b, _, hb⟩ := HoldsAll.get h hi
  exact ⟨b, hb⟩

theorem concatElements_length (hc : Concatenated axis (ins.map Prod.fst) outF)
    (hin : HoldsAll ins views) {coord : List Nat} (hb : InBounds outF.logicalShape coord) :
    (concatElements axis ins coord).length = outF.width := by
  have hax : axis < coord.length := by rw [hb.length_eq]; exact hc.axisLt
  have hk : coord.getD axis 0 < (ins.map fun x => x.1.logicalShape.getD axis 0).sum := by
    have := (inBounds_iff.mp hb).2 axis _ hc.axisLength
    rwa [List.map_map] at this
  obtain ⟨x, hx, j, hj, he⟩ := concatElements_owner hax hk
  have hself : coord.set axis (coord.getD axis 0) = coord := by
    rw [List.getD_eq_getElem?_getD, List.getElem?_eq_getElem hax]
    exact List.set_getElem_self hax
  have hmem : x.1 ∈ ins.map Prod.fst := List.mem_map.mpr ⟨x, hx, rfl⟩
  obtain ⟨b, hholds⟩ := HoldsAll.mem hin hx
  rw [hself] at he
  rw [he, hholds.element_length (set_axis_inBounds hc hmem hb hj), hc.width _ hmem]

/-- An input that agrees with the output outside the axis splits like it. -/
theorem Concatenated.split_eq (hc : Concatenated axis (ins.map Prod.fst) outF) {f : TensorFacts}
    (hf : f ∈ ins.map Prod.fst) :
    f.logicalShape.take axis = outF.logicalShape.take axis ∧
      f.logicalShape.drop (axis + 1) = outF.logicalShape.drop (axis + 1) := by
  constructor
  · apply List.ext_getElem?
    intro i
    rw [List.getElem?_take, List.getElem?_take]
    split
    · exact hc.dims f hf i (by omega)
    · rfl
  · apply List.ext_getElem?
    intro i
    rw [List.getElem?_drop, List.getElem?_drop]
    exact hc.dims f hf _ (by omega)

theorem flatMap_zip_views {F : TensorFacts → Bytes → Bytes} {G : TensorFacts × Elements → Bytes}
    (hin : HoldsAll ins views)
    (h : ∀ x ∈ ins, ∀ b, Holds x.1 b x.2 → F x.1 b = G x) :
    ((ins.map Prod.fst).zip views).flatMap (fun y => F y.1 y.2) = ins.flatMap G := by
  induction hin with
  | nil => rfl
  | @cons x b ins views hx _ ih =>
    rw [List.map_cons, List.zip_cons_cons, List.flatMap_cons, List.flatMap_cons,
      h x (List.mem_cons_self ..) b hx, ih fun y hy => h y (List.mem_cons_of_mem _ hy)]

/-- One chunk of a contiguous input is the block of its outer index. -/
theorem slice_chunk (hc : Concatenated axis (ins.map Prod.fst) outF) {f : TensorFacts}
    {e : Elements} {bytes : Bytes} {o : Nat} (hmem : f ∈ ins.map Prod.fst)
    (hcont : f.isCanonicalContiguous = true) (hholds : Holds f bytes e)
    (ho : o < (outF.logicalShape.take axis).prod) :
    slice bytes (o * (f.logicalShape.getD axis 0 *
        ((outF.logicalShape.drop (axis + 1)).prod * outF.width)))
      (f.logicalShape.getD axis 0 * ((outF.logicalShape.drop (axis + 1)).prod * outF.width)) =
    outerBlock axis (outF.logicalShape.drop (axis + 1)) (f, e)
      (unravel (outF.logicalShape.take axis) o) := by
  obtain ⟨hst, _, hstrides⟩ := TensorFacts.isCanonicalContiguous_iff hcont
  obtain ⟨hpre, hpost⟩ := hc.split_eq hmem
  have hax : axis < f.logicalShape.length := by rw [hc.rank f hmem]; exact hc.axisLt
  have hd : f.logicalShape[axis]? = some (f.logicalShape.getD axis 0) := by
    rw [List.getD_eq_getElem?_getD, List.getElem?_eq_getElem hax]; rfl
  have hbytes : bytes = (coords (outF.logicalShape.take axis)).flatMap
      (outerBlock axis (outF.logicalShape.drop (axis + 1)) (f, e)) := by
    rw [hholds.eq_layout (by rw [hst]),
      layout_eq_flatMap hst hstrides (fun c hb => hholds.element_length hb),
      flatMap_coords_split hd, hpre, hpost]
    rfl
  conv_lhs => rw [hbytes]
  refine slice_flatMap ?_ ?_
  · intro p hp
    have := length_outerBlock hholds hax (hpre ▸ hp)
    rwa [hpost, hc.width f hmem] at this
  · simp [coords_eq_unravel, List.getElem?_range ho]

theorem buildContiguousConcat_ok
    (h : buildContiguousConcat axis (ins.map Prod.fst) outF views cancellation = .ok out) :
    ∃ first, (ins.map Prod.fst)[0]? = some first ∧
      out = (List.range (first.logicalShape.take axis).prod).flatMap fun o =>
        ((ins.map Prod.fst).zip views).flatMap fun x =>
          slice x.2 (o * (x.1.logicalShape.getD axis 0 *
              ((first.logicalShape.drop (axis + 1)).prod * first.width)))
            (x.1.logicalShape.getD axis 0 *
              ((first.logicalShape.drop (axis + 1)).prod * first.width)) := by
  obtain ⟨_, _, h⟩ := bind_ok h
  obtain ⟨_, h⟩ := unless_error_ok h
  obtain ⟨_, _, h⟩ := bind_ok h
  obtain ⟨axis', haxis, h⟩ := bind_ok h
  obtain rfl : axis = axis' := Except.ok.inj (unless_error_ok haxis).2
  obtain ⟨_, _, h⟩ := bind_ok h
  obtain ⟨first, hfirst, h⟩ := bind_ok h
  obtain ⟨outer, houter, h⟩ := bind_ok h
  obtain ⟨inner, hinner, h⟩ := bind_ok h
  obtain ⟨width, hwidth, h⟩ := bind_ok h
  obtain ⟨innerBytes, hib, h⟩ := bind_ok h
  obtain ⟨⟨r, t⟩, hfold, h⟩ := bind_ok h
  obtain ⟨_, h⟩ := unless_error_ok h
  obtain ⟨_, _, h⟩ := bind_ok h
  have houter := elementProduct_ok houter
  have hinner := elementProduct_ok hinner
  have hwidth : first.width = width := by
    rw [dtypeWidth_eq] at hwidth
    exact Except.ok.inj hwidth
  have hib := (checkedMul_eq_some.mp (okOr_eq_ok.mp hib)).2
  rw [hinner, ← hwidth] at hib
  refine ⟨first, okOr_eq_ok.mp hfirst, ?_⟩
  have hinv := foldlM_ok (fun k (x : Bytes × Nat) => x.1 = (List.range k).flatMap fun o =>
    ((ins.map Prod.fst).zip views).flatMap fun x =>
      slice x.2 (o * (x.1.logicalShape.getD axis 0 * innerBytes))
        (x.1.logicalShape.getD axis 0 * innerBytes)) rfl ?_ hfold
  · rw [← Except.ok.inj h, ← houter, ← hib]
    simpa using hinv
  intro k o x y hk hx hy
  obtain ⟨_, hk⟩ := List.getElem?_eq_some_iff.mp hk
  rw [List.getElem_range] at hk
  obtain ⟨_, _, hy⟩ := bind_ok hy
  rw [concatChunks_ok hy, hx, hk, List.range_succ, List.flatMap_append]
  simp

theorem buildContiguousConcat_layout (hc : Concatenated axis (ins.map Prod.fst) outF)
    (hin : HoldsAll ins views)
    (hcont : ∀ f ∈ ins.map Prod.fst, f.isCanonicalContiguous = true)
    (hout : outF.isCanonicalContiguous = true)
    (h : buildContiguousConcat axis (ins.map Prod.fst) outF views cancellation = .ok out) :
    out = outF.layout (concatElements axis ins) := by
  obtain ⟨first, hfirst, rfl⟩ := buildContiguousConcat_ok h
  have hmem := List.mem_of_getElem? hfirst
  obtain ⟨hpre, hpost⟩ := hc.split_eq hmem
  obtain ⟨hst, _, hstrides⟩ := TensorFacts.isCanonicalContiguous_iff hout
  have haxis : outF.logicalShape[axis]? =
      some (ins.map fun x => x.1.logicalShape.getD axis 0).sum := by
    rw [hc.axisLength, List.map_map]; rfl
  rw [layout_eq_flatMap hst hstrides (fun c hb => concatElements_length hc hin hb),
    flatMap_coords_split haxis, coords_eq_unravel (outF.logicalShape.take axis),
    List.flatMap_map, hpre, hpost, hc.width first hmem]
  apply List.flatMap_congr
  intro o ho
  have ho := List.mem_range.mp ho
  rw [concat_blocks (by simp; have := hc.axisLt; omega)]
  refine flatMap_zip_views (F := fun f b => slice b
    (o * (f.logicalShape.getD axis 0 * ((outF.logicalShape.drop (axis + 1)).prod * outF.width)))
    (f.logicalShape.getD axis 0 * ((outF.logicalShape.drop (axis + 1)).prod * outF.width))) hin ?_
  intro x hx b hholds
  have hm : x.1 ∈ ins.map Prod.fst := List.mem_map.mpr ⟨x, hx, rfl⟩
  exact slice_chunk hc hm (hcont _ hm) hholds ho

end Kernels

end ModelWeights.Graph
