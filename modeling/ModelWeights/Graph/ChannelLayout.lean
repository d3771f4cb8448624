import ModelWeights.Graph.KernelLayout
import ModelWeights.Graph.Simd

/-! # The channel-last fast path

`build_oihw_to_ohwi_elements` for every element width, and the layout both it
and the half-precision kernel produce: the storage permutation `[0, 2, 3, 1]` of
a contiguous four-axis tensor. -/
namespace ModelWeights.Graph
open Strided Buffer

section Elements
variable {input : Bytes} {width spatial : Nat} {cancellation : CancellationToken}

theorem copyChannelRun_ok {stride : Nat} : ∀ {count start : Nat} {output r : List Bytes},
    copyChannelRun input width stride count start output = .ok r →
      r = output ++ (List.range count).map fun j => slice input (start + j * stride) width
  | 0, start, output, r, h => by
    rw [← Except.ok.inj h]; simp
  | count + 1, start, output, r, h => by
    rw [copyChannelRun] at h
    obtain ⟨_, h⟩ := unless_error_ok h
    rw [copyChannelRun_ok h, List.range_succ_eq_map, List.map_cons, List.map_map]
    simp only [List.append_assoc, List.cons_append, List.nil_append, Nat.zero_mul, Nat.add_zero]
    congr 2
    apply List.map_congr_left
    intro j _
    simp only [Function.comp_apply, Nat.succ_mul]
    congr 1
    omega

/-- The element of channel `c` at one spatial position. -/
def channelElement (input : Bytes) (width spatial base s c : Nat) : Bytes :=
  slice input ((base + c * spatial + s) * width) width

theorem copyChannelBlocks_ok {channels base s : Nat} (hsize : channels < u64Size) :
    ∀ {fuel start : Nat} {output r : List Bytes}, start ≤ channels →
      channels - start ≤ fuel * copyTileElements →
      copyChannelBlocks input width channels spatial base s cancellation fuel start output = .ok r →
      r = output ++ (List.range' start (channels - start)).map
        (channelElement input width spatial base s)
  | 0, start, output, r, hle, hf, h => by
    rw [← Except.ok.inj h, show channels - start = 0 by omega]
    simp
  | fuel + 1, start, output, r, hle, hf, h => by
    rw [copyChannelBlocks] at h
    split at h
    · next hlt =>
      obtain ⟨_, _, h⟩ := bind_ok h
      obtain ⟨element, he, h⟩ := bind_ok h
      obtain ⟨first, hfirst, h⟩ := bind_ok h
      obtain ⟨next, hnext, h⟩ := bind_ok h
      obtain ⟨a, ha, he⟩ := Option.bind_eq_some_iff.mp (okOr_eq_ok.mp he)
      obtain ⟨b, hb, he⟩ := Option.bind_eq_some_iff.mp he
      have ha := (checkedMul_eq_some.mp ha).2
      have hb := (checkedAdd_eq_some.mp hb).2
      have he := (checkedAdd_eq_some.mp he).2
      have hfirst := (checkedMul_eq_some.mp (okOr_eq_ok.mp hfirst)).2
      rw [min_saturatingAdd hsize] at h hnext
      generalize hs : min (start + copyTileElements) channels = stop at h hnext
      rw [Nat.succ_mul] at hf
      rw [copyChannelBlocks_ok hsize (by omega) (by omega) h, copyChannelRun_ok hnext,
        List.append_assoc]
      refine congrArg (output ++ ·) ?_
      rw [show channels - start = (stop - start) + (channels - stop) by omega,
        ← List.range'_append_1, List.map_append, show start + (stop - start) = stop by omega]
      congr 1
      rw [List.range'_eq_map_range, List.map_map]
      apply List.map_congr_left
      intro j _
      simp only [Function.comp_apply, channelElement, hfirst, he, hb, ha, Nat.add_mul,
        Nat.mul_assoc]
      congr 1
      omega
    · rw [← Except.ok.inj h, show channels - start = 0 by omega]
      simp

theorem buildOihwToOhwiElements_ok {m n elements : Nat} {r : Bytes}
    (hel : elements = m * (n * spatial))
    (h : buildOihwToOhwiElements width input m n spatial elements cancellation = .ok r) :
    r = ohwiOrder width input m n spatial := by
  unfold buildOihwToOhwiElements at h
  split at h
  · next hz =>
    obtain ⟨_, _, h⟩ := bind_ok h
    rw [← Except.ok.inj h]
    symm
    simp only [ohwiOrder, List.flatMap_eq_nil_iff, List.mem_range]
    intro o ho s hs c hc
    have : 0 < m * (n * spatial) := Nat.mul_pos (by omega) (Nat.mul_pos (by omega) (by omega))
    omega
  next hz =>
  obtain ⟨_, _, h⟩ := bind_ok h
  obtain ⟨channelElements, hce, h⟩ := bind_ok h
  obtain ⟨out, hfold, h⟩ := bind_ok h
  obtain ⟨_, h⟩ := unless_error_ok h
  obtain ⟨_, _, h⟩ := bind_ok h
  obtain ⟨hfit, hce⟩ := checkedMul_eq_some.mp (okOr_eq_ok.mp hce)
  have hsize : n < u64Size := by
    have hs : 0 < spatial := by
      rcases Nat.eq_zero_or_pos spatial with h0 | h0
      · simp [hel, h0] at hz
      · exact h0
    have := Nat.le_mul_of_pos_right n hs
    omega
  have hfuel : n - 0 ≤ (n / copyTileElements + 1) * copyTileElements := by
    have := Nat.lt_div_mul_add (a := n) (b := copyTileElements) (by decide)
    rw [Nat.succ_mul]
    omega
  have houter := foldlM_ok (fun k x => x = (List.range k).flatMap fun o =>
    (List.range spatial).flatMap fun s =>
      (List.range n).map (channelElement input width spatial (o * channelElements) s)) rfl ?_ hfold
  · rw [← Except.ok.inj h, houter, List.length_range, ohwiOrder, ← List.flatMap_id,
      List.flatMap_assoc]
    apply List.flatMap_congr
    intro o _
    rw [List.flatMap_assoc]
    apply List.flatMap_congr
    intro s _
    rw [List.flatMap_map]
    apply List.flatMap_congr
    intro c _
    rw [id, channelElement, hce]
    congr 2
    rw [Nat.add_mul, Nat.mul_assoc]
  intro k o x y hk hx hy
  obtain ⟨_, hk⟩ := List.getElem?_eq_some_iff.mp hk
  rw [List.getElem_range] at hk
  obtain ⟨base, hbase, hy⟩ := bind_ok hy
  have hbase := (checkedMul_eq_some.mp (okOr_eq_ok.mp hbase)).2
  have hinner := foldlM_ok (fun j z => z = x ++ (List.range j).flatMap fun s =>
    (List.range n).map (channelElement input width spatial base s)) (by simp) ?_ hy
  · rw [hinner, hx, List.length_range, hbase, ← hk, List.range_succ, List.flatMap_append]
    simp
  intro j s z w hj hz hw
  obtain ⟨_, hj⟩ := List.getElem?_eq_some_iff.mp hj
  rw [List.getElem_range] at hj
  rw [copyChannelBlocks_ok hsize (Nat.zero_le _) hfuel hw, hz, ← hj, List.range_succ,
    List.flatMap_append, Nat.sub_zero, ← List.range_eq_range']
  simp

end Elements

/-! ## Reading the channel-last order -/

theorem ohwiOrder_eq_coords (width : Nat) (input : Bytes) (m n spatial : Nat) :
    ohwiOrder width input m n spatial = (coords [m, spatial, n]).flatMap fun c =>
      slice input (((c.getD 0 0 * n + c.getD 2 0) * spatial + c.getD 1 0) * width) width := by
  simp only [ohwiOrder, coords, List.flatMap_assoc, List.map_flatMap, List.map_cons,
    List.map_nil, List.flatMap_cons, List.flatMap_nil, List.append_nil]
  rfl

/-- The facts of a channel-last copy of a contiguous four-axis tensor. -/
structure ChannelLast (inF outF : TensorFacts) (m n height breadth : Nat) : Prop where
  inShape : inF.logicalShape = [m, n, height, breadth]
  contiguous : inF.isCanonicalContiguous = true
  outShape : outF.logicalShape = [m, n, height, breadth]
  storageShape : outF.storageShape = [m, height, breadth, n]
  strides : outF.storageStrides = [height * (breadth * n), 1, breadth * n, n]
  width : inF.width = outF.width

theorem ohwiOrder_layout {inF outF : TensorFacts} {m n height breadth : Nat} {input : Bytes}
    {e : Elements} (hc : ChannelLast inF outF m n height breadth) (hin : Holds inF input e) :
    ohwiOrder inF.width input m n (height * breadth) = outF.layout e := by
  obtain ⟨hst, _, hrow⟩ := TensorFacts.isCanonicalContiguous_iff hc.contiguous
  rw [hc.inShape] at hst hrow
  have hinLen : input.length = m * (n * (height * breadth)) * inF.width := by
    rw [hin.length, inF.spec.byteLen, hst]
    simp
  have helem : ∀ c ∈ coords [m, height * breadth, n],
      (slice input (((c.getD 0 0 * n + c.getD 2 0) * (height * breadth) + c.getD 1 0) *
        inF.width) inF.width).length = inF.width := by
    intro c hcm
    match c, mem_coords.mp hcm with
    | [o, s, i], ⟨ho, hs, hi, _⟩ =>
      apply length_slice
      simp only [List.getD_cons_zero, List.getD_cons_succ]
      have h1 : o * n + i + 1 ≤ m * n := by
        have := Nat.mul_le_mul_right n (Nat.succ_le_of_lt ho)
        rw [Nat.succ_mul] at this
        omega
      have h2 := Nat.mul_le_mul_right (height * breadth) h1
      rw [Nat.succ_mul] at h2
      have h3 : (o * n + i) * (height * breadth) + s + 1 ≤ m * (n * (height * breadth)) := by
        rw [← Nat.mul_assoc m n]
        omega
      have h4 := Nat.mul_le_mul_right inF.width h3
      rw [Nat.succ_mul] at h4
      rw [hinLen]
      exact h4
  apply Holds.eq_layout
  swap
  · rw [hc.storageShape, hc.outShape]
    simp only [List.prod_cons, List.prod_nil, Nat.mul_one]
    rw [← Nat.mul_assoc height, ← Nat.mul_assoc n, Nat.mul_comm (height * breadth) n,
      Nat.mul_assoc n]
  refine ⟨?_, ?_⟩
  · rw [ohwiOrder_eq_coords, length_flatMap_uniform helem, length_coords, outF.spec.byteLen,
      hc.storageShape, hc.width]
    simp [Nat.mul_assoc]
  · intro coord hb
    rw [hc.outShape] at hb
    match coord, hb with
    | [o, i, y, x], ⟨ho, hi, hy, hx, _⟩ =>
      have hs : y * breadth + x < height * breadth := by
        have := Nat.mul_le_mul_right breadth (Nat.succ_le_of_lt hy)
        rw [Nat.succ_mul] at this
        omega
      -- the storage position of the coordinate is its number in channel-last order
      have hbox : InBounds [m, height * breadth, n] [o, y * breadth + x, i] :=
        ⟨ho, hs, hi, trivial⟩
      have hindex : outF.offset [o, i, y, x] =
          dot (rowMajor [m, height * breadth, n]) [o, y * breadth + x, i] := by
        simp only [TensorFacts.offset, hc.strides, dot, rowMajor, List.prod_cons, List.prod_nil]
        simp only [Nat.mul_one, Nat.add_zero, Nat.mul_assoc, Nat.add_mul]
        omega
      have hget : (coords [m, height * breadth, n])[outF.offset [o, i, y, x]]? =
          some [o, y * breadth + x, i] := by
        obtain ⟨j, hj, he⟩ := hbox.exists_unravel
        rw [hindex, ← he, dot_unravel hj, coords_eq_unravel, List.getElem?_map,
          List.getElem?_range hj]
        rfl
      rw [TensorFacts.element, ohwiOrder_eq_coords, ← hc.width, slice_flatMap helem hget,
        ← hin.read [o, i, y, x] (by rw [hc.inShape]; exact ⟨ho, hi, hy, hx, trivial⟩)]
      simp only [TensorFacts.element, TensorFacts.offset, hrow, dot, rowMajor, List.prod_cons,
        List.prod_nil, List.getD_cons_zero, List.getD_cons_succ]
      congr 2
      simp only [Nat.mul_one, Nat.add_zero, Nat.add_mul, Nat.mul_assoc]
      omega

end ModelWeights.Graph
