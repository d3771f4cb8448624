import ModelWeights.Graph.Progress
import ModelWeights.Graph.Denote

/-! # Channel-last kernels that return

The portable kernel forms no product beyond those of the admitted shape. The
half-precision kernel measures one output channel in bytes, which it does even
when there is no output channel. -/
namespace ModelWeights.Graph
open Strided Buffer

/-! ## The portable kernel -/

section Elements
variable {input : Bytes} {width spatial : Nat}

theorem copyChannelRun_succeeds {stride : Nat} : ∀ {count start : Nat} {output : List Bytes},
    (∀ j < count, start + j * stride + width ≤ input.length) →
    Succeeds (copyChannelRun input width stride count start output) fun r =>
      r.length = output.length + count
  | 0, _, _, _ => Succeeds.of_ok rfl
  | count + 1, start, output, h => by
    rw [copyChannelRun]
    have hfirst := h 0 (Nat.succ_pos _)
    refine Succeeds.guard (by omega) ?_
    refine (copyChannelRun_succeeds fun j hj => ?_).mono fun r hr => ?_
    · have hnext := h (j + 1) (Nat.succ_lt_succ hj)
      rw [Nat.succ_mul] at hnext
      omega
    · rw [hr, List.length_append, List.length_singleton]
      omega

/-- An element of one output channel lies inside the input. -/
theorem channelElement_fits {m n o c s : Nat} (ho : o < m) (hc : c < n) (hs : s < spatial)
    (hlen : input.length = m * (n * spatial) * width) :
    (o * (n * spatial) + c * spatial + s) * width + width ≤ input.length := by
  have h₁ : (o + 1) * (n * spatial) ≤ m * (n * spatial) := Nat.mul_le_mul_right _ ho
  have h₂ : (c + 1) * spatial ≤ n * spatial := Nat.mul_le_mul_right _ hc
  rw [Nat.succ_mul] at h₁ h₂
  have h₃ : (o * (n * spatial) + c * spatial + s + 1) * width ≤ m * (n * spatial) * width :=
    Nat.mul_le_mul_right _ (by omega)
  rw [Nat.succ_mul] at h₃
  rw [hlen]
  exact h₃

theorem copyChannelBlocks_succeeds {m n o s : Nat} (ho : o < m) (hs : s < spatial)
    (hwidth : 0 < width) (hlen : input.length = m * (n * spatial) * width)
    (hsize : input.length < u64Size) (hn : n < u64Size) : ∀ {fuel start : Nat}
    {output : List Bytes}, start ≤ n → n - start ≤ fuel * copyTileElements →
    Succeeds (copyChannelBlocks input width n spatial (o * (n * spatial)) s ⟨false⟩ fuel start
      output) fun r => r.length = output.length + (n - start)
  | 0, start, output, hle, hf => Succeeds.of_ok (by omega)
  | fuel + 1, start, output, hle, hf => by
    rw [copyChannelBlocks]
    split
    · next hlt =>
      have hfits := channelElement_fits ho hlt hs hlen
      have hpos := Nat.le_mul_of_pos_right (o * (n * spatial) + start * spatial + s) hwidth
      refine Succeeds.step rfl ?_
      dsimp only
      rw [min_saturatingAdd hn]
      have hoffset : ((checkedMul start spatial).bind fun offset =>
          (checkedAdd (o * (n * spatial)) offset).bind fun offset => checkedAdd offset s) =
          some (o * (n * spatial) + start * spatial + s) := by
        unfold checkedMul checkedAdd
        rw [if_pos (by omega), Option.bind_some, if_pos (by omega), Option.bind_some,
          if_pos (by omega)]
      refine Succeeds.step (okOr_eq_ok.mpr hoffset) ?_
      refine Succeeds.step (okOr_mul _ (by omega)) ?_
      refine (copyChannelRun_succeeds fun j hj => ?_).bind fun r hr => ?_
      · have hj' : start + j < n := by
          have := Nat.min_le_right (start + copyTileElements) n
          omega
        have hfits := channelElement_fits ho hj' hs hlen
        have hmoved : o * (n * spatial) + (start + j) * spatial + s =
            o * (n * spatial) + start * spatial + s + j * spatial := by
          rw [Nat.add_mul]
          omega
        rwa [hmoved, Nat.add_mul, Nat.mul_assoc] at hfits
      · rw [Nat.succ_mul] at hf
        refine (copyChannelBlocks_succeeds ho hs hwidth hlen hsize hn (Nat.min_le_right _ _)
          (by omega)).mono fun r' hr' => ?_
        rw [hr', hr]
        have := Nat.min_le_right (start + copyTileElements) n
        have := Nat.le_min.mpr ⟨Nat.le_add_right start copyTileElements, hle⟩
        omega
    · exact Succeeds.of_ok (by omega)

theorem buildOihwToOhwiElements_succeeds {m n : Nat} (hwidth : 0 < width)
    (hlen : input.length = m * (n * spatial) * width) (hsize : input.length < u64Size) :
    Succeeds (buildOihwToOhwiElements width input m n spatial (m * (n * spatial)) ⟨false⟩)
      fun _ => True := by
  unfold buildOihwToOhwiElements
  split
  · exact Succeeds.step rfl (Succeeds.of_ok trivial)
  · next hne =>
    have hm : 0 < m := Nat.pos_of_ne_zero fun h => hne (by rw [h, Nat.zero_mul])
    have hns : n * spatial ≠ 0 := fun h => hne (by rw [h, Nat.mul_zero])
    have hn : 0 < n := Nat.pos_of_ne_zero fun h => hns (by rw [h, Nat.zero_mul])
    have hs : 0 < spatial := Nat.pos_of_ne_zero fun h => hns (by rw [h, Nat.mul_zero])
    -- every product is at most the byte length
    have h₁ : n * spatial ≤ m * (n * spatial) := Nat.le_mul_of_pos_left _ hm
    have h₂ : m * (n * spatial) ≤ m * (n * spatial) * width := Nat.le_mul_of_pos_right _ hwidth
    have h₃ : spatial * width ≤ m * (n * spatial) * width :=
      Nat.mul_le_mul_right _ (Nat.le_trans (Nat.le_mul_of_pos_left _ hn) h₁)
    have h₄ : n ≤ n * spatial := Nat.le_mul_of_pos_right _ hs
    have hfuel : n - 0 ≤ (n / copyTileElements + 1) * copyTileElements := by
      have := Nat.lt_div_mul_add (a := n) (b := copyTileElements) (by decide)
      rw [Nat.succ_mul]
      omega
    refine Succeeds.step (okOr_mul _ (by omega)) ?_
    refine Succeeds.step (okOr_mul _ (by omega)) ?_
    refine (Succeeds.foldlM (fun k (out : List Bytes) => out.length = k * (n * spatial))
      (by simp) ?_).bind fun out hout => ?_
    · intro k o out hk hout
      obtain ⟨hlt, hk⟩ := List.getElem?_eq_some_iff.mp hk
      rw [List.getElem_range] at hk
      subst hk
      rw [List.length_range] at hlt
      have hbase : (k + 1) * (n * spatial) ≤ m * (n * spatial) := Nat.mul_le_mul_right _ hlt
      rw [Nat.succ_mul] at hbase
      refine Succeeds.step (okOr_mul _ (by omega)) ?_
      refine (Succeeds.foldlM (fun j (out : List Bytes) => out.length = k * (n * spatial) + j * n)
        (by simpa using hout) ?_).mono fun r hr => ?_
      · intro j s out hj hout
        obtain ⟨hjlt, hj⟩ := List.getElem?_eq_some_iff.mp hj
        rw [List.getElem_range] at hj
        subst hj
        rw [List.length_range] at hjlt
        refine (copyChannelBlocks_succeeds hlt hjlt hwidth hlen hsize (by omega) (Nat.zero_le _)
          hfuel).mono fun r hr => ?_
        rw [hr, hout, Nat.succ_mul]
        omega
      · rw [hr, List.length_range, Nat.succ_mul, Nat.mul_comm spatial n]
    · rw [List.length_range] at hout
      exact Succeeds.guard (not_not.mpr hout) (Succeeds.step rfl (Succeeds.of_ok trivial))

end Elements

/-! ## The half-precision kernel -/

namespace Simd

/-- Nine rows of `n` elements. -/
structure NineRows (n : Nat) (rows : List Bytes) : Prop where
  count : rows.length = 9
  row : ∀ row ∈ rows, row.length = n * 2

theorem NineRows.set {n s : Nat} {rows : List Bytes} {row : Bytes} (h : NineRows n rows)
    (hrow : row.length = n * 2) : NineRows n (rows.set s row) := by
  refine ⟨by rw [List.length_set, h.count], fun r hr => ?_⟩
  rcases List.mem_or_eq_of_mem_set hr with hr | rfl
  · exact h.row r hr
  · exact hrow

theorem getRange_eq {bytes : Bytes} {start stop : Nat} (message : String)
    (h : stop ≤ bytes.length) :
    getRange bytes start stop message = .ok (slice bytes start (stop - start)) := by
  rw [getRange, if_neg (Nat.not_lt.mpr h)]

section Channel
variable {source : Bytes} {n : Nat}

theorem copyScalarElement_succeeds {row : Bytes} {s c : Nat} (hsource : source.length = n * 18)
    (hn : n * 18 < u64Size) (hs : s < 9) (hc : c < n) (hrow : row.length = n * 2) :
    Succeeds (copyScalarElement source s row c) fun r => r.length = n * 2 := by
  have hstart : ((checkedMul c sourceChannelBytes).bind fun offset =>
      (checkedMul s elementBytes).bind fun spatial => checkedAdd offset spatial) =
      some (c * 18 + s * 2) := by
    simp only [show sourceChannelBytes = 18 from rfl, show elementBytes = 2 from rfl, checkedMul,
      checkedAdd]
    rw [if_pos (by omega), Option.bind_some, if_pos (by omega), Option.bind_some,
      if_pos (by omega)]
  have hslice : (slice source (c * 18 + s * 2) 2).length = 2 := length_slice (by omega)
  refine Succeeds.step (okOr_eq_ok.mpr hstart) ?_
  refine Succeeds.step (okOr_add (b := 2) _ (by omega)) ?_
  refine Succeeds.step (okOr_mul (b := 2) _ (by omega)) ?_
  refine Succeeds.step (okOr_add (b := 2) _ (by omega)) ?_
  refine Succeeds.step (getRange_eq _ (by omega)) ?_
  refine Succeeds.step (getRange_eq _ (by omega)) ?_
  rw [Nat.add_sub_cancel_left]
  refine Succeeds.of_ok ?_
  rw [length_write (by rw [hslice]; omega), hrow]

theorem copyScalarRow_succeeds {rows : List Bytes} {s a b : Nat}
    (hsource : source.length = n * 18) (hn : n * 18 < u64Size) (hs : s < 9) (hb : b ≤ n)
    (hrows : NineRows n rows) : Succeeds (copyScalarRow source a b s rows) (NineRows n) := by
  have hlt : s < rows.length := by rw [hrows.count]; exact hs
  refine Succeeds.step (okOr_eq_ok.mpr (List.getElem?_eq_getElem hlt)) ?_
  refine (Succeeds.foldlM (fun _ (row : Bytes) => row.length = n * 2)
    (hrows.row _ (List.getElem_mem hlt)) ?_).bind fun row hrow => Succeeds.of_ok (hrows.set hrow)
  intro k c row hc hrow
  obtain ⟨hk, hc⟩ := List.getElem?_eq_some_iff.mp hc
  rw [List.getElem_range', Nat.one_mul] at hc
  rw [List.length_range'] at hk
  exact copyScalarElement_succeeds hsource hn hs (by omega) hrow

theorem copyScalarChannels_succeeds {rows : List Bytes} {a b : Nat}
    (hsource : source.length = n * 18) (hn : n * 18 < u64Size) (hb : b ≤ n)
    (hrows : NineRows n rows) : Succeeds (copyScalarChannels source a b rows) (NineRows n) := by
  refine Succeeds.foldlM (fun _ => NineRows n) hrows ?_
  intro k s rows hs hrows
  have hs : s < 9 := List.mem_range.mp (List.mem_of_getElem? hs)
  exact copyScalarRow_succeeds hsource hn hs hb hrows

theorem storeBlock_succeeds {start stop : Nat} (hle : start ≤ stop) (hstop : stop ≤ n * 2) :
    ∀ {columns rows : List Bytes}, (∀ column ∈ columns, column.length = stop - start) →
      (∀ row ∈ rows, row.length = n * 2) →
      Succeeds (storeBlock start stop columns rows) fun r => r.length = rows.length ∧
        ∀ row ∈ r, row.length = n * 2
  | [], rows, _, hrows => by
    rw [storeBlock]
    · exact Succeeds.of_ok ⟨rfl, hrows⟩
    · intro _ _ _ _ h
      cases h
  | _ :: _, [], _, hrows => by
    rw [storeBlock]
    · exact Succeeds.of_ok ⟨rfl, hrows⟩
    · intro _ _ _ _ _ h
      cases h
  | column :: columns, row :: rows, hcolumns, hrows => by
    have hcolumn := hcolumns column (List.mem_cons_self ..)
    have hrow := hrows row (List.mem_cons_self ..)
    rw [storeBlock]
    refine Succeeds.step (getRange_eq _ (by rw [hrow]; exact hstop)) ?_
    refine (storeBlock_succeeds hle hstop (fun c hc => hcolumns c (List.mem_cons_of_mem _ hc))
      fun r hr => hrows r (List.mem_cons_of_mem _ hr)).bind fun rest hrest => ?_
    refine Succeeds.of_ok ⟨by rw [List.length_cons, List.length_cons, hrest.1], fun r hr => ?_⟩
    rcases List.mem_cons.mp hr with rfl | hr
    · rw [length_write (by omega), hrow]
    · exact hrest.2 r hr

theorem simdBlock_succeeds {rows : List Bytes} {a : Nat} (hsource : source.length = n * 18)
    (hn : n * 18 < u64Size) (ha : a + 16 ≤ n) (hrows : NineRows n rows) :
    Succeeds (simdBlock source a rows) (NineRows n) := by
  have hblock : (slice source (a * 18) 288).length = simdSourceBytes := length_slice (by omega)
  refine Succeeds.step (okOr_mul (b := 18) _ (by omega)) ?_
  refine Succeeds.step (okOr_add (b := 288) _ (by omega)) ?_
  refine Succeeds.step (getRange_eq _ (by omega)) ?_
  refine Succeeds.step (okOr_mul (b := 2) _ (by omega)) ?_
  refine Succeeds.step (okOr_add (b := 32) _ (by omega)) ?_
  rw [Nat.add_sub_cancel_left, transposeColumns_eq hblock]
  refine (storeBlock_succeeds (by omega) (by omega) ?_ hrows.row).bind fun stored hstored => ?_
  · intro column hcolumn
    obtain ⟨s, hs, rfl⟩ := List.mem_map.mp hcolumn
    have hs := List.mem_range.mp hs
    rw [length_flatMap_uniform (w := 2), List.length_range]
    · omega
    · intro c hc
      have hc := List.mem_range.mp hc
      exact length_slice (by rw [hblock]; show _ ≤ 288; omega)
  · have hstored : NineRows n stored := ⟨by rw [hstored.1, hrows.count], hstored.2⟩
    exact copyScalarRow_succeeds hsource hn (by decide) ha hstored

theorem simdBlocks_succeeds {b : Nat} (hsource : source.length = n * 18) (hn : n * 18 < u64Size)
    (hb : b ≤ n) : ∀ {fuel a : Nat} {rows : List Bytes}, NineRows n rows →
      Succeeds (simdBlocks source b fuel a rows) fun r => NineRows n r.2
  | 0, _, _, hrows => Succeeds.of_ok hrows
  | fuel + 1, a, rows, hrows => by
    rw [simdBlocks]
    split
    · next hle =>
      have hle : a + 16 ≤ b := hle
      exact (simdBlock_succeeds hsource hn (by omega) hrows).bind fun rows hrows =>
        simdBlocks_succeeds hsource hn hb hrows
    · exact Succeeds.of_ok hrows

theorem copyChunk_succeeds {avx2 : Bool} {rows : List Bytes} {a b : Nat}
    (hsource : source.length = n * 18) (hn : n * 18 < u64Size) (hb : b ≤ n)
    (hrows : NineRows n rows) : Succeeds (copyChunk avx2 source a b rows) (NineRows n) := by
  unfold copyChunk
  split
  · exact (simdBlocks_succeeds hsource hn hb hrows).bind fun r hr =>
      copyScalarChannels_succeeds hsource hn hb hr
  · exact copyScalarChannels_succeeds hsource hn hb hrows

theorem copyChunks_succeeds {avx2 : Bool} (hsource : source.length = n * 18)
    (hn : n * 18 < u64Size) : ∀ {fuel a : Nat} {rows : List Bytes}, NineRows n rows →
      Succeeds (copyChunks avx2 source n ⟨false⟩ fuel a rows) (NineRows n)
  | 0, _, _, hrows => Succeeds.of_ok hrows
  | fuel + 1, a, rows, hrows => by
    rw [copyChunks]
    split
    · refine Succeeds.step rfl ?_
      exact (copyChunk_succeeds hsource hn (Nat.min_le_right _ _) hrows).bind fun rows hrows =>
        copyChunks_succeeds hsource hn hrows
    · exact Succeeds.of_ok hrows

end Channel

theorem splitRows_succeeds {rowBytes : Nat} : ∀ {count : Nat} {output : Bytes},
    output.length = count * rowBytes → Succeeds (splitRows rowBytes count output) fun _ => True
  | 0, output, h => by
    rw [Nat.zero_mul, List.length_eq_zero_iff] at h
    exact Succeeds.guard (not_not.mpr h) (Succeeds.of_ok trivial)
  | count + 1, output, h => by
    rw [Nat.succ_mul] at h
    refine Succeeds.guard (by omega) ?_
    exact (splitRows_succeeds (by rw [List.length_drop]; omega)).bind fun rows _ =>
      Succeeds.of_ok trivial

theorem permuteChannel_succeeds {avx2 : Bool} {input output : Bytes} {m n o : Nat} (ho : o < m)
    (hin : input.length = m * (n * 18)) (hout : output.length = m * (n * 18))
    (hsize : input.length < u64Size) (hn : n * 18 < u64Size) :
    Succeeds (permuteChannel avx2 input n (n * 18) ⟨false⟩ output o) fun r =>
      r.length = m * (n * 18) := by
  have hchannel : (o + 1) * (n * 18) ≤ m * (n * 18) := Nat.mul_le_mul_right _ ho
  have hblock := @length_channelBlock input n o (by rw [hin]; exact hchannel)
  rw [Nat.succ_mul] at hchannel
  have hrun : Succeeds (permuteChannel avx2 input n (n * 18) ⟨false⟩ output o) fun _ => True := by
    refine Succeeds.step (okOr_mul _ (by omega)) ?_
    refine Succeeds.step (okOr_add _ (by omega)) ?_
    refine Succeeds.step (getRange_eq _ (by omega)) ?_
    refine Succeeds.step (getRange_eq _ (by omega)) ?_
    refine Succeeds.step (okOr_mul (b := 2) _ (by omega)) ?_
    rw [Nat.add_sub_cancel_left]
    have hslot : (slice output (o * (n * 18)) (n * 18)).length = 9 * (n * 2) := by
      rw [length_slice (by omega)]
      omega
    obtain ⟨rows, hrows, _⟩ := splitRows_succeeds hslot
    obtain ⟨hcount, hlen⟩ := splitRows_ok hrows
    refine Succeeds.step hrows ?_
    exact (copyChunks_succeeds (length_slice (by omega)) hn ⟨hcount, hlen⟩).bind fun _ _ =>
      Succeeds.of_ok trivial
  obtain ⟨r, hr, _⟩ := hrun
  refine Succeeds.of_eq hr ?_
  rw [permuteChannel_ok hr, length_write (by rw [hblock]; omega), hout]

/-- The kernel returns once the bytes of one output channel fit 64 bits. -/
theorem permuteOihwToOhwi3x3U16_succeeds {avx2 : Bool} {input output : Bytes} {m n : Nat}
    (hin : input.length = m * (n * 18)) (hout : output.length = m * (n * 18))
    (hsize : input.length < u64Size) (hn : n * 18 < u64Size) :
    Succeeds (permuteOihwToOhwi3x3U16 avx2 input output m n ⟨false⟩) fun _ => True := by
  have hlengths : checkedLengths m n = .ok (n * 18, m * (n * 18)) := by
    unfold checkedLengths
    show (okOr (checkedMul n 18) _ >>= _) = _
    rw [okOr_mul _ hn]
    show (okOr (checkedMul m (n * 18)) _ >>= _) = _
    rw [okOr_mul _ (by rw [← hin]; exact hsize)]
    rfl
  refine Succeeds.step hlengths ?_
  refine Succeeds.guard (by rw [not_or, not_not, not_not]; exact ⟨hin, hout⟩) ?_
  refine Succeeds.step rfl ?_
  split
  · exact Succeeds.of_ok trivial
  · refine (Succeeds.foldlM (fun _ (out : Bytes) => out.length = m * (n * 18)) hout ?_).bind
      fun out _ => Succeeds.step rfl (Succeeds.of_ok trivial)
    intro k o out ho hout
    have ho := List.mem_range.mp (List.mem_of_getElem? ho)
    exact permuteChannel_succeeds ho hin hout hsize hn

/-- It measures one output channel before it looks at the number of them. -/
theorem channelBytes_of_ok {avx2 : Bool} {input output r : Bytes} {m n : Nat}
    {cancellation : CancellationToken}
    (h : permuteOihwToOhwi3x3U16 avx2 input output m n cancellation = .ok r) :
    n * 18 < u64Size := by
  obtain ⟨_, hlengths, _⟩ := bind_ok h
  obtain ⟨_, hcb, _⟩ := bind_ok hlengths
  exact (checkedMul_eq_some.mp (okOr_eq_ok.mp hcb)).1

end Simd

end ModelWeights.Graph
