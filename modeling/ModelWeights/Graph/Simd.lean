import ModelWeights.Graph.Kernel

/-! # The 3x3 half-precision channel-last kernel

`operation_simd.rs`: the scalar kernel, the AVX2 kernel and its transpose of
sixteen channels by eight positions. A 256-bit register is the list of its 32
bytes and the unpack intrinsics are stated on byte lists, over an arbitrary
element type: they move bytes and never look at one, which is how the transpose
is computed (`transposeColumns_map`). Both kernels produce `ohwiRows` of every
output channel. -/
namespace ModelWeights.Graph.Simd

def spatialElements : Nat := 9

def elementBytes : Nat := 2

def sourceChannelBytes : Nat := spatialElements * elementBytes

def simdChannels : Nat := 16

def simdSourceBytes : Nat := simdChannels * sourceChannelBytes

def simdOutputBytes : Nat := simdChannels * elementBytes

def cancellationChannels : Nat :=
  simdChannels * ((16 * 1024) / (spatialElements * simdChannels))

/-! ## Registers -/

section Registers
variable {α : Type}

/-- `_mm256_unpacklo_epiN` (`half = 0`) and `_mm256_unpackhi_epiN` (`half = 1`)
within one 128-bit lane, for elements of `w` bytes. -/
def unpackLane (w half : Nat) (a b : List α) : List α :=
  (List.range (8 / w)).flatMap fun k =>
    Buffer.slice a (half * 8 + k * w) w ++ Buffer.slice b (half * 8 + k * w) w

def unpack (w half : Nat) (a b : List α) : List α :=
  unpackLane w half (Buffer.slice a 0 16) (Buffer.slice b 0 16) ++
    unpackLane w half (Buffer.slice a 16 16) (Buffer.slice b 16 16)

def unpackloEpi16 (a b : List α) : List α := unpack 2 0 a b

def unpackhiEpi16 (a b : List α) : List α := unpack 2 1 a b

def unpackloEpi32 (a b : List α) : List α := unpack 4 0 a b

def unpackhiEpi32 (a b : List α) : List α := unpack 4 1 a b

def unpackloEpi64 (a b : List α) : List α := unpack 8 0 a b

def unpackhiEpi64 (a b : List α) : List α := unpack 8 1 a b

/-- Two channels in one register: `inserti128` over `castsi128`. -/
def paired (source : List α) (row : Nat) : List α :=
  Buffer.slice source (row * sourceChannelBytes) (simdOutputBytes / 2) ++
    Buffer.slice source ((row + simdChannels / 2) * sourceChannelBytes) (simdOutputBytes / 2)

/-- The registers `transpose_16_channels_8_spatial` stores, in order. -/
def transposeColumns (source : List α) : List (List α) :=
  let t0 := unpackloEpi16 (paired source 0) (paired source 1)
  let t1 := unpackhiEpi16 (paired source 0) (paired source 1)
  let t2 := unpackloEpi16 (paired source 2) (paired source 3)
  let t3 := unpackhiEpi16 (paired source 2) (paired source 3)
  let t4 := unpackloEpi16 (paired source 4) (paired source 5)
  let t5 := unpackhiEpi16 (paired source 4) (paired source 5)
  let t6 := unpackloEpi16 (paired source 6) (paired source 7)
  let t7 := unpackhiEpi16 (paired source 6) (paired source 7)
  let u0 := unpackloEpi32 t0 t2
  let u1 := unpackhiEpi32 t0 t2
  let u2 := unpackloEpi32 t4 t6
  let u3 := unpackhiEpi32 t4 t6
  let u4 := unpackloEpi32 t1 t3
  let u5 := unpackhiEpi32 t1 t3
  let u6 := unpackloEpi32 t5 t7
  let u7 := unpackhiEpi32 t5 t7
  [unpackloEpi64 u0 u2, unpackhiEpi64 u0 u2, unpackloEpi64 u1 u3, unpackhiEpi64 u1 u3,
    unpackloEpi64 u4 u6, unpackhiEpi64 u4 u6, unpackloEpi64 u5 u7, unpackhiEpi64 u5 u7]

end Registers

/-! ## Rows of one output channel -/

/-- `slice.get(start..stop)`. -/
def getRange (bytes : Bytes) (start stop : Nat) (message : String) : Result Bytes :=
  if stop > bytes.length then .error (.integrity message)
  else .ok (Buffer.slice bytes start (stop - start))

/-- `OutputRows::new`: `count` rows of `rowBytes` bytes and nothing else. -/
def splitRows (rowBytes : Nat) : Nat → Bytes → Result (List Bytes)
  | 0, rest =>
    if rest ≠ [] then .error (.integrity "OHWI output channel contains bytes beyond nine rows")
    else .ok []
  | count + 1, output =>
    if output.length < rowBytes then .error (.integrity "OHWI output row is out of bounds")
    else do
      let rows ← splitRows rowBytes count (output.drop rowBytes)
      .ok (output.take rowBytes :: rows)

def copyScalarElement (sourceChannel : Bytes) (spatialIndex : Nat) (outputRow : Bytes)
    (inputChannel : Nat) : Result Bytes := do
  let sourceStart ← okOr ((checkedMul inputChannel sourceChannelBytes).bind fun offset =>
      (checkedMul spatialIndex elementBytes).bind fun spatial => checkedAdd offset spatial)
    (.limit "scalar OIHW source offset overflows usize")
  let sourceEnd ← okOr (checkedAdd sourceStart elementBytes)
    (.limit "scalar OIHW source end overflows usize")
  let outputStart ← okOr (checkedMul inputChannel elementBytes)
    (.limit "scalar OHWI output offset overflows usize")
  let outputEnd ← okOr (checkedAdd outputStart elementBytes)
    (.limit "scalar OHWI output end overflows usize")
  let source ← getRange sourceChannel sourceStart sourceEnd
    "scalar OIHW source element is out of bounds"
  let _ ← getRange outputRow outputStart outputEnd "scalar OHWI output element is out of bounds"
  .ok (Buffer.write outputRow outputStart source)

def copyScalarRow (sourceChannel : Bytes) (channelStart channelEnd spatialIndex : Nat)
    (rows : List Bytes) : Result (List Bytes) := do
  let outputRow ← okOr rows[spatialIndex]? (.integrity "OHWI spatial row is out of bounds")
  let outputRow ← (List.range' channelStart (channelEnd - channelStart)).foldlM
    (copyScalarElement sourceChannel spatialIndex) outputRow
  .ok (rows.set spatialIndex outputRow)

def copyScalarChannels (sourceChannel : Bytes) (channelStart channelEnd : Nat)
    (rows : List Bytes) : Result (List Bytes) :=
  (List.range spatialElements).foldlM
    (fun rows spatialIndex => copyScalarRow sourceChannel channelStart channelEnd spatialIndex rows)
    rows

def copyScalarNinth (sourceChannel : Bytes) (inputChannel : Nat) (rows : List Bytes) :
    Result (List Bytes) :=
  copyScalarRow sourceChannel inputChannel (inputChannel + simdChannels) (spatialElements - 1) rows

/-- The block store: `block_16` selects 32 bytes of each of the first eight
rows and the transpose stores one register in each. -/
def storeBlock (start stop : Nat) : List (List UInt8) → List Bytes → Result (List Bytes)
  | column :: columns, row :: rows => do
    let _ ← getRange row start stop "SIMD OHWI output block is out of bounds"
    let rest ← storeBlock start stop columns rows
    .ok (Buffer.write row start column :: rest)
  | _, rows => .ok rows

def simdBlock (sourceChannel : Bytes) (inputChannel : Nat) (rows : List Bytes) :
    Result (List Bytes) := do
  let sourceStart ← okOr (checkedMul inputChannel sourceChannelBytes)
    (.limit "SIMD OIHW source offset overflows usize")
  let sourceEnd ← okOr (checkedAdd sourceStart simdSourceBytes)
    (.limit "SIMD OIHW source end overflows usize")
  let sourceBlock ← getRange sourceChannel sourceStart sourceEnd
    "SIMD OIHW source block is out of bounds"
  let start ← okOr (checkedMul inputChannel elementBytes)
    (.limit "SIMD OHWI output offset overflows usize")
  let stop ← okOr (checkedAdd start simdOutputBytes)
    (.limit "SIMD OHWI output end overflows usize")
  let rows ← storeBlock start stop (transposeColumns sourceBlock) rows
  copyScalarNinth sourceChannel inputChannel rows

/-- `while input_channel + SIMD_CHANNELS <= channel_end`; returns the first
channel left for the scalar tail. -/
def simdBlocks (sourceChannel : Bytes) (channelEnd : Nat) :
    Nat → Nat → List Bytes → Result (Nat × List Bytes)
  | 0, inputChannel, rows => .ok (inputChannel, rows)
  | fuel + 1, inputChannel, rows =>
    if inputChannel + simdChannels ≤ channelEnd then do
      let rows ← simdBlock sourceChannel inputChannel rows
      simdBlocks sourceChannel channelEnd fuel (inputChannel + simdChannels) rows
    else .ok (inputChannel, rows)

/-- One cancellation chunk of channels. -/
def copyChunk (avx2 : Bool) (sourceChannel : Bytes) (channelStart channelEnd : Nat)
    (rows : List Bytes) : Result (List Bytes) :=
  if avx2 then do
    let (inputChannel, rows) ← simdBlocks sourceChannel channelEnd (channelEnd - channelStart)
      channelStart rows
    copyScalarChannels sourceChannel inputChannel channelEnd rows
  else copyScalarChannels sourceChannel channelStart channelEnd rows

def copyChunks (avx2 : Bool) (sourceChannel : Bytes) (inputChannels : Nat)
    (cancellation : CancellationToken) : Nat → Nat → List Bytes → Result (List Bytes)
  | 0, _, rows => .ok rows
  | fuel + 1, channelStart, rows =>
    if channelStart < inputChannels then do
      cancellation.check
      let channelEnd := min (saturatingAdd channelStart cancellationChannels) inputChannels
      let rows ← copyChunk avx2 sourceChannel channelStart channelEnd rows
      copyChunks avx2 sourceChannel inputChannels cancellation fuel channelEnd rows
    else .ok rows

/-! ## The kernels -/

def checkedLengths (outputChannels inputChannels : Nat) : Result (Nat × Nat) := do
  let outputChannelBytes ← okOr (checkedMul inputChannels sourceChannelBytes)
    (.limit "3x3 u16 OIHW channel byte length overflows usize")
  let expectedBytes ← okOr (checkedMul outputChannels outputChannelBytes)
    (.limit "3x3 u16 OIHW byte length overflows usize")
  .ok (outputChannelBytes, expectedBytes)

/-- One output channel: its rows are split off, filled and put back. -/
def permuteChannel (avx2 : Bool) (input : Bytes) (inputChannels outputChannelBytes : Nat)
    (cancellation : CancellationToken) (output : Bytes) (outputChannel : Nat) : Result Bytes := do
  let start ← okOr (checkedMul outputChannel outputChannelBytes)
    (.limit "OIHW output-channel offset overflows usize")
  let stop ← okOr (checkedAdd start outputChannelBytes)
    (.limit "OIHW output-channel end overflows usize")
  let sourceChannel ← getRange input start stop "OIHW source channel is out of bounds"
  let outputSlice ← getRange output start stop "OHWI output channel is out of bounds"
  let rowBytes ← okOr (checkedMul inputChannels elementBytes)
    (.limit "OHWI row byte length overflows usize")
  let rows ← splitRows rowBytes spatialElements outputSlice
  let rows ← copyChunks avx2 sourceChannel inputChannels cancellation inputChannels 0 rows
  .ok (Buffer.write output start rows.flatten)

/-- `permute_avx2` and `permute_scalar`, which differ in the chunk copy only. -/
def permuteChannels (avx2 : Bool) (input output : Bytes)
    (outputChannels inputChannels outputChannelBytes : Nat) (cancellation : CancellationToken) :
    Result Bytes := do
  let output ← (List.range outputChannels).foldlM
    (permuteChannel avx2 input inputChannels outputChannelBytes cancellation) output
  cancellation.check
  .ok output

def permuteOihwToOhwi3x3U16 (avx2Available : Bool) (input output : Bytes)
    (outputChannels inputChannels : Nat) (cancellation : CancellationToken) : Result Bytes := do
  let (outputChannelBytes, expectedBytes) ← checkedLengths outputChannels inputChannels
  if input.length ≠ expectedBytes ∨ output.length ≠ expectedBytes then
    .error (.integrity "3x3 u16 OIHW-to-OHWI buffers differ from their inferred byte length")
  else do
    cancellation.check
    if expectedBytes = 0 then .ok output
    else
      permuteChannels avx2Available input output outputChannels inputChannels
        outputChannelBytes cancellation

/-! ## The transpose -/

section Transpose
variable {α β : Type} (f : α → β)

theorem slice_map (l : List α) (off len : Nat) :
    Buffer.slice (l.map f) off len = (Buffer.slice l off len).map f := by
  simp [Buffer.slice, List.map_drop, List.map_take]

theorem unpack_map (w half : Nat) (a b : List α) :
    unpack w half (a.map f) (b.map f) = (unpack w half a b).map f := by
  simp only [unpack, unpackLane, slice_map, List.map_append, List.map_flatMap]

theorem paired_map (source : List α) (row : Nat) :
    paired (source.map f) row = (paired source row).map f := by
  simp only [paired, slice_map, List.map_append]

/-- The transpose moves elements without looking at them. -/
theorem transposeColumns_map (source : List α) :
    transposeColumns (source.map f) = (transposeColumns source).map (List.map f) := by
  simp only [transposeColumns, unpackloEpi16, unpackhiEpi16, unpackloEpi32, unpackhiEpi32,
    unpackloEpi64, unpackhiEpi64, paired_map, unpack_map, List.map_cons, List.map_nil]

end Transpose

/-- The byte positions that end up in each register. -/
theorem transposeColumns_range :
    transposeColumns (List.range simdSourceBytes) =
      (List.range 8).map fun s => (List.range 16).flatMap fun c => [c * 18 + s * 2, c * 18 + s * 2 + 1] := by
  decide +kernel

theorem eq_map_getD {l : List UInt8} {n : Nat} (h : l.length = n) :
    l = (List.range n).map fun i => l.getD i 0 := by
  apply List.ext_getElem?
  intro i
  rcases Nat.lt_or_ge i n with hi | hi
  · simp [List.getElem?_range hi, List.getElem?_eq_getElem (show i < l.length by omega)]
  · rw [List.getElem?_eq_none (by omega), List.getElem?_eq_none (by simpa using hi)]

theorem slice_two {l : List UInt8} {p : Nat} (h : p + 2 ≤ l.length) :
    Buffer.slice l p 2 = [l.getD p 0, l.getD (p + 1) 0] := by
  apply List.ext_getElem?
  intro i
  rw [Buffer.getElem?_slice]
  match i with
  | 0 => simp [List.getElem?_eq_getElem (show p < l.length by omega)]
  | 1 => simp [List.getElem?_eq_getElem (show p + 1 < l.length by omega)]
  | i + 2 => simp

/-- Register `s` holds position `s` of all sixteen channels. -/
theorem transposeColumns_eq {block : Bytes} (h : block.length = simdSourceBytes) :
    transposeColumns block = (List.range 8).map fun s =>
      (List.range 16).flatMap fun c => Buffer.slice block (c * 18 + s * 2) 2 := by
  conv_lhs => rw [eq_map_getD h, transposeColumns_map, transposeColumns_range]
  rw [List.map_map]
  apply List.map_congr_left
  intro s hs
  simp only [Function.comp_apply, List.map_flatMap]
  apply List.flatMap_congr
  intro c hc
  have hs := List.mem_range.mp hs
  have hc := List.mem_range.mp hc
  rw [slice_two (by rw [h]; show _ ≤ 288; omega)]
  rfl

/-! ## Filling rows -/

/-- Position `s` of the first `n` channels of one source channel block. -/
def ohwiRow (source : Bytes) (s n : Nat) : Bytes :=
  (List.range n).flatMap fun c => Buffer.slice source (c * 18 + s * 2) 2

/-- A row whose first `n` elements have been written. -/
def filledRow (source row : Bytes) (s n : Nat) : Bytes := ohwiRow source s n ++ row.drop (n * 2)

def filledRows (source : Bytes) (rows : List Bytes) (n : Nat → Nat) : List Bytes :=
  rows.mapIdx fun s row => filledRow source row s (n s)

section Rows
variable {source : Bytes} {rows : List Bytes}

theorem length_ohwiRow {s n : Nat} (hs : s < 9) (hn : n * 18 ≤ source.length) :
    (ohwiRow source s n).length = n * 2 := by
  rw [ohwiRow, Buffer.length_flatMap_uniform (w := 2), List.length_range]
  intro c hc
  have := List.mem_range.mp hc
  exact Buffer.length_slice (by omega)

theorem ohwiRow_add (s n k : Nat) : ohwiRow source s (n + k) =
    ohwiRow source s n ++ (List.range k).flatMap fun c =>
      Buffer.slice source ((n + c) * 18 + s * 2) 2 := by
  simp [ohwiRow, List.range_add, List.flatMap_append, List.flatMap_map]

theorem length_block {s n k : Nat} (hs : s < 9) (hn : (n + k) * 18 ≤ source.length) :
    ((List.range k).flatMap fun c => Buffer.slice source ((n + c) * 18 + s * 2) 2).length =
      k * 2 := by
  rw [Buffer.length_flatMap_uniform (w := 2), List.length_range]
  intro c hc
  have := List.mem_range.mp hc
  exact Buffer.length_slice (by omega)

/-- Writing the next `k` elements of a row. -/
theorem write_filledRow {row : Bytes} {s n k : Nat} (hs : s < 9)
    (hn : (n + k) * 18 ≤ source.length) :
    Buffer.write (filledRow source row s n) (n * 2)
        ((List.range k).flatMap fun c => Buffer.slice source ((n + c) * 18 + s * 2) 2) =
      filledRow source row s (n + k) := by
  have hl : (ohwiRow source s n).length = n * 2 := length_ohwiRow hs (by omega)
  have := Buffer.write_append (ohwiRow source s n) (row.drop (n * 2))
    ((List.range k).flatMap fun c => Buffer.slice source ((n + c) * 18 + s * 2) 2)
  rw [hl, length_block hs hn, List.drop_drop] at this
  rw [filledRow, this, filledRow, ohwiRow_add, Nat.add_mul]

theorem copyScalarElement_ok {row row' : Bytes} {s c : Nat}
    (h : copyScalarElement source s row c = .ok row') :
    row' = Buffer.write row (c * 2) (Buffer.slice source (c * 18 + s * 2) 2) := by
  obtain ⟨start, hstart, h⟩ := bind_ok h
  obtain ⟨stop, hstop, h⟩ := bind_ok h
  obtain ⟨ostart, hostart, h⟩ := bind_ok h
  obtain ⟨ostop, _, h⟩ := bind_ok h
  obtain ⟨src, hsrc, h⟩ := bind_ok h
  obtain ⟨_, _, h⟩ := bind_ok h
  obtain ⟨a, ha, hstart⟩ := Option.bind_eq_some_iff.mp (okOr_eq_ok.mp hstart)
  obtain ⟨b, hb, hstart⟩ := Option.bind_eq_some_iff.mp hstart
  have ha := (checkedMul_eq_some.mp ha).2
  have hb := (checkedMul_eq_some.mp hb).2
  have hstart := (checkedAdd_eq_some.mp hstart).2
  have hstop := (checkedAdd_eq_some.mp (okOr_eq_ok.mp hstop)).2
  have hostart := (checkedMul_eq_some.mp (okOr_eq_ok.mp hostart)).2
  have hsrc := (unless_error_ok hsrc).2
  simp only [Except.ok.injEq] at h hsrc
  simp only [sourceChannelBytes, spatialElements, elementBytes] at ha hb hstop hostart
  rw [← h, ← hsrc, hstop, hstart, ha, hb, hostart, Nat.add_sub_cancel_left]

theorem filledRow_scalar {row r : Bytes} {s a k : Nat} (hs : s < 9)
    (hn : (a + k) * 18 ≤ source.length)
    (h : (List.range' a k).foldlM (copyScalarElement source s) (filledRow source row s a) = .ok r) :
    r = filledRow source row s (a + k) := by
  have := foldlM_ok (fun j x => j ≤ k → x = filledRow source row s (a + j)) (by simp) ?_ h
  · simpa using this
  intro j c x y hc hx hy hj
  obtain ⟨hlt, hc⟩ := List.getElem?_eq_some_iff.mp hc
  rw [List.getElem_range'] at hc
  simp only [Nat.one_mul] at hc
  have hw := @write_filledRow source row s (a + j) 1 hs (by omega)
  rw [copyScalarElement_ok hy, hx (by omega), ← hc, ← Nat.add_assoc, ← hw]
  simp

theorem filledRows_set {n : Nat → Nat} {s m : Nat} {row : Bytes} (hs : rows[s]? = some row) :
    (filledRows source rows n).set s (filledRow source row s m) =
      filledRows source rows fun i => if i = s then m else n i := by
  apply List.ext_getElem?
  intro i
  have hlt := (List.getElem?_eq_some_iff.mp hs).1
  by_cases hi : i = s
  · subst hi
    rw [List.getElem?_set_self (by simpa [filledRows] using hlt)]
    simp [filledRows, hs]
  · rw [List.getElem?_set_ne (by omega)]
    simp [filledRows, hi]

theorem filledRows_congr {n m : Nat → Nat} (h : ∀ i < rows.length, n i = m i) :
    filledRows source rows n = filledRows source rows m := by
  apply List.ext_getElem?
  intro i
  rw [filledRows, filledRows, List.getElem?_mapIdx, List.getElem?_mapIdx]
  rcases Nat.lt_or_ge i rows.length with hi | hi
  · rw [h i hi]
  · simp [List.getElem?_eq_none hi]

theorem copyScalarRow_ok {n : Nat → Nat} {a b s : Nat} {r : List Bytes} (hs : s < 9)
    (ha : n s = a) (hab : a ≤ b) (hb : b * 18 ≤ source.length)
    (h : copyScalarRow source a b s (filledRows source rows n) = .ok r) :
    r = filledRows source rows fun i => if i = s then b else n i := by
  obtain ⟨row, hrow, h⟩ := bind_ok h
  obtain ⟨row', hfold, h⟩ := bind_ok h
  have hr := Except.ok.inj h
  have hrow := okOr_eq_ok.mp hrow
  rw [filledRows, List.getElem?_mapIdx, Option.map_eq_some_iff] at hrow
  obtain ⟨row₀, hrow₀, rfl⟩ := hrow
  rw [ha] at hfold
  have := filledRow_scalar hs (by rw [Nat.add_sub_cancel' hab]; exact hb) hfold
  rw [← hr, this, Nat.add_sub_cancel' hab, filledRows_set hrow₀]

theorem copyScalarChannels_ok {a b : Nat} {r : List Bytes} (hrows : rows.length = 9)
    (hab : a ≤ b) (hb : b * 18 ≤ source.length)
    (h : copyScalarChannels source a b (filledRows source rows fun _ => a) = .ok r) :
    r = filledRows source rows fun _ => b := by
  have := foldlM_ok (fun k x => k ≤ 9 →
    x = filledRows source rows fun i => if i < k then b else a) (by simp) ?_ h
  · rw [this (by simp [spatialElements])]
    apply filledRows_congr
    intro i hi
    simp [spatialElements]
    omega
  intro k s x y hs hx hy hk
  obtain ⟨hlt, hs⟩ := List.getElem?_eq_some_iff.mp hs
  rw [List.getElem_range] at hs
  subst hs
  rw [hx (by omega)] at hy
  rw [copyScalarRow_ok (by omega) (by simp) hab hb hy]
  apply filledRows_congr
  intro i hi
  grind

theorem storeBlock_ok {start stop : Nat} : ∀ {columns : List Bytes} {rs r : List Bytes},
    storeBlock start stop columns rs = .ok r → ∀ i : Nat, r[i]? = rs[i]?.map fun row =>
      (columns[i]?).elim row fun column => Buffer.write row start column
  | column :: columns, row :: rs, r, h, i => by
    rw [storeBlock] at h
    obtain ⟨_, _, h⟩ := bind_ok h
    obtain ⟨rest, hrest, h⟩ := bind_ok h
    rw [← Except.ok.inj h]
    cases i with
    | zero => simp
    | succ i => simpa using storeBlock_ok hrest i
  | [], rs, r, h, i => by
    rw [storeBlock] at h
    · rw [Except.ok.inj h]; simp
    · intro _ _ _ _ hc; cases hc
  | _ :: _, [], r, h, i => by
    rw [storeBlock] at h
    · rw [← Except.ok.inj h]; simp
    · intro _ _ _ _ _ hr; cases hr

theorem simdBlock_ok {a : Nat} {r : List Bytes}
    (h : simdBlock source a (filledRows source rows fun _ => a) = .ok r)
    (hb : (a + 16) * 18 ≤ source.length) :
    r = filledRows source rows fun i => if i < 9 then a + 16 else a := by
  obtain ⟨start, hstart, h⟩ := bind_ok h
  obtain ⟨stop, hstop, h⟩ := bind_ok h
  obtain ⟨block, hblock, h⟩ := bind_ok h
  obtain ⟨ostart, hostart, h⟩ := bind_ok h
  obtain ⟨ostop, _, h⟩ := bind_ok h
  obtain ⟨stored, hstored, h⟩ := bind_ok h
  have hstart : start = a * 18 := (checkedMul_eq_some.mp (okOr_eq_ok.mp hstart)).2
  have hstop : stop = start + 288 := (checkedAdd_eq_some.mp (okOr_eq_ok.mp hstop)).2
  have hostart : ostart = a * 2 := (checkedMul_eq_some.mp (okOr_eq_ok.mp hostart)).2
  have hblock : Buffer.slice source (a * 18) 288 = block := by
    have := Except.ok.inj (unless_error_ok hblock).2
    rwa [hstop, hstart, Nat.add_sub_cancel_left] at this
  have hlen : block.length = simdSourceBytes := by
    rw [← hblock]; exact Buffer.length_slice (by omega)
  -- the eight stored registers move the first eight rows sixteen channels on
  have hrows : stored = filledRows source rows fun i => if i < 8 then a + 16 else a := by
    apply List.ext_getElem?
    intro i
    rw [storeBlock_ok hstored i, filledRows, filledRows, List.getElem?_mapIdx,
      List.getElem?_mapIdx, Option.map_map]
    congr 1
    funext row
    rw [Function.comp_apply, transposeColumns_eq hlen, hostart]
    rcases Nat.lt_or_ge i 8 with hi | hi
    · simp only [List.getElem?_map, List.getElem?_range hi, Option.map_some, Option.elim_some,
        if_pos hi]
      rw [← write_filledRow (by omega) hb]
      congr 1
      apply List.flatMap_congr
      intro c hc
      have hc := List.mem_range.mp hc
      rw [← hblock, Buffer.slice_slice _ _ _ _ _ (by omega)]
      congr 1
      omega
    · simp [Nat.not_lt.mpr hi]
  rw [hrows] at h
  rw [copyScalarRow_ok (by decide) (by simp [spatialElements]) (by omega) hb h]
  apply filledRows_congr
  intro i hi
  simp only [spatialElements]
  grind

theorem simdBlocks_ok (hrows : rows.length = 9) {b : Nat} (hb : b * 18 ≤ source.length) :
    ∀ {fuel a m : Nat} {r : List Bytes}, a ≤ b →
      simdBlocks source b fuel a (filledRows source rows fun _ => a) = .ok (m, r) →
      a ≤ m ∧ m ≤ b ∧ r = filledRows source rows fun _ => m
  | 0, a, m, r, hab, h => by
    simp only [simdBlocks, Except.ok.injEq, Prod.mk.injEq] at h
    obtain ⟨rfl, rfl⟩ := h
    exact ⟨Nat.le_refl _, hab, rfl⟩
  | fuel + 1, a, m, r, hab, h => by
    rw [simdBlocks] at h
    split at h
    · next hle =>
      have hle : a + 16 ≤ b := hle
      obtain ⟨next, hnext, h⟩ := bind_ok h
      rw [simdBlock_ok hnext (by omega),
        filledRows_congr (m := fun _ => a + 16) (fun i hi => if_pos (by omega))] at h
      obtain ⟨h1, h2, h3⟩ := simdBlocks_ok hrows hb hle h
      exact ⟨by omega, h2, h3⟩
    · simp only [Except.ok.injEq, Prod.mk.injEq] at h
      obtain ⟨rfl, rfl⟩ := h
      exact ⟨Nat.le_refl _, hab, rfl⟩

/-- With and without AVX2 a chunk fills the same elements of every row. -/
theorem copyChunk_ok (hrows : rows.length = 9) {avx2 : Bool} {a b : Nat} {r : List Bytes}
    (hab : a ≤ b) (hb : b * 18 ≤ source.length)
    (h : copyChunk avx2 source a b (filledRows source rows fun _ => a) = .ok r) :
    r = filledRows source rows fun _ => b := by
  unfold copyChunk at h
  split at h
  · obtain ⟨⟨m, mid⟩, hmid, h⟩ := bind_ok h
    obtain ⟨_, hmb, rfl⟩ := simdBlocks_ok hrows hb hab hmid
    exact copyScalarChannels_ok hrows hmb hb h
  · exact copyScalarChannels_ok hrows hab hb h

theorem copyChunks_ok (hrows : rows.length = 9) {avx2 : Bool} {n : Nat}
    {cancellation : CancellationToken} (hn : n * 18 ≤ source.length) (hsize : n < u64Size) :
    ∀ {fuel a : Nat} {r : List Bytes}, a ≤ n → n ≤ fuel + a →
      copyChunks avx2 source n cancellation fuel a (filledRows source rows fun _ => a) = .ok r →
      r = filledRows source rows fun _ => n
  | 0, a, r, han, hf, h => by
    have : a = n := by omega
    subst this
    exact (Except.ok.inj h).symm
  | fuel + 1, a, r, han, hf, h => by
    rw [copyChunks] at h
    split at h
    · next hlt =>
      obtain ⟨_, _, h⟩ := bind_ok h
      obtain ⟨next, hnext, h⟩ := bind_ok h
      rw [min_saturatingAdd hsize] at h hnext
      have hge : a + 1 ≤ min (a + cancellationChannels) n := by
        simp only [show cancellationChannels = 1808 by decide]
        omega
      have hle := Nat.min_le_right (a + cancellationChannels) n
      rw [copyChunk_ok hrows (by omega) (by omega) hnext] at h
      exact copyChunks_ok hrows hn hsize hle (by omega) h
    · have : a = n := by omega
      subst this
      exact (Except.ok.inj h).symm

end Rows

/-! ## The whole kernel -/

theorem splitRows_ok {rowBytes : Nat} : ∀ {count : Nat} {output : Bytes} {rows : List Bytes},
    splitRows rowBytes count output = .ok rows →
      rows.length = count ∧ ∀ row ∈ rows, row.length = rowBytes
  | 0, output, rows, h => by
    obtain ⟨_, h⟩ := unless_error_ok h
    simp [← Except.ok.inj h]
  | count + 1, output, rows, h => by
    obtain ⟨hlen, h⟩ := unless_error_ok h
    obtain ⟨rest, hrest, h⟩ := bind_ok h
    obtain ⟨hc, hr⟩ := splitRows_ok hrest
    rw [← Except.ok.inj h]
    refine ⟨by simp [hc], ?_⟩
    intro row hm
    rcases List.mem_cons.mp hm with rfl | hm
    · simp; omega
    · exact hr row hm

/-- Rows that are filled to their end hold nothing else. -/
theorem flatten_filledRows {source : Bytes} {rows : List Bytes} {n : Nat} (hrows : rows.length = 9)
    (hl : ∀ row ∈ rows, row.length = n * 2) :
    (filledRows source rows fun _ => n).flatten =
      (List.range 9).flatMap fun s => ohwiRow source s n := by
  have : (filledRows source rows fun _ => n) =
      (List.range 9).map fun s => ohwiRow source s n := by
    apply List.ext_getElem?
    intro i
    rw [filledRows, List.getElem?_mapIdx, List.getElem?_map]
    rcases Nat.lt_or_ge i 9 with hi | hi
    · have hlt : i < rows.length := by omega
      rw [List.getElem?_range hi, List.getElem?_eq_getElem hlt]
      have := hl rows[i] (List.getElem_mem _)
      simp [filledRow, List.drop_eq_nil_of_le (Nat.le_of_eq this)]
    · rw [List.getElem?_eq_none (by omega), List.getElem?_eq_none (by simpa using hi)]
      rfl
  rw [this, List.flatMap_def]

theorem filledRows_zero (source : Bytes) (rows : List Bytes) :
    (filledRows source rows fun _ => 0) = rows := by
  apply List.ext_getElem?
  intro i
  rw [filledRows, List.getElem?_mapIdx]
  cases rows[i]? <;> simp [filledRow, ohwiRow]

/-- One output channel in channel-last order. -/
def channelBlock (input : Bytes) (n o : Nat) : Bytes :=
  (List.range 9).flatMap fun s => ohwiRow (Buffer.slice input (o * (n * 18)) (n * 18)) s n

theorem length_channelBlock {input : Bytes} {n o : Nat} (h : (o + 1) * (n * 18) ≤ input.length) :
    (channelBlock input n o).length = n * 18 := by
  rw [channelBlock, Buffer.length_flatMap_uniform (w := n * 2)]
  · simp; omega
  · intro s hs
    refine length_ohwiRow (List.mem_range.mp hs) ?_
    rw [Buffer.length_slice (by rw [Nat.succ_mul] at h; omega)]

theorem channelBlock_eq (input : Bytes) (n o : Nat) :
    channelBlock input n o = (List.range 9).flatMap fun s =>
      (List.range n).flatMap fun c => Buffer.slice input (((o * n + c) * 9 + s) * 2) 2 := by
  apply List.flatMap_congr
  intro s hs
  apply List.flatMap_congr
  intro c hc
  have hs := List.mem_range.mp hs
  have hc := List.mem_range.mp hc
  rw [Buffer.slice_slice _ _ _ _ _ (by omega), ← Nat.mul_assoc]
  congr 1
  omega

theorem permuteChannel_ok {avx2 : Bool} {input output r : Bytes} {n o : Nat}
    {cancellation : CancellationToken}
    (h : permuteChannel avx2 input n (n * 18) cancellation output o = .ok r) :
    r = Buffer.write output (o * (n * 18)) (channelBlock input n o) := by
  obtain ⟨start, hstart, h⟩ := bind_ok h
  obtain ⟨stop, hstop, h⟩ := bind_ok h
  obtain ⟨source, hsource, h⟩ := bind_ok h
  obtain ⟨slot, _, h⟩ := bind_ok h
  obtain ⟨rowBytes, hrow, h⟩ := bind_ok h
  obtain ⟨rows, hsplit, h⟩ := bind_ok h
  obtain ⟨filled, hfill, h⟩ := bind_ok h
  have hstart := (checkedMul_eq_some.mp (okOr_eq_ok.mp hstart)).2
  have hstop := (checkedAdd_eq_some.mp (okOr_eq_ok.mp hstop)).2
  obtain ⟨hsize, hrow⟩ := checkedMul_eq_some.mp (okOr_eq_ok.mp hrow)
  have hrow : rowBytes = n * 2 := hrow
  have hsize : n * 2 < u64Size := hsize
  obtain ⟨hfit, hsource⟩ := unless_error_ok hsource
  have hsource := Except.ok.inj hsource
  rw [hstop, Nat.add_sub_cancel_left] at hsource
  obtain ⟨hcount, hlen⟩ := splitRows_ok hsplit
  have hcount : rows.length = 9 := hcount
  rw [hrow] at hlen
  have hsl : source.length = n * 18 := by rw [← hsource]; exact Buffer.length_slice (by omega)
  rw [← filledRows_zero source rows] at hfill
  have hdone := copyChunks_ok hcount (by omega) (by omega) (Nat.zero_le _) (by omega) hfill
  rw [← Except.ok.inj h, hdone, flatten_filledRows hcount hlen, ← hsource, hstart]
  rfl

theorem permuteChannels_ok {avx2 : Bool} {input output r : Bytes} {m n : Nat}
    {cancellation : CancellationToken} (hin : input.length = m * (n * 18))
    (hout : output.length = m * (n * 18))
    (h : permuteChannels avx2 input output m n (n * 18) cancellation = .ok r) :
    r = (List.range m).flatMap (channelBlock input n) := by
  obtain ⟨out, hfold, h⟩ := bind_ok h
  obtain ⟨_, _, h⟩ := bind_ok h
  have hinv := foldlM_ok (fun k x => k ≤ m →
    x = (List.range k).flatMap (channelBlock input n) ++ output.drop (k * (n * 18)))
    (by simp) ?_ hfold
  · rw [List.length_range] at hinv
    rw [← Except.ok.inj h, hinv (Nat.le_refl _), List.drop_eq_nil_of_le (by omega),
      List.append_nil]
  intro k o x y ho hx hy hk
  obtain ⟨_, ho⟩ := List.getElem?_eq_some_iff.mp ho
  rw [List.getElem_range] at ho
  rw [permuteChannel_ok hy, ← ho, hx (by omega), Buffer.write_block]
  intro i hi
  apply length_channelBlock
  rw [hin]
  exact Nat.mul_le_mul_right _ (by omega)

/-- Both kernels write the elements in channel-last order. -/
theorem permuteOihwToOhwi3x3U16_ok {avx2 : Bool} {input output r : Bytes} {m n : Nat}
    {cancellation : CancellationToken}
    (h : permuteOihwToOhwi3x3U16 avx2 input output m n cancellation = .ok r) :
    r = ohwiOrder 2 input m n 9 := by
  obtain ⟨⟨channelBytes, expected⟩, hlen, h⟩ := bind_ok h
  obtain ⟨cb, hcb, hlen⟩ := bind_ok hlen
  obtain ⟨eb, heb, hlen⟩ := bind_ok hlen
  have hcb : cb = n * 18 := (checkedMul_eq_some.mp (okOr_eq_ok.mp hcb)).2
  have heb := (checkedMul_eq_some.mp (okOr_eq_ok.mp heb)).2
  simp only [Except.ok.injEq, Prod.mk.injEq] at hlen
  rw [← hlen.1, ← hlen.2, heb, hcb] at h
  obtain ⟨hl, h⟩ := unless_error_ok h
  obtain ⟨_, _, h⟩ := bind_ok h
  have hall : r = (List.range m).flatMap (channelBlock input n) := by
    split at h
    · next hz =>
      have hnil : output = [] := List.length_eq_zero_iff.mp (by omega)
      rw [← Except.ok.inj h, hnil]
      symm
      rw [List.flatMap_eq_nil_iff]
      intro o ho
      have ho := List.mem_range.mp ho
      apply List.length_eq_zero_iff.mp
      rcases Nat.mul_eq_zero.mp hz with hz | hz
      · omega
      · rw [length_channelBlock (by rw [hz]; simp), hz]
    · exact permuteChannels_ok (by omega) (by omega) h
  rw [hall]
  exact List.flatMap_congr fun o _ => channelBlock_eq input n o

end ModelWeights.Graph.Simd
