import ModelWeights.Lib.Lockstep
import ModelWeights.Prepared.Contiguous

/-! # The two casts of the built-in provider

`castFloatBytes` writes the converted elements into the output of its caller,
`castFloatBytesOwned` collects them into an output of its own. They have their
own conversion tables and their own loops, and compute the same. -/
namespace ModelWeights.Prepared
open ModelWeights.Graph Parsing Buffer

/-! ## Elements -/

def readU16 (bytes : Bytes) : Result (BitVec 16) :=
  if bytes.length = 2 then .ok (BitVec.ofNat 16 (leNat bytes))
  else .error (.integrity "float source element is not two bytes")

def readF32 (bytes : Bytes) : Result (BitVec 32) :=
  if bytes.length = 4 then .ok (BitVec.ofNat 32 (leNat bytes))
  else .error (.integrity "f32 source element is not four bytes")

def writeU16 (output : Bytes) (value : BitVec 16) : Result Bytes :=
  if output.length = 2 then .ok (leBytes 2 value.toNat)
  else .error (.integrity "float target element is not two bytes")

def writeF32 (output : Bytes) (value : BitVec 32) : Result Bytes :=
  if output.length = 4 then .ok (leBytes 4 value.toNat)
  else .error (.integrity "f32 target element is not four bytes")

/-! ## Blocks -/

section Chunks
variable {κ : Type}

/-- A loop over `sources.zip(targets)` that overwrites each target. -/
def writeZip (step : κ → Bytes → Result Bytes) : List κ → List Bytes → Result (List Bytes)
  | source :: sources, target :: targets => do
    let target ← step source target
    let targets ← writeZip step sources targets
    return target :: targets
  | _, targets => .ok targets

/-- A loop over `sources.zip(output.chunks_exact_mut(width))`. -/
def writeChunks (width : Nat) (step : κ → Bytes → Result Bytes) (sources : List κ)
    (output : Bytes) : Result Bytes := do
  let chunks ← writeZip step sources (chunksExact output width)
  return chunks.flatten ++ output.drop (output.length / width * width)

end Chunks

def castFloatBlock (half : HalfConversions) (sourceDtype : DType) (source : Bytes)
    (targetDtype : DType) (output : Bytes) : Result Bytes :=
  match sourceDtype, targetDtype with
  | .u8, .f32 =>
    writeChunks 4 (fun value target => writeF32 target (f32FromU8 value.toNat)) source output
  | .f32, .f16 => writeChunks 2 (fun source target => do
      let value ← readF32 source
      writeU16 target (half.f16FromF32 value)) (chunksExact source 4) output
  | .f32, .bf16 => writeChunks 2 (fun source target => do
      let value ← readF32 source
      writeU16 target (half.bf16FromF32 value)) (chunksExact source 4) output
  | .f16, .f32 => writeChunks 4 (fun source target => do
      let value ← readU16 source
      writeF32 target (half.f16ToF32 value)) (chunksExact source 2) output
  | .bf16, .f32 => writeChunks 4 (fun source target => do
      let value ← readU16 source
      writeF32 target (half.bf16ToF32 value)) (chunksExact source 2) output
  | .f16, .bf16 => writeChunks 2 (fun source target => do
      let bits ← readU16 source
      let value := half.f16ToF32 bits
      writeU16 target (half.bf16FromF32 value)) (chunksExact source 2) output
  | .bf16, .f16 => writeChunks 2 (fun source target => do
      let bits ← readU16 source
      let value := half.bf16ToF32 bits
      writeU16 target (half.f16FromF32 value)) (chunksExact source 2) output
  | _, _ => .error (.unsupported ("built-in contiguous conversion from " ++
      debugDType sourceDtype ++ " to " ++ debugDType targetDtype))

/-- One turn of the loop of `cast_float_bytes`. -/
def castFloatTurn (half : HalfConversions) (sourceDtype : DType) (source : Bytes)
    (targetDtype : DType) (sourceWidth targetWidth elements : Nat)
    (cancellation : CancellationToken) (output : Bytes) (elementStart : Nat) : Result Bytes := do
  cancellation.check
  let blockElements := min castBlockElements (elements - elementStart)
  let sourceStart ← okOr (checkedMul elementStart sourceWidth)
    (.limit "float cast source offset overflows usize")
  let sourceEnd ← okOr ((checkedMul blockElements sourceWidth).bind (checkedAdd sourceStart))
    (.limit "float cast source range overflows usize")
  let targetStart ← okOr (checkedMul elementStart targetWidth)
    (.limit "float cast target offset overflows usize")
  let targetEnd ← okOr ((checkedMul blockElements targetWidth).bind (checkedAdd targetStart))
    (.limit "float cast target range overflows usize")
  let sourceBlock ← okOr (getRange source sourceStart sourceEnd)
    (.integrity "float cast source block is out of bounds")
  let outputBlock ← okOr (getRange output targetStart targetEnd)
    (.integrity "float cast output block is out of bounds")
  let outputBlock ← castFloatBlock half sourceDtype sourceBlock targetDtype outputBlock
  .ok (write output targetStart outputBlock)

/-- What `cast_float_bytes` leaves in its output. -/
def castFloatBytes (half : HalfConversions) (sourceDtype : DType) (source : Bytes)
    (targetDtype : DType) (output : Bytes) (cancellation : CancellationToken) : Result Bytes := do
  let (sourceWidth, targetWidth, elements) ←
    validateFloatCast sourceDtype source targetDtype output.length
  let output ← (blockStarts elements).foldlM (castFloatTurn half sourceDtype source targetDtype
    sourceWidth targetWidth elements cancellation) output
  cancellation.check
  .ok output

/-- `ContiguousProvider::prepare_into`. -/
def prepareIntoContiguous (half : HalfConversions) (request : PrepareRequest)
    (output : Bytes) (scratchLen : Nat) (cancellation : CancellationToken) : Result Bytes := do
  cancellation.check
  if output.length ≠ request.expectedOutputBytes then
    .error (.integrity (s!"contiguous provider received {output.length} output bytes, " ++
      s!"expected {request.expectedOutputBytes}"))
  else if scratchLen ≠ 0 ∨ request.expectedScratchBytes ≠ 0 then
    .error (.integrity "contiguous provider requires exactly zero scratch bytes")
  else
    castFloatBytes half request.transform.source.dtype request.source
      request.transform.target.dtype output cancellation

/-! ## One block -/

section Block
variable {κ : Type} {step : κ → Bytes → Result Bytes} {convert : κ → Bytes} {w : Nat}

theorem writeZip_ok : ∀ {sources : List κ} {targets : List Bytes},
    sources.length = targets.length → (∀ target ∈ targets, target.length = w) →
    (∀ source ∈ sources, ∀ target, target.length = w → step source target = .ok (convert source)) →
    writeZip step sources targets = .ok (sources.map convert) := by
  intro sources
  induction sources with
  | nil =>
    intro targets hlength _ _
    rw [List.length_eq_zero_iff.mp hlength.symm]
    rfl
  | cons source sources ih =>
    intro targets hlength hwidth hstep
    cases targets with
    | nil => cases hlength
    | cons target targets =>
      have hrest := ih (Nat.succ.inj hlength)
        (fun t ht => hwidth t (List.mem_cons_of_mem _ ht))
        (fun s hs => hstep s (List.mem_cons_of_mem _ hs))
      rw [writeZip, hstep source (List.mem_cons_self ..) target
        (hwidth target (List.mem_cons_self ..)), hrest]
      rfl

/-- A block of as many chunks as there are sources is overwritten whole. -/
theorem writeChunks_ok {sources : List κ} {output : Bytes} (hw : 0 < w)
    (hlength : output.length = sources.length * w)
    (hstep : ∀ source ∈ sources, ∀ target, target.length = w →
      step source target = .ok (convert source)) :
    writeChunks w step sources output = .ok (sources.map convert).flatten := by
  have hcount : (chunksExact output w).length = sources.length := by
    unfold chunksExact
    rw [List.length_map, List.length_range, hlength, Nat.mul_div_cancel _ hw]
  have hrest : output.drop (output.length / w * w) = [] := by
    rw [hlength, Nat.mul_div_cancel _ hw, ← hlength, List.drop_length]
  unfold writeChunks
  rw [writeZip_ok hcount.symm (fun chunk hc => length_of_mem_chunksExact hc) hstep]
  show Except.ok _ = Except.ok _
  rw [hrest, List.append_nil]

end Block

section Elements
variable {half : HalfConversions}

theorem readU16_ok {bytes : Bytes} (h : bytes.length = 2) : readU16 bytes = .ok (readU16Exact bytes) :=
  if_pos h

theorem readF32_ok {bytes : Bytes} (h : bytes.length = 4) : readF32 bytes = .ok (readF32Exact bytes) :=
  if_pos h

theorem writeU16_ok {output : Bytes} (h : output.length = 2) (value : BitVec 16) :
    writeU16 output value = .ok (leBytes 2 value.toNat) := if_pos h

theorem writeF32_ok {output : Bytes} (h : output.length = 4) (value : BitVec 32) :
    writeF32 output value = .ok (leBytes 4 value.toNat) := if_pos h

/-- The bytes of a source are its chunks of one byte. -/
theorem chunksExact_one (source : Bytes) : chunksExact source 1 = source.map fun b => [b] := by
  have h : chunksExact (source.flatMap fun b => [b]) 1 = source.map fun b => [b] :=
    chunksExact_flatMap Nat.one_pos fun b _ => rfl
  rwa [List.flatMap_singleton'] at h

/-- **The tables agree**: a block of whole elements is overwritten by what the
other table makes of its elements. -/
theorem castFloatBlock_ok {source target : DType} (h : Casts source target) (hne : source ≠ target)
    {n : Nat} {sourceBlock outputBlock : Bytes} (hsource : sourceBlock.length = n * width source)
    (houtput : outputBlock.length = n * width target) :
    castFloatBlock half source sourceBlock target outputBlock =
      .ok ((chunksExact sourceBlock (width source)).map (castElement half source target)).flatten := by
  have hcount : (chunksExact sourceBlock (width source)).length = n := by
    unfold chunksExact
    rw [List.length_map, List.length_range, hsource, Nat.mul_div_cancel _ (width_pos source)]
  have hblock : outputBlock.length =
      (chunksExact sourceBlock (width source)).length * width target := by
    rw [hcount, houtput]
  have hchunk : ∀ chunk ∈ chunksExact sourceBlock (width source), chunk.length = width source :=
    fun chunk hc => length_of_mem_chunksExact hc
  rcases h with h | ⟨hs, ht⟩ | ⟨rfl, rfl⟩
  · exact absurd h hne
  · cases source <;> cases hs <;> cases target <;> cases ht
    all_goals first
      | exact absurd rfl hne
      | refine writeChunks_ok (by decide) hblock fun chunk hc target ht => ?_
        have hlen := hchunk chunk hc
        first
          | rw [readF32_ok hlen]
            exact writeU16_ok ht _
          | rw [readU16_ok hlen]
            first
              | exact writeU16_ok ht _
              | exact writeF32_ok ht _
  · have hone : chunksExact sourceBlock (width .u8) = sourceBlock.map fun b => [b] :=
      chunksExact_one sourceBlock
    rw [hone, List.length_map] at hblock
    rw [hone, List.map_map]
    exact writeChunks_ok (by decide) hblock fun value _ target ht => writeF32_ok ht _

end Elements

/-! ## The loops in lockstep -/

section Loops
variable {half : HalfConversions} {source target : DType} {bytes : Bytes} {elements : Nat}

/-- The output of the slice writer is what the other loop has collected, and
the part it has still to overwrite. -/
def Written (target : DType) (outputLen done : Nat) (collected : List Bytes) (output : Bytes) : Prop :=
  ∃ rest, output = collected.flatten ++ rest ∧ collected.flatten.length = done * width target ∧
    output.length = outputLen

/-- A turn of both loops. -/
theorem lockstep_turn (h : Casts source target) (hne : source ≠ target)
    (hlength : bytes.length = elements * width source)
    (hsize : elements * width target < u64Size) {start : Nat} (hstart : start ≤ elements)
    {collected : List Bytes} {output : Bytes}
    (hw : Written target (elements * width target) start collected output) :
    Lockstep (Written target (elements * width target)
        (start + min castBlockElements (elements - start)))
      (collectCastBlock bytes (width source) elements ⟨false⟩ (castElement half source target)
        collected start)
      (castFloatTurn half source bytes target (width source) (width target) elements ⟨false⟩
        output start) := by
  obtain ⟨rest, houtput, hdone, houtputLen⟩ := hw
  have hrange : start + min castBlockElements (elements - start) ≤ elements := by omega
  unfold collectCastBlock castFloatTurn
  generalize min castBlockElements (elements - start) = count at hrange ⊢
  have htargetEnd : (start + count) * width target ≤ elements * width target :=
    Nat.mul_le_mul_right _ hrange
  have hsourceEnd : (start + count) * width source ≤ bytes.length := by
    rw [hlength]
    exact Nat.mul_le_mul_right _ hrange
  rw [Nat.add_mul] at htargetEnd hsourceEnd
  have htargetStart : checkedMul start (width target) = some (start * width target) :=
    if_pos (by omega)
  have htargetCount : checkedMul count (width target) = some (count * width target) :=
    if_pos (by omega)
  have htargetSum : checkedAdd (start * width target) (count * width target) =
      some (start * width target + count * width target) := if_pos (by omega)
  refine .same _ fun _ _ => .same _ fun sourceStart hsourceStart => .same _ fun sourceEnd hend => ?_
  obtain ⟨-, rfl⟩ := checkedMul_eq_some.mp (okOr_eq_ok.mp hsourceStart)
  obtain ⟨length, hlen, hend⟩ := Option.bind_eq_some_iff.mp (okOr_eq_ok.mp hend)
  obtain ⟨-, rfl⟩ := checkedMul_eq_some.mp hlen
  obtain ⟨-, rfl⟩ := checkedAdd_eq_some.mp hend
  refine .right (okOr_eq_ok.mpr htargetStart) (.right (okOr_eq_ok.mpr (by
    rw [htargetCount, Option.bind_some, htargetSum])) (.same _ fun block hblock => ?_))
  -- both blocks hold `count` elements
  have hblock : block = slice bytes (start * width source) (count * width source) := by
    have := okOr_eq_ok.mp hblock
    unfold getRange at this
    rw [if_pos (by omega), Nat.add_sub_cancel_left] at this
    exact (Option.some.inj this).symm
  have hblockLen : block.length = count * width source := by
    rw [hblock, length_slice (by omega)]
  have hget : getRange output (start * width target) (start * width target + count * width target) =
      some (slice output (start * width target) (count * width target)) := by
    unfold getRange
    rw [if_pos (by omega), Nat.add_sub_cancel_left]
  have hsliceLen : (slice output (start * width target) (count * width target)).length =
      count * width target := length_slice (by omega)
  refine .right (okOr_eq_ok.mpr hget)
    (.right (castFloatBlock_ok h hne hblockLen hsliceLen) (.ok ?_))
  have hmore : (((chunksExact block (width source)).map (castElement half source target)).flatten).length
      = count * width target := by
    rw [← List.flatMap_def]
    have hmap := @length_mapChunks _ (width source) (width target) (castElement half source target)
      block fun chunk hc => length_castElement h hc
    rw [hblockLen, Nat.mul_div_cancel _ (width_pos source)] at hmap
    exact hmap
  generalize ((chunksExact block (width source)).map (castElement half source target)) = more at hmore ⊢
  refine ⟨rest.drop more.flatten.length, ?_, ?_, ?_⟩
  · rw [houtput, ← hdone, write_append, List.flatten_append]
  · rw [List.flatten_append, List.length_append, hdone, hmore, Nat.add_mul]
  · rw [length_write (by omega), houtputLen]

/-- The loops of both casts. -/
theorem lockstep_blocks (h : Casts source target) (hne : source ≠ target)
    (hlength : bytes.length = elements * width source)
    (hsize : elements * width target < u64Size) {output : Bytes}
    (houtput : output.length = elements * width target) :
    Lockstep (fun collected written => collected.flatten = written ∧
        written.length = elements * width target)
      ((blockStarts elements).foldlM (collectCastBlock bytes (width source) elements ⟨false⟩
        (castElement half source target)) [])
      ((blockStarts elements).foldlM (castFloatTurn half source bytes target (width source)
        (width target) elements ⟨false⟩) output) := by
  refine (Lockstep.foldlM (fun k => Written target (elements * width target)
    (min (k * castBlockElements) elements)) ?_ ?_).mono ?_
  · exact ⟨output, rfl, by simp, houtput⟩
  · intro k start collected output hstart hw
    obtain ⟨hlt, rfl⟩ := blockStart_eq hstart
    rw [Nat.min_eq_left hlt.le] at hw
    rw [← end_of_block hlt]
    exact lockstep_turn h hne hlength hsize hlt.le hw
  · intro collected output hw
    rw [Nat.min_eq_right (le_blockStarts elements)] at hw
    obtain ⟨rest, rfl, hdone, hlen⟩ := hw
    have hrest : rest = [] := by
      rw [List.length_append, hdone] at hlen
      exact List.length_eq_zero_iff.mp (by omega)
    subst hrest
    exact ⟨(List.append_nil _).symm, hlen⟩

end Loops

/-! ## The casts -/

section Casts
variable {half : HalfConversions} {source target : DType}

/-- A token that is cancelled ends the loop of the slice writer, or the check after it. -/
theorem cancelled_blocks {bytes : Bytes} {sourceWidth targetWidth elements : Nat} {output : Bytes}
    (starts : List Nat) :
    (do
      let output ← starts.foldlM (castFloatTurn half source bytes target sourceWidth targetWidth
        elements ⟨true⟩) output
      CancellationToken.check ⟨true⟩
      .ok output : Result Bytes) = .error .cancelled := by
  cases starts with
  | nil => rfl
  | cons start starts =>
    rw [List.foldlM_cons]
    rfl

/-- What `validateFloatCast` has found out about the lengths. -/
theorem validateFloatCast_ok {bytes : Bytes} {outputLen sourceWidth targetWidth elements : Nat}
    (hsource : floatWidth source = .ok (width source))
    (htarget : floatWidth target = .ok (width target))
    (h : validateFloatCast source bytes target outputLen =
      .ok (sourceWidth, targetWidth, elements)) :
    sourceWidth = width source ∧ targetWidth = width target ∧
      bytes.length = elements * width source ∧ outputLen = elements * width target ∧
      outputLen < u64Size := by
  unfold validateFloatCast at h
  rw [hsource, htarget] at h
  obtain ⟨hmod, h⟩ := unless_error_ok h
  obtain ⟨expected, hexpected, h⟩ := bind_ok h
  obtain ⟨hlt, rfl⟩ := checkedMul_eq_some.mp (okOr_eq_ok.mp hexpected)
  obtain ⟨hlen, h⟩ := unless_error_ok h
  cases h
  have hdvd := Nat.dvd_of_mod_eq_zero (not_not.mp hmod)
  refine ⟨rfl, rfl, (Nat.div_mul_cancel hdvd).symm, not_not.mp hlen, ?_⟩
  rw [not_not.mp hlen]
  exact hlt

/-- Both casts of a pair of different types end alike. -/
theorem lockstep_casts (h : Casts source target) (hne : source ≠ target) (bytes output : Bytes)
    (cancellation : CancellationToken) :
    Lockstep (· = ·) (castFloatBytesOwned half source bytes target output.length cancellation)
      (castFloatBytes half source bytes target output cancellation) := by
  obtain ⟨hconvert, hsource, htarget⟩ := @convertElement_casts half _ _ h hne
  refine .same _ fun sizes hsizes => ?_
  obtain ⟨sourceWidth, targetWidth, elements⟩ := sizes
  obtain ⟨rfl, rfl, hlength, houtput, hsize⟩ := validateFloatCast_ok hsource htarget hsizes
  dsimp only
  rw [hconvert]
  obtain ⟨cancelled⟩ := cancellation
  cases cancelled with
  | true =>
    rw [cancelled_blocks]
    exact .error _
  | false =>
    refine .left rfl ((lockstep_blocks h hne hlength (houtput ▸ hsize) houtput).bind ?_)
    rintro collected written ⟨rfl, hlen⟩
    exact .left rfl (.right rfl (.guard_left (not_not.mpr (hlen.trans houtput.symm)) (.ok rfl)))

end Casts

/-- The pairs of scalar types that the provider allocates an output for. -/
def Allocates (source target : DType) : Prop :=
  ∃ (request : PrepareRequest) (cancellation : CancellationToken) (outputBytes scratchBytes : Nat),
    validateContiguous request cancellation = .ok (.allocate outputBytes scratchBytes) ∧
    request.transform.source.dtype = source ∧ request.transform.target.dtype = target

theorem validateContiguous_allocates {request : PrepareRequest} {cancellation : CancellationToken}
    {outputBytes scratchBytes : Nat}
    (h : validateContiguous request cancellation = .ok (.allocate outputBytes scratchBytes)) :
    Casts request.transform.source.dtype request.transform.target.dtype ∧
      request.transform.source.dtype ≠ request.transform.target.dtype := by
  unfold validateContiguous at h
  obtain ⟨_, _, h⟩ := bind_ok h
  obtain ⟨_, h⟩ := unless_error_ok h
  obtain ⟨_, h⟩ := unless_error_ok h
  obtain ⟨_, _, h⟩ := bind_ok h
  obtain ⟨_, _, h⟩ := bind_ok h
  obtain ⟨_, h⟩ := unless_error_ok h
  obtain ⟨_, _, h⟩ := bind_ok h
  obtain ⟨_, _, h⟩ := bind_ok h
  obtain ⟨_, h⟩ := unless_error_ok h
  split at h
  · cases h
  · next hne =>
    split at h
    · next hcasts => exact ⟨.inr hcasts, hne⟩
    · cases h

/-- A request for one element of a pair that the provider casts is allocated for. -/
theorem allocates_iff {source target : DType} :
    Allocates source target ↔ Casts source target ∧ source ≠ target := by
  constructor
  · rintro ⟨request, token, outputBytes, scratchBytes, hvalid, rfl, rfl⟩
    exact validateContiguous_allocates hvalid
  · rintro ⟨hcasts, hne⟩
    refine ⟨⟨⟨builtinContiguousImplementation, .contiguous source, .contiguous target⟩, [],
      List.replicate (width source) 0, width target, 0⟩, ⟨false⟩, width target, 0, ?_, rfl, rfl⟩
    rcases hcasts with h | ⟨hs, ht⟩ | ⟨rfl, rfl⟩
    · exact absurd h hne
    · cases source <;> cases hs <;> cases target <;> cases ht <;>
        first | exact absurd rfl hne | rfl
    · rfl

/-- **The casts agree.** For a pair that the provider allocates an output for,
any source and any output, the collected bytes are the bytes written into the
output, and one cast fails exactly when the other does, with the same error. -/
theorem castFloatBytesOwned_eq (half : HalfConversions) {source target : DType}
    (h : Allocates source target) (bytes output : Bytes) (cancellation : CancellationToken) :
    castFloatBytesOwned half source bytes target output.length cancellation =
      castFloatBytes half source bytes target output cancellation := by
  obtain ⟨hcasts, hne⟩ := allocates_iff.mp h
  exact (lockstep_casts hcasts hne bytes output cancellation).eq

/-- Two bytes, over an output that holds something else. -/
theorem castFloatBytesOwned_eq_u8 :
    castFloatBytesOwned ⟨fun _ => 0, fun _ => 0, fun _ => 0, fun _ => 0⟩ .u8 [1, 2] .f32 8 ⟨false⟩ =
      castFloatBytes ⟨fun _ => 0, fun _ => 0, fun _ => 0, fun _ => 0⟩ .u8 [1, 2] .f32
        [7, 7, 7, 7, 7, 7, 7, 7] ⟨false⟩ :=
  castFloatBytesOwned_eq _ ⟨⟨⟨builtinContiguousImplementation, .contiguous .u8, .contiguous .f32⟩, [2],
    [1, 2], 8, 0⟩, ⟨false⟩, 8, 0, rfl, rfl, rfl⟩ [1, 2] [7, 7, 7, 7, 7, 7, 7, 7] ⟨false⟩

/-- Outside of these pairs they differ: an empty source of bytes becomes no
half precision value, except in the loop that never looks. -/
example : (castFloatBytesOwned ⟨fun _ => 0, fun _ => 0, fun _ => 0, fun _ => 0⟩ .u8 [] .f16 0
      ⟨false⟩).isOk = false ∧
    (castFloatBytes ⟨fun _ => 0, fun _ => 0, fun _ => 0, fun _ => 0⟩ .u8 [] .f16 [] ⟨false⟩).isOk =
      true := by
  decide

/-- **The entry points of the provider agree** on the requests it allocates for. -/
theorem prepareInto_eq (half : HalfConversions) {request : PrepareRequest}
    {token cancellation : CancellationToken} {outputBytes scratchBytes : Nat}
    (h : validateContiguous request token = .ok (.allocate outputBytes scratchBytes))
    (output : Bytes) (scratchLen : Nat) :
    prepareContiguous half request output.length scratchLen cancellation =
      prepareIntoContiguous half request output scratchLen cancellation := by
  obtain ⟨hcasts, hne⟩ := validateContiguous_allocates h
  unfold prepareContiguous prepareIntoContiguous
  rw [(lockstep_casts hcasts hne request.source output cancellation).eq]

end ModelWeights.Prepared
