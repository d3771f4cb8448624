import ModelWeights.Graph.Execute
import ModelWeights.Lib.Parsing
import ModelWeights.Lib.Success

/-! # The built-in preparation provider

`ContiguousProvider` of `prepare.rs`: casts between contiguous tensors. The conversions of
the `half` crate are parameters on the bits of their argument. -/
namespace ModelWeights.Prepared
open ModelWeights.Graph Parsing Buffer

/-- `f16::from_f32`, `bf16::from_f32`, `f16::to_f32` and `bf16::to_f32`, on bits. -/
structure HalfConversions where
  f16FromF32 : BitVec 32 → BitVec 16
  bf16FromF32 : BitVec 32 → BitVec 16
  f16ToF32 : BitVec 16 → BitVec 32
  bf16ToF32 : BitVec 16 → BitVec 32

def builtinContiguousImplementation : ImplementationId :=
  ⟨⟨"model-weights"⟩, ⟨"contiguous-cast"⟩, 1⟩

/-- The elements of one block. -/
def castBlockElements : Nat := 16 * 1024

def isBuiltinFloat : DType → Bool
  | .f32 | .f16 | .bf16 => true
  | _ => false

/-! ## Elements -/

def readU16Exact (bytes : Bytes) : BitVec 16 := BitVec.ofNat 16 (leNat bytes)

def readF32Exact (bytes : Bytes) : BitVec 32 := BitVec.ofNat 32 (leNat bytes)

/-- `f32::from` of a byte: its leading bit is the hidden one. -/
def f32FromU8 (value : Nat) : BitVec 32 :=
  if value = 0 then 0
  else BitVec.ofNat 32
    ((127 + value.log2) * 2 ^ 23 + (value * 2 ^ (23 - value.log2) - 2 ^ 23))

example : f32FromU8 1 = 0x3F800000 ∧ f32FromU8 255 = 0x437F0000 := by decide

/-- The conversion of one element, if there is one. -/
def convertElement (half : HalfConversions) : DType → DType → Option (Bytes → Bytes)
  | .u8, .f32 => some fun source => leBytes 4 (f32FromU8 (leNat source)).toNat
  | .f32, .f16 => some fun source => leBytes 2 (half.f16FromF32 (readF32Exact source)).toNat
  | .f32, .bf16 => some fun source => leBytes 2 (half.bf16FromF32 (readF32Exact source)).toNat
  | .f16, .f32 => some fun source => leBytes 4 (half.f16ToF32 (readU16Exact source)).toNat
  | .bf16, .f32 => some fun source => leBytes 4 (half.bf16ToF32 (readU16Exact source)).toNat
  | .f16, .bf16 => some fun source =>
    leBytes 2 (half.bf16FromF32 (half.f16ToF32 (readU16Exact source))).toNat
  | .bf16, .f16 => some fun source =>
    leBytes 2 (half.f16FromF32 (half.bf16ToF32 (readU16Exact source))).toNat
  | _, _ => none

/-! ## Casts -/

def floatWidth : DType → Result Nat
  | .u8 => .ok 1
  | .f32 => .ok 4
  | .f16 | .bf16 => .ok 2
  | _ => .error (.unsupported "built-in casts support only f32, f16, and bf16")

def validateFloatCast (sourceDtype : DType) (source : Bytes) (targetDtype : DType)
    (outputLen : Nat) : Result (Nat × Nat × Nat) := do
  let sourceWidth ← floatWidth sourceDtype
  let targetWidth ← floatWidth targetDtype
  if source.length % sourceWidth ≠ 0 then
    .error (.integrity "source byte length is not a whole number of float elements")
  else
    let elements := source.length / sourceWidth
    let expectedOutput ← okOr (checkedMul elements targetWidth)
      (.limit "float cast output length overflows usize")
    if outputLen ≠ expectedOutput then
      .error (.integrity (s!"float cast received {outputLen} output bytes, " ++
        s!"expected {expectedOutput}"))
    else .ok (sourceWidth, targetWidth, elements)

/-- The first elements of the blocks: `(0..elements).step_by(CAST_BLOCK_ELEMENTS)`. -/
def blockStarts (elements : Nat) : List Nat :=
  (List.range ((elements + castBlockElements - 1) / castBlockElements)).map (· * castBlockElements)

/-- `source.get(start..finish)`. -/
def getRange (source : Bytes) (start finish : Nat) : Option Bytes :=
  if start ≤ finish ∧ finish ≤ source.length then some (slice source start (finish - start)) else none

/-- One turn of the loop of `collect_cast_blocks`. -/
def collectCastBlock (source : Bytes) (sourceWidth elements : Nat)
    (cancellation : CancellationToken) (convert : Bytes → Bytes) (output : List Bytes)
    (elementStart : Nat) : Result (List Bytes) := do
  cancellation.check
  let blockElements := min castBlockElements (elements - elementStart)
  let sourceStart ← okOr (checkedMul elementStart sourceWidth)
    (.limit "float cast source offset overflows usize")
  let sourceEnd ← okOr ((checkedMul blockElements sourceWidth).bind (checkedAdd sourceStart))
    (.limit "float cast source range overflows usize")
  let sourceBlock ← okOr (getRange source sourceStart sourceEnd)
    (.integrity "float cast source block is out of bounds")
  .ok (output ++ (chunksExact sourceBlock sourceWidth).map convert)

def collectCastBlocks (source : Bytes) (sourceWidth elements outputLen : Nat)
    (cancellation : CancellationToken) (convert : Bytes → Bytes) : Result Bytes := do
  cancellation.check
  let output ← (blockStarts elements).foldlM
    (collectCastBlock source sourceWidth elements cancellation convert) []
  cancellation.check
  let output := output.flatten
  if output.length ≠ outputLen then
    .error (.integrity (s!"float cast initialized {output.length} output bytes, " ++
      s!"expected {outputLen}"))
  else .ok output

def castFloatBytesOwned (half : HalfConversions) (sourceDtype : DType) (source : Bytes)
    (targetDtype : DType) (outputLen : Nat) (cancellation : CancellationToken) : Result Bytes := do
  let (sourceWidth, _, elements) ← validateFloatCast sourceDtype source targetDtype outputLen
  match convertElement half sourceDtype targetDtype with
  | some convert => collectCastBlocks source sourceWidth elements outputLen cancellation convert
  | none => .error (.unsupported ("built-in contiguous conversion from " ++
      debugDType sourceDtype ++ " to " ++ debugDType targetDtype))

/-! ## The provider -/

def validateContiguous (request : PrepareRequest) (cancellation : CancellationToken) :
    Result OutputStrategy := do
  cancellation.check
  if request.transform.implementation ≠ builtinContiguousImplementation then
    .error (.unsupported "contiguous provider received a different implementation identity")
  else
    let source := request.transform.source
    let target := request.transform.target
    if ¬source.layout.isContiguous ∨ ¬target.layout.isContiguous then
      .error (.unsupported
        "built-in preparation supports only contiguous source and target layouts")
    else
      cancellation.check
      let sourceBytes ← source.dtype.byteLen request.shape
      if request.source.length ≠ sourceBytes then
        .error (.integrity (s!"contiguous {debugDType source.dtype} source has " ++
          s!"{request.source.length} bytes, expected {sourceBytes}"))
      else
        cancellation.check
        let targetBytes ← target.dtype.byteLen request.shape
        if request.expectedOutputBytes ≠ targetBytes then
          .error (.integrity (s!"contiguous {debugDType target.dtype} target requires " ++
            s!"{targetBytes} bytes, but the plan records {request.expectedOutputBytes} bytes"))
        else if source.dtype = target.dtype then .ok .reuseSource
        else if (isBuiltinFloat source.dtype ∧ isBuiltinFloat target.dtype) ∨
            (source.dtype = .u8 ∧ target.dtype = .f32) then .ok (.allocate targetBytes 0)
        else .error (.unsupported ("built-in contiguous conversion from " ++
          debugDType source.dtype ++ " to " ++ debugDType target.dtype))

def prepareContiguous (half : HalfConversions) (request : PrepareRequest)
    (outputLen scratchLen : Nat) (cancellation : CancellationToken) : Result Bytes := do
  cancellation.check
  if outputLen ≠ request.expectedOutputBytes then
    .error (.integrity (s!"contiguous provider received {outputLen} output bytes, " ++
      s!"expected {request.expectedOutputBytes}"))
  else if scratchLen ≠ 0 ∨ request.expectedScratchBytes ≠ 0 then
    .error (.integrity "contiguous provider requires exactly zero scratch bytes")
  else
    castFloatBytesOwned half request.transform.source.dtype request.source
      request.transform.target.dtype outputLen cancellation

def contiguousProvider (half : HalfConversions) : PreparationProvider :=
  ⟨validateContiguous, prepareContiguous half⟩

/-- `PreparationEngine::with_builtins`. -/
def withBuiltins (half : HalfConversions) : PreparationEngine where
  providers id := if id = builtinContiguousImplementation then some (contiguousProvider half) else none

theorem withBuiltins_contiguous (half : HalfConversions) :
    (withBuiltins half).providers builtinContiguousImplementation =
      some (contiguousProvider half) := by
  have hself : builtinContiguousImplementation = builtinContiguousImplementation := rfl
  unfold withBuiltins
  dsimp only
  rw [if_pos hself]

/-! ## What a cast computes -/

/-- The pairs of scalar types that the provider casts. -/
def Casts (source target : DType) : Prop :=
  source = target ∨ (isBuiltinFloat source = true ∧ isBuiltinFloat target = true) ∨
    (source = .u8 ∧ target = .f32)

/-- The bytes of one element. -/
def width (dtype : DType) : Nat := dtype.bits / 8

/-- What a cast makes of one element: itself, if it has the type already. -/
def castElement (half : HalfConversions) (source target : DType) : Bytes → Bytes :=
  (convertElement half source target).getD id

theorem width_pos (dtype : DType) : 0 < width dtype := by
  cases dtype <;> decide

section Elements
variable {half : HalfConversions} {source target : DType}

theorem castElement_self (dtype : DType) : castElement half dtype dtype = id := by
  cases dtype <;> rfl

/-- A pair of different types has a conversion, with the widths of the casts. -/
theorem convertElement_casts (h : Casts source target) (hne : source ≠ target) :
    convertElement half source target = some (castElement half source target) ∧
      floatWidth source = .ok (width source) ∧ floatWidth target = .ok (width target) := by
  rcases h with h | ⟨hs, ht⟩ | ⟨rfl, rfl⟩
  · exact absurd h hne
  · cases source <;> cases hs <;> cases target <;> cases ht <;>
      first | exact absurd rfl hne | exact ⟨rfl, rfl, rfl⟩
  · exact ⟨rfl, rfl, rfl⟩

/-- An element has the width of its type. -/
theorem length_castElement (h : Casts source target) {element : Bytes}
    (helement : element.length = width source) :
    (castElement half source target element).length = width target := by
  rcases h with rfl | ⟨hs, ht⟩ | ⟨rfl, rfl⟩
  · rwa [castElement_self]
  · cases source <;> cases hs <;> cases target <;> cases ht <;>
      first | exact helement | exact length_leBytes _ _
  · exact length_leBytes _ _

end Elements

theorem byteLen_ok {dtype : DType} {shape : List Nat} {length : Nat}
    (h : dtype.byteLen shape = .ok length) :
    length = shape.prod * width dtype ∧ length < u64Size := by
  obtain ⟨elements, helements, h⟩ := bind_ok h
  have hprod := foldlM_checkedMul shape 1 elements helements
  obtain ⟨hlt, rfl⟩ := checkedMul_eq_some.mp (okOr_eq_ok.mp h)
  rw [Nat.one_mul] at hprod
  rw [← hprod]
  exact ⟨rfl, hlt⟩

/-! ## The blocks of a cast -/

section Blocks
variable {source : Bytes} {w elements : Nat} {convert : Bytes → Bytes}

/-- The first `n` elements of a source, converted. -/
def converted (source : Bytes) (w : Nat) (convert : Bytes → Bytes) (n : Nat) : List Bytes :=
  (List.range n).map fun i => convert (slice source (i * w) w)

theorem converted_all (hw : 0 < w) (hlength : source.length = elements * w) :
    (converted source w convert elements).flatten = mapChunks w convert source := by
  unfold converted mapChunks chunksExact
  rw [hlength, Nat.mul_div_cancel _ hw, List.flatMap_map]
  rfl

/-- A turn of the loop converts the elements of its block. -/
theorem collectCastBlock_ok (hw : 0 < w) (hlength : source.length = elements * w)
    (hsize : source.length < u64Size) {start : Nat} (hstart : start ≤ elements) :
    collectCastBlock source w elements ⟨false⟩ convert (converted source w convert start) start =
      .ok (converted source w convert (start + min castBlockElements (elements - start))) := by
  unfold collectCastBlock
  have hrange : start + min castBlockElements (elements - start) ≤ elements := by omega
  generalize min castBlockElements (elements - start) = count at hrange ⊢
  have hfinish : (start + count) * w ≤ source.length := by
    rw [hlength]
    exact Nat.mul_le_mul_right w hrange
  have hsum : (start + count) * w = start * w + count * w := Nat.add_mul ..
  have hsource : checkedMul start w = some (start * w) := if_pos (by omega)
  have hcount : checkedMul count w = some (count * w) := if_pos (by omega)
  have hadd : checkedAdd (start * w) (count * w) = some (start * w + count * w) :=
    if_pos (by omega)
  have hblock : getRange source (start * w) (start * w + count * w) =
      some (slice source (start * w) (count * w)) := by
    unfold getRange
    rw [if_pos (by omega), Nat.add_sub_cancel_left]
  have hmore : converted source w convert start ++
      (chunksExact (slice source (start * w) (count * w)) w).map convert =
        converted source w convert (start + count) := by
    unfold converted
    rw [chunksExact_slice hw hfinish, List.range_add, List.map_append, List.map_map, List.map_map]
    rfl
  simp only [hsource, hcount, okOr, CancellationToken.check, bind, Except.bind, Option.bind, hadd,
    hblock, hmore]
  rfl

/-- Where a block ends, and the next one starts if there is one. -/
theorem end_of_block {k size n : Nat} (h : k * size < n) :
    k * size + min size (n - k * size) = min ((k + 1) * size) n := by
  rw [Nat.succ_mul]
  omega

theorem castBlockElements_pos : 0 < castBlockElements := Nat.mul_pos (Nat.succ_pos _) (Nat.succ_pos _)

/-- The blocks start at multiples of their size, before the end of the elements. -/
theorem blockStart_eq {k start : Nat} (h : (blockStarts elements)[k]? = some start) :
    k * castBlockElements < elements ∧ start = k * castBlockElements := by
  have hblock := castBlockElements_pos
  unfold blockStarts at h
  rw [List.getElem?_map] at h
  obtain ⟨index, hindex, rfl⟩ := Option.map_eq_some_iff.mp h
  obtain ⟨hk, rfl⟩ := List.getElem?_eq_some_iff.mp hindex
  rw [List.length_range] at hk
  rw [List.getElem_range]
  have hle := Nat.mul_le_of_le_div _ _ _ (Nat.succ_le_of_lt hk)
  rw [Nat.succ_mul] at hle
  omega

/-- The blocks cover the elements. -/
theorem le_blockStarts (elements : Nat) :
    elements ≤ (blockStarts elements).length * castBlockElements := by
  have hblock := castBlockElements_pos
  have hdiv := Nat.div_add_mod (elements + castBlockElements - 1) castBlockElements
  have hmod := Nat.mod_lt (elements + castBlockElements - 1) hblock
  have hcount : (blockStarts elements).length =
      (elements + castBlockElements - 1) / castBlockElements := by
    unfold blockStarts
    rw [List.length_map, List.length_range]
  rw [hcount]
  rw [Nat.mul_comm] at hdiv
  omega

/-- The loop converts all elements. -/
theorem foldlM_blockStarts (hw : 0 < w) (hlength : source.length = elements * w)
    (hsize : source.length < u64Size) :
    Succeeds ((blockStarts elements).foldlM (collectCastBlock source w elements ⟨false⟩ convert) [])
      fun output => output = converted source w convert elements := by
  -- after `k` blocks, their elements are converted
  refine (Succeeds.foldlM (fun k output =>
    output = converted source w convert (min (k * castBlockElements) elements)) ?_ ?_).mono
      fun output houtput => ?_
  · rw [Nat.zero_mul, Nat.zero_min]
    rfl
  · intro k start output hstart houtput
    obtain ⟨hlt, rfl⟩ := blockStart_eq hstart
    rw [Nat.min_eq_left hlt.le] at houtput
    subst houtput
    exact .of_eq (collectCastBlock_ok hw hlength hsize hlt.le) (congrArg _ (end_of_block hlt))
  · rw [houtput, Nat.min_eq_right (le_blockStarts elements)]

/-- A cast makes the converted elements, if these have the length of its output. -/
theorem collectCastBlocks_ok (hw : 0 < w) (hlength : source.length = elements * w)
    (hsize : source.length < u64Size) {outputLen : Nat}
    (houtput : (mapChunks w convert source).length = outputLen) :
    Succeeds (collectCastBlocks source w elements outputLen ⟨false⟩ convert)
      fun output => output = mapChunks w convert source := by
  refine .step rfl ((foldlM_blockStarts hw hlength hsize).bind fun output hconverted => ?_)
  have hflat : output.flatten = mapChunks w convert source := by
    rw [hconverted, converted_all hw hlength]
  refine .step rfl (.guard (fun hne => hne ?_) (.of_ok hflat))
  rw [hflat, houtput]

end Blocks

section Casts
variable {half : HalfConversions} {source target : DType} {bytes : Bytes} {elements : Nat}

/-- A cast of different types converts every element. -/
theorem castFloatBytesOwned_ok (h : Casts source target) (hne : source ≠ target)
    (hlength : bytes.length = elements * width source) (hsize : bytes.length < u64Size)
    (houtput : elements * width target < u64Size) :
    Succeeds (castFloatBytesOwned half source bytes target (elements * width target) ⟨false⟩)
      fun output => output = mapChunks (width source) (castElement half source target) bytes := by
  obtain ⟨hconvert, hsource, htarget⟩ := @convertElement_casts half _ _ h hne
  have hw := width_pos source
  have helements : bytes.length / width source = elements := by
    rw [hlength, Nat.mul_div_cancel _ hw]
  have hvalid : validateFloatCast source bytes target (elements * width target) =
      .ok (width source, width target, elements) := by
    have hmul : checkedMul elements (width target) = some (elements * width target) :=
      if_pos houtput
    have hmod : bytes.length % width source = 0 := by
      rw [hlength, Nat.mul_mod_left]
    unfold validateFloatCast
    rw [hsource, htarget]
    simp only [bind, Except.bind, hmod, helements, hmul, okOr, ne_eq, not_true_eq_false, if_false]
  have houtputLength : (mapChunks (width source) (castElement half source target) bytes).length =
      elements * width target := by
    rw [length_mapChunks fun chunk hc => length_castElement h hc, helements]
  refine .step hvalid ?_
  dsimp only
  rw [hconvert]
  exact collectCastBlocks_ok hw hlength hsize houtputLength

end Casts

/-! ## One transform -/

/-- A transform of the provider between contiguous representations, without scratch. -/
structure Builtin (planned : PlannedTransform) : Prop where
  implementation : planned.transform.implementation = builtinContiguousImplementation
  scratch : planned.scratchBytes = 0
  source : planned.transform.source.layout.isContiguous = true
  target : planned.transform.target.layout.isContiguous = true
  casts : Casts planned.transform.source.dtype planned.transform.target.dtype

/-- What a transform makes of one element. -/
def castTransform (half : HalfConversions) (planned : PlannedTransform) : Bytes → Bytes :=
  castElement half planned.transform.source.dtype planned.transform.target.dtype

section Transform
variable {half : HalfConversions} {engine : PreparationEngine} {planned : PlannedTransform}
  {shape : List Nat} {bytes : Bytes}

/-- The provider accepts what fits the sizes, and reuses or allocates them. -/
theorem validateContiguous_ok (h : Builtin planned)
    (hsource : planned.transform.source.dtype.byteLen shape = .ok bytes.length)
    (htarget : planned.transform.target.dtype.byteLen shape = .ok planned.outputSize) :
    validateContiguous ⟨planned.transform, shape, bytes, planned.outputSize, planned.scratchBytes⟩
      ⟨false⟩ = .ok (if planned.transform.source.dtype = planned.transform.target.dtype then
        .reuseSource else .allocate planned.outputSize 0) := by
  unfold validateContiguous
  rw [if_neg (not_not.mpr h.implementation),
    if_neg (by rw [h.source, h.target]; simp)]
  simp only [CancellationToken.check, bind, Except.bind, hsource, htarget, ne_eq,
    not_true_eq_false, if_false, Bool.false_eq_true]
  by_cases heq : planned.transform.source.dtype = planned.transform.target.dtype
  · rw [if_pos heq, if_pos heq]
  · rw [if_neg heq, if_neg heq, if_pos (h.casts.resolve_left heq)]

/-- **A planned cast succeeds** on a source of its size, with the planned size, and converts
every element. -/
theorem Builtin.prepare (h : Builtin planned)
    (hengine : engine.providers builtinContiguousImplementation = some (contiguousProvider half))
    (hsource : planned.transform.source.dtype.byteLen shape = .ok bytes.length)
    (htarget : planned.transform.target.dtype.byteLen shape = .ok planned.outputSize) :
    Succeeds (engine.prepareWithCancellation
      ⟨planned.transform, shape, bytes, planned.outputSize, planned.scratchBytes⟩ ⟨false⟩)
      fun prepared => ∀ view : ByteView, view.bytes = bytes → (prepared.view view).bytes =
        mapChunks (width planned.transform.source.dtype) (castTransform half planned) bytes := by
  obtain ⟨hlength, hsize⟩ := byteLen_ok hsource
  obtain ⟨houtput, houtputSize⟩ := byteLen_ok htarget
  have hresolve : engine.resolve planned.transform.implementation =
      .ok (contiguousProvider half) := by
    unfold PreparationEngine.resolve
    rw [h.implementation, hengine]
    rfl
  have hvalid : (contiguousProvider half).validate _ _ = _ :=
    validateContiguous_ok h hsource htarget
  unfold PreparationEngine.prepareWithCancellation
  refine .step rfl (.step hresolve (.step hvalid (.step rfl ?_)))
  unfold castTransform
  by_cases heq : planned.transform.source.dtype = planned.transform.target.dtype
  · rw [if_pos heq]
    have hreused : validateReusedOutput ⟨planned.transform, shape, bytes, planned.outputSize,
        planned.scratchBytes⟩ = .ok () := by
      unfold validateReusedOutput
      rw [if_neg (not_not.mpr h.scratch), if_neg]
      rw [hlength, heq, ← houtput]
      exact not_not.mpr rfl
    refine .step hreused (.step rfl (.of_ok fun view hview => ?_))
    rw [← heq, castElement_self, mapChunks_id ⟨shape.prod, by rw [hlength, Nat.mul_comm]⟩]
    exact hview
  · rw [if_neg heq]
    have hallocated : validateAllocatedStorage ⟨planned.transform, shape, bytes, planned.outputSize,
        planned.scratchBytes⟩ planned.outputSize 0 = .ok (planned.outputSize, 0) := by
      unfold validateAllocatedStorage
      rw [if_neg (not_not.mpr rfl), if_neg (not_not.mpr h.scratch.symm)]
    have hcast := @castFloatBytesOwned_ok half _ _ _ _ h.casts heq hlength hsize
      (houtput ▸ houtputSize)
    rw [← houtput] at hcast
    have hprepared : Succeeds ((contiguousProvider half).prepareAllocated ⟨planned.transform, shape,
        bytes, planned.outputSize, planned.scratchBytes⟩ planned.outputSize 0 ⟨false⟩)
        fun output => output = mapChunks (width planned.transform.source.dtype)
          (castElement half planned.transform.source.dtype planned.transform.target.dtype)
            bytes := by
      refine .step rfl (.guard (not_not.mpr rfl) (.guard (fun hne => ?_) hcast))
      rcases hne with hne | hne
      · exact hne rfl
      · exact hne h.scratch
    have hlen : validatePreparedLen (mapChunks (width planned.transform.source.dtype)
        (castElement half planned.transform.source.dtype planned.transform.target.dtype) bytes)
        planned.outputSize = .ok () := by
      have hw := width_pos planned.transform.source.dtype
      unfold validatePreparedLen
      rw [length_mapChunks fun chunk hc => length_castElement h.casts hc, hlength,
        Nat.mul_div_cancel _ hw, if_neg (not_not.mpr houtput.symm)]
    refine .step hallocated (.step rfl (hprepared.bind fun output houtput => .step rfl ?_))
    subst houtput
    exact .step hlen (.of_ok fun _ _ => rfl)

end Transform

end ModelWeights.Prepared
