import ModelWeights.Graph.Infer
import ModelWeights.Lib.Buffer

/-! # Host kernels of the structural operations

The byte loops of `operation.rs`. A buffer is a list of bytes and a kernel
returns the buffer it was given with its writes applied. Allocation is taken to
succeed; every other failure of the source is kept with its message. The four
strided kernels share one loop (`copyElements`) and one inner loop over the axes
(`elementOffsets`), and differ in where an element is read and written. -/
namespace ModelWeights.Graph

abbrev Bytes := List UInt8

def copyTileElements : Nat := 16 * 1024

def tileBytes : Nat := 1024 * 1024

/-! ## Bounds and offsets -/

def validateViewLen (view : Bytes) (expected : Nat) (description : String) : Result Unit :=
  if view.length ≠ expected then
    .error (.integrity s!"{description} has {view.length} bytes, expected {expected}")
  else .ok ()

def checkedByteRange (offset length bound : Nat) : Result (Nat × Nat) := do
  let stop ← okOr (checkedAdd offset length) (.limit "byte range end overflows u64")
  if stop > bound then .error (.integrity "byte range lies outside its buffer")
  else .ok (offset, stop)

def copyElement (source : Bytes) (sourceElement : Nat) (target : Bytes) (targetElement width : Nat) :
    Result Bytes := do
  let sourceStart ← okOr (checkedMul sourceElement width)
    (.limit "source element byte offset overflows u64")
  let targetStart ← okOr (checkedMul targetElement width)
    (.limit "target element byte offset overflows u64")
  let (sourceStart, _) ← checkedByteRange sourceStart width source.length
  let (targetStart, _) ← checkedByteRange targetStart width target.length
  .ok (Buffer.write target targetStart (Buffer.slice source sourceStart width))

def logicalCoordinate (linear axis : Nat) (shape rowStrides : List Nat) : Result Nat := do
  let dimension ← okOr shape[axis]? (.integrity "logical coordinate axis is out of bounds")
  let stride ← okOr rowStrides[axis]? (.integrity "logical coordinate stride is unavailable")
  if dimension = 0 ∨ stride = 0 then
    .error (.integrity "logical coordinate requested for an empty tensor")
  else .ok ((linear / stride) % dimension)

def checkedOffsetTerm (offset coordinate stride : Nat) : Result Nat :=
  okOr ((checkedMul coordinate stride).bind fun term => checkedAdd offset term)
    (.limit "logical element offset overflows u64")

def checkCopyCancellation (element : Nat) (cancellation : CancellationToken) : Result Unit :=
  if element % copyTileElements = 0 then cancellation.check else .ok ()

/-- Where one axis is read and written: a coordinate and a stride on each side. -/
structure AxisTerm where
  sourceCoordinate : Nat
  sourceStride : Nat
  targetCoordinate : Nat
  targetStride : Nat

/-- The inner loop of a kernel: the source and the target element of one
logical position. -/
def elementOffsets (rank : Nat) (term : Nat → Result AxisTerm) : Result (Nat × Nat) :=
  (List.range rank).foldlM (fun (offsets : Nat × Nat) axis => do
    let t ← term axis
    let sourceElement ← checkedOffsetTerm offsets.1 t.sourceCoordinate t.sourceStride
    let targetElement ← checkedOffsetTerm offsets.2 t.targetCoordinate t.targetStride
    .ok (sourceElement, targetElement)) (0, 0)

/-- The outer loop of a kernel: copy one element for each logical position. -/
def copyElements (count width : Nat) (address : Nat → Result (Bytes × Nat × Nat)) (output : Bytes)
    (cancellation : CancellationToken) : Result Bytes := do
  let output ← (List.range count).foldlM (fun output linear => do
    checkCopyCancellation linear cancellation
    let (source, sourceElement, targetElement) ← address linear
    copyElement source sourceElement output targetElement width) output
  cancellation.check
  .ok output

/-- A zeroed output buffer. -/
def allocateTensor (facts : TensorFacts) (cancellation : CancellationToken) : Result Bytes := do
  cancellation.check
  let length ← validateHostLen facts.byteLen
  .ok (List.replicate length 0)

/-! ## Strided kernels -/

/-- Start of every input along the concatenated axis. -/
def concatStarts (axis : Nat) : Nat → List TensorFacts → Result (List Nat)
  | _, [] => .ok []
  | nextStart, facts :: rest => do
    let next ← okOr (checkedAdd nextStart (facts.logicalShape.getD axis 0))
      (.limit "concatenation input axis offsets overflow u64")
    let starts ← concatStarts axis next rest
    .ok (nextStart :: starts)

def validateConcatInputs : List TensorFacts → List Bytes → Result Unit
  | facts :: rest, bytes :: views => do
    validateViewLen bytes facts.byteLen "concatenation input"
    validateConcatInputs rest views
  | _, _ => .ok ()

/-- The coordinate inside the owning input. -/
def concatLocal (axis logicalAxis coordinate start : Nat) : Result Nat :=
  if logicalAxis = axis then
    okOr (checkedSub coordinate start) (.integrity "concatenation local coordinate underflowed")
  else .ok coordinate

def executeConcatBytes (axis : Nat) (inputFacts : List TensorFacts) (outputFacts : TensorFacts)
    (inputs : List Bytes) (output : Bytes) (cancellation : CancellationToken) : Result Bytes :=
  if inputFacts.length ≠ inputs.length then
    .error (.integrity "concatenation facts and byte-view counts differ")
  else do
    validateConcatInputs inputFacts inputs
    let axis ← validateAxis axis outputFacts.logicalShape.length
    let width ← dtypeWidth outputFacts.representation.dtype
    let shape := outputFacts.logicalShape
    let rowStrides ← contiguousStrides shape
    let starts ← concatStarts axis 0 inputFacts
    copyElements outputFacts.elementCount width (fun linear => do
      let axisCoordinate ← logicalCoordinate linear axis shape rowStrides
      let index ← okOr ((starts.zip inputFacts).findIdx? fun x =>
          axisCoordinate < saturatingAdd x.1 (x.2.logicalShape.getD axis 0))
        (.integrity "concatenation coordinate has no source input")
      let input ← okOr inputFacts[index]? (.integrity "concatenation coordinate has no source input")
      let offsets ← elementOffsets shape.length fun logicalAxis => do
        let coordinate ← logicalCoordinate linear logicalAxis shape rowStrides
        let coordinate ← concatLocal axis logicalAxis coordinate (starts.getD index 0)
        let outputCoordinate ← logicalCoordinate linear logicalAxis shape rowStrides
        .ok ⟨coordinate, input.storageStrides.getD logicalAxis 0,
          outputCoordinate, outputFacts.storageStrides.getD logicalAxis 0⟩
      .ok (inputs.getD index [], offsets)) output cancellation

def executeStorageCopy (inputFacts outputFacts : TensorFacts) (input output : Bytes)
    (cancellation : CancellationToken) : Result Bytes := do
  validateViewLen input inputFacts.byteLen "storage-copy input"
  if inputFacts.logicalShape ≠ outputFacts.logicalShape then
    .error (.integrity "storage-copy input and output logical shapes differ")
  else do
    let width ← dtypeWidth inputFacts.representation.dtype
    let shape := outputFacts.logicalShape
    let rowStrides ← contiguousStrides shape
    copyElements outputFacts.elementCount width (fun linear => do
      let offsets ← elementOffsets shape.length fun logicalAxis => do
        let coordinate ← logicalCoordinate linear logicalAxis shape rowStrides
        .ok ⟨coordinate, inputFacts.storageStrides.getD logicalAxis 0,
          coordinate, outputFacts.storageStrides.getD logicalAxis 0⟩
      .ok (input, offsets)) output cancellation

def executePermuteBytes (permute : Permute) (inputFacts outputFacts : TensorFacts)
    (input output : Bytes) (cancellation : CancellationToken) : Result Bytes := do
  validateViewLen input inputFacts.byteLen "permutation input"
  match permute.mode with
  | .storage _ => executeStorageCopy inputFacts outputFacts input output cancellation
  | .logical => do
    let width ← dtypeWidth inputFacts.representation.dtype
    let shape := outputFacts.logicalShape
    let rowStrides ← contiguousStrides shape
    let order ← permutationIndices permute.order
    copyElements outputFacts.elementCount width (fun linear => do
      let offsets ← elementOffsets order.length fun outputAxis => do
        let coordinate ← logicalCoordinate linear outputAxis shape rowStrides
        .ok ⟨coordinate, inputFacts.storageStrides.getD (order.getD outputAxis 0) 0,
          coordinate, outputFacts.storageStrides.getD outputAxis 0⟩
      .ok (input, offsets)) output cancellation

def executeSliceBytes (ranges : List AxisRange) (inputFacts : TensorFacts) (input : Bytes)
    (outputFacts : TensorFacts) (output : Bytes) (cancellation : CancellationToken) :
    Result Bytes := do
  validateViewLen input inputFacts.byteLen "slice input"
  if ranges.length ≠ inputFacts.logicalShape.length then
    .error (.integrity "slice execution range rank differs from input rank")
  else do
    let width ← dtypeWidth inputFacts.representation.dtype
    let shape := outputFacts.logicalShape
    let rowStrides ← contiguousStrides shape
    copyElements outputFacts.elementCount width (fun linear => do
      let offsets ← elementOffsets ranges.length fun logicalAxis => do
        let outputCoordinate ← logicalCoordinate linear logicalAxis shape rowStrides
        let sourceCoordinate ← okOr
          (checkedAdd (ranges.getD logicalAxis ⟨0, 0⟩).start outputCoordinate)
          (.limit "slice source coordinate overflows u64")
        .ok ⟨sourceCoordinate, inputFacts.storageStrides.getD logicalAxis 0,
          outputCoordinate, outputFacts.storageStrides.getD logicalAxis 0⟩
      .ok (input, offsets)) output cancellation

/-! ## Contiguous concatenation -/

/-- The loop of `append_byte_range_tiled`; `fuel` bounds the number of tiles. -/
def appendTiles (source : Bytes) (sourceOffset byteLen : Nat) (cancellation : CancellationToken) :
    Nat → Nat → Bytes → Result Bytes
  | 0, _, target => .ok target
  | fuel + 1, copied, target =>
    if copied < byteLen then do
      cancellation.check
      let tile := min tileBytes (byteLen - copied)
      let sourceStart ← okOr (checkedAdd sourceOffset copied)
        (.limit "source byte offset overflows u64")
      let (start, _) ← checkedByteRange sourceStart tile source.length
      let copied ← okOr (checkedAdd copied tile) (.limit "copied byte count overflows u64")
      appendTiles source sourceOffset byteLen cancellation fuel copied
        (target ++ Buffer.slice source start tile)
    else .ok target

def appendByteRangeTiled (source : Bytes) (sourceOffset byteLen : Nat) (target : Bytes)
    (cancellation : CancellationToken) : Result Bytes :=
  appendTiles source sourceOffset byteLen cancellation (byteLen / tileBytes + 1) 0 target

/-- The inner loop of `build_contiguous_concat`: one chunk of every input. -/
def concatChunks (axis innerBytes outerIndex : Nat) (cancellation : CancellationToken) :
    List (TensorFacts × Bytes) → Bytes × Nat → Result (Bytes × Nat)
  | [], state => .ok state
  | (facts, input) :: rest, (output, targetOffset) => do
    let chunkBytes ← okOr (checkedMul (facts.logicalShape.getD axis 0) innerBytes)
      (.limit "concatenation chunk length overflows u64")
    let sourceOffset ← okOr (checkedMul outerIndex chunkBytes)
      (.limit "concatenation source offset overflows u64")
    let output ← appendByteRangeTiled input sourceOffset chunkBytes output cancellation
    let targetOffset ← okOr (checkedAdd targetOffset chunkBytes)
      (.limit "concatenation output offset overflows u64")
    concatChunks axis innerBytes outerIndex cancellation rest (output, targetOffset)

def buildContiguousConcat (axis : Nat) (inputFacts : List TensorFacts) (outputFacts : TensorFacts)
    (inputs : List Bytes) (cancellation : CancellationToken) : Result Bytes := do
  cancellation.check
  if inputFacts.length ≠ inputs.length then
    .error (.integrity "concatenation facts and byte-view counts differ")
  else do
    validateConcatInputs inputFacts inputs
    let axis ← validateAxis axis outputFacts.logicalShape.length
    let outputLength ← validateHostLen outputFacts.byteLen
    let first ← okOr inputFacts[0]? (.integrity "concatenation facts and byte-view counts differ")
    let outer ← checkedElementCount (first.logicalShape.take axis)
    let innerElements ← checkedElementCount (first.logicalShape.drop (axis + 1))
    let width ← dtypeWidth first.representation.dtype
    let innerBytes ← okOr (checkedMul innerElements width)
      (.limit "concatenation inner byte length overflows u64")
    let (output, targetOffset) ← (List.range outer).foldlM (fun state outerIndex => do
      cancellation.check
      concatChunks axis innerBytes outerIndex cancellation (inputFacts.zip inputs) state) ([], 0)
    if targetOffset ≠ output.length ∨ output.length ≠ outputLength then
      .error (.integrity "concatenation did not initialize its complete output")
    else do
      cancellation.check
      .ok output

/-! ## Channel-last permutation -/

/-- The elements of an `O x I x spatial` tensor, read in `O, spatial, I` order. -/
def ohwiOrder (width : Nat) (input : Bytes) (outputChannels inputChannels spatial : Nat) : Bytes :=
  (List.range outputChannels).flatMap fun o => (List.range spatial).flatMap fun s =>
    (List.range inputChannels).flatMap fun c =>
      Buffer.slice input (((o * inputChannels + c) * spatial + s) * width) width

/-- The innermost loop of `build_oihw_to_ohwi_elements`: `count` elements, one
source channel apart. -/
def copyChannelRun (input : Bytes) (width sourceChannelStride : Nat) :
    Nat → Nat → List Bytes → Result (List Bytes)
  | 0, _, output => .ok output
  | count + 1, sourceStart, output =>
    if sourceStart + width > input.length then
      .error (.integrity "OIHW source element is out of bounds")
    else copyChannelRun input width sourceChannelStride count
      (sourceStart + sourceChannelStride) (output ++ [Buffer.slice input sourceStart width])

/-- The loop over blocks of input channels; `fuel` bounds the number of blocks. -/
def copyChannelBlocks (input : Bytes) (width inputChannels spatial channelBase spatialIndex : Nat)
    (cancellation : CancellationToken) : Nat → Nat → List Bytes → Result (List Bytes)
  | 0, _, output => .ok output
  | fuel + 1, blockStart, output =>
    if blockStart < inputChannels then do
      cancellation.check
      let blockEnd := min (saturatingAdd blockStart copyTileElements) inputChannels
      let sourceElement ← okOr ((checkedMul blockStart spatial).bind fun offset =>
          (checkedAdd channelBase offset).bind fun offset => checkedAdd offset spatialIndex)
        (.limit "OIHW source offset overflows usize")
      let sourceStart ← okOr (checkedMul sourceElement width)
        (.limit "OIHW source byte offset overflows usize")
      let output ← copyChannelRun input width (spatial * width) (blockEnd - blockStart)
        sourceStart output
      copyChannelBlocks input width inputChannels spatial channelBase spatialIndex cancellation
        fuel blockEnd output
    else .ok output

def buildOihwToOhwiElements (width : Nat) (input : Bytes)
    (outputChannels inputChannels spatial elements : Nat) (cancellation : CancellationToken) :
    Result Bytes :=
  if elements = 0 then do
    cancellation.check
    .ok []
  else do
    let _ ← okOr (checkedMul spatial width)
      (.limit "OIHW input-channel byte stride overflows usize")
    let outputChannelElements ← okOr (checkedMul inputChannels spatial)
      (.limit "OIHW output-channel element count overflows usize")
    let output ← (List.range outputChannels).foldlM (fun output outputChannel => do
      let channelBase ← okOr (checkedMul outputChannel outputChannelElements)
        (.limit "OIHW channel offset overflows usize")
      (List.range spatial).foldlM (fun output spatialIndex =>
        copyChannelBlocks input width inputChannels spatial channelBase spatialIndex cancellation
          (inputChannels / copyTileElements + 1) 0 output) output) []
    if output.length ≠ elements then
      .error (.integrity "OIHW-to-OHWI did not initialize its complete output")
    else do
      cancellation.check
      .ok output.flatten

end ModelWeights.Graph
