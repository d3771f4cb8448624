import ModelWeights.Graph.Builder
import ModelWeights.Graph.Simd

/-! # Node execution

`execute_node` with its seven executors, and the part of the preparation engine
a `Prepare` node runs through. Providers are third-party code: a provider is
any pair of a validation and a byte function, and the engine's own checks on
them are modelled in full. Whether AVX2 is available is a parameter of the
host. -/
namespace ModelWeights.Graph

/-! ## Preparation -/

structure PrepareRequest where
  transform : TransformSpec
  shape : List Nat
  source : Bytes
  expectedOutputBytes : Nat
  expectedScratchBytes : Nat

inductive OutputStrategy where
  | reuseSource
  | allocate (outputBytes scratchBytes : Nat)
  deriving DecidableEq, Repr

structure PreparationProvider where
  validate : PrepareRequest → CancellationToken → Result OutputStrategy
  prepareAllocated : PrepareRequest → Nat → Nat → CancellationToken → Result Bytes

structure PreparationEngine where
  providers : ImplementationId → Option PreparationProvider

def PreparationEngine.resolve (engine : PreparationEngine) (id : ImplementationId) :
    Result PreparationProvider :=
  okOr (engine.providers id) (.unsupported
    s!"no preparation provider registered for {id.provider.text} / {id.operation.text} version {id.version}")

def validateReusedOutput (request : PrepareRequest) : Result Unit :=
  if request.expectedScratchBytes ≠ 0 then
    .error (.integrity s!"provider selected source reuse without workspace, but the plan records {request.expectedScratchBytes} scratch bytes")
  else if request.source.length ≠ request.expectedOutputBytes then
    .error (.integrity s!"provider selected source reuse for {request.source.length} bytes, but the plan requires {request.expectedOutputBytes} bytes")
  else .ok ()

def validateAllocatedStorage (request : PrepareRequest) (outputBytes scratchBytes : Nat) :
    Result (Nat × Nat) :=
  if outputBytes ≠ request.expectedOutputBytes then
    .error (.integrity s!"provider requires {outputBytes} output bytes, but the plan records {request.expectedOutputBytes} bytes")
  else if scratchBytes ≠ request.expectedScratchBytes then
    .error (.integrity s!"provider requires {scratchBytes} scratch bytes, but the plan records {request.expectedScratchBytes} bytes")
  else .ok (outputBytes, scratchBytes)

def validatePreparedLen (output : Bytes) (outputLen : Nat) : Result Unit :=
  if output.length ≠ outputLen then
    .error (.integrity s!"preparation provider returned {output.length} output bytes, expected {outputLen}")
  else .ok ()

/-- What the engine returns: a clone of the source view or an owned buffer. -/
inductive Prepared where
  | reused
  | owned (output : Bytes)
  deriving DecidableEq, Repr

def PreparationEngine.prepareWithCancellation (engine : PreparationEngine)
    (request : PrepareRequest) (cancellation : CancellationToken) : Result Prepared := do
  cancellation.check
  let provider ← engine.resolve request.transform.implementation
  let strategy ← provider.validate request cancellation
  cancellation.check
  match strategy with
  | .reuseSource => do
    validateReusedOutput request
    cancellation.check
    .ok .reused
  | .allocate outputBytes scratchBytes => do
    let (outputLen, scratchLen) ← validateAllocatedStorage request outputBytes scratchBytes
    cancellation.check
    let output ← provider.prepareAllocated request outputLen scratchLen cancellation
    cancellation.check
    validatePreparedLen output outputLen
    .ok (.owned output)

/-- The machine a graph runs on. -/
structure Host where
  preparation : PreparationEngine
  avx2Available : Bool

/-! ## Views -/

/-- Bytes with what `same_view` can see of their address: two live buffers that
hold bytes never share one, and an empty buffer may have the dangling address
all empty allocations share. -/
structure ByteView where
  bytes : Bytes
  dangling : Bool
  deriving DecidableEq, Repr

def ByteView.fromBoxed (bytes : Bytes) : ByteView := ⟨bytes, bytes.isEmpty⟩

/-- `same_view` of a prepared output and the source it was made from. -/
def sameView (prepared : Prepared) (source : ByteView) : Bool :=
  match prepared with
  | .reused => true
  | .owned output => output.isEmpty && source.bytes.isEmpty && source.dangling

def Prepared.view (prepared : Prepared) (source : ByteView) : ByteView :=
  match prepared with
  | .reused => source
  | .owned output => .fromBoxed output

/-! ## Node executors -/

inductive OutputOrigin where
  | fresh
  | alias (input : Nat)
  deriving DecidableEq, Repr

structure ProducedValue where
  bytes : ByteView
  origin : OutputOrigin
  deriving DecidableEq, Repr

structure NodeExecution where
  outputs : List ProducedValue
  transientScratch : Nat
  deriving DecidableEq, Repr

def freshNodeExecution (output : Bytes) : NodeExecution :=
  ⟨[⟨.fromBoxed output, .fresh⟩], 0⟩

def onlyOutput (outputs : List TensorFacts) : Result TensorFacts :=
  match outputs with
  | [output] => .ok output
  | _ => .error (.integrity "unary runtime operation requires exactly one output")

def unaryExecutionParts (outputs : List TensorFacts) (inputs : List ByteView)
    (inputFacts : List TensorFacts) : Result (ByteView × TensorFacts × TensorFacts) :=
  match inputs with
  | [input] =>
    match inputFacts with
    | [facts] => do
      let output ← onlyOutput outputs
      .ok (input, facts, output)
    | _ => .error (.integrity "unary runtime operation requires exactly one input-facts value")
  | _ => .error (.integrity "unary runtime operation requires exactly one input")

def executeConcatNode (axis : Nat) (outputs : List TensorFacts) (inputs : List ByteView)
    (inputFacts : List TensorFacts) (cancellation : CancellationToken) :
    Result NodeExecution := do
  let outputFacts ← onlyOutput outputs
  let inputViews := inputs.map ByteView.bytes
  if inputFacts.all TensorFacts.isCanonicalContiguous && outputFacts.isCanonicalContiguous then do
    let output ← buildContiguousConcat axis inputFacts outputFacts inputViews cancellation
    .ok (freshNodeExecution output)
  else do
    let output ← allocateTensor outputFacts cancellation
    let output ← executeConcatBytes axis inputFacts outputFacts inputViews output cancellation
    .ok (freshNodeExecution output)

def isIdentityPermutation (permute : Permute) (inputFacts outputFacts : TensorFacts) : Bool :=
  isIdentityOrder permute.order && inputFacts = outputFacts

def PermuteMode.isStorage : PermuteMode → Bool
  | .storage _ => true
  | .logical => false

/-- The kernel `build_oihw_to_ohwi_if_supported` selects for an element width. -/
def oihwKernel (host : Host) (inputFacts outputFacts : TensorFacts) (input : Bytes)
    (outputChannels inputChannels spatial elements width : Nat)
    (cancellation : CancellationToken) : Result (Option Bytes) :=
  let dtype := inputFacts.representation.dtype
  if width = 2 ∧ spatial = 9 ∧ (dtype = .f16 ∨ dtype = .bf16) ∧ host.avx2Available then do
    let output ← allocateTensor outputFacts cancellation
    let output ← Simd.permuteOihwToOhwi3x3U16 host.avx2Available input output outputChannels
      inputChannels cancellation
    .ok (some output)
  else if width = 1 ∨ width = 2 ∨ width = 4 ∨ width = 8 then do
    let output ← buildOihwToOhwiElements width input outputChannels inputChannels spatial elements
      cancellation
    .ok (some output)
  else .ok none

def buildOihwToOhwiIfSupported (host : Host) (permute : Permute)
    (inputFacts outputFacts : TensorFacts) (input : Bytes) (cancellation : CancellationToken) :
    Result (Option Bytes) :=
  if permute.mode.isStorage = false ∨ permute.order ≠ [0, 2, 3, 1] ∨
      inputFacts.isCanonicalContiguous = false then .ok none
  else do
    cancellation.check
    match inputFacts.logicalShape with
    | [outputChannels, inputChannels, kernelHeight, kernelWidth] => do
      let spatial ← okOr (checkedMul kernelHeight kernelWidth)
        (.limit "OIHW spatial element count overflows usize")
      let outputChannelElements ← okOr (checkedMul inputChannels spatial)
        (.limit "OIHW output-channel element count overflows usize")
      let elements ← okOr (checkedMul outputChannels outputChannelElements)
        (.limit "OIHW element count overflows usize")
      let width ← dtypeWidth inputFacts.representation.dtype
      let expectedBytes ← okOr (checkedMul elements width)
        (.limit "OIHW byte length overflows usize")
      let outputBytes ← validateHostLen outputFacts.byteLen
      if input.length ≠ expectedBytes ∨ outputBytes ≠ expectedBytes then
        .error (.integrity "OIHW-to-OHWI buffers differ from inferred byte length")
      else
        oihwKernel host inputFacts outputFacts input outputChannels inputChannels spatial elements
          width cancellation
    | _ => .ok none

def executePermuteNode (host : Host) (permute : Permute) (outputs : List TensorFacts)
    (inputs : List ByteView) (inputFacts : List TensorFacts) (cancellation : CancellationToken) :
    Result NodeExecution := do
  let (input, inputFacts, outputFacts) ← unaryExecutionParts outputs inputs inputFacts
  validateViewLen input.bytes inputFacts.byteLen "permutation input"
  if isIdentityPermutation permute inputFacts outputFacts then do
    cancellation.check
    .ok ⟨[⟨input, .alias 0⟩], 0⟩
  else do
    match ← buildOihwToOhwiIfSupported host permute inputFacts outputFacts input.bytes
      cancellation with
    | some output => .ok (freshNodeExecution output)
    | none => do
      let output ← allocateTensor outputFacts cancellation
      let output ← executePermuteBytes permute inputFacts outputFacts input.bytes output
        cancellation
      .ok (freshNodeExecution output)

def executePadNode (outputs : List TensorFacts) (inputs : List ByteView)
    (inputFacts : List TensorFacts) (cancellation : CancellationToken) :
    Result NodeExecution := do
  let (input, inputFacts, outputFacts) ← unaryExecutionParts outputs inputs inputFacts
  validateViewLen input.bytes inputFacts.byteLen "padding input"
  let output ← allocateTensor outputFacts cancellation
  let output ← executeStorageCopy inputFacts outputFacts input.bytes output cancellation
  .ok (freshNodeExecution output)

def executeSliceNode (ranges : List AxisRange) (outputs : List TensorFacts)
    (inputs : List ByteView) (inputFacts : List TensorFacts) (cancellation : CancellationToken) :
    Result NodeExecution := do
  let (input, inputFacts, outputFacts) ← unaryExecutionParts outputs inputs inputFacts
  let output ← allocateTensor outputFacts cancellation
  let output ← executeSliceBytes ranges inputFacts input.bytes outputFacts output cancellation
  .ok (freshNodeExecution output)

/-- The whole of every axis, except for `range` along the split axis. -/
def splitRanges (axis : Nat) (range : AxisRange) (shape : List Nat) : List AxisRange :=
  (shape.map fun dimension => ⟨0, dimension⟩).set axis range

def executeSplitNode (split : Split) (outputs : List TensorFacts) (inputs : List ByteView)
    (inputFacts : List TensorFacts) (cancellation : CancellationToken) :
    Result NodeExecution := do
  let input ← okOr inputs.head? (.integrity "split runtime input is unavailable")
  let facts ← okOr inputFacts.head? (.integrity "split input facts are unavailable")
  let produced ← (split.ranges.zip outputs).mapM fun (range, outputFacts) => do
    cancellation.check
    let ranges := splitRanges split.axis range facts.logicalShape
    let output ← allocateTensor outputFacts cancellation
    let output ← executeSliceBytes ranges facts input.bytes outputFacts output cancellation
    .ok (⟨.fromBoxed output, .fresh⟩ : ProducedValue)
  .ok ⟨produced, 0⟩

def executeReshapeNode (inputs : List ByteView) : Result NodeExecution := do
  let input ← okOr inputs.head? (.integrity "reshape runtime input is unavailable")
  .ok ⟨[⟨input, .alias 0⟩], 0⟩

/-- The request of a `Prepare` node. -/
def prepareRequest (transform : PlannedTransform) (facts : TensorFacts) (source : Bytes) :
    PrepareRequest :=
  ⟨transform.transform, facts.logicalShape, source, transform.outputSize, transform.scratchBytes⟩

def executePrepareNode (host : Host) (transform : PlannedTransform) (inputs : List ByteView)
    (inputFacts : List TensorFacts) (cancellation : CancellationToken) :
    Result NodeExecution := do
  let input ← okOr inputs.head? (.integrity "prepare runtime input is unavailable")
  let facts ← okOr inputFacts.head? (.integrity "prepare input facts are unavailable")
  let output ← host.preparation.prepareWithCancellation
    (prepareRequest transform facts input.bytes) cancellation
  let reused := sameView output input
  .ok ⟨[⟨output.view input, if reused then .alias 0 else .fresh⟩],
    if reused then 0 else transform.scratchBytes⟩

def executeNode (host : Host) (node : OperationNode) (inputs : List ByteView)
    (inputFacts : List TensorFacts) (cancellation : CancellationToken) :
    Result NodeExecution :=
  if inputFacts.length ≠ inputs.length then
    .error (.integrity "runtime operation input count differs from graph edges")
  else match node.operation with
    | .concat axis => executeConcatNode axis node.outputs inputs inputFacts cancellation
    | .permute permute =>
      executePermuteNode host permute node.outputs inputs inputFacts cancellation
    | .pad _ => executePadNode node.outputs inputs inputFacts cancellation
    | .slice ranges => executeSliceNode ranges node.outputs inputs inputFacts cancellation
    | .split split => executeSplitNode split node.outputs inputs inputFacts cancellation
    | .reshape _ => executeReshapeNode inputs
    | .prepare transform => executePrepareNode host transform inputs inputFacts cancellation

end ModelWeights.Graph
