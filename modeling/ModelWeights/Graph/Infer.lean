import ModelWeights.Graph.Facts

/-! # Operations and shape inference

The seven graph operations with their parameters as the wire format can carry
them (`AxisRange`, `Permute`, `Pad` and `Split` are also deserialized without
their checked constructors), and `infer_outputs`, which every node passes
through before it enters a graph. -/
namespace ModelWeights.Graph
open Strided

/-! ## Parameters -/

/-- A half-open range along one logical axis. -/
structure AxisRange where
  start : Nat
  stop : Nat
  deriving DecidableEq, Repr

def AxisRange.new (start stop : Nat) : Result AxisRange :=
  if start > stop then .error (.invalid "tensor axis range start must not exceed its end")
  else .ok ⟨start, stop⟩

def AxisRange.len (r : AxisRange) : Nat := r.stop - r.start

def AxisRange.isEmpty (r : AxisRange) : Bool := r.start == r.stop

inductive PermuteMode where
  | logical
  | storage (targetLayout : Layout)
  deriving DecidableEq, Repr

structure Permute where
  order : List Nat
  mode : PermuteMode
  deriving DecidableEq, Repr

structure Pad where
  order : List Nat
  storageShape : List Nat
  targetLayout : Layout
  deriving DecidableEq, Repr

structure Split where
  axis : Nat
  ranges : List AxisRange
  deriving DecidableEq, Repr

inductive Operation where
  | concat (axis : Nat)
  | permute (permute : Permute)
  | pad (pad : Pad)
  | slice (ranges : List AxisRange)
  | split (split : Split)
  | reshape (shape : List Nat)
  | prepare (transform : PlannedTransform)
  deriving DecidableEq, Repr

/-- Operations with a host kernel of their own; `Prepare` runs a provider. -/
def Operation.isStructural : Operation → Bool
  | .prepare _ => false
  | _ => true

theorem Operation.prepare_of_not_structural {operation : Operation}
    (h : operation.isStructural = false) : ∃ transform, operation = .prepare transform := by
  cases operation with
  | prepare transform => exact ⟨transform, rfl⟩
  | _ => cases h

def Operation.builtinImplementation : Operation → Result ImplementationId
  | .prepare transform => .ok transform.transform.implementation
  | op => do
    let name := match op with
      | .concat _ => "concat"
      | .permute _ => "permute"
      | .pad _ => "pad"
      | .slice _ => "slice"
      | .split _ => "split"
      | .reshape _ => "reshape"
      | .prepare _ => ""
    let provider ← StableName.parse "model-weights"
    let operation ← StableName.parse name
    .ok ⟨provider, operation, 1⟩

/-! ## Parameter checks -/

def permutationLoop : List Nat → List Bool → Result Unit
  | [], _ => .ok ()
  | axis :: rest, seen =>
    match seen[axis]? with
    | none => .error (.invalid "permutation axis lies outside its declared rank")
    | some true => .error (.invalid "permutation contains a duplicate axis")
    | some false => permutationLoop rest (seen.set axis true)

def validatePermutation (order : List Nat) : Result Unit := do
  validateRank order.length
  permutationLoop order (List.replicate order.length false)

def Permute.new (order : List Nat) (mode : PermuteMode) : Result Permute := do
  validatePermutation order
  .ok ⟨order, mode⟩

def Pad.storageZero (order storageShape : List Nat) (targetLayout : Layout) : Result Pad := do
  validatePermutation order
  if order.length ≠ storageShape.length then
    .error (.invalid "padding order and physical storage shape must have equal ranks")
  else .ok ⟨order, storageShape, targetLayout⟩

def splitLoop : Option Nat → List AxisRange → Result Unit
  | _, [] => .ok ()
  | previousEnd, range :: rest =>
    if range.isEmpty then .error (.invalid "split ranges must not be empty")
    else if previousEnd.any (range.start < ·) then
      .error (.invalid "split ranges must be ordered and non-overlapping")
    else splitLoop (some range.stop) rest

def Split.new (axis : Nat) (ranges : List AxisRange) : Result Split :=
  if ranges = [] then .error (.invalid "split must contain at least one output range")
  else do
    splitLoop none ranges
    .ok ⟨axis, ranges⟩

def isIdentityOrder (order : List Nat) : Bool := order.zipIdx.all fun x => x.1 == x.2

/-- Axes are `u32` and fit a `usize`. -/
def permutationIndices (order : List Nat) : Result (List Nat) := .ok order

def validateAxis (axis rank : Nat) : Result Nat :=
  if axis ≥ rank then .error (.binding "operation axis lies outside tensor rank") else .ok axis

def validateRange (range : AxisRange) (dimension : Nat) : Result Unit :=
  if range.start > range.stop ∨ range.stop > dimension then
    .error (.binding "operation range lies outside its logical axis")
  else .ok ()

/-- `usize` has 64 bits, so a `u64` length always fits. -/
def validateHostLen (byteLen : Nat) : Result Nat := .ok byteLen

/-! ## Inference -/

def oneInput : List TensorFacts → Result TensorFacts
  | [input] => .ok input
  | _ => .error (.binding "unary operation requires exactly one input")

/-- The loop of `infer_concat` over the inputs; `axisLength` is the running
length of the concatenated axis. -/
def concatLoop (first : TensorFacts) (axis : Nat) : Nat → List TensorFacts → Result Nat
  | axisLength, [] => .ok axisLength
  | axisLength, input :: rest =>
    if input.logicalShape.length ≠ first.logicalShape.length then
      .error (.binding "concatenation inputs must have equal ranks")
    else if input.representation.dtype ≠ first.representation.dtype then
      .error (.binding "concatenation inputs must have equal scalar dtypes")
    else if (input.logicalShape.zip first.logicalShape).zipIdx.any
        (fun x => x.2 ≠ axis ∧ x.1.1 ≠ x.1.2) then
      .error (.binding "concatenation input dimensions disagree outside the selected axis")
    else do
      let next ← okOr (checkedAdd axisLength (input.logicalShape.getD axis 0))
        (.limit "concatenated axis length overflows u64")
      concatLoop first axis next rest

def inferConcat (axis : Nat) (inputs : List TensorFacts) : Result (List TensorFacts) :=
  match inputs with
  | first :: _ :: _ => do
    let axis ← validateAxis axis first.logicalShape.length
    let axisLength ← concatLoop first axis 0 inputs
    let output ← TensorFacts.contiguous (first.logicalShape.set axis axisLength)
      (.contiguous first.representation.dtype)
    .ok [output]
  | _ => .error (.binding "concatenation requires at least two ordered inputs")

/-- The shape seen through a permutation of its axes. -/
def permuteShape (order shape : List Nat) : List Nat := order.map fun axis => shape.getD axis 0

/-- Physical strides written back to the logical axes they belong to. -/
def scatterStrides (order physicalStrides : List Nat) : List Nat :=
  (order.zip physicalStrides).foldl (fun strides x => strides.set x.1 x.2)
    (List.replicate order.length 0)

def inferPermute (permute : Permute) (input : TensorFacts) : Result (List TensorFacts) := do
  validatePermutation permute.order
  if permute.order.length ≠ input.logicalShape.length then
    .error (.binding "permutation rank must equal the input logical rank")
  else do
    let order ← permutationIndices permute.order
    let dtype := input.representation.dtype
    match permute.mode with
    | .logical => do
      let output ← TensorFacts.contiguous (permuteShape order input.logicalShape) (.contiguous dtype)
      .ok [output]
    | .storage targetLayout =>
      if targetLayout.isContiguous = true ∧ order.zipIdx.any (fun x => x.2 ≠ x.1) then
        .error (.binding
          "a non-identity storage permutation requires a non-contiguous target layout")
      else do
        let storageShape := permuteShape order input.logicalShape
        let physicalAxisStrides ← contiguousStrides storageShape
        let storageStrides := scatterStrides order physicalAxisStrides
        let byteLen ← dtype.byteLen storageShape
        let output ← TensorFacts.new input.logicalShape storageShape input.logicalStrides
          storageStrides ⟨dtype, targetLayout⟩ byteLen
        .ok [output]

def inferPad (pad : Pad) (input : TensorFacts) : Result (List TensorFacts) := do
  validatePermutation pad.order
  let rank := input.logicalShape.length
  if pad.order.length ≠ rank ∨ pad.storageShape.length ≠ rank then
    .error (.binding "padding rank must equal the input logical rank")
  else if pad.targetLayout.isContiguous then
    .error (.binding "zero-padded physical storage requires a non-contiguous target layout")
  else do
    let order ← permutationIndices pad.order
    let logical := permuteShape order input.logicalShape
    if (logical.zip pad.storageShape).any (fun x => x.2 < x.1) then
      .error (.binding "padded physical dimension is smaller than its logical dimension")
    else if (logical.zip pad.storageShape).any (fun x => x.1 < x.2) = false then
      .error (.binding "padding operation must enlarge at least one physical dimension")
    else do
      let physicalStrides ← contiguousStrides pad.storageShape
      let storageStrides := scatterStrides order physicalStrides
      let dtype := input.representation.dtype
      let byteLen ← dtype.byteLen pad.storageShape
      let output ← TensorFacts.new input.logicalShape pad.storageShape input.logicalStrides
        storageStrides ⟨dtype, pad.targetLayout⟩ byteLen
      .ok [output]

/-- The output shape of a slice; the lengths differ only in the failure case
that `infer_slice` has excluded. -/
def sliceLoop : List AxisRange → List Nat → Result (List Nat)
  | range :: ranges, dimension :: shape => do
    validateRange range dimension
    let rest ← sliceLoop ranges shape
    .ok (range.len :: rest)
  | _, _ => .ok []

def inferSlice (ranges : List AxisRange) (input : TensorFacts) : Result (List TensorFacts) :=
  if ranges.length ≠ input.logicalShape.length then
    .error (.binding "slice must contain one range per logical input axis")
  else do
    let outputShape ← sliceLoop ranges input.logicalShape
    let output ← TensorFacts.contiguous outputShape (.contiguous input.representation.dtype)
    .ok [output]

def inferSplitLoop (input : TensorFacts) (axis : Nat) :
    Option Nat → List AxisRange → Result (List TensorFacts)
  | _, [] => .ok []
  | previousEnd, range :: rest =>
    if range.isEmpty then .error (.binding "split ranges must not be empty")
    else do
      validateRange range (input.logicalShape.getD axis 0)
      if previousEnd.any (range.start < ·) then
        .error (.binding "split ranges must be ordered and non-overlapping")
      else do
        let output ← TensorFacts.contiguous (input.logicalShape.set axis range.len)
          (.contiguous input.representation.dtype)
        let outputs ← inferSplitLoop input axis (some range.stop) rest
        .ok (output :: outputs)

def inferSplit (split : Split) (input : TensorFacts) : Result (List TensorFacts) := do
  let axis ← validateAxis split.axis input.logicalShape.length
  let outputs ← inferSplitLoop input axis none split.ranges
  if outputs = [] then .error (.binding "split must contain at least one output range")
  else .ok outputs

def inferReshape (shape : List Nat) (input : TensorFacts) : Result (List TensorFacts) :=
  if input.isCanonicalContiguous = false then
    .error (.binding "metadata-only reshape requires canonical contiguous input storage")
  else do
    validateRank shape.length
    let outputElements ← checkedElementCount shape
    if outputElements ≠ input.elementCount then
      .error (.binding "reshape input and output element counts must be equal")
    else do
      let output ← TensorFacts.contiguous shape input.representation
      .ok [output]

def inferPrepare (transform : PlannedTransform) (input : TensorFacts) :
    Result (List TensorFacts) :=
  if input.isCanonicalContiguous = false then
    .error (.binding "provider preparation requires canonical contiguous logical storage")
  else if transform.transform.source ≠ input.representation then
    .error (.binding "provider preparation source representation does not match its input")
  else if transform.transform.source.layout.isContiguous = false ∨
      transform.transform.target.layout.isContiguous = false then
    .error (.binding
      "graph preparation currently requires contiguous source and target layouts")
  else do
    let expected ← transform.transform.target.dtype.byteLen input.logicalShape
    if transform.outputSize ≠ expected then
      .error (.binding s!"provider preparation records {transform.outputSize} output bytes, but inferred facts require {expected}")
    else do
      let _ ← validateHostLen transform.outputSize
      let _ ← validateHostLen transform.scratchBytes
      let output ← TensorFacts.contiguous input.logicalShape transform.transform.target
      .ok [output]

def inferOutputs (operation : Operation) (inputs : List TensorFacts) :
    Result (List TensorFacts) :=
  match operation with
  | .concat axis => inferConcat axis inputs
  | .permute permute => do inferPermute permute (← oneInput inputs)
  | .pad pad => do inferPad pad (← oneInput inputs)
  | .slice ranges => do inferSlice ranges (← oneInput inputs)
  | .split split => do inferSplit split (← oneInput inputs)
  | .reshape shape => do inferReshape shape (← oneInput inputs)
  | .prepare transform => do inferPrepare transform (← oneInput inputs)

end ModelWeights.Graph
