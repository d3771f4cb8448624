import ModelWeights.Identity
import ModelWeights.Storage
import ModelWeights.Graph.Builder

/-! # Sources, targets and recipes

The descriptors of `plan.rs` and the checks of their constructors. -/
namespace ModelWeights.Plan
open ModelWeights.Graph

/-! ## Conversion recipes -/

abbrev RecipeValue := ProviderValue

inductive RecipeInput where
  | external (name : TensorName)
  | step (name : StableName)
  deriving DecidableEq, Repr

structure RecipeStep where
  output : StableName
  operation : ImplementationId
  inputs : List RecipeInput
  parameters : OrderedMap StableName RecipeValue
  deriving DecidableEq

structure ConversionRecipe where
  schemaVersion : Nat
  implementation : ImplementationId
  inputs : List TensorName
  steps : List RecipeStep
  outputs : OrderedMap TensorName RecipeInput
  deriving DecidableEq

/-- The inputs of a step refer to declared inputs or to earlier steps. -/
def validateStepInputs (declared : List TensorName) (available : List StableName) :
    List RecipeInput → Result Unit
  | [] => .ok ()
  | .external name :: rest =>
    if name ∉ declared then
      .error (.binding "conversion recipe step references an undeclared external input")
    else validateStepInputs declared available rest
  | .step name :: rest =>
    if name ∉ available then
      .error (.binding "conversion recipe step references a missing or later step output")
    else validateStepInputs declared available rest

/-- The outputs of all steps, after checking each step against the earlier ones. -/
def validateSteps (declared : List TensorName) :
    List StableName → List RecipeStep → Result (List StableName)
  | available, [] => .ok available
  | available, step :: rest =>
    if step.output ∈ available then
      .error (.binding "conversion recipe step output conflicts with an existing value")
    else do
      validateStepInputs declared available step.inputs
      validateSteps declared (step.output :: available) rest

def recipeValueAvailable (declared : List TensorName) (available : List StableName) :
    RecipeInput → Bool
  | .external name => declared.contains name
  | .step name => available.contains name

def ConversionRecipe.new (schemaVersion : Nat) (implementation : ImplementationId)
    (inputs : List TensorName) (steps : List RecipeStep)
    (outputs : OrderedMap TensorName RecipeInput) : Result ConversionRecipe := do
  if schemaVersion = 0 then
    .error (.binding "conversion recipe schema version must be greater than zero")
  else if ¬inputs.Nodup then
    .error (.binding "conversion recipe contains a duplicate declared input")
  else if outputs.entries.isEmpty then
    .error (.binding "conversion recipe must declare at least one output")
  else
    let available ← validateSteps inputs [] steps
    if outputs.entries.any fun entry => !recipeValueAvailable inputs available entry.2 then
      .error (.binding "conversion recipe output references an unavailable value")
    else .ok ⟨schemaVersion, implementation, inputs, steps, outputs⟩

/-! ## Quantized routes -/

inductive QuantizedRoute where
  | hostDequant (targetDtype : DType)
  | packedDirect
  | fusedInTile
  | deviceDequantToScratch (targetDtype : DType)
  | repack (targetEncoding : ImplementationId)
  deriving DecidableEq, Repr

structure LayoutRequirement where
  name : StableName
  version : Nat
  parameters : List UInt8
  deriving DecidableEq, Repr

def LayoutRequirement.matchesLayout (requirement : LayoutRequirement) : Layout → Bool
  | .contiguous => false
  | .custom name version parameters =>
    name = requirement.name ∧ version = requirement.version ∧ parameters = requirement.parameters

structure RouteCapability where
  sourceEncoding : ImplementationId
  route : QuantizedRoute
  implementation : ImplementationId
  backend : Option BackendId
  targetLayout : Option LayoutRequirement
  deriving DecidableEq, Repr

def QuantizedRoute.needsBackend : QuantizedRoute → Bool
  | .packedDirect | .fusedInTile | .deviceDequantToScratch _ => true
  | .hostDequant _ | .repack _ => false

def RouteCapability.new (sourceEncoding : ImplementationId) (route : QuantizedRoute)
    (implementation : ImplementationId) (backend : Option BackendId)
    (targetLayout : Option LayoutRequirement) : Result RouteCapability :=
  if route.needsBackend ∧ backend.isNone then
    .error (.unsupported "backend-dependent quantized route is missing a backend identity")
  else .ok ⟨sourceEncoding, route, implementation, backend, targetLayout⟩

/-! ## Sources -/

structure SourceTensor where
  name : TensorName
  shape : List Nat
  storage : Storage
  deriving DecidableEq

def SourceTensor.new (name : TensorName) (shape : List Nat) (storage : Storage) :
    Result SourceTensor := do
  match storage with
  | .plain dtype span =>
    let length ← dtype.byteLen shape
    if length ≠ span.length then
      .error (.invalid "plain source span length does not match its dtype and shape")
    else .ok ⟨name, shape, storage⟩
  | .quantized quantized =>
    if quantized.logicalShape ≠ shape then
      .error (.invalid "quantized source logical shape does not match its inventory shape")
    else .ok ⟨name, shape, storage⟩

/-! ## Targets -/

inductive Requirement where
  | required
  | optional
  deriving DecidableEq, Repr

deriving instance DecidableEq for OperationGraph

structure TargetTensor where
  name : TensorName
  aliases : List TensorName
  requirement : Requirement
  sourceShape : List Nat
  shape : List Nat
  storageShape : List Nat
  logicalStrides : List Nat
  storageStrides : List Nat
  representation : Representation
  transforms : List PlannedTransform
  operationGraph : Option OperationGraph
  quantizedRoute : Option RouteCapability
  conversionRecipe : Option ConversionRecipe
  outputSize : Nat
  sharedSourceGroup : Option StableName
  deriving DecidableEq

def checkedElements (shape : List Nat) (description : String) : Result Nat :=
  shape.foldlM (fun product dimension => okOr (checkedMul product dimension)
    (.limit (description ++ " element count overflows u64"))) 1

/-- The strides of `shape` and the running stride after its first axis. -/
def stridesLoop (description : String) : List Nat → Result (List Nat × Nat)
  | [] => .ok ([], 1)
  | dimension :: rest => do
    let (strides, stride) ← stridesLoop description rest
    let next ← okOr (checkedMul stride dimension)
      (.limit (description ++ " contiguous stride overflows u64"))
    .ok (stride :: strides, next)

def checkedContiguousStrides (shape : List Nat) (description : String) : Result (List Nat) := do
  let (strides, _) ← stridesLoop description shape
  .ok strides

/-- Whether adjacent transforms fit together. -/
def chained : List PlannedTransform → Bool
  | a :: b :: rest => a.transform.target = b.transform.source ∧ chained (b :: rest)
  | _ => true

def validateTransformSteps (shape : List Nat) (elements : Nat) :
    List PlannedTransform → Result Unit
  | [] => .ok ()
  | planned :: rest =>
    if elements > 0 ∧ planned.outputSize = 0 then
      .error (.binding "non-empty transform step must declare nonzero output bytes")
    else do
      if planned.transform.target.layout.isContiguous then
        let length ← planned.transform.target.dtype.byteLen shape
        if length ≠ planned.outputSize then
          .error (.binding "contiguous transform step output size differs from its dtype and shape")
        else validateTransformSteps shape elements rest
      else validateTransformSteps shape elements rest

def validateTransformChain (transforms : List PlannedTransform) (target : Representation)
    (shape : List Nat) (finalOutputSize : Nat) : Result Unit := do
  if ¬chained transforms then
    .error (.binding "target transform chain contains incompatible adjacent representations")
  else if transforms.getLast?.any fun planned =>
      planned.transform.target ≠ target ∨ planned.outputSize ≠ finalOutputSize then
    .error (.binding "terminal transform representation or output size differs from the target")
  else
    let elements ← checkedElements shape "target transform"
    validateTransformSteps shape elements transforms

/-- `TargetTensorBuilder`: a target whose physical geometry may be left out. -/
structure TargetTensorBuilder where
  name : TensorName
  aliases : List TensorName
  requirement : Requirement
  sourceShape : List Nat
  shape : List Nat
  storageShape : Option (List Nat)
  logicalStrides : Option (List Nat)
  storageStrides : Option (List Nat)
  representation : Representation
  transforms : List PlannedTransform
  operationGraph : Option OperationGraph
  quantizedRoute : Option RouteCapability
  conversionRecipe : Option ConversionRecipe
  outputSize : Nat
  sharedSourceGroup : Option StableName

/-- The facts of the selected output of a graph. -/
def outputFacts (graph : OperationGraph) : TensorFacts :=
  (graph.facts graph.output).get graph.outputAvailable

def validateRecipe (name : TensorName) (quantizedRoute : Option RouteCapability) :
    Option ConversionRecipe → Result Unit
  | none => .ok ()
  | some recipe =>
    if quantizedRoute.isSome then
      .error (.binding "target cannot combine a conversion recipe with a quantized route")
    else if recipe.inputs.length ≠ 1 then
      .error (.binding "external conversion recipes currently require exactly one input")
    else if ¬recipe.outputs.contains name then
      .error (.binding "conversion recipe does not declare the target tensor name as an output")
    else .ok ()

/-- A graph computes a tensor with the facts of the target. -/
def validateGraph (target : TargetTensor) : Option OperationGraph → Result Unit
  | none => .ok ()
  | some graph => do
    let targetFacts ← TensorFacts.new target.shape target.storageShape target.logicalStrides
      target.storageStrides target.representation target.outputSize
    if outputFacts graph ≠ targetFacts then
      .error (.binding "operation graph output facts differ from the target tensor contract")
    else .ok ()

/-- The checks of `TargetTensorBuilder::build` on the target it makes, in order. -/
def TargetTensor.validate (target : TargetTensor) : Result Unit := do
  if hasAdjacentDuplicate target.aliases then
    .error (.binding "target tensor contains a duplicate source alias")
  else if target.name ∈ target.aliases then
    .error (.binding "target tensor repeats its exact name as a source alias")
  else if target.conversionRecipe.isSome ∧ target.transforms ≠ [] then
    .error (.binding "target cannot combine a conversion recipe with planned transforms")
  else if target.operationGraph.isSome ∧ (target.transforms ≠ [] ∨
      target.conversionRecipe.isSome ∨ target.quantizedRoute.isSome) then
    .error (.binding "target operation graph cannot be combined with another execution route")
  else if target.operationGraph.isSome ∧ target.aliases ≠ [] then
    .error (.binding "operation graph inputs replace target source aliases")
  else
    validateTransformChain target.transforms target.representation target.shape target.outputSize
    if target.sourceShape ≠ target.shape ∧ target.conversionRecipe.isNone ∧
        target.operationGraph.isNone ∧ target.quantizedRoute.isNone then
      .error (.binding "target source shape differs without a conversion recipe, operation graph, or quantized route")
    else if target.logicalStrides.length ≠ target.shape.length then
      .error (.binding "target logical stride rank differs from its logical shape rank")
    else if target.storageStrides.length ≠ target.shape.length then
      .error (.binding "target storage stride rank differs from its logical shape rank")
    else
      let elements ← checkedElements target.shape "target tensor"
      if elements > 0 ∧ target.outputSize = 0 then
        .error (.binding "non-empty target tensor must declare nonzero output bytes")
      else
        validateRecipe target.name target.quantizedRoute target.conversionRecipe
        validateGraph target target.operationGraph

/-- The strides a builder was given, or the contiguous ones. -/
def stridesOr (strides : Option (List Nat)) (shape : List Nat) (description : String) :
    Result (List Nat) :=
  match strides with
  | some strides => .ok strides
  | none => checkedContiguousStrides shape description

def TargetTensorBuilder.build (b : TargetTensorBuilder) : Result TargetTensor := do
  let storageShape := b.storageShape.getD b.shape
  let logicalStrides ← stridesOr b.logicalStrides b.shape "target tensor"
  let storageStrides ← stridesOr b.storageStrides b.shape "target tensor storage"
  let target : TargetTensor := {
    name := b.name
    aliases := b.aliases.insertionSort (· ≤ ·)
    requirement := b.requirement
    sourceShape := b.sourceShape
    shape := b.shape
    storageShape, logicalStrides, storageStrides
    representation := b.representation
    transforms := b.transforms
    operationGraph := b.operationGraph
    quantizedRoute := b.quantizedRoute
    conversionRecipe := b.conversionRecipe
    outputSize := b.outputSize
    sharedSourceGroup := b.sharedSourceGroup }
  target.validate
  .ok target

/-! ## Plan inputs -/

structure PlanInputs where
  manifest : ManifestId
  selection : SelectionId
  contract : ContractId
  backend : BackendId
  sourceDigests : List ContentDigest
  deriving DecidableEq, Repr

inductive ExtraSourcePolicy where
  | reject
  | allow
  deriving DecidableEq, Repr

end ModelWeights.Plan
