import ModelWeights.Cache.Service
import ModelWeights.Graph.Estimate
import ModelWeights.Pipeline.Budget
import ModelWeights.Prepared.Address

/-! # The materializer

`Materializer::materialize` and `publish_prepared_bytes` of `materialize.rs` as programs
over the steps of the cache service. The opened checkpoint is a function from spans to
the bytes they hold, or an error; so are the overlay plan and the admission of a
pipeline. A pure computation that takes a cancellation token is given what the token
says when it starts: it has no effect that a later cancellation could leave behind. -/
namespace ModelWeights.Prepared
open ModelWeights.Graph Plan Cache Pipeline Program

/-! ## Deliveries -/

inductive PreparedOrigin where
  | source
  | transform
  | operationGraph
  | cache
  deriving DecidableEq, Repr

structure PreparedWeight where
  sourceNames : List TensorName
  target : TargetTensor
  bytes : ByteView
  origin : PreparedOrigin
  residentBytes : Nat

structure ConversionHandoff where
  source : SourceTensor
  target : TargetTensor
  recipe : ConversionRecipe
  sourceBytes : ByteView
  residentBytes : Nat

structure OperationInputBytes where
  source : SourceTensor
  bytes : ByteView

structure OperationHandoff where
  inputs : List OperationInputBytes
  target : TargetTensor
  graph : OperationGraph
  residentBytes : Nat

structure QuantizedHandoff where
  source : SourceTensor
  target : TargetTensor
  storage : QuantizedStorage
  capability : RouteCapability
  payload : ByteView
  companions : List (StableName × ByteView)
  residentBytes : Nat

inductive WeightDelivery where
  | prepared (weight : PreparedWeight)
  | conversion (handoff : ConversionHandoff)
  | operation (handoff : OperationHandoff)
  | quantized (handoff : QuantizedHandoff)
  | overlay (base : WeightDelivery) (bindingIndex : Nat) (targetDigest : ContentDigest)
    (residentBytes : Nat)

def WeightDelivery.residentBytes : WeightDelivery → Nat
  | .prepared weight => weight.residentBytes
  | .conversion handoff => handoff.residentBytes
  | .operation handoff => handoff.residentBytes
  | .quantized handoff => handoff.residentBytes
  | .overlay _ _ _ residentBytes => residentBytes

inductive OperationExecution where
  | host
  | delegate
  deriving DecidableEq, Repr

/-- A materializer: its plan, the machine it runs on, how it reads sources, whether a
span is certain to be mapped, its cache and the validation of its payloads, the overlay
of a binding if it has operations, and the answers of `with_resources` in the pipeline. -/
structure Materializer where
  plan : BindingPlan
  host : Host
  read : SourceSpan → CancellationToken → Result ByteView
  mapped : SourceSpan → Result Bool
  cache : Option CacheService
  cacheValidation : CacheValidation
  overlay : Binding → CancellationToken → Result (Option (Nat × ContentDigest))
  operationExecution : OperationExecution
  withResources : ResourceWeights → Result Unit

/-- A computation without effects. -/
def pureAction {α : Type} (r : Result α) : Action α := ExceptT.mk (pure r)

/-- A computation that takes a cancellation token. -/
def sampled {α : Type} (f : CancellationToken → Result α) : Action α := do
  let cancelled ← step .cancelled
  pureAction (f ⟨cancelled⟩)

/-! ## Resources -/

/-- `peak_transform_scratch_bytes` after an intermediate of `previous` bytes. -/
def peakTransformScratchBytes (previous peak : Nat) : List PlannedTransform → Result Nat
  | [] => .ok peak
  | transform :: rest => do
    let outputIntermediate := if rest.isEmpty then 0 else transform.outputSize
    let liveIntermediates ← okOr (checkedAdd previous outputIntermediate)
      (.limit "adjacent transform scratch bytes overflow u64")
    let liveScratch ← okOr (checkedAdd liveIntermediates transform.scratchBytes)
      (.limit "provider transform scratch bytes overflow u64")
    peakTransformScratchBytes transform.outputSize (max peak liveScratch) rest

/-- The bytes of distinct spans: those that must be read, and all. -/
def spanBytes (mapped : SourceSpan → Result Bool) (resident read : String)
    (seen : List SourceSpan) (readBytes residentBytes : Nat) :
    List SourceSpan → Result (Nat × Nat)
  | [] => .ok (readBytes, residentBytes)
  | span :: rest =>
    if span ∈ seen then spanBytes mapped resident read seen readBytes residentBytes rest
    else do
      let residentBytes ← okOr (checkedAdd residentBytes span.length) (.limit resident)
      if ← mapped span then
        spanBytes mapped resident read (span :: seen) readBytes residentBytes rest
      else do
        let readBytes ← okOr (checkedAdd readBytes span.length) (.limit read)
        spanBytes mapped resident read (span :: seen) readBytes residentBytes rest

/-- The span of a plain input of a graph. -/
def plainSpan (source : SourceTensor) : Result SourceSpan :=
  match source.storage with
  | .plain _ span => .ok span
  | .quantized _ => .error (.unsupported "operation graph input is not plain tensor storage")

/-- `Materializer::operation_source_bytes`. The source stops at the first input that is
not plain, after adding up those before it. -/
def operationSourceBytes (mapped : SourceSpan → Result Bool) (sources : List SourceTensor) :
    Result (Nat × Nat) := do
  let spans := (sources.map SourceTensor.storage).takeWhile fun storage => match storage with
    | .plain _ _ => true
    | .quantized _ => false
  let bytes ← spanBytes mapped "operation input resident bytes overflow u64"
    "operation source-read bytes overflow u64" [] 0 0 (spans.map Storage.span)
  let _ ← sources.mapM plainSpan
  .ok bytes

/-- `quantized_source_byte_totals`. -/
def quantizedSourceByteTotals (mapped : SourceSpan → Result Bool) (storage : QuantizedStorage) :
    Result (Nat × Nat) :=
  spanBytes mapped "quantized resident byte length overflows u64"
    "quantized source-read bytes overflow u64" [] 0 0
    (storage.payload :: storage.companions.entries.map fun e => e.2.span)

variable (a : Addressing) (m : Materializer)

namespace Materializer

def resourceWeights (binding : Binding) : Result ResourceWeights := do
  match binding.target.operationGraph with
  | some graph => do
    let (sourceBytes, sourceResidentBytes) ← operationSourceBytes m.mapped binding.sources
    match m.operationExecution with
    | .host => do
      let scratchBytes ← graph.estimateHostScratchBytes.mapError HostError.toError
      .ok ⟨sourceBytes, scratchBytes, binding.target.outputSize⟩
    | .delegate => .ok ⟨sourceBytes, 0, sourceResidentBytes⟩
  | none =>
    match binding.sources.head?.map SourceTensor.storage with
    | some (.plain _ span) => do
      let sourceBytes := if ← m.mapped span then 0 else span.length
      let scratchBytes ← peakTransformScratchBytes 0 0 binding.target.transforms
      .ok ⟨sourceBytes, scratchBytes,
        if binding.target.conversionRecipe.isSome then span.length else binding.target.outputSize⟩
    | some (.quantized storage) => do
      let (sourceBytes, sourceResidentBytes) ← quantizedSourceByteTotals m.mapped storage
      let scratchBytes ← peakTransformScratchBytes 0 0 binding.target.transforms
      .ok ⟨sourceBytes, scratchBytes, sourceResidentBytes⟩
    | none => .error (.integrity "binding has no source")

/-- The admission of a binding that was not in the cache. -/
def admitted (binding : Binding) : Action Unit := do
  let required ← pureAction (m.resourceWeights binding)
  pureAction (m.withResources required)

end Materializer

/-! ## The prepared cache -/

def cacheReadBlockBytes : Nat := 1024 * 1024

/-- The copy loop of `read_cache_entry`, for at most `fuel` blocks. A read may return
fewer bytes than it was asked for: that only adds turns of the loop. -/
def readBlocks (payload : List UInt8) (length : Nat) : Nat → List UInt8 → Action (List UInt8)
  | 0, bytes => pure bytes
  | fuel + 1, bytes =>
    if bytes.length < length then do
      checkCancelled
      attempt "read validated prepared-cache payload" (step .readOpen)
      let chunk := (payload.drop bytes.length).take
        (min (length - bytes.length) (min length cacheReadBlockBytes))
      if chunk.isEmpty then
        throw (.integrity "validated prepared-cache payload ended unexpectedly")
      else readBlocks payload length fuel (bytes ++ chunk)
    else pure bytes

def readCacheEntry (sha256 : List UInt8 → ContentDigest) (entry : CacheEntry)
    (validation : CacheValidation) : Action ByteView := do
  checkCancelled
  let bytes ← readBlocks entry.payload entry.info.payloadLen entry.info.payloadLen []
  checkCancelled
  attempt "inspect validated prepared-cache payload" (step .readOpen)
  if entry.payload.length ≠ entry.info.payloadLen then
    throw (.integrity "cached payload length changed while it was read")
  else if validation = .full ∧ sha256 bytes ≠ entry.info.payloadDigest then
    throw (.integrity "cached payload digest differs from its metadata envelope")
  else pure (.fromBoxed bytes)

def preparedDelivery (binding : Binding) (bytes : ByteView) (origin : PreparedOrigin) :
    WeightDelivery :=
  .prepared ⟨binding.sources.map SourceTensor.name, binding.target, bytes, origin,
    bytes.bytes.length⟩

namespace Materializer

/-- The address of a binding with the digest of its overlay. -/
def addressOf (binding : Binding) (overlayDigest : Option ContentDigest) :
    Action (Option PreparedCacheAddress) :=
  sampled (cacheAddressForBinding a ⟨m.plan, binding, overlayDigest⟩)

def tryCachedPrepared (binding : Binding) (address : Option PreparedCacheAddress) :
    Action (Option WeightDelivery) := do
  match m.cache, address with
  | some c, some address => do
    match ← lookup c .prepared address.key address.compatibility .trustedMetadata with
    | .miss _ => pure none
    | .hit entry =>
      if entry.info.payloadLen ≠ binding.target.outputSize then do
        let _ ← evict c .prepared address.key .corrupt
        pure none
      else
        match ← outcome (do
            pureAction (m.withResources ⟨0, 0, binding.target.outputSize⟩)
            readCacheEntry c.sha256 entry m.cacheValidation) with
        | .ok bytes => pure (some (preparedDelivery binding bytes .cache))
        | .error e =>
          if e.category = .integrity then do
            let _ ← evict c .prepared address.key .corrupt
            pure none
          else throw e
  | _, _ => pure none

/-- The publication of final host bytes, if there is a cache and an address. -/
def publish (address : Option PreparedCacheAddress) (bytes : ByteView) : Action Unit := do
  match m.cache, address with
  | some c, some address => do
    let _ ← publishBytes c .prepared address.key address.compatibility bytes.bytes
    pure ()
  | _, _ => pure ()

/-! ## Routes -/

/-- A route: the cache first, then a reservation for what follows a miss. -/
def routed (binding : Binding) (afterMiss : Option PreparedCacheAddress → Action WeightDelivery) :
    Action WeightDelivery := do
  let address ← m.addressOf a binding none
  match ← m.tryCachedPrepared binding address with
  | some delivery => pure delivery
  | none => do
    m.admitted binding
    afterMiss address

def readSource (span : SourceSpan) : Action ByteView := sampled (m.read span)

/-- `read_operation_inputs` from a source on: a span is read once. -/
def readInputs (views : List (SourceSpan × ByteView)) : List SourceTensor → Action (List ByteView)
  | [] => pure []
  | source :: rest => do
    checkCancelled
    let span ← pureAction (plainSpan source)
    match views.lookup span with
    | some bytes => do
      let inputs ← readInputs views rest
      pure (bytes :: inputs)
    | none => do
      let bytes ← m.readSource span
      let inputs ← readInputs ((span, bytes) :: views) rest
      pure (bytes :: inputs)

def readOperationInputs (binding : Binding) : Action (List ByteView) := do
  let inputs ← m.readInputs [] binding.sources
  checkCancelled
  pure inputs

/-- The host execution of a graph on its inputs, with the checks of its result. -/
def executeGraph (binding : Binding) (graph : OperationGraph) (inputs : List ByteView) :
    Action ByteView := do
  let execution ← sampled fun cancellation =>
    (graph.executeHost m.host inputs cancellation).mapError HostError.toError
  pureAction ((graph.checkScratchEstimate execution).mapError HostError.toError)
  if execution.output.bytes.length ≠ binding.target.outputSize then
    throw (.integrity "operation graph output differs from the planned byte length")
  else pure execution.output

def operationGraphAfterCacheMiss (binding : Binding) (graph : OperationGraph)
    (address : Option PreparedCacheAddress) : Action WeightDelivery := do
  let inputs ← m.readOperationInputs binding
  checkCancelled
  match m.operationExecution with
  | .delegate => do
    let (_, residentBytes) ← pureAction
      (operationSourceBytes (fun _ => .ok true) binding.sources)
    pure (.operation ⟨List.zipWith OperationInputBytes.mk binding.sources inputs,
      binding.target, graph, residentBytes⟩)
  | .host => do
    let bytes ← m.executeGraph binding graph inputs
    m.publish address bytes
    pure (preparedDelivery binding bytes .operationGraph)

def materializeOperationGraph (binding : Binding) (graph : OperationGraph) :
    Action WeightDelivery :=
  m.routed a binding (m.operationGraphAfterCacheMiss binding graph)

/-- `PreparationEngine::prepare_chain_with_cancellation`. -/
def prepareChain (preparation : PreparationEngine) (shape : List Nat)
    (cancellation : CancellationToken) : List PlannedTransform → ByteView → Result ByteView
  | [], current => do
    cancellation.check
    .ok current
  | planned :: rest, current => do
    cancellation.check
    let prepared ← preparation.prepareWithCancellation ⟨planned.transform, shape, current.bytes,
      planned.outputSize, planned.scratchBytes⟩ cancellation
    prepareChain preparation shape cancellation rest (prepared.view current)

/-- The host bytes of a plain tensor: its source, or what its transforms make of it. -/
def executeTransforms (binding : Binding) (source : ByteView) :
    Action (ByteView × PreparedOrigin) := do
  let (bytes, origin) ←
    if binding.target.transforms.isEmpty then pure (source, .source)
    else do
      let prepared ← sampled fun cancellation =>
        prepareChain m.host.preparation binding.target.shape cancellation
          binding.target.transforms source
      pure (prepared, .transform)
  if bytes.bytes.length ≠ binding.target.outputSize then
    throw (.integrity "materialized host bytes differ from the planned output size")
  else pure (bytes, origin)

def plainAfterCacheMiss (binding : Binding) (span : SourceSpan)
    (address : Option PreparedCacheAddress) : Action WeightDelivery := do
  let source ← m.readSource span
  checkCancelled
  let (bytes, origin) ← m.executeTransforms binding source
  m.publish address bytes
  pure (preparedDelivery binding bytes origin)

def materializePlain (binding : Binding) (span : SourceSpan) : Action WeightDelivery :=
  m.routed a binding (m.plainAfterCacheMiss binding span)

def conversionAfterCacheMiss (binding : Binding) (source : SourceTensor) (span : SourceSpan)
    (recipe : ConversionRecipe) (_ : Option PreparedCacheAddress) : Action WeightDelivery := do
  let bytes ← m.readSource span
  checkCancelled
  pure (.conversion ⟨source, binding.target, recipe, bytes, bytes.bytes.length⟩)

def materializeConversion (binding : Binding) (source : SourceTensor) (span : SourceSpan)
    (recipe : ConversionRecipe) : Action WeightDelivery :=
  m.routed a binding (m.conversionAfterCacheMiss binding source span recipe)

/-- The companions of a quantized tensor: a span is read once. -/
def readCompanions (views : List (SourceSpan × ByteView)) :
    List (StableName × CompanionTensor) → Action (List (StableName × ByteView))
  | [] => pure []
  | (role, companion) :: rest => do
    checkCancelled
    match views.lookup companion.span with
    | some bytes => do
      let companions ← readCompanions views rest
      pure ((role, bytes) :: companions)
    | none => do
      let bytes ← m.readSource companion.span
      let companions ← readCompanions ((companion.span, bytes) :: views) rest
      pure ((role, bytes) :: companions)

def quantizedAfterCacheMiss (binding : Binding) (source : SourceTensor)
    (storage : QuantizedStorage) (capability : RouteCapability)
    (_ : Option PreparedCacheAddress) : Action WeightDelivery := do
  let (_, residentBytes) ← pureAction (quantizedSourceByteTotals (fun _ => .ok false) storage)
  let payload ← m.readSource storage.payload
  let companions ← m.readCompanions [(storage.payload, payload)] storage.companions.entries
  checkCancelled
  pure (.quantized ⟨source, binding.target, storage, capability, payload, companions,
    residentBytes⟩)

def materializeQuantized (binding : Binding) (source : SourceTensor) (storage : QuantizedStorage) :
    Action WeightDelivery := do
  let capability ← pureAction (okOr binding.target.quantizedRoute
    (.unsupported "quantized binding has no selected route capability"))
  m.routed a binding (m.quantizedAfterCacheMiss binding source storage capability)

def materializeBaseBinding (binding : Binding) : Action WeightDelivery := do
  match binding.target.operationGraph with
  | some graph => m.materializeOperationGraph a binding graph
  | none =>
    match binding.sources.head? with
    | none => throw (.integrity "binding has no source")
    | some source =>
      match source.storage with
      | .plain _ span =>
        match binding.target.conversionRecipe with
        | some recipe => m.materializeConversion a binding source span recipe
        | none => m.materializePlain a binding span
      | .quantized storage => m.materializeQuantized a binding source storage

def materializeBinding (binding : Binding) : Action WeightDelivery := do
  checkCancelled
  match ← sampled (m.overlay binding) with
  | some (bindingIndex, targetDigest) => do
    let address ← m.addressOf a binding (some targetDigest)
    match ← m.tryCachedPrepared binding address with
    | some delivery => pure delivery
    | none => do
      let base ← m.materializeBaseBinding a binding
      pure (.overlay base bindingIndex targetDigest base.residentBytes)
  | none => m.materializeBaseBinding a binding

/-! ## Calls -/

def bindingNamed (name : TensorName) : Result Binding :=
  okOr (findBinding m.plan name) (.binding "target name is not present in the binding plan")

def materialize (name : TensorName) : Action WeightDelivery := do
  let binding ← pureAction (m.bindingNamed name)
  m.materializeBinding a binding

/-- The publication of bytes that a provider produced for a binding. -/
def publishPreparedBytes (name : TensorName) (bytes : List UInt8) : Action CachePublication := do
  checkCancelled
  let binding ← pureAction (m.bindingNamed name)
  if bytes.length ≠ binding.target.outputSize then
    throw (.integrity "provider-produced bytes differ from the planned output size")
  else
    match m.cache with
    | none => throw (.unsupported "materializer has no prepared cache")
    | some c => do
      checkCancelled
      let overlay ← sampled (m.overlay binding)
      match ← m.addressOf a binding (overlay.map Prod.snd) with
      | none => throw (.unsupported "binding has no final prepared-cache address")
      | some address => do
        checkCancelled
        publishBytes c .prepared address.key address.compatibility bytes

/-- Host execution without a cache. -/
def cold : Materializer := { m with cache := none, operationExecution := .host }

end Materializer

end ModelWeights.Prepared
