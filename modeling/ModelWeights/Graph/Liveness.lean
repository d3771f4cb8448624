import ModelWeights.Graph.Execute
import Mathlib.Logic.Function.Basic

/-! # Liveness accounting and host execution

`LivenessSchedule`, `execute_host` and `estimate_host_scratch_bytes`. A map is a
partial function from its keys. An integrity error that the accounting itself
can raise is a `LivenessFault` and an overflow of one of its counters a
`LivenessLimit`, so that they cannot be confused with an error of a kernel or
of a provider. The ordinals of an admitted graph fit `u32`, so `index_as_u32`
does not fail. `executeRetaining` is the same execution without a schedule: it
never drops a value. -/
namespace ModelWeights.Graph

/-! ## Errors of the accounting -/

inductive LivenessFault where
  | inputUnavailable
  | inputFactsUnavailable
  | outputCount
  | aliasMissingInput
  | duplicateValue
  | unknownAllocation
  | consumedWithoutUse
  | useUnderflow
  | valueNotLive
  | allocationNotLive
  | referenceUnderflow
  | liveByteUnderflow
  | runtimeInputUnavailable
  | unusedOutputUnavailable
  | outputNotLive
  | outputExceedsPeak
  deriving DecidableEq, Repr

def LivenessFault.message : LivenessFault → String
  | inputUnavailable => "live operation input is unavailable"
  | inputFactsUnavailable => "operation input facts are unavailable"
  | outputCount => "host operation returned an unexpected output count"
  | aliasMissingInput => "operation output aliases a missing input"
  | duplicateValue => "operation schedule produced a duplicate value"
  | unknownAllocation => "operation value references an unknown allocation"
  | consumedWithoutUse => "operation schedule consumed a value without a recorded use"
  | useUnderflow => "operation value use count underflowed"
  | valueNotLive => "operation schedule value is not live"
  | allocationNotLive => "operation schedule allocation is not live"
  | referenceUnderflow => "operation allocation reference count underflowed"
  | liveByteUnderflow => "operation live byte count underflowed"
  | runtimeInputUnavailable => "runtime operation input is unexpectedly unavailable"
  | unusedOutputUnavailable => "unused runtime operation output is unavailable"
  | outputNotLive => "operation graph final output is not live"
  | outputExceedsPeak => "operation output allocation exceeds peak live bytes"

inductive LivenessLimit where
  | useCount
  | outputUseCount
  | allocationId
  | liveBytes
  | references
  | liveScratch
  deriving DecidableEq, Repr

def LivenessLimit.message : LivenessLimit → String
  | useCount => "operation value use count overflows u64"
  | outputUseCount => "operation graph output use count overflows u64"
  | allocationId => "operation allocation identifier overflows u64"
  | liveBytes => "live operation allocation bytes overflow u64"
  | references => "operation allocation references overflow u64"
  | liveScratch => "operation live scratch bytes overflow u64"

inductive HostError where
  | fault (fault : LivenessFault)
  | limit (limit : LivenessLimit)
  | failed (error : Error)
  deriving DecidableEq, Repr

/-- The error the source returns. -/
def HostError.toError : HostError → Error
  | .fault f => .integrity f.message
  | .limit l => .limit l.message
  | .failed e => e

abbrev Exec := Except HostError

section Lift
variable {α : Type}

def orFault (o : Option α) (f : LivenessFault) : Exec α :=
  match o with
  | some a => .ok a
  | none => .error (.fault f)

def orLimit (o : Option α) (l : LivenessLimit) : Exec α :=
  match o with
  | some a => .ok a
  | none => .error (.limit l)

def lift (x : Result α) : Exec α :=
  match x with
  | .ok a => .ok a
  | .error e => .error (.failed e)

end Lift

/-! ## The schedule -/

structure LiveValue where
  allocation : Option Nat
  deriving DecidableEq, Repr

structure LiveAllocation where
  bytes : Nat
  references : Nat
  deriving DecidableEq, Repr

structure LivenessSchedule where
  remainingUses : ValueRef → Option Nat
  values : ValueRef → Option LiveValue
  allocations : Nat → Option LiveAllocation
  nextAllocation : Nat
  liveBytes : Nat
  peakBytes : Nat

def incrementCount (limit : LivenessLimit) (counts : ValueRef → Option Nat) (value : ValueRef) :
    Exec (ValueRef → Option Nat) := do
  let count ← orLimit (checkedAdd ((counts value).getD 0) 1) limit
  .ok (Function.update counts value (some count))

namespace LivenessSchedule

def new (graph : OperationGraph) : Exec LivenessSchedule := do
  let uses ← (graph.nodes.flatMap OperationNode.inputs).foldlM (incrementCount .useCount)
    (fun _ => none)
  let uses ← incrementCount .outputUseCount uses graph.output
  .ok { remainingUses := uses
        values := fun
          | .input i => if i < graph.inputs.length then some ⟨none⟩ else none
          | .nodeOutput _ _ => none
        allocations := fun _ => none
        nextAllocation := 0
        liveBytes := 0
        peakBytes := 0 }

def createAllocation (s : LivenessSchedule) (bytes : Nat) : Exec (Nat × LivenessSchedule) := do
  let next ← orLimit (checkedAdd s.nextAllocation 1) .allocationId
  let live ← orLimit (checkedAdd s.liveBytes bytes) .liveBytes
  .ok (s.nextAllocation, { s with
    nextAllocation := next
    liveBytes := live
    peakBytes := max s.peakBytes live
    allocations := Function.update s.allocations s.nextAllocation (some ⟨bytes, 0⟩) })

/-- The reference a new value takes on its allocation. -/
def retain (s : LivenessSchedule) (allocation : Option Nat) :
    Exec (Nat → Option LiveAllocation) :=
  match allocation with
  | none => .ok s.allocations
  | some a => do
    let state ← orFault (s.allocations a) .unknownAllocation
    let references ← orLimit (checkedAdd state.references 1) .references
    .ok (Function.update s.allocations a (some { state with references }))

def insertValue (s : LivenessSchedule) (value : ValueRef) (allocation : Option Nat) :
    Exec LivenessSchedule :=
  if (s.values value).isSome then .error (.fault .duplicateValue)
  else do
    let allocations ← s.retain allocation
    .ok { s with allocations, values := Function.update s.values value (some ⟨allocation⟩) }

def observeTransient (s : LivenessSchedule) (scratchBytes : Nat) : Exec LivenessSchedule := do
  let withScratch ← orLimit (checkedAdd s.liveBytes scratchBytes) .liveScratch
  .ok { s with peakBytes := max s.peakBytes withScratch }

/-- The reference a removed value gives back. -/
def release (s : LivenessSchedule) (a : Nat) : Exec LivenessSchedule := do
  let state ← orFault (s.allocations a) .allocationNotLive
  let references ← orFault (checkedSub state.references 1) .referenceUnderflow
  if references = 0 then do
    let live ← orFault (checkedSub s.liveBytes state.bytes) .liveByteUnderflow
    .ok { s with allocations := Function.update s.allocations a none, liveBytes := live }
  else .ok { s with
    allocations := Function.update s.allocations a (some { state with references }) }

def removeValue (s : LivenessSchedule) (value : ValueRef) : Exec LivenessSchedule := do
  let live ← orFault (s.values value) .valueNotLive
  let s := { s with values := Function.update s.values value none }
  match live.allocation with
  | none => .ok s
  | some a => s.release a

/-- Returns whether this was the last use. -/
def consumeValue (s : LivenessSchedule) (value : ValueRef) : Exec (Bool × LivenessSchedule) := do
  let uses ← orFault (s.remainingUses value) .consumedWithoutUse
  let uses ← orFault (checkedSub uses 1) .useUnderflow
  let s := { s with remainingUses := Function.update s.remainingUses value (some uses) }
  if uses = 0 then do
    let s ← s.removeValue value
    .ok (true, s)
  else .ok (false, s)

def consumeInputs (s : LivenessSchedule) (inputs : List ValueRef) : Exec LivenessSchedule :=
  inputs.foldlM (fun s input => do
    let (_, s) ← s.consumeValue input
    .ok s) s

def isUnused (s : LivenessSchedule) (value : ValueRef) : Bool :=
  (s.remainingUses value).getD 0 == 0

def removeUnused (s : LivenessSchedule) (values : List ValueRef) : Exec LivenessSchedule :=
  values.foldlM (fun s value => if s.isUnused value then s.removeValue value else .ok s) s

def outputBytes (s : LivenessSchedule) (output : ValueRef) : Nat :=
  (((s.values output).bind LiveValue.allocation).bind s.allocations).elim 0 LiveAllocation.bytes

def scratchExcludingOutput (s : LivenessSchedule) (output : ValueRef) : Exec Nat :=
  orFault (checkedSub s.peakBytes (s.outputBytes output)) .outputExceedsPeak

end LivenessSchedule

/-! ## Running one node -/

def checkImplementation (node : OperationNode) : Result Unit := do
  let expected ← node.operation.builtinImplementation
  if node.implementation ≠ expected then
    .error (.unsupported s!"host executor requires {expected.provider.text} / {expected.operation.text} version {expected.version}, but the node pins {node.implementation.provider.text} / {node.implementation.operation.text} version {node.implementation.version}")
  else .ok ()

def validateOutputs : List ProducedValue → List TensorFacts → Result Unit
  | produced :: rest, facts :: more => do
    validateViewLen produced.bytes.bytes facts.byteLen "operation output"
    validateOutputs rest more
  | _, _ => .ok ()

/-- The part of the loop of `execute_host_inner` that computes bytes; `view`
looks a value up. -/
def runNode (graph : OperationGraph) (host : Host) (cancellation : CancellationToken)
    (view : ValueRef → Option ByteView) (node : OperationNode) : Exec NodeExecution := do
  lift cancellation.check
  lift (checkImplementation node)
  let inputs ← node.inputs.mapM fun value => orFault (view value) .inputUnavailable
  let inputFacts ← node.inputs.mapM fun value => orFault (graph.facts value) .inputFactsUnavailable
  let execution ← lift (executeNode host node inputs inputFacts cancellation)
  if execution.outputs.length ≠ node.outputs.length then .error (.fault .outputCount)
  else do
    lift (validateOutputs execution.outputs node.outputs)
    .ok execution

/-! ## Execution with the schedule -/

structure RuntimeValue where
  bytes : ByteView
  allocation : Option Nat
  deriving DecidableEq, Repr

structure HostState where
  schedule : LivenessSchedule
  runtime : ValueRef → Option RuntimeValue

def HostState.view (st : HostState) (value : ValueRef) : Option ByteView :=
  (st.runtime value).map RuntimeValue.bytes

/-- The allocation of one output of a node. -/
def outputAllocation (st : HostState) (inputs : List ValueRef) (produced : ProducedValue)
    (facts : TensorFacts) : Exec (Option Nat × LivenessSchedule) :=
  match produced.origin with
  | .alias inputIndex => do
    let input ← orFault ((inputs[inputIndex]?).bind st.runtime) .aliasMissingInput
    .ok (input.allocation, st.schedule)
  | .fresh => do
    let (a, schedule) ← st.schedule.createAllocation facts.byteLen
    .ok (some a, schedule)

def insertOutput (nodeIndex : Nat) (inputs : List ValueRef) (st : HostState) (outputIndex : Nat)
    (produced : ProducedValue) (facts : TensorFacts) : Exec HostState := do
  let (allocation, schedule) ← outputAllocation st inputs produced facts
  let value := ValueRef.nodeOutput nodeIndex outputIndex
  let schedule ← schedule.insertValue value allocation
  .ok ⟨schedule, Function.update st.runtime value (some ⟨produced.bytes, allocation⟩)⟩

def insertOutputs (nodeIndex : Nat) (inputs : List ValueRef) :
    HostState → Nat → List (ProducedValue × TensorFacts) → Exec HostState
  | st, _, [] => .ok st
  | st, outputIndex, (produced, facts) :: rest => do
    let st ← insertOutput nodeIndex inputs st outputIndex produced facts
    insertOutputs nodeIndex inputs st (outputIndex + 1) rest

def dropRuntime (st : HostState) (value : ValueRef) (fault : LivenessFault) : Exec HostState := do
  let _ ← orFault (st.runtime value) fault
  .ok { st with runtime := Function.update st.runtime value none }

def consumeRuntimeInput (st : HostState) (input : ValueRef) : Exec HostState := do
  let (last, schedule) ← st.schedule.consumeValue input
  if last then dropRuntime ⟨schedule, st.runtime⟩ input .runtimeInputUnavailable
  else .ok ⟨schedule, st.runtime⟩

def consumeRuntimeInputs (st : HostState) (inputs : List ValueRef) : Exec HostState :=
  inputs.foldlM consumeRuntimeInput st

def removeUnusedOutput (st : HostState) (value : ValueRef) : Exec HostState :=
  if st.schedule.isUnused value then do
    let schedule ← st.schedule.removeValue value
    dropRuntime ⟨schedule, st.runtime⟩ value .unusedOutputUnavailable
  else .ok st

def removeUnusedRuntime (st : HostState) (values : List ValueRef) : Exec HostState :=
  values.foldlM removeUnusedOutput st

/-- The values a node produces. -/
def nodeValues (nodeIndex : Nat) (node : OperationNode) : List ValueRef :=
  (List.range node.outputs.length).map (.nodeOutput nodeIndex)

def executeHostNode (graph : OperationGraph) (host : Host) (cancellation : CancellationToken)
    (nodeIndex : Nat) (node : OperationNode) (st : HostState) : Exec HostState := do
  let execution ← runNode graph host cancellation st.view node
  let st ← insertOutputs nodeIndex node.inputs st 0 (execution.outputs.zip node.outputs)
  let schedule ← st.schedule.observeTransient execution.transientScratch
  let st ← consumeRuntimeInputs ⟨schedule, st.runtime⟩ node.inputs
  removeUnusedRuntime st (nodeValues nodeIndex node)

def executeHostNodes (graph : OperationGraph) (host : Host) (cancellation : CancellationToken) :
    Nat → List OperationNode → HostState → Exec HostState
  | _, [], st => .ok st
  | nodeIndex, node :: rest, st => do
    let st ← executeHostNode graph host cancellation nodeIndex node st
    executeHostNodes graph host cancellation (nodeIndex + 1) rest st

def checkInputCount (graph : OperationGraph) (inputs : List ByteView) : Result Unit :=
  if inputs.length ≠ graph.inputs.length then
    .error (.binding s!"operation graph requires {graph.inputs.length} ordered inputs, but received {inputs.length}")
  else .ok ()

def validateInputs : List OperationInput → List ByteView → Result Unit
  | descriptor :: rest, bytes :: more => do
    validateViewLen bytes.bytes descriptor.facts.byteLen "operation input"
    validateInputs rest more
  | _, _ => .ok ()

/-- The external inputs, as values. -/
def inputViews (inputs : List ByteView) : ValueRef → Option ByteView
  | .input i => inputs[i]?
  | .nodeOutput _ _ => none

structure HostExecution where
  output : ByteView
  peakScratchBytes : Nat
  deriving DecidableEq, Repr

/-- The state in which `execute_host_inner` enters its loop. -/
def initialHostState (graph : OperationGraph) (inputs : List ByteView)
    (cancellation : CancellationToken) : Exec HostState := do
  lift cancellation.check
  lift (checkInputCount graph inputs)
  let schedule ← LivenessSchedule.new graph
  lift (validateInputs graph.inputs inputs)
  .ok ⟨schedule, fun value => (inputViews inputs value).map fun view => ⟨view, none⟩⟩

def OperationGraph.executeHost (graph : OperationGraph) (host : Host) (inputs : List ByteView)
    (cancellation : CancellationToken) : Exec HostExecution := do
  let st ← initialHostState graph inputs cancellation
  let st ← executeHostNodes graph host cancellation 0 graph.nodes st
  lift cancellation.check
  let output ← orFault (st.runtime graph.output) .outputNotLive
  let peakScratchBytes ← st.schedule.scratchExcludingOutput graph.output
  .ok ⟨output.bytes, peakScratchBytes⟩

/-! ## The estimate -/

/-- The allocation the estimate gives an output: it only looks at the graph. -/
def estimateAllocation (graph : OperationGraph) (node : OperationNode) (s : LivenessSchedule)
    (outputIndex : Nat) (facts : TensorFacts) : Exec (Option Nat × LivenessSchedule) :=
  match graph.nodeOutputAliasInput node outputIndex with
  | some inputIndex => do
    let input ← lift (okOr node.inputs[inputIndex]?
      (.integrity "aliased operation input is unavailable"))
    let live ← lift (okOr (s.values input) (.integrity "aliased operation input is not live"))
    .ok (live.allocation, s)
  | none => do
    let (a, s) ← s.createAllocation facts.byteLen
    .ok (some a, s)

def estimateOutputs (graph : OperationGraph) (nodeIndex : Nat) (node : OperationNode) :
    LivenessSchedule → Nat → List TensorFacts → Exec LivenessSchedule
  | s, _, [] => .ok s
  | s, outputIndex, facts :: rest => do
    let (allocation, s) ← estimateAllocation graph node s outputIndex facts
    let s ← s.insertValue (.nodeOutput nodeIndex outputIndex) allocation
    estimateOutputs graph nodeIndex node s (outputIndex + 1) rest

def Operation.plannedScratch : Operation → Nat
  | .prepare transform => transform.scratchBytes
  | _ => 0

def estimateNode (graph : OperationGraph) (nodeIndex : Nat) (node : OperationNode)
    (s : LivenessSchedule) : Exec LivenessSchedule := do
  let s ← estimateOutputs graph nodeIndex node s 0 node.outputs
  let s ← s.observeTransient node.operation.plannedScratch
  let s ← s.consumeInputs node.inputs
  s.removeUnused (nodeValues nodeIndex node)

def estimateNodes (graph : OperationGraph) :
    Nat → List OperationNode → LivenessSchedule → Exec LivenessSchedule
  | _, [], s => .ok s
  | nodeIndex, node :: rest, s => do
    let s ← estimateNode graph nodeIndex node s
    estimateNodes graph (nodeIndex + 1) rest s

def OperationGraph.estimateHostScratchBytes (graph : OperationGraph) : Exec Nat := do
  let s ← LivenessSchedule.new graph
  let s ← estimateNodes graph 0 graph.nodes s
  s.scratchExcludingOutput graph.output

/-! ## Execution without a schedule -/

def retainOutputs (nodeIndex : Nat) (view : ValueRef → Option ByteView) :
    Nat → List ProducedValue → ValueRef → Option ByteView
  | _, [] => view
  | outputIndex, produced :: rest =>
    retainOutputs nodeIndex
      (Function.update view (.nodeOutput nodeIndex outputIndex) (some produced.bytes))
      (outputIndex + 1) rest

def retainNodes (graph : OperationGraph) (host : Host) (cancellation : CancellationToken) :
    Nat → List OperationNode → (ValueRef → Option ByteView) →
      Exec (ValueRef → Option ByteView)
  | _, [], view => .ok view
  | nodeIndex, node :: rest, view => do
    let execution ← runNode graph host cancellation view node
    retainNodes graph host cancellation (nodeIndex + 1) rest
      (retainOutputs nodeIndex view 0 execution.outputs)

def OperationGraph.executeRetaining (graph : OperationGraph) (host : Host)
    (inputs : List ByteView) (cancellation : CancellationToken) : Exec ByteView := do
  lift cancellation.check
  lift (checkInputCount graph inputs)
  lift (validateInputs graph.inputs inputs)
  let view ← retainNodes graph host cancellation 0 graph.nodes (inputViews inputs)
  lift cancellation.check
  orFault (view graph.output) .outputNotLive

end ModelWeights.Graph
