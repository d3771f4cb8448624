import ModelWeights.Prepared.Callback
import ModelWeights.Prepared.Checkpoint
import ModelWeights.Prepared.History

/-! # Deliveries fit their reservations

The requirement of a binding is computed ahead, by separate functions for every route.
Every delivery has at most the prepared bytes of the requirement it was made under, and
these are recorded as reserved when its worker looks. -/
namespace ModelWeights.Prepared
open ModelWeights.Graph Plan Cache Pipeline Program

/-! ## Bytes of spans -/

/-- The distinct bytes do not depend on what is mapped. -/
theorem spanBytes_resident {mapped mapped' : SourceSpan → Result Bool}
    {resident read resident' read' : String} {spans : List SourceSpan} :
    ∀ {seen : List SourceSpan} {reads reads' total : Nat} {bytes bytes' : Nat × Nat},
    spanBytes mapped resident read seen reads total spans = .ok bytes →
    spanBytes mapped' resident' read' seen reads' total spans = .ok bytes' →
    bytes.2 = bytes'.2 := by
  induction spans with
  | nil =>
    intro seen reads reads' total bytes bytes' h h'
    rw [← Except.ok.inj h, ← Except.ok.inj h']
  | cons span rest ih =>
    intro seen reads reads' total bytes bytes' h h'
    unfold spanBytes at h h'
    by_cases hseen : span ∈ seen
    · rw [if_pos hseen] at h h'
      exact ih h h'
    · rw [if_neg hseen] at h h'
      obtain ⟨total₁, htotal, h⟩ := bind_ok h
      obtain ⟨total₂, htotal', h'⟩ := bind_ok h'
      obtain rfl : total₁ = total₂ :=
        Option.some.inj ((okOr_eq_ok.mp htotal).symm.trans (okOr_eq_ok.mp htotal'))
      obtain ⟨isMapped, _, h⟩ := bind_ok h
      obtain ⟨isMapped', _, h'⟩ := bind_ok h'
      have hrest : ∃ reads, spanBytes mapped resident read (span :: seen) reads total₁ rest =
          .ok bytes := by
        cases isMapped with
        | true => exact ⟨_, h⟩
        | false =>
          obtain ⟨more, _, h⟩ := bind_ok h
          exact ⟨more, h⟩
      have hrest' : ∃ reads, spanBytes mapped' resident' read' (span :: seen) reads total₁ rest =
          .ok bytes' := by
        cases isMapped' with
        | true => exact ⟨_, h'⟩
        | false =>
          obtain ⟨more, _, h'⟩ := bind_ok h'
          exact ⟨more, h'⟩
      obtain ⟨_, h⟩ := hrest
      obtain ⟨_, h'⟩ := hrest'
      exact ih h h'

/-! ## Every route -/

section Routes
variable {a : Addressing} {m : Materializer} {binding : Binding} {required : ResourceWeights}
  {address : Option PreparedCacheAddress} {delivery : WeightDelivery}

theorem executeGraph_length {graph : OperationGraph} {inputs : List ByteView} {view : ByteView}
    (h : Produces (m.executeGraph binding graph inputs) view) :
    view.bytes.length = binding.target.outputSize := by
  obtain ⟨execution, _, h⟩ := produces_bind.mp h
  obtain ⟨_, _, h⟩ := produces_bind.mp h
  obtain ⟨hlength, rfl⟩ := produces_unless h
  exact not_not.mp hlength

theorem executeTransforms_length {source : ByteView} {prepared : ByteView × PreparedOrigin}
    (h : Produces (m.executeTransforms binding source) prepared) :
    prepared.1.bytes.length = binding.target.outputSize := by
  unfold Materializer.executeTransforms at h
  split at h
  · obtain ⟨_, _, h⟩ := produces_bind.mp h
    obtain ⟨hlength, rfl⟩ := produces_unless h
    exact not_not.mp hlength
  · obtain ⟨_, _, h⟩ := produces_bind.mp h
    obtain ⟨_, _, h⟩ := produces_bind.mp h
    obtain ⟨hlength, rfl⟩ := produces_unless h
    exact not_not.mp hlength

theorem operationGraphAfterCacheMiss_fits {graph : OperationGraph}
    (hgraph : binding.target.operationGraph = some graph)
    (hrequired : m.resourceWeights binding = .ok required)
    (h : Produces (m.operationGraphAfterCacheMiss binding graph address) delivery) :
    delivery.residentBytes ≤ required.preparedBytes := by
  unfold Materializer.resourceWeights at hrequired
  rw [hgraph] at hrequired
  obtain ⟨sourceBytes, hsource, hrequired⟩ := bind_ok hrequired
  obtain ⟨inputs, _, h⟩ := produces_bind.mp h
  obtain ⟨_, _, h⟩ := produces_bind.mp h
  cases hexecution : m.operationExecution with
  | host =>
    simp only [hexecution] at h hrequired
    obtain ⟨scratch, _, hrequired⟩ := bind_ok hrequired
    obtain rfl := Except.ok.inj hrequired
    obtain ⟨bytes, hbytes, h⟩ := produces_bind.mp h
    obtain ⟨_, _, h⟩ := produces_bind.mp h
    obtain rfl := produces_pure.mp h
    exact Nat.le_of_eq (executeGraph_length hbytes)
  | delegate =>
    simp only [hexecution] at h hrequired
    obtain rfl := Except.ok.inj hrequired
    obtain ⟨resident, hresident, h⟩ := produces_bind.mp h
    obtain rfl := produces_pure.mp h
    have hresident := produces_pureAction.mp hresident
    unfold operationSourceBytes at hsource hresident
    obtain ⟨bytes, hbytes, hsource⟩ := bind_ok hsource
    obtain ⟨bytes', hbytes', hresident⟩ := bind_ok hresident
    obtain ⟨_, _, hsource⟩ := bind_ok hsource
    obtain ⟨_, _, hresident⟩ := bind_ok hresident
    obtain rfl := Except.ok.inj hsource
    obtain rfl := Except.ok.inj hresident
    exact Nat.le_of_eq (spanBytes_resident hbytes' hbytes)

section Plain
variable {dtype : DType} {span : SourceSpan} {source : SourceTensor}

/-- The requirement of a plain tensor. -/
theorem resourceWeights_plain (hgraph : binding.target.operationGraph = none)
    (hsource : binding.sources.head? = some source) (hplain : source.storage = .plain dtype span)
    (hrequired : m.resourceWeights binding = .ok required) : required.preparedBytes =
      if binding.target.conversionRecipe.isSome then span.length else binding.target.outputSize := by
  unfold Materializer.resourceWeights at hrequired
  rw [hgraph, hsource, Option.map_some, hplain] at hrequired
  obtain ⟨_, _, hrequired⟩ := bind_ok hrequired
  obtain ⟨_, _, hrequired⟩ := bind_ok hrequired
  obtain rfl := Except.ok.inj hrequired
  rfl

theorem plainAfterCacheMiss_fits (hgraph : binding.target.operationGraph = none)
    (hsource : binding.sources.head? = some source) (hplain : source.storage = .plain dtype span)
    (hrecipe : binding.target.conversionRecipe = none)
    (hrequired : m.resourceWeights binding = .ok required)
    (h : Produces (m.plainAfterCacheMiss binding span address) delivery) :
    delivery.residentBytes ≤ required.preparedBytes := by
  rw [resourceWeights_plain hgraph hsource hplain hrequired, hrecipe]
  obtain ⟨_, _, h⟩ := produces_bind.mp h
  obtain ⟨_, _, h⟩ := produces_bind.mp h
  obtain ⟨prepared, hprepared, h⟩ := produces_bind.mp h
  obtain ⟨_, _, h⟩ := produces_bind.mp h
  obtain rfl := produces_pure.mp h
  exact Nat.le_of_eq (executeTransforms_length hprepared)

theorem conversionAfterCacheMiss_fits {checkpoint : Checkpoint} (hread : m.read = checkpoint.readSpan)
    (hgraph : binding.target.operationGraph = none) (hsource : binding.sources.head? = some source)
    (hplain : source.storage = .plain dtype span) {recipe : ConversionRecipe}
    (hrecipe : binding.target.conversionRecipe = some recipe)
    (hrequired : m.resourceWeights binding = .ok required)
    (h : Produces (m.conversionAfterCacheMiss binding source span recipe address) delivery) :
    delivery.residentBytes ≤ required.preparedBytes := by
  rw [resourceWeights_plain hgraph hsource hplain hrequired, hrecipe]
  obtain ⟨view, hview, h⟩ := produces_bind.mp h
  obtain ⟨_, _, h⟩ := produces_bind.mp h
  obtain rfl := produces_pure.mp h
  obtain ⟨cancellation, hview⟩ := produces_sampled hview
  rw [hread] at hview
  exact Nat.le_of_eq (Checkpoint.length_readSpan hview)

theorem quantizedAfterCacheMiss_fits {storage : QuantizedStorage} {capability : RouteCapability}
    (hgraph : binding.target.operationGraph = none) (hsource : binding.sources.head? = some source)
    (hquantized : source.storage = .quantized storage)
    (hrequired : m.resourceWeights binding = .ok required)
    (h : Produces (m.quantizedAfterCacheMiss binding source storage capability address) delivery) :
    delivery.residentBytes ≤ required.preparedBytes := by
  unfold Materializer.resourceWeights at hrequired
  rw [hgraph, hsource, Option.map_some, hquantized] at hrequired
  obtain ⟨totals, htotals, hrequired⟩ := bind_ok hrequired
  obtain ⟨_, _, hrequired⟩ := bind_ok hrequired
  obtain rfl := Except.ok.inj hrequired
  obtain ⟨resident, hresident, h⟩ := produces_bind.mp h
  obtain ⟨_, _, h⟩ := produces_bind.mp h
  obtain ⟨_, _, h⟩ := produces_bind.mp h
  obtain ⟨_, _, h⟩ := produces_bind.mp h
  obtain rfl := produces_pure.mp h
  exact Nat.le_of_eq (spanBytes_resident (produces_pureAction.mp hresident) htotals)

end Plain

end Routes

/-! ## The callback -/

/-- A delivery is counted with its resident bytes, and these are reserved. -/
def Fits : Ending WeightDelivery := fun result reserved => ∀ prepared, result = .ok prepared →
  prepared.bytes = prepared.value.residentBytes ∧ prepared.value.residentBytes ≤ reserved

theorem fits_error {e : Error} {reserved : Nat} : Fits (.error e) reserved := nofun

section Callback
variable {a : Addressing} {m : Materializer} {binding : Binding} {o : Outcomes} {place : Nat}
  {address : Option PreparedCacheAddress}

theorem fits_item {delivery : WeightDelivery} {reserved : Nat}
    (h : delivery.residentBytes ≤ reserved) : Fits (.ok (Materializer.item delivery)) reserved := by
  intro prepared hprepared
  obtain rfl := Except.ok.inj hprepared
  exact ⟨rfl, h⟩

/-- The end of a callback. -/
theorem endsWith_delivered {result : Result (PreparedItem WeightDelivery)} {reserved : Nat}
    (h : Fits result reserved) : (Preparation.done result).EndsWith Fits reserved :=
  Preparation.endsWith_done.mpr ⟨h, fits_error⟩

/-- A request whose operation returns what was requested. -/
theorem endsWith_request {required : ResourceWeights} {result : Result (PreparedItem WeightDelivery)}
    {next : Result (PreparedItem WeightDelivery) → Preparation WeightDelivery} {reserved : Nat}
    (hok : ∀ prepared r, result = .ok prepared → required.preparedBytes ≤ r →
      (next (.ok prepared)).EndsWith Fits r)
    (herror : ∀ e r, (next (.error e)).EndsWith Fits r) :
    (Preparation.withResources required (.done result) next).EndsWith Fits reserved := by
  refine ⟨fits_error, fun e => herror e _, ⟨?_, ?_⟩, herror _ _, herror _ _⟩
  · cases result with
    | ok prepared => exact hok prepared _ rfl (Nat.le_max_right ..)
    | error e => exact herror e _
  · cases result with
    | ok prepared => exact hok prepared _ rfl (Nat.le_max_right ..)
    | error e => exact herror e _

theorem tryCachedScript_endsWith
    {next : Result (Option WeightDelivery) → Preparation WeightDelivery}
    (hok : ∀ delivery r, delivery.residentBytes ≤ r → (next (.ok (some delivery))).EndsWith Fits r)
    (hnone : ∀ r, (next (.ok none)).EndsWith Fits r)
    (herror : ∀ e r, (next (.error e)).EndsWith Fits r) (reserved : Nat) :
    (m.tryCachedScript o place binding address next).EndsWith Fits reserved := by
  unfold Materializer.tryCachedScript
  cases m.cache with
  | none => exact hnone _
  | some c =>
    cases address with
    | none => exact hnone _
    | some address =>
      dsimp only
      have hdiscard : ∀ r, (Materializer.discardScript o place c address next).EndsWith Fits r := by
        intro r
        unfold Materializer.discardScript
        cases o.outcome (place + 2) (evict c .prepared address.key .corrupt) with
        | ok record => exact hnone _
        | error e => exact herror e _
      cases o.outcome place (lookup c .prepared address.key address.compatibility
        .trustedMetadata) with
      | error e => exact herror e _
      | ok found =>
        cases found with
        | miss reason => exact hnone _
        | hit entry =>
          dsimp only
          by_cases hlength : entry.info.payloadLen ≠ binding.target.outputSize
          · rw [if_pos hlength]
            exact hdiscard _
          · rw [if_neg hlength]
            refine endsWith_request (fun prepared r hprepared hle => ?_) fun e r => ?_
            · cases hread : o.outcome (place + 1) (readCacheEntry c.sha256 entry m.cacheValidation) with
              | error e =>
                rw [hread] at hprepared
                cases hprepared
              | ok view =>
                rw [hread] at hprepared
                obtain rfl := Except.ok.inj hprepared
                obtain ⟨hbytes, hpayload⟩ := readCacheEntry_bytes (o.returns hread)
                refine hok _ _ ?_
                show view.bytes.length ≤ r
                rw [hbytes, hpayload, not_not.mp hlength]
                exact hle
            · dsimp only
              by_cases hcategory : e.category = .integrity
              · rw [if_pos hcategory]
                exact hdiscard _
              · rw [if_neg hcategory]
                exact herror e _

theorem routedScript_endsWith {afterMiss : Option PreparedCacheAddress → Action WeightDelivery}
    {next : Result WeightDelivery → Preparation WeightDelivery}
    (hfits : ∀ required address delivery, m.resourceWeights binding = .ok required →
      Produces (afterMiss address) delivery → delivery.residentBytes ≤ required.preparedBytes)
    (hok : ∀ delivery r, delivery.residentBytes ≤ r → (next (.ok delivery)).EndsWith Fits r)
    (herror : ∀ e r, (next (.error e)).EndsWith Fits r) (reserved : Nat) :
    (m.routedScript a o place binding afterMiss next).EndsWith Fits reserved := by
  unfold Materializer.routedScript
  cases o.outcome place (m.addressOf a binding none) with
  | error e => exact herror e _
  | ok address =>
    refine tryCachedScript_endsWith hok (fun r => ?_) herror _
    dsimp only
    cases hrequired : m.resourceWeights binding with
    | error e => exact herror e _
    | ok required =>
      refine endsWith_request (fun prepared r hprepared hle => ?_) fun e r => herror e r
      cases hdelivered : o.outcome (place + 4) (afterMiss address) with
      | error e =>
        rw [hdelivered] at hprepared
        cases hprepared
      | ok delivery =>
        rw [hdelivered] at hprepared
        obtain rfl := Except.ok.inj hprepared
        exact hok delivery r
          ((hfits required address delivery hrequired (o.returns hdelivered)).trans hle)

theorem baseScript_endsWith {checkpoint : Checkpoint} (hread : m.read = checkpoint.readSpan)
    {next : Result WeightDelivery → Preparation WeightDelivery}
    (hok : ∀ delivery r, delivery.residentBytes ≤ r → (next (.ok delivery)).EndsWith Fits r)
    (herror : ∀ e r, (next (.error e)).EndsWith Fits r) (reserved : Nat) :
    (m.baseScript a o place binding next).EndsWith Fits reserved := by
  unfold Materializer.baseScript
  cases hgraph : binding.target.operationGraph with
  | some graph =>
    exact routedScript_endsWith (fun _ _ _ hrequired h =>
      operationGraphAfterCacheMiss_fits hgraph hrequired h) hok herror _
  | none =>
    dsimp only
    cases hsource : binding.sources.head? with
    | none => exact herror _ _
    | some source =>
      dsimp only
      cases hstorage : source.storage with
      | plain dtype span =>
        dsimp only
        cases hrecipe : binding.target.conversionRecipe with
        | some recipe =>
          exact routedScript_endsWith (fun _ _ _ hrequired h =>
            conversionAfterCacheMiss_fits hread hgraph hsource hstorage hrecipe hrequired h)
            hok herror _
        | none =>
          exact routedScript_endsWith (fun _ _ _ hrequired h =>
            plainAfterCacheMiss_fits hgraph hsource hstorage hrecipe hrequired h) hok herror _
      | quantized storage =>
        dsimp only
        cases binding.target.quantizedRoute with
        | none => exact herror _ _
        | some capability =>
          exact routedScript_endsWith (fun _ _ _ hrequired h =>
            quantizedAfterCacheMiss_fits hgraph hsource hstorage hrequired h) hok herror _

/-- Whatever its requests are answered, a callback that delivers has reserved what it
delivers. -/
theorem callback_endsWith {checkpoint : Checkpoint} (hread : m.read = checkpoint.readSpan)
    (reserved : Nat) : (m.callback a o binding).EndsWith Fits reserved := by
  have herror : ∀ e r, (Preparation.done (.error e)).EndsWith Fits r :=
    fun e r => endsWith_delivered fits_error
  unfold Materializer.callback
  cases o.outcome 0 (do checkCancelled; sampled (m.overlay binding)) with
  | error e => exact herror e _
  | ok overlay =>
    cases overlay with
    | none =>
      exact baseScript_endsWith hread (fun _ _ hle => endsWith_delivered (fits_item hle)) herror _
    | some found =>
      obtain ⟨index, digest⟩ := found
      dsimp only
      cases o.outcome 1 (m.addressOf a binding (some digest)) with
      | error e => exact herror e _
      | ok address =>
        refine tryCachedScript_endsWith (fun _ _ hle => endsWith_delivered (fits_item hle))
          (fun r => ?_) herror _
        refine baseScript_endsWith hread (fun base r hle => endsWith_delivered ?_) herror _
        exact fits_item (show (WeightDelivery.overlay base index digest base.residentBytes).residentBytes
          ≤ r from hle)

end Callback

/-! ## `Materializer::execute` -/

namespace Materializer
variable (a : Addressing) (m : Materializer)

/-- `prepared_cache_address_with_cancellation`. -/
def preparedCacheAddress (name : TensorName) (cancellation : CancellationToken) :
    Result (Option PreparedCacheAddress) := do
  cancellation.check
  let binding ← m.bindingNamed name
  let overlay ← m.overlay binding cancellation
  let address ← cacheAddressForBinding a ⟨m.plan, binding, overlay.map Prod.snd⟩ cancellation
  cancellation.check
  .ok address

/-- What a binding reserves when it is dispatched: a candidate of the cache reserves what
it delivers, as far as the limit allows. -/
def scheduled (limits : ExecutionLimits) (binding : Binding) (cancellation : CancellationToken) :
    Result ResourceWeights := do
  let resources ← m.resourceWeights binding
  if m.cache.isSome then do
    let address ← m.preparedCacheAddress a binding.target.name cancellation
    .ok (if address.isSome then
      ⟨0, 0, min (max resources.preparedBytes binding.target.outputSize) limits.preparedBytes⟩
    else resources)
  else .ok resources

/-- The work of the bindings from an ordinal on. -/
def workItems (limits : ExecutionLimits) (cancellation : CancellationToken) :
    Nat → List Binding → Result (List (WorkItem Binding))
  | _, [] => .ok []
  | ordinal, binding :: rest => do
    cancellation.check
    let resources ← m.scheduled a limits binding cancellation
    let work ← workItems limits cancellation (ordinal + 1) rest
    .ok (⟨ordinal, binding, resources⟩ :: work)

/-- The execution that `execute` starts, with callbacks that come to the given outcomes. -/
def executeJob (limits : ExecutionLimits) (o : Binding → Outcomes)
    (deliver : Nat → PreparedItem WeightDelivery → Result Unit) (cancellation : CancellationToken) :
    Result (Pipeline.Job Binding WeightDelivery) :=
  if m.plan.bindings.length > limits.maxWorkItems then
    .error (.limit "pipeline work-item count exceeds the configured limit")
  else do
    cancellation.check
    let work ← m.workItems a limits cancellation 0 m.plan.bindings
    cancellation.check
    let work ← admitWork limits work
    .ok ⟨limits, work, fun binding => m.callback a (o binding) binding, deliver⟩

/-- Every callback that is started is one of the materializer. -/
def Calls : OpenAction Binding WeightDelivery → State Binding WeightDelivery → Prop
  | .thread prepare _ _ _, _ => ∀ binding, ∃ o, prepare binding = m.callback a o binding
  | .cancel, _ => True

end Materializer

/-! ## An execution of a cast -/

namespace Cast

/-- A local file of eight bytes. -/
def sourceFile : CheckpointFile where
  id := 0
  size := 8
  kind := .local
  readAt offset length := .ok (spanOf file ⟨0, offset, length⟩)
  atMost := by
    intro offset length bytes h
    obtain rfl := Except.ok.inj h
    unfold spanOf
    rw [List.length_take]
    exact Nat.min_le_left ..
  mapping := .error (.unsupported "mapped access requires a retained immutable snapshot")

def checkpoint : Checkpoint := ⟨[sourceFile], .auto⟩

def reading : Materializer := { materializer with read := checkpoint.readSpan }

/-- The callback finds an empty cache. -/
def outcomes : Outcomes where
  outcome _ _ x := (run FileOp.eval Cache.Sample.env x.run 0 .empty).1
  possible _ _ _ := returns_run

def limits : ExecutionLimits := ⟨1, 1, 1, 2, 8, 8, 8⟩

def execution : Result (Pipeline.Job Binding WeightDelivery) :=
  reading.executeJob addressing limits (fun _ => outcomes) (fun _ _ => .ok ()) ⟨false⟩

/-- The worker looks at what its callback returned. -/
def executionSchedule : List Pipeline.Action :=
  [.coordinator, .dispatcher, .dispatcher, .dispatcher, .dispatcher, .worker 0, .worker 0,
    .worker 0, .worker 0, .worker 0]

def returnedBytes : Worker Binding WeightDelivery → Option Nat
  | .running _ _ (.done (.ok prepared)) [] => some prepared.bytes
  | _ => none

/-- The bytes of the delivery that the only worker looks at. -/
def executedBytes : Option Nat := do
  let job ← execution.toOption
  let s ← Transition.run (act job) executionSchedule job.start
  let worker ← s.workers.head?
  returnedBytes worker

theorem returnedBytes_some {worker : Worker Binding WeightDelivery} {bytes : Nat}
    (h : returnedBytes worker = some bytes) : ∃ item context prepared,
      worker = .running item context (.done (.ok prepared)) [] ∧ prepared.bytes = bytes := by
  unfold returnedBytes at h
  split at h
  · exact ⟨_, _, _, rfl, Option.some.inj h⟩
  · cases h

theorem execution_calls {job : Pipeline.Job Binding WeightDelivery} (h : execution = .ok job)
    (value : Binding) : job.prepare value = reading.callback addressing outcomes value := by
  unfold execution Materializer.executeJob at h
  obtain ⟨_, h⟩ := unless_error_ok h
  obtain ⟨_, _, h⟩ := bind_ok h
  obtain ⟨_, _, h⟩ := bind_ok h
  obtain ⟨_, _, h⟩ := bind_ok h
  obtain ⟨_, _, h⟩ := bind_ok h
  rw [← Except.ok.inj h]

end Cast

/-- **Deliveries fit their reservations.** In every execution of a materializer, with any
limits, whatever its callbacks find in the cache and in their sources and wherever it is
cancelled: a delivery is counted with its resident bytes, these are at most the prepared
bytes that are recorded as reserved when its worker looks, and the check of the worker
changes no result. -/
theorem execute_reserved {a : Addressing} {m : Materializer} {checkpoint : Checkpoint}
    (hread : m.read = checkpoint.readSpan) {limits : ExecutionLimits} {o : Binding → Outcomes}
    {deliver : Nat → PreparedItem WeightDelivery → Result Unit} {cancellation : CancellationToken}
    {job : Pipeline.Job Binding WeightDelivery}
    (_ : m.executeJob a limits o deliver cancellation = .ok job) {s : State Binding WeightDelivery}
    (hrun : Transition.ReachableUnder (openAct job) (m.Calls a) job.start s)
    {item : WorkItem Binding} {context : PrepareContext}
    {result : Result (PreparedItem WeightDelivery)}
    (hworker : Worker.running item context (.done result) [] ∈ s.workers) :
    (∀ prepared, result = .ok prepared → prepared.bytes = prepared.value.residentBytes ∧
      prepared.value.residentBytes ≤ context.reserved.preparedBytes) ∧
    checkPrepared context.reserved.preparedBytes result = result := by
  have hends : s.EndsWith Fits := by
    refine open_endsWith (fun _ => fits_error) (Relation.ReflTransGen.mono (fun u v hstep => ?_)
      _ _ hrun)
    obtain ⟨action, hcalls, hact⟩ := hstep
    refine ⟨action, ?_, hact⟩
    cases action with
    | cancel => trivial
    | thread prepare deliver seen step =>
      intro binding reserved
      obtain ⟨o, ho⟩ := hcalls binding
      show (prepare binding).EndsWith Fits reserved
      rw [ho]
      exact callback_endsWith hread reserved
  have hfits := hends.returned hworker
  refine ⟨hfits, ?_⟩
  cases result with
  | error e => rfl
  | ok prepared =>
    obtain ⟨hcounted, hle⟩ := hfits prepared rfl
    exact if_neg (by omega)

/-- The delivery of the cast asks for its source once its worker has started. -/
theorem execute_reserved_cast : ∃ job s item context prepared,
    Cast.reading.executeJob Cast.addressing Cast.limits (fun _ => Cast.outcomes)
      (fun _ _ => .ok ()) ⟨false⟩ = .ok job ∧
    Transition.ReachableUnder (openAct job) (Cast.reading.Calls Cast.addressing) job.start s ∧
    Worker.running item context (.done (.ok prepared)) [] ∈ s.workers ∧
    prepared.value.residentBytes = 4 ∧ 4 ≤ context.reserved.preparedBytes := by
  have hbytes : Cast.executedBytes = some 4 := by decide +kernel
  unfold Cast.executedBytes at hbytes
  obtain ⟨job, hjob, hbytes⟩ := Option.bind_eq_some_iff.mp hbytes
  obtain ⟨s, hs, hbytes⟩ := Option.bind_eq_some_iff.mp hbytes
  obtain ⟨worker, hworker, hbytes⟩ := Option.bind_eq_some_iff.mp hbytes
  obtain ⟨item, context, prepared, rfl, hfour⟩ := Cast.returnedBytes_some hbytes
  have hjob : Cast.execution = .ok job := by
    cases hexecution : Cast.execution with
    | error e =>
      rw [hexecution] at hjob
      cases hjob
    | ok job' =>
      rw [hexecution] at hjob
      rw [Option.some.inj hjob]
  have hrun : Transition.ReachableUnder (openAct job) (Cast.reading.Calls Cast.addressing)
      job.start s := reachableUnder_open
    (fun _ _ binding => ⟨Cast.outcomes, Cast.execution_calls hjob binding⟩)
    (Transition.reachable_of_run hs)
  have hmem := List.mem_of_mem_head? hworker
  have hreserved := (@execute_reserved Cast.addressing Cast.reading Cast.checkpoint rfl Cast.limits
    (fun _ => Cast.outcomes) (fun _ _ => .ok ()) ⟨false⟩ job hjob s hrun item context
    (.ok prepared) hmem).1 prepared rfl
  obtain ⟨hcounted, hle⟩ := hreserved
  rw [← hcounted, hfour] at hle
  exact ⟨job, s, item, context, prepared, hjob, hrun, hmem, hcounted.symm.trans hfour, hle⟩

end ModelWeights.Prepared
