import ModelWeights.Pipeline.Budget
import ModelWeights.Lib.Transition
import Mathlib.Data.List.Sort

/-! # The threads of a pipeline execution

`Pipeline::execute` as a transition system: the dispatcher, the workers and the
coordinator are explicit states, and every action is one step of one thread
between two blocking points. Channels are lists with a bound, permits are the
weights they reserve. A callback is seen through what it does with its context:
it returns, or it asks `with_resources` to run an operation under a larger
reservation. Events, durations and the report are left out, and no thread
panics. The token is only cancelled from within. -/
namespace ModelWeights.Pipeline
open ResourceWeights

/-! ## Work and callbacks -/

structure WorkItem (τ : Type) where
  ordinal : Nat
  value : τ
  resources : ResourceWeights
  deriving DecidableEq, Repr

structure PreparedItem (α : Type) where
  value : α
  bytes : Nat
  deriving DecidableEq, Repr

/-- What a preparation callback does. -/
inductive Preparation (α : Type) where
  | done (result : Result (PreparedItem α))
  | withResources (required : ResourceWeights) (operation : Preparation α)
      (next : Result (PreparedItem α) → Preparation α)

section Admission
variable {τ : Type}

def collectBoundedWork (maximumWorkItems : Nat) :
    List (WorkItem τ) → List (WorkItem τ) → Result (List (WorkItem τ))
  | [], collected => .ok collected
  | item :: rest, collected =>
    if collected.length ≥ maximumWorkItems then
      .error (.limit "pipeline work-item count exceeds the configured limit")
    else collectBoundedWork maximumWorkItems rest (collected ++ [item])

def validateWork (limits : ExecutionLimits) : List Nat → List (WorkItem τ) → Result Unit
  | _, [] => .ok ()
  | ordinals, item :: rest =>
    if item.ordinal ∈ ordinals then
      .error (.delivery "pipeline work-item ordinals must be unique")
    else if item.resources.sourceBytes > limits.sourceBytes ∨
        item.resources.scratchBytes > limits.scratchBytes ∨
        item.resources.preparedBytes > limits.preparedBytes then
      .error (.limit "a pipeline work item exceeds a configured byte budget")
    else validateWork limits (item.ordinal :: ordinals) rest

/-- What `execute` does before it starts a thread: the work in delivery order. -/
def admitWork (limits : ExecutionLimits) (work : List (WorkItem τ)) :
    Result (List (WorkItem τ)) := do
  limits.validate
  let work ← collectBoundedWork limits.maxWorkItems work []
  let work := work.insertionSort fun a b => a.ordinal ≤ b.ordinal
  validateWork limits [] work
  .ok work

end Admission

/-- One execution: its limits, the admitted work and the two callbacks. The
outcomes of the sink are a function of what it receives. -/
structure Job (τ α : Type) where
  limits : ExecutionLimits
  items : List (WorkItem τ)
  prepare : τ → Preparation α
  deliver : Nat → PreparedItem α → Result Unit

def Job.workerCount {τ α : Type} (job : Job τ α) : Nat :=
  min (min job.limits.workers job.limits.dispatchLookahead) job.items.length

/-! ## Threads -/

section Threads
variable (τ α : Type)

inductive Dispatcher where
  | next (rest : List (WorkItem τ))
  | awaitingWindow (item : WorkItem τ) (rest : List (WorkItem τ))
  | reserving (item : WorkItem τ) (rest : List (WorkItem τ))
  | sending (item : WorkItem τ) (rest : List (WorkItem τ))
  | done

/-- A dispatched item with its reservation; it holds a place in the window. -/
structure QueuedWork where
  item : WorkItem τ
  reservation : ResourceWeights

/-- The reservations of a `PrepareContext`. -/
structure PrepareContext where
  initialReservation : ResourceWeights
  reserved : ResourceWeights
  promotedPrepared : List Nat

/-- A call of `with_resources` whose operation is running: the caller's rest,
and what the call restores and releases if it acquired anything. -/
inductive Frame where
  | plain (next : Result (PreparedItem α) → Preparation α)
  | promoted (previous : ResourceWeights) (previousPromotions : Nat)
      (reservation : ResourceWeights) (next : Result (PreparedItem α) → Preparation α)

structure WorkerOutput where
  ordinal : Nat
  result : Result (PreparedItem α)
  reservation : Option OutputReservation

inductive Worker where
  | receiving
  | starting (item : WorkItem τ) (reservation : ResourceWeights)
  | running (item : WorkItem τ) (context : PrepareContext) (script : Preparation α)
      (frames : List (Frame α))
  | waiting (item : WorkItem τ) (context : PrepareContext) (required missing : ResourceWeights)
      (operation : Preparation α) (next : Result (PreparedItem α) → Preparation α)
      (frames : List (Frame α))
  | sending (item : WorkItem τ) (output : WorkerOutput α)
  | exited

inductive Coordinator where
  | receiving
  | draining
  | finished (result : Result Unit)

structure State where
  dispatcher : Dispatcher τ
  queue : List (QueuedWork τ)
  workers : List (Worker τ α)
  results : List (WorkerOutput α)
  pending : List (WorkerOutput α)
  nextIndex : Nat
  coordinator : Coordinator
  cancelled : Bool
  used : ResourceWeights
  windowUsed : Nat
  delivered : List (Nat × PreparedItem α)

end Threads

section Steps
variable {τ α : Type}

def Dispatcher.isDone : Dispatcher τ → Bool
  | .done => true
  | _ => false

def Worker.isExited : Worker τ α → Bool
  | .exited => true
  | _ => false

namespace State

def release (s : State τ α) (released : ResourceWeights) : State τ α :=
  { s with used := subtractWeights s.used released }

def releaseWindow (s : State τ α) : State τ α := { s with windowUsed := s.windowUsed - 1 }

def setWorker (s : State τ α) (i : Nat) (worker : Worker τ α) : State τ α :=
  { s with workers := s.workers.set i worker }

end State

/-- `ResourceBudget::acquire`; without a result it waits. -/
def acquire (limit used requested : ResourceWeights) (cancelled : Bool) :
    Option (Result ResourceWeights) :=
  if cancelled then some (.error .cancelled)
  else if fits .default requested limit = false then
    some (.error (.limit
      "a deferred pipeline resource request exceeds a configured byte budget"))
  else if fits used requested limit then some (.ok (addWeights used requested))
  else none

/-! ### Dispatcher -/

def dispatcherStep (job : Job τ α) (s : State τ α) : Option (State τ α) :=
  match s.dispatcher with
  | .next [] => some { s with dispatcher := .done }
  | .next (item :: rest) =>
    if s.cancelled then some { s with dispatcher := .done }
    else some { s with dispatcher := .awaitingWindow item rest }
  | .awaitingWindow item rest =>
    if s.cancelled then some { s with dispatcher := .done }
    else if s.windowUsed < job.limits.dispatchLookahead then
      some { s with windowUsed := s.windowUsed + 1, dispatcher := .reserving item rest }
    else none
  | .reserving item rest =>
    match acquire job.limits.budget s.used item.resources s.cancelled with
    | none => none
    | some (.error _) => some ({ s with dispatcher := .done }).releaseWindow
    | some (.ok used) => some { s with used, dispatcher := .sending item rest }
  | .sending item rest =>
    if s.workers.all Worker.isExited then
      some (({ s with dispatcher := .done }).release item.resources).releaseWindow
    else if s.queue.length < job.workerCount then
      some { s with
        queue := s.queue ++ [⟨item, item.resources⟩]
        dispatcher := .next rest }
    else none
  | .done => none

/-! ### Workers -/

def PrepareContext.new (reservation : ResourceWeights) : PrepareContext :=
  ⟨reservation, reservation, []⟩

/-- Permits a context holds itself. -/
def PrepareContext.held (context : PrepareContext) : ResourceWeights :=
  addWeights context.initialReservation (.ofPrepared context.promotedPrepared.sum)

/-- Gives all prepared bytes back, before more of them are requested. -/
def PrepareContext.releasePrepared (context : PrepareContext) : PrepareContext where
  initialReservation := context.initialReservation.withoutPrepared
  reserved := context.reserved.withoutPrepared
  promotedPrepared := []

def PrepareContext.preparedHeld (context : PrepareContext) : ResourceWeights :=
  .ofPrepared (context.initialReservation.preparedBytes + context.promotedPrepared.sum)

/-- The context under which the operation of `with_resources` runs. -/
def PrepareContext.promote (context : PrepareContext) (required missing : ResourceWeights) :
    PrepareContext where
  initialReservation := context.initialReservation
  reserved := maxWeights context.reserved required
  promotedPrepared := context.promotedPrepared ++
    if missing.preparedBytes > 0 then [missing.preparedBytes] else []

def isOk (result : Result (PreparedItem α)) : Bool :=
  match result with
  | .ok _ => true
  | .error _ => false

/-- The reservation after the operation of a promoted call returned. -/
def settleReserved (previous reserved : ResourceWeights) (result : Result (PreparedItem α)) :
    ResourceWeights :=
  if isOk result then ⟨previous.sourceBytes, previous.scratchBytes, reserved.preparedBytes⟩
  else previous

/-- The end of a promoted call: a failed operation gives its promotions back. -/
def PrepareContext.settle (context : PrepareContext) (previous : ResourceWeights)
    (previousPromotions : Nat) (result : Result (PreparedItem α)) : PrepareContext where
  initialReservation := context.initialReservation
  reserved := settleReserved previous context.reserved result
  promotedPrepared := if isOk result then context.promotedPrepared
    else context.promotedPrepared.take previousPromotions

def checkPrepared (reservedPreparedBytes : Nat) (result : Result (PreparedItem α)) :
    Result (PreparedItem α) := do
  let prepared ← result
  if prepared.bytes > reservedPreparedBytes then
    .error (.limit "actual prepared bytes exceed the work-item prepared reservations")
  else .ok prepared

/-- What a worker sends when its callback returned. -/
def workerOutput (item : WorkItem τ) (context : PrepareContext)
    (result : Result (PreparedItem α)) : WorkerOutput α :=
  let result := checkPrepared context.reserved.preparedBytes result
  { ordinal := item.ordinal
    result
    reservation := match result with
      | .ok prepared => some (.retainPrepared context.initialReservation context.promotedPrepared
          prepared.bytes)
      | .error _ => none }

def WorkerOutput.held (output : WorkerOutput α) : ResourceWeights :=
  match output.reservation with
  | some reservation => reservation.held
  | none => .default

/-- One step of a callback on worker `i`. -/
def runStep (s : State τ α) (i : Nat) (item : WorkItem τ) (context : PrepareContext)
    (script : Preparation α) (frames : List (Frame α)) : State τ α :=
  match script, frames with
  | .done result, [] =>
    let output := workerOutput item context result
    (s.release (subtractWeights context.held output.held)).setWorker i (.sending item output)
  | .done result, .plain next :: frames =>
    s.setWorker i (.running item context (next result) frames)
  | .done result, .promoted previous previousPromotions reservation next :: frames =>
    let settled := context.settle previous previousPromotions result
    (s.release (addWeights (subtractWeights context.held settled.held) reservation)).setWorker i
      (.running item settled (next result) frames)
  | .withResources required operation next, frames =>
    let missing := subtractWeights required context.reserved
    if missing = .default then
      s.setWorker i (.running item context operation (.plain next :: frames))
    else if missing.preparedBytes > 0 then
      let released := context.releasePrepared
      (s.release context.preparedHeld).setWorker i (.waiting item released required
        (subtractWeights required released.reserved) operation next frames)
    else s.setWorker i (.waiting item context required missing operation next frames)

/-- The wait of `with_resources`. -/
def promoteStep (job : Job τ α) (s : State τ α) (i : Nat) (item : WorkItem τ)
    (context : PrepareContext) (required missing : ResourceWeights) (operation : Preparation α)
    (next : Result (PreparedItem α) → Preparation α) (frames : List (Frame α)) :
    Option (State τ α) :=
  match acquire job.limits.budget s.used missing s.cancelled with
  | none => none
  | some (.error e) => some (s.setWorker i (.running item context (next (.error e)) frames))
  | some (.ok used) =>
    some (({ s with used }).setWorker i (.running item (context.promote required missing) operation
      (.promoted context.reserved context.promotedPrepared.length missing.withoutPrepared next ::
        frames)))

def workerStep (job : Job τ α) (i : Nat) (s : State τ α) : Option (State τ α) :=
  match s.workers[i]? with
  | none => none
  | some .receiving =>
    match s.queue with
    | queued :: rest =>
      some (({ s with queue := rest }).setWorker i (.starting queued.item queued.reservation))
    | [] => if s.dispatcher.isDone then some (s.setWorker i .exited) else none
  | some (.starting item reservation) =>
    some (s.setWorker i (.running item (.new reservation)
      (if s.cancelled then .done (.error .cancelled) else job.prepare item.value) []))
  | some (.running item context script frames) => some (runStep s i item context script frames)
  | some (.waiting item context required missing operation next frames) =>
    promoteStep job s i item context required missing operation next frames
  | some (.sending _ output) =>
    match s.coordinator with
    | .finished _ => some ((s.release output.held).releaseWindow.setWorker i .exited)
    | _ =>
      if s.results.length < job.limits.deliveryQueueDepth then
        some (({ s with results := s.results ++ [output] }).setWorker i .receiving)
      else none
  | some .exited => none

/-- A callback that sees the cancelled token returns the cancellation error. -/
def observeCancellation (i : Nat) (s : State τ α) : Option (State τ α) :=
  match s.workers[i]? with
  | some (.running item context _ frames) =>
    if s.cancelled then
      some (s.setWorker i (.running item context (.done (.error .cancelled)) frames))
    else none
  | _ => none

/-! ### Coordinator -/

def addHeld (outputs : List (WorkerOutput α)) : ResourceWeights :=
  outputs.foldr (fun output total => addWeights output.held total) .default

/-- The coordinator returns: what it has not delivered is dropped, and so is
what is left in the result channel. -/
def State.finish (s : State τ α) (result : Result Unit) : State τ α :=
  { s with
    coordinator := .finished result
    pending := []
    results := []
    used := subtractWeights s.used (addHeld (s.pending ++ s.results))
    windowUsed := s.windowUsed - (s.pending ++ s.results).length }

def State.cancel (s : State τ α) : State τ α := { s with cancelled := true }

def deliverOutput (job : Job τ α) (s : State τ α) (output : WorkerOutput α) : State τ α :=
  match output.result with
  | .error e => ((s.cancel.finish (.error e)).release output.held).releaseWindow
  | .ok prepared =>
    let s := { s with delivered := s.delivered ++ [(output.ordinal, prepared)] }
    match job.deliver output.ordinal prepared with
    | .error e => ((s.cancel.finish (.error e)).release output.held).releaseWindow
    | .ok () => (({ s with nextIndex := s.nextIndex + 1 }).release output.held).releaseWindow

def coordinatorStep (job : Job τ α) (s : State τ α) : Option (State τ α) :=
  match s.coordinator with
  | .receiving =>
    match s.results with
    | output :: rest =>
      if s.pending.any fun other => other.ordinal == output.ordinal then
        some (s.cancel.finish
          (.error (.delivery "a pipeline worker produced a duplicate ordinal")))
      else some { s with
        results := rest
        pending := output :: s.pending
        coordinator := .draining }
    | [] =>
      if s.workers.all Worker.isExited then some (s.cancel.finish (.error .cancelled)) else none
  | .draining =>
    match job.items[s.nextIndex]? with
    | none => some (s.finish (.ok ()))
    | some item =>
      match s.pending.find? fun output => output.ordinal == item.ordinal with
      | none => some { s with coordinator := .receiving }
      | some output =>
        some (deliverOutput job { s with
          pending := s.pending.eraseP fun output => output.ordinal == item.ordinal } output)
  | .finished _ => none

/-- The work channel is dropped when the last thread that receives from it has left: every
item in it gives its reservation and its place in the window back. -/
def State.dropQueue (s : State τ α) : State τ α :=
  { s with
    queue := []
    used := subtractWeights s.used (totalWeights (s.queue.map QueuedWork.reservation))
    windowUsed := s.windowUsed - s.queue.length }

/-! ## The system -/

inductive Action where
  | dispatcher
  | worker (index : Nat)
  | cancellation (index : Nat)
  | coordinator
  deriving DecidableEq, Repr

def act (job : Job τ α) : Action → State τ α → Option (State τ α)
  | .dispatcher => dispatcherStep job
  | .worker i => workerStep job i
  | .cancellation i => observeCancellation i
  | .coordinator => coordinatorStep job

def Job.start (job : Job τ α) : State τ α where
  dispatcher := .next job.items
  queue := []
  workers := List.replicate job.workerCount .receiving
  results := []
  pending := []
  nextIndex := 0
  coordinator := .draining
  cancelled := false
  used := .default
  windowUsed := 0
  delivered := []

end Steps

end ModelWeights.Pipeline
