import ModelWeights.Pipeline.Open

/-! # Recorded and held prepared bytes

`with_resources` keeps the prepared bytes of an item twice: as a number in the
context, against which an output is checked, and in the permits that back it. A
call gives its permits back before it asks for more, and a call that fails
restores only the number. The two agree as long as no call fails that holds no
promotion of its own and under which the permits were exchanged. -/
namespace ModelWeights.Pipeline
open ResourceWeights
variable {τ α : Type}

/-! ## The counter of `retain_prepared` -/

/-- What the loop of `retain_prepared` has left to keep at its end. -/
def remainingPromoted : Nat → List Nat → Nat
  | remaining, [] => remaining
  | remaining, reserved :: rest => remainingPromoted (remaining - min reserved remaining) rest

def OutputReservation.remaining (initial : ResourceWeights) (promotedPrepared : List Nat)
    (preparedBytes : Nat) : Nat :=
  remainingPromoted (preparedBytes - min initial.preparedBytes preparedBytes) promotedPrepared

theorem retainPromoted_add_remaining : ∀ (remaining : Nat) (promoted : List Nat),
    (retainPromoted remaining promoted).sum + remainingPromoted remaining promoted = remaining
  | _, [] => Nat.zero_add _
  | remaining, reserved :: rest => by
    have := retainPromoted_add_remaining (remaining - min reserved remaining) rest
    simp only [retainPromoted, remainingPromoted, List.sum_cons]
    omega

theorem remainingPromoted_eq : ∀ (remaining : Nat) (promoted : List Nat),
    remainingPromoted remaining promoted = remaining - promoted.sum
  | _, [] => rfl
  | remaining, reserved :: rest => by
    rw [remainingPromoted, remainingPromoted_eq, List.sum_cons]
    omega

/-! ## Contexts -/

namespace PrepareContext

/-- The recorded prepared bytes are those of the initial and the promoted permits. -/
def Recorded (context : PrepareContext) : Prop :=
  context.reserved.preparedBytes =
    context.initialReservation.preparedBytes + context.promotedPrepared.sum

/-- Prepared bytes are held by the initial permit or by one promotion, never by both. -/
structure Exclusive (context : PrepareContext) : Prop where
  recorded : context.Recorded
  single : context.promotedPrepared = [] ∨ ∃ bytes, context.promotedPrepared = [bytes] ∧
    0 < bytes ∧ context.initialReservation.preparedBytes = 0

/-- The record that a failing call restores still stands: there were no prepared bytes
when it began, or the initial permit has not been given back, or it began with a
promotion and the record is what it was. -/
def Restorable (context : PrepareContext) (previous : ResourceWeights)
    (previousPromotions : Nat) : Prop :=
  previous.preparedBytes = 0 ∨ 0 < context.initialReservation.preparedBytes ∨
    0 < previousPromotions ∧ context.reserved.preparedBytes = previous.preparedBytes

theorem exclusive_new (reservation : ResourceWeights) : (new reservation).Exclusive :=
  ⟨rfl, .inl rfl⟩

theorem exclusive_releasePrepared (context : PrepareContext) :
    context.releasePrepared.Exclusive := ⟨rfl, .inl rfl⟩

/-- Whoever asks for prepared bytes has given all others back. -/
theorem Exclusive.promote {context : PrepareContext} (h : context.Exclusive)
    {required missing : ResourceWeights}
    (hmissing : missing = subtractWeights required context.reserved)
    (hreleased : 0 < missing.preparedBytes →
      context.initialReservation.preparedBytes = 0 ∧ context.promotedPrepared = []) :
    (context.promote required missing).Exclusive := by
  have hrecorded : context.reserved.preparedBytes =
      context.initialReservation.preparedBytes + context.promotedPrepared.sum := h.recorded
  have hbytes : missing.preparedBytes =
      required.preparedBytes - context.reserved.preparedBytes := by rw [hmissing]; rfl
  by_cases hpositive : missing.preparedBytes > 0
  · obtain ⟨hinitial, hpromoted⟩ := hreleased hpositive
    rw [hinitial, hpromoted, List.sum_nil] at hrecorded
    have hnew : (context.promote required missing).promotedPrepared = [missing.preparedBytes] := by
      rw [PrepareContext.promote, hpromoted, if_pos hpositive, List.nil_append]
    refine ⟨?_, .inr ⟨_, hnew, hpositive, hinitial⟩⟩
    rw [Recorded, hnew, List.sum_singleton]
    show max context.reserved.preparedBytes required.preparedBytes =
      context.initialReservation.preparedBytes + missing.preparedBytes
    omega
  · have hsame : (context.promote required missing).promotedPrepared =
        context.promotedPrepared := by
      rw [PrepareContext.promote, if_neg hpositive, List.append_nil]
    refine ⟨?_, by rw [hsame]; exact h.single⟩
    rw [Recorded, hsame]
    show max context.reserved.preparedBytes required.preparedBytes =
      context.initialReservation.preparedBytes + context.promotedPrepared.sum
    omega

/-- What the check of an output admits, `retain_prepared` keeps. -/
theorem Recorded.retains {context : PrepareContext} (h : context.Recorded) {preparedBytes : Nat}
    (hle : preparedBytes ≤ context.reserved.preparedBytes) :
    OutputReservation.remaining context.initialReservation context.promotedPrepared
        preparedBytes = 0 ∧
      (OutputReservation.retainPrepared context.initialReservation context.promotedPrepared
        preparedBytes).held = .ofPrepared preparedBytes := by
  have hrecorded : context.reserved.preparedBytes =
      context.initialReservation.preparedBytes + context.promotedPrepared.sum := h
  let rest := preparedBytes - min context.initialReservation.preparedBytes preparedBytes
  have hzero : remainingPromoted rest context.promotedPrepared = 0 := by
    rw [remainingPromoted_eq]
    omega
  have hsum := retainPromoted_add_remaining rest context.promotedPrepared
  refine ⟨hzero, congrArg ResourceWeights.ofPrepared ?_⟩
  show min context.initialReservation.preparedBytes preparedBytes +
    (retainPromoted rest context.promotedPrepared).sum = preparedBytes
  omega

end PrepareContext

/-! ## Calls in progress -/

/-- What a call in progress restores, against the prepared bytes that the initial permit
holds now: the call began with them, or with one promotion. -/
def Frame.Fits (initial : Nat) : Frame α → Prop
  | .plain _ => True
  | .promoted previous promotions _ _ =>
    promotions = 0 ∧ (0 < initial → previous.preparedBytes = initial) ∨
      promotions = 1 ∧ initial = 0 ∧ 0 < previous.preparedBytes

theorem Frame.Fits.released {initial : Nat} {frame : Frame α} (h : frame.Fits initial) :
    frame.Fits 0 := by
  cases frame with
  | plain next => trivial
  | promoted previous promotions reservation next =>
    rcases h with ⟨hzero, _⟩ | ⟨hone, _, hprevious⟩
    · exact .inl ⟨hzero, fun h => absurd h (Nat.lt_irrefl 0)⟩
    · exact .inr ⟨hone, rfl, hprevious⟩

theorem PrepareContext.Exclusive.frame {context : PrepareContext} (h : context.Exclusive)
    (reservation : ResourceWeights) (next : Result (PreparedItem α) → Preparation α) :
    (Frame.promoted context.reserved context.promotedPrepared.length reservation next).Fits
      context.initialReservation.preparedBytes := by
  have hrecorded : context.reserved.preparedBytes =
      context.initialReservation.preparedBytes + context.promotedPrepared.sum := h.recorded
  rcases h.single with hnone | ⟨bytes, hone, hpositive, hinitial⟩
  · rw [hnone, List.sum_nil] at hrecorded
    exact .inl ⟨by rw [hnone]; rfl, fun _ => hrecorded⟩
  · rw [hone, List.sum_singleton] at hrecorded
    exact .inr ⟨by rw [hone]; rfl, hinitial, by omega⟩

section Settle
variable {context : PrepareContext} {previous reservation : ResourceWeights} {promotions : Nat}
  {next : Result (PreparedItem α) → Preparation α}

/-- A failing call leaves the record right if and only if what it restores stands. -/
theorem settle_recorded_iff (h : context.Exclusive)
    (hframe : (Frame.promoted previous promotions reservation next).Fits
      context.initialReservation.preparedBytes) (e : Error) :
    (context.settle previous promotions (.error e : Result (PreparedItem α))).Recorded ↔
      context.Restorable previous promotions := by
  have hrecorded : context.reserved.preparedBytes =
      context.initialReservation.preparedBytes + context.promotedPrepared.sum := h.recorded
  show previous.preparedBytes = context.initialReservation.preparedBytes +
    (context.promotedPrepared.take promotions).sum ↔ _
  unfold PrepareContext.Restorable
  rcases hframe with ⟨rfl, hprevious⟩ | ⟨rfl, hinitial, hpositive⟩
  · rw [List.take_zero, List.sum_nil]
    omega
  · have htake : context.promotedPrepared.take 1 = context.promotedPrepared := by
      rcases h.single with hnone | ⟨bytes, hone, _⟩
      · rw [hnone]; rfl
      · rw [hone]; rfl
    rw [htake]
    omega

theorem PrepareContext.Exclusive.settle (h : context.Exclusive)
    (hframe : (Frame.promoted previous promotions reservation next).Fits
      context.initialReservation.preparedBytes) {result : Result (PreparedItem α)}
    (hrestorable : ∀ e, result = .error e → context.Restorable previous promotions) :
    (context.settle previous promotions result).Exclusive := by
  cases result with
  | ok prepared => exact ⟨h.recorded, h.single⟩
  | error e =>
    refine ⟨(settle_recorded_iff h hframe e).mpr (hrestorable e rfl), ?_⟩
    show context.promotedPrepared.take promotions = [] ∨ _
    rcases h.single with hnone | ⟨bytes, hone, hpositive, hinitial⟩
    · exact .inl (by rw [hnone, List.take_nil])
    · cases promotions with
      | zero => exact .inl List.take_zero
      | succ n => exact .inr ⟨bytes, by
          show context.promotedPrepared.take (n + 1) = [bytes]
          rw [hone, List.take_succ_cons, List.take_nil], hpositive, hinitial⟩

end Settle

/-! ## Workers -/

/-- A successful output keeps permits for its bytes. -/
def WorkerOutput.Retained (output : WorkerOutput α) : Prop :=
  ∀ prepared, output.result = .ok prepared → output.held = .ofPrepared prepared.bytes

/-- The record of the item is right, and its output keeps what it needs. -/
def Worker.Recorded : Worker τ α → Prop
  | .running _ context _ _ | .waiting _ context _ _ _ _ _ => context.Recorded
  | .sending _ output => output.Retained
  | .receiving | .starting _ _ | .exited => True

/-- The invariant of a worker, with the calls in progress. -/
def Worker.Backed : Worker τ α → Prop
  | .running _ context _ frames =>
    context.Exclusive ∧ ∀ frame ∈ frames, frame.Fits context.initialReservation.preparedBytes
  | .waiting _ context required missing _ _ frames =>
    context.Exclusive ∧ (∀ frame ∈ frames,
      frame.Fits context.initialReservation.preparedBytes) ∧
      missing = subtractWeights required context.reserved ∧
      (0 < missing.preparedBytes → context.initialReservation.preparedBytes = 0 ∧
        context.promotedPrepared = [])
  | .sending _ output => output.Retained
  | .receiving | .starting _ _ | .exited => True

theorem Worker.Backed.recorded {worker : Worker τ α} (h : worker.Backed) : worker.Recorded := by
  cases worker with
  | running item context script frames => exact h.1.recorded
  | waiting item context required missing operation next frames => exact h.1.recorded
  | sending item output => exact h
  | receiving | starting item reservation | exited => trivial

theorem workerOutput_retained {item : WorkItem τ} {context : PrepareContext}
    {result : Result (PreparedItem α)} (h : context.Recorded) :
    (workerOutput item context result).Retained := by
  intro prepared hprepared
  have hchecked : checkPrepared context.reserved.preparedBytes result = .ok prepared := hprepared
  have hle : prepared.bytes ≤ context.reserved.preparedBytes := by
    obtain ⟨p, _, hcheck⟩ := bind_ok hchecked
    obtain ⟨hbytes, hp⟩ := unless_error_ok hcheck
    rw [← Except.ok.inj hp]
    exact Nat.not_lt.mp hbytes
  unfold WorkerOutput.held workerOutput
  rw [hchecked]
  exact (h.retains hle).2

/-! ## Steps -/

/-- If a call in progress ends with an error, the record that it restores stands. -/
def Worker.Restores : Worker τ α → Prop
  | .running _ context (.done (.error _)) (.promoted previous promotions _ _ :: _) =>
    context.Restorable previous promotions
  | _ => True

/-- The condition on a step: no failing call restores a stale record. -/
def Restores : OpenAction τ α → State τ α → Prop
  | .thread _ _ _ (.worker i), s => ∀ worker, s.workers[i]? = some worker → worker.Restores
  | _, _ => True

/-- Recorded and held prepared bytes agree, and so `retain_prepared` ends with a zero
counter and keeps the bytes of the output, until it is delivered. -/
structure State.Recorded (s : State τ α) : Prop where
  workers : ∀ worker ∈ s.workers, worker.Recorded
  counters : ∀ item context prepared,
    Worker.running item context (.done (.ok prepared)) [] ∈ s.workers →
    prepared.bytes ≤ context.reserved.preparedBytes →
    OutputReservation.remaining context.initialReservation context.promotedPrepared
      prepared.bytes = 0
  outputs : ∀ output ∈ s.results ++ s.pending, output.Retained

structure Backed (s : State τ α) : Prop where
  workers : ∀ worker ∈ s.workers, worker.Backed
  outputs : ∀ output ∈ s.results ++ s.pending, output.Retained

theorem Backed.recorded {s : State τ α} (h : Backed s) : s.Recorded where
  workers := fun worker hw => (h.workers worker hw).recorded
  counters := fun _ _ _ hw hle => ((h.workers _ hw).1.recorded.retains hle).1
  outputs := h.outputs

section Steps
variable {job : Job τ α} {s t : State τ α} {i : Nat}

/-- A worker changed, and no output left it. -/
theorem Backed.setWorker (h : Backed s) (worker : Worker τ α) (hw : worker.Backed)
    (hworkers : t.workers = s.workers.set i worker)
    (houtputs : ∀ output ∈ t.results ++ t.pending, output ∈ s.results ++ s.pending) :
    Backed t := by
  refine ⟨fun w hmem => ?_, fun output ho => h.outputs output (houtputs output ho)⟩
  rw [hworkers] at hmem
  rcases List.mem_or_eq_of_mem_set hmem with hmem | rfl
  · exact h.workers w hmem
  · exact hw

theorem Backed.runStep (h : Backed s) {item : WorkItem τ} {context : PrepareContext}
    {script : Preparation α} {frames : List (Frame α)}
    (hw : s.workers[i]? = some (.running item context script frames))
    (hrestores : (Worker.running item context script frames).Restores) :
    Backed (runStep s i item context script frames) := by
  obtain ⟨hcontext, hframes⟩ : (Worker.running item context script frames).Backed :=
    h.workers _ (List.mem_of_getElem? hw)
  match script, frames, hframes, hrestores with
  | .done result, [], _, _ =>
    exact h.setWorker (.sending item _) (workerOutput_retained hcontext.recorded) rfl
      fun _ ho => ho
  | .done result, .plain next :: frames, hframes, _ =>
    exact h.setWorker (.running item _ _ _)
      ⟨hcontext, fun frame hf => hframes frame (List.mem_cons_of_mem _ hf)⟩ rfl fun _ ho => ho
  | .done result, .promoted previous promotions reservation next :: frames, hframes, hrestores =>
    have hsettle : (context.settle previous promotions result).Exclusive :=
      hcontext.settle (hframes _ (List.mem_cons_self ..)) fun e he => by subst he; exact hrestores
    exact h.setWorker (.running item _ _ _)
      ⟨hsettle, fun frame hf => hframes frame (List.mem_cons_of_mem _ hf)⟩ rfl fun _ ho => ho
  | .withResources required operation next, frames, hframes, _ =>
    unfold Pipeline.runStep
    dsimp only
    split
    · refine h.setWorker (.running item _ _ _) ⟨hcontext, fun frame hf => ?_⟩ rfl
        fun _ ho => ho
      rcases List.mem_cons.mp hf with rfl | hf
      · trivial
      · exact hframes frame hf
    · split
      · exact h.setWorker (.waiting item _ _ _ _ _ _)
          ⟨context.exclusive_releasePrepared, fun frame hf => (hframes frame hf).released, rfl,
            fun _ => ⟨rfl, rfl⟩⟩ rfl fun _ ho => ho
      · next hnone =>
        exact h.setWorker (.waiting item _ _ _ _ _ _)
          ⟨hcontext, hframes, rfl, fun hpositive => absurd hpositive hnone⟩ rfl fun _ ho => ho

theorem Backed.workerMove (h : Backed s) (hm : WorkerMove job s i t)
    (hrestores : ∀ worker, s.workers[i]? = some worker → worker.Restores) : Backed t := by
  cases hm with
  | receive queued rest hw hq =>
    exact h.setWorker (.starting _ _) trivial rfl fun _ ho => ho
  | exit hw hq hd => exact h.setWorker (.exited) trivial rfl fun _ ho => ho
  | start item reservation hw =>
    exact h.setWorker (.running item _ _ _)
      ⟨PrepareContext.exclusive_new reservation, fun _ hf => (List.not_mem_nil hf).elim⟩ rfl
      fun _ ho => ho
  | run item context script frames hw => exact h.runStep hw (hrestores _ hw)
  | refuse item context required missing operation next frames hw hf =>
    obtain ⟨hcontext, hframes, _⟩ := h.workers _ (List.mem_of_getElem? hw)
    exact h.setWorker (.running item _ _ _) ⟨hcontext, hframes⟩ rfl fun _ ho => ho
  | promote item context required missing operation next frames hw hl hf =>
    obtain ⟨hcontext, hframes, hmissing, hreleased⟩ := h.workers _ (List.mem_of_getElem? hw)
    refine h.setWorker (.running item _ _ _)
      ⟨hcontext.promote hmissing hreleased, fun frame hf => ?_⟩ rfl fun _ ho => ho
    rcases List.mem_cons.mp hf with rfl | hf
    · exact hcontext.frame _ _
    · exact hframes frame hf
  | send item output hw hr =>
    have hout : output.Retained := h.workers _ (List.mem_of_getElem? hw)
    refine ⟨fun w hmem => ?_, fun other ho => ?_⟩
    · rcases List.mem_or_eq_of_mem_set hmem with hmem | rfl
      · exact h.workers w hmem
      · trivial
    · rcases List.mem_append.mp ho with ho | ho
      · rcases List.mem_append.mp ho with ho | ho
        · exact h.outputs other (List.mem_append_left _ ho)
        · obtain rfl := List.mem_singleton.mp ho
          exact hout
      · exact h.outputs other (List.mem_append_right _ ho)

theorem Backed.workerQuit (h : Backed s) (hq : WorkerQuit s i t) : Backed t := by
  cases hq with
  | start item reservation hw =>
    exact h.setWorker (.running item _ _ _)
      ⟨PrepareContext.exclusive_new reservation, fun _ hf => (List.not_mem_nil hf).elim⟩ rfl
      fun _ ho => ho
  | observe item context script frames hw =>
    obtain ⟨hcontext, hframes⟩ := h.workers _ (List.mem_of_getElem? hw)
    exact h.setWorker (.running item _ _ _) ⟨hcontext, hframes⟩ rfl fun _ ho => ho
  | refuse item context required missing operation next frames hw =>
    obtain ⟨hcontext, hframes, _⟩ := h.workers _ (List.mem_of_getElem? hw)
    exact h.setWorker (.running item _ _ _) ⟨hcontext, hframes⟩ rfl fun _ ho => ho
  | disconnect item output result hw hc =>
    exact h.setWorker (.exited) trivial rfl fun _ ho => ho

theorem Backed.coordinatorMove (h : Backed s) (hm : CoordinatorMove job s t) : Backed t := by
  have hempty : ∀ u : State τ α, u.workers = s.workers → u.results = [] → u.pending = [] →
      Backed u := by
    intro u hw hr hp
    exact ⟨hw ▸ h.workers, by rw [hr, hp]; exact nofun⟩
  cases hm with
  | receive output rest hc hr hnew =>
    refine ⟨h.workers, fun other ho => h.outputs other ?_⟩
    rw [hr]
    exact (List.perm_middle.mem_iff).mp ho
  | duplicate output other rest hc hr hm ho | disconnect hc hr hx | complete hc hi =>
    exact hempty _ rfl rfl rfl
  | wait item hc hi hp => exact ⟨h.workers, h.outputs⟩
  | deliver item output rest hc hi hp ho =>
    have hrest : Backed { s with pending := rest } := by
      refine ⟨h.workers, fun other ho => h.outputs other ?_⟩
      rcases List.mem_append.mp ho with ho | ho
      · exact List.mem_append_left _ ho
      · exact List.mem_append_right _ (hp.mem_iff.mpr (List.mem_cons_of_mem _ ho))
    unfold deliverOutput
    split
    · exact hempty _ rfl rfl rfl
    · dsimp only
      split
      · exact hempty _ rfl rfl rfl
      · exact ⟨hrest.workers, hrest.outputs⟩

theorem Backed.step (h : Backed s) {a : Action} (hs : act job a s = some t)
    (hrestores : ∀ i, a = .worker i → ∀ worker, s.workers[i]? = some worker → worker.Restores) :
    Backed t := by
  cases a with
  | dispatcher =>
    rcases dispatcherStep_cases hs with hm | ⟨_, hq⟩
    · cases hm with
      | finish | take | window | refuse | reserve | disconnect | send =>
        exact ⟨h.workers, h.outputs⟩
    · cases hq with
      | stop | abandon => exact ⟨h.workers, h.outputs⟩
  | worker i =>
    rcases workerStep_cases hs with hm | ⟨_, hq⟩
    · exact h.workerMove hm (hrestores i rfl)
    · exact h.workerQuit hq
  | cancellation i => exact h.workerQuit (observeCancellation_quit hs)
  | coordinator => exact h.coordinatorMove (coordinatorStep_move hs)

/-- A step that does not meet the condition leaves a record that is wrong. -/
theorem Backed.lost (h : Backed s) {worker : Worker τ α} (hw : s.workers[i]? = some worker)
    (hstale : ¬ worker.Restores) (hs : workerStep job i s = some t) : ¬ t.Recorded := by
  unfold Worker.Restores at hstale
  split at hstale
  · next item context e previous promotions reservation next frames =>
    obtain ⟨hcontext, hframes⟩ := h.workers _ (List.mem_of_getElem? hw)
    rw [workerStep, hw] at hs
    obtain rfl := Option.some.inj hs
    intro hrecorded
    obtain ⟨hlt, _⟩ := List.getElem?_eq_some_iff.mp hw
    have hsettled := hrecorded.workers _ (List.mem_of_getElem? (List.getElem?_set_self hlt))
    exact hstale ((settle_recorded_iff hcontext (hframes _ (List.mem_cons_self ..)) e).mp hsettled)
  · exact absurd trivial hstale

theorem open_backed_iff (h : Backed s) {a : OpenAction τ α} (hs : openAct job a s = some t) :
    (Restores a s → Backed t) ∧ (t.Recorded → Restores a s) := by
  cases a with
  | cancel =>
    obtain rfl := Option.some.inj hs
    exact ⟨fun _ => ⟨h.workers, h.outputs⟩, fun _ => trivial⟩
  | thread prepare deliver seen action =>
    obtain ⟨u, hu, rfl⟩ := Option.map_eq_some_iff.mp hs
    have hblind : Backed { s with cancelled := s.cancelled && seen } := ⟨h.workers, h.outputs⟩
    constructor
    · intro hrestores
      have hnext := hblind.step hu fun i hi worker hw => by subst hi; exact hrestores worker hw
      exact ⟨hnext.workers, hnext.outputs⟩
    · intro hrecorded
      cases action with
      | worker i =>
        intro worker hw
        by_contra hstale
        exact hblind.lost hw hstale hu ⟨hrecorded.workers, hrecorded.counters, hrecorded.outputs⟩
      | dispatcher | cancellation i | coordinator => trivial

end Steps

theorem backed_start (job : Job τ α) : Backed job.start := by
  refine ⟨fun worker hw => ?_, fun _ ho => (List.not_mem_nil ho).elim⟩
  rw [(List.mem_replicate.mp hw).2]
  trivial

/-- **The record of the prepared bytes.** In every run, cancelled at any point and with
any callbacks, in which no failing call restores a stale record, the recorded prepared
bytes are those that the permits of the item hold, and every output keeps exactly its
bytes. The first step that does not meet the condition leaves a wrong record. -/
theorem withResources_recorded (job : Job τ α) :
    (∀ s, Transition.ReachableUnder (openAct job) Restores job.start s → s.Recorded) ∧
    ∀ s a t, Transition.ReachableUnder (openAct job) Restores job.start s →
      openAct job a s = some t → (t.Recorded ↔ Restores a s) := by
  have hbacked : ∀ s, Transition.ReachableUnder (openAct job) Restores job.start s → Backed s :=
    fun s h => h.invariant (backed_start job) fun a s t hC hI hs => (open_backed_iff hI hs).1 hC
  refine ⟨fun s h => (hbacked s h).recorded, fun s a t h hs => ?_⟩
  obtain ⟨hkept, hlost⟩ := open_backed_iff (hbacked s h) hs
  exact ⟨hlost, fun hC => (hkept hC).recorded⟩

/-- The item asks for a source byte. Under this call it exchanges its prepared bytes for
more, fails, and returns the output it had reserved at first. -/
def staleJob : Job Unit Unit where
  limits := ⟨1, 1, 1, 2, 1, 1, 8⟩
  items := [⟨0, (), ⟨0, 0, 4⟩⟩]
  prepare := fun _ => .withResources ⟨1, 0, 4⟩
    (.withResources ⟨1, 0, 6⟩ (.done (.ok ⟨(), 6⟩)) fun _ => .done (.error .cancelled))
    fun _ => .done (.ok ⟨(), 4⟩)
  deliver := fun _ _ => .ok ()

def staleSchedule : List Action :=
  [.coordinator, .dispatcher, .dispatcher, .dispatcher, .dispatcher, .worker 0, .worker 0,
    .worker 0, .worker 0, .worker 0, .worker 0, .worker 0, .worker 0]

/-- The item holds no prepared bytes, four are recorded, the output of four bytes
passes the check, and the counter of `retain_prepared` ends with four. -/
theorem withResources_stale : ∃ s item context,
    admitWork staleJob.limits staleJob.items = .ok staleJob.items ∧
    Transition.Reachable (openAct staleJob) staleJob.start s ∧
    s.workers = [.running item context (.done (.ok ⟨(), 4⟩)) []] ∧
    context.reserved.preparedBytes = 4 ∧
    context.initialReservation.preparedBytes + context.promotedPrepared.sum = 0 ∧
    OutputReservation.remaining context.initialReservation context.promotedPrepared 4 = 4 ∧
    ¬ s.Recorded := by
  obtain ⟨s, hs, item, context, hw, hreserved, hheld, hremaining⟩ : ∃ s,
      Transition.run (act staleJob) staleSchedule staleJob.start = some s ∧
      ∃ item context, s.workers = [.running item context (.done (.ok ⟨(), 4⟩)) []] ∧
        context.reserved.preparedBytes = 4 ∧
        context.initialReservation.preparedBytes + context.promotedPrepared.sum = 0 ∧
        OutputReservation.remaining context.initialReservation context.promotedPrepared 4 = 4 :=
    ⟨_, rfl, _, _, rfl, rfl, rfl, rfl⟩
  refine ⟨s, item, context, by decide +kernel, reachable_open (Transition.reachable_of_run hs), hw,
    hreserved, hheld, hremaining, fun hrecorded => ?_⟩
  have hrecord : context.Recorded :=
    hrecorded.workers (.running item context _ []) (by rw [hw]; exact List.mem_cons_self ..)
  rw [PrepareContext.Recorded, hreserved, hheld] at hrecord
  cases hrecord

end ModelWeights.Pipeline
