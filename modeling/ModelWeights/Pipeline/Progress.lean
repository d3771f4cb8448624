import ModelWeights.Pipeline.Permits

/-! # Progress

An execution can only come to a halt around the lowest undelivered item. While
that item waits for a promotion, nothing behind it is delivered, so the permits
of queued, waiting and finished items stay out. If the promotion does not fit
beside them, no thread moves again. -/
namespace ModelWeights.Pipeline
open ResourceWeights
variable {τ α : Type}

/-- The worker can only go on when it is given work or a promotion. -/
def Worker.Stalled (queue : List (QueuedWork τ)) : Worker τ α → Prop
  | .waiting .. | .exited => True
  | .receiving => queue = []
  | .starting .. | .running .. | .sending .. => False

/-- Where all workers are stalled, the promotion that the lowest undelivered
item waits for fits beside the permits of the dispatched items. -/
def HeadRoom (job : Job τ α) (s : State τ α) : Prop :=
  (∀ worker ∈ s.workers, worker.Stalled s.queue) →
  ∀ item, job.items[s.nextIndex]? = some item →
  ∀ context required missing operation next frames,
    Worker.waiting item context required missing operation next frames ∈ s.workers →
    fits s.held missing job.limits.budget = true

section Halt
variable {job : Job τ α} {s : State τ α} {taken sent : Nat}

/-! ## A halted state -/

/-- The coordinator only blocks on the empty result channel. -/
theorem halted_coordinator (hflow : Flow job s taken sent) (h : coordinatorStep job s = none) :
    s.coordinator = .receiving ∧ s.results = [] ∧ ¬s.workers.all Worker.isExited = true := by
  unfold coordinatorStep at h
  cases hc : s.coordinator with
  | receiving =>
    rw [hc] at h
    dsimp only at h
    cases hr : s.results with
    | nil =>
      rw [hr] at h
      dsimp only at h
      split at h
      · cases h
      · next hx => exact ⟨rfl, rfl, hx⟩
    | cons output rest =>
      rw [hr] at h
      dsimp only at h
      split at h <;> cases h
  | draining =>
    rw [hc] at h
    dsimp only at h
    split at h
    · cases h
    · split at h <;> cases h
  | finished result => exact absurd hc (hflow.open_ result)

/-- A worker only blocks on the empty work channel or on the budget. -/
theorem halted_worker (hjob : job.Admitted) {worker : Worker τ α} (hm : worker ∈ s.workers)
    (hr : s.results = []) (hopen : ∀ result, s.coordinator ≠ .finished result)
    (h : ∀ i, workerStep job i s = none) :
    worker.Stalled s.queue ∧ (worker.isExited = true ∨ worker.item?.isSome = true ∨
      s.queue = [] ∧ s.dispatcher.isDone = false) := by
  obtain ⟨i, hi⟩ := List.mem_iff_getElem?.mp hm
  have h := h i
  unfold workerStep at h
  rw [hi] at h
  cases worker with
  | receiving =>
    dsimp only at h
    cases hq : s.queue with
    | cons queued rest => rw [hq] at h; cases h
    | nil =>
      rw [hq] at h
      dsimp only at h
      split at h
      · cases h
      · next hd => exact ⟨rfl, .inr (.inr ⟨rfl, by simpa using hd⟩)⟩
  | starting item reservation => cases h
  | running item context script frames => cases h
  | waiting item context required missing operation next frames =>
    exact ⟨trivial, .inr (.inl rfl)⟩
  | sending item output =>
    dsimp only at h
    split at h
    · next hc => exact absurd hc (hopen _)
    · rw [hr, if_pos (show List.length [] < _ from hjob.limits_pos.2.1)] at h
      cases h
  | exited => exact ⟨trivial, .inl rfl⟩

/-- With nothing dispatched, the dispatcher can go on. -/
theorem idle_dispatcher (hjob : job.Admitted) (hflow : Flow job s taken sent) (hacc : Accounts s)
    {item : WorkItem τ} {rest : List (WorkItem τ)} (hrem : s.dispatcher.remaining = item :: rest)
    (hq : s.queue = []) (hidle : ∀ worker ∈ s.workers, worker.held = .default ∧ worker.window = 0)
    (hr : s.results = []) (hp : s.pending = []) (hx : ¬s.workers.all Worker.isExited = true) :
    dispatcherStep job s ≠ none := by
  have hitem : item ∈ job.items := List.mem_of_getElem? (hflow.remaining_cons hrem).1
  have hheld : ∀ d, (s.workers.map fun worker => worker.held.get d).sum = 0 := by
    intro d
    refine List.sum_eq_zero fun n hn => ?_
    obtain ⟨worker, hm, rfl⟩ := List.mem_map.mp hn
    rw [(hidle worker hm).1, get_default]
  have hplaces : (s.workers.map Worker.window).sum = 0 := by
    refine List.sum_eq_zero fun n hn => ?_
    obtain ⟨worker, hm, rfl⟩ := List.mem_map.mp hn
    exact (hidle worker hm).2
  have hused := hacc.used
  have hwindow := hacc.window
  simp only [State.held, hq, hr, hp, get_addWeights, get_totalWeights, List.map_map,
    Function.comp_def, hheld, List.map_nil, List.append_nil, List.sum_nil, Nat.add_zero] at hused
  simp only [State.window, hq, hr, hp, hplaces, List.length_nil, List.append_nil,
    Nat.add_zero] at hwindow
  unfold dispatcherStep
  cases hd : s.dispatcher with
  | next work =>
    rw [hd] at hrem
    obtain rfl : work = item :: rest := hrem
    simp [hflow.uncancelled]
  | awaitingWindow other work =>
    rw [hd] at hwindow
    have : s.windowUsed < job.limits.dispatchLookahead := hwindow ▸ hjob.limits_pos.2.2
    simp [hflow.uncancelled, this]
  | reserving other work =>
    rw [hd] at hrem hused
    obtain ⟨rfl, rfl⟩ := List.cons.inj hrem
    have hnone : s.used = .default := ext_get hused
    simp [acquire, hflow.uncancelled, hnone, hjob.fits _ hitem]
  | sending other work =>
    have hlt : s.queue.length < job.workerCount := by
      rw [hq]
      exact hjob.workerCount_pos hitem
    dsimp only
    rw [if_neg hx, if_pos hlt]
    simp
  | done => rw [hd] at hrem; cases hrem

/-- A promotion that fits beside the permits held is granted. -/
theorem promoteStep_isSome (hu : s.cancelled = false) {i : Nat} {item : WorkItem τ}
    {context : PrepareContext} {required missing : ResourceWeights} {operation : Preparation α}
    {next : Result (PreparedItem α) → Preparation α} {frames : List (Frame α)}
    (hf : fits s.used missing job.limits.budget = true) :
    promoteStep job s i item context required missing operation next frames ≠ none := by
  unfold promoteStep acquire
  rw [if_neg (by simp [hu]), if_pos hf]
  split
  · next h =>
    split at h
    · cases h
    · cases h
  · simp
  · simp

/-- A halted execution waits for a promotion of the lowest undelivered item. -/
theorem halted_head (hjob : job.Admitted) (hflow : Flow job s taken sent) (hacc : Accounts s)
    {item : WorkItem τ} (hi : job.items[s.nextIndex]? = some item)
    (hstuck : Transition.Stuck (act job) s) :
    (∀ worker ∈ s.workers, worker.Stalled s.queue) ∧
      ∃ context required missing operation next frames,
        Worker.waiting item context required missing operation next frames ∈ s.workers := by
  obtain ⟨hc, hr, hx⟩ := halted_coordinator hflow (hstuck .coordinator)
  have hworker := fun worker (hm : worker ∈ s.workers) =>
    halted_worker hjob hm hr hflow.open_ fun i => hstuck (.worker i)
  refine ⟨fun worker hm => (hworker worker hm).1, ?_⟩
  obtain ⟨item', hi', hpending⟩ := hflow.receiving hc
  obtain rfl : item' = item := Option.some.inj (hi'.symm.trans hi)
  by_cases htaken : s.nextIndex < taken
  · -- the item is in flight, and a worker that is stalled has it
    have hm := hflow.mem_inFlight hi htaken
    simp only [State.inFlight, hr, List.nil_append, List.mem_append, List.mem_map,
      List.mem_filterMap] at hm
    rcases hm with ⟨other, ⟨worker, hm, ho⟩, he⟩ | ⟨output, hm, ho⟩
    · have hstalled := (hworker worker hm).1
      cases worker with
      | waiting _ context required missing operation next frames =>
        obtain rfl : _ = other := Option.some.inj ho
        have hmem := (hflow.workers _ hm).1
        rw [hjob.ordinal_inj hmem (List.mem_of_getElem? hi) he] at hm
        exact ⟨context, required, missing, operation, next, frames, hm⟩
      | receiving => cases ho
      | exited => cases ho
      | starting => exact hstalled.elim
      | running => exact hstalled.elim
      | sending => exact hstalled.elim
    · exact absurd ho (hpending output hm)
  · -- nothing is in flight, so the dispatcher has to move
    exfalso
    have hnone : s.inFlight = [] := by
      have := hflow.inFlight
      rw [List.drop_eq_nil_of_le (by rw [List.length_take]; omega), List.map_nil] at this
      exact List.perm_nil.mp this
    simp only [State.inFlight, hr, List.nil_append, List.append_eq_nil_iff, List.map_eq_nil_iff,
      List.filterMap_eq_nil_iff] at hnone
    obtain ⟨hidle, hp⟩ := hnone
    obtain ⟨worker, hm, hlive⟩ : ∃ worker ∈ s.workers, worker.isExited = false := by
      simpa using hx
    obtain ⟨hq, hd⟩ : s.queue = [] ∧ s.dispatcher.isDone = false := by
      rcases (hworker worker hm).2 with h | h | h
      · rw [hlive] at h; cases h
      · rw [hidle worker hm] at h; cases h
      · exact h
    have hsent : sent = s.nextIndex := by
      have hqueue := hflow.queue
      obtain ⟨hn, ht, hle⟩ := hflow.order
      rw [hq, List.map_nil] at hqueue
      have := List.drop_eq_nil_iff.mp hqueue.symm
      rw [List.length_take] at this
      omega
    have hrem : s.dispatcher.remaining = item' :: job.items.drop (s.nextIndex + 1) := by
      obtain ⟨hlt, rfl⟩ := List.getElem?_eq_some_iff.mp hi
      rw [hflow.remaining, hsent]
      exact List.drop_eq_getElem_cons hlt
    refine idle_dispatcher hjob hflow hacc hrem hq ?_ hr hp hx (hstuck .dispatcher)
    intro other hm
    have hstalled := (hworker other hm).1
    have hnone := hidle other hm
    cases other with
    | receiving => exact ⟨rfl, rfl⟩
    | exited => exact ⟨rfl, rfl⟩
    | _ => cases hnone

end Halt

/-- **Progress.** Whatever was scheduled before, an uncancelled execution with
an undelivered item can go on if the lowest undelivered item has head room. -/
theorem execute_progresses {job : Job τ α} {work : List (WorkItem τ)} {s : State τ α}
    (hwork : admitWork job.limits work = .ok job.items)
    (hs : Transition.Reachable (act job) job.start s) (hu : s.cancelled = false)
    (hn : s.nextIndex < job.items.length) (hroom : HeadRoom job s) :
    ∃ a t, act job a s = some t := by
  have hjob := admitted_of_admitWork hwork
  obtain ⟨item, hi⟩ : ∃ item, job.items[s.nextIndex]? = some item :=
    ⟨_, List.getElem?_eq_getElem hn⟩
  have hacc := reachable_accounts hs
  rcases reachable_flow hjob hs with ⟨taken, sent, hflow⟩ | ⟨_, _, hstop, _⟩
  · refine Transition.not_stuck fun hstuck => ?_
    obtain ⟨hstalled, context, required, missing, operation, next, frames, hm⟩ :=
      halted_head hjob hflow hacc hi hstuck
    have hfits := hroom hstalled item hi context required missing operation next frames hm
    rw [← show s.used = s.held from ext_get hacc.used] at hfits
    obtain ⟨i, hw⟩ := List.mem_iff_getElem?.mp hm
    have hblocked := hstuck (.worker i)
    simp only [act, workerStep, hw] at hblocked
    exact promoteStep_isSome hu hfits hblocked
  · rcases hstop with hc | hle
    · rw [hu] at hc
      cases hc
    · omega

/-- One worker and a window of two. The first item promotes its reservation, the
second one reserves everything when it is dispatched. -/
def promotionJob : Job Nat Unit where
  limits := ⟨1, 2, 1, 2, 10, 10, 10⟩
  items := [⟨0, 0, ⟨0, 0, 4⟩⟩, ⟨1, 1, ⟨10, 0, 4⟩⟩]
  prepare := fun value => if value = 0 then
      .withResources ⟨10, 0, 4⟩ (.done (.ok ⟨(), 4⟩)) .done
    else .done (.ok ⟨(), 4⟩)
  deliver := fun _ _ => .ok ()

/-- The first item asks for its promotion before the second one is dispatched. -/
def promotedSchedule : List Action :=
  [.coordinator, .dispatcher, .dispatcher, .dispatcher, .dispatcher, .worker 0, .worker 0,
    .worker 0]

theorem execute_progresses_promotion : ∃ s,
    Transition.run (act promotionJob) promotedSchedule promotionJob.start = some s ∧
      HeadRoom promotionJob s ∧ ∃ a t, act promotionJob a s = some t := by
  obtain ⟨s, hs, hu, hn, hw, hheld⟩ : ∃ s,
      Transition.run (act promotionJob) promotedSchedule promotionJob.start = some s ∧
      s.cancelled = false ∧ s.nextIndex < promotionJob.items.length ∧
      (∃ item context required operation next frames, s.workers =
        [.waiting item context required ⟨10, 0, 0⟩ operation next frames]) ∧
      s.held = ⟨0, 0, 4⟩ :=
    ⟨_, rfl, rfl, by decide, ⟨_, _, _, _, _, _, rfl⟩, rfl⟩
  have hwork : admitWork promotionJob.limits promotionJob.items = .ok promotionJob.items := by
    decide +kernel
  have hroom : HeadRoom promotionJob s := by
    intro _ item _ context required missing operation next frames hm
    obtain ⟨_, _, _, _, _, _, hw⟩ := hw
    rw [hw, List.mem_singleton] at hm
    obtain ⟨-, -, -, rfl, -⟩ := Worker.waiting.inj hm
    rw [hheld]
    rfl
  exact ⟨s, hs, hroom, execute_progresses hwork (Transition.reachable_of_run hs) hu hn hroom⟩

/-- The second item is dispatched while the first one is on its way to the
promotion. -/
def haltingSchedule : List Action :=
  [.coordinator, .dispatcher, .dispatcher, .dispatcher, .dispatcher, .worker 0, .dispatcher,
    .dispatcher, .dispatcher, .dispatcher, .dispatcher, .worker 0, .worker 0]

/-- The only worker waits in the callback of the first item, and nothing moves. -/
theorem promotion_stuck : ∃ s,
    Transition.run (act promotionJob) haltingSchedule promotionJob.start = some s ∧
    s.cancelled = false ∧ s.nextIndex < promotionJob.items.length ∧
    s.coordinator = .receiving ∧ Transition.Stuck (act promotionJob) s := by
  obtain ⟨s, hs, hu, hn, hc, hr, hd, ⟨item, context, required, operation, next, frames, hw⟩,
      hused⟩ : ∃ s,
      Transition.run (act promotionJob) haltingSchedule promotionJob.start = some s ∧
      s.cancelled = false ∧ s.nextIndex < promotionJob.items.length ∧
      s.coordinator = .receiving ∧ s.results = [] ∧ s.dispatcher = .done ∧
      (∃ item context required operation next frames, s.workers =
        [.waiting item context required ⟨10, 0, 0⟩ operation next frames]) ∧
      s.used = ⟨10, 0, 8⟩ :=
    ⟨_, rfl, rfl, by decide, rfl, rfl, rfl, ⟨_, _, _, _, _, _, rfl⟩, rfl⟩
  have hwait : acquire promotionJob.limits.budget ⟨10, 0, 8⟩ ⟨10, 0, 0⟩ false = none := by decide
  refine ⟨s, hs, hu, hn, hc, fun a => ?_⟩
  cases a with
  | dispatcher => simp [act, dispatcherStep, hd]
  | worker i =>
    cases i with
    | zero => simp [act, workerStep, hw, promoteStep, hused, hu, hwait]
    | succ i => simp [act, workerStep, hw]
  | cancellation i =>
    cases i with
    | zero => simp [act, observeCancellation, hw]
    | succ i => simp [act, observeCancellation, hw]
  | coordinator => simp [act, coordinatorStep, hc, hr, hw, Worker.isExited]

/-- **A deadlock.** The first item waits for the source bytes of the second one,
which waits in the work channel for the only worker. -/
theorem promotion_deadlocks : ∃ s,
    admitWork promotionJob.limits promotionJob.items = .ok promotionJob.items ∧
    Transition.Reachable (act promotionJob) promotionJob.start s ∧
    s.cancelled = false ∧ s.nextIndex < promotionJob.items.length ∧
    ¬∃ a t, act promotionJob a s = some t := by
  obtain ⟨s, hs, hu, hn, _, hstuck⟩ := promotion_stuck
  refine ⟨s, by decide +kernel, Transition.reachable_of_run hs, hu, hn, ?_⟩
  rintro ⟨a, t, ha⟩
  rw [hstuck a] at ha
  cases ha

end ModelWeights.Pipeline
