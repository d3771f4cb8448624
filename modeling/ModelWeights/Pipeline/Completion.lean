import ModelWeights.Pipeline.Termination
import ModelWeights.Pipeline.Progress
import ModelWeights.Pipeline.Window
import ModelWeights.Pipeline.Outcome

/-! # Completion

Where the executions end. A cancelled execution winds down: every thread leaves, and
only items that nobody took still hold permits. An execution that nobody cancels does
the same with the result of the sequential one, unless the promotion that its lowest
undelivered item waits for does not fit beside the permits of the others. -/
namespace ModelWeights.Pipeline
open ResourceWeights
variable {τ α : Type}

/-- Every thread has left. What is still in the work channel is dropped with it. -/
structure WoundDown (s : State τ α) : Prop where
  dispatcher : s.dispatcher = .done
  workers : ∀ worker ∈ s.workers, worker.isExited = true
  coordinator : Returned s
  results : s.results = []
  pending : s.pending = []
  used : ∀ d, s.used.get d = (totalWeights (s.queue.map QueuedWork.reservation)).get d
  window : s.windowUsed = s.queue.length

/-- What the work channel is dropped with are the last permits. -/
theorem WoundDown.dropQueue {s : State τ α} (h : WoundDown s) :
    s.dropQueue.used = .default ∧ s.dropQueue.windowUsed = 0 := by
  refine ⟨ext_get fun d => ?_, ?_⟩
  · show (subtractWeights s.used _).get d = _
    rw [get_subtractWeights, h.used d, get_default, Nat.sub_self]
  · show s.windowUsed - s.queue.length = 0
    rw [h.window, Nat.sub_self]

section Halt
variable {job : Job τ α} {s t : State τ α}

theorem Less.irrefl : ¬State.Less s s :=
  fun h => wellFounded_rankLess.irrefl.irrefl _ (rankLess_of_less h id)

/-- In a halted state no thread has a step, except that a callback may see again that
it is cancelled. -/
structure Blocked (job : Job τ α) (s : State τ α) : Prop where
  dispatcher : dispatcherStep job s = none
  worker : ∀ i, workerStep job i s = none
  coordinator : coordinatorStep job s = none

theorem less_workerStep {i : Nat} (h : workerStep job i s = some t) : State.Less t s := by
  rcases workerStep_cases h with hm | ⟨_, hq⟩
  · exact less_workerMove hm
  · cases hq with
    | observe item context script frames hw =>
      unfold workerStep at h
      rw [hw] at h
      exact Option.some.inj h ▸ less_runStep hw
    | start item reservation hw => exact Less.stage hw (Nat.lt_succ_self 6)
    | refuse item context required missing operation next frames hw =>
      exact Less.callback hw rfl (.refuse _ operation next _)
    | disconnect item output result hw hc =>
      exact Less.blind (Less.stage (v := .exited) hw (Nat.zero_lt_succ 4)) rfl rfl

theorem blocked_of_halted (h : Transition.Halted (act job) s) : Blocked job s := by
  have hnone : ∀ {a : Action}, (∀ t, act job a s = some t → State.Less t s) →
      act job a s = none := by
    intro a hless
    cases ha : act job a s with
    | none => rfl
    | some t =>
      have hlt := hless t ha
      rw [h a t ha] at hlt
      exact absurd hlt Less.irrefl
  refine ⟨hnone (a := .dispatcher) fun t ht => ?_, fun i => hnone (a := .worker i) fun t ht =>
    less_workerStep ht, hnone (a := .coordinator) fun t ht =>
    less_coordinatorMove (coordinatorStep_move ht)⟩
  rcases dispatcherStep_cases ht with hm | ⟨_, hq⟩
  · exact less_dispatcherMove hm
  · exact less_dispatcherQuit hq

/-- An open execution that is halted blocks every thread that has seen the token. -/
theorem halted_of_open (h : Transition.Halted (openAct job) s) : Transition.Halted (act job) s :=
  fun _ t ha => h _ t (openAct_thread ha)

/-! ## Threads that are blocked -/

theorem acquire_cancelled (limit used requested : ResourceWeights) :
    acquire limit used requested true = some (.error .cancelled) := rfl

/-- A worker blocks on a channel, or on the budget if nothing is cancelled. -/
theorem Blocked.worker_cases (h : Blocked job s) {worker : Worker τ α} (hm : worker ∈ s.workers) :
    worker.isExited = true ∨ s.queue = [] ∧ s.dispatcher.isDone = false ∨
      (¬Returned s ∧ job.limits.deliveryQueueDepth ≤ s.results.length) ∨
      s.cancelled = false ∧ worker.item?.isSome = true := by
  obtain ⟨i, hi⟩ := List.mem_iff_getElem?.mp hm
  have hstep := h.worker i
  unfold workerStep at hstep
  rw [hi] at hstep
  cases worker with
  | receiving =>
    dsimp only at hstep
    cases hq : s.queue with
    | cons queued rest => rw [hq] at hstep; cases hstep
    | nil =>
      rw [hq] at hstep
      dsimp only at hstep
      split at hstep
      · cases hstep
      · next hd => exact .inr (.inl ⟨rfl, by simpa using hd⟩)
  | starting item reservation => cases hstep
  | running item context script frames => cases hstep
  | waiting item context required missing operation next frames =>
    refine .inr (.inr (.inr ⟨?_, rfl⟩))
    by_contra hc
    rw [Bool.not_eq_false] at hc
    dsimp only [promoteStep] at hstep
    rw [hc, acquire_cancelled] at hstep
    cases hstep
  | sending item output =>
    refine .inr (.inr (.inl ?_))
    cases hc : s.coordinator with
    | finished result => rw [hc] at hstep; cases hstep
    | receiving | draining =>
      rw [hc] at hstep
      dsimp only at hstep
      split at hstep
      · cases hstep
      · next hlt =>
        refine ⟨fun hreturned => ?_, Nat.le_of_not_lt hlt⟩
        obtain ⟨result, hr⟩ := hreturned
        rw [hc] at hr
        cases hr
  | exited => exact .inl rfl

/-- The coordinator blocks on the empty result channel, or has returned. -/
theorem Blocked.coordinator_cases (h : Blocked job s) :
    Returned s ∨ s.results = [] ∧ ¬s.workers.all Worker.isExited = true := by
  have hstep := h.coordinator
  unfold coordinatorStep at hstep
  cases hc : s.coordinator with
  | finished result => exact .inl ⟨result, hc⟩
  | receiving =>
    rw [hc] at hstep
    dsimp only at hstep
    cases hr : s.results with
    | nil =>
      rw [hr] at hstep
      dsimp only at hstep
      split at hstep
      · cases hstep
      · next hx => exact .inr ⟨rfl, hx⟩
    | cons output rest =>
      rw [hr] at hstep
      dsimp only at hstep
      split at hstep <;> cases hstep
  | draining =>
    rw [hc] at hstep
    dsimp only at hstep
    split at hstep
    · cases hstep
    · split at hstep <;> cases hstep

/-- The dispatcher blocks on the full work channel, or on the window and the budget if
nothing is cancelled. -/
theorem Blocked.dispatcher_cases (h : Blocked job s) : s.dispatcher = .done ∨
    (¬s.workers.all Worker.isExited = true ∧ job.workerCount ≤ s.queue.length) ∨
    s.cancelled = false ∧ s.dispatcher.remaining ≠ [] := by
  have hstep := h.dispatcher
  unfold dispatcherStep at hstep
  cases hd : s.dispatcher with
  | next rest =>
    rw [hd] at hstep
    cases rest with
    | nil => cases hstep
    | cons item rest => dsimp only at hstep; split at hstep <;> cases hstep
  | awaitingWindow item rest =>
    rw [hd] at hstep
    dsimp only at hstep
    split at hstep
    · cases hstep
    · next hc => exact .inr (.inr ⟨by simpa using hc, fun h => by cases h⟩)
  | reserving item rest =>
    rw [hd] at hstep
    refine .inr (.inr ⟨?_, fun h => by cases h⟩)
    by_contra hc
    rw [Bool.not_eq_false] at hc
    dsimp only at hstep
    rw [hc, acquire_cancelled] at hstep
    cases hstep
  | sending item rest =>
    rw [hd] at hstep
    dsimp only at hstep
    split at hstep
    · cases hstep
    · next hx =>
      split at hstep
      · cases hstep
      · next hq => exact .inr (.inl ⟨hx, Nat.le_of_not_lt hq⟩)
  | done => exact .inl rfl

/-- Without a wait for the budget, all threads that are blocked have left. -/
theorem Blocked.left (hjob : job.Admitted) (hbound : Bounded job s) (h : Blocked job s)
    (hworkers : ∀ worker ∈ s.workers, s.cancelled = false → worker.item?.isSome = false)
    (hdispatcher : s.cancelled = false → s.dispatcher.remaining = []) :
    s.dispatcher = .done ∧ (∀ worker ∈ s.workers, worker.isExited = true) ∧ Returned s := by
  have hdepth := hjob.limits_pos.2.1
  have hexited : ∀ worker ∈ s.workers, worker.isExited = true := by
    intro worker hm
    rcases h.worker_cases hm with hx | ⟨hq, hd⟩ | ⟨hopen, hfull⟩ | ⟨hc, hitem⟩
    · exact hx
    · -- the dispatcher would be blocked on a full channel, which is empty
      exfalso
      rcases h.dispatcher_cases with hdone | ⟨_, hfull⟩ | ⟨hc, hrem⟩
      · rw [hdone] at hd
        cases hd
      · rw [hq, ← hbound.workers] at hfull
        exact absurd (List.length_pos_of_mem hm) (Nat.not_lt.mpr hfull)
      · exact hrem (hdispatcher hc)
    · exfalso
      rcases h.coordinator_cases with hreturned | ⟨hr, _⟩
      · exact hopen hreturned
      · rw [hr] at hfull
        exact absurd hdepth (Nat.not_lt.mpr hfull)
    · rw [hworkers worker hm hc] at hitem
      cases hitem
  have hall : s.workers.all Worker.isExited = true := List.all_eq_true.mpr hexited
  refine ⟨?_, hexited, ?_⟩
  · rcases h.dispatcher_cases with hdone | ⟨hx, _⟩ | ⟨hc, hrem⟩
    · exact hdone
    · exact absurd hall hx
    · exact absurd (hdispatcher hc) hrem
  · rcases h.coordinator_cases with hreturned | ⟨_, hx⟩
    · exact hreturned
    · exact absurd hall hx

end Halt

/-! ## Cancelled executions -/

section Cancelled
variable {job : Job τ α} {s t : State τ α}

/-- A coordinator that has returned has dropped both of its collections. -/
def Closed (s : State τ α) : Prop := Returned s → s.results = [] ∧ s.pending = []

theorem closed_workerStep {i : Nat} (hs : Closed s) (h : workerStep job i s = some t) :
    Closed t := by
  intro hreturned
  obtain ⟨result, hc⟩ := hreturned
  have hreturned : s.coordinator = .finished result := (workerStep_keeps h).coordinator ▸ hc
  obtain ⟨hr, hp⟩ := hs ⟨result, hreturned⟩
  rcases workerStep_cases h with hm | ⟨_, hq⟩
  · cases hm with
    | receive | exit | start | refuse | promote => exact ⟨hr, hp⟩
    | run item context script frames hw =>
      have hsame : (runStep s i item context script frames).results = s.results ∧
          (runStep s i item context script frames).pending = s.pending := by
        unfold runStep
        split
        · exact ⟨rfl, rfl⟩
        · exact ⟨rfl, rfl⟩
        · exact ⟨rfl, rfl⟩
        · dsimp only
          split
          · exact ⟨rfl, rfl⟩
          · split <;> exact ⟨rfl, rfl⟩
      exact ⟨hsame.1.trans hr, hsame.2.trans hp⟩
    | send item output hw hlt =>
      -- a send after the return would have failed
      exfalso
      unfold workerStep at h
      rw [hw] at h
      dsimp only at h
      rw [hreturned] at h
      have hworkers := congrArg State.results (Option.some.inj h)
      simp [State.releaseWindow, State.release, State.setWorker] at hworkers
  · cases hq with
    | start | observe | refuse | disconnect => exact ⟨hr, hp⟩

theorem closed_act {a : Action} (hs : Closed s) (h : act job a s = some t) : Closed t := by
  cases a with
  | dispatcher =>
    have hsame : t.results = s.results ∧ t.pending = s.pending ∧
        t.coordinator = s.coordinator := by
      rcases dispatcherStep_cases h with hm | ⟨_, hq⟩
      · cases hm <;> exact ⟨rfl, rfl, rfl⟩
      · cases hq <;> exact ⟨rfl, rfl, rfl⟩
    intro hreturned
    unfold Returned at hreturned
    rw [hsame.2.2] at hreturned
    rw [hsame.1, hsame.2.1]
    exact hs hreturned
  | worker i => exact closed_workerStep hs h
  | cancellation i =>
    cases observeCancellation_quit h with
    | start | observe | refuse | disconnect => exact hs
  | coordinator =>
    intro hreturned
    obtain ⟨result, hfinished⟩ := hreturned
    cases coordinatorStep_move h with
    | receive output rest hc hr hnew => cases hfinished
    | wait item hc hi hp => cases hfinished
    | duplicate | disconnect | complete => exact ⟨rfl, rfl⟩
    | deliver item output rest hc hi hp ho =>
      unfold deliverOutput at hfinished ⊢
      split at hfinished
      · exact ⟨rfl, rfl⟩
      · dsimp only at hfinished ⊢
        split at hfinished
        · exact ⟨rfl, rfl⟩
        · change s.coordinator = _ at hfinished
          rw [hc] at hfinished
          cases hfinished

theorem open_closed (h : Transition.Reachable (openAct job) job.start s) : Closed s := by
  refine open_invariant (I := Closed) (fun _ _ hs => hs) (fun _ _ _ _ _ hs ha => closed_act hs ha)
    ?_ h
  intro hreturned
  obtain ⟨result, hc⟩ := hreturned
  cases hc

/-- Threads that have all left hold nothing. -/
theorem woundDown_of_left (hacc : Accounts s) (hclosed : Closed s) (hd : s.dispatcher = .done)
    (hw : ∀ worker ∈ s.workers, worker.isExited = true) (hc : Returned s) : WoundDown s := by
  obtain ⟨hr, hp⟩ := hclosed hc
  have hidle : ∀ worker ∈ s.workers, worker.held = .default ∧ worker.window = 0 := by
    intro worker hm
    have hx := hw worker hm
    cases worker with
    | exited => exact ⟨rfl, rfl⟩
    | receiving | starting | running | waiting | sending => cases hx
  have hheld : ∀ d, (s.workers.map fun worker => worker.held.get d).sum = 0 := by
    intro d
    refine List.sum_eq_zero fun n hn => ?_
    obtain ⟨worker, hm, rfl⟩ := List.mem_map.mp hn
    rw [(hidle worker hm).1, get_default]
  have hplaces : (s.workers.map Worker.window).sum = 0 := by
    refine List.sum_eq_zero fun n hn => ?_
    obtain ⟨worker, hm, rfl⟩ := List.mem_map.mp hn
    exact (hidle worker hm).2
  refine ⟨hd, hw, hc, hr, hp, fun d => ?_, ?_⟩
  · rw [hacc.used d]
    simp [State.held, hd, hr, hp, Dispatcher.held, List.map_map, Function.comp_def, hheld]
  · rw [hacc.window]
    simp [State.window, hd, hr, hp, Dispatcher.window, hplaces]

theorem cancelled_kept {a : OpenAction τ α} (h : openAct job a s = some t)
    (hc : s.cancelled = true) : t.cancelled = true := by
  obtain rfl | ⟨prepare, deliver, action, seen, u, _, rfl⟩ := openAct_cases h
  · rfl
  · show (s.cancelled || u.cancelled) = true
    rw [hc, Bool.true_or]

/-- **A cancelled execution winds down.** Whatever its callbacks and its threads did
before, it comes to an end after every schedule, and there every thread has left and
only items that nobody took hold permits. -/
theorem cancelled_winds_down {work : List (WorkItem τ)}
    (hwork : admitWork job.limits work = .ok job.items)
    (hs : Transition.Reachable (openAct job) job.start s) (hc : s.cancelled = true) :
    (∃ t, Transition.Reachable (openAct job) s t ∧ Transition.Halted (openAct job) t) ∧
      ∀ t, Transition.Reachable (openAct job) s t → Transition.Halted (openAct job) t →
        WoundDown t := by
  have hterminates : Transition.Terminates (openAct job) :=
    Transition.terminates_of_rank wellFounded_rankLess State.rank fun _ _ _ => rankLess_openAct
  refine ⟨hterminates.halts s, fun t hst hhalted => ?_⟩
  have ht : Transition.Reachable (openAct job) job.start t := hs.trans hst
  have hcancelled : t.cancelled = true :=
    hst.invariant (I := fun u => u.cancelled = true) hc fun _ _ _ hu ha => cancelled_kept ha hu
  have hblocked := blocked_of_halted (halted_of_open hhalted)
  obtain ⟨hd, hw, hreturned⟩ := hblocked.left (admitted_of_admitWork hwork) (open_bounded ht)
    (fun _ _ hu => by rw [hcancelled] at hu; cases hu)
    (fun hu => by rw [hcancelled] at hu; cases hu)
  exact woundDown_of_left (open_accounts ht) (open_closed ht) hd hw hreturned

/-- The deadlock of a promotion ends when it is cancelled. -/
theorem cancelled_winds_down_promotion : ∃ s,
    Transition.run (act promotionJob) haltingSchedule promotionJob.start = some s ∧
      (∃ t, Transition.Reachable (openAct promotionJob) s.cancel t ∧
        Transition.Halted (openAct promotionJob) t) ∧
      ∀ t, Transition.Reachable (openAct promotionJob) s.cancel t →
        Transition.Halted (openAct promotionJob) t → WoundDown t := by
  have hwork : admitWork promotionJob.limits promotionJob.items = .ok promotionJob.items := by
    decide +kernel
  obtain ⟨s, hs⟩ : ∃ s,
      Transition.run (act promotionJob) haltingSchedule promotionJob.start = some s := ⟨_, rfl⟩
  have hreach : Transition.Reachable (openAct promotionJob) promotionJob.start s.cancel :=
    (reachable_open (Transition.reachable_of_run hs)).tail ⟨.cancel, rfl⟩
  exact ⟨s, hs, cancelled_winds_down hwork hreach rfl⟩

end Cancelled

/-! ## Executions that nobody cancels -/

section Complete
variable {job : Job τ α} {s t : State τ α} {taken sent : Nat}

/-- Nothing is left of the work. -/
structure Spent (s : State τ α) : Prop where
  queue : s.queue = []
  workers : ∀ worker ∈ s.workers, worker.item?.isSome = false
  dispatcher : s.dispatcher.remaining = []

/-- A coordinator that has returned without a cancellation has delivered everything. -/
def Delivered (s : State τ α) : Prop := Returned s → s.cancelled = false → Spent s

theorem Flow.spent (h : Flow job s taken sent) (hi : job.items[s.nextIndex]? = none) : Spent s := by
  have hle := List.getElem?_eq_none_iff.mp hi
  obtain ⟨hn, ht, hsent⟩ := h.order
  have hqueue := h.queue
  have hflight := h.inFlight
  rw [List.drop_eq_nil_of_le (by rw [List.length_take]; omega)] at hqueue hflight
  have hnone := List.perm_nil.mp hflight
  simp only [State.inFlight, List.append_eq_nil_iff, List.map_eq_nil_iff,
    List.filterMap_eq_nil_iff] at hnone
  refine ⟨List.map_eq_nil_iff.mp hqueue, fun worker hm => ?_, ?_⟩
  · rw [hnone.1 worker hm]
    rfl
  · rw [h.remaining]
    exact List.drop_eq_nil_of_le (by omega)

theorem Spent.step (h : Spent s) (hc : Returned s) (hu : s.cancelled = false) {a : Action}
    (hs : act job a s = some t) : Spent t := by
  obtain ⟨result, hc⟩ := hc
  cases a with
  | dispatcher =>
    have hrem := h.dispatcher
    cases dispatcherStep_move hu hs with
    | finish hd => exact ⟨h.queue, h.workers, rfl⟩
    | take item rest hd | window item rest hd hw | refuse item rest hd hf
    | reserve item rest hd hf | disconnect item rest hd hx | send item rest hd hq =>
      rw [hd] at hrem
      cases hrem
  | worker i =>
    have hset : ∀ {worker worker' : Worker τ α}, s.workers[i]? = some worker →
        worker'.item?.isSome = false →
        ∀ w ∈ s.workers.set i worker', w.item?.isSome = false := by
      intro worker worker' _ hnone w hm
      rcases List.mem_or_eq_of_mem_set hm with hm | rfl
      · exact h.workers w hm
      · exact hnone
    have hbusy : ∀ {worker : Worker τ α}, s.workers[i]? = some worker →
        worker.item?.isSome = true → False := by
      intro worker hw hsome
      rw [h.workers worker (List.mem_of_getElem? hw)] at hsome
      cases hsome
    rcases workerStep_cases hs with hm | ⟨_, hq⟩
    · cases hm with
      | receive queued rest hw hqueue =>
        rw [h.queue] at hqueue
        cases hqueue
      | exit hw hqueue hd => exact ⟨h.queue, hset hw rfl, h.dispatcher⟩
      | start item reservation hw => exact (hbusy hw rfl).elim
      | run item context script frames hw => exact (hbusy hw rfl).elim
      | refuse item context required missing operation next frames hw hf =>
        exact (hbusy hw rfl).elim
      | promote item context required missing operation next frames hw hl hf =>
        exact (hbusy hw rfl).elim
      | send item output hw hr => exact (hbusy hw rfl).elim
    · cases hq with
      | start item reservation hw => exact (hbusy hw rfl).elim
      | observe item context script frames hw => exact (hbusy hw rfl).elim
      | refuse item context required missing operation next frames hw => exact (hbusy hw rfl).elim
      | disconnect item output result hw hc => exact (hbusy hw rfl).elim
  | cancellation i =>
    have := (observeCancellation_keeps hs).1
    rw [hu] at this
    cases this
  | coordinator =>
    simp only [act, coordinatorStep, hc] at hs
    cases hs

/-- A delivery that ends the execution cancels it. -/
theorem deliverOutput_cases (job : Job τ α) (s : State τ α) (output : WorkerOutput α) :
    (deliverOutput job s output).cancelled = true ∨
      (deliverOutput job s output).coordinator = s.coordinator := by
  unfold deliverOutput
  split
  · exact .inl rfl
  · dsimp only
    split
    · exact .inl rfl
    · exact .inr rfl

/-- The only way to return without a cancellation is to have delivered everything. -/
theorem delivered_coordinator (hflow : Flow job s taken sent) (hm : CoordinatorMove job s t) :
    Delivered t := by
  intro hreturned hu
  obtain ⟨result, hfinished⟩ := hreturned
  cases hm with
  | receive output rest hc hr hnew => cases hfinished
  | wait item hc hi hp => cases hfinished
  | duplicate output other rest hc hr hm ho => cases hu
  | disconnect hc hr hx => cases hu
  | complete hc hi =>
    obtain ⟨hqueue, hworkers, hrem⟩ := hflow.spent hi
    exact ⟨hqueue, hworkers, hrem⟩
  | deliver item output rest hc hi hp ho =>
    rcases deliverOutput_cases job { s with pending := rest } output with hcancelled | hsame
    · rw [hcancelled] at hu
      cases hu
    · rw [hsame] at hfinished
      change s.coordinator = _ at hfinished
      rw [hc] at hfinished
      cases hfinished

theorem reachable_spent (hjob : job.Admitted)
    (h : Transition.Reachable (act job) job.start s) : Delivered s := by
  induction h with
  | refl =>
    intro hreturned
    obtain ⟨result, hc⟩ := hreturned
    cases hc
  | @tail u t hu hstep ih =>
    obtain ⟨a, ha⟩ := hstep
    rcases reachable_flow hjob hu with ⟨taken, sent, hflow⟩ | ⟨result, hc, _⟩
    · cases a with
      | coordinator => exact delivered_coordinator hflow (coordinatorStep_move ha)
      | dispatcher =>
        intro hreturned
        obtain ⟨result, hc⟩ := hreturned
        exact absurd ((dispatcherStep_keeps ha).coordinator ▸ hc) (hflow.open_ result)
      | worker i =>
        intro hreturned
        obtain ⟨result, hc⟩ := hreturned
        exact absurd ((workerStep_keeps ha).coordinator ▸ hc) (hflow.open_ result)
      | cancellation i =>
        have := (observeCancellation_keeps ha).1
        rw [hflow.uncancelled] at this
        cases this
    · intro _ htoken
      have huncancelled : u.cancelled = false := by
        cases hcancelled : u.cancelled with
        | false => rfl
        | true =>
          have hkept := act_cancelled ha
          rw [hcancelled, Bool.true_or, htoken] at hkept
          cases hkept
      exact (ih ⟨result, hc⟩ huncancelled).step ⟨result, hc⟩ huncancelled ha

/-- The lowest undelivered item waits for a promotion that does not fit beside the
permits of the other items. -/
def Starved (job : Job τ α) (s : State τ α) : Prop :=
  s.cancelled = false ∧ ∃ item, job.items[s.nextIndex]? = some item ∧
    ∃ context required missing operation next frames,
      Worker.waiting item context required missing operation next frames ∈ s.workers ∧
        fits s.used missing job.limits.budget = false

theorem starved_of_flow (hjob : job.Admitted) (hflow : Flow job s taken sent) (hacc : Accounts s)
    (h : Blocked job s) : Starved job s := by
  have hstuck : Transition.Stuck (act job) s := by
    intro a
    cases a with
    | dispatcher => exact h.dispatcher
    | worker i => exact h.worker i
    | coordinator => exact h.coordinator
    | cancellation i =>
      cases hstep : observeCancellation i s with
      | none => exact hstep
      | some t =>
        have := (observeCancellation_keeps hstep).1
        rw [hflow.uncancelled] at this
        cases this
  obtain ⟨item, hi, _⟩ := hflow.receiving (halted_coordinator hflow h.coordinator).1
  obtain ⟨_, context, required, missing, operation, next, frames, hm⟩ :=
    halted_head hjob hflow hacc hi hstuck
  refine ⟨hflow.uncancelled, item, hi, context, required, missing, operation, next, frames, hm, ?_⟩
  by_contra hfits
  rw [Bool.not_eq_false] at hfits
  obtain ⟨i, hw⟩ := List.mem_iff_getElem?.mp hm
  have hblocked := h.worker i
  simp only [workerStep, hw] at hblocked
  exact promoteStep_isSome hflow.uncancelled hfits hblocked

theorem exists_halted (job : Job τ α) (s : State τ α) :
    ∃ t, Transition.Reachable (act job) s t ∧ Transition.Halted (act job) t := by
  refine Transition.Terminates.halts (Transition.terminates_of_rank wellFounded_rankLess
    State.rank fun a u v ha => ?_) s
  refine (less_act ha).imp id fun hless => rankLess_of_less hless fun hc => ?_
  rw [← act_cancelled ha, hc, Bool.true_or]

/-- All threads have left with the outcome of the sequential execution, and all permits
are returned when the work channel is dropped. Nothing is left in it unless the execution
was cancelled. -/
structure Completed (job : Job τ α) (s : State τ α) : Prop where
  down : WoundDown s
  ended : Ended job s
  returned : s.dropQueue.used = .default ∧ s.dropQueue.windowUsed = 0
  free : s.cancelled = false → s.used = .default ∧ s.windowUsed = 0

theorem halted_ends (hjob : job.Admitted) (hs : Transition.Reachable (act job) job.start s)
    (hhalted : Transition.Halted (act job) s) : Starved job s ∨ Completed job s := by
  have hblocked := blocked_of_halted hhalted
  have hacc := reachable_accounts hs
  have hopen := reachable_open hs
  rcases reachable_flow hjob hs with ⟨taken, sent, hflow⟩ | hended
  · exact .inl (starved_of_flow hjob hflow hacc hblocked)
  · have hspent := reachable_spent hjob hs
    have hreturned : Returned s := hended.imp fun _ h => h.1
    obtain ⟨hd, hw, _⟩ := hblocked.left hjob (open_bounded hopen)
      (fun worker hm hu => (hspent hreturned hu).workers worker hm)
      (fun hu => (hspent hreturned hu).dispatcher)
    have hdown := woundDown_of_left hacc (open_closed hopen) hd hw hreturned
    refine .inr ⟨hdown, hended, hdown.dropQueue, fun hu => ?_⟩
    have hqueue := (hspent hreturned hu).queue
    refine ⟨ext_get fun d => ?_, ?_⟩
    · rw [hdown.used d, hqueue]
      simp
    · rw [hdown.window, hqueue]
      rfl

/-- **Where an execution ends.** After every schedule it comes to an end. There it is
completed with the outcome of the sequential execution, or its lowest undelivered item
is starved of budget. -/
theorem execute_ends {work : List (WorkItem τ)}
    (hwork : admitWork job.limits work = .ok job.items)
    (hs : Transition.Reachable (act job) job.start s) :
    (∃ t, Transition.Reachable (act job) s t ∧ Transition.Halted (act job) t) ∧
      (Transition.Halted (act job) s → Starved job s ∨ Completed job s) :=
  ⟨exists_halted job s, halted_ends (admitted_of_admitWork hwork) hs⟩

/-- The promotion that deadlocks is an end of the second kind. -/
theorem execute_ends_promotion : ∃ s,
    Transition.run (act promotionJob) haltingSchedule promotionJob.start = some s ∧
      (∃ t, Transition.Reachable (act promotionJob) s t ∧
        Transition.Halted (act promotionJob) t) ∧
      Transition.Halted (act promotionJob) s ∧ Starved promotionJob s := by
  have hwork : admitWork promotionJob.limits promotionJob.items = .ok promotionJob.items := by
    decide +kernel
  obtain ⟨s, hs, _, _, hc, hstuck⟩ := promotion_stuck
  have hhalted : Transition.Halted (act promotionJob) s := by
    intro a t ha
    rw [hstuck a] at ha
    cases ha
  obtain ⟨hend, hcases⟩ := execute_ends hwork (Transition.reachable_of_run hs)
  rcases hcases hhalted with hstarved | hcompleted
  · exact ⟨s, hs, hend, hhalted, hstarved⟩
  · obtain ⟨result, hfinished, _⟩ := hcompleted.ended
    rw [hc] at hfinished
    cases hfinished

/-! ## Callbacks that reserve everything beforehand -/

/-- No callback asks for more than its item reserved. -/
def Job.Plain (job : Job τ α) : Prop := ∀ value, ∃ result, job.prepare value = .done result

/-- A worker on the way to the end of a callback that asks for nothing. -/
def Worker.Plain : Worker τ α → Prop
  | .running _ _ script frames => (∃ result, script = .done result) ∧ frames = []
  | .waiting _ _ _ _ _ _ _ => False
  | .receiving | .starting _ _ | .sending _ _ | .exited => True

theorem plain_step (hplain : job.Plain) (h : ∀ worker ∈ s.workers, worker.Plain) {a : Action}
    (hs : act job a s = some t) : ∀ worker ∈ t.workers, worker.Plain := by
  have hset : ∀ {i : Nat} {w : Worker τ α}, w.Plain → ∀ worker ∈ s.workers.set i w, worker.Plain := by
    intro i w hw worker hm
    rcases List.mem_or_eq_of_mem_set hm with hm | rfl
    · exact h worker hm
    · exact hw
  cases a with
  | dispatcher =>
    have hsame : t.workers = s.workers := by
      rcases dispatcherStep_cases hs with hm | ⟨_, hq⟩
      · cases hm <;> rfl
      · cases hq <;> rfl
    rwa [hsame]
  | worker i =>
    rcases workerStep_cases hs with hm | ⟨_, hq⟩
    · cases hm with
      | receive | exit | send => exact hset trivial
      | start item reservation hw => exact hset ⟨hplain item.value, rfl⟩
      | run item context script frames hw =>
        obtain ⟨⟨result, rfl⟩, rfl⟩ := h _ (List.mem_of_getElem? hw)
        exact hset trivial
      | refuse item context required missing operation next frames hw hf =>
        exact (h _ (List.mem_of_getElem? hw)).elim
      | promote item context required missing operation next frames hw hl hf =>
        exact (h _ (List.mem_of_getElem? hw)).elim
    · cases hq with
      | start => exact hset ⟨⟨_, rfl⟩, rfl⟩
      | observe item context script frames hw =>
        obtain ⟨_, rfl⟩ := h _ (List.mem_of_getElem? hw)
        exact hset ⟨⟨_, rfl⟩, rfl⟩
      | refuse item context required missing operation next frames hw =>
        exact (h _ (List.mem_of_getElem? hw)).elim
      | disconnect => exact hset trivial
  | cancellation i =>
    cases observeCancellation_quit hs with
    | start => exact hset ⟨⟨_, rfl⟩, rfl⟩
    | observe item context script frames hw =>
      obtain ⟨_, rfl⟩ := h _ (List.mem_of_getElem? hw)
      exact hset ⟨⟨_, rfl⟩, rfl⟩
    | refuse item context required missing operation next frames hw =>
      exact (h _ (List.mem_of_getElem? hw)).elim
    | disconnect => exact hset trivial
  | coordinator => rwa [coordinatorMove_workers (coordinatorStep_move hs)]

/-- **Total correctness** without promotions: under every schedule the execution comes to
an end, and there all threads have left with the outcome of the sequential execution. -/
theorem execute_total {work : List (WorkItem τ)}
    (hwork : admitWork job.limits work = .ok job.items) (hplain : job.Plain)
    (hs : Transition.Reachable (act job) job.start s) :
    (∃ t, Transition.Reachable (act job) s t ∧ Transition.Halted (act job) t) ∧
      (Transition.Halted (act job) s → Completed job s) := by
  refine ⟨exists_halted job s, fun hhalted =>
    (halted_ends (admitted_of_admitWork hwork) hs hhalted).resolve_left fun hstarved => ?_⟩
  have hworkers : ∀ worker ∈ s.workers, worker.Plain := by
    refine hs.invariant (I := fun u => ∀ worker ∈ u.workers, worker.Plain) ?_
      fun _ _ _ hu ha => plain_step hplain hu ha
    intro worker hm
    rw [List.eq_of_mem_replicate hm]
    trivial
  obtain ⟨_, _, _, _, _, _, _, _, _, hm, _⟩ := hstarved
  exact hworkers _ hm

/-- Two items on two workers, one of which fails. -/
theorem execute_total_pair : ∃ s,
    Transition.run (act pairJob) pairSchedule pairJob.start = some s ∧
      (∃ t, Transition.Reachable (act pairJob) s t ∧ Transition.Halted (act pairJob) t) ∧
      (Transition.Halted (act pairJob) s → Completed pairJob s) := by
  have hwork : admitWork pairJob.limits pairJob.items = .ok pairJob.items := by
    decide +kernel
  have hplain : pairJob.Plain := by
    intro value
    unfold pairJob
    dsimp only
    split
    · exact ⟨_, rfl⟩
    · exact ⟨_, rfl⟩
  obtain ⟨s, hs⟩ : ∃ s, Transition.run (act pairJob) pairSchedule pairJob.start = some s :=
    ⟨_, rfl⟩
  exact ⟨s, hs, execute_total hwork hplain (Transition.reachable_of_run hs)⟩

end Complete

end ModelWeights.Pipeline
