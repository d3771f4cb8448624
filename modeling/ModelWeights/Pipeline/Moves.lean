import ModelWeights.Pipeline.Machine

/-! # What a thread can do

One constructor for every step a thread takes while the token is not cancelled,
with the guards of the step and the state it leads to, and one for every step
on the way out of a cancelled or finished execution. The invariants of an
execution are proved by cases on these. -/
namespace ModelWeights.Pipeline
open ResourceWeights
variable {τ α : Type}

inductive DispatcherMove (job : Job τ α) (s : State τ α) : State τ α → Prop where
  | finish (hd : s.dispatcher = .next []) : DispatcherMove job s { s with dispatcher := .done }
  | take (item : WorkItem τ) (rest : List (WorkItem τ)) (hd : s.dispatcher = .next (item :: rest)) :
      DispatcherMove job s { s with dispatcher := .awaitingWindow item rest }
  | window (item : WorkItem τ) (rest : List (WorkItem τ))
      (hd : s.dispatcher = .awaitingWindow item rest)
      (hw : s.windowUsed < job.limits.dispatchLookahead) :
      DispatcherMove job s
        { s with windowUsed := s.windowUsed + 1, dispatcher := .reserving item rest }
  | refuse (item : WorkItem τ) (rest : List (WorkItem τ))
      (hd : s.dispatcher = .reserving item rest)
      (hf : fits .default item.resources job.limits.budget = false) :
      DispatcherMove job s ({ s with dispatcher := .done }).releaseWindow
  | reserve (item : WorkItem τ) (rest : List (WorkItem τ))
      (hd : s.dispatcher = .reserving item rest)
      (hf : fits s.used item.resources job.limits.budget = true) :
      DispatcherMove job s
        { s with used := addWeights s.used item.resources, dispatcher := .sending item rest }
  | disconnect (item : WorkItem τ) (rest : List (WorkItem τ))
      (hd : s.dispatcher = .sending item rest) (hx : s.workers.all Worker.isExited = true) :
      DispatcherMove job s (({ s with dispatcher := .done }).release item.resources).releaseWindow
  | send (item : WorkItem τ) (rest : List (WorkItem τ)) (hd : s.dispatcher = .sending item rest)
      (hq : s.queue.length < job.workerCount) :
      DispatcherMove job s { s with
        queue := s.queue ++ [⟨item, item.resources⟩], dispatcher := .next rest }

inductive WorkerMove (job : Job τ α) (s : State τ α) (i : Nat) : State τ α → Prop where
  | receive (queued : QueuedWork τ) (rest : List (QueuedWork τ))
      (hw : s.workers[i]? = some .receiving) (hq : s.queue = queued :: rest) :
      WorkerMove job s i
        (({ s with queue := rest }).setWorker i (.starting queued.item queued.reservation))
  | exit (hw : s.workers[i]? = some .receiving) (hq : s.queue = [])
      (hd : s.dispatcher.isDone = true) : WorkerMove job s i (s.setWorker i .exited)
  | start (item : WorkItem τ) (reservation : ResourceWeights)
      (hw : s.workers[i]? = some (.starting item reservation)) :
      WorkerMove job s i
        (s.setWorker i (.running item (.new reservation) (job.prepare item.value) []))
  | run (item : WorkItem τ) (context : PrepareContext) (script : Preparation α)
      (frames : List (Frame α)) (hw : s.workers[i]? = some (.running item context script frames)) :
      WorkerMove job s i (runStep s i item context script frames)
  | refuse (item : WorkItem τ) (context : PrepareContext) (required missing : ResourceWeights)
      (operation : Preparation α) (next : Result (PreparedItem α) → Preparation α)
      (frames : List (Frame α))
      (hw : s.workers[i]? = some (.waiting item context required missing operation next frames))
      (hf : fits .default missing job.limits.budget = false) :
      WorkerMove job s i (s.setWorker i (.running item context (next (.error (.limit
        "a deferred pipeline resource request exceeds a configured byte budget"))) frames))
  | promote (item : WorkItem τ) (context : PrepareContext) (required missing : ResourceWeights)
      (operation : Preparation α) (next : Result (PreparedItem α) → Preparation α)
      (frames : List (Frame α))
      (hw : s.workers[i]? = some (.waiting item context required missing operation next frames))
      (hl : fits .default missing job.limits.budget = true)
      (hf : fits s.used missing job.limits.budget = true) :
      WorkerMove job s i (({ s with used := addWeights s.used missing }).setWorker i
        (.running item (context.promote required missing) operation
          (.promoted context.reserved context.promotedPrepared.length missing.withoutPrepared next ::
            frames)))
  | send (item : WorkItem τ) (output : WorkerOutput α)
      (hw : s.workers[i]? = some (.sending item output))
      (hr : s.results.length < job.limits.deliveryQueueDepth) :
      WorkerMove job s i (({ s with results := s.results ++ [output] }).setWorker i .receiving)

inductive CoordinatorMove (job : Job τ α) (s : State τ α) : State τ α → Prop where
  | receive (output : WorkerOutput α) (rest : List (WorkerOutput α))
      (hc : s.coordinator = .receiving) (hr : s.results = output :: rest)
      (hnew : ∀ other ∈ s.pending, other.ordinal ≠ output.ordinal) :
      CoordinatorMove job s { s with
        results := rest, pending := output :: s.pending, coordinator := .draining }
  | duplicate (output other : WorkerOutput α) (rest : List (WorkerOutput α))
      (hc : s.coordinator = .receiving) (hr : s.results = output :: rest)
      (hm : other ∈ s.pending) (ho : other.ordinal = output.ordinal) :
      CoordinatorMove job s (s.cancel.finish
        (.error (.delivery "a pipeline worker produced a duplicate ordinal")))
  | disconnect (hc : s.coordinator = .receiving) (hr : s.results = [])
      (hx : s.workers.all Worker.isExited = true) :
      CoordinatorMove job s (s.cancel.finish (.error .cancelled))
  | complete (hc : s.coordinator = .draining) (hi : job.items[s.nextIndex]? = none) :
      CoordinatorMove job s (s.finish (.ok ()))
  | wait (item : WorkItem τ) (hc : s.coordinator = .draining)
      (hi : job.items[s.nextIndex]? = some item)
      (hp : ∀ output ∈ s.pending, output.ordinal ≠ item.ordinal) :
      CoordinatorMove job s { s with coordinator := .receiving }
  | deliver (item : WorkItem τ) (output : WorkerOutput α) (rest : List (WorkerOutput α))
      (hc : s.coordinator = .draining) (hi : job.items[s.nextIndex]? = some item)
      (hp : s.pending.Perm (output :: rest)) (ho : output.ordinal = item.ordinal) :
      CoordinatorMove job s (deliverOutput job { s with pending := rest } output)

/-- The dispatcher leaves a cancelled execution. -/
inductive DispatcherQuit (s : State τ α) : State τ α → Prop where
  | stop (item : WorkItem τ) (rest : List (WorkItem τ))
      (hd : s.dispatcher = .next (item :: rest) ∨ s.dispatcher = .awaitingWindow item rest) :
      DispatcherQuit s { s with dispatcher := .done }
  | abandon (item : WorkItem τ) (rest : List (WorkItem τ))
      (hd : s.dispatcher = .reserving item rest) :
      DispatcherQuit s ({ s with dispatcher := .done }).releaseWindow

/-- A worker sees that the execution is cancelled or finished. -/
inductive WorkerQuit (s : State τ α) (i : Nat) : State τ α → Prop where
  | start (item : WorkItem τ) (reservation : ResourceWeights)
      (hw : s.workers[i]? = some (.starting item reservation)) :
      WorkerQuit s i (s.setWorker i (.running item (.new reservation) (.done (.error .cancelled)) []))
  | observe (item : WorkItem τ) (context : PrepareContext) (script : Preparation α)
      (frames : List (Frame α)) (hw : s.workers[i]? = some (.running item context script frames)) :
      WorkerQuit s i (s.setWorker i (.running item context (.done (.error .cancelled)) frames))
  | refuse (item : WorkItem τ) (context : PrepareContext) (required missing : ResourceWeights)
      (operation : Preparation α) (next : Result (PreparedItem α) → Preparation α)
      (frames : List (Frame α))
      (hw : s.workers[i]? = some (.waiting item context required missing operation next frames)) :
      WorkerQuit s i (s.setWorker i (.running item context (next (.error .cancelled)) frames))
  | disconnect (item : WorkItem τ) (output : WorkerOutput α) (result : Result Unit)
      (hw : s.workers[i]? = some (.sending item output)) (hc : s.coordinator = .finished result) :
      WorkerQuit s i ((s.release output.held).releaseWindow.setWorker i .exited)

section Inversion
variable {job : Job τ α} {s t : State τ α}

theorem acquire_cases {limit used requested : ResourceWeights} {cancelled : Bool}
    {r : Result ResourceWeights} (h : acquire limit used requested cancelled = some r) :
    cancelled = true ∧ r = .error .cancelled ∨
      fits .default requested limit = false ∧ r = .error (.limit
        "a deferred pipeline resource request exceeds a configured byte budget") ∨
      fits .default requested limit = true ∧ fits used requested limit = true ∧
        r = .ok (addWeights used requested) := by
  unfold acquire at h
  split at h
  · next hc => exact .inl ⟨hc, (Option.some.inj h).symm⟩
  · split at h
    · next hf => exact .inr (.inl ⟨hf, (Option.some.inj h).symm⟩)
    · next hf =>
      split at h
      · next hu => exact .inr (.inr ⟨by simpa using hf, hu, (Option.some.inj h).symm⟩)
      · cases h

theorem dispatcherStep_cases (h : dispatcherStep job s = some t) :
    DispatcherMove job s t ∨ s.cancelled = true ∧ DispatcherQuit s t := by
  unfold dispatcherStep at h
  cases hd : s.dispatcher with
  | next rest =>
    rw [hd] at h
    cases rest with
    | nil => exact .inl (Option.some.inj h ▸ .finish hd)
    | cons item rest =>
      dsimp only at h
      split at h
      · next hc => exact .inr ⟨hc, Option.some.inj h ▸ .stop item rest (.inl hd)⟩
      · exact .inl (Option.some.inj h ▸ .take item rest hd)
  | awaitingWindow item rest =>
    rw [hd] at h
    dsimp only at h
    split at h
    · next hc => exact .inr ⟨hc, Option.some.inj h ▸ .stop item rest (.inr hd)⟩
    · split at h
      · next hw => exact .inl (Option.some.inj h ▸ .window item rest hd hw)
      · cases h
  | reserving item rest =>
    rw [hd] at h
    dsimp only at h
    cases ha : acquire job.limits.budget s.used item.resources s.cancelled with
    | none => rw [ha] at h; cases h
    | some r =>
      rw [ha] at h
      rcases acquire_cases ha with ⟨hc, rfl⟩ | ⟨hf, rfl⟩ | ⟨_, hf, rfl⟩
      · exact .inr ⟨hc, Option.some.inj h ▸ .abandon item rest hd⟩
      · exact .inl (Option.some.inj h ▸ .refuse item rest hd hf)
      · exact .inl (Option.some.inj h ▸ .reserve item rest hd hf)
  | sending item rest =>
    rw [hd] at h
    dsimp only at h
    split at h
    · next hx => exact .inl (Option.some.inj h ▸ .disconnect item rest hd hx)
    · split at h
      · next hq => exact .inl (Option.some.inj h ▸ .send item rest hd hq)
      · cases h
  | done => rw [hd] at h; cases h

theorem dispatcherStep_move (hu : s.cancelled = false) (h : dispatcherStep job s = some t) :
    DispatcherMove job s t :=
  (dispatcherStep_cases h).resolve_right fun hc => by simp [hu] at hc

theorem workerStep_cases {i : Nat} (h : workerStep job i s = some t) :
    WorkerMove job s i t ∨
      (s.cancelled = true ∨ ∃ result, s.coordinator = .finished result) ∧ WorkerQuit s i t := by
  unfold workerStep at h
  cases hw : s.workers[i]? with
  | none => rw [hw] at h; cases h
  | some worker =>
    rw [hw] at h
    cases worker with
    | receiving =>
      dsimp only at h
      cases hq : s.queue with
      | cons queued rest =>
        rw [hq] at h
        exact .inl (Option.some.inj h ▸ .receive queued rest hw hq)
      | nil =>
        rw [hq] at h
        dsimp only at h
        split at h
        · next hd => exact .inl (Option.some.inj h ▸ .exit hw hq hd)
        · cases h
    | starting item reservation =>
      dsimp only at h
      split at h
      · next hc => exact .inr ⟨.inl hc, Option.some.inj h ▸ .start item reservation hw⟩
      · exact .inl (Option.some.inj h ▸ .start item reservation hw)
    | running item context script frames =>
      exact .inl (Option.some.inj h ▸ .run item context script frames hw)
    | waiting item context required missing operation next frames =>
      dsimp only [promoteStep] at h
      cases ha : acquire job.limits.budget s.used missing s.cancelled with
      | none => rw [ha] at h; cases h
      | some r =>
        rw [ha] at h
        rcases acquire_cases ha with ⟨hc, rfl⟩ | ⟨hf, rfl⟩ | ⟨hl, hf, rfl⟩
        · exact .inr ⟨.inl hc, Option.some.inj h ▸
            .refuse item context required missing operation next frames hw⟩
        · exact .inl (Option.some.inj h ▸
            .refuse item context required missing operation next frames hw hf)
        · exact .inl (Option.some.inj h ▸
            .promote item context required missing operation next frames hw hl hf)
    | sending item output =>
      dsimp only at h
      split at h
      · next result hc =>
        exact .inr ⟨.inr ⟨result, hc⟩, Option.some.inj h ▸ .disconnect item output result hw hc⟩
      · split at h
        · next hr => exact .inl (Option.some.inj h ▸ .send item output hw hr)
        · cases h
    | exited => cases h

theorem workerStep_move {i : Nat} (hu : s.cancelled = false)
    (hopen : ∀ result, s.coordinator ≠ .finished result) (h : workerStep job i s = some t) :
    WorkerMove job s i t :=
  (workerStep_cases h).resolve_right fun hq => by simp [hu, hopen] at hq

theorem observeCancellation_quit {i : Nat} (h : observeCancellation i s = some t) :
    WorkerQuit s i t := by
  unfold observeCancellation at h
  split at h
  · next item context script frames hw =>
    split at h
    · exact Option.some.inj h ▸ .observe item context script frames hw
    · cases h
  · cases h

theorem coordinatorStep_move (h : coordinatorStep job s = some t) : CoordinatorMove job s t := by
  unfold coordinatorStep at h
  cases hc : s.coordinator with
  | receiving =>
    rw [hc] at h
    dsimp only at h
    cases hr : s.results with
    | nil =>
      rw [hr] at h
      dsimp only at h
      split at h
      · next hx => exact Option.some.inj h ▸ .disconnect hc hr hx
      · cases h
    | cons output rest =>
      rw [hr] at h
      dsimp only at h
      split at h
      · next hany =>
        obtain ⟨other, hm, ho⟩ := List.any_eq_true.mp hany
        exact Option.some.inj h ▸ .duplicate output other rest hc hr hm (by simpa using ho)
      · next hany =>
        refine Option.some.inj h ▸ .receive output rest hc hr ?_
        intro other hm ho
        exact hany (List.any_eq_true.mpr ⟨other, hm, by simpa using ho⟩)
  | draining =>
    rw [hc] at h
    dsimp only at h
    cases hi : job.items[s.nextIndex]? with
    | none =>
      rw [hi] at h
      exact Option.some.inj h ▸ .complete hc hi
    | some item =>
      rw [hi] at h
      dsimp only at h
      cases hf : s.pending.find? fun output => output.ordinal == item.ordinal with
      | none =>
        rw [hf] at h
        refine Option.some.inj h ▸ .wait item hc hi ?_
        intro output ho
        simpa using List.find?_eq_none.mp hf output ho
      | some output =>
        rw [hf, ← hc] at h
        have ho := List.find?_some hf
        refine Option.some.inj h ▸ .deliver item output _ hc hi ?_ (by simpa using ho)
        obtain ⟨hp, as, bs, hl, hall⟩ := List.find?_eq_some_iff_append.mp hf
        have herase : s.pending.eraseP (fun output => output.ordinal == item.ordinal) =
            as ++ bs := by
          rw [hl, List.eraseP_append_right _ (by simpa using hall), List.eraseP_cons, hp]
          rfl
        rw [herase, hl]
        exact List.perm_middle
  | finished result => rw [hc] at h; cases h

end Inversion

end ModelWeights.Pipeline
