import ModelWeights.Pipeline.Flow
import ModelWeights.Pipeline.Moves

/-! # Ordered delivery

Every action keeps `Flow`, or ends the execution with the result of sequential
execution. -/
namespace ModelWeights.Pipeline
open ResourceWeights
variable {τ α : Type} {job : Job τ α} {s t : State τ α} {taken sent : Nat}

/-- The flow of items does not depend on the budget. -/
theorem Flow.budget (h : Flow job s taken sent) (used : ResourceWeights) (windowUsed : Nat) :
    Flow job { s with used, windowUsed } taken sent :=
  ⟨h.uncancelled, h.workerCount, h.succeeded, h.delivered, h.remaining, h.queue, h.reserved,
    h.order, h.inFlight, h.outputs, h.workers, h.exited, h.receiving, h.open_⟩

/-! ## Dispatcher -/

/-- The dispatcher moved on with the same items ahead of it. -/
theorem Flow.setDispatcher (h : Flow job s taken sent) (dispatcher : Dispatcher τ)
    (hr : dispatcher.remaining = s.dispatcher.remaining)
    (hd : s.dispatcher.isDone = true → dispatcher.isDone = true) :
    Flow job { s with dispatcher } taken sent :=
  ⟨h.uncancelled, h.workerCount, h.succeeded, h.delivered, hr.trans h.remaining, h.queue,
    h.reserved, h.order, h.inFlight, h.outputs, h.workers,
    fun w hw hx => (h.exited w hw hx).imp id hd, h.receiving, h.open_⟩

theorem Flow.remaining_cons (h : Flow job s taken sent) {item : WorkItem τ}
    {rest : List (WorkItem τ)} (hr : s.dispatcher.remaining = item :: rest) :
    job.items[sent]? = some item ∧ job.items.drop (sent + 1) = rest := by
  have hd := h.remaining
  rw [hr] at hd
  constructor
  · have := congrArg (fun l => l[0]?) hd
    simpa using this.symm
  · rw [← List.drop_drop, ← hd]; rfl

theorem Flow.dispatch (h : Flow job s taken sent) {item : WorkItem τ}
    {rest : List (WorkItem τ)} (hd : s.dispatcher = .sending item rest) :
    Flow job { s with
      queue := s.queue ++ [⟨item, item.resources⟩]
      dispatcher := .next rest } taken (sent + 1) := by
  have hrem : s.dispatcher.remaining = item :: rest := by rw [hd]; rfl
  obtain ⟨hk, hrest⟩ := h.remaining_cons hrem
  have hlt : sent < job.items.length := (List.getElem?_eq_some_iff.mp hk).1
  obtain ⟨hn, ht, _⟩ := h.order
  refine ⟨h.uncancelled, h.workerCount, h.succeeded, h.delivered, hrest.symm, ?_, ?_, ?_,
    h.inFlight, h.outputs, h.workers, ?_, h.receiving, h.open_⟩
  · rw [List.map_append, h.queue, List.take_add_one, hk, List.drop_append_of_le_length]
    · rfl
    · rw [List.length_take]; omega
  · intro queued hq
    rcases List.mem_append.mp hq with hq | hq
    · exact h.reserved queued hq
    · rw [List.mem_singleton.mp hq]
  · exact ⟨hn, by omega, hlt⟩
  · intro w hw hx
    have := (h.exited w hw hx).2
    rw [hd] at this
    cases this

/-- There is a worker, so not all of them left while there is work. -/
theorem Flow.some_worker (hjob : job.Admitted) (h : Flow job s taken sent) {item : WorkItem τ}
    (hi : item ∈ job.items) : ∃ worker, worker ∈ s.workers := by
  have hpos := hjob.workerCount_pos hi
  rw [← h.workerCount] at hpos
  exact List.exists_mem_of_length_pos hpos

theorem Flow.dispatcherMove (hjob : job.Admitted) (h : Flow job s taken sent)
    (hm : DispatcherMove job s t) : ∃ sent', Flow job t taken sent' := by
  have hitem : ∀ {item rest}, s.dispatcher.remaining = item :: rest → item ∈ job.items :=
    fun hr => List.mem_of_getElem? (h.remaining_cons hr).1
  have hopen : ∀ {d d' : Dispatcher τ}, s.dispatcher = d → d.isDone = false →
      s.dispatcher.isDone = true → d'.isDone = true := by
    rintro _ _ rfl hd hx
    rw [hd] at hx
    cases hx
  cases hm with
  | finish hd => exact ⟨sent, h.setDispatcher .done (by rw [hd]; rfl) fun _ => rfl⟩
  | take item rest hd =>
    exact ⟨sent, h.setDispatcher (.awaitingWindow item rest) (by rw [hd]; rfl) (hopen hd rfl)⟩
  | window item rest hd =>
    exact ⟨sent, (h.setDispatcher (.reserving item rest) (by rw [hd]; rfl) (hopen hd rfl)).budget _ _⟩
  | refuse item rest hd hf =>
    rw [hjob.fits item (hitem (by rw [hd]; rfl))] at hf
    cases hf
  | reserve item rest hd =>
    exact ⟨sent, (h.setDispatcher (.sending item rest) (by rw [hd]; rfl) (hopen hd rfl)).budget _ _⟩
  | disconnect item rest hd hx =>
    -- a worker only exits when the dispatcher is done
    obtain ⟨w, hw⟩ := h.some_worker hjob (hitem (by rw [hd]; rfl))
    have := (h.exited w hw (List.all_eq_true.mp hx w hw)).2
    rw [hd] at this
    cases this
  | send item rest hd => exact ⟨sent + 1, h.dispatch hd⟩

/-! ## Workers -/

section Workers
variable {i : Nat} {w w' : Worker τ α}

/-- The ordinal of the item a worker is busy with. -/
def Worker.ordinals (w : Worker τ α) : List Nat := w.item?.toList.map WorkItem.ordinal

/-- What is in flight beside one worker. -/
theorem inFlight_set (hw : s.workers[i]? = some w) : ∃ rest,
    s.inFlight.Perm (w.ordinals ++ rest) ∧
      ∀ w' : Worker τ α, (s.setWorker i w').inFlight.Perm (w'.ordinals ++ rest) := by
  obtain ⟨others, hp, hset⟩ := perm_set hw
  have hcons : ∀ (l : List (Worker τ α)) (x : Worker τ α), l.Perm (x :: others) →
      ((l.filterMap Worker.item?).map WorkItem.ordinal ++
        (s.results ++ s.pending).map WorkerOutput.ordinal).Perm
      (x.ordinals ++ ((others.filterMap Worker.item?).map WorkItem.ordinal ++
        (s.results ++ s.pending).map WorkerOutput.ordinal)) := by
    intro l x hl
    rw [← List.append_assoc]
    refine List.Perm.append_right _ ?_
    refine ((hl.filterMap Worker.item?).map WorkItem.ordinal).trans ?_
    rw [List.filterMap_cons]
    cases hx : x.item? with
    | none => simp [Worker.ordinals, hx]
    | some item => simp [Worker.ordinals, hx]
  exact ⟨_, hcons _ _ hp, fun w' => hcons _ _ (hset w')⟩

/-- A worker went on with the same item. -/
theorem Flow.setWorker (h : Flow job s taken sent) (hw : s.workers[i]? = some w)
    (hitem : w'.item? = w.item?) (hsound : w'.Sound job)
    (hx : w'.isExited = true → s.queue = [] ∧ s.dispatcher.isDone = true) :
    Flow job (s.setWorker i w') taken sent := by
  obtain ⟨rest, hp, hset⟩ := inFlight_set hw
  have hmem : ∀ x ∈ s.workers.set i w', x = w' ∨ x ∈ s.workers := fun x hx =>
    (List.mem_or_eq_of_mem_set hx).symm
  refine ⟨h.uncancelled, ?_, h.succeeded, h.delivered, h.remaining, h.queue, h.reserved, h.order,
    ?_, h.outputs, ?_, ?_, h.receiving, h.open_⟩
  · rw [State.setWorker, List.length_set]
    exact h.workerCount
  · refine (hset w').trans ?_
    rw [Worker.ordinals, hitem]
    exact hp.symm.trans h.inFlight
  · intro x hm
    rcases hmem x hm with rfl | hm
    · exact hsound
    · exact h.workers x hm
  · intro x hm hex
    rcases hmem x hm with rfl | hm
    · exact hx hex
    · exact h.exited x hm hex

theorem Flow.receive (h : Flow job s taken sent) {queued : QueuedWork τ}
    {queue : List (QueuedWork τ)} (hw : s.workers[i]? = some .receiving)
    (hq : s.queue = queued :: queue) :
    Flow job (({ s with queue }).setWorker i (.starting queued.item queued.reservation))
      (taken + 1) sent := by
  obtain ⟨rest, hp, hset⟩ := @inFlight_set _ _ { s with queue } i _ hw
  obtain ⟨hn, ht, hs⟩ := h.order
  have hqueue := h.queue
  rw [hq, List.map_cons] at hqueue
  -- the head of the work channel is the next item in order
  have hk : (job.items.take sent)[taken]? = some queued.item := by
    have := congrArg (fun l => l[0]?) hqueue
    simpa using this.symm
  have hlt : taken < sent := by
    have := (List.getElem?_eq_some_iff.mp hk).1
    rw [List.length_take] at this
    omega
  rw [List.getElem?_take_of_lt hlt] at hk
  refine ⟨h.uncancelled, ?_, h.succeeded, h.delivered, h.remaining, ?_, ?_, ?_, ?_, h.outputs, ?_,
    ?_, h.receiving, h.open_⟩
  · show (s.workers.set i _).length = _
    rw [List.length_set]
    exact h.workerCount
  · show queue.map QueuedWork.item = _
    rw [← List.drop_drop, ← hqueue]
    rfl
  · intro x hx
    exact h.reserved x (hq ▸ List.mem_cons_of_mem _ hx)
  · exact ⟨by show s.nextIndex ≤ _; omega, hlt, hs⟩
  · refine (hset _).trans ?_
    have htake : ((job.items.take (taken + 1)).drop s.nextIndex).map WorkItem.ordinal =
        ((job.items.take taken).drop s.nextIndex).map WorkItem.ordinal ++
          [queued.item.ordinal] := by
      rw [List.take_add_one, hk, List.drop_append_of_le_length]
      · simp
      · have := (List.getElem?_eq_some_iff.mp hk).1
        rw [List.length_take]
        omega
    show List.Perm _ (((job.items.take (taken + 1)).drop s.nextIndex).map WorkItem.ordinal)
    rw [htake]
    exact ((hp.symm.trans h.inFlight).cons _).trans (List.perm_append_singleton _ _).symm
  · intro x hx
    rcases List.mem_or_eq_of_mem_set hx with hx | rfl
    · exact h.workers x hx
    · exact ⟨List.mem_of_getElem? hk, h.reserved queued (hq ▸ List.mem_cons_self ..)⟩
  · intro x hx hex
    rcases List.mem_or_eq_of_mem_set hx with hx | rfl
    · have := (h.exited x hx hex).1
      rw [hq] at this
      cases this
    · cases hex

theorem Flow.send (h : Flow job s taken sent) {item : WorkItem τ} {output : WorkerOutput α}
    (hw : s.workers[i]? = some (.sending item output)) :
    Flow job (({ s with results := s.results ++ [output] }).setWorker i .receiving) taken sent := by
  obtain ⟨hitem, ho, hr⟩ : (Worker.sending item output : Worker τ α).Sound job :=
    h.workers _ (List.mem_of_getElem? hw)
  obtain ⟨others, hp, hset⟩ := perm_set hw
  refine ⟨h.uncancelled, ?_, h.succeeded, h.delivered, h.remaining, h.queue, h.reserved, h.order,
    ?_, ?_, ?_, ?_, h.receiving, h.open_⟩
  · show (s.workers.set i _).length = _
    rw [List.length_set]
    exact h.workerCount
  · refine List.Perm.trans ?_ h.inFlight
    -- the ordinal moves from the worker to the channel
    show (((s.workers.set i .receiving).filterMap Worker.item?).map WorkItem.ordinal ++
      ((s.results ++ [output]) ++ s.pending).map WorkerOutput.ordinal).Perm
        ((s.workers.filterMap Worker.item?).map WorkItem.ordinal ++
          (s.results ++ s.pending).map WorkerOutput.ordinal)
    have h₁ : ((s.workers.set i .receiving).filterMap Worker.item?).Perm
        (others.filterMap Worker.item?) := (hset .receiving).filterMap _
    have h₂ : (s.workers.filterMap Worker.item?).Perm
        (item :: others.filterMap Worker.item?) := hp.filterMap _
    refine ((h₁.map _).append_right _).trans (List.Perm.trans ?_ ((h₂.map _).append_right _).symm)
    simp only [List.append_assoc, List.map_append, List.map_cons, List.cons_append, List.nil_append,
      ho]
    rw [← List.append_assoc, ← List.append_assoc]
    exact List.perm_middle
  · intro x hx
    rcases List.mem_append.mp hx with hx | hx
    · rcases List.mem_append.mp (show x ∈ s.results ++ [output] from hx) with hx | hx
      · exact h.outputs x (List.mem_append_left _ hx)
      · exact List.mem_singleton.mp hx ▸ ⟨item, hitem, ho, hr⟩
    · exact h.outputs x (List.mem_append_right _ hx)
  · intro x hx
    rcases List.mem_or_eq_of_mem_set hx with hx | rfl
    · exact h.workers x hx
    · trivial
  · intro x hx hex
    rcases List.mem_or_eq_of_mem_set hx with hx | rfl
    · exact h.exited x hx hex
    · cases hex

theorem Flow.runStep (h : Flow job s taken sent) {item : WorkItem τ} {context : PrepareContext}
    {script : Preparation α} {frames : List (Frame α)}
    (hw : s.workers[i]? = some (.running item context script frames)) :
    Flow job (runStep s i item context script frames) taken sent := by
  obtain ⟨hitem, hout⟩ : (Worker.running item context script frames : Worker τ α).Sound job :=
    h.workers _ (List.mem_of_getElem? hw)
  have hstep : ∀ {w' : Worker τ α} (released : ResourceWeights), w'.item? = some item →
      w'.Sound job → w'.isExited = false →
      Flow job ((s.release released).setWorker i w') taken sent := by
    intro w' released hi hs hx
    exact (h.budget (subtractWeights s.used released) s.windowUsed).setWorker hw hi hs
      (by simp [hx])
  have hstay : ∀ {w' : Worker τ α}, w'.item? = some item → w'.Sound job → w'.isExited = false →
      Flow job (s.setWorker i w') taken sent := by
    intro w' hi hs hx
    exact h.setWorker hw hi hs (by simp [hx])
  match script, frames, hw, hout with
  | .done result, [], hw, hout => exact hstep _ rfl ⟨hitem, rfl, hout⟩ rfl
  | .done result, .plain next :: frames, hw, hout => exact hstay rfl ⟨hitem, hout⟩ rfl
  | .done result, .promoted previous previousPromotions reservation next :: frames, hw, hout =>
    exact hstep _ rfl ⟨hitem, hout⟩ rfl
  | .withResources required operation next, frames, hw, hout =>
    unfold Pipeline.runStep
    dsimp only
    split
    · next hz =>
      refine hstay rfl ⟨hitem, ?_⟩ rfl
      rw [← hout, evaluate]
      simp only [if_pos hz]
      rfl
    · next hz =>
      rw [evaluate_withResources _ _ _ _ _ hz] at hout
      split
      · next hp =>
        rw [if_pos hp] at hout
        exact hstep _ rfl ⟨hitem, rfl, hout⟩ rfl
      · next hp =>
        rw [if_neg hp] at hout
        exact hstay rfl ⟨hitem, rfl, hout⟩ rfl

theorem Flow.workerMove (h : Flow job s taken sent) (hm : WorkerMove job s i t) :
    ∃ taken', Flow job t taken' sent := by
  cases hm with
  | receive queued rest hw hq => exact ⟨taken + 1, h.receive hw hq⟩
  | exit hw hq hd => exact ⟨taken, h.setWorker hw rfl trivial fun _ => ⟨hq, hd⟩⟩
  | start item reservation hw =>
    obtain ⟨hitem, hres⟩ : (Worker.starting item reservation : Worker τ α).Sound job :=
      h.workers _ (List.mem_of_getElem? hw)
    refine ⟨taken, h.setWorker hw rfl ⟨hitem, ?_⟩ (by simp [Worker.isExited])⟩
    rw [hres]
    rfl
  | run item context script frames hw => exact ⟨taken, h.runStep hw⟩
  | refuse item context required missing operation next frames hw hf =>
    obtain ⟨hitem, hmissing, hout⟩ :
        (Worker.waiting item context required missing operation next frames).Sound job :=
      h.workers _ (List.mem_of_getElem? hw)
    refine ⟨taken, h.setWorker hw rfl ⟨hitem, ?_⟩ (by simp [Worker.isExited])⟩
    rw [← hout, awaited, ← hmissing, if_pos hf]
    rfl
  | promote item context required missing operation next frames hw hl hf =>
    obtain ⟨hitem, hmissing, hout⟩ :
        (Worker.waiting item context required missing operation next frames).Sound job :=
      h.workers _ (List.mem_of_getElem? hw)
    refine ⟨taken, (h.budget _ s.windowUsed).setWorker hw rfl ⟨hitem, ?_⟩
      (by simp [Worker.isExited])⟩
    rw [← hout, awaited, ← hmissing, if_neg (by simp [hl])]
    rfl
  | send item output hw hr => exact ⟨taken, h.send hw⟩

end Workers

/-! ## Coordinator -/

section Coordinator

theorem Flow.nodup_inFlight (hjob : job.Admitted) (h : Flow job s taken sent) :
    s.inFlight.Nodup := by
  refine h.inFlight.nodup_iff.mpr (List.Nodup.sublist ?_ hjob.nodup)
  exact ((List.drop_sublist _ _).trans (List.take_sublist _ _)).map _

/-- An item in flight is past the delivered ones. -/
theorem Flow.next_inFlight (h : Flow job s taken sent) {ordinal : Nat}
    (hm : ordinal ∈ s.inFlight) : s.nextIndex < taken := by
  have hm := h.inFlight.mem_iff.mp hm
  by_contra hle
  rw [List.drop_eq_nil_of_le (by rw [List.length_take]; omega)] at hm
  cases hm

theorem drop_next {item : WorkItem τ}
    (hi : job.items[s.nextIndex]? = some item) (hlt : s.nextIndex < taken) :
    (job.items.take taken).drop s.nextIndex =
      item :: (job.items.take taken).drop (s.nextIndex + 1) := by
  have hi : (job.items.take taken)[s.nextIndex]? = some item := by
    rw [List.getElem?_take_of_lt hlt, hi]
  obtain ⟨hlen, rfl⟩ := List.getElem?_eq_some_iff.mp hi
  exact List.drop_eq_getElem_cons hlen

/-- The next item is in flight once a worker has taken it. -/
theorem Flow.mem_inFlight (h : Flow job s taken sent) {item : WorkItem τ}
    (hi : job.items[s.nextIndex]? = some item) (hlt : s.nextIndex < taken) :
    item.ordinal ∈ s.inFlight := by
  refine h.inFlight.mem_iff.mpr ?_
  rw [drop_next hi hlt]
  exact List.mem_cons_self ..

/-- When the work channel is closed and empty, every item was taken. -/
theorem Flow.next_taken (h : Flow job s taken sent) {item : WorkItem τ}
    (hi : job.items[s.nextIndex]? = some item) (hq : s.queue = [])
    (hd : s.dispatcher.isDone = true) : s.nextIndex < taken := by
  have hlen := (List.getElem?_eq_some_iff.mp hi).1
  have hsent : job.items.length ≤ sent := by
    have hrem := h.remaining
    cases hx : s.dispatcher with
    | done =>
      rw [hx] at hrem
      exact List.drop_eq_nil_iff.mp hrem.symm
    | _ => rw [hx] at hd; cases hd
  have htaken := h.queue
  rw [hq, List.map_nil] at htaken
  have := List.drop_eq_nil_iff.mp htaken.symm
  rw [List.length_take] at this
  omega

theorem take_succ_eq {item : WorkItem τ} (hi : job.items[s.nextIndex]? = some item) :
    job.items.take (s.nextIndex + 1) = job.items.take s.nextIndex ++ [item] := by
  rw [List.take_add_one, hi]
  rfl

/-- The whole work, around the next item. -/
theorem items_split {item : WorkItem τ} (hi : job.items[s.nextIndex]? = some item) :
    job.items = job.items.take s.nextIndex ++ item :: job.items.drop (s.nextIndex + 1) := by
  obtain ⟨hlt, rfl⟩ := List.getElem?_eq_some_iff.mp hi
  rw [← List.drop_eq_getElem_cons hlt, List.take_append_drop]

/-- A failure of the next item ends the execution as it ends the sequential one. -/
theorem Flow.ended (h : Flow job s taken sent) {item : WorkItem τ} {e : Error}
    (hi : job.items[s.nextIndex]? = some item) (hf : job.failure item = some e)
    (hc : t.coordinator = .finished (.error e)) (hu : t.cancelled = true)
    (hd : t.delivered = s.delivered ++ job.offered item) : Ended job t := by
  refine ⟨.error e, hc, .inl hu, ?_⟩
  rw [items_split hi, sequential_append _ h.succeeded, Job.sequential, hf, hd, h.delivered]

/-- The sink accepted the next item. -/
theorem Flow.accept (h : Flow job s taken sent) {item : WorkItem τ} {output : WorkerOutput α}
    {rest : List (WorkerOutput α)} (hi : job.items[s.nextIndex]? = some item)
    (hp : s.pending.Perm (output :: rest)) (ho : output.ordinal = item.ordinal)
    (hc : s.coordinator = .draining) (hf : job.failure item = none) :
    Flow job { s with
      pending := rest
      delivered := s.delivered ++ job.offered item
      nextIndex := s.nextIndex + 1 } taken sent := by
  have hmem : output ∈ s.pending := hp.mem_iff.mpr (List.mem_cons_self ..)
  have hin : output.ordinal ∈ s.inFlight :=
    List.mem_append_right _ (List.mem_map_of_mem (List.mem_append_right _ hmem))
  have hlt := h.next_inFlight hin
  have htake := take_succ_eq hi
  refine ⟨h.uncancelled, h.workerCount, ?_, ?_, h.remaining, h.queue, h.reserved,
    ⟨hlt, h.order.2⟩, ?_, ?_, h.workers, h.exited, ?_, h.open_⟩
  · intro x hx
    dsimp only at hx
    rw [htake] at hx
    rcases List.mem_append.mp hx with hx | hx
    · exact h.succeeded x hx
    · rw [List.mem_singleton.mp hx]
      exact hf
  · dsimp only
    rw [htake, List.flatMap_append, h.delivered]
    simp
  · have hall := h.inFlight
    rw [drop_next hi hlt, List.map_cons, ← ho] at hall
    -- the ordinal of the delivered output leaves both sides
    refine List.Perm.cons_inv (List.Perm.trans ?_ hall)
    have hmap := (hp.map WorkerOutput.ordinal).symm
    simp only [State.inFlight, List.map_append]
    rw [List.map_cons] at hmap
    refine List.Perm.trans ?_ (List.Perm.append_left _ (List.Perm.append_left _ hmap))
    rw [← List.append_assoc, ← List.append_assoc]
    exact List.perm_middle.symm
  · intro x hx
    rcases List.mem_append.mp hx with hx | hx
    · exact h.outputs x (List.mem_append_left _ hx)
    · exact h.outputs x (List.mem_append_right _ (hp.mem_iff.mpr (List.mem_cons_of_mem _ hx)))
  · intro hr
    rw [show s.coordinator = _ from hr] at hc
    cases hc

theorem Flow.deliver (hjob : job.Admitted) (h : Flow job s taken sent) {item : WorkItem τ}
    {output : WorkerOutput α} {rest : List (WorkerOutput α)}
    (hi : job.items[s.nextIndex]? = some item) (hp : s.pending.Perm (output :: rest))
    (ho : output.ordinal = item.ordinal) (hc : s.coordinator = .draining) :
    Flow job (deliverOutput job { s with pending := rest } output) taken sent ∨
      Ended job (deliverOutput job { s with pending := rest } output) := by
  have hmem : output ∈ s.pending := hp.mem_iff.mpr (List.mem_cons_self ..)
  have hres : output.result = job.outcome item := by
    obtain ⟨item', hi', ho', hr'⟩ := h.outputs output (List.mem_append_right _ hmem)
    rw [hr', hjob.ordinal_inj hi' (List.mem_of_getElem? hi) (ho'.symm.trans ho)]
  unfold deliverOutput
  cases hr : output.result with
  | error e =>
    refine .inr (h.ended hi ?_ rfl rfl ?_)
    · rw [Job.failure, ← hres, hr]
    · rw [Job.offered, ← hres, hr]
      exact (List.append_nil _).symm
  | ok prepared =>
    dsimp only
    have hoffered : job.offered item = [(output.ordinal, prepared)] := by
      rw [Job.offered, ← hres, hr, ho]
    cases hs : job.deliver output.ordinal prepared with
    | error e =>
      refine .inr (h.ended hi ?_ rfl rfl ?_)
      · rw [Job.failure, ← hres, hr]
        dsimp only
        rw [← ho, hs]
      · rw [hoffered]; rfl
    | ok =>
      have hfail : job.failure item = none := by
        rw [Job.failure, ← hres, hr]
        dsimp only
        rw [← ho, hs]
      have haccept := h.accept hi hp ho hc hfail
      rw [hoffered] at haccept
      exact .inl (haccept.budget _ _)

theorem Flow.coordinatorMove (hjob : job.Admitted) (h : Flow job s taken sent)
    (hm : CoordinatorMove job s t) : Flow job t taken sent ∨ Ended job t := by
  cases hm with
  | receive output rest hc hr hnew =>
    refine .inl ⟨h.uncancelled, h.workerCount, h.succeeded, h.delivered, h.remaining, h.queue,
      h.reserved, h.order, ?_, ?_, h.workers, h.exited, (by simp), (by simp)⟩
    · refine List.Perm.trans ?_ h.inFlight
      simp only [State.inFlight, hr, List.cons_append]
      exact List.Perm.append_left _ (List.perm_middle.map _)
    · intro x hx
      refine h.outputs x ?_
      rw [hr]
      simp only [List.mem_append, List.mem_cons] at hx ⊢
      tauto
  | duplicate output other rest hc hr hm ho =>
    -- the ordinals in flight are distinct
    have hnodup := (List.nodup_append.mp (h.nodup_inFlight hjob)).2.1
    rw [hr, List.cons_append, List.map_cons, List.nodup_cons] at hnodup
    refine absurd (List.mem_map.mpr ⟨other, ?_, ho⟩) hnodup.1
    exact List.mem_append_right _ hm
  | disconnect hc hr hx =>
    obtain ⟨item, hi, hp⟩ := h.receiving hc
    obtain ⟨w, hw⟩ := h.some_worker hjob (List.mem_of_getElem? hi)
    obtain ⟨hq, hd⟩ := h.exited w hw (List.all_eq_true.mp hx w hw)
    have hlt := h.next_taken hi hq hd
    have hidle : s.workers.filterMap Worker.item? = [] := by
      refine List.filterMap_eq_nil_iff.mpr fun x hm => ?_
      have := List.all_eq_true.mp hx x hm
      cases x with
      | exited => rfl
      | _ => cases this
    -- everything is pending, the next item too
    have hm := h.mem_inFlight hi hlt
    simp only [State.inFlight, hidle, hr, List.map_nil, List.nil_append, List.mem_map] at hm
    obtain ⟨output, hm, ho⟩ := hm
    exact absurd ho (hp output hm)
  | complete hc hi =>
    have hle := List.getElem?_eq_none_iff.mp hi
    refine .inr ⟨.ok (), rfl, .inr hle, ?_⟩
    have hall := sequential_append [] h.succeeded
    rw [List.append_nil, List.take_of_length_le hle] at hall
    rw [hall, State.finish]
    simp only [h.delivered, List.take_of_length_le hle]
    simp [Job.sequential]
  | wait item hc hi hp =>
    refine .inl ⟨h.uncancelled, h.workerCount, h.succeeded, h.delivered, h.remaining, h.queue,
      h.reserved, h.order, h.inFlight, h.outputs, h.workers, h.exited, ?_, (by simp)⟩
    exact fun _ => ⟨item, hi, hp⟩
  | deliver item output rest hc hi hp ho => exact h.deliver hjob hi hp ho hc

end Coordinator

/-! ## Every schedule -/

section Schedule

/-- What only the coordinator changes. -/
structure Keeps (s t : State τ α) : Prop where
  coordinator : t.coordinator = s.coordinator
  delivered : t.delivered = s.delivered
  cancelled : t.cancelled = s.cancelled
  nextIndex : t.nextIndex = s.nextIndex

theorem dispatcherStep_keeps (h : dispatcherStep job s = some t) :
    Keeps s t := by
  unfold dispatcherStep at h
  repeat' split at h
  all_goals cases h <;> exact ⟨rfl, rfl, rfl, rfl⟩

theorem runStep_keeps (i : Nat) (item : WorkItem τ) (context : PrepareContext)
    (script : Preparation α) (frames : List (Frame α)) :
    Keeps s (runStep s i item context script frames) := by
  unfold runStep
  split
  · exact ⟨rfl, rfl, rfl, rfl⟩
  · exact ⟨rfl, rfl, rfl, rfl⟩
  · exact ⟨rfl, rfl, rfl, rfl⟩
  · dsimp only
    split
    · exact ⟨rfl, rfl, rfl, rfl⟩
    · split <;> exact ⟨rfl, rfl, rfl, rfl⟩

theorem promoteStep_keeps {i : Nat} {item : WorkItem τ} {context : PrepareContext}
    {required missing : ResourceWeights} {operation : Preparation α}
    {next : Result (PreparedItem α) → Preparation α} {frames : List (Frame α)}
    (h : promoteStep job s i item context required missing operation next frames = some t) :
    Keeps s t := by
  unfold promoteStep at h
  split at h
  · cases h
  · obtain rfl := Option.some.inj h; exact ⟨rfl, rfl, rfl, rfl⟩
  · obtain rfl := Option.some.inj h; exact ⟨rfl, rfl, rfl, rfl⟩

theorem workerStep_keeps {i : Nat} (h : workerStep job i s = some t) :
    Keeps s t := by
  unfold workerStep at h
  split at h
  · cases h
  · repeat' split at h
    all_goals cases h <;> exact ⟨rfl, rfl, rfl, rfl⟩
  · obtain rfl := Option.some.inj h; exact ⟨rfl, rfl, rfl, rfl⟩
  · obtain rfl := Option.some.inj h; exact runStep_keeps ..
  · exact promoteStep_keeps h
  · repeat' split at h
    all_goals cases h <;> exact ⟨rfl, rfl, rfl, rfl⟩
  · cases h

theorem observeCancellation_keeps {i : Nat} (h : observeCancellation i s = some t) :
    s.cancelled = true ∧ Keeps s t := by
  unfold observeCancellation at h
  repeat' split at h
  all_goals cases h <;> exact ⟨by assumption, rfl, rfl, rfl, rfl⟩

/-- Once the coordinator has returned, its result and the deliveries stand. -/
theorem Ended.step (h : Ended job s) {a : Action} (hs : act job a s = some t) : Ended job t := by
  obtain ⟨result, hc, hstop, hd⟩ := h
  have hkeep : Keeps s t := by
    cases a with
    | dispatcher => exact dispatcherStep_keeps hs
    | worker i => exact workerStep_keeps hs
    | cancellation i => exact (observeCancellation_keeps hs).2
    | coordinator =>
      simp only [act, coordinatorStep, hc] at hs
      cases hs
  refine ⟨result, hkeep.coordinator.trans hc, ?_, hkeep.delivered ▸ hd⟩
  rw [hkeep.cancelled, hkeep.nextIndex]
  exact hstop

theorem Flow.step (hjob : job.Admitted) (h : Flow job s taken sent) {a : Action}
    (hs : act job a s = some t) : (∃ taken' sent', Flow job t taken' sent') ∨ Ended job t := by
  cases a with
  | dispatcher =>
    obtain ⟨sent', h'⟩ := h.dispatcherMove hjob (dispatcherStep_move h.uncancelled hs)
    exact .inl ⟨taken, sent', h'⟩
  | worker i =>
    obtain ⟨taken', h'⟩ := h.workerMove (workerStep_move h.uncancelled h.open_ hs)
    exact .inl ⟨taken', sent, h'⟩
  | cancellation i =>
    have := (observeCancellation_keeps hs).1
    rw [h.uncancelled] at this
    cases this
  | coordinator =>
    exact (h.coordinatorMove hjob (coordinatorStep_move hs)).imp (fun h' => ⟨taken, sent, h'⟩) id

/-- In every reachable state the execution is under way, or it has ended as
sequential execution ends. -/
theorem reachable_flow (hjob : job.Admitted) (h : Transition.Reachable (act job) job.start s) :
    (∃ taken sent, Flow job s taken sent) ∨ Ended job s := by
  refine h.invariant (I := fun s => (∃ taken sent, Flow job s taken sent) ∨ Ended job s)
    (.inl ⟨0, 0, flow_start job⟩) ?_
  rintro a s t (⟨taken, sent, h⟩ | h) hs
  · exact h.step hjob hs
  · exact .inr (h.step hs)

theorem admitted_of_admitWork {work : List (WorkItem τ)}
    (h : admitWork job.limits work = .ok job.items) : job.Admitted := by
  obtain ⟨hv, _, hs, hf⟩ := admitWork_ok h
  exact ⟨hv, hs, hf⟩

/-- What the sink has received so far is a prefix of what it receives in
sequential execution. -/
theorem reachable_delivered (hjob : job.Admitted)
    (h : Transition.Reachable (act job) job.start s) :
    s.delivered <+: (job.sequential job.items).1 := by
  rcases reachable_flow hjob h with ⟨taken, sent, h⟩ | ⟨result, _, _, hd⟩
  · have := sequential_append (job.items.drop s.nextIndex) h.succeeded
    rw [List.take_append_drop] at this
    rw [this, h.delivered]
    exact List.prefix_append _ _
  · exact (congrArg Prod.fst hd) ▸ List.prefix_rfl

/-- Sequential execution only looks at the work, the callbacks and the budget. -/
theorem sequential_congr {job job' : Job τ α} (hi : job'.items = job.items)
    (hp : job'.prepare = job.prepare) (hd : job'.deliver = job.deliver)
    (hb : job'.limits.budget = job.limits.budget) :
    job'.sequential job'.items = job.sequential job.items := by
  have hout : ∀ item, job'.outcome item = job.outcome item := by
    intro item
    rw [Job.outcome, Job.outcome, hp, hb]
  rw [hi]
  induction job.items with
  | nil => rfl
  | cons item rest ih =>
    have hf : job'.failure item = job.failure item := by
      rw [Job.failure, Job.failure, hout, hd]
    have ho : job'.offered item = job.offered item := by
      rw [Job.offered, Job.offered, hout]
    rw [Job.sequential, Job.sequential, hf, ho, ih]

/-- **Ordered, deterministic delivery.** In every state of every schedule the
sink has received a prefix of the work in ordinal order. When the coordinator
returns, the deliveries and the result are those of sequential execution, an
error is the error of the first failing item, and any other execution of the
same work with the same callbacks and byte budget returns the same. -/
theorem execute_sequential {job : Job τ α} {work : List (WorkItem τ)} {s : State τ α}
    (hwork : admitWork job.limits work = .ok job.items)
    (hs : Transition.Reachable (act job) job.start s) :
    job.items.Perm work ∧ job.items.Pairwise (fun a b => a.ordinal < b.ordinal) ∧
    (s.delivered.map Prod.fst) <+: job.items.map WorkItem.ordinal ∧
    (s.delivered.map Prod.fst).Nodup ∧
    ∀ result, s.coordinator = .finished result →
      (s.delivered, result) = job.sequential job.items ∧
      (∀ e, result = .error e ↔ ∃ k item, job.items[k]? = some item ∧
        job.failure item = some e ∧ ∀ other ∈ job.items.take k, job.failure other = none) ∧
      ∀ (job' : Job τ α) (s' : State τ α) (result' : Result Unit),
        job'.items = job.items → job'.prepare = job.prepare → job'.deliver = job.deliver →
        job'.limits.budget = job.limits.budget → admitWork job'.limits work = .ok job'.items →
        Transition.Reachable (act job') job'.start s' → s'.coordinator = .finished result' →
        s'.delivered = s.delivered ∧ result' = result := by
  have hjob := admitted_of_admitWork hwork
  obtain ⟨_, hperm, hsorted, _⟩ := admitWork_ok hwork
  have hprefix : (s.delivered.map Prod.fst) <+: job.items.map WorkItem.ordinal :=
    ((reachable_delivered hjob hs).map Prod.fst).trans (sequential_ordinals _)
  have hend : ∀ {job' : Job τ α} {s' : State τ α} {result' : Result Unit}, job'.Admitted →
      Transition.Reachable (act job') job'.start s' → s'.coordinator = .finished result' →
      (s'.delivered, result') = job'.sequential job'.items := by
    intro job' s' result' hjob' hs' hc
    rcases reachable_flow hjob' hs' with ⟨taken, sent, h⟩ | ⟨r, hr, _, hd⟩
    · exact absurd hc (h.open_ _)
    · rw [hc] at hr
      cases hr
      exact hd
  refine ⟨hperm, hsorted, hprefix, hjob.nodup.sublist hprefix.sublist, ?_⟩
  intro result hc
  have hseq := hend hjob hs hc
  refine ⟨hseq, ?_, ?_⟩
  · intro e
    rw [← sequential_error, ← hseq]
  · intro job' s' result' hi hp hd hb hwork' hs' hc'
    have hseq' := hend (admitted_of_admitWork hwork') hs' hc'
    rw [sequential_congr hi hp hd hb, ← hseq] at hseq'
    exact ⟨congrArg Prod.fst hseq', congrArg Prod.snd hseq'⟩

end Schedule

/-- Two items on two workers; the second one fails. -/
def pairJob : Job Nat Unit where
  limits := ⟨2, 2, 1, 2, 8, 8, 8⟩
  items := [⟨3, 0, ⟨1, 1, 1⟩⟩, ⟨7, 1, ⟨1, 1, 1⟩⟩]
  prepare := fun value => if value = 0 then .done (.ok ⟨(), 1⟩)
    else .done (.error (.integrity "second"))
  deliver := fun _ _ => .ok ()

/-- The second item is done first and has to wait for the first one. -/
def pairSchedule : List Action :=
  [.coordinator, .dispatcher, .dispatcher, .dispatcher, .dispatcher, .dispatcher, .dispatcher,
    .dispatcher, .dispatcher, .worker 0, .worker 1, .worker 1, .worker 1, .worker 1, .coordinator,
    .coordinator, .worker 0, .worker 0, .worker 0, .coordinator, .coordinator, .coordinator]

theorem execute_sequential_pair : ∃ s,
    Transition.run (act pairJob) pairSchedule pairJob.start = some s ∧
      s.coordinator = .finished (.error (.integrity "second")) ∧
      (s.delivered, .error (.integrity "second")) = pairJob.sequential pairJob.items := by
  obtain ⟨s, hs, hc⟩ : ∃ s, Transition.run (act pairJob) pairSchedule pairJob.start = some s ∧
    s.coordinator = .finished (.error (.integrity "second")) := ⟨_, rfl, rfl⟩
  have hwork : admitWork pairJob.limits [⟨7, 1, ⟨1, 1, 1⟩⟩, ⟨3, 0, ⟨1, 1, 1⟩⟩] =
    .ok pairJob.items := by decide +kernel
  obtain ⟨_, _, _, _, hend⟩ := execute_sequential hwork (Transition.reachable_of_run hs)
  exact ⟨s, hs, hc, (hend _ hc).1⟩

end ModelWeights.Pipeline
