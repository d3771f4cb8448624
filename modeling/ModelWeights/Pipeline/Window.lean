import ModelWeights.Pipeline.Open
import Mathlib.Algebra.BigOperators.Group.Multiset.Basic
import Mathlib.Tactic.Abel

/-! # The dispatch window

The items a dispatcher has sent stay in ordinal order behind the delivered ones,
and each of them holds a place in the window. As long as the next item is not
pending it holds a place elsewhere, so the pending outputs never fill the
window. -/
namespace ModelWeights.Pipeline
variable {τ α : Type}

/-! ## Where the dispatched items are -/

/-- The ordinal a worker holds: that of its item, or of its output. -/
def Worker.place : Worker τ α → Multiset Nat
  | .starting item _ | .running item _ _ _ | .waiting item _ _ _ _ _ _ => {item.ordinal}
  | .sending _ output => {output.ordinal}
  | .receiving | .exited => 0

/-- The ordinals of the items that are dispatched and neither delivered nor
dropped. -/
def State.dispatched (s : State τ α) : Multiset Nat :=
  ((s.queue.map fun queued => queued.item.ordinal : List Nat) : Multiset Nat) +
    (s.workers.map Worker.place).sum +
      (((s.results ++ s.pending).map WorkerOutput.ordinal : List Nat) : Multiset Nat)

/-- A worker is in its callback. -/
def Worker.isPreparing : Worker τ α → Bool
  | .running _ _ _ _ | .waiting _ _ _ _ _ _ _ => true
  | _ => false

/-- The depth of the delivery queue that the coordinator reports, if its next
step ends a round. -/
def roundDepth (job : Job τ α) (s : State τ α) : Option Nat :=
  match s.coordinator with
  | .draining =>
    match job.items[s.nextIndex]? with
    | none => some s.pending.length
    | some item =>
      match s.pending.find? fun output => output.ordinal == item.ordinal with
      | none => some s.pending.length
      | some output =>
        let pending := s.pending.eraseP fun output => output.ordinal == item.ordinal
        match output.result with
        | .error _ => some pending.length
        | .ok prepared =>
          match job.deliver output.ordinal prepared with
          | .error _ => some pending.length
          | .ok () => none
  | _ => none

theorem card_place (worker : Worker τ α) : worker.place.card = worker.window := by
  cases worker <;> rfl

theorem card_dispatched (s : State τ α) :
    s.window = s.dispatcher.window + s.dispatched.card := by
  have hworkers : (s.workers.map Worker.place).sum.card = (s.workers.map Worker.window).sum := by
    induction s.workers with
    | nil => rfl
    | cons w rest ih =>
      rw [List.map_cons, List.sum_cons, Multiset.card_add, ih, card_place, List.map_cons,
        List.sum_cons]
  simp only [State.window, State.dispatched, Multiset.card_add, hworkers, Multiset.coe_card,
    List.length_map]
  omega

/-! ## In order -/

/-- The dispatched items are those between the delivered ones and the ones that
the dispatcher still has, or has given up. -/
structure InOrder (job : Job τ α) (s : State τ α) (sent : Nat) : Prop where
  order : s.nextIndex ≤ sent ∧ sent ≤ job.items.length
  dispatched : s.dispatched =
    (((job.items.take sent).drop s.nextIndex).map WorkItem.ordinal : List Nat)
  remaining : s.dispatcher.remaining = [] ∨ s.dispatcher.remaining = job.items.drop sent
  receiving : s.coordinator = .receiving → ∃ item, job.items[s.nextIndex]? = some item ∧
    ∀ output ∈ s.pending, output.ordinal ≠ item.ordinal

/-- The coordinator has returned. -/
def Returned (s : State τ α) : Prop := ∃ result, s.coordinator = .finished result

section InOrder
variable {job : Job τ α} {s t : State τ α} {sent i : Nat}

/-- The places beside those of one worker. -/
theorem dispatched_set {w : Worker τ α} (hw : s.workers[i]? = some w) : ∃ rest,
    s.dispatched = w.place + rest ∧
      ∀ w' : Worker τ α, (s.setWorker i w').dispatched = w'.place + rest := by
  obtain ⟨others, hsum, hset⟩ := sum_set Worker.place hw
  refine ⟨((s.queue.map fun queued => queued.item.ordinal : List Nat) : Multiset Nat) + others +
    (((s.results ++ s.pending).map WorkerOutput.ordinal : List Nat) : Multiset Nat), ?_,
    fun w' => ?_⟩
  · simp only [State.dispatched, hsum]
    abel
  · simp only [State.dispatched, State.setWorker, hset]
    abel

/-- Steps that move no item. -/
theorem InOrder.same (h : InOrder job s sent) (hd : t.dispatched = s.dispatched)
    (hn : t.nextIndex = s.nextIndex) (hr : t.dispatcher.remaining = [] ∨
      t.dispatcher.remaining = s.dispatcher.remaining)
    (hc : t.coordinator = s.coordinator) (hp : t.pending = s.pending) : InOrder job t sent := by
  refine ⟨hn ▸ h.order, by rw [hd, hn, h.dispatched], ?_, ?_⟩
  · rcases hr with hr | hr
    · exact .inl hr
    · exact hr ▸ h.remaining
  · rw [hc, hn, hp]
    exact h.receiving

theorem InOrder.setWorker (h : InOrder job s sent) {w w' : Worker τ α}
    (hw : s.workers[i]? = some w) (hplace : w'.place = w.place) :
    InOrder job (s.setWorker i w') sent := by
  obtain ⟨rest, hX, hY⟩ := dispatched_set hw
  exact h.same ((hY w').trans (hplace ▸ hX.symm)) rfl (.inr rfl) rfl rfl

theorem InOrder.release (h : InOrder job s sent) (w : ResourceWeights) :
    InOrder job (s.release w) sent := h.same rfl rfl (.inr rfl) rfl rfl

theorem InOrder.dispatcherMove (h : InOrder job s sent) (hm : DispatcherMove job s t) :
    ∃ sent', InOrder job t sent' := by
  cases hm with
  | finish hd | refuse item rest hd hf | disconnect item rest hd hx =>
    exact ⟨sent, h.same rfl rfl (.inl rfl) rfl rfl⟩
  | take item rest hd | window item rest hd hw | reserve item rest hd hf =>
    exact ⟨sent, h.same rfl rfl (.inr (by rw [hd]; rfl)) rfl rfl⟩
  | send item rest hd hq =>
    have hdrop : job.items.drop sent = item :: rest := by
      rcases h.remaining with hr | hr
      · rw [hd] at hr
        cases hr
      · rw [← hr, hd]
        rfl
    have hitem : job.items[sent]? = some item := by
      have := congrArg (fun l => l[0]?) hdrop
      simpa using this
    have hlt := (List.getElem?_eq_some_iff.mp hitem).1
    refine ⟨sent + 1, ⟨⟨h.order.1.trans (Nat.le_succ _), hlt⟩, ?_, .inr ?_, h.receiving⟩⟩
    · have htake : ((job.items.take (sent + 1)).drop s.nextIndex).map WorkItem.ordinal =
          ((job.items.take sent).drop s.nextIndex).map WorkItem.ordinal ++ [item.ordinal] := by
        rw [List.take_add_one, hitem, List.drop_append_of_le_length]
        · simp
        · rw [List.length_take]
          have := h.order.1
          omega
      rw [htake, ← Multiset.coe_add, ← h.dispatched]
      simp only [State.dispatched, List.map_append, List.map_cons, List.map_nil,
        ← Multiset.coe_add]
      abel
    · rw [← List.drop_drop, hdrop]
      rfl

theorem InOrder.dispatcherQuit (h : InOrder job s sent) (hq : DispatcherQuit s t) :
    InOrder job t sent := by
  cases hq with
  | stop item rest hd | abandon item rest hd => exact h.same rfl rfl (.inl rfl) rfl rfl

theorem InOrder.runStep (h : InOrder job s sent) {item : WorkItem τ} {context : PrepareContext}
    {script : Preparation α} {frames : List (Frame α)}
    (hw : s.workers[i]? = some (.running item context script frames)) :
    InOrder job (runStep s i item context script frames) sent := by
  match script, frames, hw with
  | .done result, [], hw => exact (h.release _).setWorker hw rfl
  | .done result, .plain next :: frames, hw => exact h.setWorker hw rfl
  | .done result, .promoted previous promotions reservation next :: frames, hw =>
    exact (h.release _).setWorker hw rfl
  | .withResources required operation next, frames, hw =>
    unfold Pipeline.runStep
    dsimp only
    split
    · exact h.setWorker hw rfl
    · split
      · exact (h.release _).setWorker hw rfl
      · exact h.setWorker hw rfl

theorem InOrder.workerMove (h : InOrder job s sent) (hm : WorkerMove job s i t) :
    InOrder job t sent := by
  cases hm with
  | receive queued rest hw hq =>
    obtain ⟨others, hX, hY⟩ := dispatched_set (s := { s with queue := rest }) hw
    refine h.same ?_ rfl (.inr rfl) rfl rfl
    refine (hY (.starting queued.item queued.reservation)).trans ?_
    rw [← show _ = others from hX.trans (Multiset.zero_add _)]
    simp only [State.dispatched, Worker.place, hq, List.map_cons, ← Multiset.cons_coe,
      ← Multiset.singleton_add]
    abel
  | exit hw hq hd => exact h.setWorker hw rfl
  | start item reservation hw => exact h.setWorker hw rfl
  | run item context script frames hw => exact h.runStep hw
  | refuse item context required missing operation next frames hw hf => exact h.setWorker hw rfl
  | promote item context required missing operation next frames hw hl hf =>
    exact InOrder.setWorker (s := { s with used := addWeights s.used missing })
      (h.same rfl rfl (.inr rfl) rfl rfl) hw rfl
  | send item output hw hr =>
    obtain ⟨others, hX, hY⟩ := dispatched_set (s := { s with results := s.results ++ [output] }) hw
    refine h.same ?_ rfl (.inr rfl) rfl rfl
    refine ((hY .receiving).trans (Multiset.zero_add _)).trans ?_
    refine Multiset.add_right_inj.mp (hX.symm.trans ?_)
    simp only [State.dispatched, Worker.place, List.map_append, List.map_cons, List.map_nil,
      ← Multiset.coe_add, Multiset.coe_singleton]
    abel

theorem InOrder.workerQuit (h : InOrder job s sent) (hq : WorkerQuit s i t) :
    InOrder job t sent ∨ Returned t := by
  cases hq with
  | start item reservation hw => exact .inl (h.setWorker hw rfl)
  | observe item context script frames hw => exact .inl (h.setWorker hw rfl)
  | refuse item context required missing operation next frames hw => exact .inl (h.setWorker hw rfl)
  | disconnect item output result hw hc => exact .inr ⟨result, hc⟩

/-- The next item, when something is pending. -/
theorem InOrder.next_sent (h : InOrder job s sent) {output : WorkerOutput α}
    (hm : output ∈ s.pending) : s.nextIndex < sent := by
  by_contra hle
  have hmem : output.ordinal ∈ s.dispatched := by
    refine Multiset.mem_add.mpr (.inr (Multiset.mem_coe.mpr (List.mem_map_of_mem ?_)))
    exact List.mem_append_right _ hm
  rw [h.dispatched, List.drop_eq_nil_of_le (by rw [List.length_take]; omega)] at hmem
  cases hmem

theorem InOrder.coordinatorMove (h : InOrder job s sent) (hm : CoordinatorMove job s t) :
    InOrder job t sent ∨ Returned t := by
  cases hm with
  | receive output rest hc hr hnew =>
    refine .inl ⟨h.order, ?_, h.remaining, fun hx => by cases hx⟩
    rw [← h.dispatched]
    simp only [State.dispatched, hr, List.map_append, List.map_cons, ← Multiset.coe_add,
      ← Multiset.cons_coe, ← Multiset.singleton_add]
    abel
  | duplicate output other rest hc hr hm ho | disconnect hc hr hx | complete hc hi =>
    exact .inr ⟨_, rfl⟩
  | wait item hc hi hp => exact .inl ⟨h.order, h.dispatched, h.remaining, fun _ => ⟨item, hi, hp⟩⟩
  | deliver item output rest hc hi hp ho =>
    unfold deliverOutput
    cases hr : output.result with
    | error e => exact .inr ⟨_, rfl⟩
    | ok prepared =>
      dsimp only
      cases hd : job.deliver output.ordinal prepared with
      | error e => exact .inr ⟨_, rfl⟩
      | ok =>
        have hlt := h.next_sent (hp.mem_iff.mpr (List.mem_cons_self ..))
        have hrest : s.dispatched =
            item.ordinal ::ₘ State.dispatched { s with pending := rest } := by
          have hpending : ((s.pending.map WorkerOutput.ordinal : List Nat) : Multiset Nat) =
              item.ordinal ::ₘ ((rest.map WorkerOutput.ordinal : List Nat) : Multiset Nat) := by
            rw [Multiset.cons_coe, Multiset.coe_eq_coe, ← ho]
            exact hp.map WorkerOutput.ordinal
          simp only [State.dispatched, List.map_append, ← Multiset.coe_add, hpending,
            ← Multiset.singleton_add]
          abel
        refine .inl ⟨⟨hlt, h.order.2⟩, ?_, h.remaining, fun hx => ?_⟩
        · rw [h.dispatched, drop_next hi hlt, List.map_cons, ← Multiset.cons_coe,
            Multiset.cons_inj_right] at hrest
          exact hrest.symm
        · cases hc.symm.trans hx

/-- The items stay in order until the coordinator returns. -/
theorem InOrder.step (h : InOrder job s sent) {a : Action} (hs : act job a s = some t) :
    (∃ sent', InOrder job t sent') ∨ Returned t := by
  cases a with
  | dispatcher =>
    rcases dispatcherStep_cases hs with hm | ⟨_, hq⟩
    · exact .inl (h.dispatcherMove hm)
    · exact .inl ⟨sent, h.dispatcherQuit hq⟩
  | worker i =>
    rcases workerStep_cases hs with hm | ⟨_, hq⟩
    · exact .inl ⟨sent, h.workerMove hm⟩
    · exact (h.workerQuit hq).imp (fun h => ⟨sent, h⟩) id
  | cancellation i => exact (h.workerQuit (observeCancellation_quit hs)).imp (fun h => ⟨sent, h⟩) id
  | coordinator => exact (h.coordinatorMove (coordinatorStep_move hs)).imp (fun h => ⟨sent, h⟩) id

theorem Returned.step (h : Returned s) {a : Action} (hs : act job a s = some t) : Returned t := by
  obtain ⟨result, hc⟩ := h
  refine ⟨result, ?_⟩
  cases a with
  | dispatcher => exact (dispatcherStep_keeps hs).coordinator.trans hc
  | worker i => exact (workerStep_keeps hs).coordinator.trans hc
  | cancellation i => exact (observeCancellation_keeps hs).2.coordinator.trans hc
  | coordinator =>
    simp only [act, coordinatorStep, hc] at hs
    cases hs

theorem inOrder_start (job : Job τ α) : InOrder job job.start 0 := by
  refine ⟨⟨Nat.le_refl _, Nat.zero_le _⟩, ?_, .inr rfl, fun hx => by cases hx⟩
  simp [State.dispatched, Job.start, List.map_replicate, Worker.place, List.sum_replicate]

theorem open_inOrder (h : Transition.Reachable (openAct job) job.start s) :
    (∃ sent, InOrder job s sent) ∨ Returned s := by
  refine open_invariant (I := fun s => (∃ sent, InOrder job s sent) ∨ Returned s) ?_ ?_
    (.inl ⟨0, inOrder_start job⟩) h
  · rintro s cancelled (⟨sent, hs⟩ | hs)
    · exact .inl ⟨sent, hs.same rfl rfl (.inr rfl) rfl rfl⟩
    · exact .inr hs
  · rintro prepare deliver action s t (⟨sent, hs⟩ | hs) ha
    · have hjob : InOrder { job with prepare, deliver } s sent :=
        ⟨hs.order, hs.dispatched, hs.remaining, hs.receiving⟩
      rcases hjob.step ha with ⟨sent', ht⟩ | ht
      · exact .inl ⟨sent', ht.order, ht.dispatched, ht.remaining, ht.receiving⟩
      · exact .inr ht
    · exact .inr (hs.step ha)

end InOrder

/-! ## Depth of the delivery queue -/

section Depth
variable {job : Job τ α} {s : State τ α} {sent : Nat}

/-- The pending outputs leave a place for the next item. -/
theorem InOrder.pending_lt (h : InOrder job s sent) {item : WorkItem τ}
    (hi : job.items[s.nextIndex]? = some item)
    (hp : ∀ output ∈ s.pending, output.ordinal ≠ item.ordinal) {limit : Nat} (hpos : 0 < limit)
    (hcard : s.dispatched.card ≤ limit) : s.pending.length ≤ limit - 1 := by
  cases hpending : s.pending with
  | nil => exact Nat.zero_le _
  | cons output rest =>
    have hlt := h.next_sent (hpending ▸ List.mem_cons_self ..)
    have hmem : item.ordinal ∈ s.dispatched := by
      rw [h.dispatched, drop_next hi hlt]
      exact Multiset.mem_coe.mpr (List.mem_cons_self ..)
    -- the next item is dispatched and not pending
    have hsplit : s.dispatched =
        (((s.queue.map fun queued => queued.item.ordinal : List Nat) : Multiset Nat) +
          (s.workers.map Worker.place).sum + ((s.results.map WorkerOutput.ordinal : List Nat) :
            Multiset Nat)) + ((s.pending.map WorkerOutput.ordinal : List Nat) : Multiset Nat) := by
      simp only [State.dispatched, List.map_append, ← Multiset.coe_add]
      abel
    rw [hsplit] at hmem hcard
    rcases Multiset.mem_add.mp hmem with helse | hpend
    · have := Multiset.card_pos_iff_exists_mem.mpr ⟨_, helse⟩
      rw [Multiset.card_add, Multiset.coe_card, List.length_map, hpending] at hcard
      rw [List.length_cons] at hcard ⊢
      omega
    · obtain ⟨other, hother, ho⟩ := List.mem_map.mp (Multiset.mem_coe.mp hpend)
      exact absurd ho (hp other hother)

theorem InOrder.roundDepth_le (h : InOrder job s sent) {limit depth : Nat} (hpos : 0 < limit)
    (hcard : s.dispatched.card ≤ limit) (hd : roundDepth job s = some depth) :
    depth ≤ limit - 1 := by
  have hpending : s.pending.length ≤ limit := by
    refine Nat.le_trans ?_ hcard
    simp only [State.dispatched, Multiset.card_add, Multiset.coe_card, List.length_map,
      List.length_append]
    omega
  unfold roundDepth at hd
  split at hd
  · split at hd
    · next hi =>
      -- everything is delivered
      obtain rfl := Option.some.inj hd
      cases hpend : s.pending with
      | nil => exact Nat.zero_le _
      | cons output rest =>
        have hlt := h.next_sent (hpend ▸ List.mem_cons_self ..)
        have hle := List.getElem?_eq_none_iff.mp hi
        have := h.order.2
        omega
    · next item hi =>
      split at hd
      · next hf =>
        obtain rfl := Option.some.inj hd
        refine h.pending_lt hi (fun output ho => ?_) hpos hcard
        simpa using List.find?_eq_none.mp hf output ho
      · next output hf =>
        have hnext : (output.ordinal == item.ordinal) = true := by
          have := List.find?_some hf
          exact this
        have hlen : (s.pending.eraseP fun output => output.ordinal == item.ordinal).length =
            s.pending.length - 1 :=
          List.length_eraseP_of_mem (List.mem_of_find?_eq_some hf) hnext
        have hdepth : depth =
            (s.pending.eraseP fun output => output.ordinal == item.ordinal).length := by
          dsimp only at hd
          split at hd
          · exact (Option.some.inj hd).symm
          · split at hd
            · exact (Option.some.inj hd).symm
            · cases hd
        omega
  · cases hd

end Depth

/-! ## Outputs -/

section Outputs
variable {job : Job τ α} {s t : State τ α} {i : Nat}

/-- The output of a callback that returns. -/
def Worker.finishes : Worker τ α → Worker τ α → List (WorkerOutput α)
  | .running _ _ _ _, .sending _ output => [output]
  | _, _ => []

/-- The output that worker `i` finishes in a step. -/
def finished (i : Nat) (s t : State τ α) : List (WorkerOutput α) :=
  match s.workers[i]?, t.workers[i]? with
  | some w, some w' => w.finishes w'
  | _, _ => []

def finishedBy (s t : State τ α) : OpenAction τ α → List (WorkerOutput α)
  | .thread _ _ _ (.worker i) => finished i s t
  | _ => []

/-- All outputs of a schedule. -/
def outputs (job : Job τ α) : List (OpenAction τ α) → State τ α → List (WorkerOutput α)
  | [], _ => []
  | a :: rest, s =>
    match openAct job a s with
    | none => []
    | some t => finishedBy s t a ++ outputs job rest t

/-- The ordinal of an item whose callback has not returned. -/
def Worker.unmade : Worker τ α → Multiset Nat
  | .starting item _ | .running item _ _ _ | .waiting item _ _ _ _ _ _ => {item.ordinal}
  | .sending _ _ | .receiving | .exited => 0

/-- The ordinals that can still become an output. -/
def State.unmade (s : State τ α) : Multiset Nat :=
  ((s.dispatcher.remaining.map WorkItem.ordinal : List Nat) : Multiset Nat) +
    ((s.queue.map fun queued => queued.item.ordinal : List Nat) : Multiset Nat) +
      (s.workers.map Worker.unmade).sum

def ordinals (outputs : List (WorkerOutput α)) : Multiset Nat :=
  (outputs.map WorkerOutput.ordinal : List Nat)

theorem finished_set {w w' : Worker τ α} (hw : s.workers[i]? = some w)
    (ht : t.workers = s.workers.set i w') : finished i s t = w.finishes w' := by
  have hlt := (List.getElem?_eq_some_iff.mp hw).1
  have hw' : t.workers[i]? = some w' := by rw [ht, List.getElem?_set_self hlt]
  simp only [finished, hw, hw']

/-- A worker went on: what it finishes is no longer unmade. -/
theorem unmade_worker {w w' : Worker τ α} (hw : s.workers[i]? = some w)
    (ht : t.workers = s.workers.set i w') (hd : t.dispatcher = s.dispatcher)
    (hq : t.queue = s.queue) (h : ordinals (w.finishes w') + w'.unmade ≤ w.unmade) :
    ordinals (finished i s t) + t.unmade ≤ s.unmade := by
  obtain ⟨rest, hsum, hset⟩ := sum_set Worker.unmade hw
  rw [finished_set hw ht]
  simp only [State.unmade, ht, hd, hq, hsum, hset]
  have := add_le_add_right h (((s.dispatcher.remaining.map WorkItem.ordinal : List Nat) :
    Multiset Nat) + ((s.queue.map fun queued => queued.item.ordinal : List Nat) :
      Multiset Nat) + rest)
  refine le_trans (le_of_eq ?_) (le_trans this (le_of_eq ?_))
  · abel
  · abel

theorem unmade_runStep {item : WorkItem τ} {context : PrepareContext} {script : Preparation α}
    {frames : List (Frame α)}
    (hw : s.workers[i]? = some (.running item context script frames)) :
    ordinals (finished i s (runStep s i item context script frames)) +
      (runStep s i item context script frames).unmade ≤ s.unmade := by
  match script, frames, hw with
  | .done result, [], hw => exact unmade_worker hw rfl rfl rfl (le_of_eq (add_zero _))
  | .done result, .plain next :: frames, hw =>
    exact unmade_worker hw rfl rfl rfl (le_of_eq (zero_add _))
  | .done result, .promoted previous promotions reservation next :: frames, hw =>
    exact unmade_worker hw rfl rfl rfl (le_of_eq (zero_add _))
  | .withResources required operation next, frames, hw =>
    unfold runStep
    dsimp only
    split
    · exact unmade_worker hw rfl rfl rfl (le_of_eq (zero_add _))
    · split
      · exact unmade_worker hw rfl rfl rfl (le_of_eq (zero_add _))
      · exact unmade_worker hw rfl rfl rfl (le_of_eq (zero_add _))

theorem unmade_workerMove (hm : WorkerMove job s i t) :
    ordinals (finished i s t) + t.unmade ≤ s.unmade := by
  cases hm with
  | receive queued rest hw hq =>
    obtain ⟨others, hsum, hset⟩ := sum_set Worker.unmade hw
    rw [finished_set hw rfl]
    simp only [State.unmade, State.setWorker, hsum, hset, hq, Worker.finishes, ordinals,
      Worker.unmade, List.map_cons, List.map_nil, ← Multiset.cons_coe, ← Multiset.singleton_add,
      Multiset.coe_nil]
    exact le_of_eq (by abel)
  | exit hw hq hd => exact unmade_worker hw rfl rfl rfl (le_of_eq (zero_add _))
  | start item reservation hw => exact unmade_worker hw rfl rfl rfl (le_of_eq (zero_add _))
  | run item context script frames hw => exact unmade_runStep hw
  | refuse item context required missing operation next frames hw hf =>
    exact unmade_worker hw rfl rfl rfl (le_of_eq (zero_add _))
  | promote item context required missing operation next frames hw hl hf =>
    exact unmade_worker hw rfl rfl rfl (le_of_eq (zero_add _))
  | send item output hw hr => exact unmade_worker hw rfl rfl rfl (le_of_eq (zero_add _))

theorem unmade_workerQuit (hq : WorkerQuit s i t) :
    ordinals (finished i s t) + t.unmade ≤ s.unmade := by
  cases hq with
  | start item reservation hw => exact unmade_worker hw rfl rfl rfl (le_of_eq (zero_add _))
  | observe item context script frames hw =>
    exact unmade_worker hw rfl rfl rfl (le_of_eq (zero_add _))
  | refuse item context required missing operation next frames hw =>
    exact unmade_worker hw rfl rfl rfl (le_of_eq (zero_add _))
  | disconnect item output result hw hc =>
    exact unmade_worker hw rfl rfl rfl (le_of_eq (zero_add _))

theorem unmade_coordinatorMove (hm : CoordinatorMove job s t) : t.unmade = s.unmade := by
  cases hm with
  | receive output rest hc hr hnew | wait item hc hi hp
  | duplicate output other rest hc hr hm ho | disconnect hc hr hx | complete hc hi => rfl
  | deliver item output rest hc hi hp ho =>
    unfold deliverOutput
    split
    · rfl
    · dsimp only
      split <;> rfl

theorem unmade_dispatcher (hs : dispatcherStep job s = some t) : t.unmade ≤ s.unmade := by
  have hless : ∀ remaining : List (WorkItem τ), remaining = [] ∨
      remaining = s.dispatcher.remaining → t.dispatcher.remaining = remaining →
      t.queue = s.queue → t.workers = s.workers → t.unmade ≤ s.unmade := by
    rintro remaining hr hd hq hw
    simp only [State.unmade, hd, hq, hw]
    rcases hr with rfl | rfl
    · exact add_le_add_left (add_le_add_left (Multiset.zero_le _) _) _
    · exact le_refl _
  rcases dispatcherStep_cases hs with hm | ⟨_, hq⟩
  · cases hm with
    | finish hd | refuse item rest hd hf | disconnect item rest hd hx =>
      exact hless [] (.inl rfl) rfl rfl rfl
    | take item rest hd | window item rest hd hw | reserve item rest hd hf =>
      exact hless _ (.inr rfl) (by rw [hd]; rfl) rfl rfl
    | send item rest hd hq =>
      simp only [State.unmade, hd, Dispatcher.remaining, List.map_append, List.map_cons,
        List.map_nil, ← Multiset.coe_add, ← Multiset.cons_coe, ← Multiset.singleton_add,
        Multiset.coe_nil]
      exact le_of_eq (by abel)
  · cases hq with
    | stop item rest hd | abandon item rest hd => exact hless [] (.inl rfl) rfl rfl rfl

theorem unmade_openAct {a : OpenAction τ α} (h : openAct job a s = some t) :
    ordinals (finishedBy s t a) + t.unmade ≤ s.unmade := by
  cases a with
  | cancel =>
    obtain rfl := Option.some.inj h
    exact le_of_eq (zero_add _)
  | thread prepare deliver seen action =>
    obtain ⟨u, hu, rfl⟩ := Option.map_eq_some_iff.mp h
    cases action with
    | dispatcher =>
      have := unmade_dispatcher hu
      exact le_trans (le_of_eq (zero_add _)) this
    | worker i =>
      rcases workerStep_cases hu with hm | ⟨_, hq⟩
      · have := unmade_workerMove hm
        exact this
      · have := unmade_workerQuit hq
        exact this
    | cancellation i =>
      have := unmade_workerQuit (observeCancellation_quit hu)
      have hless := (Multiset.le_add_left _ _).trans this
      exact le_trans (le_of_eq (zero_add _)) hless
    | coordinator =>
      have := unmade_coordinatorMove (coordinatorStep_move hu)
      exact le_trans (le_of_eq (zero_add _)) (le_of_eq this)

/-- Every ordinal becomes an output at most once. -/
theorem outputs_unmade : ∀ {actions : List (OpenAction τ α)} {s : State τ α},
    ordinals (outputs job actions s) ≤ s.unmade
  | [], s => Multiset.zero_le _
  | a :: rest, s => by
    unfold outputs
    split
    · exact Multiset.zero_le _
    · next t ht =>
      rw [ordinals, List.map_append, ← Multiset.coe_add]
      exact le_trans (add_le_add_right outputs_unmade _) (unmade_openAct ht)

theorem unmade_start (job : Job τ α) :
    job.start.unmade = ((job.items.map WorkItem.ordinal : List Nat) : Multiset Nat) := by
  simp [State.unmade, Job.start, Dispatcher.remaining, List.map_replicate, Worker.unmade,
    List.sum_replicate]

end Outputs

/-- **The dispatch window.** In every state of every schedule, cancelled at any
point and with any callbacks: the items dispatched and neither delivered nor
dropped are at most as many as the look-ahead, the running callbacks at most as
many as the configured workers, and the depth that the coordinator reports at
the end of a round is at most the limit it reports with it. No two outputs of a
schedule have the same ordinal. -/
theorem dispatch_window {job : Job τ α} {work : List (WorkItem τ)}
    (hwork : admitWork job.limits work = .ok job.items) (actions : List (OpenAction τ α)) :
    ((outputs job actions job.start).map WorkerOutput.ordinal).Nodup ∧
    ∀ s, Transition.run (openAct job) actions job.start = some s →
      s.dispatched.card ≤ job.limits.dispatchLookahead ∧
      (s.workers.filter Worker.isPreparing).length ≤ job.limits.workers ∧
      (s.coordinator = .receiving → s.pending.length ≤ job.limits.dispatchLookahead - 1) ∧
      ∀ prepare deliver depth, roundDepth { job with prepare, deliver } s = some depth →
        depth ≤ job.limits.dispatchLookahead - 1 := by
  have hjob := admitted_of_admitWork hwork
  have hpos := hjob.limits_pos.2.2
  refine ⟨?_, fun s hs => ?_⟩
  · have hle : ordinals (outputs job actions job.start) ≤ _ :=
      le_trans outputs_unmade (le_of_eq (unmade_start job))
    exact Multiset.coe_nodup.mp (Multiset.nodup_of_le hle (Multiset.coe_nodup.mpr hjob.nodup))
  · have hreach := Transition.reachable_of_run hs
    have hbound := open_bounded hreach
    have hcard : s.dispatched.card ≤ job.limits.dispatchLookahead := by
      have := (open_accounts hreach).window
      have := card_dispatched s
      have := hbound.window
      omega
    refine ⟨hcard, ?_, fun hc => ?_, fun prepare deliver depth hd => ?_⟩
    · refine (List.length_filter_le _ _).trans (hbound.workers.le.trans ?_)
      exact (Nat.min_le_left _ _).trans (Nat.min_le_left _ _)
    · rcases open_inOrder hreach with ⟨sent, h⟩ | ⟨result, h⟩
      · obtain ⟨item, hi, hp⟩ := h.receiving hc
        exact h.pending_lt hi hp hpos hcard
      · rw [hc] at h
        cases h
    · rcases open_inOrder hreach with ⟨sent, h⟩ | ⟨result, h⟩
      · have hopen : InOrder { job with prepare, deliver } s sent :=
          ⟨h.order, h.dispatched, h.remaining, h.receiving⟩
        exact hopen.roundDepth_le hpos hcard hd
      · rw [roundDepth, h] at hd
        cases hd

/-- The token is cancelled while both workers are busy. -/
def cancelledPair : List (OpenAction Nat Unit) :=
  let free := (pairSchedule.take 13).map (.thread pairJob.prepare pairJob.deliver true)
  let late := [.worker 1, .coordinator, .coordinator, .worker 0, .worker 0].map
    (.thread pairJob.prepare pairJob.deliver true)
  free ++ .cancel :: late

theorem dispatch_window_cancelled :
    ((outputs pairJob cancelledPair pairJob.start).map WorkerOutput.ordinal).Nodup ∧
    ∃ s, Transition.run (openAct pairJob) cancelledPair pairJob.start = some s ∧
      s.cancelled = true ∧ s.pending.map WorkerOutput.ordinal = [7] ∧ s.dispatched.card ≤ 2 := by
  have hwork : admitWork pairJob.limits [⟨7, 1, ⟨1, 1, 1⟩⟩, ⟨3, 0, ⟨1, 1, 1⟩⟩] =
    .ok pairJob.items := by decide +kernel
  obtain ⟨hnodup, hstate⟩ := dispatch_window hwork cancelledPair
  obtain ⟨s, hs, hc, hp⟩ : ∃ s, Transition.run (openAct pairJob) cancelledPair pairJob.start =
    some s ∧ s.cancelled = true ∧ s.pending.map WorkerOutput.ordinal = [7] := ⟨_, rfl, rfl, rfl⟩
  exact ⟨hnodup, s, hs, hc, hp, (hstate s hs).1⟩

end ModelWeights.Pipeline
