import ModelWeights.Pipeline.Order

/-! # Permits

The budget counts exactly the permits that the dispatched items hold, wherever
they are, and the window counts the items. -/
namespace ModelWeights.Pipeline
open ResourceWeights
variable {τ α : Type}

/-! ## Who holds what -/

def Dispatcher.held : Dispatcher τ → ResourceWeights
  | .sending item _ => item.resources
  | _ => .default

def Dispatcher.window : Dispatcher τ → Nat
  | .reserving _ _ | .sending _ _ => 1
  | _ => 0

def Frame.held : Frame α → ResourceWeights
  | .plain _ => .default
  | .promoted _ _ reservation _ => reservation

def Worker.held : Worker τ α → ResourceWeights
  | .starting _ reservation => reservation
  | .running _ context _ frames | .waiting _ context _ _ _ _ frames =>
    addWeights context.held (totalWeights (frames.map Frame.held))
  | .sending _ output => output.held
  | .receiving | .exited => .default

def Worker.window (worker : Worker τ α) : Nat := worker.item?.toList.length

/-- The permits that dispatched items hold. -/
def State.held (s : State τ α) : ResourceWeights :=
  addWeights s.dispatcher.held (addWeights (totalWeights (s.queue.map QueuedWork.reservation))
    (addWeights (totalWeights (s.workers.map Worker.held))
      (totalWeights ((s.results ++ s.pending).map WorkerOutput.held))))

/-- The places that dispatched items hold in the window. -/
def State.window (s : State τ α) : Nat :=
  s.dispatcher.window + s.queue.length + (s.workers.map Worker.window).sum +
    (s.results ++ s.pending).length

structure Accounts (s : State τ α) : Prop where
  used : ∀ d, s.used.get d = s.held.get d
  window : s.windowUsed = s.window

/-! ## What a callback gives back -/

theorem workerOutput_held_le (item : WorkItem τ) (context : PrepareContext)
    (result : Result (PreparedItem α)) (d : Dimension) :
    (workerOutput item context result).held.get d ≤ context.held.get d := by
  unfold workerOutput WorkerOutput.held
  cases checkPrepared context.reserved.preparedBytes result with
  | error e => simp
  | ok prepared =>
    have hsum := retainPromoted_sum_le
      (prepared.bytes - min context.initialReservation.preparedBytes prepared.bytes)
      context.promotedPrepared
    cases d with
    | prepared =>
      simp only [OutputReservation.held, OutputReservation.retainPrepared, PrepareContext.held,
        get_addWeights, get_ofPrepared, if_true]
      simp only [ResourceWeights.get]
      omega
    | _ => simp [OutputReservation.held]

theorem sum_take_le (n : Nat) (l : List Nat) : (l.take n).sum ≤ l.sum := by
  have := congrArg List.sum (List.take_append_drop n l)
  rw [List.sum_append] at this
  omega

theorem settle_held_le (context : PrepareContext) (previous : ResourceWeights) (promotions : Nat)
    (result : Result (PreparedItem α)) (d : Dimension) :
    (context.settle previous promotions result).held.get d ≤ context.held.get d := by
  have hsum : (context.settle previous promotions result).promotedPrepared.sum ≤
      context.promotedPrepared.sum := by
    unfold PrepareContext.settle
    dsimp only
    split
    · exact Nat.le_refl _
    · exact sum_take_le _ _
  simp only [PrepareContext.held, get_addWeights, get_ofPrepared]
  refine Nat.add_le_add_left ?_ _
  split
  · exact hsum
  · exact Nat.le_refl _

theorem releasePrepared_held (context : PrepareContext) (d : Dimension) :
    context.held.get d = context.releasePrepared.held.get d + context.preparedHeld.get d := by
  cases d with
  | prepared =>
    simp [PrepareContext.held, PrepareContext.releasePrepared, PrepareContext.preparedHeld]
    rfl
  | _ => simp [PrepareContext.held, PrepareContext.releasePrepared, PrepareContext.preparedHeld]

theorem promote_held (context : PrepareContext) (required missing : ResourceWeights)
    (d : Dimension) :
    (context.promote required missing).held.get d + missing.withoutPrepared.get d =
      context.held.get d + missing.get d := by
  cases d with
  | prepared =>
    simp only [PrepareContext.held, PrepareContext.promote, get_addWeights, get_ofPrepared,
      get_withoutPrepared, if_true, List.sum_append]
    show _ + (_ + (if missing.preparedBytes > 0 then _ else _ : List Nat).sum) + 0 =
      _ + _ + missing.preparedBytes
    split
    · simp; omega
    · simp; omega
  | _ => simp [PrepareContext.held, PrepareContext.promote]

/-! ## Every step keeps the accounts -/

section Keeps
variable {job : Job τ α} {s t : State τ α} {i : Nat} {w : Worker τ α}

/-- A worker changed: the difference is what it took or gave back. -/
theorem Accounts.setWorker (h : Accounts s) (hw : s.workers[i]? = some w) {w' : Worker τ α}
    {used : ResourceWeights}
    (hused : ∀ d, used.get d + w.held.get d = s.used.get d + w'.held.get d)
    (hwin : w'.window = w.window) :
    Accounts (({ s with used }).setWorker i w') := by
  obtain ⟨others, hp, hset⟩ := perm_set hw
  constructor
  · intro d
    have hold := h.used d
    have hnew := hused d
    have h₁ := ((hp.map Worker.held).map fun v => v.get d).sum_eq
    have h₂ := (((hset w').map Worker.held).map fun v => v.get d).sum_eq
    simp only [List.map_cons, List.sum_cons] at h₁ h₂
    simp only [State.held, State.setWorker, get_addWeights, get_totalWeights] at hold ⊢
    omega
  · have hold := h.window
    have h₁ := (hp.map Worker.window).sum_eq
    have h₂ := ((hset w').map Worker.window).sum_eq
    simp only [List.map_cons, List.sum_cons] at h₁ h₂
    simp only [State.window, State.setWorker] at hold ⊢
    omega

theorem Accounts.dispatcherMove (h : Accounts s) (hm : DispatcherMove job s t) : Accounts t := by
  have hwindow := h.window
  have hused := h.used
  simp only [State.held, get_addWeights, get_totalWeights] at hused
  simp only [State.window] at hwindow
  cases hm with
  | finish hd | take item rest hd =>
    simp only [hd, Dispatcher.held, Dispatcher.window] at hused hwindow
    exact ⟨by simpa [State.held, Dispatcher.held] using hused, hwindow⟩
  | window item rest hd hw =>
    simp only [hd, Dispatcher.held, Dispatcher.window] at hused hwindow
    refine ⟨by simpa [State.held, Dispatcher.held] using hused, ?_⟩
    simp only [State.window, Dispatcher.window]
    omega
  | refuse item rest hd hf =>
    simp only [hd, Dispatcher.held, Dispatcher.window] at hused hwindow
    refine ⟨by simpa [State.held, Dispatcher.held, State.releaseWindow] using hused, ?_⟩
    simp only [State.window, Dispatcher.window, State.releaseWindow]
    omega
  | reserve item rest hd hf =>
    simp only [hd, Dispatcher.held, Dispatcher.window] at hused hwindow
    refine ⟨fun d => ?_, hwindow⟩
    have := hused d
    simp only [State.held, Dispatcher.held, get_addWeights, get_totalWeights, get_default] at this ⊢
    omega
  | disconnect item rest hd hx =>
    simp only [hd, Dispatcher.held, Dispatcher.window] at hused hwindow
    constructor
    · intro d
      have := hused d
      simp only [State.held, Dispatcher.held, State.releaseWindow, State.release, get_addWeights,
        get_subtractWeights, get_totalWeights, get_default] at this ⊢
      omega
    · simp only [State.window, Dispatcher.window, State.releaseWindow, State.release]
      omega
  | send item rest hd hq =>
    simp only [hd, Dispatcher.held, Dispatcher.window] at hused hwindow
    constructor
    · intro d
      have := hused d
      simp only [State.held, Dispatcher.held, get_addWeights, get_totalWeights, get_default,
        List.map_append, List.sum_append, List.map_cons, List.map_nil, List.sum_cons,
        List.sum_nil] at this ⊢
      omega
    · simp only [State.window, Dispatcher.window, List.length_append, List.length_cons,
        List.length_nil] at hwindow ⊢
      omega

theorem Accounts.runStep (h : Accounts s) {item : WorkItem τ} {context : PrepareContext}
    {script : Preparation α} {frames : List (Frame α)}
    (hw : s.workers[i]? = some (.running item context script frames)) :
    Accounts (runStep s i item context script frames) := by
  -- the worker holds no more than the budget has given out
  have hle : ∀ d, (Worker.running item context script frames).held.get d ≤ s.used.get d := by
    obtain ⟨others, hp, _⟩ := perm_set hw
    intro d
    have hold := h.used d
    have h₁ := ((hp.map Worker.held).map fun v => v.get d).sum_eq
    simp only [List.map_cons, List.sum_cons] at h₁
    simp only [State.held, get_addWeights, get_totalWeights] at hold
    omega
  match script, frames, hw, hle with
  | .done result, [], hw, hle =>
    refine h.setWorker hw (fun d => ?_) rfl
    have h₁ := hle d
    have h₂ := workerOutput_held_le item context result d
    simp only [Worker.held, get_addWeights, get_subtractWeights, get_totalWeights, List.map_nil,
      List.sum_nil] at h₁ ⊢
    omega
  | .done result, .plain next :: frames, hw, hle =>
    refine h.setWorker hw (fun d => ?_) rfl
    simp [Worker.held, Frame.held]
  | .done result, .promoted previous promotions reservation next :: frames, hw, hle =>
    refine h.setWorker hw (fun d => ?_) rfl
    have h₁ := hle d
    have h₂ := settle_held_le context previous promotions result d
    simp only [Worker.held, Frame.held, get_addWeights, get_subtractWeights, get_totalWeights,
      List.map_cons, List.sum_cons] at h₁ ⊢
    omega
  | .withResources required operation next, frames, hw, hle =>
    unfold Pipeline.runStep
    dsimp only
    split
    · refine h.setWorker hw (fun d => ?_) rfl
      simp [Worker.held, Frame.held]
    · split
      · refine h.setWorker hw (fun d => ?_) rfl
        have h₁ := hle d
        have h₂ := releasePrepared_held context d
        simp only [Worker.held, get_addWeights, get_subtractWeights] at h₁ ⊢
        omega
      · exact h.setWorker hw (fun d => rfl) rfl

theorem Accounts.workerMove (h : Accounts s) (hm : WorkerMove job s i t) : Accounts t := by
  cases hm with
  | receive queued rest hw hq =>
    obtain ⟨others, hp, hset⟩ := perm_set hw
    constructor
    · intro d
      have hold := h.used d
      have h₁ := ((hp.map Worker.held).map fun v => v.get d).sum_eq
      have h₂ := (((hset (.starting queued.item queued.reservation)).map Worker.held).map
        fun v => v.get d).sum_eq
      simp only [List.map_cons, List.sum_cons, Worker.held, get_default] at h₁ h₂
      simp only [State.held, State.setWorker, get_addWeights, get_totalWeights, hq, List.map_cons,
        List.sum_cons] at hold ⊢
      omega
    · have hold := h.window
      have h₁ := (hp.map Worker.window).sum_eq
      have h₂ := ((hset (.starting queued.item queued.reservation)).map Worker.window).sum_eq
      simp only [List.map_cons, List.sum_cons] at h₁ h₂
      have hidle : (Worker.receiving : Worker τ α).window = 0 := rfl
      have hbusy : (Worker.starting queued.item queued.reservation : Worker τ α).window = 1 := rfl
      simp only [State.window, State.setWorker, hq, List.length_cons] at hold ⊢
      omega
  | exit hw hq hd => exact h.setWorker hw (fun d => rfl) rfl
  | start item reservation hw =>
    refine h.setWorker hw (fun d => ?_) rfl
    simp [Worker.held, PrepareContext.held, PrepareContext.new]
  | run item context script frames hw => exact h.runStep hw
  | refuse item context required missing operation next frames hw hf =>
    exact h.setWorker hw (fun d => rfl) rfl
  | promote item context required missing operation next frames hw hl hf =>
    refine h.setWorker hw (fun d => ?_) rfl
    have := promote_held context required missing d
    simp only [Worker.held, Frame.held, get_addWeights, get_totalWeights, List.map_cons,
      List.sum_cons] at this ⊢
    omega
  | send item output hw hr =>
    obtain ⟨others, hp, hset⟩ := perm_set hw
    constructor
    · intro d
      have hold := h.used d
      have h₁ := ((hp.map Worker.held).map fun v => v.get d).sum_eq
      have h₂ := (((hset .receiving).map Worker.held).map fun v => v.get d).sum_eq
      simp only [List.map_cons, List.sum_cons, Worker.held, get_default] at h₁ h₂
      simp only [State.held, State.setWorker, get_addWeights, get_totalWeights, List.map_append,
        List.sum_append, List.map_cons, List.sum_cons, List.map_nil, List.sum_nil] at hold ⊢
      omega
    · have hold := h.window
      have h₁ := (hp.map Worker.window).sum_eq
      have h₂ := ((hset .receiving).map Worker.window).sum_eq
      simp only [List.map_cons, List.sum_cons] at h₁ h₂
      have hbusy : (Worker.sending item output : Worker τ α).window = 1 := rfl
      have hidle : (Worker.receiving : Worker τ α).window = 0 := rfl
      simp only [State.window, State.setWorker, List.length_append, List.length_cons,
        List.length_nil] at hold ⊢
      omega

theorem Accounts.dispatcherQuit (h : Accounts s) (hq : DispatcherQuit s t) : Accounts t := by
  have hwindow := h.window
  have hused := h.used
  simp only [State.held, get_addWeights, get_totalWeights] at hused
  simp only [State.window] at hwindow
  cases hq with
  | stop item rest hd =>
    rcases hd with hd | hd
    all_goals
      simp only [hd, Dispatcher.held, Dispatcher.window] at hused hwindow
      exact ⟨by simpa [State.held, Dispatcher.held] using hused, hwindow⟩
  | abandon item rest hd =>
    simp only [hd, Dispatcher.held, Dispatcher.window] at hused hwindow
    refine ⟨by simpa [State.held, Dispatcher.held, State.releaseWindow] using hused, ?_⟩
    simp only [State.window, Dispatcher.window, State.releaseWindow]
    omega

theorem Accounts.workerQuit (h : Accounts s) (hq : WorkerQuit s i t) : Accounts t := by
  cases hq with
  | start item reservation hw =>
    refine h.setWorker hw (fun d => ?_) rfl
    simp [Worker.held, PrepareContext.held, PrepareContext.new]
  | observe item context script frames hw => exact h.setWorker hw (fun d => rfl) rfl
  | refuse item context required missing operation next frames hw =>
    exact h.setWorker hw (fun d => rfl) rfl
  | disconnect item output result hw hc =>
    -- the output is dropped with the permits of its item
    obtain ⟨others, hp, hset⟩ := perm_set hw
    constructor
    · intro d
      have hold := h.used d
      have h₁ := ((hp.map Worker.held).map fun v => v.get d).sum_eq
      have h₂ := (((hset .exited).map Worker.held).map fun v => v.get d).sum_eq
      simp only [List.map_cons, List.sum_cons, Worker.held, get_default] at h₁ h₂
      simp only [State.held, State.setWorker, State.releaseWindow, State.release, get_addWeights,
        get_subtractWeights, get_totalWeights] at hold ⊢
      omega
    · have hold := h.window
      have h₁ := (hp.map Worker.window).sum_eq
      have h₂ := ((hset .exited).map Worker.window).sum_eq
      simp only [List.map_cons, List.sum_cons] at h₁ h₂
      have hbusy : (Worker.sending item output : Worker τ α).window = 1 := rfl
      have hidle : (Worker.exited : Worker τ α).window = 0 := rfl
      simp only [State.window, State.setWorker, State.releaseWindow, State.release] at hold ⊢
      omega

theorem get_addHeld (outputs : List (WorkerOutput α)) (d : Dimension) :
    (addHeld outputs).get d = (outputs.map fun output => output.held.get d).sum := by
  induction outputs with
  | nil => exact get_default d
  | cons output rest ih =>
    rw [List.map_cons, List.sum_cons, ← ih]
    exact get_addWeights output.held (addHeld rest) d

/-- A returning coordinator gives back what its outputs hold, and nothing else. -/
theorem finish_used (result : Result Unit) (extra : ResourceWeights)
    (h : ∀ d, s.used.get d = s.held.get d + extra.get d) (d : Dimension) :
    (s.finish result).used.get d = (s.finish result).held.get d + extra.get d := by
  have hold := h d
  simp only [State.finish, State.held, get_addWeights, get_subtractWeights, get_totalWeights,
    get_addHeld, List.map_append, List.sum_append, List.map_map, List.map_nil, List.sum_nil,
    List.append_nil, Function.comp_def] at hold ⊢
  omega

theorem finish_window (result : Result Unit) (extra : Nat)
    (h : s.windowUsed = s.window + extra) :
    (s.finish result).windowUsed = (s.finish result).window + extra := by
  simp only [State.finish, State.window, List.length_append, List.length_nil] at h ⊢
  omega

theorem Accounts.finish (h : Accounts s) (result : Result Unit) : Accounts (s.finish result) where
  used := fun d => by
    have := finish_used result .default (fun d => by rw [h.used d, get_default]; rfl) d
    rw [this, get_default]
    rfl
  window := finish_window result 0 h.window

theorem Accounts.cancel (h : Accounts s) : Accounts s.cancel := ⟨h.used, h.window⟩

theorem Accounts.coordinatorMove (h : Accounts s) (hm : CoordinatorMove job s t) : Accounts t := by
  cases hm with
  | receive output rest hc hr hnew =>
    constructor
    · intro d
      have hold := h.used d
      simp only [State.held, get_addWeights, get_totalWeights, hr, List.cons_append, List.map_cons,
        List.map_append, List.sum_cons, List.sum_append] at hold ⊢
      omega
    · have hold := h.window
      simp only [State.window, hr, List.length_append, List.length_cons] at hold ⊢
      omega
  | duplicate output other rest hc hr hm ho => exact h.cancel.finish _
  | disconnect hc hr hx => exact h.cancel.finish _
  | complete hc hi => exact h.finish _
  | wait item hc hi hp => exact ⟨h.used, h.window⟩
  | deliver item output rest hc hi hp ho =>
    -- the output has left the pending ones, its permits are still out
    have hused : ∀ d, s.used.get d =
        (State.held { s with pending := rest }).get d + output.held.get d := by
      intro d
      have hold := h.used d
      have hout := ((hp.map WorkerOutput.held).map fun v => v.get d).sum_eq
      simp only [List.map_cons, List.sum_cons] at hout
      simp only [State.held, get_addWeights, get_totalWeights, List.map_append,
        List.sum_append] at hold ⊢
      omega
    have hwindow : s.windowUsed = State.window { s with pending := rest } + 1 := by
      have hold := h.window
      have hout := hp.length_eq
      simp only [State.window, List.length_append, List.length_cons] at hold hout ⊢
      omega
    have hreturn : ∀ (u : State τ α), (∀ d, u.used.get d = u.held.get d + output.held.get d) →
        u.windowUsed = u.window + 1 → Accounts (u.release output.held).releaseWindow := by
      intro u hu hw
      constructor
      · intro d
        have := hu d
        show (subtractWeights u.used output.held).get d = u.held.get d
        rw [get_subtractWeights]
        omega
      · show u.windowUsed - 1 = u.window
        omega
    unfold deliverOutput
    split
    · next e he =>
      exact hreturn _ (finish_used (.error e) _ hused) (finish_window (.error e) 1 hwindow)
    · next prepared he =>
      dsimp only
      split
      · next e hd =>
        exact hreturn _ (finish_used (.error e) _ hused) (finish_window (.error e) 1 hwindow)
      · exact hreturn _ hused hwindow

/-- Every action keeps the accounts. -/
theorem Accounts.step (h : Accounts s) {a : Action} (hs : act job a s = some t) : Accounts t := by
  cases a with
  | dispatcher =>
    rcases dispatcherStep_cases hs with hm | ⟨_, hq⟩
    · exact h.dispatcherMove hm
    · exact h.dispatcherQuit hq
  | worker i =>
    rcases workerStep_cases hs with hm | ⟨_, hq⟩
    · exact h.workerMove hm
    · exact h.workerQuit hq
  | cancellation i => exact h.workerQuit (observeCancellation_quit hs)
  | coordinator => exact h.coordinatorMove (coordinatorStep_move hs)

end Keeps

theorem accounts_start (job : Job τ α) : Accounts job.start where
  used := by
    intro d
    simp [State.held, Job.start, Dispatcher.held, Worker.held, List.map_replicate]
  window := by
    simp [State.window, Job.start, Dispatcher.window, Worker.window, Worker.item?,
      List.map_replicate]

/-- In every reachable state the accounts are in order. -/
theorem reachable_accounts {job : Job τ α} {s : State τ α}
    (h : Transition.Reachable (act job) job.start s) : Accounts s :=
  h.invariant (accounts_start job) fun _ _ _ hacc hs => hacc.step hs

end ModelWeights.Pipeline
