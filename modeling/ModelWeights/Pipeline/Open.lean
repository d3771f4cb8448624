import ModelWeights.Pipeline.Permits

/-! # Open executions

An execution in its surroundings. The token may be cancelled from outside at any
time, a thread may act on what it read of the token earlier, and the callbacks
do something else in every step. -/
namespace ModelWeights.Pipeline
open ResourceWeights

section
variable (τ α : Type)

inductive OpenAction where
  | thread (prepare : τ → Preparation α) (deliver : Nat → PreparedItem α → Result Unit)
      (seen : Bool) (action : Action)
  | cancel

end

variable {τ α : Type}

/-- A thread that has not seen the cancellation goes on as if there were none. -/
def openAct (job : Job τ α) : OpenAction τ α → State τ α → Option (State τ α)
  | .thread prepare deliver seen action, s =>
    (act { job with prepare, deliver } action { s with cancelled := s.cancelled && seen }).map
      fun t => { t with cancelled := s.cancelled || t.cancelled }
  | .cancel, s => some s.cancel

variable {job : Job τ α} {s t : State τ α}

theorem openAct_cases {a : OpenAction τ α} (h : openAct job a s = some t) :
    t = s.cancel ∨ ∃ prepare deliver action seen u,
      act { job with prepare, deliver } action { s with cancelled := seen } = some u ∧
      t = { u with cancelled := s.cancelled || u.cancelled } := by
  cases a with
  | cancel => exact .inl (Option.some.inj h).symm
  | thread prepare deliver seen action =>
    obtain ⟨u, hu, rfl⟩ := Option.map_eq_some_iff.mp h
    exact .inr ⟨prepare, deliver, action, _, u, hu, rfl⟩

/-- What does not look at the token and is kept by every action holds in every
reachable state. -/
theorem open_invariant {I : State τ α → Prop}
    (hblind : ∀ (s : State τ α) (cancelled : Bool), I s → I { s with cancelled })
    (hact : ∀ prepare deliver action s t, I s →
      act { job with prepare, deliver } action s = some t → I t)
    (hstart : I job.start) (h : Transition.Reachable (openAct job) job.start s) : I s := by
  refine h.invariant hstart ?_
  intro a s t hI hs
  obtain rfl | ⟨prepare, deliver, action, seen, u, hu, rfl⟩ := openAct_cases hs
  · exact hblind s true hI
  · exact hblind u _ (hact prepare deliver action _ u (hblind s seen hI) hu)

/-! ## Every execution is an open one -/

theorem act_cancelled {a : Action} (h : act job a s = some t) :
    (s.cancelled || t.cancelled) = t.cancelled := by
  have hsame : ∀ {b c : Bool}, c = b → (b || c) = c := by
    rintro b _ rfl
    exact Bool.or_self _
  cases a with
  | dispatcher => exact hsame (dispatcherStep_keeps h).cancelled
  | worker i => exact hsame (workerStep_keeps h).cancelled
  | cancellation i => exact hsame (observeCancellation_keeps h).2.cancelled
  | coordinator =>
    have hcancel : ∀ b : Bool, (b || true) = true := Bool.or_true
    cases coordinatorStep_move h with
    | receive output rest hc hr hnew => exact hsame rfl
    | duplicate output other rest hc hr hm ho => exact hcancel _
    | disconnect hc hr hx => exact hcancel _
    | complete hc hi => exact hsame rfl
    | wait item hc hi hp => exact hsame rfl
    | deliver item output rest hc hi hp ho =>
      unfold deliverOutput
      split
      · exact hcancel _
      · dsimp only
        split
        · exact hcancel _
        · exact hsame rfl

/-- An action of the job is one with its own calls. -/
theorem openAct_thread {a : Action} (ha : act job a s = some t) :
    openAct job (.thread job.prepare job.deliver true a) s = some t := by
  show (act job a { s with cancelled := s.cancelled && true }).map _ = _
  rw [Bool.and_true, show ({ s with cancelled := s.cancelled } : State τ α) = s from rfl, ha,
    Option.map_some, act_cancelled ha]

theorem reachable_open (h : Transition.Reachable (act job) job.start s) :
    Transition.Reachable (openAct job) job.start s := by
  induction h with
  | refl => exact .refl
  | @tail u t _ hstep ih =>
    obtain ⟨a, ha⟩ := hstep
    exact ih.tail ⟨.thread job.prepare job.deliver true a, openAct_thread ha⟩

/-! ## Bounds -/

theorem open_accounts (h : Transition.Reachable (openAct job) job.start s) : Accounts s :=
  open_invariant (I := Accounts) (fun _ _ hs => ⟨hs.used, hs.window⟩)
    (fun _ _ _ _ _ hs ha => hs.step ha) (accounts_start job) h

/-- The counters are within the limits, and no thread is lost. -/
structure Bounded (job : Job τ α) (s : State τ α) : Prop where
  used : ∀ d, s.used.get d ≤ job.limits.budget.get d
  window : s.windowUsed ≤ job.limits.dispatchLookahead
  workers : s.workers.length = job.workerCount

theorem fits_add {used requested limit : ResourceWeights} (h : fits used requested limit = true)
    (hle : ∀ d, used.get d ≤ limit.get d) (d : Dimension) :
    (addWeights used requested).get d ≤ limit.get d := by
  have := fits_iff.mp h d
  have := hle d
  rw [get_addWeights]
  omega

section Bounded

/-- Counters only grow in `acquire`. -/
theorem Bounded.shrink (h : Bounded job s) (hused : ∀ d, t.used.get d ≤ s.used.get d)
    (hwindow : t.windowUsed ≤ s.windowUsed) (hworkers : t.workers.length = s.workers.length) :
    Bounded job t :=
  ⟨fun d => (hused d).trans (h.used d), hwindow.trans h.window, hworkers.trans h.workers⟩

theorem subtract_le (v w : ResourceWeights) (d : Dimension) :
    (subtractWeights v w).get d ≤ v.get d := by
  rw [get_subtractWeights]
  exact Nat.sub_le _ _

theorem Bounded.dispatcherMove (h : Bounded job s) (hm : DispatcherMove job s t) :
    Bounded job t := by
  cases hm with
  | finish hd | take item rest hd | send item rest hd hq => exact ⟨h.used, h.window, h.workers⟩
  | window item rest hd hw => exact ⟨h.used, hw, h.workers⟩
  | reserve item rest hd hf => exact ⟨fits_add hf h.used, h.window, h.workers⟩
  | refuse item rest hd hf => exact h.shrink (fun _ => Nat.le_refl _) (Nat.sub_le _ _) rfl
  | disconnect item rest hd hx => exact h.shrink (subtract_le _ _) (Nat.sub_le _ _) rfl

theorem Bounded.setWorker (h : Bounded job s) (i : Nat) (w : Worker τ α) :
    Bounded job (s.setWorker i w) :=
  h.shrink (fun _ => Nat.le_refl _) (Nat.le_refl _) List.length_set

theorem Bounded.release (h : Bounded job s) (w : ResourceWeights) : Bounded job (s.release w) :=
  h.shrink (subtract_le _ _) (Nat.le_refl _) rfl

theorem Bounded.releaseWindow (h : Bounded job s) : Bounded job s.releaseWindow :=
  h.shrink (fun _ => Nat.le_refl _) (Nat.sub_le _ _) rfl

theorem Bounded.runStep (h : Bounded job s) (i : Nat) (item : WorkItem τ)
    (context : PrepareContext) (script : Preparation α) (frames : List (Frame α)) :
    Bounded job (runStep s i item context script frames) := by
  match script, frames with
  | .done result, [] => exact (h.release _).setWorker _ _
  | .done result, .plain next :: frames => exact h.setWorker _ _
  | .done result, .promoted previous promotions reservation next :: frames =>
    exact (h.release _).setWorker _ _
  | .withResources required operation next, frames =>
    unfold Pipeline.runStep
    dsimp only
    split
    · exact h.setWorker _ _
    · split
      · exact (h.release _).setWorker _ _
      · exact h.setWorker _ _

theorem Bounded.workerMove {i : Nat} (h : Bounded job s) (hm : WorkerMove job s i t) :
    Bounded job t := by
  cases hm with
  | receive queued rest hw hq | send item output hw hr =>
    exact h.shrink (fun _ => Nat.le_refl _) (Nat.le_refl _) List.length_set
  | exit hw hq hd | start item reservation hw
  | refuse item context required missing operation next frames hw hf => exact h.setWorker _ _
  | run item context script frames hw => exact h.runStep _ _ _ _ _
  | promote item context required missing operation next frames hw hl hf =>
    exact Bounded.setWorker (s := { s with used := addWeights s.used missing })
      ⟨fits_add hf h.used, h.window, h.workers⟩ _ _

theorem Bounded.workerQuit {i : Nat} (h : Bounded job s) (hq : WorkerQuit s i t) :
    Bounded job t := by
  cases hq with
  | start item reservation hw | observe item context script frames hw
  | refuse item context required missing operation next frames hw => exact h.setWorker _ _
  | disconnect item output result hw hc => exact (h.release _).releaseWindow.setWorker _ _

theorem Bounded.finish (h : Bounded job s) (result : Result Unit) :
    Bounded job (s.finish result) :=
  h.shrink (subtract_le _ _) (Nat.sub_le _ _) rfl

theorem Bounded.coordinatorMove (h : Bounded job s) (hm : CoordinatorMove job s t) :
    Bounded job t := by
  cases hm with
  | receive output rest hc hr hnew | wait item hc hi hp => exact ⟨h.used, h.window, h.workers⟩
  | duplicate output other rest hc hr hm ho | disconnect hc hr hx =>
    exact Bounded.finish (s := s.cancel) ⟨h.used, h.window, h.workers⟩ _
  | complete hc hi => exact h.finish _
  | deliver item output rest hc hi hp ho =>
    have hrest : ∀ (u : State τ α), u.used = s.used → u.windowUsed = s.windowUsed →
        u.workers = s.workers → Bounded job u := by
      intro u hu hw hworkers
      exact ⟨fun d => hu ▸ h.used d, hw ▸ h.window, hworkers ▸ h.workers⟩
    unfold deliverOutput
    split
    · refine .releaseWindow (.release (.finish (hrest _ ?_ ?_ ?_) _) _) <;> rfl
    · dsimp only
      split
      · refine .releaseWindow (.release (.finish (hrest _ ?_ ?_ ?_) _) _) <;> rfl
      · refine .releaseWindow (.release (hrest _ ?_ ?_ ?_) _) <;> rfl

theorem Bounded.step (h : Bounded job s) {a : Action} (hs : act job a s = some t) :
    Bounded job t := by
  cases a with
  | dispatcher =>
    rcases dispatcherStep_cases hs with hm | ⟨_, hq⟩
    · exact h.dispatcherMove hm
    · cases hq with
      | stop item rest hd => exact ⟨h.used, h.window, h.workers⟩
      | abandon item rest hd => exact h.shrink (fun _ => Nat.le_refl _) (Nat.sub_le _ _) rfl
  | worker i =>
    rcases workerStep_cases hs with hm | ⟨_, hq⟩
    · exact h.workerMove hm
    · exact h.workerQuit hq
  | cancellation i => exact h.workerQuit (observeCancellation_quit hs)
  | coordinator => exact h.coordinatorMove (coordinatorStep_move hs)

end Bounded

theorem open_bounded (h : Transition.Reachable (openAct job) job.start s) : Bounded job s := by
  refine open_invariant (I := Bounded job) (fun _ _ hs => ⟨hs.used, hs.window, hs.workers⟩) ?_ ?_ h
  · intro prepare deliver action s t hs ha
    have : Bounded { job with prepare, deliver } s := ⟨hs.used, hs.window, hs.workers⟩
    have ht := this.step ha
    exact ⟨ht.used, ht.window, ht.workers⟩
  · exact ⟨fun d => by simp [Job.start], Nat.zero_le _, List.length_replicate⟩

end ModelWeights.Pipeline
