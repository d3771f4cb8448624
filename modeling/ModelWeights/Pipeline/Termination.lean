import ModelWeights.Pipeline.Open
import ModelWeights.Lib.Termination

/-! # Termination

No execution runs forever, however its threads are scheduled, whatever its callbacks do
and whenever it is cancelled. Every step between the threads brings an item, a thread or
the token closer to its end; a step of a callback brings the callback closer to its
return, and there every promotion may be granted or refused. -/
namespace ModelWeights.Pipeline
open ResourceWeights
variable {τ α : Type}

/-! ## Callbacks -/

/-- What a busy worker has yet to do for its callback. -/
inductive Activity (α : Type) where
  | run (script : Preparation α) (frames : List (Result (PreparedItem α) → Preparation α))
  | wait (operation : Preparation α) (next : Result (PreparedItem α) → Preparation α)
      (frames : List (Result (PreparedItem α) → Preparation α))

/-- A callback that has seen the cancellation. -/
def cancelledScript : Preparation α := .done (.error .cancelled)

/-- `Activity.Next b a`: a callback comes from `a` to `b`. -/
inductive Activity.Next : Activity α → Activity α → Prop where
  | ret (result : Result (PreparedItem α)) (next : Result (PreparedItem α) → Preparation α)
      (frames : List (Result (PreparedItem α) → Preparation α)) :
      Next (.run (next result) frames) (.run (.done result) (next :: frames))
  | call (required : ResourceWeights) (operation : Preparation α)
      (next : Result (PreparedItem α) → Preparation α)
      (frames : List (Result (PreparedItem α) → Preparation α)) :
      Next (.run operation (next :: frames)) (.run (.withResources required operation next) frames)
  | ask (required : ResourceWeights) (operation : Preparation α)
      (next : Result (PreparedItem α) → Preparation α)
      (frames : List (Result (PreparedItem α) → Preparation α)) :
      Next (.wait operation next frames) (.run (.withResources required operation next) frames)
  | grant (operation : Preparation α) (next : Result (PreparedItem α) → Preparation α)
      (frames : List (Result (PreparedItem α) → Preparation α)) :
      Next (.run operation (next :: frames)) (.wait operation next frames)
  | refuse (e : Error) (operation : Preparation α)
      (next : Result (PreparedItem α) → Preparation α)
      (frames : List (Result (PreparedItem α) → Preparation α)) :
      Next (.run (next (.error e)) frames) (.wait operation next frames)
  | observe (script : Preparation α) (frames : List (Result (PreparedItem α) → Preparation α))
      (hscript : script ≠ cancelledScript) :
      Next (.run cancelledScript frames) (.run script frames)

section Activity
variable {frames : List (Result (PreparedItem α) → Preparation α)}

/-- A callback returns to the call that waits for it. -/
theorem acc_done (h : ∀ next rest, frames = next :: rest →
    ∀ result, Acc Activity.Next (.run (next result) rest)) (result : Result (PreparedItem α)) :
    Acc Activity.Next (.run (.done result) frames) := by
  have hcancelled : Acc Activity.Next (.run (cancelledScript (α := α)) frames) := by
    refine .intro _ fun b hb => ?_
    unfold cancelledScript at hb
    cases hb with
    | ret _ next rest => exact h next rest rfl _
    | observe _ _ hne => exact absurd rfl hne
  refine .intro _ fun b hb => ?_
  cases hb with
  | ret _ next rest => exact h next rest rfl _
  | observe => exact hcancelled

/-- A script comes to its end where the calls below it do. -/
theorem acc_run (script : Preparation α) : ∀ {frames : List (Result (PreparedItem α) → Preparation α)},
    (∀ result, Acc Activity.Next (.run (.done result) frames)) →
    Acc Activity.Next (.run script frames) := by
  induction script with
  | done result => exact fun h => h result
  | withResources required operation next ihoperation ihnext =>
    intro frames h
    have hoperation : Acc Activity.Next (.run operation (next :: frames)) := by
      refine ihoperation (acc_done fun next' rest heq result => ?_)
      obtain ⟨rfl, rfl⟩ := List.cons.inj heq
      exact ihnext result h
    refine .intro _ fun b hb => ?_
    cases hb with
    | call => exact hoperation
    | ask =>
      refine .intro _ fun b hb => ?_
      cases hb with
      | grant => exact hoperation
      | refuse e => exact ihnext _ h
    | observe => exact h _

theorem acc_frames : ∀ (frames : List (Result (PreparedItem α) → Preparation α))
    (result : Result (PreparedItem α)), Acc Activity.Next (.run (.done result) frames)
  | [], result => acc_done (fun _ _ h => by cases h) result
  | next :: rest, result => by
    refine acc_done (fun next' rest' heq result => ?_) result
    obtain ⟨rfl, rfl⟩ := List.cons.inj heq
    exact acc_run _ (acc_frames rest)

/-- **Every callback returns.** -/
theorem wellFounded_activity : WellFounded (Activity.Next (α := α)) := by
  have hrun : ∀ (script : Preparation α) frames, Acc Activity.Next (.run script frames) :=
    fun script frames => acc_run script (acc_frames frames)
  refine ⟨fun a => ?_⟩
  cases a with
  | run script frames => exact hrun script frames
  | wait operation next frames =>
    refine .intro _ fun b hb => ?_
    cases hb with
    | grant => exact hrun _ _
    | refuse => exact hrun _ _

end Activity

def Frame.next : Frame α → Result (PreparedItem α) → Preparation α
  | .plain next | .promoted _ _ _ next => next

def Worker.activity : Worker τ α → Activity α
  | .running _ _ script frames => .run script (frames.map Frame.next)
  | .waiting _ _ _ _ operation next frames => .wait operation next (frames.map Frame.next)
  | .receiving | .starting _ _ | .sending _ _ | .exited => .run cancelledScript []

/-! ## The work that is left -/

def Dispatcher.load : Dispatcher τ → Nat
  | .next rest => 12 * rest.length + 1
  | .awaitingWindow _ rest => 12 * rest.length + 12
  | .reserving _ rest => 12 * rest.length + 11
  | .sending _ rest => 12 * rest.length + 10
  | .done => 0

def Worker.load : Worker τ α → Nat
  | .receiving => 1
  | .starting _ _ => 7
  | .running _ _ _ _ | .waiting _ _ _ _ _ _ _ => 6
  | .sending _ _ => 5
  | .exited => 0

def Coordinator.load : Coordinator → Nat
  | .receiving => 1
  | .draining => 2
  | .finished _ => 0

/-- Every item has a place on its way to the sink, and every thread one on its way to
its end. -/
def State.load (s : State τ α) : Nat :=
  s.dispatcher.load + 7 * s.queue.length + (s.workers.map Worker.load).sum +
    3 * s.results.length + s.pending.length + s.coordinator.load

/-- `State.Less t s`: less is left to do in `t`, or a callback has come further. -/
def State.Less (t s : State τ α) : Prop :=
  t.load < s.load ∨ t.load = s.load ∧
    Transition.OneMoves (InvImage Activity.Next Worker.activity) t.workers s.workers

section Steps
variable {job : Job τ α} {s t : State τ α} {i : Nat} {w w' : Worker τ α}

theorem load_setWorker (hw : s.workers[i]? = some w) : ∃ rest, s.load = w.load + rest ∧
    ∀ w', (s.setWorker i w').load = w'.load + rest := by
  obtain ⟨rest, hsum, hset⟩ := sum_set Worker.load hw
  refine ⟨rest + s.dispatcher.load + 7 * s.queue.length + 3 * s.results.length +
    s.pending.length + s.coordinator.load, ?_, fun w' => ?_⟩
  · unfold State.load
    rw [hsum]
    omega
  · unfold State.load State.setWorker
    dsimp only
    rw [hset w']
    omega

/-- A worker that goes on to its next stage. -/
theorem Less.stage {v : Worker τ α} (hw : s.workers[i]? = some w) (hload : v.load < w.load) :
    State.Less (s.setWorker i v) s := by
  obtain ⟨rest, hs, hset⟩ := load_setWorker hw
  refine .inl ?_
  rw [hs, hset]
  omega

/-- A worker whose callback goes on. -/
theorem Less.callback {v : Worker τ α} (hw : s.workers[i]? = some w) (hload : v.load = w.load)
    (hnext : Activity.Next v.activity w.activity) : State.Less (s.setWorker i v) s := by
  obtain ⟨rest, hs, hset⟩ := load_setWorker hw
  refine .inr ⟨?_, i, w, v, hw, hnext, rfl⟩
  rw [hs, hset, hload]

/-- The budget and the token do not count. -/
theorem Less.blind {u : State τ α} (h : State.Less t s) (hload : u.load = t.load)
    (hworkers : u.workers = t.workers) : State.Less u s := by
  unfold State.Less at h ⊢
  rw [hload, hworkers]
  exact h

theorem less_dispatcherMove (h : DispatcherMove job s t) : State.Less t s := by
  refine .inl ?_
  cases h with
  | finish hd | window item rest hd hw | reserve item rest hd hf =>
    simp [State.load, hd, Dispatcher.load]
  | refuse item rest hd hf | disconnect item rest hd hx =>
    simp [State.load, State.releaseWindow, State.release, hd, Dispatcher.load]
  | take item rest hd | send item rest hd hq =>
    simp [State.load, hd, Dispatcher.load]
    omega

theorem less_dispatcherQuit (h : DispatcherQuit s t) : State.Less t s := by
  refine .inl ?_
  cases h with
  | stop item rest hd =>
    rcases hd with hd | hd
    · simp [State.load, hd, Dispatcher.load]
    · simp [State.load, hd, Dispatcher.load]
  | abandon item rest hd => simp [State.load, State.releaseWindow, hd, Dispatcher.load]

theorem less_runStep {item : WorkItem τ} {context : PrepareContext} {script : Preparation α}
    {frames : List (Frame α)} (hw : s.workers[i]? = some (.running item context script frames)) :
    State.Less (runStep s i item context script frames) s := by
  match script, frames with
  | .done result, [] =>
    exact Less.blind (Less.stage (v := .sending item (workerOutput item context result)) hw
      (Nat.lt_succ_self 5)) rfl rfl
  | .done result, .plain next :: frames =>
    exact Less.callback hw rfl (.ret result next _)
  | .done result, .promoted previous promotions reservation next :: frames =>
    exact Less.blind (Less.callback
      (v := .running item (context.settle previous promotions result) (next result) frames) hw rfl
      (.ret result next _)) rfl rfl
  | .withResources required operation next, frames =>
    unfold runStep
    dsimp only
    split
    · exact Less.callback hw rfl (.call required operation next _)
    · split
      · refine Less.blind (Less.callback (v := .waiting item context.releasePrepared required
          (subtractWeights required context.releasePrepared.reserved) operation next frames) hw rfl
          (.ask required operation next _)) rfl rfl
      · exact Less.callback hw rfl (.ask required operation next _)

theorem less_workerMove (h : WorkerMove job s i t) : State.Less t s := by
  cases h with
  | receive queued rest hw hq =>
    obtain ⟨others, hs, hset⟩ := load_setWorker hw
    have hload := hset (.starting queued.item queued.reservation)
    have hqueue : (State.setWorker { s with queue := rest } i
        (.starting queued.item queued.reservation)).load + 7 =
        (s.setWorker i (.starting queued.item queued.reservation)).load := by
      simp only [State.load, State.setWorker, hq, List.length_cons]
      omega
    have hreceiving : (Worker.receiving : Worker τ α).load = 1 := rfl
    have hstarting : (Worker.starting queued.item queued.reservation : Worker τ α).load = 7 := rfl
    exact .inl (by omega)
  | exit hw hq hd => exact Less.stage hw Nat.zero_lt_one
  | start item reservation hw => exact Less.stage hw (Nat.lt_succ_self 6)
  | run item context script frames hw => exact less_runStep hw
  | refuse item context required missing operation next frames hw hf =>
    exact Less.callback hw rfl (.refuse _ operation next _)
  | promote item context required missing operation next frames hw hl hf =>
    exact Less.blind (Less.callback (v := .running item (context.promote required missing)
      operation (.promoted context.reserved context.promotedPrepared.length missing.withoutPrepared
        next :: frames)) hw rfl (.grant operation next _)) rfl rfl
  | send item output hw hr =>
    obtain ⟨others, hs, hset⟩ := load_setWorker hw
    have hload := hset .receiving
    have hresults : (State.setWorker { s with results := s.results ++ [output] } i
        .receiving).load = (s.setWorker i .receiving).load + 3 := by
      simp only [State.load, State.setWorker, List.length_append, List.length_singleton]
      omega
    have hsending : (Worker.sending item output).load = 5 := rfl
    have hreceiving : (Worker.receiving : Worker τ α).load = 1 := rfl
    exact .inl (by omega)

/-- A worker that quits, unless its callback has seen the cancellation before. -/
theorem less_workerQuit (h : WorkerQuit s i t) : t = s ∨ State.Less t s := by
  cases h with
  | start item reservation hw => exact .inr (Less.stage hw (Nat.lt_succ_self 6))
  | observe item context script frames hw =>
    by_cases hscript : script = cancelledScript
    · left
      subst hscript
      obtain ⟨hi, hget⟩ := List.getElem?_eq_some_iff.mp hw
      unfold State.setWorker
      rw [show (Worker.running item context (.done (.error .cancelled)) frames : Worker τ α) =
        s.workers[i] from hget.symm, List.set_getElem_self]
    · exact .inr (Less.callback hw rfl (.observe script _ hscript))
  | refuse item context required missing operation next frames hw =>
    exact .inr (Less.callback hw rfl (.refuse _ operation next _))
  | disconnect item output result hw hc =>
    exact .inr (Less.blind (Less.stage (v := .exited) hw (Nat.zero_lt_succ 4)) rfl rfl)

theorem load_finish (s : State τ α) (result : Result Unit) :
    (s.finish result).load + s.coordinator.load ≤ s.load := by
  simp [State.load, State.finish, Coordinator.load]
  omega

theorem less_coordinatorMove (h : CoordinatorMove job s t) : State.Less t s := by
  refine .inl ?_
  have hfinish : ∀ {u : State τ α} (result : Result Unit), u.load ≤ s.load →
      0 < u.coordinator.load → (u.finish result).load < s.load := by
    intro u result hle hpos
    have := load_finish u result
    omega
  cases h with
  | receive output rest hc hr hnew =>
    simp [State.load, hc, hr, Coordinator.load]
    omega
  | duplicate output other rest hc hr hm ho =>
    exact hfinish (u := s.cancel) _ (Nat.le_refl _) (by simp [State.cancel, hc, Coordinator.load])
  | disconnect hc hr hx =>
    exact hfinish (u := s.cancel) _ (Nat.le_refl _) (by simp [State.cancel, hc, Coordinator.load])
  | complete hc hi => exact hfinish _ (Nat.le_refl _) (by simp [hc, Coordinator.load])
  | wait item hc hi hp => simp [State.load, hc, Coordinator.load]
  | deliver item output rest hc hi hp ho =>
    have hlength := hp.length_eq
    rw [List.length_cons] at hlength
    unfold deliverOutput
    have hloads : ∀ (u : State τ α), u.dispatcher = s.dispatcher → u.queue = s.queue →
        u.workers = s.workers → u.results = s.results → u.pending = rest →
        u.coordinator = s.coordinator → u.load < s.load ∧ u.coordinator.load = 2 := by
      intro u hd hq hw hr hp hco
      unfold State.load
      rw [hd, hq, hw, hr, hp, hco, hc]
      exact ⟨by omega, rfl⟩
    split
    · obtain ⟨hlt, hco⟩ := hloads { s with pending := rest } rfl rfl rfl rfl rfl rfl
      exact hfinish (u := State.cancel { s with pending := rest }) _ (Nat.le_of_lt hlt)
        (hco ▸ Nat.zero_lt_two)
    · next prepared _ =>
      dsimp only
      split
      · obtain ⟨hlt, hco⟩ := hloads { s with
          pending := rest, delivered := s.delivered ++ [(output.ordinal, prepared)] }
          rfl rfl rfl rfl rfl rfl
        exact hfinish (u := State.cancel { s with
          pending := rest, delivered := s.delivered ++ [(output.ordinal, prepared)] }) _
          (Nat.le_of_lt hlt) (hco ▸ Nat.zero_lt_two)
      · refine (hloads _ ?_ ?_ ?_ ?_ ?_ ?_).1 <;> rfl

/-- **One step** of a thread. -/
theorem less_act {a : Action} (h : act job a s = some t) : t = s ∨ State.Less t s := by
  cases a with
  | dispatcher =>
    rcases dispatcherStep_cases h with hm | ⟨_, hq⟩
    · exact .inr (less_dispatcherMove hm)
    · exact .inr (less_dispatcherQuit hq)
  | worker i =>
    rcases workerStep_cases h with hm | ⟨_, hq⟩
    · exact .inr (less_workerMove hm)
    · exact less_workerQuit hq
  | cancellation i => exact less_workerQuit (observeCancellation_quit h)
  | coordinator => exact .inr (less_coordinatorMove (coordinatorStep_move h))

end Steps

/-! ## Open executions -/

def State.tokenLoad (s : State τ α) : Nat := if s.cancelled then 0 else 1

/-- What is left to do, with the token, and how far the callbacks are. -/
def State.rank (s : State τ α) : Nat × List (Worker τ α) := (s.load + s.tokenLoad, s.workers)

/-- `RankLess b a`: less work, or as much and one callback further. -/
def RankLess : Nat × List (Worker τ α) → Nat × List (Worker τ α) → Prop :=
  Prod.Lex (· < ·) (Transition.OneMoves (InvImage Activity.Next Worker.activity))

theorem wellFounded_rankLess : WellFounded (RankLess (τ := τ) (α := α)) :=
  WellFounded.prod_lex wellFounded_lt
    (Transition.wellFounded_oneMoves (InvImage.wf _ wellFounded_activity))

theorem rankLess_of_less {s t : State τ α} (h : State.Less t s)
    (htoken : s.cancelled = true → t.cancelled = true) : RankLess t.rank s.rank := by
  have hle : t.tokenLoad ≤ s.tokenLoad := by
    unfold State.tokenLoad
    by_cases hc : s.cancelled = true
    · rw [if_pos hc, if_pos (htoken hc)]
    · rw [if_neg hc]
      split <;> omega
  obtain hlt | ⟨heq, hmoves⟩ := h
  · exact .left _ _ (by omega)
  · unfold State.rank
    rw [heq]
    rcases Nat.lt_or_eq_of_le hle with hlt | htoken
    · exact .left _ _ (by omega)
    · rw [htoken]
      exact .right _ hmoves

theorem rankLess_openAct {job : Job τ α} {s t : State τ α} {a : OpenAction τ α}
    (h : openAct job a s = some t) : t = s ∨ RankLess t.rank s.rank := by
  obtain rfl | ⟨prepare, deliver, action, seen, u, hu, rfl⟩ := openAct_cases h
  · -- a token that is cancelled twice stays as it is
    by_cases hc : s.cancelled = true
    · left
      unfold State.cancel
      rw [← hc]
    · refine .inr (.left _ _ ?_)
      have hload : s.cancel.load = s.load := rfl
      have hcancel : s.cancel.tokenLoad = 0 := rfl
      have htoken : s.tokenLoad = 1 := if_neg hc
      omega
  · rcases less_act hu with rfl | hless
    · -- a step that changes nothing has at most seen the token
      cases hc : s.cancelled with
      | true =>
        left
        show { s with cancelled := true } = s
        rw [← hc]
      | false =>
        cases seen with
        | false =>
          left
          show { s with cancelled := false } = s
          rw [← hc]
        | true =>
          refine .inr (.left _ _ ?_)
          simp [State.tokenLoad, State.load, hc]
    · refine .inr (rankLess_of_less (Less.blind hless rfl rfl) fun hc => ?_)
      show (s.cancelled || u.cancelled) = true
      rw [hc, Bool.true_or]

/-- **Every execution terminates**, with any callbacks, under every schedule, and
cancelled at any time. -/
theorem execute_terminates (job : Job τ α) : Transition.Terminates (openAct job) :=
  Transition.terminates_of_rank wellFounded_rankLess State.rank fun _ _ _ => rankLess_openAct

end ModelWeights.Pipeline
