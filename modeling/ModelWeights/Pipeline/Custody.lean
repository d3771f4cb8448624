import ModelWeights.Pipeline.Ledger
import ModelWeights.Pipeline.Open
import Mathlib.Tactic.Abel

/-! # The permits of an execution

The threads hold permits, and every step of a thread is a sequence of calls on
the budget with the permits that the thread holds. So an execution never leaves
the reachable ledgers. -/
namespace ModelWeights.Pipeline
open ResourceWeights
variable {τ α : Type}

/-! ## Who holds which permit -/

/-- Permits of prepared bytes alone. -/
def preparedPermits (promoted : List Nat) : Multiset ResourceWeights :=
  (promoted.map ofPrepared : List ResourceWeights)

def PrepareContext.permits (context : PrepareContext) : Multiset ResourceWeights :=
  context.initialReservation ::ₘ preparedPermits context.promotedPrepared

def Frame.permits : Frame α → Multiset ResourceWeights
  | .plain _ => 0
  | .promoted _ _ reservation _ => {reservation}

def framePermits (frames : List (Frame α)) : Multiset ResourceWeights :=
  (frames.map Frame.permits).sum

def OutputReservation.permits (r : OutputReservation) : Multiset ResourceWeights :=
  ofPrepared r.initial ::ₘ preparedPermits r.promotedPrepared

def WorkerOutput.permits (output : WorkerOutput α) : Multiset ResourceWeights :=
  match output.reservation with
  | some reservation => reservation.permits
  | none => 0

def outputPermits (outputs : List (WorkerOutput α)) : Multiset ResourceWeights :=
  (outputs.map WorkerOutput.permits).sum

def Dispatcher.permits : Dispatcher τ → Multiset ResourceWeights
  | .sending item _ => {item.resources}
  | _ => 0

def Worker.permits : Worker τ α → Multiset ResourceWeights
  | .starting _ reservation => {reservation}
  | .running _ context _ frames | .waiting _ context _ _ _ _ frames =>
    context.permits + framePermits frames
  | .sending _ output => output.permits
  | .receiving | .exited => 0

def State.permits (s : State τ α) : Multiset ResourceWeights :=
  s.dispatcher.permits + ((s.queue.map QueuedWork.reservation : List ResourceWeights) :
    Multiset ResourceWeights) + (s.workers.map Worker.permits).sum +
      outputPermits (s.results ++ s.pending)

/-- The budget of an execution, and the permits its threads hold. -/
def State.ledger (s : State τ α) : Ledger := ⟨s.used, s.permits⟩

/-! ## They weigh what the accounts say -/

section Weigh
open Ledger (total)

theorem total_sum {β : Type} (f : β → Multiset ResourceWeights) (l : List β) (d : Dimension) :
    total (l.map f).sum d = (l.map fun x => total (f x) d).sum := by
  induction l with
  | nil => rfl
  | cons x rest ih => rw [List.map_cons, List.sum_cons, Ledger.total_add, ih]; rfl

theorem total_list (l : List ResourceWeights) (d : Dimension) :
    total (l : Multiset ResourceWeights) d = (l.map fun w => w.get d).sum := by
  rw [total, Multiset.map_coe, Multiset.sum_coe]

theorem total_preparedPermits (promoted : List Nat) (d : Dimension) :
    total (preparedPermits promoted) d = (ofPrepared promoted.sum).get d := by
  rw [preparedPermits, total_list, List.map_map]
  induction promoted with
  | nil => cases d <;> rfl
  | cons n rest ih =>
    rw [List.map_cons, List.sum_cons, ih]
    cases d <;> simp [ResourceWeights.get, ofPrepared]

theorem PrepareContext.total_permits (context : PrepareContext) (d : Dimension) :
    total context.permits d = context.held.get d := by
  rw [permits, Ledger.total_cons, total_preparedPermits, held, get_addWeights]

theorem total_framePermits (frames : List (Frame α)) (d : Dimension) :
    total (framePermits frames) d = (totalWeights (frames.map Frame.held)).get d := by
  rw [framePermits, total_sum, get_totalWeights, List.map_map]
  congr 1
  refine List.map_congr_left fun frame _ => ?_
  cases frame with
  | plain next => exact (get_default d).symm
  | promoted previous promotions reservation next => exact Ledger.total_singleton _ _

theorem WorkerOutput.total_permits (output : WorkerOutput α) (d : Dimension) :
    total output.permits d = output.held.get d := by
  unfold WorkerOutput.permits WorkerOutput.held
  cases output.reservation with
  | none => exact (get_default d).symm
  | some r =>
    show total r.permits d = r.held.get d
    rw [OutputReservation.permits, Ledger.total_cons, total_preparedPermits,
      OutputReservation.held]
    cases d <;> simp [ResourceWeights.get, ofPrepared]

theorem Worker.total_permits (worker : Worker τ α) (d : Dimension) :
    total worker.permits d = worker.held.get d := by
  cases worker with
  | receiving | exited => exact (get_default d).symm
  | starting item reservation => exact Ledger.total_singleton _ _
  | running item context script frames
  | waiting item context required missing operation next frames =>
    simp only [Worker.permits, Worker.held, Ledger.total_add, get_addWeights,
      context.total_permits, total_framePermits]
  | sending item output => exact output.total_permits d

theorem State.total_permits (s : State τ α) (d : Dimension) :
    total s.permits d = s.held.get d := by
  have hdispatcher : total s.dispatcher.permits d = s.dispatcher.held.get d := by
    cases s.dispatcher with
    | sending item rest => exact Ledger.total_singleton _ _
    | _ => exact (get_default d).symm
  have hworkers : (s.workers.map fun worker => total worker.permits d).sum =
      ((s.workers.map Worker.held).map fun w => w.get d).sum := by
    rw [List.map_map]
    exact congrArg List.sum (List.map_congr_left fun worker _ => worker.total_permits d)
  have houtputs : ((s.results ++ s.pending).map fun output => total output.permits d).sum =
      (((s.results ++ s.pending).map WorkerOutput.held).map fun w => w.get d).sum := by
    rw [List.map_map]
    exact congrArg List.sum (List.map_congr_left fun output _ => output.total_permits d)
  simp only [State.permits, State.held, outputPermits, Ledger.total_add, total_sum, total_list,
    get_addWeights, get_totalWeights, hdispatcher, hworkers, houtputs]
  omega

theorem State.balanced {job : Job τ α} {s : State τ α} (h : Accounts s) (hb : Bounded job s) :
    s.ledger.Balanced job.limits.budget :=
  ⟨fun d => (h.used d).trans (s.total_permits d).symm, hb.used⟩

end Weigh

/-! ## Exchanging permits -/

namespace Ledger
variable {limit : ResourceWeights} {X Y Z : Multiset ResourceWeights}

/-- A balanced ledger is determined by its permits. -/
theorem Balanced.unique {l l' : Ledger} (h : Balanced limit l) (h' : Balanced limit l')
    (hlive : l.live = l'.live) : l = l' := by
  obtain ⟨used, live⟩ := l
  obtain ⟨used', live'⟩ := l'
  obtain rfl : live = live' := hlive
  rw [show used = used' from ext_get fun d => (h.used d).trans (h'.used d).symm]

/-- The holder of the permits `X` can turn them into `Y`, whatever else is out. -/
def Exchange (limit : ResourceWeights) (X Y : Multiset ResourceWeights) : Prop :=
  ∀ (l : Ledger) (rest : Multiset ResourceWeights), Balanced limit l → l.live = X + rest →
    ∃ l', Transition.Reachable (act limit) l l' ∧ Balanced limit l' ∧ l'.live = Y + rest

theorem Exchange.refl (X : Multiset ResourceWeights) : Exchange limit X X :=
  fun l _ h hlive => ⟨l, .refl, h, hlive⟩

theorem Exchange.trans (h : Exchange limit X Y) (h' : Exchange limit Y Z) :
    Exchange limit X Z := by
  intro l rest hl hlive
  obtain ⟨l₁, hr₁, hl₁, hlive₁⟩ := h l rest hl hlive
  obtain ⟨l₂, hr₂, hl₂, hlive₂⟩ := h' l₁ rest hl₁ hlive₁
  exact ⟨l₂, Relation.ReflTransGen.trans hr₁ hr₂, hl₂, hlive₂⟩

theorem Exchange.add_right (h : Exchange limit X Y) (Z : Multiset ResourceWeights) :
    Exchange limit (X + Z) (Y + Z) := by
  intro l rest hl hlive
  rw [Multiset.add_assoc] at hlive
  obtain ⟨l', hr, hl', hlive'⟩ := h l (Z + rest) hl hlive
  exact ⟨l', hr, hl', by rw [hlive', Multiset.add_assoc]⟩

theorem Exchange.add_left (h : Exchange limit X Y) (Z : Multiset ResourceWeights) :
    Exchange limit (Z + X) (Z + Y) := by
  rw [Multiset.add_comm Z X, Multiset.add_comm Z Y]
  exact h.add_right Z

theorem Exchange.add {X' Y' : Multiset ResourceWeights} (h : Exchange limit X Y)
    (h' : Exchange limit X' Y') : Exchange limit (X + X') (Y + Y') :=
  (h.add_right X').trans (h'.add_left Y)

/-- One call on a permit. -/
theorem Exchange.call (op : PermitOp) {permit : ResourceWeights} (hp : op.permit? = some permit) :
    Exchange limit {permit} op.kept := by
  intro l rest hl hlive
  have hm : permit ∈ l.live := by
    rw [hlive]
    exact Multiset.mem_add.mpr (.inl (Multiset.mem_singleton_self _))
  have hrest : l.live.erase permit = rest := by
    rw [hlive, Multiset.singleton_add, Multiset.erase_cons_head]
  have hact : act limit op l = some ⟨subtractWeights l.used op.released,
      op.kept + l.live.erase permit⟩ := by
    cases op with
    | acquire requested cancelled => cases hp
    | releasePrepared p | splitPrepared p | retainPrepared p bytes | drop p =>
      obtain rfl := Option.some.inj hp
      exact if_pos hm
  exact ⟨_, .single ⟨op, hact⟩, hl.act hact, by rw [hrest]⟩

theorem Exchange.drop (permit : ResourceWeights) : Exchange limit {permit} 0 :=
  .call (.drop permit) rfl

theorem Exchange.dropAll (X : Multiset ResourceWeights) : Exchange limit X 0 := by
  induction X using Multiset.induction with
  | empty => exact .refl 0
  | cons permit rest ih =>
    rw [← Multiset.singleton_add]
    exact (Exchange.drop permit).add ih

/-- The loop of `retain_prepared` over the promoted permits. -/
theorem Exchange.retainPromoted : ∀ (remaining : Nat) (promoted : List Nat),
    Exchange limit (preparedPermits promoted) (preparedPermits (retainPromoted remaining promoted))
  | _, [] => .refl _
  | remaining, reserved :: rest => by
    have hhead : Exchange limit {ofPrepared reserved} {ofPrepared (min reserved remaining)} :=
      .call (.retainPrepared (ofPrepared reserved) remaining) rfl
    exact hhead.add (Exchange.retainPromoted (remaining - min reserved remaining) rest)

end Ledger

/-! ## Every step is a run of the ledger -/

section Steps
open Ledger
variable {job : Job τ α} {s t : State τ α} {i : Nat}

abbrev LedgerRun (job : Job τ α) (s t : State τ α) : Prop :=
  Transition.Reachable (Ledger.act job.limits.budget) s.ledger t.ledger

/-- A thread exchanged some of its permits. -/
theorem LedgerRun.exchange {X Y rest : Multiset ResourceWeights}
    (h : Exchange job.limits.budget X Y) (hs : s.ledger.Balanced job.limits.budget)
    (ht : t.ledger.Balanced job.limits.budget) (hX : s.permits = X + rest)
    (hY : t.permits = Y + rest) : LedgerRun job s t := by
  obtain ⟨l', hrun, hl', hlive⟩ := h s.ledger rest hs hX
  rwa [hl'.unique ht (hlive.trans hY.symm)] at hrun

/-- A thread was granted a request, which it may split. -/
theorem LedgerRun.grant {requested : ResourceWeights} {Y rest : Multiset ResourceWeights}
    (hfits : fits s.used requested job.limits.budget = true)
    (h : Exchange job.limits.budget {requested} Y) (hs : s.ledger.Balanced job.limits.budget)
    (ht : t.ledger.Balanced job.limits.budget) (hX : s.permits = rest)
    (hY : t.permits = Y + rest) : LedgerRun job s t := by
  have hlimit : fits .default requested job.limits.budget = true := by
    rw [fits_iff] at hfits ⊢
    intro d
    rw [get_default]
    exact (hfits d).trans (Nat.sub_le_sub_left (Nat.zero_le _) _)
  have hgrant : Ledger.act job.limits.budget (.acquire requested false) s.ledger =
      some ⟨addWeights s.used requested, requested ::ₘ s.permits⟩ := by
    simp [Ledger.act, State.ledger, acquire, hlimit, hfits]
  obtain ⟨l', hrun, hl', hlive⟩ := h _ rest (hs.act hgrant) (by rw [hX]; rfl)
  rw [hl'.unique ht (hlive.trans hY.symm)] at hrun
  exact Relation.ReflTransGen.head ⟨_, hgrant⟩ hrun

/-- The permits beside those of one worker. -/
theorem permits_set {w : Worker τ α} (hw : s.workers[i]? = some w) : ∃ rest,
    s.permits = w.permits + rest ∧
      ∀ (w' : Worker τ α) (used : ResourceWeights),
        (({ s with used }).setWorker i w').permits = w'.permits + rest := by
  obtain ⟨others, hsum, hset⟩ := sum_set Worker.permits hw
  refine ⟨s.dispatcher.permits + ((s.queue.map QueuedWork.reservation : List ResourceWeights) :
    Multiset ResourceWeights) + others + outputPermits (s.results ++ s.pending), ?_,
    fun w' used => ?_⟩
  · simp only [State.permits, hsum]
    abel
  · simp only [State.permits, State.setWorker, hset]
    abel

theorem LedgerRun.same (hs : s.ledger.Balanced job.limits.budget)
    (ht : t.ledger.Balanced job.limits.budget) (h : t.permits = s.permits) : LedgerRun job s t :=
  .exchange (.refl 0) hs ht (Multiset.zero_add _).symm (h.trans (Multiset.zero_add _).symm)

/-- One worker exchanged its permits. -/
theorem LedgerRun.worker {w w' : Worker τ α} (used : ResourceWeights)
    (hw : s.workers[i]? = some w) (h : Exchange job.limits.budget w.permits w'.permits)
    (hs : s.ledger.Balanced job.limits.budget)
    (ht : (({ s with used }).setWorker i w').ledger.Balanced job.limits.budget) :
    LedgerRun job s (({ s with used }).setWorker i w') := by
  obtain ⟨rest, hX, hY⟩ := permits_set hw
  exact .exchange h hs ht hX (hY w' used)

theorem ledger_dispatcherMove (hm : DispatcherMove job s t)
    (hs : s.ledger.Balanced job.limits.budget) (ht : t.ledger.Balanced job.limits.budget) :
    LedgerRun job s t := by
  cases hm with
  | finish hd | take item rest hd | window item rest hd hw | refuse item rest hd hf =>
    refine .same hs ht ?_
    simp only [State.permits, State.releaseWindow, hd, Dispatcher.permits]
  | reserve item rest hd hf =>
    refine .grant hf (.refl _) hs ht rfl ?_
    simp only [State.permits, hd, Dispatcher.permits]
    abel
  | disconnect item rest hd hx =>
    obtain ⟨rest, hrest⟩ : ∃ rest, s.permits = {item.resources} + rest := by
      simp only [State.permits, hd, Dispatcher.permits, Multiset.add_assoc]
      exact ⟨_, rfl⟩
    refine .exchange (.drop item.resources) hs ht hrest ?_
    rw [Multiset.zero_add]
    refine Multiset.add_right_inj.mp (hrest.symm.trans ?_).symm
    simp only [State.permits, State.releaseWindow, State.release, hd, Dispatcher.permits]
    abel
  | send item rest hd hq =>
    refine .same hs ht ?_
    simp only [State.permits, hd, Dispatcher.permits, List.map_append, ← Multiset.coe_add,
      List.map_cons, List.map_nil, Multiset.coe_singleton]
    abel

/-- What a worker keeps for its output. -/
theorem exchange_output (limit : ResourceWeights) (item : WorkItem τ) (context : PrepareContext)
    (result : Result (PreparedItem α)) :
    Exchange limit context.permits (workerOutput item context result).permits := by
  unfold workerOutput WorkerOutput.permits
  cases checkPrepared context.reserved.preparedBytes result with
  | error e => exact .dropAll _
  | ok prepared =>
    have hinitial : Exchange limit {context.initialReservation}
        {ofPrepared (min context.initialReservation.preparedBytes prepared.bytes)} :=
      .call (.retainPrepared context.initialReservation prepared.bytes) rfl
    exact hinitial.add (.retainPromoted _ context.promotedPrepared)

/-- The end of a promoted call. -/
theorem exchange_settle (limit : ResourceWeights) (context : PrepareContext)
    (previous : ResourceWeights) (promotions : Nat) (result : Result (PreparedItem α)) :
    Exchange limit context.permits (context.settle previous promotions result).permits := by
  cases hr : isOk result with
  | true =>
    have hkeep : (context.settle previous promotions result).permits = context.permits := by
      simp [PrepareContext.settle, PrepareContext.permits, hr]
    rw [hkeep]
    exact .refl _
  | false =>
    -- the promotions of the failed call are dropped
    have hdrop : context.permits =
        (context.settle previous promotions result).permits +
          preparedPermits (context.promotedPrepared.drop promotions) := by
      simp only [PrepareContext.settle, PrepareContext.permits, preparedPermits, hr,
        Bool.false_eq_true, if_false, Multiset.cons_add, Multiset.coe_add, ← List.map_append,
        List.take_append_drop]
    rw [hdrop]
    have hrest : Exchange limit (preparedPermits (context.promotedPrepared.drop promotions)) 0 :=
      .dropAll _
    have := hrest.add_left (context.settle previous promotions result).permits
    rwa [Multiset.add_zero] at this

theorem exchange_releasePrepared (limit : ResourceWeights) (context : PrepareContext) :
    Exchange limit context.permits context.releasePrepared.permits := by
  have hinitial : Exchange limit {context.initialReservation}
      {context.initialReservation.withoutPrepared} :=
    .call (.releasePrepared context.initialReservation) rfl
  exact hinitial.add (.dropAll (preparedPermits context.promotedPrepared))

/-- A granted promotion is split into what the call gives back and what stays. -/
theorem exchange_promote (limit : ResourceWeights) (context : PrepareContext)
    (required missing : ResourceWeights) :
    Exchange limit {missing} ({missing.withoutPrepared} +
      preparedPermits (if missing.preparedBytes > 0 then [missing.preparedBytes] else [])) ∧
    (context.promote required missing).permits = context.permits +
      preparedPermits (if missing.preparedBytes > 0 then [missing.preparedBytes] else []) := by
  constructor
  · have hsplit : ({missing.withoutPrepared} +
        preparedPermits (if missing.preparedBytes > 0 then [missing.preparedBytes] else []) :
          Multiset ResourceWeights) = (PermitOp.splitPrepared missing).kept := by
      simp only [PermitOp.kept, ResourceWeights.splitPrepared, Multiset.singleton_add]
      split <;> rfl
    rw [hsplit]
    exact .call (.splitPrepared missing) rfl
  · simp only [PrepareContext.promote, PrepareContext.permits, preparedPermits, List.map_append,
      ← Multiset.coe_add, Multiset.cons_add]

theorem framePermits_cons (frame : Frame α) (frames : List (Frame α)) :
    framePermits (frame :: frames) = frame.permits + framePermits frames := rfl

theorem ledger_runStep {item : WorkItem τ} {context : PrepareContext} {script : Preparation α}
    {frames : List (Frame α)}
    (hw : s.workers[i]? = some (.running item context script frames))
    (hs : s.ledger.Balanced job.limits.budget)
    (ht : (runStep s i item context script frames).ledger.Balanced job.limits.budget) :
    LedgerRun job s (runStep s i item context script frames) := by
  match script, frames, hw, ht with
  | .done result, [], hw, ht =>
    refine .worker _ hw ?_ hs ht
    show Exchange _ (context.permits + 0) _
    rw [Multiset.add_zero]
    exact exchange_output _ item context result
  | .done result, .plain next :: frames, hw, ht =>
    refine .worker s.used hw ?_ hs ht
    show Exchange _ (context.permits + (0 + framePermits frames)) _
    rw [Multiset.zero_add]
    exact .refl _
  | .done result, .promoted previous promotions reservation next :: frames, hw, ht =>
    refine .worker _ hw ?_ hs ht
    have hdrop : Exchange job.limits.budget {reservation} 0 := .drop reservation
    have hframe := hdrop.add_right (framePermits frames)
    rw [Multiset.zero_add] at hframe
    exact (exchange_settle _ context previous promotions result).add hframe
  | .withResources required operation next, frames, hw, ht =>
    unfold runStep at ht ⊢
    dsimp only at ht ⊢
    split at ht
    · next hz =>
      rw [if_pos hz]
      refine .worker s.used hw ?_ hs ht
      show Exchange _ _ (context.permits + (0 + framePermits frames))
      rw [Multiset.zero_add]
      exact .refl _
    · next hz =>
      rw [if_neg hz]
      split at ht
      · next hp =>
        rw [if_pos hp]
        exact .worker _ hw ((exchange_releasePrepared _ context).add_right _) hs ht
      · next hp =>
        rw [if_neg hp]
        exact .worker s.used hw (.refl _) hs ht

theorem ledger_workerMove (hm : WorkerMove job s i t)
    (hs : s.ledger.Balanced job.limits.budget) (ht : t.ledger.Balanced job.limits.budget) :
    LedgerRun job s t := by
  cases hm with
  | receive queued rest hw hq =>
    refine .same hs ht ?_
    obtain ⟨others, hX, hY⟩ := permits_set (s := { s with queue := rest }) hw
    have hnew := hY (.starting queued.item queued.reservation) s.used
    simp only [Worker.permits, Multiset.zero_add] at hX hnew
    refine hnew.trans ?_
    rw [← hX]
    simp only [State.permits, hq, List.map_cons, ← Multiset.cons_coe, ← Multiset.singleton_add]
    abel
  | exit hw hq hd => exact .worker s.used hw (.refl _) hs ht
  | start item reservation hw =>
    refine .worker s.used hw ?_ hs ht
    show Exchange _ {reservation} ({reservation} + 0 + 0)
    rw [Multiset.add_zero, Multiset.add_zero]
    exact .refl _
  | run item context script frames hw => exact ledger_runStep hw hs ht
  | refuse item context required missing operation next frames hw hf =>
    exact .worker s.used hw (.refl _) hs ht
  | promote item context required missing operation next frames hw hl hf =>
    obtain ⟨hsplit, hpermits⟩ := exchange_promote job.limits.budget context required missing
    obtain ⟨rest, hX, hY⟩ := permits_set hw
    refine .grant hf hsplit hs ht hX ((hY _ _).trans ?_)
    simp only [Worker.permits, hpermits, framePermits_cons, Frame.permits]
    abel
  | send item output hw hr =>
    refine .same hs ht ?_
    obtain ⟨others, hX, hY⟩ := permits_set (s := { s with results := s.results ++ [output] }) hw
    have hnew := hY .receiving s.used
    simp only [Worker.permits, Multiset.zero_add] at hX hnew
    refine hnew.trans (Multiset.add_right_inj.mp (hX.symm.trans ?_))
    simp only [State.permits, outputPermits, List.map_append, List.sum_append, List.map_cons,
      List.map_nil, List.sum_cons, List.sum_nil]
    abel

theorem ledger_workerQuit (hq : WorkerQuit s i t) (hs : s.ledger.Balanced job.limits.budget)
    (ht : t.ledger.Balanced job.limits.budget) : LedgerRun job s t := by
  cases hq with
  | start item reservation hw =>
    refine .worker s.used hw ?_ hs ht
    show Exchange _ {reservation} ({reservation} + 0 + 0)
    rw [Multiset.add_zero, Multiset.add_zero]
    exact .refl _
  | observe item context script frames hw
  | refuse item context required missing operation next frames hw =>
    exact .worker s.used hw (.refl _) hs ht
  | disconnect item output result hw hc => exact .worker _ hw (.dropAll _) hs ht

/-- The coordinator drops the permits of some outputs. -/
theorem LedgerRun.drop {X : Multiset ResourceWeights} (hs : s.ledger.Balanced job.limits.budget)
    (ht : t.ledger.Balanced job.limits.budget) (h : s.permits = X + t.permits) :
    LedgerRun job s t :=
  .exchange (.dropAll X) hs ht h (Multiset.zero_add _).symm

theorem permits_finish (s : State τ α) (result : Result Unit) :
    s.permits = outputPermits (s.results ++ s.pending) + (s.finish result).permits := by
  simp only [State.permits, State.finish, outputPermits, List.map_nil, List.sum_nil,
    List.append_nil]
  abel

theorem ledger_coordinatorMove (hm : CoordinatorMove job s t)
    (hs : s.ledger.Balanced job.limits.budget) (ht : t.ledger.Balanced job.limits.budget) :
    LedgerRun job s t := by
  cases hm with
  | receive output rest hc hr hnew =>
    refine .same hs ht ?_
    simp only [State.permits, outputPermits, hr, List.map_append, List.sum_append, List.map_cons,
      List.sum_cons]
    abel
  | duplicate output other rest hc hr hm ho | disconnect hc hr hx =>
    exact .drop hs ht (permits_finish s.cancel _)
  | complete hc hi => exact .drop hs ht (permits_finish s _)
  | wait item hc hi hp => exact .same hs ht rfl
  | deliver item output rest hc hi hp ho =>
    have hout : s.permits = output.permits + State.permits { s with pending := rest } := by
      have := (hp.map WorkerOutput.permits).sum_eq
      rw [List.map_cons, List.sum_cons] at this
      simp only [State.permits, outputPermits, List.map_append, List.sum_append, this]
      abel
    have hfailed : ∀ (u : State τ α) (result : Result Unit),
        State.permits { s with pending := rest } = u.permits →
        s.permits = (output.permits + outputPermits (u.results ++ u.pending)) +
          (u.finish result).permits := by
      intro u result hu
      rw [hout, hu, permits_finish u result]
      abel
    unfold deliverOutput at ht ⊢
    cases hr : output.result with
    | error e =>
      rw [hr] at ht
      exact .drop hs ht (hfailed (State.cancel { s with pending := rest }) (.error e) rfl)
    | ok prepared =>
      rw [hr] at ht
      dsimp only at ht ⊢
      cases hd : job.deliver output.ordinal prepared with
      | error e =>
        rw [hd] at ht
        exact .drop hs ht (hfailed (State.cancel { s with
          pending := rest, delivered := s.delivered ++ [(output.ordinal, prepared)] }) (.error e)
            rfl)
      | ok =>
        rw [hd] at ht
        exact .drop hs ht hout

/-- **Every step is a run of the ledger** with the permits of the threads. -/
theorem ledger_step (hacc : Accounts s) (hbound : Bounded job s) {a : Action}
    (h : act job a s = some t) : LedgerRun job s t := by
  have hs := State.balanced hacc hbound
  have ht := State.balanced (hacc.step h) (hbound.step h)
  cases a with
  | dispatcher =>
    rcases dispatcherStep_cases h with hm | ⟨_, hq⟩
    · exact ledger_dispatcherMove hm hs ht
    · refine .same hs ht ?_
      cases hq with
      | stop item rest hd => rcases hd with hd | hd <;>
          simp only [State.permits, hd, Dispatcher.permits]
      | abandon item rest hd =>
        simp only [State.permits, State.releaseWindow, hd, Dispatcher.permits]
  | worker i =>
    rcases workerStep_cases h with hm | ⟨_, hq⟩
    · exact ledger_workerMove hm hs ht
    · exact ledger_workerQuit hq hs ht
  | cancellation i => exact ledger_workerQuit (observeCancellation_quit h) hs ht
  | coordinator => exact ledger_coordinatorMove (coordinatorStep_move h) hs ht

theorem permits_start (job : Job τ α) : job.start.permits = 0 := by
  simp only [Job.start, State.permits, Dispatcher.permits, outputPermits, List.map_nil,
    List.append_nil, List.sum_nil, List.map_replicate, Worker.permits, List.sum_replicate,
    nsmul_zero, Multiset.coe_nil, Multiset.add_zero]

theorem open_ledger (h : Transition.Reachable (openAct job) job.start s) :
    Transition.Reachable (Ledger.act job.limits.budget) .empty s.ledger := by
  induction h with
  | refl =>
    rw [State.ledger, permits_start]
    exact .refl
  | @tail u t hu hstep ih =>
    obtain ⟨a, ha⟩ := hstep
    obtain rfl | ⟨prepare, deliver, action, seen, v, hv, rfl⟩ := openAct_cases ha
    · exact ih
    · have hacc := open_accounts hu
      have hbound := open_bounded hu
      have hrun : LedgerRun { job with prepare, deliver } { u with cancelled := seen } v :=
        ledger_step ⟨hacc.used, hacc.window⟩ ⟨hbound.used, hbound.window, hbound.workers⟩ hv
      exact Relation.ReflTransGen.trans ih hrun

end Steps

/-- **The budget is conserved.** Whatever the order of the calls, the counter is
the sum of the permits that are out and within the limit in every dimension, the
arithmetic of the next call is exact, and without permits the counter is zero.
Every execution, cancelled at any point and with any callbacks, stays within
these ledgers with the permits of its threads. -/
theorem budget_conserved (job : Job τ α) :
    (∀ l, Transition.Reachable (Ledger.act job.limits.budget) .empty l →
      l.Balanced job.limits.budget ∧ (∀ op, l.Exact job.limits.budget op) ∧
        (l.live = 0 → l.used = .default)) ∧
    ∀ s, Transition.Reachable (openAct job) job.start s →
      Transition.Reachable (Ledger.act job.limits.budget) .empty s.ledger := by
  refine ⟨fun l h => ?_, fun s h => open_ledger h⟩
  have hbalanced := Ledger.balanced h
  refine ⟨hbalanced, hbalanced.exact, fun hlive => ext_get fun d => ?_⟩
  rw [hbalanced.used d, hlive, get_default]
  rfl

end ModelWeights.Pipeline
