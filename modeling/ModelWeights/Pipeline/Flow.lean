import ModelWeights.Pipeline.Sequential
import Mathlib.Data.List.Perm.Basic
import Mathlib.Data.List.Nodup

/-! # Where the items are

`Flow` is the invariant of an execution whose coordinator has not returned.
The first `nextIndex` items are delivered, the items up to `taken` are with the
workers, in the result channel or pending, those up to `sent` are in the work
channel, and the rest is with the dispatcher. Every output is the outcome its
item has when it is prepared alone. -/
namespace ModelWeights.Pipeline
open ResourceWeights
variable {τ α : Type}

/-- One element of a list, and the others in some order. -/
theorem perm_set {β : Type} {l : List β} {i : Nat} {w : β} (h : l[i]? = some w) :
    ∃ rest, l.Perm (w :: rest) ∧ ∀ w', (l.set i w').Perm (w' :: rest) := by
  obtain ⟨hi, rfl⟩ := List.getElem?_eq_some_iff.mp h
  refine ⟨l.eraseIdx i, (List.getElem_cons_eraseIdx_perm hi).symm, fun w' => ?_⟩
  exact List.set_perm_cons_eraseIdx hi w'

theorem sum_set {β γ : Type} [AddCommMonoid γ] (f : β → γ) {l : List β} {i : Nat} {w : β}
    (h : l[i]? = some w) :
    ∃ rest, (l.map f).sum = f w + rest ∧ ∀ w', ((l.set i w').map f).sum = f w' + rest := by
  obtain ⟨others, hp, hset⟩ := perm_set h
  refine ⟨(others.map f).sum, ?_, fun w' => ?_⟩
  · rw [(hp.map f).sum_eq, List.map_cons, List.sum_cons]
  · rw [((hset w').map f).sum_eq, List.map_cons, List.sum_cons]

/-! ## Admitted work -/

/-- What `execute` has checked before it starts threads. -/
structure Job.Admitted (job : Job τ α) : Prop where
  limits : job.limits.validate = .ok ()
  sorted : job.items.Pairwise fun a b => a.ordinal < b.ordinal
  fits : ∀ item ∈ job.items, fits .default item.resources job.limits.budget = true

theorem Job.Admitted.nodup {job : Job τ α} (h : job.Admitted) :
    (job.items.map WorkItem.ordinal).Nodup := by
  rw [List.nodup_iff_pairwise_ne, List.pairwise_map]
  exact h.sorted.imp fun hlt => Nat.ne_of_lt hlt

theorem Job.Admitted.ordinal_inj {job : Job τ α} (h : job.Admitted) {a b : WorkItem τ}
    (ha : a ∈ job.items) (hb : b ∈ job.items) (he : a.ordinal = b.ordinal) : a = b :=
  List.inj_on_of_nodup_map h.nodup ha hb he

theorem Job.Admitted.limits_pos {job : Job τ α} (h : job.Admitted) :
    0 < job.limits.workers ∧ 0 < job.limits.deliveryQueueDepth ∧
      0 < job.limits.dispatchLookahead := by
  have := (unless_error_ok h.limits).1
  simp only [not_or] at this
  omega

theorem Job.Admitted.workerCount_pos {job : Job τ α} (h : job.Admitted) {item : WorkItem τ}
    (hi : item ∈ job.items) : 0 < job.workerCount := by
  obtain ⟨hw, _, hl⟩ := h.limits_pos
  have := List.length_pos_of_mem hi
  unfold Job.workerCount
  omega

theorem collectBoundedWork_ok {maximum : Nat} : ∀ {work collected out : List (WorkItem τ)},
    collectBoundedWork maximum work collected = .ok out → out = collected ++ work
  | [], collected, out, h => by
    rw [← Except.ok.inj h, List.append_nil]
  | item :: rest, collected, out, h => by
    rw [collectBoundedWork_ok (unless_error_ok h).2, List.append_assoc]
    rfl

theorem validateWork_ok {limits : ExecutionLimits} :
    ∀ {work : List (WorkItem τ)} {ordinals : List Nat}, validateWork limits ordinals work = .ok () →
      (work.map WorkItem.ordinal).Nodup ∧ (∀ item ∈ work, item.ordinal ∉ ordinals) ∧
        ∀ item ∈ work, fits .default item.resources limits.budget = true
  | [], _, _ => by simp
  | item :: rest, ordinals, h => by
    obtain ⟨hnew, h⟩ := unless_error_ok h
    obtain ⟨hfit, h⟩ := unless_error_ok h
    obtain ⟨hnodup, hfresh, hall⟩ := validateWork_ok h
    refine ⟨?_, ?_, ?_⟩
    · rw [List.map_cons, List.nodup_cons]
      refine ⟨fun hm => ?_, hnodup⟩
      obtain ⟨other, ho, he⟩ := List.mem_map.mp hm
      exact hfresh other ho (he ▸ List.mem_cons_self ..)
    · intro other ho
      rcases List.mem_cons.mp ho with rfl | ho
      · exact hnew
      · exact fun hm => hfresh other ho (List.mem_cons_of_mem _ hm)
    · intro other ho
      rcases List.mem_cons.mp ho with rfl | ho
      · rw [fits_iff]
        simp only [not_or] at hfit
        intro d
        cases d <;> simp only [ResourceWeights.get, ExecutionLimits.budget,
          ResourceWeights.default] <;> omega
      · exact hall other ho

theorem admitWork_ok {limits : ExecutionLimits} {work items : List (WorkItem τ)}
    (h : admitWork limits work = .ok items) :
    limits.validate = .ok () ∧ items.Perm work ∧
      items.Pairwise (fun a b => a.ordinal < b.ordinal) ∧
      ∀ item ∈ items, fits .default item.resources limits.budget = true := by
  obtain ⟨⟨⟩, hv, h⟩ := bind_ok h
  obtain ⟨collected, hc, h⟩ := bind_ok h
  obtain ⟨⟨⟩, hw, h⟩ := bind_ok h
  obtain rfl := Except.ok.inj h
  obtain rfl : collected = work := by simpa using collectBoundedWork_ok hc
  obtain ⟨hnodup, _, hfits⟩ := validateWork_ok hw
  refine ⟨hv, List.perm_insertionSort _ _, ?_, hfits⟩
  have : Std.Total fun (a b : WorkItem τ) => a.ordinal ≤ b.ordinal :=
    ⟨fun a b => Nat.le_total a.ordinal b.ordinal⟩
  have : IsTrans (WorkItem τ) fun a b => a.ordinal ≤ b.ordinal :=
    ⟨fun _ _ _ => Nat.le_trans⟩
  have hsorted := List.pairwise_insertionSort
    (fun (a b : WorkItem τ) => a.ordinal ≤ b.ordinal) collected
  rw [List.nodup_iff_pairwise_ne, List.pairwise_map] at hnodup
  exact (hsorted.and hnodup).imp fun ⟨hle, hne⟩ => Nat.lt_of_le_of_ne hle hne

/-! ## The invariant -/

def Dispatcher.remaining : Dispatcher τ → List (WorkItem τ)
  | .next rest => rest
  | .awaitingWindow item rest | .reserving item rest | .sending item rest => item :: rest
  | .done => []

/-- The item a worker is busy with. -/
def Worker.item? : Worker τ α → Option (WorkItem τ)
  | .starting item _ | .running item _ _ _ | .waiting item _ _ _ _ _ _ | .sending item _ =>
    some item
  | .receiving | .exited => none

/-- The output of an item, from the state its callback ends in. -/
def conclude (after : Result (PreparedItem α) × ResourceWeights) : Result (PreparedItem α) :=
  checkPrepared after.2.preparedBytes after.1

/-- A busy worker will send the outcome of its item. -/
def Worker.Sound (job : Job τ α) : Worker τ α → Prop
  | .starting item reservation => item ∈ job.items ∧ reservation = item.resources
  | .running item context script frames => item ∈ job.items ∧
      conclude (unwind job.limits.budget frames
        (evaluate job.limits.budget script context.reserved)) = job.outcome item
  | .waiting item context required missing operation next frames => item ∈ job.items ∧
      missing = subtractWeights required context.reserved ∧
      conclude (unwind job.limits.budget frames
        (awaited job.limits.budget context.reserved required operation next)) = job.outcome item
  | .sending item output => item ∈ job.items ∧ output.ordinal = item.ordinal ∧
      output.result = job.outcome item
  | .receiving | .exited => True

def WorkerOutput.Sound (job : Job τ α) (output : WorkerOutput α) : Prop :=
  ∃ item ∈ job.items, output.ordinal = item.ordinal ∧ output.result = job.outcome item

/-- Ordinals that a worker has taken and the sink has not accepted yet. -/
def State.inFlight (s : State τ α) : List Nat :=
  (s.workers.filterMap Worker.item?).map WorkItem.ordinal ++
    (s.results ++ s.pending).map WorkerOutput.ordinal

structure Flow (job : Job τ α) (s : State τ α) (taken sent : Nat) : Prop where
  uncancelled : s.cancelled = false
  workerCount : s.workers.length = job.workerCount
  succeeded : ∀ item ∈ job.items.take s.nextIndex, job.failure item = none
  delivered : s.delivered = (job.items.take s.nextIndex).flatMap job.offered
  remaining : s.dispatcher.remaining = job.items.drop sent
  queue : s.queue.map QueuedWork.item = (job.items.take sent).drop taken
  reserved : ∀ queued ∈ s.queue, queued.reservation = queued.item.resources
  order : s.nextIndex ≤ taken ∧ taken ≤ sent ∧ sent ≤ job.items.length
  inFlight : s.inFlight.Perm (((job.items.take taken).drop s.nextIndex).map WorkItem.ordinal)
  outputs : ∀ output ∈ s.results ++ s.pending, output.Sound job
  workers : ∀ worker ∈ s.workers, worker.Sound job
  exited : ∀ worker ∈ s.workers, worker.isExited = true →
    s.queue = [] ∧ s.dispatcher.isDone = true
  receiving : s.coordinator = .receiving → ∃ item, job.items[s.nextIndex]? = some item ∧
    ∀ output ∈ s.pending, output.ordinal ≠ item.ordinal
  open_ : ∀ result, s.coordinator ≠ .finished result

/-- The coordinator has returned what a sequential execution returns, after it
cancelled the others or delivered everything. -/
def Ended (job : Job τ α) (s : State τ α) : Prop :=
  ∃ result, s.coordinator = .finished result ∧
    (s.cancelled = true ∨ job.items.length ≤ s.nextIndex) ∧
    (s.delivered, result) = job.sequential job.items

theorem flow_start (job : Job τ α) : Flow job job.start 0 0 where
  uncancelled := rfl
  workerCount := List.length_replicate
  succeeded := by simp [Job.start]
  delivered := by simp [Job.start]
  remaining := rfl
  queue := by simp [Job.start]
  reserved := by simp [Job.start]
  order := by simp [Job.start]
  inFlight := by
    simp [State.inFlight, Job.start, Worker.item?, List.filterMap_replicate]
  outputs := by simp [Job.start]
  workers := by
    intro worker hw
    rw [List.eq_of_mem_replicate hw]
    trivial
  exited := by
    intro worker hw hx
    rw [List.eq_of_mem_replicate hw] at hx
    cases hx
  receiving := by simp [Job.start]
  open_ := by simp [Job.start]

end ModelWeights.Pipeline
