import ModelWeights.Pipeline.Open

/-! # What a callback ends with

A callback asks for reservations on its way. Whatever the answers are, it ends with a
result and with prepared bytes recorded as reserved: what is known of both before it
starts holds when its worker looks at them. -/
namespace ModelWeights.Pipeline
open ResourceWeights
variable {τ α : Type}

/-- A property of a result and of the prepared bytes recorded as reserved. -/
abbrev Ending (α : Type) := Result (PreparedItem α) → Nat → Prop

namespace Preparation

/-- Whatever its requests are answered, and wherever it is cancelled: the callback ends with
`Q`, if `reserved` prepared bytes are recorded when it starts. A request for more of them
gives them back first. -/
def EndsWith : Preparation α → Ending α → Nat → Prop
  | .done result, Q, reserved => Q result reserved ∧ Q (.error .cancelled) reserved
  | .withResources required operation next, Q, reserved =>
    let previous := if required.preparedBytes ≤ reserved then reserved else 0
    Q (.error .cancelled) reserved ∧ (∀ e, (next (.error e)).EndsWith Q previous) ∧
      operation.EndsWith (fun result r => (next result).EndsWith Q r ∧
        (next result).EndsWith Q (if isOk result then r else previous))
        (max reserved required.preparedBytes)

theorem endsWith_done {result : Result (PreparedItem α)} {Q : Ending α} {reserved : Nat} :
    (done result).EndsWith Q reserved ↔ Q result reserved ∧ Q (.error .cancelled) reserved :=
  Iff.rfl

theorem EndsWith.mono {p : Preparation α} : ∀ {Q Q' : Ending α} {reserved : Nat},
    p.EndsWith Q reserved → (∀ result r, Q result r → Q' result r) → p.EndsWith Q' reserved := by
  induction p with
  | done result => exact fun h hQ => ⟨hQ _ _ h.1, hQ _ _ h.2⟩
  | withResources required operation next ihoperation ihnext =>
    intro Q Q' reserved h hQ
    obtain ⟨hcancelled, hrefused, hoperation⟩ := h
    refine ⟨hQ _ _ hcancelled, fun e => ihnext _ (hrefused e) hQ,
      ihoperation hoperation fun result r hr => ⟨ihnext _ hr.1 hQ, ihnext _ hr.2 hQ⟩⟩

theorem EndsWith.cancelled {p : Preparation α} {Q : Ending α} {reserved : Nat}
    (h : p.EndsWith Q reserved) : Q (.error .cancelled) reserved := by
  cases p with
  | done result => exact h.2
  | withResources required operation next => exact h.1

end Preparation

open Preparation

/-- What the result of a call in progress must meet. -/
def framesEnding (Q : Ending α) : List (Frame α) → Ending α
  | [] => Q
  | .plain next :: frames => fun result r => (next result).EndsWith (framesEnding Q frames) r
  | .promoted previous _ _ next :: frames => fun result r =>
    (next result).EndsWith (framesEnding Q frames)
      (if isOk result then r else previous.preparedBytes)

/-- The callback of a worker ends with `Q`. -/
def Worker.EndsWith (Q : Ending α) : Worker τ α → Prop
  | .running _ context script frames =>
    script.EndsWith (framesEnding Q frames) context.reserved.preparedBytes
  | .waiting _ context required _ operation next frames =>
    (∀ e, (next (.error e)).EndsWith (framesEnding Q frames) context.reserved.preparedBytes) ∧
    operation.EndsWith (fun result r => (next result).EndsWith (framesEnding Q frames)
        (if isOk result then r else context.reserved.preparedBytes))
      (max context.reserved.preparedBytes required.preparedBytes)
  | _ => True

section Steps
variable {Q : Ending α} {job : Job τ α} {s t : State τ α} {i : Nat}

/-- The callbacks of all workers end with `Q`. -/
def State.EndsWith (Q : Ending α) (s : State τ α) : Prop := ∀ worker ∈ s.workers, worker.EndsWith Q

theorem State.EndsWith.setWorker (h : s.EndsWith Q) (worker : Worker τ α)
    (hw : worker.EndsWith Q) (hworkers : t.workers = s.workers.set i worker) : t.EndsWith Q := by
  intro w hmem
  rw [hworkers] at hmem
  rcases List.mem_or_eq_of_mem_set hmem with hmem | rfl
  · exact h w hmem
  · exact hw

theorem settle_preparedBytes {context : PrepareContext} {previous : ResourceWeights}
    {promotions : Nat} {result : Result (PreparedItem α)} :
    (context.settle previous promotions result).reserved.preparedBytes =
      if isOk result then context.reserved.preparedBytes else previous.preparedBytes := by
  unfold PrepareContext.settle settleReserved
  cases isOk result <;> rfl

theorem State.EndsWith.runStep (h : s.EndsWith Q) {item : WorkItem τ} {context : PrepareContext}
    {script : Preparation α} {frames : List (Frame α)}
    (hw : s.workers[i]? = some (.running item context script frames)) :
    (runStep s i item context script frames).EndsWith Q := by
  have hnow : (Worker.running item context script frames).EndsWith Q :=
    h _ (List.mem_of_getElem? hw)
  cases script with
  | done result =>
    cases frames with
    | nil => exact h.setWorker (.sending item _) trivial rfl
    | cons frame frames =>
      cases frame with
      | plain next => exact h.setWorker (.running item context (next result) frames) hnow.1 rfl
      | promoted previous promotions reservation next =>
        refine h.setWorker (.running item (context.settle previous promotions result)
          (next result) frames) ?_ rfl
        show (next result).EndsWith _ (context.settle _ _ result).reserved.preparedBytes
        rw [settle_preparedBytes]
        exact hnow.1
  | withResources required operation next =>
    obtain ⟨_, hrefused, hoperation⟩ := hnow
    unfold Pipeline.runStep
    dsimp only
    have hmissing : (subtractWeights required context.reserved).preparedBytes =
        required.preparedBytes - context.reserved.preparedBytes := rfl
    split
    · next hnone =>
      have hle : required.preparedBytes ≤ context.reserved.preparedBytes := by
        have hzero : (subtractWeights required context.reserved).preparedBytes = 0 := by
          rw [hnone]
          rfl
        omega
      refine h.setWorker (.running item context operation (.plain next :: frames)) ?_ rfl
      rw [Nat.max_eq_left hle] at hoperation
      exact hoperation.mono fun _ _ hr => hr.1
    · split
      · next hpositive =>
        have hgt : ¬required.preparedBytes ≤ context.reserved.preparedBytes := by omega
        simp only [if_neg hgt] at hrefused hoperation
        refine h.setWorker (.waiting item context.releasePrepared required _ operation next frames)
          ⟨hrefused, ?_⟩ rfl
        show operation.EndsWith _ (max 0 required.preparedBytes)
        rw [Nat.max_eq_right (by omega)] at hoperation
        rw [Nat.zero_max]
        exact hoperation.mono fun _ _ hr => hr.2
      · next hpositive =>
        have hle : required.preparedBytes ≤ context.reserved.preparedBytes := by omega
        simp only [if_pos hle] at hrefused hoperation
        exact h.setWorker (.waiting item context required _ operation next frames)
          ⟨hrefused, hoperation.mono fun _ _ hr => hr.2⟩ rfl

theorem State.EndsWith.workerMove (h : s.EndsWith Q)
    (hprepare : ∀ value reserved, (job.prepare value).EndsWith Q reserved)
    (hm : WorkerMove job s i t) : t.EndsWith Q := by
  cases hm with
  | receive queued rest hw hq => exact h.setWorker (.starting _ _) trivial rfl
  | exit hw hq hd => exact h.setWorker .exited trivial rfl
  | start item reservation hw =>
    exact h.setWorker (.running item (.new reservation) (job.prepare item.value) [])
      (hprepare item.value _) rfl
  | run item context script frames hw => exact h.runStep hw
  | refuse item context required missing operation next frames hw hf =>
    obtain ⟨hrefused, _⟩ := h _ (List.mem_of_getElem? hw)
    exact h.setWorker (.running item context _ frames) (hrefused _) rfl
  | promote item context required missing operation next frames hw hl hf =>
    obtain ⟨_, hoperation⟩ := h _ (List.mem_of_getElem? hw)
    exact h.setWorker (.running item (context.promote required missing) operation
      (.promoted context.reserved context.promotedPrepared.length missing.withoutPrepared next ::
        frames)) hoperation rfl
  | send item output hw hr => exact h.setWorker .receiving trivial rfl

theorem State.EndsWith.workerQuit (h : s.EndsWith Q) (hcancelled : ∀ r, Q (.error .cancelled) r)
    (hq : WorkerQuit s i t) : t.EndsWith Q := by
  cases hq with
  | start item reservation hw =>
    exact h.setWorker (.running item (.new reservation) (.done (.error .cancelled)) [])
      (endsWith_done.mpr ⟨hcancelled _, hcancelled _⟩) rfl
  | observe item context script frames hw =>
    have hnow : (Worker.running item context script frames).EndsWith Q :=
      h _ (List.mem_of_getElem? hw)
    have hresult := EndsWith.cancelled hnow
    exact h.setWorker (.running item context (.done (.error .cancelled)) frames)
      (endsWith_done.mpr ⟨hresult, hresult⟩) rfl
  | refuse item context required missing operation next frames hw =>
    obtain ⟨hrefused, _⟩ := h _ (List.mem_of_getElem? hw)
    exact h.setWorker (.running item context (next (.error .cancelled)) frames) (hrefused _) rfl
  | disconnect item output result hw hc => exact h.setWorker .exited trivial rfl

theorem coordinatorMove_workers (hm : CoordinatorMove job s t) : t.workers = s.workers := by
  cases hm with
  | receive output rest hc hr hnew | duplicate output other rest hc hr hm ho
  | disconnect hc hr hx | complete hc hi | wait item hc hi hp => rfl
  | deliver item output rest hc hi hp ho =>
    unfold deliverOutput
    split
    · rfl
    · dsimp only
      split <;> rfl

theorem State.EndsWith.step (h : s.EndsWith Q) (hcancelled : ∀ r, Q (.error .cancelled) r)
    (hprepare : ∀ value reserved, (job.prepare value).EndsWith Q reserved) {a : Action}
    (hs : act job a s = some t) : t.EndsWith Q := by
  cases a with
  | dispatcher =>
    rcases dispatcherStep_cases hs with hm | ⟨_, hq⟩
    · cases hm <;> exact h
    · cases hq <;> exact h
  | worker i =>
    rcases workerStep_cases hs with hm | ⟨_, hq⟩
    · exact h.workerMove hprepare hm
    · exact h.workerQuit hcancelled hq
  | cancellation i => exact h.workerQuit hcancelled (observeCancellation_quit hs)
  | coordinator =>
    intro worker hw
    rw [coordinatorMove_workers (coordinatorStep_move hs)] at hw
    exact h worker hw

/-- The callbacks of an action end with `Q`. -/
def Ends (Q : Ending α) : OpenAction τ α → State τ α → Prop
  | .thread prepare _ _ _, _ => ∀ value reserved, (prepare value).EndsWith Q reserved
  | .cancel, _ => True

/-- A run of the job is one under every condition that its own calls meet. -/
theorem reachableUnder_open {C : OpenAction τ α → State τ α → Prop}
    (hC : ∀ a s, C (.thread job.prepare job.deliver true a) s)
    (h : Transition.Reachable (act job) job.start s) :
    Transition.ReachableUnder (openAct job) C job.start s := by
  induction h with
  | refl => exact .refl
  | @tail u t _ hstep ih =>
    obtain ⟨a, ha⟩ := hstep
    exact ih.tail ⟨.thread job.prepare job.deliver true a, hC a u, openAct_thread ha⟩

/-- **Every callback of an execution ends with** `Q`, if all that are started do. -/
theorem open_endsWith (hcancelled : ∀ r, Q (.error .cancelled) r)
    (h : Transition.ReachableUnder (openAct job) (Ends Q) job.start s) : s.EndsWith Q := by
  refine h.invariant (I := State.EndsWith Q) (fun worker hw => ?_) fun a s t hC hI hs => ?_
  · rw [(List.mem_replicate.mp hw).2]
    trivial
  · cases a with
    | cancel =>
      obtain rfl := Option.some.inj hs
      exact hI
    | thread prepare deliver seen action =>
      obtain ⟨u, hu, rfl⟩ := Option.map_eq_some_iff.mp hs
      have hprepare : ∀ value reserved,
          (({ job with prepare, deliver } : Job τ α).prepare value).EndsWith Q reserved := hC
      have hblind : State.EndsWith Q { s with cancelled := s.cancelled && seen } := hI
      have hstep := hblind.step hcancelled hprepare hu
      exact hstep

/-- What a worker finds when its callback returned. -/
theorem State.EndsWith.returned (h : s.EndsWith Q) {item : WorkItem τ} {context : PrepareContext}
    {result : Result (PreparedItem α)}
    (hw : Worker.running item context (.done result) [] ∈ s.workers) :
    Q result context.reserved.preparedBytes := (h _ hw).1

end Steps

end ModelWeights.Pipeline
