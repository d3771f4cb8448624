import ModelWeights.Pipeline.Machine

/-! # Sequential execution

What an execution means: the items one after the other in ordinal order, each
prepared alone and delivered before the next one starts. A callback that runs
alone gets every reservation that fits the limits, so its outcome is a function
of the item. -/
namespace ModelWeights.Pipeline
open ResourceWeights
variable {τ α : Type}

/-- The error of a promotion that can never be granted. -/
def promotionLimit : Error :=
  .limit "a deferred pipeline resource request exceeds a configured byte budget"

/-- A callback that runs alone: its result and its reservation at the end. -/
def evaluate (limit : ResourceWeights) :
    Preparation α → ResourceWeights → Result (PreparedItem α) × ResourceWeights
  | .done result, reserved => (result, reserved)
  | .withResources required operation next, reserved =>
    let missing := subtractWeights required reserved
    if missing = .default then
      let after := evaluate limit operation reserved
      evaluate limit (next after.1) after.2
    else
      let reserved := if missing.preparedBytes > 0 then reserved.withoutPrepared else reserved
      if fits .default (subtractWeights required reserved) limit = false then
        evaluate limit (next (.error promotionLimit)) reserved
      else
        let after := evaluate limit operation (maxWeights reserved required)
        evaluate limit (next after.1) (settleReserved reserved after.2 after.1)

/-- The outcome of preparing one item. -/
def Job.outcome (job : Job τ α) (item : WorkItem τ) : Result (PreparedItem α) :=
  let after := evaluate job.limits.budget (job.prepare item.value) item.resources
  checkPrepared after.2.preparedBytes after.1

/-- The error of an item, from its preparation or from the sink. -/
def Job.failure (job : Job τ α) (item : WorkItem τ) : Option Error :=
  match job.outcome item with
  | .error e => some e
  | .ok prepared =>
    match job.deliver item.ordinal prepared with
    | .error e => some e
    | .ok () => none

/-- What the sink receives for an item. -/
def Job.offered (job : Job τ α) (item : WorkItem τ) : List (Nat × PreparedItem α) :=
  match job.outcome item with
  | .error _ => []
  | .ok prepared => [(item.ordinal, prepared)]

def Job.sequential (job : Job τ α) :
    List (WorkItem τ) → List (Nat × PreparedItem α) × Result Unit
  | [] => ([], .ok ())
  | item :: rest =>
    match job.failure item with
    | some e => (job.offered item, .error e)
    | none =>
      let (delivered, result) := job.sequential rest
      (job.offered item ++ delivered, result)

section Facts
variable {job : Job τ α}

/-- A prefix without failures is delivered in full. -/
theorem sequential_append {done : List (WorkItem τ)} (rest : List (WorkItem τ))
    (h : ∀ item ∈ done, job.failure item = none) :
    job.sequential (done ++ rest) =
      (done.flatMap job.offered ++ (job.sequential rest).1, (job.sequential rest).2) := by
  induction done with
  | nil => rfl
  | cons item done ih =>
    rw [List.cons_append, Job.sequential, h item (List.mem_cons_self ..),
      ih fun x hx => h x (List.mem_cons_of_mem _ hx)]
    simp

/-- The sink never sees an ordinal out of order. -/
theorem sequential_ordinals : ∀ items : List (WorkItem τ),
    ((job.sequential items).1.map Prod.fst) <+: items.map WorkItem.ordinal
  | [] => List.nil_prefix
  | item :: rest => by
    have hoffered : (job.offered item).map Prod.fst = [] ∧ job.failure item ≠ none ∨
        (job.offered item).map Prod.fst = [item.ordinal] := by
      unfold Job.offered Job.failure
      cases job.outcome item with
      | error e => exact .inl ⟨rfl, by simp⟩
      | ok prepared => exact .inr rfl
    rw [Job.sequential]
    cases hf : job.failure item with
    | some e =>
      rcases hoffered with ⟨ho, _⟩ | ho
      · rw [ho]; exact List.nil_prefix
      · rw [ho, List.map_cons]
        exact (List.prefix_cons_inj _).mpr List.nil_prefix
    | none =>
      rcases hoffered with ⟨_, hn⟩ | ho
      · exact absurd hf hn
      · rw [List.map_append, ho, List.map_cons]
        exact (List.prefix_cons_inj _).mpr (sequential_ordinals rest)

/-- The error is the one of the first item that fails. -/
theorem sequential_error {e : Error} : ∀ {items : List (WorkItem τ)},
    (job.sequential items).2 = .error e ↔ ∃ k item, items[k]? = some item ∧
      job.failure item = some e ∧ ∀ other ∈ items.take k, job.failure other = none
  | [] => by simp [Job.sequential]
  | item :: rest => by
    rw [Job.sequential]
    cases hf : job.failure item with
    | some e' =>
      constructor
      · intro h
        exact ⟨0, item, rfl, by rw [hf]; simpa using h, by simp⟩
      · rintro ⟨k, other, hk, ho, hall⟩
        cases k with
        | zero =>
          obtain rfl : item = other := by simpa using hk
          rw [hf] at ho
          simpa using ho
        | succ k =>
          have := hall item (by simp)
          rw [hf] at this
          cases this
    | none =>
      refine sequential_error.trans ⟨?_, ?_⟩
      · rintro ⟨k, other, hk, ho, hall⟩
        refine ⟨k + 1, other, by simpa using hk, ho, ?_⟩
        intro x hx
        rcases List.mem_cons.mp (by simpa using hx) with rfl | hx
        · exact hf
        · exact hall x hx
      · rintro ⟨k, other, hk, ho, hall⟩
        cases k with
        | zero =>
          obtain rfl : item = other := by simpa using hk
          rw [hf] at ho
          cases ho
        | succ k =>
          exact ⟨k, other, by simpa using hk, ho, fun x hx => hall x (by simp [hx])⟩

end Facts

/-! ## Callbacks in progress -/

/-- The rest of a callback whose innermost operation has returned. -/
def unwind (limit : ResourceWeights) :
    List (Frame α) → Result (PreparedItem α) × ResourceWeights →
      Result (PreparedItem α) × ResourceWeights
  | [], after => after
  | .plain next :: frames, after => unwind limit frames (evaluate limit (next after.1) after.2)
  | .promoted previous _ _ next :: frames, after =>
    unwind limit frames
      (evaluate limit (next after.1) (settleReserved previous after.2 after.1))

/-- The rest of a callback that waits for a promotion. -/
def awaited (limit : ResourceWeights) (reserved required : ResourceWeights)
    (operation : Preparation α) (next : Result (PreparedItem α) → Preparation α) :
    Result (PreparedItem α) × ResourceWeights :=
  if fits .default (subtractWeights required reserved) limit = false then
    evaluate limit (next (.error promotionLimit)) reserved
  else
    let after := evaluate limit operation (maxWeights reserved required)
    evaluate limit (next after.1) (settleReserved reserved after.2 after.1)

theorem evaluate_withResources (limit required reserved : ResourceWeights)
    (operation : Preparation α) (next : Result (PreparedItem α) → Preparation α)
    (h : subtractWeights required reserved ≠ .default) :
    evaluate limit (.withResources required operation next) reserved =
      awaited limit (if (subtractWeights required reserved).preparedBytes > 0
        then reserved.withoutPrepared else reserved) required operation next := by
  rw [evaluate]
  simp only [if_neg h]
  rfl

end ModelWeights.Pipeline
