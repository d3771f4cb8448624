import ModelWeights.Lib.Observed
import ModelWeights.Prepared.Materialize

/-! # The memory of a transform chain

The pipeline admits a chain by one number that is folded over its plan,
`peakTransformScratchBytes`. Here the chain runs under observation: at every
moment it is known which host buffers are alive and how much workspace the
provider holds. -/
namespace ModelWeights.Prepared
open ModelWeights.Graph

/-! ## Observed runs -/

/-- A host allocation: the step of the chain that made it, if it is not the
original source, and its bytes. -/
structure HostBuffer where
  step : Option Nat
  size : Nat
  deriving DecidableEq, Repr

/-- The distinct buffers alive at one moment, and the workspace of the provider. -/
structure Moment where
  buffers : List HostBuffer
  workspace : Nat
  deriving DecidableEq, Repr

inductive ChainEvent where
  | moment (moment : Moment)
  | chose (strategy : OutputStrategy)
  deriving DecidableEq, Repr

abbrev Watched := Observed Error ChainEvent

def alive (buffers : List HostBuffer) (workspace : Nat) : Watched Unit :=
  .observe (.moment ⟨buffers, workspace⟩)

/-- `prepare_with_cancellation` of the step `step`, on the buffer `current`. The
provider holds the output and the workspace that the engine has validated. -/
def watchPrepare (engine : PreparationEngine) (request : PrepareRequest)
    (cancellation : CancellationToken) (step : Nat) (current : HostBuffer) :
    Watched (Prepared × HostBuffer) := do
  alive [current] 0
  .perform cancellation.check
  let provider ← .perform (engine.resolve request.transform.implementation)
  let strategy ← .perform (provider.validate request cancellation)
  .observe (.chose strategy)
  .perform cancellation.check
  match strategy with
  | .reuseSource => do
    .perform (validateReusedOutput request)
    .perform cancellation.check
    return (.reused, current)
  | .allocate outputBytes scratchBytes => do
    let lengths ← .perform (validateAllocatedStorage request outputBytes scratchBytes)
    .perform cancellation.check
    let made : HostBuffer := ⟨some step, lengths.1⟩
    alive [current, made] 0
    alive [current, made] lengths.2
    let output ← .perform (provider.prepareAllocated request lengths.1 lengths.2 cancellation)
    alive [current, made] 0
    .perform cancellation.check
    .perform (validatePreparedLen output lengths.1)
    return (.owned output, made)

/-- `prepare_chain_with_cancellation` from the step `step` on. A buffer is
dropped as soon as its successor takes its place. -/
def watchChain (engine : PreparationEngine) (shape : List Nat) (cancellation : CancellationToken) :
    List PlannedTransform → Nat → ByteView → HostBuffer → Watched ByteView
  | [], _, current, buffer => do
    alive [buffer] 0
    .perform cancellation.check
    return current
  | planned :: rest, step, current, buffer => do
    alive [buffer] 0
    .perform cancellation.check
    let prepared ← watchPrepare engine ⟨planned.transform, shape, current.bytes,
      planned.outputSize, planned.scratchBytes⟩ cancellation step buffer
    alive (if prepared.1 = .reused then [buffer] else [buffer, prepared.2]) 0
    watchChain engine shape cancellation rest (step + 1) (prepared.1.view current) prepared.2

/-- A chain on the original source. -/
def watch (engine : PreparationEngine) (shape : List Nat) (cancellation : CancellationToken)
    (transforms : List PlannedTransform) (source : ByteView) : Watched ByteView :=
  watchChain engine shape cancellation transforms 0 source ⟨none, source.bytes.length⟩

/-! ## Watching changes nothing -/

section Results
variable {engine : PreparationEngine} {shape : List Nat} {cancellation : CancellationToken}

theorem result_watchPrepare (request : PrepareRequest) (step : Nat) (current : HostBuffer) :
    (watchPrepare engine request cancellation step current).result.map Prod.fst =
      engine.prepareWithCancellation request cancellation := by
  unfold watchPrepare PreparationEngine.prepareWithCancellation alive
  simp only [Observed.result_bind, Observed.result_observe, Observed.result_perform]
  cases cancellation.check with
  | error e => rfl
  | ok _ =>
    cases engine.resolve request.transform.implementation with
    | error e => rfl
    | ok provider =>
      show Except.map _ (provider.validate request cancellation >>= _) =
        provider.validate request cancellation >>= _
      cases provider.validate request cancellation with
      | error e => rfl
      | ok strategy =>
        cases strategy with
        | reuseSource =>
          show Except.map _ (Observed.result (_ >>= _)) = validateReusedOutput request >>= _
          rw [Observed.result_bind, Observed.result_perform]
          cases validateReusedOutput request <;> rfl
        | allocate outputBytes scratchBytes =>
          show Except.map _ (Observed.result (_ >>= _)) =
            validateAllocatedStorage request outputBytes scratchBytes >>= _
          simp only [Observed.result_bind, Observed.result_observe, Observed.result_perform]
          cases validateAllocatedStorage request outputBytes scratchBytes with
          | error e => rfl
          | ok lengths =>
            show Except.map _ (provider.prepareAllocated request lengths.1 lengths.2 cancellation >>= _) =
              provider.prepareAllocated request lengths.1 lengths.2 cancellation >>= _
            cases provider.prepareAllocated request lengths.1 lengths.2 cancellation with
            | error e => rfl
            | ok output =>
              show Except.map _ (validatePreparedLen output lengths.1 >>= _) =
                validatePreparedLen output lengths.1 >>= _
              cases validatePreparedLen output lengths.1 <;> rfl

/-- The watched chain returns what the chain returns. -/
theorem result_watchChain (transforms : List PlannedTransform) :
    ∀ (step : Nat) (current : ByteView) (buffer : HostBuffer),
      (watchChain engine shape cancellation transforms step current buffer).result =
        Materializer.prepareChain engine shape cancellation transforms current := by
  induction transforms with
  | nil =>
    intro step current buffer
    unfold watchChain Materializer.prepareChain alive
    simp only [Observed.result_bind, Observed.result_observe, Observed.result_perform]
    rfl
  | cons planned rest ih =>
    intro step current buffer
    unfold watchChain Materializer.prepareChain alive
    simp only [Observed.result_bind, Observed.result_observe, Observed.result_perform,
      ← result_watchPrepare _ step buffer, ih]
    cases cancellation.check with
    | error e => rfl
    | ok _ =>
      show Observed.result _ >>= _ = Except.map _ (Observed.result _) >>= _
      cases (watchPrepare engine ⟨planned.transform, shape, current.bytes, planned.outputSize,
        planned.scratchBytes⟩ cancellation step buffer).result <;> rfl

/-- The first moment of a chain is that of its source. -/
theorem alive_mem_watchChain (transforms : List PlannedTransform) (step : Nat)
    (current : ByteView) (buffer : HostBuffer) :
    .moment ⟨[buffer], 0⟩ ∈
      (watchChain engine shape cancellation transforms step current buffer).events := by
  cases transforms <;> exact List.mem_cons_self ..

end Results

/-! ## The bytes of a moment -/

/-- What a buffer counts as an intermediate. The original source does not, and
neither does the output that the last step allocates. A buffer that a later
step reuses keeps counting, also when it ends as the output. -/
def HostBuffer.intermediate (last : Nat) (buffer : HostBuffer) : Nat :=
  if buffer.step = none ∨ buffer.step = some last then 0 else buffer.size

/-- The live intermediates and the workspace. -/
def Moment.scratch (last : Nat) (moment : Moment) : Nat :=
  (moment.buffers.map (HostBuffer.intermediate last)).sum + moment.workspace

section Bytes
variable {last : Nat}

theorem intermediate_le (buffer : HostBuffer) : buffer.intermediate last ≤ buffer.size := by
  unfold HostBuffer.intermediate
  split <;> omega

theorem intermediate_made (step size : Nat) :
    HostBuffer.intermediate last ⟨some step, size⟩ = if step = last then 0 else size := by
  unfold HostBuffer.intermediate
  simp

theorem scratch_one (buffer : HostBuffer) (workspace : Nat) :
    Moment.scratch last ⟨[buffer], workspace⟩ = buffer.intermediate last + workspace := by
  simp [Moment.scratch]

theorem scratch_two (first second : HostBuffer) (workspace : Nat) :
    Moment.scratch last ⟨[first, second], workspace⟩ =
      first.intermediate last + second.intermediate last + workspace := by
  simp [Moment.scratch]

end Bytes

/-! ## What the engine checks -/

section Checks
variable {request : PrepareRequest}

theorem validateReusedOutput_ok (h : validateReusedOutput request = .ok ()) :
    request.source.length = request.expectedOutputBytes := by
  obtain ⟨_, h⟩ := unless_error_ok h
  obtain ⟨hlen, _⟩ := unless_error_ok h
  exact not_not.mp hlen

theorem validateAllocatedStorage_ok {outputBytes scratchBytes : Nat} {lengths : Nat × Nat}
    (h : validateAllocatedStorage request outputBytes scratchBytes = .ok lengths) :
    lengths = (request.expectedOutputBytes, request.expectedScratchBytes) := by
  obtain ⟨houtput, h⟩ := unless_error_ok h
  obtain ⟨hscratch, h⟩ := unless_error_ok h
  rw [← not_not.mp houtput, ← not_not.mp hscratch]
  exact (Except.ok.inj h).symm

theorem validatePreparedLen_ok {output : Bytes} {length : Nat}
    (h : validatePreparedLen output length = .ok ()) : output.length = length :=
  not_not.mp (unless_error_ok h).1

end Checks

/-! ## One step -/

/-- What is known of the buffer that a step leaves, when `live` bounds the step. -/
structure Left (last live : Nat) (request : PrepareRequest) (current : HostBuffer)
    (left : Prepared × HostBuffer) : Prop where
  held : left.2.intermediate last ≤ live
  planned : left.2.intermediate last ≤ request.expectedOutputBytes
  length : ∀ view : ByteView, view.bytes = request.source →
    left.2.intermediate last ≤ (left.1.view view).bytes.length
  reused : left.1 = .reused → left.2 = current
  adjacent : left.1 ≠ .reused → current.intermediate last + left.2.intermediate last ≤ live

/-- The moments of an event hold at most `live`. -/
def Within (last live : Nat) : ChainEvent → Prop
  | .moment moment => moment.scratch last ≤ live
  | .chose _ => True

section Step
variable {engine : PreparationEngine} {cancellation : CancellationToken} {last live : Nat}
  {request : PrepareRequest} {step : Nat} {current : HostBuffer}

theorem ensures_alive {buffers : List HostBuffer} {workspace : Nat}
    (h : Moment.scratch last ⟨buffers, workspace⟩ ≤ live) :
    Observed.Ensures (Within last live) (fun _ => True) (alive buffers workspace) :=
  Observed.ensures_observe h

theorem ensures_chose (strategy : OutputStrategy) :
    Observed.Ensures (ε := Error) (Within last live) (fun _ => True)
      (.observe (.chose strategy)) := Observed.ensures_observe trivial

/-- The moments of one step hold at most its intermediates and its workspace. -/
theorem ensures_watchPrepare (hsource : current.intermediate last ≤ request.source.length)
    (hlive : current.intermediate last + (if step = last then 0 else request.expectedOutputBytes) +
      request.expectedScratchBytes ≤ live) :
    Observed.Ensures (Within last live) (Left last live request current)
      (watchPrepare engine request cancellation step current) := by
  unfold watchPrepare
  refine (ensures_alive (by rw [scratch_one]; omega)).bind fun _ _ => ?_
  refine (Observed.ensures_perform _).bind fun _ _ => ?_
  refine (Observed.ensures_perform _).bind fun provider _ => ?_
  refine (Observed.ensures_perform _).bind fun strategy _ => ?_
  refine (ensures_chose strategy).bind fun _ _ => ?_
  refine (Observed.ensures_perform _).bind fun _ _ => ?_
  cases strategy with
  | reuseSource =>
    refine (Observed.ensures_perform _).bind fun _ hreused => ?_
    refine (Observed.ensures_perform _).bind fun _ _ => Observed.ensures_pure ?_
    have hlen := validateReusedOutput_ok hreused
    exact
      { held := by show current.intermediate last ≤ live; omega
        planned := by show current.intermediate last ≤ _; omega
        length := fun view hview => by
          show current.intermediate last ≤ view.bytes.length
          rw [hview]
          exact hsource
        reused := fun _ => rfl
        adjacent := fun hne => absurd rfl hne }
  | allocate outputBytes scratchBytes =>
    refine (Observed.ensures_perform _).bind fun lengths hstorage => ?_
    obtain rfl := validateAllocatedStorage_ok hstorage
    refine (Observed.ensures_perform _).bind fun _ _ => ?_
    rw [← intermediate_made] at hlive
    have hle := @intermediate_le last ⟨some step, request.expectedOutputBytes⟩
    have hsize : HostBuffer.size ⟨some step, request.expectedOutputBytes⟩ =
      request.expectedOutputBytes := rfl
    dsimp only
    generalize (⟨some step, request.expectedOutputBytes⟩ : HostBuffer) = made at hlive hle hsize ⊢
    refine (ensures_alive (by rw [scratch_two]; omega)).bind fun _ _ => ?_
    refine (ensures_alive (by rw [scratch_two]; omega)).bind fun _ _ => ?_
    refine (Observed.ensures_perform _).bind fun output _ => ?_
    refine (ensures_alive (by rw [scratch_two]; omega)).bind fun _ _ => ?_
    refine (Observed.ensures_perform _).bind fun _ _ => ?_
    refine (Observed.ensures_perform _).bind fun _ hprepared => Observed.ensures_pure ?_
    have hlen : output.length = request.expectedOutputBytes := validatePreparedLen_ok hprepared
    exact
      { held := by show made.intermediate last ≤ live; omega
        planned := by show made.intermediate last ≤ _; omega
        length := fun view _ => by
          show made.intermediate last ≤ output.length
          omega
        reused := nofun
        adjacent := fun _ => by show _ + made.intermediate last ≤ live; omega }

end Step

/-! ## The chain -/

/-- One turn of the fold over the plan. -/
theorem peakTransformScratchBytes_cons {previous peak final : Nat} {planned : PlannedTransform}
    {rest : List PlannedTransform}
    (h : peakTransformScratchBytes previous peak (planned :: rest) = .ok final) :
    peakTransformScratchBytes planned.outputSize
      (max peak (previous + (if rest.isEmpty then 0 else planned.outputSize) +
        planned.scratchBytes)) rest = .ok final := by
  rw [peakTransformScratchBytes] at h
  obtain ⟨_, hadjacent, h⟩ := bind_ok h
  obtain ⟨-, rfl⟩ := checkedAdd_eq_some.mp (okOr_eq_ok.mp hadjacent)
  obtain ⟨_, hprovider, h⟩ := bind_ok h
  obtain ⟨-, rfl⟩ := checkedAdd_eq_some.mp (okOr_eq_ok.mp hprovider)
  exact h

theorem le_peakTransformScratchBytes : ∀ {transforms : List PlannedTransform}
    {previous peak final : Nat},
    peakTransformScratchBytes previous peak transforms = .ok final → peak ≤ final
  | [], _, _, _, h => (Except.ok.inj h).le
  | _ :: _, _, _, _, h =>
    (Nat.le_max_left _ _).trans (le_peakTransformScratchBytes (peakTransformScratchBytes_cons h))

section Chain
variable {engine : PreparationEngine} {shape : List Nat} {cancellation : CancellationToken}
  {last final : Nat}

/-- The last step of a chain is the one without a successor. -/
theorem isEmpty_iff_last {step : Nat} {planned : PlannedTransform} {rest : List PlannedTransform}
    (hlast : step + (planned :: rest).length = last + 1) : rest.isEmpty = true ↔ step = last := by
  rw [List.length_cons] at hlast
  rw [List.isEmpty_iff_length_eq_zero]
  omega

/-- **The fold bounds every moment** from a buffer on that the fold has counted. -/
theorem ensures_watchChain (transforms : List PlannedTransform) :
    ∀ {step previous peak : Nat} {current : ByteView} {buffer : HostBuffer},
      (transforms ≠ [] → step + transforms.length = last + 1) →
      peakTransformScratchBytes previous peak transforms = .ok final →
      buffer.intermediate last ≤ previous → buffer.intermediate last ≤ peak →
      buffer.intermediate last ≤ current.bytes.length →
      Observed.Ensures (Within last final) (fun _ => True)
        (watchChain engine shape cancellation transforms step current buffer) := by
  induction transforms with
  | nil =>
    intro step previous peak current buffer _ hpeak _ hheld _
    cases hpeak
    unfold watchChain
    refine (ensures_alive (by rw [scratch_one]; omega)).bind fun _ _ => ?_
    exact (Observed.ensures_perform _).bind fun _ _ => Observed.ensures_pure trivial
  | cons planned rest ih =>
    intro step previous peak current buffer hlast hpeak hprevious hheld hlength
    have hlast := hlast (List.cons_ne_nil _ _)
    have hnext := peakTransformScratchBytes_cons hpeak
    have hfinal := le_peakTransformScratchBytes hnext
    have hempty := isEmpty_iff_last hlast
    rw [if_congr hempty rfl rfl] at hnext hfinal
    obtain ⟨hpeakLe, hliveLe⟩ := Nat.max_le.mp hfinal
    unfold watchChain
    refine (ensures_alive (by rw [scratch_one]; omega)).bind fun _ _ => ?_
    refine (Observed.ensures_perform _).bind fun _ _ => ?_
    generalize hlive : previous + (if step = last then 0 else planned.outputSize) +
      planned.scratchBytes = live at hnext hliveLe
    have hstep : Observed.Ensures (Within last live) _ (watchPrepare engine ⟨planned.transform, shape,
        current.bytes, planned.outputSize, planned.scratchBytes⟩ cancellation step buffer) :=
      ensures_watchPrepare hlength (by dsimp only; omega)
    have hmono : ∀ event, Within last live event → Within last final event := by
      intro event hevent
      cases event with
      | moment moment => exact Nat.le_trans hevent hliveLe
      | chose strategy => trivial
    refine (hstep.mono hmono).bind fun left hleft => ?_
    refine (ensures_alive ?_).bind fun _ _ => ?_
    · by_cases hreused : left.1 = .reused
      · rw [if_pos hreused, scratch_one]
        omega
      · have hadjacent := hleft.adjacent hreused
        rw [if_neg hreused, scratch_two]
        omega
    · refine ih (fun hne => ?_) hnext hleft.planned (hleft.held.trans (Nat.le_max_right _ _))
        (hleft.length current rfl)
      rw [List.length_cons] at hlast
      omega

end Chain

/-! ## Chains that allocate at every step -/

/-- No step of the run reused its source. -/
def Allocating (events : List ChainEvent) : Prop :=
  ∀ strategy, .chose strategy ∈ events → strategy ≠ .reuseSource

section Allocating
variable {engine : PreparationEngine} {shape : List Nat} {cancellation : CancellationToken}
  {last final : Nat}

theorem Allocating.left {first second : List ChainEvent} (h : Allocating (first ++ second)) :
    Allocating first := fun strategy hs => h strategy (List.mem_append_left _ hs)

theorem Allocating.right {first second : List ChainEvent} (h : Allocating (first ++ second)) :
    Allocating second := fun strategy hs => h strategy (List.mem_append_right _ hs)

/-- A step that allocated had its source, its output and its workspace at once. -/
theorem returns_watchPrepare (request : PrepareRequest) (step : Nat) (current : HostBuffer) :
    (watchPrepare engine request cancellation step current).Returns fun left events =>
      Allocating events → left.2 = ⟨some step, request.expectedOutputBytes⟩ ∧
        .moment ⟨[current, ⟨some step, request.expectedOutputBytes⟩],
          request.expectedScratchBytes⟩ ∈ events := by
  unfold watchPrepare alive
  refine .bind (Observed.returns_observe (.bind (Observed.returns_perform fun _ _ => ?_)))
  refine .bind (Observed.returns_perform fun provider _ => ?_)
  refine .bind (Observed.returns_perform fun strategy _ => ?_)
  refine .bind (Observed.returns_observe (.bind (Observed.returns_perform fun _ _ => ?_)))
  cases strategy with
  | reuseSource =>
    refine .bind (Observed.returns_perform fun _ _ => ?_)
    refine .bind (Observed.returns_perform fun _ _ => Observed.returns_pure ?_)
    intro hallocating
    exact absurd rfl (hallocating .reuseSource (by simp))
  | allocate outputBytes scratchBytes =>
    refine .bind (Observed.returns_perform fun lengths hstorage => ?_)
    obtain rfl := validateAllocatedStorage_ok hstorage
    refine .bind (Observed.returns_perform fun _ _ => ?_)
    refine .bind (Observed.returns_observe (.bind (Observed.returns_observe ?_)))
    refine .bind (Observed.returns_perform fun output _ => .bind (Observed.returns_observe ?_))
    refine .bind (Observed.returns_perform fun _ _ => ?_)
    refine .bind (Observed.returns_perform fun _ _ => Observed.returns_pure ?_)
    intro _
    exact ⟨rfl, by simp⟩

/-- From a buffer that the fold counts exactly, its result is reached by a moment
of the chain or was reached before. -/
theorem returns_watchChain (transforms : List PlannedTransform) :
    ∀ {step previous peak : Nat} {current : ByteView} {buffer : HostBuffer},
      (transforms ≠ [] → step + transforms.length = last + 1) →
      peakTransformScratchBytes previous peak transforms = .ok final →
      (transforms ≠ [] → buffer.intermediate last = previous) →
      (watchChain engine shape cancellation transforms step current buffer).Returns fun _ events =>
        Allocating events → final = peak ∨
          ∃ moment, .moment moment ∈ events ∧ moment.scratch last = final := by
  induction transforms with
  | nil =>
    intro step previous peak current buffer _ hpeak _ _ _ _
    cases hpeak
    exact .inl rfl
  | cons planned rest ih =>
    intro step previous peak current buffer hlast hpeak hprevious
    have hlast := hlast (List.cons_ne_nil _ _)
    have hprevious := hprevious (List.cons_ne_nil _ _)
    have hnext := peakTransformScratchBytes_cons hpeak
    have hempty := isEmpty_iff_last hlast
    unfold watchChain alive
    refine .bind (Observed.returns_observe (.bind (Observed.returns_perform fun _ _ => ?_)))
    refine .bind ((returns_watchPrepare _ step buffer).mono fun left events hleft => ?_)
    refine .bind (Observed.returns_observe ?_)
    intro view hview hallocating
    obtain ⟨hmade, hmoment⟩ := hleft hallocating.right.right.left
    have hrest := hallocating.right.right.right.right
    have hcounted : left.2.intermediate last = if step = last then 0 else planned.outputSize := by
      rw [hmade, intermediate_made]
    -- the moment in which the step had its workspace
    have hscratch : Moment.scratch last ⟨[buffer, ⟨some step, planned.outputSize⟩],
        planned.scratchBytes⟩ = previous + (if rest.isEmpty then 0 else planned.outputSize) +
          planned.scratchBytes := by
      rw [scratch_two, intermediate_made, hprevious, if_congr hempty rfl rfl]
    have hexact : rest ≠ [] → left.2.intermediate last = planned.outputSize := by
      intro hne
      rw [hcounted, if_neg]
      intro heq
      exact hne (List.isEmpty_iff.mp (hempty.mpr heq))
    have hrestLast : rest ≠ [] → step + 1 + rest.length = last + 1 := by
      intro _
      rw [List.length_cons] at hlast
      omega
    rcases ih hrestLast hnext hexact view hview hrest with hfinal | ⟨moment, hmem, hfinal⟩
    · rcases Nat.le_total (previous + (if rest.isEmpty then 0 else planned.outputSize) +
        planned.scratchBytes) peak with hle | hle
      · rw [Nat.max_eq_left hle] at hfinal
        exact .inl hfinal
      · rw [Nat.max_eq_right hle] at hfinal
        refine .inr ⟨_, ?_, hscratch.trans hfinal.symm⟩
        exact List.mem_append_right _ (List.mem_append_right _ (List.mem_append_left _ hmoment))
    · exact .inr ⟨moment, List.mem_append_right _ (List.mem_append_right _
        (List.mem_append_right _ (List.mem_append_right _ hmem))), hfinal⟩

end Allocating

/-! ## The whole chain -/

/-- **The scratch estimate is the peak.** The watched chain returns what the chain
returns; whatever its providers choose and wherever it fails, at every moment the
live intermediates and the workspace hold at most the folded bytes; and a chain
that returns after allocating at every step holds as many at some moment. -/
theorem watch_peak (engine : PreparationEngine) (shape : List Nat)
    (cancellation : CancellationToken) (transforms : List PlannedTransform) (source : ByteView)
    {peak : Nat} (hpeak : peakTransformScratchBytes 0 0 transforms = .ok peak) :
    (watch engine shape cancellation transforms source).result =
        Materializer.prepareChain engine shape cancellation transforms source ∧
      (∀ moment, .moment moment ∈ (watch engine shape cancellation transforms source).events →
        moment.scratch (transforms.length - 1) ≤ peak) ∧
      ((∃ view, Materializer.prepareChain engine shape cancellation transforms source = .ok view) →
        Allocating (watch engine shape cancellation transforms source).events →
        ∃ moment, .moment moment ∈ (watch engine shape cancellation transforms source).events ∧
          moment.scratch (transforms.length - 1) = peak) := by
  have hlast : transforms ≠ [] → 0 + transforms.length = transforms.length - 1 + 1 := by
    intro hne
    have := List.length_pos_iff.mpr hne
    omega
  have hsource : HostBuffer.intermediate (transforms.length - 1) ⟨none, source.bytes.length⟩ = 0 :=
    rfl
  have hresult : (watch engine shape cancellation transforms source).result =
      Materializer.prepareChain engine shape cancellation transforms source :=
    result_watchChain transforms 0 source _
  have hbound : Observed.Ensures (Within (transforms.length - 1) peak) _
      (watch engine shape cancellation transforms source) :=
    ensures_watchChain transforms hlast hpeak hsource.le hsource.le
      (hsource.le.trans (Nat.zero_le source.bytes.length))
  refine ⟨hresult, fun moment hmem => hbound.events _ hmem, ?_⟩
  rintro ⟨view, hview⟩ hallocating
  have hreached := returns_watchChain transforms hlast hpeak (fun _ => hsource) view
    (hresult.trans hview) hallocating
  rcases hreached with rfl | hreached
  · exact ⟨_, alive_mem_watchChain transforms 0 source _, hsource⟩
  · exact hreached

namespace ZeroChain

/-- A provider that allocates what the plan records. -/
def zeros : PreparationProvider where
  validate request _ := .ok (.allocate request.expectedOutputBytes request.expectedScratchBytes)
  prepareAllocated _ outputLen _ _ := .ok (List.replicate outputLen 0)

def engine : PreparationEngine := ⟨fun _ => some zeros⟩

def planned (outputSize scratchBytes : Nat) : PlannedTransform :=
  ⟨⟨⟨⟨"example"⟩, ⟨"zeros"⟩, 1⟩, .contiguous .u8, .contiguous .u8⟩, outputSize, scratchBytes⟩

/-- Two intermediates, and a workspace in the step between them. -/
def transforms : List PlannedTransform := [planned 8 0, planned 6 5, planned 4 0]

end ZeroChain

theorem watch_peak_three :
    (watch ZeroChain.engine [4] ⟨false⟩ ZeroChain.transforms ⟨[1, 2], false⟩).result =
        .ok ⟨[0, 0, 0, 0], false⟩ ∧
      ∃ moment, .moment moment ∈
          (watch ZeroChain.engine [4] ⟨false⟩ ZeroChain.transforms ⟨[1, 2], false⟩).events ∧
        moment.scratch 2 = 8 + 6 + 5 := by
  have hpeak : peakTransformScratchBytes 0 0 ZeroChain.transforms = .ok 19 := rfl
  obtain ⟨hresult, _, hreached⟩ := watch_peak ZeroChain.engine [4] ⟨false⟩ ZeroChain.transforms
    ⟨[1, 2], false⟩ hpeak
  have hchose : ∀ event ∈ (watch ZeroChain.engine [4] ⟨false⟩ ZeroChain.transforms
      ⟨[1, 2], false⟩).events, event ≠ .chose .reuseSource := by decide
  refine ⟨hresult.trans rfl, hreached ⟨_, rfl⟩ fun strategy hs hreuse => ?_⟩
  subst hreuse
  exact hchose _ hs rfl

end ModelWeights.Prepared
