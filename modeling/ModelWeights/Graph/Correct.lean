import ModelWeights.Graph.Refinement
import Mathlib.Data.List.Dedup

/-! # Host execution

The loop of `execute_host` between its first and its last step: the schedule
starts with the uses of the whole graph, and ends with the graph output live and
accounted for. Then the two results about whole executions: the schedule changes
nothing and counts exactly, and the output is the meaning of the graph. -/
namespace ModelWeights.Graph
open RefCount

section Start
variable {graph : OperationGraph} {inputs : List ByteView} {cancellation : CancellationToken}

theorem incrementCount_spec (limit : LivenessLimit) (counts : ValueRef → Option Nat)
    (value : ValueRef) : OnlyLimit (incrementCount limit counts value) fun counts' =>
      ∀ v, (counts' v).getD 0 = (counts v).getD 0 + [value].count v := by
  refine (onlyLimit_orLimit (P := fun n => n = (counts value).getD 0 + 1) ?_).bind ?_
  · intro n hn; exact (checkedAdd_eq_some.mp hn).2
  rintro _ rfl
  intro v
  by_cases hv : v = value
  · subst hv; simp
  · rw [Function.update_of_ne hv, List.count_singleton, if_neg (by simpa using fun h => hv h.symm)]
    rfl

theorem incrementCounts_spec (limit : LivenessLimit) : ∀ (values : List ValueRef)
    (counts : ValueRef → Option Nat),
      OnlyLimit (values.foldlM (incrementCount limit) counts) fun counts' =>
        ∀ v, (counts' v).getD 0 = (counts v).getD 0 + values.count v
  | [], counts => fun v => rfl
  | value :: values, counts => by
    rw [List.foldlM_cons]
    refine (incrementCount_spec limit counts value).bind fun counts₁ h₁ => ?_
    refine (incrementCounts_spec limit values counts₁).mono fun counts' h v => ?_
    rw [h v, h₁ v, Nat.add_assoc, ← List.count_append]
    rfl

theorem nodup_valuesUpTo_zero : (graph.valuesUpTo 0).Nodup := by
  simp only [OperationGraph.valuesUpTo, List.range_zero, List.flatMap_nil, List.append_nil]
  refine (List.nodup_map_iff_inj_on List.nodup_range).mpr ?_
  intro x _ y _ h
  simpa using h

theorem mem_valuesUpTo_zero {v : ValueRef} :
    v ∈ graph.valuesUpTo 0 ↔ ∃ i < graph.inputs.length, v = .input i := by
  simp only [OperationGraph.valuesUpTo, List.range_zero, List.flatMap_nil, List.append_nil,
    List.mem_map, List.mem_range]
  exact exists_congr fun i => and_congr_right fun _ => eq_comm

/-- A new schedule is accounted and has recorded every use of the graph. -/
theorem new_spec (graph : OperationGraph) : OnlyLimit (LivenessSchedule.new graph) fun s =>
    Accounted (graph.valuesUpTo 0) s ∧ (∀ v, s.uses v = graph.futureUses 0 v) ∧
      (∀ i, s.values (.input i) = if i < graph.inputs.length then some ⟨none⟩ else none) ∧
      (∀ n o, s.values (.nodeOutput n o) = none) ∧ (∀ a, s.allocations a = none) ∧
      s.liveBytes = 0 ∧ s.peakBytes = 0 := by
  refine (incrementCounts_spec .useCount _ _).bind fun uses h₁ => ?_
  refine (incrementCount_spec .outputUseCount uses graph.output).bind fun uses' h₂ => ?_
  refine ⟨⟨nodup_valuesUpTo_zero, ?_, ?_, ?_, fun _ _ => rfl, rfl, Nat.le_refl _⟩, ?_,
    fun _ => rfl, fun _ _ => rfl, fun _ => rfl, rfl, rfl⟩
  · intro v hv
    cases v with
    | input i =>
      dsimp only at hv
      split at hv
      · next hi => exact mem_valuesUpTo_zero.mpr ⟨i, hi, rfl⟩
      · cases hv
    | nodeOutput n o => cases hv
  · intro a
    refine List.countP_eq_zero.mpr fun v _ => ?_
    rw [LivenessSchedule.owner]
    cases v with
    | input i => dsimp only; split <;> simp
    | nodeOutput n o => simp
  · intro a st hst; cases hst
  · intro v
    show (uses' v).getD 0 = _
    rw [h₂ v, h₁ v, OperationGraph.futureUses, List.drop_zero, List.count_append]
    simp

/-- The state in which the loop starts. -/
theorem initialHostState_refines :
    Refines (fun st view => Related graph 0 st view ∧ view = inputViews inputs)
      (initialHostState graph inputs cancellation) (do
        lift cancellation.check
        lift (checkInputCount graph inputs)
        lift (validateInputs graph.inputs inputs)
        .ok (inputViews inputs)) := by
  refine (refines_lift _).bind fun _ _ _ => ?_
  refine (refines_lift _).bind ?_
  rintro _ _ ⟨-, hcount⟩
  have hlen : inputs.length = graph.inputs.length := by
    simpa using (unless_error_ok hcount).1
  refine (new_spec graph).refines ?_
  rintro s ⟨ha, hu, hin, hout, halloc, _, _⟩
  refine (refines_lift _).bind fun _ _ _ => ?_
  refine ⟨_, rfl, ⟨⟨ha, ?_, ?_, ?_⟩, ?_, hu⟩, rfl⟩
  · intro v
    cases v with
    | input i =>
      dsimp only
      rw [hin i]
      split
      · next hi => simp [inputViews, List.getElem?_eq_getElem (show i < inputs.length by omega)]
      · next hi => simp [inputViews, List.getElem?_eq_none (show inputs.length ≤ i by omega)]
    | nodeOutput n o =>
      dsimp only
      rw [hout n o]
      rfl
  · intro v rv a hrv hal
    obtain ⟨_, _, rfl⟩ := Option.map_eq_some_iff.mp hrv
    cases hal
  · intro v hv _
    obtain ⟨i, hi, rfl⟩ := mem_valuesUpTo_zero.mp hv
    simp [inputViews, show i < inputs.length by omega]
  · intro v rv hrv
    obtain ⟨view, hview, rfl⟩ := Option.map_eq_some_iff.mp hrv
    exact hview

end Start

/-! ## What the counter counts -/

def OperationGraph.values (graph : OperationGraph) : List ValueRef :=
  graph.valuesUpTo graph.nodes.length

/-- The allocation of a live value, with the length of its bytes. -/
def HostState.allocationOf (st : HostState) (value : ValueRef) : Option (Nat × Nat) :=
  (st.runtime value).bind fun rv => rv.allocation.map fun a => (a, rv.bytes.bytes.length)

/-- The distinct allocations that live values refer to. -/
def HostState.liveAllocations (st : HostState) (values : List ValueRef) : List (Nat × Nat) :=
  (values.filterMap st.allocationOf).dedup

theorem valuesUpTo_mono {graph : OperationGraph} {k m : Nat} (hkm : k ≤ m) {v : ValueRef}
    (hv : v ∈ graph.valuesUpTo k) : v ∈ graph.valuesUpTo m := by
  rw [OperationGraph.valuesUpTo, List.mem_append] at hv ⊢
  refine hv.imp_right fun hv => ?_
  obtain ⟨n, hn, hv⟩ := List.mem_flatMap.mp hv
  exact List.mem_flatMap.mpr ⟨n, List.mem_range.mpr (by have := List.mem_range.mp hn; omega), hv⟩

section Live
variable {vals : List ValueRef} {st : HostState}

theorem allocationOf_eq_some {v : ValueRef} {a b : Nat} : st.allocationOf v = some (a, b) ↔
    ∃ rv, st.runtime v = some rv ∧ rv.allocation = some a ∧ rv.bytes.bytes.length = b := by
  simp only [HostState.allocationOf, Option.bind_eq_some_iff, Option.map_eq_some_iff,
    Prod.mk.injEq]
  constructor
  · rintro ⟨rv, hrv, _, ha, rfl, hb⟩
    exact ⟨rv, hrv, ha, hb⟩
  · rintro ⟨rv, hrv, ha, hb⟩
    exact ⟨rv, hrv, a, ha, rfl, hb⟩

theorem Tracked.mem_liveAllocations (h : Tracked vals st) {all : List ValueRef}
    (hall : ∀ v ∈ vals, v ∈ all) (a b : Nat) : (a, b) ∈ st.liveAllocations all ↔
      a < st.schedule.nextAllocation ∧
        (st.schedule.allocations a).map LiveAllocation.bytes = some b := by
  rw [HostState.liveAllocations, List.mem_dedup, List.mem_filterMap]
  constructor
  · rintro ⟨v, _, hv⟩
    obtain ⟨rv, hrv, ha, rfl⟩ := allocationOf_eq_some.mp hv
    have hs := h.sized v rv a hrv ha
    obtain ⟨x, hx, _⟩ := Option.map_eq_some_iff.mp hs
    exact ⟨h.accounted.lt_next hx, hs⟩
  · rintro ⟨_, hb⟩
    obtain ⟨x, hx, _⟩ := Option.map_eq_some_iff.mp hb
    -- a recorded allocation has a live value, and that value is in the runtime map
    obtain ⟨v, hv, howner⟩ := h.accounted.owned hx
    obtain ⟨lv, hlv, _⟩ := Option.bind_eq_some_iff.mp howner
    obtain ⟨rv, hrv⟩ := Option.isSome_iff_exists.mp ((h.isSome_iff v).trans (by rw [hlv]; rfl))
    have ha : rv.allocation = some a := (h.owner_eq hrv).symm.trans howner
    refine ⟨v, hall v hv, allocationOf_eq_some.mpr ⟨rv, hrv, ha, ?_⟩⟩
    exact Option.some.inj ((h.sized v rv a hrv ha).symm.trans hb)

theorem Tracked.liveBytes_eq (h : Tracked vals st) {all : List ValueRef}
    (hall : ∀ v ∈ vals, v ∈ all) :
    st.schedule.liveBytes = ((st.liveAllocations all).map Prod.snd).sum := by
  have hsum := total_eq_sum (f := id) (List.nodup_dedup _) (h.mem_liveAllocations hall)
  rw [h.accounted.live]
  refine Eq.trans (total_congr ?_) hsum
  intro a _
  cases st.schedule.allocations a <;> rfl

end Live

/-! ## Whole executions -/

section Whole
variable {graph : OperationGraph} {host : Host} {inputs : List ByteView}
  {cancellation : CancellationToken}

theorem futureUses_end : graph.futureUses graph.nodes.length graph.output = 1 := by
  simp [OperationGraph.futureUses]

theorem output_mem_values : graph.output ∈ graph.values := by
  obtain ⟨f, hf⟩ := Option.isSome_iff_exists.mp graph.outputAvailable
  refine mem_valuesUpTo_of_facts (f := f) ?_
  rwa [List.take_length]

/-- After the loop the graph output is live, and its bytes are within the peak. -/
theorem finish_refines {st : HostState} {view : ValueRef → Option ByteView}
    (hr : Related graph graph.nodes.length st view) :
    Refines (fun (r : HostExecution) bv => r.output = bv)
      (do
        lift cancellation.check
        let output ← orFault (st.runtime graph.output) .outputNotLive
        let peakScratchBytes ← st.schedule.scratchExcludingOutput graph.output
        .ok ⟨output.bytes, peakScratchBytes⟩)
      (do
        lift cancellation.check
        orFault (view graph.output) .outputNotLive) := by
  obtain ⟨rv, hrv⟩ := Option.isSome_iff_exists.mp (hr.tracked.kept graph.output output_mem_values
    (by rw [hr.uses, futureUses_end]; exact Nat.one_pos))
  have hle := Nat.le_trans (hr.tracked.accounted.outputBytes_le graph.output)
    hr.tracked.accounted.peak
  refine (refines_lift _).bind fun _ _ _ => ?_
  rw [hrv, hr.agrees graph.output rv hrv, LivenessSchedule.scratchExcludingOutput, checkedSub,
    if_pos hle]
  exact ⟨_, rfl, rfl⟩

theorem executeHost_refines : Refines (fun (r : HostExecution) bv => r.output = bv)
    (graph.executeHost host inputs cancellation)
    (graph.executeRetaining host inputs cancellation) := by
  have hstart := (@initialHostState_refines graph inputs cancellation).bind
    (Q := fun (r : HostExecution) bv => r.output = bv) (f := fun st => do
      let st ← executeHostNodes graph host cancellation 0 graph.nodes st
      lift cancellation.check
      let output ← orFault (st.runtime graph.output) .outputNotLive
      let peakScratchBytes ← st.schedule.scratchExcludingOutput graph.output
      .ok ⟨output.bytes, peakScratchBytes⟩)
    (g := fun view => do
      let view ← retainNodes graph host cancellation 0 graph.nodes view
      lift cancellation.check
      orFault (view graph.output) .outputNotLive) fun st view hr => by
    refine (executeHostNodes_refines ⟨[], by simp⟩ hr.1).bind fun st' view' hr' => ?_
    rw [Nat.zero_add] at hr'
    exact finish_refines hr'
  simp only [bind_assoc] at hstart
  exact hstart

/-- The state of `execute_host` between nodes: after its first `k` nodes. -/
def OperationGraph.stateAfter (graph : OperationGraph) (host : Host) (inputs : List ByteView)
    (cancellation : CancellationToken) (k : Nat) : Exec HostState := do
  let st ← initialHostState graph inputs cancellation
  executeHostNodes graph host cancellation 0 (graph.nodes.take k) st

theorem Refines.ok {α β : Type} {P : α → β → Prop} {x : Exec α} {y : Exec β} {a : α}
    (h : Refines P x y) (hx : x = .ok a) : ∃ b, y = .ok b ∧ P a b := by
  subst hx; exact h

theorem stateAfter_tracked {k : Nat} {st : HostState}
    (h : graph.stateAfter host inputs cancellation k = .ok st) :
    ∃ m ≤ graph.nodes.length, Tracked (graph.valuesUpTo m) st := by
  obtain ⟨st₀, h₀, h⟩ := bind_ok h
  obtain ⟨view, _, hr, _⟩ := initialHostState_refines.ok h₀
  have hdrop : graph.nodes.drop 0 = graph.nodes.take k ++ graph.nodes.drop k := by simp
  obtain ⟨_, _, hr'⟩ := (executeHostNodes_refines ⟨_, hdrop⟩ hr).ok h
  refine ⟨_, ?_, hr'.tracked⟩
  rw [List.length_take]
  omega

/-- **Dropping buffers is unobservable.** The execution that drops buffers by the
schedule raises no integrity error of the schedule and agrees with the execution
that never drops a value, and between nodes the live-byte counter is the sum over
the distinct allocations of live values. -/
theorem executeHost_drops_unobserved (graph : OperationGraph) (host : Host)
    (inputs : List ByteView) (cancellation : CancellationToken) :
    (∀ fault, graph.executeHost host inputs cancellation ≠ .error (.fault fault)) ∧
    (∀ r, graph.executeHost host inputs cancellation = .ok r →
      graph.executeRetaining host inputs cancellation = .ok r.output) ∧
    (∀ e, graph.executeHost host inputs cancellation = .error (.failed e) →
      graph.executeRetaining host inputs cancellation = .error (.failed e)) ∧
    ∀ k st, graph.stateAfter host inputs cancellation k = .ok st →
      st.schedule.liveBytes = ((st.liveAllocations graph.values).map Prod.snd).sum := by
  have href := @executeHost_refines graph host inputs cancellation
  refine ⟨?_, ?_, ?_, ?_⟩
  · intro fault h
    rw [h] at href
    exact href
  · intro r h
    obtain ⟨_, hy, rfl⟩ := href.ok h
    exact hy
  · intro e h
    rw [h] at href
    exact href
  · intro k st h
    obtain ⟨m, hm, ht⟩ := stateAfter_tracked h
    exact ht.liveBytes_eq fun v => valuesUpTo_mono hm

/-- Bytes of a 2 by 3 matrix, transposed, flattened and cut. -/
def transposeWire : OperationGraphWire where
  schemaVersion := 1
  inputs := [⟨⟨"x"⟩, matrixFacts⟩]
  nodes :=
    [⟨⟨⟨"model-weights"⟩, ⟨"permute"⟩, 1⟩, [.input 0], .permute ⟨[1, 0], .logical⟩⟩,
     ⟨⟨⟨"model-weights"⟩, ⟨"reshape"⟩, 1⟩, [.nodeOutput 0 0], .reshape [6]⟩,
     ⟨⟨⟨"model-weights"⟩, ⟨"slice"⟩, 1⟩, [.nodeOutput 1 0], .slice [⟨1, 4⟩]⟩]
  output := .nodeOutput 2 0

def transposeGraph : OperationGraph := (OperationGraph.tryFrom transposeWire).toOption.get rfl

/-- A machine without providers and without AVX2. -/
def bareHost : Host := ⟨⟨fun _ => none⟩, false⟩

def transposeInputs : List ByteView := [⟨[1, 2, 3, 4, 5, 6], false⟩]

theorem executeHost_drops_unobserved_transpose : ∃ st,
    transposeGraph.executeRetaining bareHost transposeInputs ⟨false⟩ = .ok ⟨[4, 2, 5], false⟩ ∧
    transposeGraph.stateAfter bareHost transposeInputs ⟨false⟩ 2 = .ok st ∧
    st.schedule.liveBytes = 6 ∧
    st.schedule.liveBytes = ((st.liveAllocations transposeGraph.values).map Prod.snd).sum := by
  obtain ⟨_, hok, _, hlive⟩ :=
    executeHost_drops_unobserved transposeGraph bareHost transposeInputs ⟨false⟩
  have hrun : transposeGraph.executeHost bareHost transposeInputs ⟨false⟩ =
    .ok ⟨⟨[4, 2, 5], false⟩, 6⟩ := rfl
  exact ⟨_, hok _ hrun, rfl, rfl, hlive 2 _ rfl⟩

/-- **Host execution computes the meaning of the graph.** -/
theorem executeHost_denotes {graph : OperationGraph} {host : Host} {inputs : List ByteView}
    {cancellation : CancellationToken} {r : HostExecution}
    (h : graph.executeHost host inputs cancellation = .ok r) :
    ∃ f, graph.facts graph.output = some f ∧
      Holds f r.output.bytes (graph.denote host.preparation cancellation inputs graph.output) ∧
      (∀ i, graph.output = .input i → inputs[i]? = some r.output) ∧
      ∀ n o, graph.output = .nodeOutput n o →
        r.output.bytes = f.layout (graph.denote host.preparation cancellation inputs graph.output) := by
  obtain ⟨bv, hret, rfl⟩ := executeHost_refines.ok h
  obtain ⟨view, hrep, hout⟩ := executeRetaining_denotes hret
  obtain ⟨f, hf⟩ := Option.isSome_iff_exists.mp graph.outputAvailable
  refine ⟨f, hf, hrep.holds hout hf, ?_, ?_⟩
  · intro i hi
    rw [hi, hrep.given i] at hout
    exact hout
  · intro n o ho
    rw [ho] at hout hf ⊢
    exact (hrep.output n o _ f hout hf).layout

theorem executeHost_denotes_transpose : ∃ f,
    transposeGraph.facts transposeGraph.output = some f ∧
    [4, 2, 5] = f.layout (transposeGraph.denote bareHost.preparation ⟨false⟩ transposeInputs
      transposeGraph.output) := by
  have hrun : transposeGraph.executeHost bareHost transposeInputs ⟨false⟩ =
    .ok ⟨⟨[4, 2, 5], false⟩, 6⟩ := rfl
  obtain ⟨f, hf, _, _, hl⟩ := executeHost_denotes hrun
  exact ⟨f, hf, hl 2 0 rfl⟩

end Whole

end ModelWeights.Graph
