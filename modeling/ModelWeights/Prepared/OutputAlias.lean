import ModelWeights.Prepared.Address
import ModelWeights.Graph.Estimate
import ModelWeights.Lib.FunctionalGraph

/-! # Outputs that are inputs, at run time

`output_input_alias` walks backwards through reshapes and identity permutations.
The walk goes to earlier nodes only, so it ends, and in a graph without `Prepare`
nodes it finds an input exactly for the values that execute without a buffer of
their own: `Traced` says so of every live value and is kept by the node loop. -/
namespace ModelWeights.Prepared
open ModelWeights.Graph FunctionalGraph Relation

/-! ## The walk -/

/-- The value the loop of `output_input_alias` goes to next. -/
def aliasNext (g : OperationGraph) : ValueRef → Option ValueRef
  | .input _ => none
  | .nodeOutput node output => do
    let node ← g.nodes[node]?
    let input ← g.nodeOutputAliasInput node output
    node.inputs[input]?

/-- What the loop returns where it ends. -/
def aliasResult (g : OperationGraph) : ValueRef → Option Nat
  | .input input => if input < g.inputs.length then some input else none
  | .nodeOutput _ _ => none

def inputAlias (g : OperationGraph) (value : ValueRef) : Option Nat :=
  aliasedInput g g.nodes.length value

/-- The inputs of a node come from nodes before it. -/
theorem withinNodes_input {g : OperationGraph} {k i : Nat} {node : OperationNode} {value : ValueRef}
    (hk : g.nodes[k]? = some node) (hv : node.inputs[i]? = some value) : WithinNodes k value := by
  obtain ⟨facts, hfacts, _⟩ := g.inferred k node hk
  have hwithin := withinNodes_of_mapM hfacts value (List.mem_of_getElem? hv)
  cases value with
  | input i => trivial
  | nodeOutput m o =>
    have hm : m < (g.nodes.take k).length := hwithin
    rw [List.length_take] at hm
    show m < k
    omega

theorem aliasNext_output {g : OperationGraph} {k j : Nat} {value : ValueRef}
    (h : aliasNext g (.nodeOutput k j) = some value) :
    ∃ node, g.nodes[k]? = some node ∧ WithinNodes k value := by
  obtain ⟨node, hk, h⟩ := Option.bind_eq_some_iff.mp h
  obtain ⟨input, _, hv⟩ := Option.bind_eq_some_iff.mp h
  exact ⟨node, hk, withinNodes_input hk hv⟩

theorem inputAlias_next {g : OperationGraph} {v w : ValueRef} (h : aliasNext g v = some w) :
    inputAlias g v = inputAlias g w := by
  cases v with
  | input i => cases h
  | nodeOutput k j =>
    obtain ⟨node, hk, hwithin⟩ := aliasNext_output h
    obtain ⟨hlt, _⟩ := List.getElem?_eq_some_iff.mp hk
    obtain ⟨fuel, hfuel⟩ : ∃ fuel, g.nodes.length = fuel + 1 := ⟨g.nodes.length - 1, by omega⟩
    have hw : WithinNodes fuel w := by
      cases w with
      | input i => trivial
      | nodeOutput m o =>
        have hm : m < k := hwithin
        show m < fuel
        omega
    obtain ⟨node', hk', h⟩ := Option.bind_eq_some_iff.mp h
    obtain ⟨input, hinput, hv⟩ := Option.bind_eq_some_iff.mp h
    unfold inputAlias
    rw [hfuel, aliasedInput_fuel g hw, aliasedInput, hk']
    simp only [Option.bind_eq_bind, Option.bind_some, hinput, hv]

theorem inputAlias_last {g : OperationGraph} {v : ValueRef} (h : aliasNext g v = none) :
    inputAlias g v = aliasResult g v := by
  unfold inputAlias
  cases v with
  | input i =>
    unfold aliasedInput
    rfl
  | nodeOutput k j =>
    cases g.nodes.length with
    | zero => rfl
    | succ fuel =>
      rw [aliasedInput]
      dsimp only [aliasNext] at h
      cases hk : g.nodes[k]? with
      | none => rfl
      | some node =>
        rw [hk] at h
        simp only [Option.bind_eq_bind, Option.bind_some] at h ⊢
        cases hi : g.nodeOutputAliasInput node j with
        | none => rfl
        | some i =>
          rw [hi, Option.bind_some] at h
          simp only [Option.bind_some, h, Option.bind_none]
          rfl

/-- The walk from any value ends, and `inputAlias` is what it returns there. -/
theorem walk_ends (g : OperationGraph) : ∀ (k : Nat) (v : ValueRef), WithinNodes k v →
    ∃ last, EndsAt (aliasNext g) v last ∧ inputAlias g v = aliasResult g last := by
  intro k
  induction k with
  | zero =>
    intro v hv
    cases v with
    | input i => exact ⟨.input i, ⟨.refl, rfl⟩, inputAlias_last rfl⟩
    | nodeOutput n j => exact absurd hv (Nat.not_lt_zero n)
  | succ k ih =>
    intro v hv
    cases hnext : aliasNext g v with
    | none => exact ⟨v, ⟨.refl, hnext⟩, inputAlias_last hnext⟩
    | some w =>
      have hw : WithinNodes k w := by
        cases v with
        | input i => cases hnext
        | nodeOutput n j =>
          obtain ⟨_, _, hwithin⟩ := aliasNext_output hnext
          have hn : n < k + 1 := hv
          cases w with
          | input i => trivial
          | nodeOutput m o =>
            have hm : m < n := hwithin
            show m < k
            omega
      obtain ⟨last, ⟨hwalk, hend⟩, hresult⟩ := ih w hw
      exact ⟨last, ⟨.head hnext hwalk, hend⟩, (inputAlias_next hnext).trans hresult⟩

theorem output_within (g : OperationGraph) : WithinNodes g.nodes.length g.output := by
  obtain ⟨f, hf⟩ := Option.isSome_iff_exists.mp g.outputAvailable
  exact withinNodes_of_facts hf

/-! ## Live values -/

/-- A live value without an allocation is the input the walk finds; for one with an
allocation the walk finds none. -/
def Traced (g : OperationGraph) (inputs : List ByteView) (st : HostState) : Prop :=
  ∀ v rv, st.runtime v = some rv →
    match rv.allocation with
    | none => ∃ i, inputAlias g v = some i ∧ inputs[i]? = some rv.bytes
    | some _ => inputAlias g v = none

section Loop
variable {g : OperationGraph} {host : Host} {inputs : List ByteView}
  {cancellation : CancellationToken} {st st' : HostState} {node : OperationNode} {k : Nat}

/-- Dropping values keeps the rest traced. -/
theorem Traced.shrink (h : Traced g inputs st)
    (hsub : ∀ w rv, st'.runtime w = some rv → st.runtime w = some rv) : Traced g inputs st' :=
  fun v rv hv => h v rv (hsub v rv hv)

theorem Traced.insertOutput {j : Nat} {p : ProducedValue} {f : TensorFacts}
    (h : Traced g inputs st) (hk : g.nodes[k]? = some node)
    (hstructural : node.operation.isStructural = true)
    (ho : OriginMatches g host cancellation st.view node j p)
    (hs : insertOutput k node.inputs st j p f = .ok st') : Traced g inputs st' := by
  obtain ⟨⟨allocation, schedule⟩, hal, hs⟩ := bind_ok hs
  obtain ⟨s', _, hs⟩ := bind_ok hs
  obtain rfl := Except.ok.inj hs
  intro v rv hv
  dsimp only at hv
  by_cases hvj : v = .nodeOutput k j
  · subst hvj
    rw [Function.update_self] at hv
    obtain rfl := Option.some.inj hv
    unfold OriginMatches at ho
    unfold outputAllocation at hal
    split at ho
    · next i hi =>
      obtain ⟨rfl, rfl, horigin, w, hin, hview⟩ := ho
      obtain ⟨rw', hrw, hbytes⟩ := Option.map_eq_some_iff.mp hview
      rw [horigin, hin] at hal
      obtain ⟨source, hsource, hal⟩ := bind_ok hal
      obtain rfl : rw' = source := Option.some.inj (hrw.symm.trans (orFault_eq_ok.mp hsource))
      obtain ⟨rfl, _⟩ := Prod.mk.inj (Except.ok.inj hal)
      have hnext : aliasNext g (.nodeOutput k 0) = some w := by
        simp [aliasNext, hk, hi, hin]
      have hw := h w rw' hrw
      rw [inputAlias_next hnext, ← hbytes]
      exact hw
    · next hi =>
      rcases ho with horigin | ⟨_, _, transform, _, _, hop, _⟩
      · rw [horigin] at hal
        obtain ⟨⟨a, s⟩, _, hal⟩ := bind_ok hal
        obtain ⟨rfl, _⟩ := Prod.mk.inj (Except.ok.inj hal)
        have hnext : aliasNext g (.nodeOutput k j) = none := by
          simp [aliasNext, hk, hi]
        exact inputAlias_last hnext
      · rw [hop] at hstructural
        cases hstructural
  · rw [Function.update_of_ne hvj] at hv
    exact h v rv hv

theorem Traced.insertOutputs (hk : g.nodes[k]? = some node)
    (hstructural : node.operation.isStructural = true) :
    ∀ {pairs : List (ProducedValue × TensorFacts)} {st st' : HostState} {j : Nat},
      Traced g inputs st →
      (∀ i p f, pairs[i]? = some (p, f) →
        OriginMatches g host cancellation st.view node (j + i) p) →
      insertOutputs k node.inputs st j pairs = .ok st' → Traced g inputs st'
  | [], st, st', j, h, _, hs => by
    obtain rfl := Except.ok.inj hs
    exact h
  | (p, f) :: rest, st, st', j, h, hall, hs => by
    obtain ⟨st₁, hs₁, hs⟩ := bind_ok hs
    have h₁ := h.insertOutput hk hstructural (hall 0 p f rfl) hs₁
    refine Traced.insertOutputs (j := j + 1) hk hstructural h₁ (fun i q f' hq => ?_) hs
    have hoq := hall (i + 1) q f' (by simpa using hq)
    rw [show j + (i + 1) = j + 1 + i by omega] at hoq
    exact OriginMatches.later (by omega) hoq

theorem consumeRuntimeInputs_subset : ∀ {values : List ValueRef} {st st' : HostState},
    consumeRuntimeInputs st values = .ok st' →
      ∀ w rv, st'.runtime w = some rv → st.runtime w = some rv
  | [], st, st', hs => by
    obtain rfl := Except.ok.inj hs
    exact fun _ _ hw => hw
  | v :: values, st, st', hs => by
    rw [consumeRuntimeInputs, List.foldlM_cons] at hs
    obtain ⟨st₁, hs₁, hs⟩ := bind_ok hs
    exact fun w rv hw =>
      (consumeRuntimeInput_schedule hs₁).2 w rv (consumeRuntimeInputs_subset hs w rv hw)

theorem removeUnusedRuntime_subset : ∀ {values : List ValueRef} {st st' : HostState},
    removeUnusedRuntime st values = .ok st' →
      ∀ w rv, st'.runtime w = some rv → st.runtime w = some rv
  | [], st, st', hs => by
    obtain rfl := Except.ok.inj hs
    exact fun _ _ hw => hw
  | v :: values, st, st', hs => by
    rw [removeUnusedRuntime, List.foldlM_cons] at hs
    obtain ⟨st₁, hs₁, hs⟩ := bind_ok hs
    intro w rv hw
    have hw := removeUnusedRuntime_subset hs w rv hw
    unfold removeUnusedOutput at hs₁
    split at hs₁
    · obtain ⟨s, _, hs₁⟩ := bind_ok hs₁
      obtain ⟨_, _, hs₁⟩ := bind_ok hs₁
      obtain rfl := Except.ok.inj hs₁
      by_cases hwv : w = v
      · subst hwv
        simp at hw
      · simpa [Function.update_of_ne hwv] using hw
    · obtain rfl := Except.ok.inj hs₁
      exact hw

/-- One node keeps every live value traced. -/
theorem Traced.executeNode (h : Traced g inputs st) (hk : g.nodes[k]? = some node)
    (hstructural : node.operation.isStructural = true)
    (hs : executeHostNode g host cancellation k node st = .ok st') : Traced g inputs st' := by
  obtain ⟨ex, hex, hs⟩ := bind_ok hs
  obtain ⟨st₁, hs₁, hs⟩ := bind_ok hs
  obtain ⟨s₂, _, hs⟩ := bind_ok hs
  obtain ⟨st₃, hs₃, hs⟩ := bind_ok hs
  have hcharge := runNode_charged hk hex
  have horigin : ∀ i p f, (ex.outputs.zip node.outputs)[i]? = some (p, f) →
      OriginMatches g host cancellation st.view node (0 + i) p := by
    intro i p f hp
    obtain ⟨hpi, _⟩ := List.getElem?_zip_eq_some.mp hp
    rw [Nat.zero_add]
    exact hcharge.origin i p hpi
  have h₁ : Traced g inputs st₁ := h.insertOutputs hk hstructural horigin hs₁
  have h₂ : Traced g inputs ⟨s₂, st₁.runtime⟩ := h₁
  have h₃ : Traced g inputs st₃ := h₂.shrink (consumeRuntimeInputs_subset hs₃)
  exact h₃.shrink (removeUnusedRuntime_subset hs)

theorem Traced.executeNodes : ∀ {nodes : List OperationNode} {k : Nat} {st st' : HostState},
    g.nodes.drop k = nodes → (∀ node ∈ nodes, node.operation.isStructural = true) →
    Traced g inputs st → executeHostNodes g host cancellation k nodes st = .ok st' →
      Traced g inputs st'
  | [], k, st, st', _, _, h, hs => by
    obtain rfl := Except.ok.inj hs
    exact h
  | node :: rest, k, st, st', hd, hall, h, hs => by
    have hk : g.nodes[k]? = some node := by
      have := congrArg (fun l => l[0]?) hd
      simpa using this
    have hrest : g.nodes.drop (k + 1) = rest := by
      rw [← List.drop_drop, hd]; rfl
    obtain ⟨st₁, hs₁, hs⟩ := bind_ok hs
    exact Traced.executeNodes hrest (fun n hn => hall n (List.mem_cons_of_mem _ hn))
      (h.executeNode hk (hall node (List.mem_cons_self ..)) hs₁) hs

theorem traced_start (hs : initialHostState g inputs cancellation = .ok st) :
    Traced g inputs st := by
  obtain ⟨_, _, hs⟩ := bind_ok hs
  obtain ⟨_, hcount, hs⟩ := bind_ok hs
  obtain ⟨_, _, hs⟩ := bind_ok hs
  obtain ⟨_, _, hs⟩ := bind_ok hs
  obtain rfl := Except.ok.inj hs
  have hlen : inputs.length = g.inputs.length := by
    simpa using (unless_error_ok (lift_eq_ok.mp hcount)).1
  intro v rv hv
  obtain ⟨view, hview, rfl⟩ := Option.map_eq_some_iff.mp hv
  cases v with
  | input i =>
    have hi := (List.getElem?_eq_some_iff.mp hview).1
    refine ⟨i, ?_, hview⟩
    rw [inputAlias_last rfl]
    exact if_pos (by omega)
  | nodeOutput n j => cases hview

end Loop

/-- **The alias of the output.** The walk ends for every graph. Without `Prepare`
nodes it finds an input if and only if the executed output has no allocation of its
own, and the output is then the view of that input. -/
theorem outputInputAlias_spec (g : OperationGraph) :
    (∃ last, EndsAt (aliasNext g) g.output last ∧ outputInputAlias g = aliasResult g last) ∧
    ∀ host inputs cancellation r, (∀ node ∈ g.nodes, node.operation.isStructural = true) →
      g.executeHost host inputs cancellation = .ok r →
      ∃ st rv, g.stateAfter host inputs cancellation g.nodes.length = .ok st ∧
        st.runtime g.output = some rv ∧ r.output = rv.bytes ∧
        ((∃ i, outputInputAlias g = some i) ↔ rv.allocation = none) ∧
        ∀ i, outputInputAlias g = some i → inputs[i]? = some r.output := by
  refine ⟨walk_ends g _ _ (output_within g), ?_⟩
  intro host inputs cancellation r hstructural h
  obtain ⟨st₀, hs₀, h⟩ := bind_ok h
  obtain ⟨st, hs, h⟩ := bind_ok h
  obtain ⟨_, _, h⟩ := bind_ok h
  obtain ⟨rv, hrv, h⟩ := bind_ok h
  obtain ⟨_, _, h⟩ := bind_ok h
  obtain rfl := Except.ok.inj h
  have hrv := orFault_eq_ok.mp hrv
  have htraced := (traced_start hs₀).executeNodes (by simp) hstructural hs g.output rv hrv
  have hafter : g.stateAfter host inputs cancellation g.nodes.length = .ok st := by
    unfold OperationGraph.stateAfter
    rw [hs₀, List.take_length]
    exact hs
  refine ⟨st, rv, hafter, hrv, rfl, ?_⟩
  show ((∃ i, inputAlias g g.output = some i) ↔ _) ∧
    ∀ i, inputAlias g g.output = some i → _
  cases hal : rv.allocation with
  | none =>
    rw [hal] at htraced
    obtain ⟨i, hi, hview⟩ := htraced
    refine ⟨⟨fun _ => rfl, fun _ => ⟨i, hi⟩⟩, fun j hj => ?_⟩
    obtain rfl := Option.some.inj (hi.symm.trans hj)
    exact hview
  | some a =>
    rw [hal] at htraced
    replace htraced : inputAlias g g.output = none := htraced
    rw [htraced]
    refine ⟨⟨fun ⟨i, hi⟩ => (nomatch hi), fun hnone => (nomatch hnone)⟩, fun i hi => nomatch hi⟩

/-- The bytes of a 2 by 3 matrix, read as one row. -/
def flattenWire : OperationGraphWire where
  schemaVersion := 1
  inputs := [⟨⟨"x"⟩, matrixFacts⟩]
  nodes := [⟨⟨⟨"model-weights"⟩, ⟨"reshape"⟩, 1⟩, [.input 0], .reshape [6]⟩]
  output := .nodeOutput 0 0

def flattenGraph : OperationGraph := (OperationGraph.tryFrom flattenWire).toOption.get rfl

theorem outputInputAlias_spec_flatten : ∃ st rv,
    flattenGraph.stateAfter bareHost transposeInputs ⟨false⟩ 1 = .ok st ∧
      st.runtime flattenGraph.output = some rv ∧ rv.allocation = none ∧
      transposeInputs[0]? = some rv.bytes := by
  have hrun : flattenGraph.executeHost bareHost transposeInputs ⟨false⟩ =
    .ok ⟨⟨[1, 2, 3, 4, 5, 6], false⟩, 0⟩ := rfl
  obtain ⟨st, rv, hafter, hrv, hbytes, hiff, hview⟩ :=
    (outputInputAlias_spec flattenGraph).2 bareHost transposeInputs ⟨false⟩ _ (by decide) hrun
  have halias : outputInputAlias flattenGraph = some 0 := rfl
  exact ⟨st, rv, hafter, hrv, hiff.mp ⟨0, halias⟩, hbytes ▸ hview 0 halias⟩

end ModelWeights.Prepared
