import ModelWeights.Graph.Counters
import ModelWeights.Graph.NodeProgress

/-! # Graphs that run

When the host execution of a graph of structural operations returns. The
accounting does not stop a run whose allocations succeed, and the kernels return
exactly when every node has `KernelFits`. -/
namespace ModelWeights.Graph
open Strided

/-! ## Allocations that succeed -/

/-- The bytes of the buffers that a node allocates. -/
def OperationGraph.chargedBytes (graph : OperationGraph) (node : OperationNode) : Nat :=
  match graph.nodeOutputAliasInput node 0 with
  | some _ => 0
  | none => (node.outputs.map TensorFacts.byteLen).sum

/-- What successful allocations imply where an address has 64 bits: the edges and
values of the graph are in memory, and so are the buffers that are live while a
node runs, with those it allocates. -/
structure Resident (graph : OperationGraph) (host : Host) (inputs : List ByteView) : Prop where
  edges : (graph.nodes.flatMap OperationNode.inputs).length + 1 < u64Size
  values : graph.values.length < u64Size
  live : ∀ (k : Nat) (node : OperationNode) (st : HostState), graph.nodes[k]? = some node →
    graph.stateAfter host inputs ⟨false⟩ k = .ok st →
    ((st.liveAllocations graph.values).map Prod.snd).sum + graph.chargedBytes node < u64Size

section Accounting
variable {graph : OperationGraph} {host : Host} {inputs : List ByteView}
  {cancellation : CancellationToken} {node : OperationNode} {k : Nat}

theorem charge_le (p : ProducedValue) (f : TensorFacts) : p.charge f ≤ f.byteLen := by
  unfold ProducedValue.charge
  split
  · exact Nat.le_refl _
  · exact Nat.zero_le _

theorem outputCharge_le : ∀ {ps : List ProducedValue} {fs : List TensorFacts},
    outputCharge (ps.zip fs) ≤ (fs.map TensorFacts.byteLen).sum
  | [], fs => Nat.zero_le _
  | _ :: _, [] => Nat.zero_le _
  | p :: ps, f :: fs => by
    rw [List.zip_cons_cons, outputCharge, List.map_cons, List.sum_cons, List.map_cons,
      List.sum_cons]
    exact Nat.add_le_add (charge_le p f) outputCharge_le

theorem NodeCharged.le_chargedBytes {view : ValueRef → Option ByteView} {ex : NodeExecution}
    (h : NodeCharged graph host cancellation view node ex) :
    outputCharge (ex.outputs.zip node.outputs) ≤ graph.chargedBytes node := by
  unfold OperationGraph.chargedBytes
  cases ha : graph.nodeOutputAliasInput node 0 with
  | none => exact outputCharge_le
  | some i =>
    -- an aliased output is the only one
    have hone : ∃ o, node.outputs = [o] := by
      unfold OperationGraph.nodeOutputAliasInput at ha
      split at ha
      · cases ha
      · split at ha
        · next o _ ho => exact ⟨o, ho⟩
        · cases ha
    obtain ⟨o, ho⟩ := hone
    rw [ho]
    cases hex : ex.outputs with
    | nil => exact Nat.zero_le _
    | cons p ps =>
      have horigin := h.origin 0 p (by rw [hex]; rfl)
      rw [OriginMatches, ha] at horigin
      obtain ⟨_, _, horigin, _⟩ := horigin
      rw [List.zip_cons_cons, List.zip_nil_right, outputCharge, List.map_singleton,
        List.sum_singleton, ProducedValue.charge, horigin]

theorem runNode_within {view : ValueRef → Option ByteView} :
    Within (runNode graph host cancellation view node) := by
  refine (within_lift _).bind fun _ _ => ?_
  refine (within_lift _).bind fun _ _ => ?_
  refine (Within.mapM fun v _ => within_orFault _ _).bind fun _ _ => ?_
  refine (Within.mapM fun v _ => within_orFault _ _).bind fun _ _ => ?_
  refine (within_lift _).bind fun _ _ => ?_
  split
  · exact Within.fault _
  · exact (within_lift _).bind fun _ _ => Within.pure _

theorem runNode_count {view : ValueRef → Option ByteView} {ex : NodeExecution}
    (h : runNode graph host cancellation view node = .ok ex) :
    ex.outputs.length = node.outputs.length := by
  obtain ⟨_, _, h⟩ := bind_ok h
  obtain ⟨_, _, h⟩ := bind_ok h
  obtain ⟨_, _, h⟩ := bind_ok h
  obtain ⟨_, _, h⟩ := bind_ok h
  obtain ⟨_, _, h⟩ := bind_ok h
  obtain ⟨hcount, h⟩ := unless_error_ok h
  obtain ⟨_, _, h⟩ := bind_ok h
  rw [← Except.ok.inj h]
  exact not_not.mp hcount

theorem length_valuesUpTo_succ (hk : graph.nodes[k]? = some node) :
    (graph.valuesUpTo (k + 1)).length = (graph.valuesUpTo k).length + node.outputs.length := by
  rw [valuesUpTo_succ hk, List.length_append, nodeValues, List.length_map, List.length_range]

theorem length_valuesUpTo_le (graph : OperationGraph) (k m : Nat) :
    (graph.valuesUpTo k).length ≤ (graph.valuesUpTo (k + m)).length := by
  unfold OperationGraph.valuesUpTo
  rw [List.range_add, List.flatMap_append, ← List.append_assoc]
  exact (List.prefix_append _ _).length_le

/-- A node does not overflow the accounting, and enters its outputs. -/
theorem executeHostNode_within {st : HostState} (hk : graph.nodes[k]? = some node)
    (hs : Spent (graph.valuesUpTo k).length st.schedule)
    (hstructural : node.operation.isStructural = true)
    (hvalues : (graph.valuesUpTo (k + 1)).length < u64Size)
    (hlive : st.schedule.liveBytes + graph.chargedBytes node < u64Size) :
    Within (executeHostNode graph host cancellation k node st) ∧
      ∀ st', executeHostNode graph host cancellation k node st = .ok st' →
        Spent (graph.valuesUpTo (k + 1)).length st'.schedule := by
  rw [length_valuesUpTo_succ hk] at hvalues ⊢
  -- what is known once the node has run
  have hinsert : ∀ ex, runNode graph host cancellation st.view node = .ok ex →
      Within (insertOutputs k node.inputs st 0 (ex.outputs.zip node.outputs)) ∧
      ∀ st₁, insertOutputs k node.inputs st 0 (ex.outputs.zip node.outputs) = .ok st₁ →
        Spent ((graph.valuesUpTo k).length + node.outputs.length) st₁.schedule ∧
          st₁.schedule.liveBytes + ex.transientScratch < u64Size := by
    intro ex hex
    have hcharged := runNode_charged hk hex
    have hle := hcharged.le_chargedBytes
    have hlength : (ex.outputs.zip node.outputs).length = node.outputs.length := by
      rw [List.length_zip, runNode_count hex, Nat.min_self]
    have hscratch : ex.transientScratch = 0 := by
      have := hcharged.scratch
      cases hop : node.operation with
      | prepare transform => rw [hop] at hstructural; cases hstructural
      | _ => rw [hop] at this; exact Nat.le_zero.mp this
    obtain ⟨hw, hafter⟩ := insertOutputs_within k node.inputs _ (j := 0) hs
      (by rw [hlength]; exact hvalues) (by omega)
    refine ⟨hw, fun st₁ h₁ => ?_⟩
    obtain ⟨hs₁, hl₁⟩ := hafter st₁ h₁
    rw [hlength] at hs₁
    exact ⟨hs₁, by omega⟩
  constructor
  · refine runNode_within.bind fun ex hex => ?_
    obtain ⟨hw, hafter⟩ := hinsert ex hex
    refine hw.bind fun st₁ h₁ => ?_
    obtain ⟨hs₁, hl₁⟩ := hafter st₁ h₁
    refine Within.bind ?_ fun s₂ h₂ => ?_
    · exact (within_orLimit (checkedAdd_some hl₁)).bind fun _ _ => Within.pure _
    · have hs₂ : Spent ((graph.valuesUpTo k).length + node.outputs.length) s₂ := by
        obtain ⟨_, _, h₂⟩ := bind_ok h₂
        rw [← Except.ok.inj h₂]
        exact ⟨hs₁.next, hs₁.references⟩
      have hconsume := @consumeRuntimeInputs_within _ ⟨s₂, st₁.runtime⟩ node.inputs hs₂
      exact hconsume.1.bind fun st₃ h₃ =>
        (removeUnusedRuntime_within _ (hconsume.2 st₃ h₃)).1
  · intro st' h
    obtain ⟨ex, hex, h⟩ := bind_ok h
    obtain ⟨st₁, h₁, h⟩ := bind_ok h
    obtain ⟨hs₁, _⟩ := (hinsert ex hex).2 st₁ h₁
    obtain ⟨s₂, h₂, h⟩ := bind_ok h
    obtain ⟨st₃, h₃, h⟩ := bind_ok h
    obtain ⟨_, _, h₂⟩ := bind_ok h₂
    have hs₂ : Spent ((graph.valuesUpTo k).length + node.outputs.length) s₂ := by
      rw [← Except.ok.inj h₂]
      exact ⟨hs₁.next, hs₁.references⟩
    have hs₃ := (@consumeRuntimeInputs_within _ ⟨s₂, st₁.runtime⟩ _ hs₂).2 st₃ h₃
    exact (removeUnusedRuntime_within _ hs₃).2 st' h

/-! ### The loop -/

theorem executeHostNodes_append : ∀ {nodes : List OperationNode} {k : Nat} {st : HostState},
    executeHostNodes graph host cancellation k (nodes ++ [node]) st =
      executeHostNodes graph host cancellation k nodes st >>=
        executeHostNode graph host cancellation (k + nodes.length) node
  | [], k, st => by
    show (executeHostNode graph host cancellation k node st >>= Except.ok) =
      executeHostNode graph host cancellation k node st
    cases executeHostNode graph host cancellation k node st with
    | ok _ => rfl
    | error _ => rfl
  | first :: nodes, k, st => by
    rw [List.cons_append, executeHostNodes, executeHostNodes, bind_assoc, List.length_cons,
      Nat.add_comm nodes.length, ← Nat.add_assoc]
    exact congrArg _ (funext fun st₁ => executeHostNodes_append)

theorem stateAfter_succ (hk : graph.nodes[k]? = some node) :
    graph.stateAfter host inputs cancellation (k + 1) =
      graph.stateAfter host inputs cancellation k >>=
        executeHostNode graph host cancellation k node := by
  have hlen : (graph.nodes.take k).length = k := by
    have := (List.getElem?_eq_some_iff.mp hk).1
    rw [List.length_take]
    omega
  unfold OperationGraph.stateAfter
  rw [List.take_add_one, hk, bind_assoc]
  refine congrArg _ (funext fun st => ?_)
  show executeHostNodes graph host cancellation 0 (graph.nodes.take k ++ [node]) st = _
  rw [executeHostNodes_append, hlen, Nat.zero_add]

theorem initialHostState_within (h : Resident graph host inputs) :
    Within (initialHostState graph inputs cancellation) ∧
      ∀ st, initialHostState graph inputs cancellation = .ok st →
        Spent (graph.valuesUpTo 0).length st.schedule := by
  constructor
  · refine (within_lift _).bind fun _ _ => ?_
    refine (within_lift _).bind fun _ _ => ?_
    refine (new_within h.edges).bind fun _ _ => ?_
    exact (within_lift _).bind fun _ _ => Within.pure _
  · intro st hst
    obtain ⟨_, _, hst⟩ := bind_ok hst
    obtain ⟨_, _, hst⟩ := bind_ok hst
    obtain ⟨s, hnew, hst⟩ := bind_ok hst
    obtain ⟨_, _, hst⟩ := bind_ok hst
    rw [← Except.ok.inj hst]
    obtain ⟨_, _, hnew⟩ := bind_ok hnew
    obtain ⟨_, _, hnew⟩ := bind_ok hnew
    rw [← Except.ok.inj hnew]
    exact ⟨Nat.zero_le _, fun a x hx => by cases hx⟩

/-- Between nodes every value so far has been entered at most once. -/
theorem stateAfter_within (hstructural : ∀ node ∈ graph.nodes, node.operation.isStructural = true)
    (h : Resident graph host inputs) : ∀ {k : Nat}, k ≤ graph.nodes.length →
      Within (graph.stateAfter host inputs ⟨false⟩ k) ∧
        ∀ st, graph.stateAfter host inputs ⟨false⟩ k = .ok st →
          Spent (graph.valuesUpTo k).length st.schedule
  | 0, _ => by
    obtain ⟨hw, hs⟩ := @initialHostState_within graph host inputs ⟨false⟩ h
    refine ⟨hw.bind fun st _ => Within.pure _, fun st hst => ?_⟩
    obtain ⟨st₀, h₀, hst⟩ := bind_ok hst
    obtain rfl := Except.ok.inj hst
    exact hs st₀ h₀
  | k + 1, hk => by
    have hnode : graph.nodes[k]? = some graph.nodes[k] := List.getElem?_eq_getElem hk
    obtain ⟨hw, hs⟩ := stateAfter_within hstructural h (Nat.le_of_succ_le hk)
    have hvalues : (graph.valuesUpTo (k + 1)).length < u64Size := by
      obtain ⟨m, hm⟩ := Nat.exists_eq_add_of_le hk
      refine Nat.lt_of_le_of_lt ?_ h.values
      rw [OperationGraph.values, hm]
      exact length_valuesUpTo_le graph (k + 1) m
    have hlive : ∀ st, graph.stateAfter host inputs ⟨false⟩ k = .ok st →
        st.schedule.liveBytes + graph.chargedBytes graph.nodes[k] < u64Size := by
      intro st hst
      obtain ⟨m, hm, ht⟩ := stateAfter_tracked hst
      rw [ht.liveBytes_eq fun v => valuesUpTo_mono hm]
      exact h.live k _ st hnode hst
    have hstep := fun st hst => @executeHostNode_within graph host ⟨false⟩ _ k st hnode (hs st hst)
      (hstructural _ (List.getElem_mem hk)) hvalues (hlive st hst)
    rw [stateAfter_succ hnode]
    refine ⟨hw.bind fun st hst => (hstep st hst).1, fun st' hst' => ?_⟩
    obtain ⟨st, hst, hst'⟩ := bind_ok hst'
    exact (hstep st hst).2 st' hst'

/-- A run whose allocations succeed does not overflow the accounting. -/
theorem executeHost_within (hstructural : ∀ node ∈ graph.nodes, node.operation.isStructural = true)
    (h : Resident graph host inputs) : Within (graph.executeHost host inputs ⟨false⟩) := by
  have hw := (stateAfter_within hstructural h (Nat.le_refl _)).1
  rw [OperationGraph.stateAfter, List.take_length] at hw
  have hall := hw.bind (f := fun st => do
    lift (CancellationToken.check ⟨false⟩)
    let output ← orFault (st.runtime graph.output) .outputNotLive
    let peakScratchBytes ← st.schedule.scratchExcludingOutput graph.output
    .ok (⟨output.bytes, peakScratchBytes⟩ : HostExecution)) fun st _ => by
      refine (within_lift _).bind fun _ _ => ?_
      refine (within_orFault _ _).bind fun _ _ => ?_
      exact (within_orFault _ _).bind fun _ _ => Within.pure _
  rw [bind_assoc] at hall
  exact hall

end Accounting

/-! ## Nodes that return -/

section Run
variable {graph : OperationGraph} {host : Host} {inputs : List ByteView}
  {node : OperationNode} {k : Nat} {view : ValueRef → Option ByteView} {m : Meaning}

/-- The facts of a node's inputs. -/
def OperationGraph.nodeFacts (graph : OperationGraph) (node : OperationNode) : List TensorFacts :=
  node.inputs.filterMap graph.facts

theorem filterMap_orFault {α : Type} {g : ValueRef → Option α} {fault : LivenessFault} :
    ∀ {l : List ValueRef} {r : List α}, l.mapM (fun v => orFault (g v) fault) = .ok r →
      l.filterMap g = r
  | [], r, h => by simpa [pure, Except.pure] using h
  | v :: l, r, h => by
    rw [List.mapM_cons] at h
    obtain ⟨a, ha, h⟩ := bind_ok h
    obtain ⟨as, has, h⟩ := bind_ok h
    obtain rfl : a :: as = r := by simpa [pure, Except.pure] using h
    rw [List.filterMap_cons_some (orFault_eq_ok.mp ha), filterMap_orFault has]

theorem validateOutputs_eq : ∀ {ps : List ProducedValue} {fs : List TensorFacts},
    (∀ (i : Nat) (p : ProducedValue) (f : TensorFacts), ps[i]? = some p → fs[i]? = some f →
      p.bytes.bytes.length = f.byteLen) → validateOutputs ps fs = .ok ()
  | [], _, _ => by rw [validateOutputs]; simp
  | _ :: _, [], _ => by rw [validateOutputs]; simp
  | p :: ps, f :: fs, h => by
    rw [validateOutputs, validateViewLen_eq _ (h 0 p f rfl rfl)]
    exact validateOutputs_eq fun i q g hq hg => h (i + 1) q g hq hg

/-- Every value so far is at hand. -/
def Available (graph : OperationGraph) (k : Nat) (view : ValueRef → Option ByteView) : Prop :=
  ∀ v ∈ graph.valuesUpTo k, (view v).isSome

theorem runNode_succeeds (hk : graph.nodes[k]? = some node)
    (hstructural : node.operation.isStructural = true)
    (hbuiltin : node.operation.builtinImplementation = .ok node.implementation)
    (hr : Represents graph inputs k view m) (hav : Available graph k view)
    (hfit : KernelFits host node (graph.nodeFacts node)) :
    Succeeds (runNode graph host ⟨false⟩ view node) fun _ => True := by
  obtain ⟨views, hviews⟩ := mapM_orFault .inputUnavailable fun v hv =>
    hav v (inputs_mem_valuesUpTo hk hv)
  obtain ⟨fs, hfs, hinfer⟩ := graph_inputFacts hk
  obtain ⟨hin, hfst⟩ := hr.nodeInputs_hold hviews hfs
  have hcheck : checkImplementation node = .ok () := by
    rw [checkImplementation, hbuiltin]
    exact if_neg (not_not.mpr rfl)
  rw [OperationGraph.nodeFacts, filterMap_orFault hfs, ← hfst] at hfit
  rw [← hfst] at hinfer
  obtain ⟨ex, hex, _⟩ := executeNode_succeeds hstructural hinfer hin hfit
  obtain ⟨hcount, _⟩ := executeNode_produced (by rw [hin.length, List.length_map]) hinfer hex
  have hlays : List.Forall₂ _ (node.outputs.zip (denoteOperation host.preparation ⟨false⟩
    node.operation (nodeInputs graph m node) node.outputs)) ex.outputs :=
      structuralNode_lays hstructural hinfer hin hex
  refine Succeeds.step (x := lift _) rfl ?_
  refine Succeeds.step (lift_eq_ok.mpr hcheck) ?_
  refine Succeeds.step hviews ?_
  refine Succeeds.step hfs ?_
  rw [← hfst]
  refine Succeeds.step (lift_eq_ok.mpr hex) ?_
  refine Succeeds.guard (not_not.mpr hcount) ?_
  refine Succeeds.step (lift_eq_ok.mpr (validateOutputs_eq fun i p f hp hf => ?_))
    (Succeeds.of_ok trivial)
  -- what is laid out has the length of its facts
  have hlt := (List.getElem?_eq_some_iff.mp hp).1
  have hzip := hlays.length_eq
  rw [List.length_zip] at hzip
  obtain ⟨e, he⟩ : ∃ e, (denoteOperation host.preparation ⟨false⟩ node.operation
      (nodeInputs graph m node) node.outputs)[i]? = some e := ⟨_, List.getElem?_eq_getElem (by omega)⟩
  exact (getElem?_forall₂ hlays (i := i) (a := (f, e))
    (List.getElem?_zip_eq_some.mpr ⟨hf, he⟩) hp).holds.length

/-- A node that returned has formed the products of its kernel. -/
theorem runNode_fits {ex : NodeExecution} (hk : graph.nodes[k]? = some node)
    (hr : Represents graph inputs k view m)
    (h : runNode graph host ⟨false⟩ view node = .ok ex) :
    KernelFits host node (graph.nodeFacts node) := by
  obtain ⟨_, _, h⟩ := bind_ok h
  obtain ⟨_, _, h⟩ := bind_ok h
  obtain ⟨views, hviews, h⟩ := bind_ok h
  obtain ⟨fs, hfs, h⟩ := bind_ok h
  obtain ⟨ex', hex, h⟩ := bind_ok h
  obtain ⟨fs', hfs', hinfer⟩ := graph_inputFacts hk
  obtain rfl : fs' = fs := Except.ok.inj (hfs'.symm.trans hfs)
  obtain ⟨hin, hfst⟩ := hr.nodeInputs_hold hviews hfs
  have hex := lift_eq_ok.mp hex
  rw [OperationGraph.nodeFacts, filterMap_orFault hfs]
  rw [← hfst] at hinfer hex ⊢
  exact executeNode_fits hinfer hin hex

theorem Available.step {ex : NodeExecution} (hk : graph.nodes[k]? = some node)
    (hav : Available graph k view) (hcount : ex.outputs.length = node.outputs.length) :
    Available graph (k + 1) (retainOutputs k view 0 ex.outputs) := by
  intro v hv
  rw [valuesUpTo_succ hk, List.mem_append] at hv
  rcases hv with hv | hv
  · rw [retainOutputs_other fun o he => output_not_mem_valuesUpTo o (he ▸ hv)]
    exact hav v hv
  · obtain ⟨o, ho, rfl⟩ := List.mem_map.mp hv
    have ho := List.mem_range.mp ho
    rw [retainOutputs_node, if_pos (by omega), Option.isSome_map, Nat.sub_zero,
      List.getElem?_eq_getElem (by omega)]
    rfl

/-! ## Executions that return -/

theorem retainNodes_succeeds
    (hstructural : ∀ node ∈ graph.nodes, node.operation.isStructural = true)
    (hbuiltin : ∀ node ∈ graph.nodes,
      node.operation.builtinImplementation = .ok node.implementation)
    (hfit : ∀ node ∈ graph.nodes, KernelFits host node (graph.nodeFacts node)) :
    ∀ {nodes : List OperationNode} {k : Nat} {view : ValueRef → Option ByteView} {m : Meaning},
      graph.nodes.drop k = nodes → Represents graph inputs k view m → Available graph k view →
      Succeeds (retainNodes graph host ⟨false⟩ k nodes view)
        (Available graph (k + nodes.length))
  | [], k, view, m, _, _, hav => Succeeds.of_ok hav
  | node :: rest, k, view, m, hd, hr, hav => by
    have hk : graph.nodes[k]? = some node := by
      have := congrArg (fun l => l[0]?) hd
      simpa using this
    have hrest : graph.nodes.drop (k + 1) = rest := by
      rw [← List.drop_drop, hd]
      rfl
    have hmem := List.mem_of_getElem? hk
    obtain ⟨ex, hex, _⟩ := runNode_succeeds hk (hstructural _ hmem) (hbuiltin _ hmem) hr hav
      (hfit _ hmem)
    rw [retainNodes]
    refine Succeeds.step hex ?_
    have := retainNodes_succeeds hstructural hbuiltin hfit hrest (hr.step hk hex)
      (hav.step hk (runNode_count hex))
    rwa [Nat.add_assoc, Nat.add_comm 1] at this

theorem retainNodes_fits : ∀ {nodes : List OperationNode} {k : Nat}
    {view final : ValueRef → Option ByteView} {m : Meaning},
      graph.nodes.drop k = nodes → Represents graph inputs k view m →
      retainNodes graph host ⟨false⟩ k nodes view = .ok final →
      ∀ node ∈ nodes, KernelFits host node (graph.nodeFacts node)
  | [], _, _, _, _, _, _, _ => fun _ hn => (List.not_mem_nil hn).elim
  | node :: rest, k, view, final, m, hd, hr, h => by
    have hk : graph.nodes[k]? = some node := by
      have := congrArg (fun l => l[0]?) hd
      simpa using this
    have hrest : graph.nodes.drop (k + 1) = rest := by
      rw [← List.drop_drop, hd]
      rfl
    rw [retainNodes] at h
    obtain ⟨ex, hex, h⟩ := bind_ok h
    intro n hn
    rcases List.mem_cons.mp hn with rfl | hn
    · exact runNode_fits hk hr hex
    · exact retainNodes_fits hrest (hr.step hk hex) h n hn

theorem validateInputs_eq {ds : List OperationInput} {views : List ByteView}
    (h : List.Forall₂ (fun (d : OperationInput) (v : ByteView) =>
      v.bytes.length = d.facts.byteLen) ds views) : validateInputs ds views = .ok () := by
  induction h with
  | nil => rfl
  | cons hd _ ih =>
    rw [validateInputs, validateViewLen_eq _ hd]
    exact ih

theorem available_inputs (h : inputs.length = graph.inputs.length) :
    Available graph 0 (inputViews inputs) := by
  intro v hv
  obtain ⟨i, hi, rfl⟩ := mem_valuesUpTo_zero.mp hv
  show (inputs[i]?).isSome = true
  rw [List.getElem?_eq_getElem (by omega)]
  rfl

theorem executeRetaining_iff
    (hstructural : ∀ node ∈ graph.nodes, node.operation.isStructural = true)
    (hbuiltin : ∀ node ∈ graph.nodes,
      node.operation.builtinImplementation = .ok node.implementation)
    (hinputs : List.Forall₂ (fun (d : OperationInput) (v : ByteView) =>
      v.bytes.length = d.facts.byteLen) graph.inputs inputs) :
    (∃ bv, graph.executeRetaining host inputs ⟨false⟩ = .ok bv) ↔
      ∀ node ∈ graph.nodes, KernelFits host node (graph.nodeFacts node) := by
  have hvalid := validateInputs_eq hinputs
  have hcount : checkInputCount graph inputs = .ok () :=
    if_neg (not_not.mpr hinputs.length_eq.symm)
  constructor
  · rintro ⟨bv, h⟩
    obtain ⟨_, _, h⟩ := bind_ok h
    obtain ⟨_, _, h⟩ := bind_ok h
    obtain ⟨_, _, h⟩ := bind_ok h
    obtain ⟨final, hnodes, _⟩ := bind_ok h
    exact retainNodes_fits List.drop_zero (represents_inputs hvalid) hnodes
  · intro hfit
    obtain ⟨final, hnodes, hav⟩ := retainNodes_succeeds hstructural hbuiltin hfit List.drop_zero
      (represents_inputs hvalid) (available_inputs hinputs.length_eq.symm)
    rw [Nat.zero_add] at hav
    obtain ⟨bv, hbv⟩ := Option.isSome_iff_exists.mp (hav graph.output output_mem_values)
    have hrun : Succeeds (graph.executeRetaining host inputs ⟨false⟩) fun _ => True := by
      refine Succeeds.step (x := lift _) rfl ?_
      refine Succeeds.step (lift_eq_ok.mpr hcount) ?_
      refine Succeeds.step (lift_eq_ok.mpr hvalid) ?_
      refine Succeeds.step hnodes ?_
      exact Succeeds.step rfl (Succeeds.of_eq (orFault_eq_ok.mpr hbv) trivial)
    obtain ⟨r, hr, _⟩ := hrun
    exact ⟨r, hr⟩

end Run

/-- When allocations succeed, the host execution returns if the retaining one does. -/
theorem executeHost_succeeds {graph : OperationGraph} {host : Host} {inputs : List ByteView}
    {bv : ByteView} (hstructural : ∀ node ∈ graph.nodes, node.operation.isStructural = true)
    (hresident : Resident graph host inputs)
    (hbv : graph.executeRetaining host inputs ⟨false⟩ = .ok bv) :
    ∃ r, graph.executeHost host inputs ⟨false⟩ = .ok r := by
  have href := @executeHost_refines graph host inputs ⟨false⟩
  cases h : graph.executeHost host inputs ⟨false⟩ with
  | ok r => exact ⟨r, rfl⟩
  | error e =>
    rw [h] at href
    cases e with
    | fault f => exact href.elim
    | limit l => exact absurd h (executeHost_within hstructural hresident l)
    | failed e =>
      have href : graph.executeRetaining host inputs ⟨false⟩ = .error (.failed e) := href
      rw [hbv] at href
      cases href

/-- **Success of structural graphs.** When allocations succeed, a graph of
structural operations runs to its end exactly when the products its kernels form
beyond admission fit 64 bits. -/
theorem executeHost_succeeds_iff {graph : OperationGraph} {host : Host} {inputs : List ByteView}
    (hstructural : ∀ node ∈ graph.nodes, node.operation.isStructural = true)
    (hbuiltin : ∀ node ∈ graph.nodes,
      node.operation.builtinImplementation = .ok node.implementation)
    (hinputs : List.Forall₂ (fun (d : OperationInput) (v : ByteView) =>
      v.bytes.length = d.facts.byteLen) graph.inputs inputs)
    (hresident : Resident graph host inputs) :
    (∃ r, graph.executeHost host inputs ⟨false⟩ = .ok r) ↔
      ∀ node ∈ graph.nodes, KernelFits host node (graph.nodeFacts node) := by
  rw [← executeRetaining_iff hstructural hbuiltin hinputs]
  constructor
  · rintro ⟨r, h⟩
    obtain ⟨bv, hbv, _⟩ := executeHost_refines.ok h
    exact ⟨bv, hbv⟩
  · rintro ⟨bv, hbv⟩
    exact executeHost_succeeds hstructural hresident hbv

theorem executeHost_succeeds_iff_transpose :
    (∃ r, transposeGraph.executeHost bareHost transposeInputs ⟨false⟩ = .ok r) ↔
      ∀ node ∈ transposeGraph.nodes, KernelFits bareHost node (transposeGraph.nodeFacts node) := by
  refine executeHost_succeeds_iff (by decide) (by decide) (.cons rfl .nil)
    ⟨by decide, by decide, ?_⟩
  intro k node st hk hst
  match k with
  | 0 | 1 | 2 =>
    obtain rfl := Option.some.inj hk
    obtain rfl := Except.ok.inj hst
    decide
  | k + 3 => cases hk

/-! ## Tensors without elements -/

/-- Two tensors without elements whose other axis is long. -/
def hollowWire : OperationGraphWire where
  schemaVersion := 1
  inputs :=
    [⟨⟨"a"⟩, ⟨[0, 2 ^ 63], [0, 2 ^ 63], [2 ^ 63, 1], [2 ^ 63, 1], .contiguous .u64, 0, rfl⟩⟩,
     ⟨⟨"b"⟩, ⟨[0, 2 ^ 63], [0, 2 ^ 63], [2 ^ 63, 1], [2 ^ 63, 1], .contiguous .u64, 0, rfl⟩⟩]
  nodes := [⟨⟨⟨"model-weights"⟩, ⟨"concat"⟩, 1⟩, [.input 0, .input 1], .concat 0⟩]
  output := .nodeOutput 0 0

def hollowGraph : OperationGraph := (OperationGraph.tryFrom hollowWire).toOption.get rfl

/-- Convolution weights without output channels, stored channel-last. -/
def hollowKernelWire : OperationGraphWire where
  schemaVersion := 1
  inputs := [⟨⟨"w"⟩, ⟨[0, 2 ^ 60, 3, 3], [0, 2 ^ 60, 3, 3], [9 * 2 ^ 60, 9, 3, 1],
    [9 * 2 ^ 60, 9, 3, 1], .contiguous .f16, 0, rfl⟩⟩]
  nodes := [⟨⟨⟨"model-weights"⟩, ⟨"permute"⟩, 1⟩, [.input 0],
    .permute ⟨[0, 2, 3, 1], .storage (.custom ⟨"ohwi"⟩ 1 [])⟩⟩]
  output := .nodeOutput 0 0

def hollowKernel : OperationGraph := (OperationGraph.tryFrom hollowKernelWire).toOption.get rfl

/-- A machine with AVX2. -/
def vectorHost : Host := { bareHost with avx2Available := true }

/-- The concatenation of two empty buffers fails on a product of axes that no
byte uses, and the half-precision kernel on a graph that the portable one runs. -/
theorem hollow_graphs_fail :
    (∀ node ∈ hollowGraph.nodes, node.operation.isStructural = true ∧
      node.operation.builtinImplementation = .ok node.implementation) ∧
    List.Forall₂ (fun (d : OperationInput) (v : ByteView) => v.bytes.length = d.facts.byteLen)
      hollowGraph.inputs [⟨[], true⟩, ⟨[], true⟩] ∧
    Resident hollowGraph bareHost [⟨[], true⟩, ⟨[], true⟩] ∧
    hollowGraph.executeHost bareHost [⟨[], true⟩, ⟨[], true⟩] ⟨false⟩ =
      .error (.failed (.limit "concatenation inner byte length overflows u64")) ∧
    hollowKernel.executeHost vectorHost [⟨[], true⟩] ⟨false⟩ =
      .error (.failed (.limit "3x3 u16 OIHW channel byte length overflows usize")) ∧
    hollowKernel.executeHost bareHost [⟨[], true⟩] ⟨false⟩ = .ok ⟨⟨[], true⟩, 0⟩ := by
  refine ⟨by decide, .cons rfl (.cons rfl .nil), ⟨by decide, by decide, ?_⟩, rfl, rfl, rfl⟩
  intro k node st hk hst
  match k with
  | 0 =>
    obtain rfl := Option.some.inj hk
    obtain rfl := Except.ok.inj hst
    decide
  | k + 1 => cases hk

end ModelWeights.Graph
