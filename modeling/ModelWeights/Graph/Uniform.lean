import ModelWeights.Graph.Correct

/-! # Hosts agree

Where the outputs of providers are a function of what they are asked for, every host
that executes a graph to the end returns the same bytes: which providers are registered,
whether they reuse their source and which instructions are available decides only
whether an execution succeeds. -/
namespace ModelWeights.Graph

/-- The bytes of a prepared output: a function of the transform, with the identity of
its implementation, the shape and the source bytes. -/
abbrev PrepareFunction := TransformSpec → List Nat → Bytes → Bytes

/-- Whenever an engine prepares an output, it is that of the function. -/
def Computes (F : PrepareFunction) (engine : PreparationEngine) : Prop :=
  ∀ (request : PrepareRequest) (cancellation : CancellationToken) (prepared : Prepared)
    (view : ByteView), view.bytes = request.source →
    engine.prepareWithCancellation request cancellation = .ok prepared →
    (prepared.view view).bytes = F request.transform request.shape request.source

/-- The engine that prepares everything, with one function. -/
def idealEngine (F : PrepareFunction) : PreparationEngine where
  providers _ := some {
    validate := fun request _ =>
      .ok (.allocate request.expectedOutputBytes request.expectedScratchBytes)
    prepareAllocated := fun request _ _ _ =>
      .ok (F request.transform request.shape request.source) }

theorem computes_idealEngine (F : PrepareFunction) : Computes F (idealEngine F) := by
  intro request cancellation prepared view _ h
  obtain ⟨_, _, h⟩ := bind_ok h
  obtain ⟨provider, hprovider, h⟩ := bind_ok h
  obtain rfl := Option.some.inj (okOr_eq_ok.mp hprovider)
  obtain ⟨strategy, hstrategy, h⟩ := bind_ok h
  obtain rfl := Except.ok.inj hstrategy
  obtain ⟨_, _, h⟩ := bind_ok h
  obtain ⟨lengths, _, h⟩ := bind_ok h
  obtain ⟨_, _, h⟩ := bind_ok h
  obtain ⟨output, houtput, h⟩ := bind_ok h
  obtain rfl := Except.ok.inj houtput
  obtain ⟨_, _, h⟩ := bind_ok h
  obtain ⟨_, _, h⟩ := bind_ok h
  obtain rfl := Except.ok.inj h
  rfl

section Uniform
variable {F : PrepareFunction} {graph : OperationGraph} {host : Host}
  {cancellation : CancellationToken} {inputs : List ByteView}

theorem denoteOperation_ideal {node : OperationNode} {ins : List (TensorFacts × Elements)}
    {views : List ByteView} {ex : NodeExecution} (hF : Computes F host.preparation)
    (hinfer : inferOutputs node.operation (ins.map Prod.fst) = .ok node.outputs)
    (hin : HoldsAll ins (views.map ByteView.bytes))
    (h : executeNode host node views (ins.map Prod.fst) cancellation = .ok ex) :
    denoteOperation host.preparation cancellation node.operation ins node.outputs =
      denoteOperation (idealEngine F) ⟨false⟩ node.operation ins node.outputs := by
  cases hop : node.operation with
  | prepare transform =>
    obtain ⟨_, h⟩ := unless_error_ok h
    rw [hop] at hinfer h
    obtain ⟨f, e, input, rfl, rfl, hh, hg⟩ := hin.unary hinfer
    obtain ⟨hf, o, ho, _, _⟩ := inferPrepare_ok hg
    obtain ⟨_, hi, h⟩ := bind_ok h
    obtain rfl := Option.some.inj (okOr_eq_ok.mp hi)
    obtain ⟨_, hf', h⟩ := bind_ok h
    obtain rfl := Option.some.inj (okOr_eq_ok.mp hf')
    obtain ⟨prepared, hprep, _⟩ := bind_ok h
    have hdense : f.Dense := by
      rw [TensorFacts.Dense, (TensorFacts.isCanonicalContiguous_iff hf).1]
    have hbytes := prepareWithCancellation_bytes (show input.bytes = _ from rfl) hprep
    have hfunction : host.preparation.byteFunction (prepareRequest transform f (f.layout e))
        cancellation = (idealEngine F).byteFunction (prepareRequest transform f (f.layout e))
          ⟨false⟩ := by
      rw [← hh.eq_layout hdense, ← hbytes]
      exact hF _ _ _ _ rfl hprep
    simp only [denoteOperation, hfunction]
  | concat axis => rfl
  | permute _ | pad _ | slice _ | split _ | reshape _ =>
    rw [hop] at hinfer
    obtain ⟨f, e, input, rfl, rfl, _, _⟩ := hin.unary hinfer
    rfl

theorem runNode_ideal {k : Nat} {node : OperationNode} {view : ValueRef → Option ByteView}
    {m : Meaning} {ex : NodeExecution} (hF : Computes F host.preparation)
    (hk : graph.nodes[k]? = some node) (hr : Represents graph inputs k view m)
    (h : runNode graph host cancellation view node = .ok ex) :
    denoteOperation host.preparation cancellation node.operation (nodeInputs graph m node)
        node.outputs =
      denoteOperation (idealEngine F) ⟨false⟩ node.operation (nodeInputs graph m node)
        node.outputs := by
  obtain ⟨_, _, h⟩ := bind_ok h
  obtain ⟨_, _, h⟩ := bind_ok h
  obtain ⟨views, hviews, h⟩ := bind_ok h
  obtain ⟨fs, hfs, h⟩ := bind_ok h
  obtain ⟨ex', hex, _⟩ := bind_ok h
  obtain ⟨fs', hfs', hinfer⟩ := graph_inputFacts hk
  obtain rfl : fs' = fs := Except.ok.inj (hfs'.symm.trans hfs)
  obtain ⟨hin, hfst⟩ := hr.nodeInputs_hold hviews hfs
  have hex := lift_eq_ok.mp hex
  rw [← hfst] at hinfer hex
  exact denoteOperation_ideal hF hinfer hin hex

/-- Executed nodes hold what the ideal engine makes of them. -/
theorem retainNodes_ideal (hF : Computes F host.preparation) : ∀ {nodes : List OperationNode}
    {k : Nat} {view final : ValueRef → Option ByteView} {m : Meaning},
      graph.nodes.drop k = nodes → Represents graph inputs k view m →
      retainNodes graph host cancellation k nodes view = .ok final →
      Represents graph inputs (k + nodes.length) final
        (denoteNodes graph (idealEngine F) ⟨false⟩ k nodes m)
  | [], k, view, final, m, _, hr, h => by
    obtain rfl := Except.ok.inj h
    exact hr
  | node :: rest, k, view, final, m, hd, hr, h => by
    rw [retainNodes] at h
    obtain ⟨ex, hex, h⟩ := bind_ok h
    have hk : graph.nodes[k]? = some node := by
      have := congrArg (fun l => l[0]?) hd
      simpa using this
    have hrest : graph.nodes.drop (k + 1) = rest := by
      rw [← List.drop_drop, hd]
      rfl
    have hstep := hr.step hk hex
    rw [runNode_ideal hF hk hr hex] at hstep
    have := retainNodes_ideal hF hrest hstep h
    rwa [Nat.add_assoc, Nat.add_comm 1] at this

/-- What every host returns: the input that the output is, or the storage of its
meaning. -/
def OperationGraph.idealOutput (graph : OperationGraph) (F : PrepareFunction)
    (inputs : List Bytes) : Option Bytes :=
  match graph.output with
  | .input i => inputs[i]?
  | .nodeOutput _ _ => (graph.facts graph.output).map fun f =>
    f.layout (graph.denote (idealEngine F) ⟨false⟩ (inputs.map ByteView.fromBoxed) graph.output)

theorem inputMeaning_congr {inputs' : List ByteView}
    (h : inputs.map ByteView.bytes = inputs'.map ByteView.bytes) :
    inputMeaning graph inputs = inputMeaning graph inputs' := by
  funext v
  cases v with
  | nodeOutput n o => rfl
  | input i =>
    have hi : (inputs[i]?).map ByteView.bytes = (inputs'[i]?).map ByteView.bytes := by
      rw [← List.getElem?_map, ← List.getElem?_map, h]
    cases hd : graph.inputs[i]? with
    | none => simp only [inputMeaning, hd]
    | some d =>
      cases hv : inputs[i]? with
      | none =>
        rw [hv] at hi
        simp only [inputMeaning, hd, hv, Option.map_eq_none_iff.mp hi.symm]
      | some view =>
        rw [hv] at hi
        obtain ⟨view', hv', hbytes⟩ := Option.map_eq_some_iff.mp hi.symm
        simp only [inputMeaning, hd, hv, hv', hbytes]

/-- **Hosts agree**: what an execution returns does not depend on the host. -/
theorem executeHost_ideal (hF : Computes F host.preparation) {r : HostExecution}
    (h : graph.executeHost host inputs cancellation = .ok r) :
    graph.idealOutput F (inputs.map ByteView.bytes) = some r.output.bytes := by
  obtain ⟨bv, hret, hbv⟩ := executeHost_refines.ok h
  rw [hbv]
  obtain ⟨_, _, h⟩ := bind_ok hret
  obtain ⟨_, _, h⟩ := bind_ok h
  obtain ⟨⟨⟩, hvalid, h⟩ := bind_ok h
  obtain ⟨view, hnodes, h⟩ := bind_ok h
  obtain ⟨_, _, h⟩ := bind_ok h
  have hview := orFault_eq_ok.mp h
  have hrep := retainNodes_ideal hF (by simp) (represents_inputs (lift_eq_ok.mp hvalid)) hnodes
  have hsame : (inputs.map ByteView.bytes).map (ByteView.bytes ∘ ByteView.fromBoxed) =
      inputs.map ByteView.bytes := List.map_id _
  have hmeaning : inputMeaning graph ((inputs.map ByteView.bytes).map ByteView.fromBoxed) =
      inputMeaning graph inputs := inputMeaning_congr (by rw [List.map_map, hsame])
  unfold OperationGraph.idealOutput
  cases ho : graph.output with
  | input i =>
    rw [ho, hrep.given i] at hview
    show (inputs.map ByteView.bytes)[i]? = some bv.bytes
    rw [List.getElem?_map, hview]
    rfl
  | nodeOutput n o =>
    obtain ⟨f, hf⟩ : ∃ f, graph.facts graph.output = some f :=
      Option.isSome_iff_exists.mp graph.outputAvailable
    rw [ho] at hf hview
    dsimp only
    rw [hf, Option.map_some, OperationGraph.denote, hmeaning]
    exact congrArg some (hrep.output n o _ f hview hf).layout.symm

end Uniform

end ModelWeights.Graph
