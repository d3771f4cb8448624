import ModelWeights.Graph.Infer

/-! # Operation graphs and their builder

A builder and a finished graph carry the proof that every node's outputs are
what `infer_outputs` computes from the facts of inputs and of earlier nodes, so
a forward edge or an uninferred node cannot be represented. Deserialization
replays the builder. -/
namespace ModelWeights.Graph

def operationGraphSchemaVersion : Nat := 1

/-- An external input or one output of an earlier node. -/
inductive ValueRef where
  | input (input : Nat)
  | nodeOutput (node output : Nat)
  deriving DecidableEq, Repr

structure OperationInput where
  name : TensorName
  facts : TensorFacts
  deriving DecidableEq

structure OperationNode where
  implementation : ImplementationId
  inputs : List ValueRef
  operation : Operation
  outputs : List TensorFacts
  deriving DecidableEq

/-- Facts of a value, among the inputs and the nodes added so far. -/
def factsOf (inputs : List OperationInput) (nodes : List OperationNode) :
    ValueRef → Option TensorFacts
  | .input i => inputs[i]?.map OperationInput.facts
  | .nodeOutput n o => nodes[n]?.bind fun node => node.outputs[o]?

def inputFacts (inputs : List OperationInput) (nodes : List OperationNode)
    (values : List ValueRef) : Result (List TensorFacts) :=
  values.mapM fun value =>
    okOr (factsOf inputs nodes value) (.binding "operation references an unavailable value")

/-- `node` was inferred from the facts that were available before it. -/
def NodeInferred (inputs : List OperationInput) (earlier : List OperationNode)
    (node : OperationNode) : Prop :=
  ∃ facts, inputFacts inputs earlier node.inputs = .ok facts ∧
    inferOutputs node.operation facts = .ok node.outputs

def NodesInferred (inputs : List OperationInput) (nodes : List OperationNode) : Prop :=
  ∀ (k : Nat) (node : OperationNode), nodes[k]? = some node →
    NodeInferred inputs (nodes.take k) node

structure OperationGraphBuilder where
  inputs : List OperationInput
  nodes : List OperationNode
  namesNodup : (inputs.map OperationInput.name).Nodup
  inferred : NodesInferred inputs nodes

structure OperationGraph where
  schemaVersion : Nat
  inputs : List OperationInput
  nodes : List OperationNode
  output : ValueRef
  namesNodup : (inputs.map OperationInput.name).Nodup
  inferred : NodesInferred inputs nodes
  outputAvailable : (factsOf inputs nodes output).isSome

def OperationGraph.facts (g : OperationGraph) (value : ValueRef) : Option TensorFacts :=
  factsOf g.inputs g.nodes value

/-! ## Facts are stable as the graph grows -/

theorem factsOf_append {inputs : List OperationInput} {nodes : List OperationNode}
    {value : ValueRef} {f : TensorFacts} (more : List OperationInput)
    (rest : List OperationNode) (h : factsOf inputs nodes value = some f) :
    factsOf (inputs ++ more) (nodes ++ rest) value = some f := by
  cases value with
  | input i =>
    obtain ⟨x, hx, rfl⟩ := Option.map_eq_some_iff.mp h
    have hi := (List.getElem?_eq_some_iff.mp hx).1
    simp [factsOf, List.getElem?_append_left hi, hx]
  | nodeOutput n o =>
    obtain ⟨x, hx, hf⟩ := Option.bind_eq_some_iff.mp h
    have hi := (List.getElem?_eq_some_iff.mp hx).1
    simp [factsOf, List.getElem?_append_left hi, hx, hf]

theorem inputFacts_append {inputs : List OperationInput} {nodes : List OperationNode}
    {values : List ValueRef} {fs : List TensorFacts} (more : List OperationInput)
    (rest : List OperationNode) (h : inputFacts inputs nodes values = .ok fs) :
    inputFacts (inputs ++ more) (nodes ++ rest) values = .ok fs := by
  refine mapM_ok_congr (fun v f hv => ?_) h
  exact okOr_eq_ok.mpr (factsOf_append more rest (okOr_eq_ok.mp hv))

theorem nodesInferred_nil (inputs : List OperationInput) : NodesInferred inputs [] := by
  intro k node h; simp at h

theorem NodesInferred.addInput {inputs : List OperationInput} {nodes : List OperationNode}
    (h : NodesInferred inputs nodes) (input : OperationInput) :
    NodesInferred (inputs ++ [input]) nodes := by
  intro k node hk
  obtain ⟨fs, hf, ho⟩ := h k node hk
  exact ⟨fs, by simpa using inputFacts_append [input] [] hf, ho⟩

theorem NodesInferred.addNode {inputs : List OperationInput} {nodes : List OperationNode}
    {node : OperationNode} (h : NodesInferred inputs nodes)
    (hn : NodeInferred inputs nodes node) : NodesInferred inputs (nodes ++ [node]) := by
  intro k x hk
  rcases Nat.lt_trichotomy k nodes.length with hlt | heq | hgt
  · rw [List.getElem?_append_left hlt] at hk
    rw [List.take_append_of_le_length (by omega)]
    exact h k x hk
  · subst heq
    rw [List.getElem?_concat_length, Option.some.injEq] at hk
    rw [List.take_append_of_le_length (Nat.le_refl _), List.take_length, ← hk]
    exact hn
  · rw [List.getElem?_eq_none (by simp; omega)] at hk
    cases hk

/-! ## The builder -/

namespace OperationGraphBuilder

def new : OperationGraphBuilder := ⟨[], [], by simp, nodesInferred_nil _⟩

def facts (b : OperationGraphBuilder) (value : ValueRef) : Option TensorFacts :=
  factsOf b.inputs b.nodes value

def addInput (b : OperationGraphBuilder) (name : TensorName) (facts : TensorFacts) :
    Result (OperationGraphBuilder × ValueRef) :=
  if h : name ∈ b.inputs.map OperationInput.name then
    .error (.binding "operation graph contains a duplicate external input name")
  else if b.inputs.length ≥ 2 ^ 32 then
    .error (.limit "operation graph input count exceeds u32")
  else .ok (⟨b.inputs ++ [⟨name, facts⟩], b.nodes,
    by simpa [List.nodup_append, b.namesNodup] using h,
    b.inferred.addInput _⟩, .input b.inputs.length)

def addOperation (b : OperationGraphBuilder) (implementation : ImplementationId)
    (operation : Operation) (inputs : List ValueRef) :
    Result (OperationGraphBuilder × List ValueRef) :=
  match hf : inputFacts b.inputs b.nodes inputs with
  | .error e => .error e
  | .ok facts =>
    match ho : inferOutputs operation facts with
    | .error e => .error e
    | .ok outputs =>
      if b.nodes.length ≥ 2 ^ 32 then .error (.limit "operation graph node count exceeds u32")
      else if outputs.length ≥ 2 ^ 32 then
        .error (.limit "operation node output count exceeds u32")
      else .ok (⟨b.inputs, b.nodes ++ [⟨implementation, inputs, operation, outputs⟩], b.namesNodup,
          b.inferred.addNode ⟨facts, hf, ho⟩⟩,
        (List.range outputs.length).map (.nodeOutput b.nodes.length))

def build (b : OperationGraphBuilder) (output : ValueRef) : Result OperationGraph :=
  if h : (b.facts output).isSome then
    .ok ⟨operationGraphSchemaVersion, b.inputs, b.nodes, output, b.namesNodup, b.inferred, h⟩
  else .error (.binding "operation graph final output is unavailable")

end OperationGraphBuilder

/-! ## Deserialization -/

structure OperationNodeWire where
  implementation : ImplementationId
  inputs : List ValueRef
  operation : Operation

structure OperationGraphWire where
  schemaVersion : Nat
  inputs : List OperationInput
  nodes : List OperationNodeWire
  output : ValueRef

def OperationGraph.tryFrom (wire : OperationGraphWire) : Result OperationGraph :=
  if wire.schemaVersion ≠ operationGraphSchemaVersion then
    .error (.binding s!"unsupported operation graph schema version {wire.schemaVersion}")
  else do
    let builder ← wire.inputs.foldlM (fun (b : OperationGraphBuilder) input => do
      let (b, _) ← b.addInput input.name input.facts
      .ok b) .new
    let builder ← wire.nodes.foldlM (fun (b : OperationGraphBuilder) node => do
      let (b, _) ← b.addOperation node.implementation node.operation node.inputs
      .ok b) builder
    builder.build wire.output

/-! ## Aliases -/

/-- The input a node's output shares its bytes with, if it is a reshape or an
identity permutation that keeps all facts. -/
def OperationGraph.nodeOutputAliasInput (g : OperationGraph) (node : OperationNode)
    (outputIndex : Nat) : Option Nat :=
  if outputIndex ≠ 0 then none
  else match node.inputs, node.outputs with
    | [input], [outputFacts] =>
      match node.operation with
      | .reshape _ => some 0
      | .permute permute =>
        if isIdentityOrder permute.order ∧ g.facts input = some outputFacts then some 0 else none
      | _ => none
    | _, _ => none

end ModelWeights.Graph
