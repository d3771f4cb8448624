import ModelWeights.Plan.Validity

/-! # Deserialization replays the graph builder

A graph is serialized without the facts that were inferred for its nodes. Reading
it back adds its inputs and its nodes to a new builder, which infers the same
facts again. -/
namespace ModelWeights.Plan
open ModelWeights.Graph

/-! ## Operations -/

def permuteModeValid : PermuteMode → Bool
  | .logical => true
  | .storage targetLayout => targetLayout.valid

/-- The names in the parameters of an operation. -/
def operationValid : Operation → Bool
  | .permute permute => permuteModeValid permute.mode
  | .pad pad => pad.targetLayout.valid
  | .prepare transform => transform.valid
  | _ => true

def rangeConstructed (r : AxisRange) : Bool := (AxisRange.new r.start r.stop).isOk

/-- The checked constructors accept the parameters of an operation. -/
def operationConstructed : Operation → Bool
  | .permute permute => (Permute.new permute.order permute.mode).isOk
  | .pad pad => (Pad.storageZero pad.order pad.storageShape pad.targetLayout).isOk
  | .slice ranges => ranges.all rangeConstructed
  | .split split => split.ranges.all rangeConstructed && (Split.new split.axis split.ranges).isOk
  | _ => true

section Constructed

theorem rangeConstructed_of_valid {r : AxisRange} {d : Nat} (h : validateRange r d = .ok ()) :
    rangeConstructed r = true := by
  obtain ⟨hle, _⟩ := unless_error_ok h
  rw [not_or, Nat.not_lt] at hle
  unfold rangeConstructed AxisRange.new
  rw [if_neg (Nat.not_lt.mpr hle.1)]
  rfl

theorem sliceLoop_constructed : ∀ {ranges : List AxisRange} {shape out : List Nat},
    ranges.length = shape.length → sliceLoop ranges shape = .ok out →
    ranges.all rangeConstructed = true
  | [], _, _, _, _ => rfl
  | r :: ranges, d :: shape, out, hlen, h => by
    obtain ⟨_, hr, h⟩ := bind_ok h
    obtain ⟨rest, hrest, _⟩ := bind_ok h
    rw [List.all_cons, rangeConstructed_of_valid hr,
      sliceLoop_constructed (by simpa using hlen) hrest, Bool.and_self]

theorem inferSplitLoop_constructed {input : TensorFacts} {axis : Nat} :
    ∀ {previousEnd : Option Nat} {ranges : List AxisRange} {out : List TensorFacts},
    inferSplitLoop input axis previousEnd ranges = .ok out →
    ranges.all rangeConstructed = true ∧ splitLoop previousEnd ranges = .ok ()
  | _, [], _, _ => ⟨rfl, rfl⟩
  | previousEnd, r :: ranges, out, h => by
    obtain ⟨hempty, h⟩ := unless_error_ok h
    obtain ⟨_, hr, h⟩ := bind_ok h
    obtain ⟨horder, h⟩ := unless_error_ok h
    obtain ⟨_, _, h⟩ := bind_ok h
    obtain ⟨rest, hrest, _⟩ := bind_ok h
    obtain ⟨hall, hloop⟩ := inferSplitLoop_constructed hrest
    refine ⟨by rw [List.all_cons, rangeConstructed_of_valid hr, hall, Bool.and_self], ?_⟩
    rw [splitLoop, if_neg hempty, if_neg horder, hloop]

/-- Inference makes the checks of the constructors again. -/
theorem operationConstructed_of_infer {operation : Operation} {facts outputs : List TensorFacts}
    (h : inferOutputs operation facts = .ok outputs) : operationConstructed operation = true := by
  cases operation with
  | concat axis => rfl
  | reshape shape => rfl
  | prepare transform => rfl
  | permute permute =>
    obtain ⟨input, _, h⟩ := bind_ok h
    obtain ⟨_, hperm, _⟩ := bind_ok h
    rw [operationConstructed, Permute.new, hperm]
    rfl
  | pad pad =>
    obtain ⟨input, _, h⟩ := bind_ok h
    obtain ⟨_, hperm, h⟩ := bind_ok h
    obtain ⟨hrank, _⟩ := unless_error_ok h
    rw [not_or, not_not, not_not] at hrank
    rw [operationConstructed, Pad.storageZero, hperm]
    show Except.isOk (if _ ≠ _ then _ else _) = true
    rw [if_neg (not_not.mpr (hrank.1.trans hrank.2.symm))]
    rfl
  | slice ranges =>
    obtain ⟨input, _, h⟩ := bind_ok h
    obtain ⟨hlen, h⟩ := unless_error_ok h
    obtain ⟨shape, hshape, _⟩ := bind_ok h
    exact sliceLoop_constructed (not_not.mp hlen) hshape
  | split split =>
    obtain ⟨input, _, h⟩ := bind_ok h
    obtain ⟨axis, _, h⟩ := bind_ok h
    obtain ⟨out, hout, h⟩ := bind_ok h
    obtain ⟨hne, _⟩ := unless_error_ok h
    obtain ⟨hall, hloop⟩ := inferSplitLoop_constructed hout
    have hranges : split.ranges ≠ [] := by
      intro hnil
      rw [hnil] at hout
      exact hne (Except.ok.inj hout).symm
    rw [operationConstructed, hall, Split.new, if_neg hranges, hloop]
    rfl

end Constructed

/-! ## Graphs that builders make -/

/-- A builder that was filled with valid parts. -/
inductive BuilderMade : OperationGraphBuilder → Prop where
  | new : BuilderMade .new
  | addInput {b b' : OperationGraphBuilder} {name : TensorName} {facts : TensorFacts}
    {value : ValueRef} (h : BuilderMade b) (hname : name.valid = true)
    (hfacts : facts.representation.valid = true) (hadd : b.addInput name facts = .ok (b', value)) :
    BuilderMade b'
  | addOperation {b b' : OperationGraphBuilder} {implementation : ImplementationId}
    {operation : Operation} {inputs values : List ValueRef} (h : BuilderMade b)
    (himplementation : implementation.valid = true) (hvalid : operationValid operation = true)
    (hconstructed : operationConstructed operation = true)
    (hadd : b.addOperation implementation operation inputs = .ok (b', values)) : BuilderMade b'

def GraphMade (g : OperationGraph) : Prop := ∃ b, BuilderMade b ∧ b.build g.output = .ok g

/-- What a builder guarantees about its parts. -/
structure Bounded (inputs : List OperationInput) (nodes : List OperationNode) : Prop where
  inputCount : inputs.length ≤ 2 ^ 32
  nodeCount : nodes.length ≤ 2 ^ 32
  outputCount : ∀ node ∈ nodes, node.outputs.length < 2 ^ 32
  inputsValid : ∀ input ∈ inputs, input.name.valid = true ∧
    input.facts.representation.valid = true
  nodesValid : ∀ node ∈ nodes, node.implementation.valid = true ∧
    operationValid node.operation = true

theorem addInput_ok {b b' : OperationGraphBuilder} {name : TensorName} {facts : TensorFacts}
    {value : ValueRef} (h : b.addInput name facts = .ok (b', value)) :
    name ∉ b.inputs.map OperationInput.name ∧ b.inputs.length < 2 ^ 32 ∧
      b'.inputs = b.inputs ++ [⟨name, facts⟩] ∧ b'.nodes = b.nodes := by
  unfold OperationGraphBuilder.addInput at h
  split at h
  · cases h
  · next hnew =>
    obtain ⟨hlen, h⟩ := unless_error_ok h
    obtain ⟨rfl, _⟩ := Prod.mk.inj (Except.ok.inj h)
    exact ⟨hnew, Nat.not_le.mp hlen, rfl, rfl⟩

theorem addOperation_ok {b b' : OperationGraphBuilder} {implementation : ImplementationId}
    {operation : Operation} {inputs values : List ValueRef}
    (h : b.addOperation implementation operation inputs = .ok (b', values)) :
    ∃ facts outputs, inputFacts b.inputs b.nodes inputs = .ok facts ∧
      inferOutputs operation facts = .ok outputs ∧ b.nodes.length < 2 ^ 32 ∧
      outputs.length < 2 ^ 32 ∧ b'.inputs = b.inputs ∧
      b'.nodes = b.nodes ++ [⟨implementation, inputs, operation, outputs⟩] := by
  unfold OperationGraphBuilder.addOperation at h
  split at h
  · cases h
  · next facts hfacts =>
    split at h
    · cases h
    · next outputs houtputs =>
      obtain ⟨hnodes, h⟩ := unless_error_ok h
      obtain ⟨hout, h⟩ := unless_error_ok h
      obtain ⟨rfl, _⟩ := Prod.mk.inj (Except.ok.inj h)
      exact ⟨facts, outputs, hfacts, houtputs, Nat.not_le.mp hnodes, Nat.not_le.mp hout, rfl, rfl⟩

theorem BuilderMade.bounded {b : OperationGraphBuilder} (h : BuilderMade b) :
    Bounded b.inputs b.nodes := by
  induction h with
  | new => exact ⟨by decide, by decide, by simp [OperationGraphBuilder.new],
      by simp [OperationGraphBuilder.new], by simp [OperationGraphBuilder.new]⟩
  | addInput h hname hfacts hadd ih =>
    obtain ⟨_, hlen, hinputs, hnodes⟩ := addInput_ok hadd
    rw [hinputs, hnodes]
    refine ⟨?_, ih.nodeCount, ih.outputCount, fun input hi => ?_, ih.nodesValid⟩
    · rw [List.length_append, List.length_singleton]
      exact hlen
    · rcases List.mem_append.mp hi with hi | hi
      · exact ih.inputsValid input hi
      · obtain rfl := List.mem_singleton.mp hi
        exact ⟨hname, hfacts⟩
  | addOperation h himpl hvalid _ hadd ih =>
    obtain ⟨facts, outputs, _, _, hlen, hout, hinputs, hnodes⟩ := addOperation_ok hadd
    rw [hinputs, hnodes]
    refine ⟨ih.inputCount, ?_, fun node hn => ?_, ih.inputsValid, fun node hn => ?_⟩
    · rw [List.length_append, List.length_singleton]
      exact hlen
    · rcases List.mem_append.mp hn with hn | hn
      · exact ih.outputCount node hn
      · obtain rfl := List.mem_singleton.mp hn
        exact hout
    · rcases List.mem_append.mp hn with hn | hn
      · exact ih.nodesValid node hn
      · obtain rfl := List.mem_singleton.mp hn
        exact ⟨himpl, hvalid⟩

/-! ## Replay -/

/-- The steps that `OperationGraph::try_from` repeats. -/
def replayInput (b : OperationGraphBuilder) (input : OperationInput) :
    Result OperationGraphBuilder := do
  let (b, _) ← b.addInput input.name input.facts
  .ok b

def replayNode (b : OperationGraphBuilder) (node : OperationNodeWire) :
    Result OperationGraphBuilder := do
  let (b, _) ← b.addOperation node.implementation node.operation node.inputs
  .ok b

def nodeWire (node : OperationNode) : OperationNodeWire :=
  ⟨node.implementation, node.inputs, node.operation⟩

def graphWire (g : OperationGraph) : OperationGraphWire :=
  ⟨g.schemaVersion, g.inputs, g.nodes.map nodeWire, g.output⟩

theorem replayInputs_ok : ∀ {l : List OperationInput} {b : OperationGraphBuilder},
    ((b.inputs ++ l).map OperationInput.name).Nodup → b.inputs.length + l.length ≤ 2 ^ 32 →
    ∃ b', l.foldlM replayInput b = .ok b' ∧ b'.inputs = b.inputs ++ l ∧ b'.nodes = b.nodes
  | [], b, _, _ => ⟨b, rfl, (List.append_nil _).symm, rfl⟩
  | input :: l, b, hn, hlen => by
    have hnew : input.name ∉ b.inputs.map OperationInput.name := by
      rw [List.map_append, List.nodup_append] at hn
      exact fun h => hn.2.2 _ h _ (List.mem_map.mpr ⟨input, List.mem_cons_self .., rfl⟩) rfl
    have hcount : ¬b.inputs.length ≥ 2 ^ 32 := by
      rw [List.length_cons] at hlen
      omega
    obtain ⟨b₁, value, hadd⟩ : ∃ b₁ value, b.addInput input.name input.facts = .ok (b₁, value) := by
      unfold OperationGraphBuilder.addInput
      rw [dif_neg hnew, if_neg hcount]
      exact ⟨_, _, rfl⟩
    obtain ⟨_, _, hinputs, hnodes⟩ := addInput_ok hadd
    have happend : b₁.inputs ++ l = b.inputs ++ input :: l := by
      rw [hinputs, List.append_assoc]
      rfl
    obtain ⟨b', hb', hi, hnd⟩ := @replayInputs_ok l b₁ (by rw [happend]; exact hn) (by
      rw [hinputs, List.length_append, List.length_singleton]
      rw [List.length_cons] at hlen
      omega)
    refine ⟨b', ?_, hi.trans happend, hnd.trans hnodes⟩
    rw [List.foldlM_cons, replayInput, hadd]
    exact hb'

theorem replayNodes_ok {inputs : List OperationInput} {nodes : List OperationNode}
    (hinferred : NodesInferred inputs nodes) (hbound : Bounded inputs nodes) :
    ∀ {rest : List OperationNode} {b : OperationGraphBuilder}, b.inputs = inputs →
      b.nodes ++ rest = nodes →
      ∃ b', (rest.map nodeWire).foldlM replayNode b = .ok b' ∧ b'.inputs = inputs ∧ b'.nodes = nodes
  | [], b, hi, hn => ⟨b, rfl, hi, (List.append_nil _).symm.trans hn⟩
  | node :: rest, b, hi, hn => by
    have hget : nodes[b.nodes.length]? = some node := by
      rw [← hn, List.getElem?_append_right (Nat.le_refl _), Nat.sub_self]
      rfl
    have htake : nodes.take b.nodes.length = b.nodes := by
      rw [← hn, List.take_left]
    have hlt : b.nodes.length < nodes.length := (List.getElem?_eq_some_iff.mp hget).1
    obtain ⟨facts, hfacts, houtputs⟩ := hinferred _ node hget
    rw [htake, ← hi] at hfacts
    have hcount := hbound.nodeCount
    have hout := hbound.outputCount node (List.mem_of_getElem? hget)
    obtain ⟨b₁, values, hadd⟩ : ∃ b₁ values,
        b.addOperation node.implementation node.operation node.inputs = .ok (b₁, values) := by
      unfold OperationGraphBuilder.addOperation
      split
      · next e he => rw [hfacts] at he; cases he
      · next facts' he =>
        obtain rfl : facts = facts' := Except.ok.inj (hfacts.symm.trans he)
        split
        · next e ho => rw [houtputs] at ho; cases ho
        · next outputs ho =>
          obtain rfl : node.outputs = outputs := Except.ok.inj (houtputs.symm.trans ho)
          rw [if_neg (by omega), if_neg (by omega)]
          exact ⟨_, _, rfl⟩
    obtain ⟨facts', outputs, hfacts', houtputs', _, _, hinputs, hnodes⟩ := addOperation_ok hadd
    obtain rfl : facts = facts' := Except.ok.inj (hfacts.symm.trans hfacts')
    obtain rfl : node.outputs = outputs := Except.ok.inj (houtputs.symm.trans houtputs')
    obtain ⟨b', hb', hi', hn'⟩ := @replayNodes_ok inputs nodes hinferred hbound rest b₁
      (hinputs.trans hi) (by rw [hnodes, List.append_assoc]; exact hn)
    refine ⟨b', ?_, hi', hn'⟩
    rw [List.map_cons, List.foldlM_cons, replayNode, nodeWire, hadd]
    exact hb'

/-- **A graph that was built is read back.** -/
theorem tryFrom_graphWire {g : OperationGraph} (h : GraphMade g) :
    OperationGraph.tryFrom (graphWire g) = .ok g := by
  obtain ⟨b, hmade, hbuild⟩ := h
  have hbound := hmade.bounded
  unfold OperationGraphBuilder.build at hbuild
  split at hbuild
  · next havailable =>
    have hg := Except.ok.inj hbuild
    have hversion : g.schemaVersion = operationGraphSchemaVersion := by rw [← hg]
    have hinputs : g.inputs = b.inputs := by rw [← hg]
    have hnodes : g.nodes = b.nodes := by rw [← hg]
    rw [← hinputs, ← hnodes] at hbound
    obtain ⟨b₁, hb₁, hi₁, hn₁⟩ := @replayInputs_ok g.inputs .new
      (by simpa [OperationGraphBuilder.new] using g.namesNodup)
      (by simpa [OperationGraphBuilder.new] using hbound.inputCount)
    obtain ⟨b₂, hb₂, hi₂, hn₂⟩ := @replayNodes_ok g.inputs g.nodes g.inferred hbound g.nodes b₁
      (by rw [hi₁]; rfl) (by rw [hn₁]; rfl)
    unfold OperationGraph.tryFrom
    have hwire : ¬(graphWire g).schemaVersion ≠ operationGraphSchemaVersion := not_not.mpr hversion
    rw [if_neg hwire]
    show (g.inputs.foldlM replayInput .new >>= fun b =>
      (g.nodes.map nodeWire).foldlM replayNode b >>= fun b => b.build g.output) = _
    rw [hb₁]
    show ((g.nodes.map nodeWire).foldlM replayNode b₁ >>= _) = _
    rw [hb₂]
    show b₂.build g.output = _
    unfold OperationGraphBuilder.build
    have hsome : (b₂.facts g.output).isSome = true := by
      rw [OperationGraphBuilder.facts, hi₂, hn₂]
      exact g.outputAvailable
    rw [dif_pos hsome]
    obtain ⟨inputs₂, nodes₂, _, _⟩ := b₂
    obtain ⟨version, inputs, nodes, output, _, _, _⟩ := g
    simp only at hi₂ hn₂ hversion
    subst hi₂ hn₂ hversion
    rfl
  · cases hbuild

/-- What is read back was built. -/
theorem made_of_tryFrom {wire : OperationGraphWire} {g : OperationGraph}
    (hinputs : ∀ input ∈ wire.inputs, input.name.valid = true ∧
      input.facts.representation.valid = true)
    (hnodes : ∀ node ∈ wire.nodes, node.implementation.valid = true ∧
      operationValid node.operation = true)
    (h : OperationGraph.tryFrom wire = .ok g) : GraphMade g := by
  obtain ⟨_, h⟩ := unless_error_ok h
  obtain ⟨b₁, h₁, h⟩ := bind_ok h
  obtain ⟨b₂, h₂, h⟩ := bind_ok h
  have hmade₁ : BuilderMade b₁ := by
    refine foldlM_ok (fun _ b => BuilderMade b) .new ?_ h₁
    intro k input x y hk hx hxy
    obtain ⟨⟨b', value⟩, hadd, hy⟩ := bind_ok hxy
    obtain rfl := Except.ok.inj hy
    obtain ⟨hname, hfacts⟩ := hinputs input (List.mem_of_getElem? hk)
    exact .addInput hx hname hfacts hadd
  have hmade₂ : BuilderMade b₂ := by
    refine foldlM_ok (fun _ b => BuilderMade b) hmade₁ ?_ h₂
    intro k node x y hk hx hxy
    obtain ⟨⟨b', values⟩, hadd, hy⟩ := bind_ok hxy
    obtain rfl := Except.ok.inj hy
    obtain ⟨himpl, hvalid⟩ := hnodes node (List.mem_of_getElem? hk)
    obtain ⟨_, _, _, hinfer, _⟩ := addOperation_ok hadd
    exact .addOperation hx himpl hvalid (operationConstructed_of_infer hinfer) hadd
  refine ⟨b₂, hmade₂, ?_⟩
  have hout : g.output = wire.output := by
    unfold OperationGraphBuilder.build at h
    split at h
    · rw [← Except.ok.inj h]
    · cases h
  rw [hout]
  exact h

end ModelWeights.Plan
