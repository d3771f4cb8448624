import ModelWeights.Graph.InferSpec
import ModelWeights.Graph.Traps
import ModelWeights.Plan.Codec

/-! # Graphs from untrusted documents

What a graph guarantees however it was made, and that reading a document reaches
no partial step. A document's `Permute`, `Pad`, `Slice` and `Split` parameters
have passed no constructor; inference is what makes them sound. -/
namespace ModelWeights.Plan
open ModelWeights.Graph Trap

/-! ## What inference says about the parameters -/

/-- The parameters of an operation fit the facts of its inputs. -/
def ParametersFit : Operation → List TensorFacts → Prop
  | .concat axis, inputs => 2 ≤ inputs.length ∧ ∀ f ∈ inputs, axis < f.logicalShape.length
  | .permute permute, inputs =>
    ∃ f, inputs = [f] ∧ permute.order.Perm (List.range f.logicalShape.length)
  | .pad pad, inputs =>
    ∃ f, inputs = [f] ∧ pad.order.Perm (List.range f.logicalShape.length) ∧
      List.Forall₂ (fun axis physical => f.logicalShape.getD axis 0 ≤ physical) pad.order
        pad.storageShape
  | .slice ranges, inputs =>
    ∃ f, inputs = [f] ∧
      List.Forall₂ (fun r dimension => r.start ≤ r.stop ∧ r.stop ≤ dimension) ranges f.logicalShape
  | .split split, inputs =>
    ∃ f, inputs = [f] ∧ split.axis < f.logicalShape.length ∧ split.ranges ≠ [] ∧
      (∀ r ∈ split.ranges, r.start < r.stop ∧ r.stop ≤ f.logicalShape.getD split.axis 0) ∧
      split.ranges.Pairwise fun r r' => r.stop ≤ r'.start
  | .reshape shape, inputs => ∃ f, inputs = [f] ∧ shape.prod = f.logicalShape.prod
  | .prepare transform, inputs => ∃ f, inputs = [f] ∧ transform.transform.source = f.representation

section Parameters
variable {f : TensorFacts} {outputs : List TensorFacts}

theorem oneInput_ok {inputs : List TensorFacts} (h : oneInput inputs = .ok f) : inputs = [f] := by
  unfold oneInput at h
  split at h
  · rw [Except.ok.inj h]
  · cases h

theorem concat_fits {axis : Nat} {inputs : List TensorFacts}
    (h : inferConcat axis inputs = .ok outputs) : ParametersFit (.concat axis) inputs := by
  unfold inferConcat at h
  split at h
  · next first second rest =>
    obtain ⟨axis', haxis, h⟩ := bind_ok h
    obtain ⟨hlt, haxis⟩ := unless_error_ok haxis
    obtain rfl := Except.ok.inj haxis
    obtain ⟨length, hlength, _⟩ := bind_ok h
    refine ⟨by simp, fun f hf => ?_⟩
    rw [((concatLoop_ok hlength).2 f hf).1]
    exact Nat.not_le.mp hlt
  · cases h

/-- The check of the loop of `infer_pad`, axis by axis. -/
theorem padded_of_any : ∀ {order storageShape : List Nat}, order.length = storageShape.length →
    ((permuteShape order f.logicalShape).zip storageShape).any (fun x => x.2 < x.1) ≠ true →
    List.Forall₂ (fun axis physical => f.logicalShape.getD axis 0 ≤ physical) order storageShape
  | [], [], _, _ => .nil
  | axis :: order, physical :: storageShape, hlen, h => by
    rw [permuteShape, List.map_cons, List.zip_cons_cons, List.any_cons, ne_eq, Bool.or_eq_true,
      not_or, decide_eq_true_iff, Nat.not_lt] at h
    exact .cons h.1 (padded_of_any (Nat.succ.inj hlen) h.2)

theorem pad_fits {pad : Pad} (h : inferPad pad f = .ok outputs) : ParametersFit (.pad pad) [f] := by
  obtain ⟨_, hvalid, h⟩ := bind_ok h
  obtain ⟨hrank, h⟩ := unless_error_ok h
  obtain ⟨_, h⟩ := unless_error_ok h
  obtain ⟨order, horder, h⟩ := bind_ok h
  obtain rfl := Except.ok.inj horder
  obtain ⟨hsmall, _⟩ := unless_error_ok h
  rw [not_or, not_not, not_not] at hrank
  refine ⟨f, rfl, ?_, padded_of_any (hrank.1.trans hrank.2.symm) hsmall⟩
  rw [← hrank.1]
  exact (validatePermutation_ok hvalid).2

theorem ranges_of_sliceLoop : ∀ {ranges : List AxisRange} {shape out : List Nat},
    ranges.length = shape.length → sliceLoop ranges shape = .ok out →
    List.Forall₂ (fun r dimension => r.start ≤ r.stop ∧ r.stop ≤ dimension) ranges shape
  | [], [], _, _, _ => .nil
  | r :: ranges, d :: shape, out, hlen, h => by
    obtain ⟨_, hr, h⟩ := bind_ok h
    obtain ⟨rest, hrest, _⟩ := bind_ok h
    obtain ⟨hin, _⟩ := unless_error_ok hr
    rw [not_or, Nat.not_lt, Nat.not_lt] at hin
    exact .cons hin (ranges_of_sliceLoop (Nat.succ.inj hlen) hrest)

theorem slice_fits {ranges : List AxisRange} (h : inferSlice ranges f = .ok outputs) :
    ParametersFit (.slice ranges) [f] := by
  obtain ⟨hlen, h⟩ := unless_error_ok h
  obtain ⟨shape, hshape, _⟩ := bind_ok h
  exact ⟨f, rfl, ranges_of_sliceLoop (not_not.mp hlen) hshape⟩

/-- Ranges that are ordered one after the other are pairwise ordered, since none is empty. -/
theorem ranges_of_splitLoop {axis : Nat} : ∀ {ranges : List AxisRange} {previousEnd : Option Nat}
    {outputs : List TensorFacts}, inferSplitLoop f axis previousEnd ranges = .ok outputs →
    (∀ r ∈ ranges, r.start < r.stop ∧ r.stop ≤ f.logicalShape.getD axis 0 ∧
      ∀ stop, previousEnd = some stop → stop ≤ r.start) ∧
      ranges.Pairwise fun r r' => r.stop ≤ r'.start
  | [], _, _, _ => ⟨fun r hr => (List.not_mem_nil hr).elim, .nil⟩
  | range :: ranges, previousEnd, outputs, h => by
    obtain ⟨hempty, h⟩ := unless_error_ok h
    obtain ⟨_, hrange, h⟩ := bind_ok h
    obtain ⟨horder, h⟩ := unless_error_ok h
    obtain ⟨_, _, h⟩ := bind_ok h
    obtain ⟨rest, hrest, _⟩ := bind_ok h
    obtain ⟨hin, _⟩ := unless_error_ok hrange
    rw [not_or, Nat.not_lt, Nat.not_lt] at hin
    have hlt : range.start < range.stop :=
      Nat.lt_of_le_of_ne hin.1 fun heq => hempty (beq_iff_eq.mpr heq)
    have hprevious : ∀ stop, previousEnd = some stop → stop ≤ range.start := by
      intro stop hs
      rw [hs, Option.any_some, decide_eq_true_iff, Nat.not_lt] at horder
      exact horder
    obtain ⟨hall, hpair⟩ := ranges_of_splitLoop hrest
    refine ⟨fun r hr => ?_, .cons (fun r hr => (hall r hr).2.2 _ rfl) hpair⟩
    rcases List.mem_cons.mp hr with rfl | hr
    · exact ⟨hlt, hin.2, hprevious⟩
    · obtain ⟨hr₁, hr₂, hr₃⟩ := hall r hr
      refine ⟨hr₁, hr₂, fun stop hs => ?_⟩
      have hnext := hr₃ _ rfl
      have hfirst := hprevious stop hs
      omega

theorem split_fits {split : Split} (h : inferSplit split f = .ok outputs) :
    ParametersFit (.split split) [f] := by
  obtain ⟨axis, haxis, h⟩ := bind_ok h
  obtain ⟨hlt, haxis⟩ := unless_error_ok haxis
  obtain rfl := Except.ok.inj haxis
  obtain ⟨out, hout, h⟩ := bind_ok h
  obtain ⟨hne, _⟩ := unless_error_ok h
  obtain ⟨hall, hpair⟩ := ranges_of_splitLoop hout
  refine ⟨f, rfl, Nat.not_le.mp hlt, fun hnil => ?_, fun r hr => ?_, hpair⟩
  · rw [hnil] at hout
    exact hne (Except.ok.inj hout).symm
  · exact ⟨(hall r hr).1, (hall r hr).2.1⟩

/-- Inference accepts no parameters that do not fit. -/
theorem parametersFit_of_infer {operation : Operation} {inputs : List TensorFacts}
    (h : inferOutputs operation inputs = .ok outputs) : ParametersFit operation inputs := by
  cases operation with
  | concat axis => exact concat_fits h
  | permute permute =>
    obtain ⟨f, hf, h⟩ := bind_ok h
    obtain ⟨o, _, hp⟩ := inferPermute_ok h
    refine ⟨f, oneInput_ok hf, ?_⟩
    rw [← hp.rank]
    exact (validatePermutation_ok hp.valid).2
  | pad pad =>
    obtain ⟨f, hf, h⟩ := bind_ok h
    rw [oneInput_ok hf]
    exact pad_fits h
  | slice ranges =>
    obtain ⟨f, hf, h⟩ := bind_ok h
    rw [oneInput_ok hf]
    exact slice_fits h
  | split split =>
    obtain ⟨f, hf, h⟩ := bind_ok h
    rw [oneInput_ok hf]
    exact split_fits h
  | reshape shape =>
    obtain ⟨f, hf, h⟩ := bind_ok h
    obtain ⟨_, _, _, _, _, _, hprod, _⟩ := inferReshape_ok h
    exact ⟨f, oneInput_ok hf, hprod⟩
  | prepare transform =>
    obtain ⟨f, hf, h⟩ := bind_ok h
    obtain ⟨_, h⟩ := unless_error_ok h
    obtain ⟨hsource, _⟩ := unless_error_ok h
    exact ⟨f, oneInput_ok hf, not_not.mp hsource⟩

/-- No operation can do without an input. -/
theorem inputs_ne_nil_of_infer {operation : Operation} {inputs : List TensorFacts}
    (h : inferOutputs operation inputs = .ok outputs) : inputs ≠ [] := by
  intro hnil
  have hfit := parametersFit_of_infer h
  rw [hnil] at hfit
  cases operation with
  | concat axis => exact absurd hfit.1 (by decide)
  | _ =>
    obtain ⟨f, hf, _⟩ := hfit
    cases hf

end Parameters

/-! ## What every graph guarantees -/

/-- The value is an input, or an output of one of the first `k` nodes. -/
def Earlier (g : OperationGraph) (k : Nat) : ValueRef → Prop
  | .input i => i < g.inputs.length
  | .nodeOutput n o => n < k ∧ ∃ node, g.nodes[n]? = some node ∧ o < node.outputs.length

/-- The invariants of a graph that its builder and the constructors of its parts enforce. -/
structure Admitted (g : OperationGraph) : Prop where
  schema : g.schemaVersion = operationGraphSchemaVersion
  inputs : g.inputs ≠ []
  names : (g.inputs.map OperationInput.name).Nodup
  output : Earlier g g.nodes.length g.output
  reads : ∀ (k : Nat) (node : OperationNode), g.nodes[k]? = some node →
    ∀ value ∈ node.inputs, Earlier g k value
  inferred : ∀ (k : Nat) (node : OperationNode), g.nodes[k]? = some node →
    ∃ facts, inputFacts g.inputs (g.nodes.take k) node.inputs = .ok facts ∧
      inferOutputs node.operation facts = .ok node.outputs ∧ ParametersFit node.operation facts
  constructed : ∀ node ∈ g.nodes, operationConstructed node.operation = true

section Guarantees

theorem earlier_of_factsOf {g : OperationGraph} {k : Nat} {value : ValueRef}
    (h : (factsOf g.inputs (g.nodes.take k) value).isSome) : Earlier g k value := by
  obtain ⟨f, hf⟩ := Option.isSome_iff_exists.mp h
  cases value with
  | input i =>
    obtain ⟨x, hx, _⟩ := Option.map_eq_some_iff.mp hf
    exact (List.getElem?_eq_some_iff.mp hx).1
  | nodeOutput n o =>
    obtain ⟨node, hn, ho⟩ := Option.bind_eq_some_iff.mp hf
    rw [List.getElem?_take] at hn
    split at hn
    · next hlt => exact ⟨hlt, node, hn, (List.getElem?_eq_some_iff.mp ho).1⟩
    · cases hn

/-- A graph without inputs could not have an output. -/
theorem inputs_ne_nil (g : OperationGraph) : g.inputs ≠ [] := by
  intro hnil
  have hinferred := g.inferred
  have havailable := g.outputAvailable
  cases hnodes : g.nodes with
  | nil =>
    rw [hnil, hnodes] at havailable
    cases houtput : g.output with
    | input i => rw [houtput] at havailable; cases havailable
    | nodeOutput n o => rw [houtput] at havailable; cases havailable
  | cons node rest =>
    obtain ⟨facts, hfacts, houtputs⟩ := hinferred 0 node (by rw [hnodes]; rfl)
    rw [hnil, List.take_zero] at hfacts
    cases hins : node.inputs with
    | nil =>
      rw [hins] at hfacts
      exact inputs_ne_nil_of_infer houtputs (Except.ok.inj hfacts).symm
    | cons value values =>
      rw [hins] at hfacts
      obtain ⟨f, _, hf⟩ := forall₂_mem_left (mapM_ok_forall₂ hfacts) (List.mem_cons_self ..)
      cases value with
      | input i => cases hf
      | nodeOutput n o => cases hf

theorem admitted (g : OperationGraph) (h : g.schemaVersion = operationGraphSchemaVersion) :
    Admitted g where
  schema := h
  inputs := inputs_ne_nil g
  names := g.namesNodup
  output := earlier_of_factsOf (by rw [List.take_length]; exact g.outputAvailable)
  reads := by
    intro k node hnode value hvalue
    obtain ⟨facts, hfacts, _⟩ := g.inferred k node hnode
    obtain ⟨f, _, hf⟩ := forall₂_mem_left (mapM_ok_forall₂ hfacts) hvalue
    exact earlier_of_factsOf (Option.isSome_iff_exists.mpr ⟨f, okOr_eq_ok.mp hf⟩)
  inferred := by
    intro k node hnode
    obtain ⟨facts, hfacts, houtputs⟩ := g.inferred k node hnode
    exact ⟨facts, hfacts, houtputs, parametersFit_of_infer houtputs⟩
  constructed := by
    intro node hnode
    obtain ⟨k, hk⟩ := List.getElem?_of_mem hnode
    obtain ⟨facts, _, houtputs⟩ := g.inferred k node hk
    exact operationConstructed_of_infer houtputs

end Guarantees

/-! ## Reading a document -/

def TensorFactsWire.read (w : TensorFactsWire) : Run Unit TensorFacts :=
  if w.representation.valid then
    hide (Traps.newFacts w.logicalShape w.storageShape w.logicalStrides w.storageStrides
      w.representation w.byteLen)
  else settle (.error ())

def OperationInputDocument.read (d : OperationInputDocument) : Run Unit OperationInput := do
  let facts ← d.facts.read
  if d.name.valid then pure ⟨d.name, facts⟩ else settle (.error ())

/-- Deserialization of a graph with the partial steps of the source. -/
def OperationGraphDocument.read (d : OperationGraphDocument) : Run Unit OperationGraph := do
  let inputs ← d.inputs.mapM OperationInputDocument.read
  if d.nodes.all nodeValid then hide (Traps.tryFrom ⟨d.schemaVersion, inputs, d.nodes, d.output⟩)
  else settle (.error ())

/-- A document is accepted with a value, or rejected. -/
def accepted {α : Type} : Option α → Except Unit α
  | some a => .ok a
  | none => .error ()

section Reading
variable {α β : Type}

theorem accepted_toOption {ε : Type} (r : Except ε α) :
    accepted r.toOption = r.mapError fun _ => () := by
  cases r <;> rfl

theorem accepted_bind (o : Option α) (f : α → Option β) :
    accepted (o >>= f) = accepted o >>= fun a => accepted (f a) := by
  cases o <;> rfl

theorem accepted_mapM (f : α → Option β) : ∀ l : List α,
    accepted (l.mapM f) = l.mapM fun a => accepted (f a)
  | [] => rfl
  | a :: l => by
    rw [List.mapM_cons, List.mapM_cons, accepted_bind, ← accepted_mapM f l]
    refine bind_congr fun b => ?_
    rw [accepted_bind]
    rfl

theorem TensorFactsWire.read_settles (w : TensorFactsWire) : Settles w.read (accepted w.decode) := by
  unfold read decode
  split
  · rw [accepted_toOption]
    exact Settles.of_hide (Traps.newFacts_settles _ _ _ _ _ _)
  · exact Settles.of_settle _

theorem OperationInputDocument.read_settles (d : OperationInputDocument) :
    Settles d.read (accepted d.decode) := by
  unfold read decode
  rw [accepted_bind]
  refine Settles.bind d.facts.read_settles fun facts _ => ?_
  split
  · exact Settles.of_pure _
  · exact Settles.of_settle _

theorem OperationGraphDocument.read_settles (d : OperationGraphDocument) :
    Settles d.read (accepted d.decode) := by
  unfold read decode
  rw [accepted_bind, accepted_mapM]
  refine Settles.bind (Settles.of_mapM fun input _ => input.read_settles) fun inputs _ => ?_
  split
  · rw [accepted_toOption]
    exact Settles.of_hide (Traps.tryFrom_settles _)
  · exact Settles.of_settle _

theorem OperationGraphDocument.schema_of_decode {d : OperationGraphDocument} {g : OperationGraph}
    (h : d.decode = some g) : g.schemaVersion = operationGraphSchemaVersion := by
  obtain ⟨b, _, hbuild⟩ := d.made_of_decode h
  unfold OperationGraphBuilder.build at hbuild
  split at hbuild
  · rw [← Except.ok.inj hbuild]
  · cases hbuild

/-- **Reading a document never traps, and accepts only sound graphs.** It ends
with the graph that `decode` gives or rejects the document; an accepted graph
was made by a builder from constructed parts and has every invariant; and what a
builder has made is read back from its own document. -/
theorem OperationGraphDocument.read_total :
    (∀ d : OperationGraphDocument, d.read.run = some (accepted d.decode)) ∧
      (∀ (d : OperationGraphDocument) (g : OperationGraph), d.decode = some g →
        GraphMade g ∧ Admitted g) ∧
      ∀ g : OperationGraph, GraphMade g → (graphDocument g).decode = some g :=
  ⟨fun d => d.read_settles,
    fun d g h => ⟨d.made_of_decode h, admitted g (OperationGraphDocument.schema_of_decode h)⟩,
    fun _ h => graphDocument_decode h⟩

/-- A document with one node over a 2×3 input of bytes. -/
def sampleDocument (operation : Operation) : OperationGraphDocument where
  schemaVersion := operationGraphSchemaVersion
  inputs := [⟨⟨"weight"⟩, [2, 3], [2, 3], [3, 1], [3, 1], .contiguous .u8, 6⟩]
  nodes := [⟨⟨⟨"model-weights"⟩, ⟨"operation"⟩, 1⟩, [.input 0], operation⟩]
  output := .nodeOutput 0 0

/-- A transposition is accepted; a range that ends before it starts is rejected
before its length is taken. -/
theorem OperationGraphDocument.read_total_sample :
    (∃ g, (sampleDocument (.permute ⟨[1, 0], .logical⟩)).decode = some g ∧ Admitted g ∧
      (graphDocument g).decode = some g) ∧
      (sampleDocument (.slice [⟨5, 2⟩, ⟨0, 3⟩])).read.run = some (.error ()) := by
  obtain ⟨hread, hsound, hback⟩ := OperationGraphDocument.read_total
  have hdecode : (sampleDocument (.permute ⟨[1, 0], .logical⟩)).decode.isSome = true := by
    decide +kernel
  obtain ⟨g, hg⟩ := Option.isSome_iff_exists.mp hdecode
  obtain ⟨hmade, hadmitted⟩ := hsound _ g hg
  refine ⟨⟨g, hg, hadmitted, hback g hmade⟩, ?_⟩
  have hslice : (sampleDocument (.slice [⟨5, 2⟩, ⟨0, 3⟩])).decode.isNone = true := by
    decide +kernel
  rw [hread, Option.isNone_iff_eq_none.mp hslice]
  rfl

end Reading

end ModelWeights.Plan
