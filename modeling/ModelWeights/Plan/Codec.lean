import ModelWeights.Plan.Partition
import ModelWeights.Plan.Replay

/-! # Canonical plan documents

The data of a plan as its JSON holds it, and `BindingPlan::from_canonical_json`.
Printing and parsing JSON are parameters; what the wire types of the source do
with the parsed data is written out here. A descriptor whose wire type has the
same fields is its own document, and is decoded by its constructor. -/
namespace ModelWeights.Plan
open ModelWeights.Graph Canonical

/-! ## Lists of documents -/

theorem mapM_decode_eq {α β : Type} (decode : α → Option β) (document : β → α) :
    ∀ {l : List β}, (∀ b ∈ l, decode (document b) = some b) →
      (l.map document).mapM decode = some l
  | [], _ => rfl
  | b :: l, h => by
    rw [List.map_cons, List.mapM_cons, h b (List.mem_cons_self ..),
      mapM_decode_eq decode document fun c hc => h c (List.mem_cons_of_mem _ hc)]
    rfl

theorem mem_of_mapM_decode {α β : Type} {decode : α → Option β} :
    ∀ {l : List α} {out : List β}, l.mapM decode = some out →
      ∀ b ∈ out, ∃ a ∈ l, decode a = some b
  | [], out, h, b, hb => by
    obtain rfl := Option.some.inj h
    cases hb
  | a :: l, out, h, b, hb => by
    rw [List.mapM_cons] at h
    obtain ⟨x, hx, h⟩ := Option.bind_eq_some_iff.mp h
    obtain ⟨rest, hrest, h⟩ := Option.bind_eq_some_iff.mp h
    obtain rfl := Option.some.inj h
    rcases List.mem_cons.mp hb with rfl | hb
    · exact ⟨a, List.mem_cons_self .., hx⟩
    · obtain ⟨c, hc, hd⟩ := mem_of_mapM_decode hrest b hb
      exact ⟨c, List.mem_cons_of_mem _ hc, hd⟩

/-! ## Graphs -/

structure TensorFactsWire where
  logicalShape : List Nat
  storageShape : List Nat
  logicalStrides : List Nat
  storageStrides : List Nat
  representation : Representation
  byteLen : Nat

def TensorFactsWire.decode (w : TensorFactsWire) : Option TensorFacts :=
  if w.representation.valid then
    (TensorFacts.new w.logicalShape w.storageShape w.logicalStrides w.storageStrides
      w.representation w.byteLen).toOption
  else none

def factsWire (f : TensorFacts) : TensorFactsWire :=
  ⟨f.logicalShape, f.storageShape, f.logicalStrides, f.storageStrides, f.representation, f.byteLen⟩

structure OperationInputDocument where
  name : TensorName
  facts : TensorFactsWire

def OperationInputDocument.decode (d : OperationInputDocument) : Option OperationInput := do
  let facts ← d.facts.decode
  if d.name.valid then some ⟨d.name, facts⟩ else none

def inputDocument (input : OperationInput) : OperationInputDocument :=
  ⟨input.name, factsWire input.facts⟩

structure OperationGraphDocument where
  schemaVersion : Nat
  inputs : List OperationInputDocument
  nodes : List OperationNodeWire
  output : ValueRef

def nodeValid (node : OperationNodeWire) : Bool :=
  node.implementation.valid && operationValid node.operation

def OperationGraphDocument.decode (d : OperationGraphDocument) : Option OperationGraph := do
  let inputs ← d.inputs.mapM OperationInputDocument.decode
  if d.nodes.all nodeValid then
    (OperationGraph.tryFrom ⟨d.schemaVersion, inputs, d.nodes, d.output⟩).toOption
  else none

/-- A graph without the facts of its nodes. -/
def graphDocument (g : OperationGraph) : OperationGraphDocument :=
  ⟨g.schemaVersion, g.inputs.map inputDocument, g.nodes.map nodeWire, g.output⟩

section Graph

theorem factsWire_decode {f : TensorFacts} (h : f.representation.valid = true) :
    (factsWire f).decode = some f := by
  have hnew : TensorFacts.new f.logicalShape f.storageShape f.logicalStrides f.storageStrides
      f.representation f.byteLen = .ok f := by
    unfold TensorFacts.new
    split
    · rfl
    · next e he => rw [f.validated] at he; cases he
  rw [TensorFactsWire.decode, factsWire, if_pos h, hnew]
  rfl

theorem TensorFactsWire.valid_of_decode {w : TensorFactsWire} {f : TensorFacts}
    (h : w.decode = some f) : f.representation.valid = true := by
  unfold decode at h
  split at h
  · next hv =>
    have hnew := toOption_eq_some h
    unfold TensorFacts.new at hnew
    split at hnew
    · rw [← Except.ok.inj hnew]
      exact hv
    · cases hnew
  · cases h

theorem inputDocument_decode {input : OperationInput} (hname : input.name.valid = true)
    (hfacts : input.facts.representation.valid = true) :
    (inputDocument input).decode = some input := by
  rw [OperationInputDocument.decode, inputDocument, factsWire_decode hfacts]
  exact if_pos hname

theorem OperationInputDocument.valid_of_decode {d : OperationInputDocument}
    {input : OperationInput} (h : d.decode = some input) :
    input.name.valid = true ∧ input.facts.representation.valid = true := by
  obtain ⟨facts, hfacts, h⟩ := Option.bind_eq_some_iff.mp h
  split at h
  · next hname =>
    obtain rfl := Option.some.inj h
    exact ⟨hname, d.facts.valid_of_decode hfacts⟩
  · cases h

/-- A graph that was built is decoded from its document. -/
theorem graphDocument_decode {g : OperationGraph} (h : GraphMade g) :
    (graphDocument g).decode = some g := by
  have htry := tryFrom_graphWire h
  have hbound : Bounded g.inputs g.nodes := by
    obtain ⟨b, hmade, hbuild⟩ := h
    have hb := hmade.bounded
    unfold OperationGraphBuilder.build at hbuild
    split at hbuild
    · rw [← Except.ok.inj hbuild]
      exact hb
    · cases hbuild
  have hinputs : (g.inputs.map inputDocument).mapM OperationInputDocument.decode =
      some g.inputs := by
    refine mapM_decode_eq _ _ fun input hi => ?_
    obtain ⟨hname, hfacts⟩ := hbound.inputsValid input hi
    exact inputDocument_decode hname hfacts
  have hnodes : (g.nodes.map nodeWire).all nodeValid = true := by
    rw [List.all_map, List.all_eq_true]
    intro node hn
    obtain ⟨himpl, hop⟩ := hbound.nodesValid node hn
    exact Bool.and_eq_true_iff.mpr ⟨himpl, hop⟩
  rw [OperationGraphDocument.decode, graphDocument, hinputs]
  show (if (g.nodes.map nodeWire).all nodeValid = true then
    (OperationGraph.tryFrom (graphWire g)).toOption else none) = _
  rw [if_pos hnodes, htry]
  rfl

theorem OperationGraphDocument.made_of_decode {d : OperationGraphDocument} {g : OperationGraph}
    (h : d.decode = some g) : GraphMade g := by
  obtain ⟨inputs, hinputs, h⟩ := Option.bind_eq_some_iff.mp h
  split at h
  · next hnodes =>
    refine made_of_tryFrom (fun input hi => ?_) (fun node hn => ?_) (toOption_eq_some h)
    · obtain ⟨document, _, hd⟩ := mem_of_mapM_decode hinputs input hi
      exact document.valid_of_decode hd
    · exact Bool.and_eq_true_iff.mp (List.all_eq_true.mp hnodes node hn)
  · cases h

theorem inputDocument_injective : Function.Injective inputDocument := by
  intro a b h
  obtain ⟨name, ⟨_, _, _, _, _, _, _⟩⟩ := a
  obtain ⟨name', ⟨_, _, _, _, _, _, _⟩⟩ := b
  simp only [inputDocument, factsWire, OperationInputDocument.mk.injEq, TensorFactsWire.mk.injEq] at h
  obtain ⟨rfl, rfl, rfl, rfl, rfl, rfl, rfl⟩ := h
  rfl

/-- The facts of a node are inferred again from what precedes it. -/
theorem take_nodes_eq {inputs : List OperationInput} {nodes nodes' : List OperationNode}
    (h : NodesInferred inputs nodes) (h' : NodesInferred inputs nodes')
    (hwire : nodes.map nodeWire = nodes'.map nodeWire) : ∀ k, nodes.take k = nodes'.take k
  | 0 => rfl
  | k + 1 => by
    have ih := take_nodes_eq h h' hwire k
    have hk : nodes[k]?.map nodeWire = nodes'[k]?.map nodeWire := by
      rw [← List.getElem?_map, ← List.getElem?_map, hwire]
    rw [List.take_add_one, List.take_add_one, ih]
    cases hn : nodes[k]? with
    | none =>
      rw [hn] at hk
      rw [Option.map_eq_none_iff.mp hk.symm]
    | some node =>
      rw [hn] at hk
      obtain ⟨node', hn', he⟩ := Option.map_eq_some_iff.mp hk.symm
      obtain ⟨facts, hfacts, hout⟩ := h k node hn
      obtain ⟨facts', hfacts', hout'⟩ := h' k node' hn'
      obtain ⟨himpl, hins, hop⟩ := OperationNodeWire.mk.inj he
      rw [ih, ← hins] at hfacts
      obtain rfl := Except.ok.inj (hfacts.symm.trans hfacts')
      rw [← hop] at hout
      have houts := Except.ok.inj (hout.symm.trans hout')
      obtain rfl : node = node' := by
        cases node
        cases node'
        simp only [OperationNode.mk.injEq]
        exact ⟨himpl.symm, hins.symm, hop.symm, houts⟩
      rw [hn']

/-- Leaving out the inferred facts loses nothing. -/
theorem graphDocument_injective : Function.Injective graphDocument := by
  intro g g' h
  obtain ⟨version, inputs, nodes, output, _, hinferred, _⟩ := g
  obtain ⟨version', inputs', nodes', output', _, hinferred', _⟩ := g'
  obtain ⟨rfl, hinputs, hnodes, rfl⟩ := OperationGraphDocument.mk.inj h
  obtain rfl := inputDocument_injective.list_map hinputs
  have hlen : nodes.length = nodes'.length := by
    simpa using congrArg List.length hnodes
  obtain rfl : nodes = nodes' := by
    have htake := take_nodes_eq hinferred hinferred' hnodes nodes.length
    rwa [List.take_length, hlen, List.take_length] at htake
  rfl

end Graph

/-! ## Targets -/

/-- A target as the source serializes it. -/
structure TargetDocument where
  name : TensorName
  aliases : List TensorName
  requirement : Requirement
  sourceShape : List Nat
  shape : List Nat
  storageShape : List Nat
  logicalStrides : List Nat
  storageStrides : List Nat
  representation : Representation
  transforms : List PlannedTransform
  operationGraph : Option OperationGraphDocument
  quantizedRoute : Option RouteCapability
  conversionRecipe : Option ConversionRecipe
  outputSize : Nat
  sharedSourceGroup : Option StableName

def targetDocument (t : TargetTensor) : TargetDocument :=
  { t with operationGraph := t.operationGraph.map graphDocument }

/-- The builder that `TargetTensor::try_from` fills. -/
def TargetDocument.builder (d : TargetDocument) (graph : Option OperationGraph) :
    TargetTensorBuilder :=
  { d with
    operationGraph := graph
    storageShape := some d.storageShape
    logicalStrides := some d.logicalStrides
    storageStrides := some d.storageStrides }

/-- The parts of a target are valid. -/
def TargetTensorBuilder.partsValid (b : TargetTensorBuilder) : Bool :=
  b.name.valid && b.aliases.all TensorName.valid && b.representation.valid &&
    b.transforms.all PlannedTransform.valid && b.quantizedRoute.all RouteCapability.valid &&
    b.conversionRecipe.all ConversionRecipe.valid && b.sharedSourceGroup.all StableName.valid

def decodeGraph : Option OperationGraphDocument → Option (Option OperationGraph)
  | none => some none
  | some document => document.decode.map some

def TargetDocument.decode (d : TargetDocument) : Option TargetTensor := do
  let graph ← decodeGraph d.operationGraph
  if (d.builder graph).partsValid then (d.builder graph).build.toOption else none

/-- A target that its builder made from valid parts. -/
def TargetTensor.Made (t : TargetTensor) : Prop :=
  ∃ b : TargetTensorBuilder, b.partsValid = true ∧
    (∀ g, b.operationGraph = some g → GraphMade g) ∧ b.build = .ok t

section Target

/-- What `TargetTensorBuilder::build` makes of its fields. -/
theorem TargetTensorBuilder.build_ok {b : TargetTensorBuilder} {t : TargetTensor}
    (h : b.build = .ok t) : t.validate = .ok () ∧ ∃ logicalStrides storageStrides, t =
      { b with
        aliases := b.aliases.insertionSort (· ≤ ·)
        storageShape := b.storageShape.getD b.shape
        logicalStrides := logicalStrides
        storageStrides := storageStrides } := by
  obtain ⟨logicalStrides, _, h⟩ := bind_ok h
  obtain ⟨storageStrides, _, h⟩ := bind_ok h
  obtain ⟨_, hvalid, h⟩ := bind_ok h
  have ht := (Except.ok.inj h).symm
  exact ⟨by rw [ht]; exact hvalid, logicalStrides, storageStrides, ht⟩

/-- Building again from what was built gives it back. -/
theorem rebuild_target {b : TargetTensorBuilder} {t : TargetTensor} (h : b.build = .ok t) :
    ((targetDocument t).builder t.operationGraph).build = .ok t := by
  obtain ⟨hvalid, logicalStrides, storageStrides, ht⟩ := TargetTensorBuilder.build_ok h
  have hsorted : t.aliases.insertionSort (· ≤ ·) = t.aliases := by
    rw [ht]
    exact (List.pairwise_insertionSort _ b.aliases).insertionSort_eq
  have heq : ({ t with aliases := t.aliases.insertionSort (· ≤ ·) } : TargetTensor) = t := by
    rw [hsorted]
  show (({ t with aliases := t.aliases.insertionSort (· ≤ ·) } : TargetTensor).validate >>=
    fun _ => Except.ok { t with aliases := t.aliases.insertionSort (· ≤ ·) }) = _
  rw [heq, hvalid]
  rfl

theorem TargetTensor.Made.graph {t : TargetTensor} (h : t.Made) :
    ∀ g, t.operationGraph = some g → GraphMade g := by
  obtain ⟨b, _, hgraph, hbuild⟩ := h
  obtain ⟨_, _, _, rfl⟩ := TargetTensorBuilder.build_ok hbuild
  exact hgraph

theorem TargetTensor.Made.partsValid {t : TargetTensor} (h : t.Made) :
    ((targetDocument t).builder t.operationGraph).partsValid = true := by
  obtain ⟨b, hparts, _, hbuild⟩ := h
  obtain ⟨_, _, _, rfl⟩ := TargetTensorBuilder.build_ok hbuild
  simp only [TargetTensorBuilder.partsValid, Bool.and_eq_true, List.all_eq_true] at hparts ⊢
  simp only [TargetDocument.builder, targetDocument, List.mem_insertionSort]
  exact hparts

/-- A target that was built is decoded from its document. -/
theorem targetDocument_decode {t : TargetTensor} (h : t.Made) :
    (targetDocument t).decode = some t := by
  have hgraph : decodeGraph (t.operationGraph.map graphDocument) = some t.operationGraph := by
    have hmade := h.graph
    cases hg : t.operationGraph with
    | none => rfl
    | some g =>
      show (graphDocument g).decode.map some = _
      rw [graphDocument_decode (hmade g hg)]
      rfl
  have hparts := h.partsValid
  obtain ⟨b, _, _, hbuild⟩ := h
  show (decodeGraph (t.operationGraph.map graphDocument) >>= _) = _
  rw [hgraph]
  show (if ((targetDocument t).builder t.operationGraph).partsValid = true then
    ((targetDocument t).builder t.operationGraph).build.toOption else none) = _
  rw [if_pos hparts, rebuild_target hbuild]
  rfl

theorem TargetDocument.made_of_decode {d : TargetDocument} {t : TargetTensor}
    (h : d.decode = some t) : t.Made := by
  obtain ⟨graph, hgraph, h⟩ := Option.bind_eq_some_iff.mp h
  split at h
  · next hparts =>
    refine ⟨d.builder graph, hparts, fun g hg => ?_, toOption_eq_some h⟩
    obtain rfl : graph = some g := hg
    cases hd : d.operationGraph with
    | none => rw [hd] at hgraph; cases hgraph
    | some document =>
      rw [hd] at hgraph
      obtain ⟨g', hg', he⟩ := Option.map_eq_some_iff.mp hgraph
      obtain rfl := Option.some.inj he
      exact document.made_of_decode hg'
  · cases h

theorem TargetTensor.Made.name_valid {t : TargetTensor} (h : t.Made) : t.name.valid = true := by
  have hparts := h.partsValid
  simp only [TargetTensorBuilder.partsValid, Bool.and_eq_true] at hparts
  exact hparts.1.1.1.1.1.1

theorem targetDocument_injective : Function.Injective targetDocument := by
  intro t t' h
  obtain ⟨_, _, _, _, _, _, _, _, _, _, graph, _, _, _, _⟩ := t
  obtain ⟨_, _, _, _, _, _, _, _, _, _, graph', _, _, _, _⟩ := t'
  obtain ⟨rfl, rfl, rfl, rfl, rfl, rfl, rfl, rfl, rfl, rfl, hgraph, rfl, rfl, rfl, rfl⟩ :=
    TargetDocument.mk.inj h
  obtain rfl : graph = graph' := Option.map_injective graphDocument_injective hgraph
  rfl

end Target

/-! ## Plans -/

structure BindingDocument where
  sources : List SourceTensor
  target : TargetDocument

def BindingDocument.decode (d : BindingDocument) : Option Binding := do
  let sources ← d.sources.mapM SourceTensor.decode
  let target ← d.target.decode
  (Binding.new sources target).toOption

def bindingDocument (binding : Binding) : BindingDocument :=
  ⟨binding.sources, targetDocument binding.target⟩

structure BindingPlanDocument where
  schemaVersion : Nat
  id : PlanId
  inputs : PlanInputs
  sources : List SourceTensor
  targets : List TargetDocument
  extraSourcePolicy : ExtraSourcePolicy
  bindings : List BindingDocument
  missingOptional : List TensorName
  unusedSources : List TensorName

def BindingPlanDocument.decode (d : BindingPlanDocument) : Option BindingPlan := do
  let sources ← d.sources.mapM SourceTensor.decode
  let targets ← d.targets.mapM TargetDocument.decode
  let bindings ← d.bindings.mapM BindingDocument.decode
  if d.missingOptional.all TensorName.valid && d.unusedSources.all TensorName.valid then
    some { d with sources := sources, targets := targets, bindings := bindings }
  else none

def BindingPlan.document (p : BindingPlan) : BindingPlanDocument :=
  { p with
    targets := p.targets.map targetDocument
    bindings := p.bindings.map bindingDocument }

/-- The JSON text of a document, and the document of a text. -/
structure PlanJson where
  print : BindingPlanDocument → List UInt8
  parse : List UInt8 → Option BindingPlanDocument

def BindingPlan.toCanonicalJson (json : PlanJson) (p : BindingPlan) : List UInt8 :=
  json.print p.document

def sortedUniqueLoop (message : String) : Option TensorName → List TensorName → Result Unit
  | _, [] => .ok ()
  | previous, value :: rest =>
    if previous.any fun previous => previous ≥ value then .error (.invalid message)
    else sortedUniqueLoop message (some value) rest

def validateSortedUnique (values : List TensorName) (message : String) : Result Unit :=
  sortedUniqueLoop message none values

/-- The builder of `from_canonical_json`. -/
def BindingPlan.rebuilder (p : BindingPlan) : PlanBuilder :=
  ⟨p.inputs, p.sources, p.targets, p.extraSourcePolicy⟩

def BindingPlan.fromCanonicalJson (planner : Planner) (json : PlanJson) (bytes : List UInt8) :
    Result BindingPlan := do
  let wire ← okOr ((json.parse bytes).bind BindingPlanDocument.decode)
    (.invalid "parse binding plan JSON")
  if wire.toCanonicalJson json ≠ bytes then
    .error (.invalid "binding plan JSON is not canonical")
  else if wire.schemaVersion ≠ planSchemaVersion then
    .error (.invalid "unsupported binding plan schema version")
  else
    validateSortedUnique (wire.sources.map SourceTensor.name)
      "binding plan planning sources are not sorted and unique"
    validateSortedUnique (wire.targets.map TargetTensor.name)
      "binding plan planning targets are not sorted and unique"
    validateSortedUnique (wire.bindings.map fun binding => binding.target.name)
      "binding plan targets are not sorted and unique"
    validateSortedUnique wire.missingOptional
      "binding plan optional misses are not sorted and unique"
    validateSortedUnique wire.unusedSources
      "binding plan unused sources are not sorted and unique"
    let rebuilt ← wire.rebuilder.build planner
    if rebuilt.bindings ≠ wire.bindings then
      .error (.binding "serialized bindings differ from deterministic planning")
    else if rebuilt.missingOptional ≠ wire.missingOptional then
      .error (.binding "serialized optional misses differ from deterministic planning")
    else if rebuilt.unusedSources ≠ wire.unusedSources then
      .error (.binding "serialized unused sources differ from deterministic planning")
    else if rebuilt.id ≠ wire.id then
      .error (.integrity "binding plan identity does not match its canonical content")
    else .ok rebuilt

/-- A plan that `PlanBuilder::build` makes of sources and targets which exist. -/
def Built (planner : Planner) (plan : BindingPlan) : Prop :=
  ∃ b : PlanBuilder, (∀ source ∈ b.sources, source.Made) ∧ (∀ target ∈ b.targets, target.Made) ∧
    b.build planner = .ok plan

section Plan
variable {planner : Planner} {b : PlanBuilder} {plan : BindingPlan}

theorem pairwise_cons_head {a : TensorName} {l : List TensorName} :
    (a :: l).Pairwise (· < ·) ↔ (∀ b ∈ l.head?, a < b) ∧ l.Pairwise (· < ·) := by
  cases l with
  | nil => simp
  | cons b l =>
    rw [← List.isChain_iff_pairwise, ← List.isChain_iff_pairwise, List.isChain_cons_cons]
    simp

theorem sortedUniqueLoop_ok {message : String} : ∀ {values : List TensorName}
    {previous : Option TensorName}, sortedUniqueLoop message previous values = .ok () ↔
      (∀ p ∈ previous, ∀ v ∈ values.head?, p < v) ∧ values.Pairwise (· < ·)
  | [], previous => by simp [sortedUniqueLoop]
  | value :: rest, previous => by
    have hany : (previous.any fun p => decide (p ≥ value)) = true ↔
        ¬∀ p ∈ previous, p < value := by
      cases previous <;> simp
    rw [sortedUniqueLoop]
    split
    · next h =>
      refine ⟨fun he => (by cases he), fun ⟨hp, _⟩ => ?_⟩
      exact absurd (fun p hm => hp p hm value rfl) (hany.mp h)
    · next h =>
      rw [sortedUniqueLoop_ok, pairwise_cons_head]
      rw [hany, not_not] at h
      have hprev : ∀ p ∈ previous, ∀ v ∈ (value :: rest).head?, p < v := by
        intro p hp v hv
        obtain rfl := Option.some.inj hv
        exact h p hp
      simp only [Option.mem_some_iff, forall_eq']
      exact ⟨fun hr => ⟨hprev, hr⟩, fun hr => hr.2⟩

theorem validateSortedUnique_ok {values : List TensorName} {message : String} :
    validateSortedUnique values message = .ok () ↔ values.Pairwise (· < ·) := by
  rw [validateSortedUnique, sortedUniqueLoop_ok]
  simp

/-- The fields of a plan that are taken from its builder, and the order of the rest. -/
structure Assembled (planner : Planner) (b : PlanBuilder) (plan : BindingPlan) : Prop where
  schemaVersion : plan.schemaVersion = planSchemaVersion
  inputs : plan.inputs = b.inputs
  sources : plan.sources = planner.sort.sort SourceTensor.name b.sources
  targets : plan.targets = planner.sort.sort TargetTensor.name b.targets
  policy : plan.extraSourcePolicy = b.extraSourcePolicy
  bindings : plan.bindings.Pairwise fun x y => x.target.name ≤ y.target.name
  missing : plan.missingOptional.Pairwise (· < ·)
  unused : plan.unusedSources.Pairwise (· < ·)

theorem assembled_of_build (h : b.build planner = .ok plan) : Assembled planner b plan := by
  obtain ⟨_, h⟩ := unless_error_ok h
  obtain ⟨bindings, hb, h⟩ := bind_ok h
  obtain ⟨made, _, hmade⟩ := bind_ok hb
  obtain rfl := Except.ok.inj hmade
  obtain rfl := Except.ok.inj h
  exact ⟨rfl, rfl, rfl, rfl, rfl, planner.sort.sorted _ made, pairwise_sortDedup _,
    pairwise_sortDedup _⟩

/-- In key order with distinct keys. -/
theorem pairwise_lt_of_nodup {α : Type} {key : α → TensorName} {l : List α}
    (h : l.Pairwise fun x y => key x ≤ key y) (hn : (l.map key).Nodup) :
    (l.map key).Pairwise (· < ·) := by
  rw [List.nodup_iff_pairwise_ne, List.pairwise_map] at hn
  rw [List.pairwise_map]
  exact h.imp₂ (fun _ _ hle hne => lt_of_le_of_ne hle hne) hn

theorem bindingDocument_decode {binding : Binding} (hs : ∀ source ∈ binding.sources, source.Made)
    (ht : binding.target.Made) (hne : binding.sources ≠ []) :
    (bindingDocument binding).decode = some binding := by
  have hsources : binding.sources.mapM SourceTensor.decode = some binding.sources := by
    have := @mapM_decode_eq _ _ SourceTensor.decode id binding.sources fun s hm =>
      s.decode_of_made (hs s hm)
    rwa [List.map_id] at this
  have hnew : Binding.new binding.sources binding.target = .ok binding :=
    if_neg (by rwa [List.isEmpty_iff])
  rw [BindingDocument.decode, bindingDocument, hsources]
  show ((targetDocument binding.target).decode >>= _) = _
  rw [targetDocument_decode ht]
  show (Binding.new binding.sources binding.target).toOption = _
  rw [hnew]
  rfl

/-- A plan that was built is decoded from its document. -/
theorem document_decode (h : Built planner plan) : plan.document.decode = some plan := by
  obtain ⟨b, hs, ht, hbuild⟩ := h
  have ha := assembled_of_build hbuild
  have hm := made_of_build hbuild
  have hsources : plan.sources.mapM SourceTensor.decode = some plan.sources := by
    have := @mapM_decode_eq _ _ SourceTensor.decode id plan.sources fun s hmem => by
      rw [ha.sources] at hmem
      exact s.decode_of_made (hs s (KeySort.mem.mp hmem))
    rwa [List.map_id] at this
  have htargets : (plan.targets.map targetDocument).mapM TargetDocument.decode =
      some plan.targets := by
    refine mapM_decode_eq _ _ fun t hmem => ?_
    rw [ha.targets] at hmem
    exact targetDocument_decode (ht t (KeySort.mem.mp hmem))
  have hbindings : (plan.bindings.map bindingDocument).mapM BindingDocument.decode =
      some plan.bindings := by
    refine mapM_decode_eq _ _ fun binding hmem => ?_
    obtain ⟨htarget, _, hsel⟩ := (hm.bindings binding).mp hmem
    exact bindingDocument_decode (fun s hsmem => hs s (mem_of_selected hsel hsmem))
      (ht _ htarget) (select_ne_nil hsel)
  have hnames : (plan.missingOptional.all TensorName.valid &&
      plan.unusedSources.all TensorName.valid) = true := by
    rw [Bool.and_eq_true, List.all_eq_true, List.all_eq_true]
    constructor
    · intro name hname
      obtain ⟨target, hmem, _, _, rfl⟩ := (hm.missing name).mp hname
      exact (ht target hmem).name_valid
    · intro name hname
      obtain ⟨source, hmem, _, rfl⟩ := (hm.unused name).mp hname
      exact (hs source hmem).1
  show (plan.sources.mapM SourceTensor.decode >>= _) = _
  rw [hsources]
  show ((plan.targets.map targetDocument).mapM TargetDocument.decode >>= _) = _
  rw [htargets]
  show ((plan.bindings.map bindingDocument).mapM BindingDocument.decode >>= _) = _
  rw [hbindings]
  exact if_pos hnames

/-- What is decoded consists of descriptors that exist. -/
theorem BindingPlanDocument.made_of_decode {d : BindingPlanDocument} (h : d.decode = some plan) :
    (∀ source ∈ plan.sources, source.Made) ∧ ∀ target ∈ plan.targets, target.Made := by
  obtain ⟨sources, hsources, h⟩ := Option.bind_eq_some_iff.mp h
  obtain ⟨targets, htargets, h⟩ := Option.bind_eq_some_iff.mp h
  obtain ⟨bindings, _, h⟩ := Option.bind_eq_some_iff.mp h
  split at h
  · obtain rfl := Option.some.inj h
    constructor
    · intro source hs
      obtain ⟨s, _, hd⟩ := mem_of_mapM_decode hsources source hs
      exact SourceTensor.made_of_decode hd
    · intro target ht
      obtain ⟨document, _, hd⟩ := mem_of_mapM_decode htargets target ht
      exact document.made_of_decode hd
  · cases h

/-- Planning again from the sources and targets of a plan gives the plan. -/
theorem rebuild_plan (h : b.build planner = .ok plan) : plan.rebuilder.build planner = .ok plan := by
  have ha := assembled_of_build h
  have hs : plan.rebuilder.sources.Perm b.sources := by
    show plan.sources.Perm b.sources
    rw [ha.sources]
    exact planner.sort.perm _ _
  have ht : plan.rebuilder.targets.Perm b.targets := by
    show plan.targets.Perm b.targets
    rw [ha.targets]
    exact planner.sort.perm _ _
  exact (build_perm ha.inputs ha.policy hs ht planner planner.sort).trans h

theorem Assembled.sorted (ha : Assembled planner b plan) (hm : Made planner b plan) :
    (plan.sources.map SourceTensor.name).Pairwise (· < ·) ∧
      (plan.targets.map TargetTensor.name).Pairwise (· < ·) ∧
      (plan.bindings.map fun binding => binding.target.name).Pairwise (· < ·) := by
  refine ⟨?_, ?_, pairwise_lt_of_nodup ha.bindings hm.distinct⟩
  · rw [ha.sources]
    refine pairwise_lt_of_nodup (planner.sort.sorted _ _) ?_
    exact ((planner.sort.perm _ _).map _).nodup_iff.mpr hm.names.1
  · rw [ha.targets]
    refine pairwise_lt_of_nodup (planner.sort.sorted _ _) ?_
    exact ((planner.sort.perm _ _).map _).nodup_iff.mpr hm.names.2

/-- Every check of the decoder passes on a plan that was built. -/
theorem fromCanonicalJson_built {json : PlanJson}
    (hfaithful : json.parse (json.print plan.document) = some plan.document)
    (h : Built planner plan) :
    BindingPlan.fromCanonicalJson planner json (plan.toCanonicalJson json) = .ok plan := by
  have hdecode := document_decode h
  obtain ⟨b, _, _, hbuild⟩ := h
  have ha := assembled_of_build hbuild
  obtain ⟨hsources, htargets, hbindings⟩ := ha.sorted (made_of_build hbuild)
  have hparse : (json.parse (plan.toCanonicalJson json)).bind BindingPlanDocument.decode =
      some plan := by
    rw [BindingPlan.toCanonicalJson, hfaithful]
    exact hdecode
  unfold BindingPlan.fromCanonicalJson
  rw [hparse]
  show (if plan.toCanonicalJson json ≠ plan.toCanonicalJson json then _ else _) = _
  rw [if_neg (not_not.mpr rfl), if_neg (not_not.mpr ha.schemaVersion),
    validateSortedUnique_ok.mpr hsources, validateSortedUnique_ok.mpr htargets,
    validateSortedUnique_ok.mpr hbindings, validateSortedUnique_ok.mpr ha.missing,
    validateSortedUnique_ok.mpr ha.unused]
  show (plan.rebuilder.build planner >>= _) = _
  rw [rebuild_plan hbuild]
  show (if plan.bindings ≠ plan.bindings then _ else _) = _
  rw [if_neg (not_not.mpr rfl), if_neg (not_not.mpr rfl), if_neg (not_not.mpr rfl),
    if_neg (not_not.mpr rfl)]

/-- What the decoder accepts is the document of the plan it rebuilds. -/
theorem built_of_fromCanonicalJson {json : PlanJson} {bytes : List UInt8}
    (h : BindingPlan.fromCanonicalJson planner json bytes = .ok plan) :
    Built planner plan ∧ bytes = plan.toCanonicalJson json := by
  obtain ⟨wire, hwire, h⟩ := bind_ok h
  obtain ⟨document, _, hdecode⟩ := Option.bind_eq_some_iff.mp (okOr_eq_ok.mp hwire)
  obtain ⟨hcanonical, h⟩ := unless_error_ok h
  obtain ⟨hversion, h⟩ := unless_error_ok h
  obtain ⟨_, hsources, h⟩ := bind_ok h
  obtain ⟨_, htargets, h⟩ := bind_ok h
  obtain ⟨_, _, h⟩ := bind_ok h
  obtain ⟨_, _, h⟩ := bind_ok h
  obtain ⟨_, _, h⟩ := bind_ok h
  obtain ⟨rebuilt, hbuild, h⟩ := bind_ok h
  obtain ⟨hbindings, h⟩ := unless_error_ok h
  obtain ⟨hmissing, h⟩ := unless_error_ok h
  obtain ⟨hunused, h⟩ := unless_error_ok h
  obtain ⟨hid, h⟩ := unless_error_ok h
  obtain rfl := Except.ok.inj h
  obtain ⟨hs, ht⟩ := document.made_of_decode hdecode
  refine ⟨⟨wire.rebuilder, hs, ht, hbuild⟩, ?_⟩
  have ha := assembled_of_build hbuild
  have hsort : ∀ {α : Type} {key : α → TensorName} {l : List α},
      (l.map key).Pairwise (· < ·) → planner.sort.sort key l = l := by
    intro α key l hl
    rw [List.pairwise_map] at hl
    exact planner.sort.eq_self hl
  have heq : rebuilt = wire := by
    have hsources' := ha.sources.trans (hsort (validateSortedUnique_ok.mp hsources))
    have htargets' := ha.targets.trans (hsort (validateSortedUnique_ok.mp htargets))
    have hinputs := ha.inputs
    have hpolicy := ha.policy
    have hschema := ha.schemaVersion.trans (not_not.mp hversion).symm
    obtain ⟨⟨_, _, _, _, _, _, _, _⟩, _⟩ := rebuilt
    obtain ⟨⟨_, _, _, _, _, _, _, _⟩, _⟩ := wire
    simp only [not_not] at hbindings hmissing hunused hid hsources' htargets' hinputs hpolicy hschema
    subst hbindings hmissing hunused hid hsources' htargets' hinputs hpolicy hschema
    rfl
  rw [heq]
  exact (not_not.mp hcanonical).symm

/-- **The decoder accepts exactly the documents of built plans**, where the JSON
text of the plan is read back as it was written. -/
theorem fromCanonicalJson_iff (planner : Planner) (json : PlanJson) (plan : BindingPlan)
    (hfaithful : json.parse (json.print plan.document) = some plan.document) (bytes : List UInt8) :
    BindingPlan.fromCanonicalJson planner json bytes = .ok plan ↔
      Built planner plan ∧ bytes = plan.toCanonicalJson json := by
  constructor
  · exact built_of_fromCanonicalJson
  · rintro ⟨hbuilt, rfl⟩
    exact fromCanonicalJson_built hfaithful hbuilt

end Plan

namespace Sample

def planJson : List UInt8 :=
  Parsing.utf8 ("\x7b\"schema_version\":2,\"id\":\"02b79b35509f3a1877ec6804d36af484704d499552ce" ++
    "1eb0d5766481d31bd6f8\"," ++ planText)

/-- JSON on the document of the plan. -/
def json : PlanJson where
  print _ := planJson
  parse bytes := if bytes = planJson then some plan.document else none

theorem json_faithful : json.parse (json.print plan.document) = some plan.document := by
  simp only [json, if_true]

theorem source_made : ∀ s ∈ builder.sources, s.Made := by
  intro s hs
  rcases List.mem_pair.mp hs with rfl | rfl
  · have hspan : SourceSpan.valid ⟨0, 0, 8⟩ = true := by decide +kernel
    exact ⟨by decide +kernel, hspan, by decide +kernel⟩
  · have hspan : SourceSpan.valid ⟨0, 8, 8⟩ = true := by decide +kernel
    exact ⟨by decide +kernel, hspan, by decide +kernel⟩

theorem target_made : ∀ t ∈ builder.targets, t.Made := by
  intro t ht
  have hbuilder : ∀ t ∈ builder.targets,
      ((targetDocument t).builder none).partsValid = true ∧
        ((targetDocument t).builder none).build = .ok t := by decide +kernel
  obtain ⟨hparts, hbuild⟩ := hbuilder t ht
  exact ⟨_, hparts, fun _ hg => (by cases hg), hbuild⟩

end Sample

theorem fromCanonicalJson_iff_sample :
    Sample.json.parse (Sample.json.print Sample.plan.document) = some Sample.plan.document ∧
      BindingPlan.fromCanonicalJson Sample.planner Sample.json Sample.planJson = .ok Sample.plan :=
  ⟨Sample.json_faithful,
    (fromCanonicalJson_iff Sample.planner Sample.json Sample.plan Sample.json_faithful _).mpr
      ⟨⟨Sample.builder, Sample.source_made, Sample.target_made, Sample.builder_build⟩, rfl⟩⟩

end ModelWeights.Plan
