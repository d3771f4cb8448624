import ModelWeights.Cache.Key
import ModelWeights.Plan.Codec

/-! # Addresses of prepared tensors

`binding_source_content` and `cache_address_for_binding` of `materialize.rs`. The
JSON texts that are hashed and SHA-256 are parameters. -/
namespace ModelWeights.Prepared
open ModelWeights.Graph Plan Cache Canonical Parsing

/-! ## Outputs that are inputs -/

/-- `OperationGraph::output_input_alias` from a value on, for at most `fuel` nodes. -/
def aliasedInput (g : OperationGraph) : Nat → ValueRef → Option Nat
  | _, .input input => if input < g.inputs.length then some input else none
  | 0, .nodeOutput _ _ => none
  | fuel + 1, .nodeOutput node output => do
    let node ← g.nodes[node]?
    let input ← g.nodeOutputAliasInput node output
    let value ← node.inputs[input]?
    aliasedInput g fuel value

def outputInputAlias (g : OperationGraph) : Option Nat := aliasedInput g g.nodes.length g.output

/-- The node a value comes from is one of the first `k`. -/
def WithinNodes (k : Nat) : ValueRef → Prop
  | .input _ => True
  | .nodeOutput node _ => node < k

theorem withinNodes_of_facts {inputs : List OperationInput} {nodes : List OperationNode}
    {value : ValueRef} {f : TensorFacts} (h : factsOf inputs nodes value = some f) :
    WithinNodes nodes.length value := by
  cases value with
  | input i => trivial
  | nodeOutput n o =>
    obtain ⟨node, hn, _⟩ := Option.bind_eq_some_iff.mp h
    exact (List.getElem?_eq_some_iff.mp hn).1

theorem withinNodes_of_mapM {inputs : List OperationInput} {nodes : List OperationNode} :
    ∀ {values : List ValueRef} {facts : List TensorFacts}, inputFacts inputs nodes values = .ok facts →
      ∀ value ∈ values, WithinNodes nodes.length value
  | [], _, _, _, h => by cases h
  | v :: values, _, h, value, hm => by
    rw [inputFacts, List.mapM_cons] at h
    obtain ⟨f, hf, h⟩ := bind_ok h
    obtain ⟨rest, hrest, _⟩ := bind_ok h
    rcases List.mem_cons.mp hm with rfl | hm
    · exact withinNodes_of_facts (okOr_eq_ok.mp hf)
    · exact withinNodes_of_mapM hrest value hm

/-- The loop of the source ends: it visits at most the nodes before the one it is at. -/
theorem aliasedInput_fuel (g : OperationGraph) : ∀ {fuel : Nat} {value : ValueRef},
    WithinNodes fuel value → aliasedInput g (fuel + 1) value = aliasedInput g fuel value
  | _, .input _, _ => by simp [aliasedInput]
  | fuel + 1, .nodeOutput node output, h => by
    rw [aliasedInput, aliasedInput]
    refine Option.bind_congr fun n hn => Option.bind_congr fun input _ =>
      Option.bind_congr fun value hv => aliasedInput_fuel g ?_
    obtain ⟨facts, hfacts, _⟩ := g.inferred node n hn
    have hwithin := withinNodes_of_mapM hfacts value (List.mem_of_getElem? hv)
    have hlt : node < fuel + 1 := h
    cases value with
    | input i => trivial
    | nodeOutput m o =>
      have hm : m < (g.nodes.take node).length := hwithin
      rw [List.length_take] at hm
      show m < fuel
      omega

/-! ## The base content of a binding -/

structure OrderedSourceIdentity where
  source : SourceTensor
  digests : List (Nat × ContentDigest)
  deriving DecidableEq

/-- What an address takes from outside: SHA-256 and two JSON texts. -/
structure Addressing where
  sha256 : List UInt8 → ContentDigest
  sourcesJson : List OrderedSourceIdentity → List UInt8
  targetJson : TargetDocument → List UInt8

/-- The file ordinals of a storage: of its payload, then of its companions. -/
def fileOrdinals : Storage → List Nat
  | .plain _ span => [span.file]
  | .quantized q => q.payload.file :: q.companions.entries.map fun e => e.2.span.file

/-- The `BTreeSet` that `collect_file_ordinals` fills. -/
def collectFileOrdinals (storage : Storage) : List Nat := sortDedup (fileOrdinals storage)

def digestOf (inputs : PlanInputs) (ordinal : Nat) : Result (Nat × ContentDigest) := do
  let digest ← okOr inputs.sourceDigests[ordinal]?
    (.binding "source file ordinal has no ordered source digest")
  .ok (ordinal, digest)

def sourceIdentity (inputs : PlanInputs) (source : SourceTensor) : Result OrderedSourceIdentity := do
  let digests ← (collectFileOrdinals source.storage).mapM (digestOf inputs)
  .ok ⟨source, digests⟩

/-- One prepared output: a binding of a plan and the digest of its overlay. -/
structure Request where
  plan : BindingPlan
  binding : Binding
  overlayDigest : Option ContentDigest

/-- The binding of a plan with a given target name. Plans list their bindings in the
order of these names, without repetitions, and the source searches them so. -/
def findBinding (plan : BindingPlan) (name : TensorName) : Option Binding :=
  plan.bindings.find? fun candidate => candidate.target.name = name

/-- The identities that `binding_source_content` serializes. -/
def orderedSources (plan : BindingPlan) (binding : Binding) : Result (List OrderedSourceIdentity) :=
  if findBinding plan binding.target.name ≠ some binding then
    .error (.binding "overlay base identity requires a binding from the supplied plan")
  else binding.sources.mapM (sourceIdentity plan.inputs)

/-- The bytes behind a base content identity. -/
def sourcePreimage (a : Addressing) (sources : List OrderedSourceIdentity) : List UInt8 :=
  ContentDigest.preimage "ordered-binding-sources-v2" [a.sourcesJson sources]

def bindingSourceContent (a : Addressing) (plan : BindingPlan) (binding : Binding)
    (cancellation : CancellationToken) : Result ContentDigest := do
  cancellation.check
  let sources ← orderedSources plan binding
  .ok (a.sha256 (sourcePreimage a sources))

/-! ## The address -/

/-- Whether the host produces final bytes for a binding. -/
def hasFinalHostOutput (binding : Binding) (overlayDigest : Option ContentDigest) : Bool :=
  match binding.target.operationGraph with
  | some graph => overlayDigest.isSome || (outputInputAlias graph).isNone
  | none =>
    match binding.sources.head?.map SourceTensor.storage with
    | some (.plain _ _) => binding.target.conversionRecipe.isSome ||
        !binding.target.transforms.isEmpty || overlayDigest.isSome
    | some (.quantized _) => binding.target.quantizedRoute.any fun capability =>
        match capability.route with
        | .hostDequant _ => true
        | _ => false
    | none => false

/-- The JSON of a target and the tag of its overlay. -/
def contractBytes (json : List UInt8) : Option ContentDigest → List UInt8
  | some digest => json ++ 1 :: digest.bytes
  | none => json ++ [0]

def contractPreimage (a : Addressing) (target : TargetTensor)
    (overlayDigest : Option ContentDigest) : List UInt8 :=
  ContentDigest.preimage "prepared-binding-contract-v2"
    [contractBytes (a.targetJson (targetDocument target)) overlayDigest]

def preparedCacheFormatVersion : UInt32 := 2

structure PreparedCacheAddress where
  key : CacheKey
  compatibility : CacheCompatibility
  deriving DecidableEq

/-- The compatibility and the identities that `cache_address_for_binding` gives to
`CacheKey::derive`, if the binding has an address. -/
def addressParts (a : Addressing) (r : Request) (cancellation : CancellationToken) :
    Result (Option (CacheCompatibility × List (List UInt8))) := do
  cancellation.check
  if ¬hasFinalHostOutput r.binding r.overlayDigest then .ok none
  else
    let transform := a.sha256 (contractPreimage a r.binding.target r.overlayDigest)
    let compatibility := CacheCompatibility.prepared preparedCacheFormatVersion transform
      r.plan.inputs.backend
    let sourceContent ← bindingSourceContent a r.plan r.binding cancellation
    .ok (some (compatibility, [sourceContent.bytes, utf8 r.binding.target.name.text]))

def cacheAddressForBinding (a : Addressing) (r : Request) (cancellation : CancellationToken) :
    Result (Option PreparedCacheAddress) := do
  let parts ← addressParts a r cancellation
  .ok (parts.map fun p => ⟨CacheKey.derive a.sha256 .prepared p.1 p.2, p.1⟩)

end ModelWeights.Prepared
