import ModelWeights.Lib.Canonical
import ModelWeights.Lib.Groups
import ModelWeights.Overlay.Alias
import ModelWeights.Overlay.Layer

/-! # Ordered overlay plans

`OverlayPlan::build` groups the operations of all layers by the base that their
target resolves to. An index of a base is one of the list at hand, so a reference
cannot be filed under a base that does not exist. -/
namespace ModelWeights.Overlay
open ModelWeights.Graph Plan Canonical

/-- How two operations on one base are handled. -/
inductive ConflictPolicy where
  | reject
  | ordered
  deriving DecidableEq, Repr

inductive CompositionMode where
  | lazy
  | eager
  deriving DecidableEq, Repr

structure OverlayOperationRef where
  layer : OverlayId
  operationIndex : Nat
  deriving DecidableEq, Repr

structure OverlayBinding where
  base : BaseTensor
  operations : List OverlayOperationRef
  deriving DecidableEq

/-- What the digest of a plan covers. -/
structure OverlayPlanIdentity where
  schemaVersion : Nat
  mode : CompositionMode
  conflictPolicy : ConflictPolicy
  aliases : AliasTable
  bases : List BaseTensor
  layers : List OverlayLayer
  bindings : List OverlayBinding

structure OverlayPlan extends OverlayPlanIdentity where
  digest : ContentDigest

/-! ## Canonical JSON -/

def ConflictPolicy.json : ConflictPolicy → Json
  | .reject => .text "Reject"
  | .ordered => .text "Ordered"

def CompositionMode.json : CompositionMode → Json
  | .lazy => .text "Lazy"
  | .eager => .text "Eager"

def AliasTable.json (table : AliasTable) : Json :=
  .fields [("entries", .fields (table.entries.entries.map fun e => (e.1.text, nameJson e.2)))]

def BaseTensor.json (base : BaseTensor) : Json :=
  .fields [("name", nameJson base.name), ("shape", .list (base.shape.map .nat)),
    ("content", digestJson base.content)]

def OverlayLayer.json (h : OverlayHashing) (layer : OverlayLayer) : Json :=
  .fields [("schema_version", .nat layer.schemaVersion), ("id", digestJson layer.id),
    ("source_digests", .list (layer.sourceDigests.map digestJson)),
    ("operations", .list (layer.operations.map h.operationJson))]

def OverlayOperationRef.json (reference : OverlayOperationRef) : Json :=
  .fields [("layer", digestJson reference.layer),
    ("operation_index", .nat reference.operationIndex)]

def OverlayBinding.json (binding : OverlayBinding) : Json :=
  .fields [("base", binding.base.json),
    ("operations", .list (binding.operations.map OverlayOperationRef.json))]

def OverlayPlanIdentity.fields (h : OverlayHashing) (plan : OverlayPlanIdentity) :
    List (String × Json) :=
  [("schema_version", .nat plan.schemaVersion), ("mode", plan.mode.json),
    ("conflict_policy", plan.conflictPolicy.json), ("aliases", plan.aliases.json),
    ("bases", .list (plan.bases.map BaseTensor.json)),
    ("layers", .list (plan.layers.map (OverlayLayer.json h))),
    ("bindings", .list (plan.bindings.map OverlayBinding.json))]

def OverlayPlanIdentity.digest (h : OverlayHashing) (plan : OverlayPlanIdentity) :
    ContentDigest :=
  ContentDigest.hash h.sha256 "overlay-plan-v1" [canonicalJson (.fields (plan.fields h))]

def OverlayPlan.toCanonicalJson (h : OverlayHashing) (plan : OverlayPlan) : List UInt8 :=
  canonicalJson (.fields (plan.fields h ++ [("digest", digestJson plan.digest)]))

/-! ## Shapes -/

def validateOperationShape (operation : OverlayOperation) (base : BaseTensor) : Result Unit :=
  match operation with
  | .replace _ value _ | .add _ value _ _ =>
    if value.shape ≠ base.shape then
      .error (.binding "replacement or additive overlay shape differs from its base tensor")
    else .ok ()
  | .lowRank _ down up rank _ _ =>
    match base.shape with
    | [output, input] =>
      if rank = 0 ∨ down.shape ≠ [rank, input] ∨ up.shape ≠ [output, rank] then
        .error (.binding
          "low-rank overlay factor shapes do not match base shape and declared rank")
      else .ok ()
    | _ => .error (.binding "low-rank overlay currently requires a rank-two base tensor")
  | .recipe _ _ outputShape _ =>
    if outputShape ≠ base.shape then
      .error (.binding "overlay recipe output shape differs from its base tensor")
    else .ok ()

/-! ## Grouping operations -/

/-- The position of every base, by its name. -/
def baseIndices (bases : List BaseTensor) : OrderedMap TensorName (Fin bases.length) :=
  .ofList ((List.finRange bases.length).map fun index => (bases[index].name, index))

def validateAliases (aliases : AliasTable) (bases : List BaseTensor) :
    List (TensorName × TensorName) → Result Unit
  | [] => .ok ()
  | entry :: rest =>
    if (baseIndices bases).contains entry.1 then
      .error (.binding "alias graph shadows an exact base tensor name")
    else if ¬(baseIndices bases).contains (aliases.resolve entry.1) then
      .error (.binding "alias graph resolves to a missing base tensor")
    else validateAliases aliases bases rest

/-- The references filed under each base so far. -/
abbrev OperationRefs (bases : List BaseTensor) := Fin bases.length → List OverlayOperationRef

section Group
variable (aliases : AliasTable) (bases : List BaseTensor) (policy : ConflictPolicy)

def addOperation (layer : OverlayId) (index : Nat) (refs : OperationRefs bases)
    (operation : OverlayOperation) : Result (OperationRefs bases) := do
  let base ← okOr ((baseIndices bases).get? (aliases.resolve operation.target))
    (.binding ("overlay target " ++ operation.target.text ++
      " does not resolve to a base tensor"))
  validateOperationShape operation bases[base]
  if policy = .reject ∧ refs base ≠ [] then
    .error (.binding ("multiple overlay operations target canonical tensor " ++
      bases[base].name.text))
  else if 2 ^ 32 ≤ index then .error (.limit "overlay operation index does not fit u32")
  else .ok (Function.update refs base (refs base ++ [⟨layer, index⟩]))

/-- The operations of a layer from the one at `index` on. -/
def addOperations (layer : OverlayId) : Nat → List OverlayOperation → OperationRefs bases →
    Result (OperationRefs bases)
  | _, [], refs => .ok refs
  | index, operation :: rest, refs => do
    let refs ← addOperation aliases bases policy layer index refs operation
    addOperations layer (index + 1) rest refs

def addLayers : List OverlayId → List OverlayLayer → OperationRefs bases →
    Result (OperationRefs bases)
  | _, [], refs => .ok refs
  | layerIds, layer :: rest, refs =>
    if layer.id ∈ layerIds then
      .error (.binding "overlay plan contains the same layer identity more than once")
    else do
      let refs ← addOperations aliases bases policy layer.id 0 layer.operations refs
      addLayers (layer.id :: layerIds) rest refs

end Group

def planIdentity (aliases : AliasTable) (bases : List BaseTensor) (layers : List OverlayLayer)
    (policy : ConflictPolicy) (mode : CompositionMode) (refs : OperationRefs bases) :
    OverlayPlanIdentity where
  schemaVersion := overlaySchemaVersion
  mode := mode
  conflictPolicy := policy
  aliases := aliases
  bases := bases
  layers := layers
  bindings := List.ofFn fun index => ⟨bases[index], refs index⟩

/-- The plan of bases in name order. -/
def buildSorted (h : OverlayHashing) (bases : List BaseTensor) (aliases : AliasTable)
    (layers : List OverlayLayer) (policy : ConflictPolicy) (mode : CompositionMode) :
    Result OverlayPlan := do
  if hasAdjacentDuplicate (bases.map BaseTensor.name) then
    .error (.binding "overlay plan contains a duplicate base tensor")
  else
    validateAliases aliases bases aliases.entries.entries
    let refs ← addLayers aliases bases policy [] layers fun _ => []
    let identity := planIdentity aliases bases layers policy mode refs
    .ok { identity with digest := identity.digest h }

def OverlayPlan.build (h : OverlayHashing) (sort : KeySort TensorName) (bases : List BaseTensor)
    (aliases : AliasTable) (layers : List OverlayLayer) (policy : ConflictPolicy)
    (mode : CompositionMode) : Result OverlayPlan :=
  buildSorted h (sort.sort BaseTensor.name bases) aliases layers policy mode

end ModelWeights.Overlay
