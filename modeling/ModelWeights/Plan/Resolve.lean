import ModelWeights.Plan.Contract
import ModelWeights.Lib.Canonical
import Mathlib.Data.List.Lex
import Mathlib.Data.Prod.Lex

/-! # Planning

The resolver, the analysis and the builder of `plan.rs`. Sources and targets are
addressed by their position in the builder's lists, as the source does; the sorts
by name are unstable there, so they are a parameter here. -/
namespace ModelWeights.Plan
open ModelWeights.Graph Canonical

/-! ## Diagnostics -/

inductive DiagnosticSeverity where
  | info
  | warning
  | error
  deriving DecidableEq, Repr

inductive DiagnosticCode where
  | duplicateSource
  | duplicateTarget
  | missingRequired
  | missingOptional
  | ambiguousBinding
  | shapeMismatch
  | missingSourceDigest
  | conflictingSourceReuse
  | unsupportedTransform
  | unsupportedQuantizedRoute
  | extraSource
  deriving DecidableEq, Repr

def DiagnosticCode.asStr : DiagnosticCode → String
  | .duplicateSource => "duplicate_source"
  | .duplicateTarget => "duplicate_target"
  | .missingRequired => "missing_required"
  | .missingOptional => "missing_optional"
  | .ambiguousBinding => "ambiguous_binding"
  | .shapeMismatch => "shape_mismatch"
  | .missingSourceDigest => "missing_source_digest"
  | .conflictingSourceReuse => "conflicting_source_reuse"
  | .unsupportedTransform => "unsupported_transform"
  | .unsupportedQuantizedRoute => "unsupported_quantized_route"
  | .extraSource => "extra_source"

structure PlanDiagnostic where
  severity : DiagnosticSeverity
  code : DiagnosticCode
  subject : TensorName
  related : List TensorName
  message : String
  deriving DecidableEq, Repr

/-- The fields in declaration order, which is the derived order of the source. -/
def PlanDiagnostic.key (d : PlanDiagnostic) :
    Nat ×ₗ Nat ×ₗ TensorName ×ₗ List TensorName ×ₗ String :=
  toLex (d.severity.ctorIdx, toLex (d.code.ctorIdx, toLex (d.subject,
    toLex (d.related, d.message))))

theorem PlanDiagnostic.key_injective : Function.Injective PlanDiagnostic.key := by
  intro a b h
  obtain ⟨s, c, n, r, m⟩ := a
  obtain ⟨s', c', n', r', m'⟩ := b
  simp only [key, EmbeddingLike.apply_eq_iff_eq, Prod.mk.injEq] at h
  obtain ⟨hs, hc, rfl, rfl, rfl⟩ := h
  obtain rfl : s = s' := by cases s <;> cases s' <;> first | rfl | cases hs
  obtain rfl : c = c' := by cases c <;> cases c' <;> first | rfl | cases hc
  rfl

instance : LinearOrder PlanDiagnostic :=
  LinearOrder.lift' PlanDiagnostic.key PlanDiagnostic.key_injective

def PlanDiagnostic.new (severity : DiagnosticSeverity) (code : DiagnosticCode)
    (subject : TensorName) (related : List TensorName) (message : String) : PlanDiagnostic :=
  ⟨severity, code, subject, sortDedup related, message⟩

def PlanDiagnostic.display (d : PlanDiagnostic) : String :=
  d.code.asStr ++ "[" ++ d.subject.text ++ "]: " ++ d.message

def PlanDiagnostic.isError (d : PlanDiagnostic) : Bool := d.severity = .error

/-! ## Compatibility of a binding -/

/-- The first file of a storage without an ordered digest. -/
def firstMissingDigestOrdinal (storage : Storage) (digestCount : Nat) : Option Nat :=
  if storage.span.file ≥ digestCount then some storage.span.file
  else match storage with
    | .plain .. => none
    | .quantized quantized => (quantized.companions.entries.map fun e => e.2.span.file).find?
        fun ordinal => ordinal ≥ digestCount

def layoutMatches (layout : Layout) : Option LayoutRequirement → Bool
  | none => layout.isContiguous
  | some requirement => requirement.matchesLayout layout

def validateContiguousOutput (target : TargetTensor) : Result Unit := do
  if target.representation.layout.isContiguous then
    let expectedStrides ← checkedContiguousStrides target.shape "contiguous target"
    if target.storageShape ≠ target.shape ∨ target.logicalStrides ≠ expectedStrides ∨
        target.storageStrides ≠ expectedStrides then
      .error (.binding "contiguous target physical geometry differs from its logical shape")
    else
      let expected ← target.representation.dtype.byteLen target.shape
      if expected ≠ target.outputSize then
        .error (.binding "contiguous target output size differs from its dtype and shape")
      else .ok ()
  else .ok ()

def validateConversionBinding (source : SourceTensor) (target : TargetTensor) : Result Unit :=
  match target.conversionRecipe with
  | none => .ok ()
  | some recipe =>
    if target.transforms ≠ [] then
      .error (.binding "target cannot combine a conversion recipe with planned transforms")
    else if recipe.inputs.length ≠ 1 ∨ recipe.inputs.head? ≠ some source.name then
      .error (.binding "conversion recipe external input does not match the selected source tensor")
    else if ¬recipe.outputs.contains target.name then
      .error (.binding "conversion recipe does not produce the bound target tensor")
    else .ok ()

/-- The first transform of a plain source accepts it, or none is needed. -/
def validateEntry (representation : Representation) (target : TargetTensor) : Result Unit :=
  match target.transforms with
  | first :: _ =>
    if first.transform.source ≠ representation then
      .error (.unsupported "first transform does not accept the plain source representation")
    else .ok ()
  | [] =>
    if target.representation ≠ representation then
      .error (.unsupported "plain source requires a transform for the target representation")
    else .ok ()

def validatePlainBinding (dtype : DType) (span : SourceSpan) (target : TargetTensor) :
    Result Unit := do
  if target.quantizedRoute.isSome then
    .error (.unsupported "plain source cannot use a quantized route")
  else if target.conversionRecipe.isSome then validateContiguousOutput target
  else
    validateEntry (.contiguous dtype) target
    if target.transforms = [] ∧ target.outputSize ≠ span.length then
      .error (.binding "identity binding output size differs from the source span")
    else validateContiguousOutput target

def validateRoute (capability : RouteCapability) (storage : QuantizedStorage)
    (target : TargetTensor) : Result Unit :=
  match capability.route with
  | .hostDequant targetDtype | .deviceDequantToScratch targetDtype =>
    if targetDtype ≠ target.representation.dtype then
      .error (.unsupported "quantized dequant dtype differs from the target representation")
    else validateContiguousOutput target
  | .packedDirect =>
    if target.outputSize ≠ storage.payload.length then
      .error (.binding "packed-direct output size differs from the source payload span")
    else .ok ()
  | .fusedInTile | .repack _ => .ok ()

def validateQuantizedBinding (inputs : PlanInputs) (storage : QuantizedStorage)
    (target : TargetTensor) : Result Unit := do
  if target.transforms ≠ [] then
    .error (.unsupported
      "quantized bindings use an explicit route instead of host transform specs")
  else
    let capability ← okOr target.quantizedRoute
      (.unsupported "quantized source is missing a selected capability")
    if capability.sourceEncoding ≠ storage.encoding then
      .error (.unsupported "quantized capability does not accept the source encoding")
    else if capability.backend.any fun backend => backend ≠ inputs.backend then
      .error (.unsupported "quantized capability backend differs from the plan backend")
    else if ¬layoutMatches target.representation.layout capability.targetLayout then
      .error (.unsupported
        "quantized capability target layout ABI differs from the target representation")
    else validateRoute capability storage target

def validateBinding (inputs : PlanInputs) (source : SourceTensor) (target : TargetTensor) :
    Result Unit := do
  if source.shape ≠ target.sourceShape then
    .error (.binding "source shape does not match the target's expected source shape")
  else if (firstMissingDigestOrdinal source.storage inputs.sourceDigests.length).isSome then
    .error (.binding "source or quantized companion file ordinal has no ordered content digest")
  else
    validateConversionBinding source target
    match source.storage with
    | .plain dtype span => validatePlainBinding dtype span target
    | .quantized storage => validateQuantizedBinding inputs storage target

/-- One input of a graph against its source. -/
def validateGraphInput (inputs : PlanInputs) (input : OperationInput) (source : SourceTensor) :
    Result Unit := do
  if input.name ≠ source.name then
    .error (.binding "operation graph source order differs from its declared inputs")
  else if (firstMissingDigestOrdinal source.storage inputs.sourceDigests.length).isSome then
    .error (.binding "operation graph source file ordinal has no ordered content digest")
  else
    match source.storage with
    | .quantized _ =>
      .error (.unsupported "operation graphs do not implicitly decode quantized inputs")
    | .plain dtype span =>
      let actual ← TensorFacts.contiguous source.shape (.contiguous dtype)
      if input.facts ≠ actual ∨ input.facts.byteLen ≠ span.length then
        .error (.binding "operation graph input facts differ from the inventory source")
      else .ok ()

def validateGraphInputs (inputs : PlanInputs) :
    List OperationInput → List SourceTensor → Result Unit
  | input :: rest, source :: sources => do
    validateGraphInput inputs input source
    validateGraphInputs inputs rest sources
  | _, _ => .ok ()

def validateOperationBinding (inputs : PlanInputs) (sources : List SourceTensor)
    (target : TargetTensor) : Result Unit := do
  let graph ← okOr target.operationGraph (.binding "target has no operation graph")
  if graph.inputs.length ≠ sources.length then
    .error (.binding "operation graph source count differs from its binding")
  else validateGraphInputs inputs graph.inputs sources

/-! ## Resolution -/

section Resolve
variable (inputs : PlanInputs) (sources : List SourceTensor)

/-- `map.entry(key).or_default().push(index)`. -/
def pushEntry {κ : Type} [LinearOrder κ] (m : OrderedMap κ (List Nat)) (key : κ) (index : Nat) :
    OrderedMap κ (List Nat) :=
  m.insert key ((m.get? key).getD [] ++ [index])

def groupNames (names : List TensorName) : OrderedMap TensorName (List Nat) :=
  names.zipIdx.foldl (fun m e => pushEntry m e.1 e.2) .empty

/-- What the resolver does for one target: the match it inserts, if any, and the
diagnostics it pushes. -/
structure Outcome where
  matched : Option (List Nat)
  diagnostics : List PlanDiagnostic

def indicesOf (sourceNames : OrderedMap TensorName (List Nat)) (name : TensorName) : List Nat :=
  (sourceNames.get? name).getD []

def namesAt (indices : List Nat) : List TensorName :=
  (indices.filterMap fun index => sources[index]?).map SourceTensor.name

def missingDiagnostic (target : TargetTensor) (related : List TensorName)
    (required optional : String) : PlanDiagnostic :=
  match target.requirement with
  | .required => .new .error .missingRequired target.name related required
  | .optional => .new .info .missingOptional target.name related optional

/-- The diagnostics of one source matched with one target. -/
def pairDiagnostics (source : SourceTensor) (target : TargetTensor) : List PlanDiagnostic :=
  (if source.shape ≠ target.sourceShape then
    [.new .error .shapeMismatch target.name [source.name] ("source shape " ++
      toString source.shape ++ " does not match expected shape " ++ toString target.sourceShape)]
    else []) ++
  (if (firstMissingDigestOrdinal source.storage inputs.sourceDigests.length).isSome then
    [.new .error .missingSourceDigest source.name [target.name]
      "source or quantized companion file ordinal has no ordered content digest"]
    else []) ++
  (match validateBinding inputs source target with
    | .ok () => []
    | .error e => [.new .error (match source.storage with
        | .plain .. => .unsupportedTransform
        | .quantized _ => .unsupportedQuantizedRoute) target.name [source.name] e.message])

/-- A target without a graph: its own name and its aliases select the candidates. -/
def resolveNamed (sourceNames : OrderedMap TensorName (List Nat)) (target : TargetTensor) :
    Outcome :=
  match sortDedup ((target.name :: target.aliases).flatMap (indicesOf sourceNames)) with
  | [] => ⟨none, [missingDiagnostic target target.aliases
      "no inventory tensor matched the required target or its aliases"
      "no inventory tensor matched the optional target or its aliases"]⟩
  | [index] =>
    match sources[index]? with
    | none => ⟨none, []⟩
    | some source => ⟨some [index], pairDiagnostics inputs source target⟩
  | candidates => ⟨none, [.new .error .ambiguousBinding target.name (namesAt sources candidates)
      "more than one inventory tensor matched the target name or aliases"]⟩

/-- The sources of the inputs of a graph, the names without one and the names
with several. -/
structure GraphSources where
  indices : List Nat
  missing : List TensorName
  ambiguous : List TensorName

def collectGraphSources (sourceNames : OrderedMap TensorName (List Nat)) :
    List OperationInput → GraphSources
  | [] => ⟨[], [], []⟩
  | input :: rest =>
    let found := collectGraphSources sourceNames rest
    match indicesOf sourceNames input.name with
    | [] => { found with missing := input.name :: found.missing }
    | [index] => { found with indices := index :: found.indices }
    | indices => { found with ambiguous := namesAt sources indices ++ found.ambiguous }

def resolveOperationGraphBinding (sourceNames : OrderedMap TensorName (List Nat))
    (target : TargetTensor) (graph : OperationGraph) : Outcome :=
  let found := collectGraphSources sources sourceNames graph.inputs
  if found.ambiguous ≠ [] then
    ⟨none, [.new .error .ambiguousBinding target.name found.ambiguous
      "an operation-graph input matched more than one inventory tensor"]⟩
  else if found.missing ≠ [] then
    ⟨none, [missingDiagnostic target found.missing
      "one or more required operation-graph inputs are absent"
      "one or more optional operation-graph inputs are absent"]⟩
  else
    let selected := found.indices.filterMap fun index => sources[index]?
    ⟨some found.indices, match validateOperationBinding inputs selected target with
      | .ok () => []
      | .error e => [.new .error .unsupportedTransform target.name
          (selected.map SourceTensor.name) e.message]⟩

def resolveTarget (sourceNames : OrderedMap TensorName (List Nat)) (target : TargetTensor) :
    Outcome :=
  match target.operationGraph with
  | some graph => resolveOperationGraphBinding inputs sources sourceNames target graph
  | none => resolveNamed inputs sources sourceNames target

structure Resolution where
  matched : OrderedMap Nat (List Nat)
  unusedSources : List Nat
  diagnostics : List PlanDiagnostic

/-- The matches and diagnostics so far. -/
structure Progress where
  matched : OrderedMap Nat (List Nat)
  diagnostics : List PlanDiagnostic

def resolveStep (sourceNames targetNames : OrderedMap TensorName (List Nat)) (p : Progress)
    (entry : TargetTensor × Nat) : Progress :=
  if (indicesOf targetNames entry.1.name).length > 1 then p
  else
    let outcome := resolveTarget inputs sources sourceNames entry.1
    ⟨match outcome.matched with
      | some indices => p.matched.insert entry.2 indices
      | none => p.matched,
      p.diagnostics ++ outcome.diagnostics⟩

def duplicateDiagnostics (names : OrderedMap TensorName (List Nat)) (code : DiagnosticCode)
    (message : String) : List PlanDiagnostic :=
  names.entries.filterMap fun e =>
    if e.2.length > 1 then some (.new .error code e.1 [] message) else none

/-- The targets that each source is matched with. -/
def reusedBy (matched : OrderedMap Nat (List Nat)) : OrderedMap Nat (List Nat) :=
  matched.entries.foldl (fun m e =>
    (sortDedup e.2).foldl (fun m source => pushEntry m source e.1) m) .empty

/-- Whether all targets declare one common group. -/
def commonGroup : List TargetTensor → Bool
  | [] => false
  | target :: rest => target.sharedSourceGroup.isSome &&
      rest.all fun other => other.sharedSourceGroup = target.sharedSourceGroup

def reuseDiagnostics (targets : List TargetTensor) (source : Nat) (users : List Nat) :
    List PlanDiagnostic :=
  let users := users.filterMap fun index => targets[index]?
  if users.length < 2 ∨ commonGroup users then []
  else match sources[source]? with
    | none => []
    | some source => users.map fun target => .new .error .conflictingSourceReuse target.name
        (users.map TargetTensor.name)
        ("source " ++ source.name.text ++ " is shared without one explicit tied-weight group")

def extraSeverity : ExtraSourcePolicy → DiagnosticSeverity
  | .reject => .error
  | .allow => .warning

def resolveBindings (sort : KeySort TensorName) (targets : List TargetTensor)
    (policy : ExtraSourcePolicy) : Resolution :=
  let sourceNames := groupNames (sources.map SourceTensor.name)
  let targetNames := groupNames (targets.map TargetTensor.name)
  let targetOrder := sort.sort (fun e => e.1.name) targets.zipIdx
  let progress := targetOrder.foldl (resolveStep inputs sources sourceNames targetNames)
    ⟨.empty, duplicateDiagnostics sourceNames .duplicateSource
        "inventory contains more than one tensor with this name" ++
      duplicateDiagnostics targetNames .duplicateTarget
        "contract contains more than one target with this name"⟩
  let reused := (reusedBy progress.matched).entries.flatMap fun e =>
    reuseDiagnostics sources targets e.1 e.2
  let usedSources := progress.matched.entries.flatMap Prod.snd
  let unusedSources := (List.range sources.length).filter fun index => index ∉ usedSources
  let extra := (namesAt sources unusedSources).map fun name =>
    .new (extraSeverity policy) .extraSource name []
      "inventory tensor was not selected by the target contract"
  ⟨progress.matched, unusedSources, sortDedup (progress.diagnostics ++ reused ++ extra)⟩

end Resolve

/-! ## Plans -/

structure Binding where
  sources : List SourceTensor
  target : TargetTensor
  deriving DecidableEq

def Binding.new (sources : List SourceTensor) (target : TargetTensor) : Result Binding :=
  if sources.isEmpty then
    .error (.binding "a target binding must contain at least one ordered source")
  else .ok ⟨sources, target⟩

def planSchemaVersion : Nat := 2

structure PlanIdentityPayload where
  schemaVersion : Nat
  inputs : PlanInputs
  sources : List SourceTensor
  targets : List TargetTensor
  extraSourcePolicy : ExtraSourcePolicy
  bindings : List Binding
  missingOptional : List TensorName
  unusedSources : List TensorName
  deriving DecidableEq

structure BindingPlan extends PlanIdentityPayload where
  id : PlanId
  deriving DecidableEq

structure PlanBuilder where
  inputs : PlanInputs
  sources : List SourceTensor
  targets : List TargetTensor
  extraSourcePolicy : ExtraSourcePolicy

/-- What planning takes from outside: an unstable sort by name, SHA-256, and the
canonical JSON of an identity payload. -/
structure Planner where
  sort : KeySort TensorName
  sha256 : List UInt8 → ContentDigest
  payloadJson : PlanIdentityPayload → List UInt8

def Planner.computePlanId (planner : Planner) (payload : PlanIdentityPayload) : PlanId :=
  ContentDigest.hash planner.sha256 "binding-plan-v2" [planner.payloadJson payload]

namespace PlanBuilder
variable (planner : Planner) (b : PlanBuilder)

/-- The diagnostics of `PlanBuilder::analyze`. -/
def analyze : List PlanDiagnostic :=
  (resolveBindings b.inputs b.sources planner.sort b.targets b.extraSourcePolicy).diagnostics

def rejected (diagnostics : List PlanDiagnostic) : Error :=
  .binding ("binding plan rejected: " ++
    "; ".intercalate ((diagnostics.filter PlanDiagnostic.isError).map PlanDiagnostic.display))

/-- The bindings of a resolution, by target name. -/
def makeBindings (sources : List SourceTensor) (targets : List TargetTensor)
    (matched : OrderedMap Nat (List Nat)) : Result (List Binding) := do
  let bindings ← (matched.entries.filterMap fun e =>
      targets[e.1]?.map fun target => (target, e.2)).mapM
    fun e => Binding.new (e.2.filterMap fun index => sources[index]?) e.1
  .ok (planner.sort.sort (fun binding => binding.target.name) bindings)

def missingOptional (targets : List TargetTensor) (bindings : List Binding) : List TensorName :=
  sortDedup ((targets.filter fun target => target.requirement = .optional ∧
    ¬bindings.any fun binding => binding.target.name = target.name).map TargetTensor.name)

def build : Result BindingPlan := do
  let sources := planner.sort.sort SourceTensor.name b.sources
  let targets := planner.sort.sort TargetTensor.name b.targets
  let resolution := resolveBindings b.inputs sources planner.sort targets b.extraSourcePolicy
  if resolution.diagnostics.any PlanDiagnostic.isError then
    .error (rejected resolution.diagnostics)
  else
    let bindings ← makeBindings planner sources targets resolution.matched
    let payload : PlanIdentityPayload := {
      schemaVersion := planSchemaVersion
      inputs := b.inputs
      sources, targets
      extraSourcePolicy := b.extraSourcePolicy
      bindings
      missingOptional := missingOptional targets bindings
      unusedSources := sortDedup (namesAt sources resolution.unusedSources) }
    .ok { payload with id := planner.computePlanId payload }

end PlanBuilder

end ModelWeights.Plan
