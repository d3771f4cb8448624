import ModelWeights.Plan.Validity
import ModelWeights.Plan.Codec
import ModelWeights.Overlay.Digest

/-! # Canonical overlay documents

The data of a plan as its JSON holds it, and `OverlayPlan::from_canonical_json`. The
parser of JSON is a parameter; what the wire types do with the parsed data is written
out here. -/
namespace ModelWeights.Overlay
open ModelWeights.Graph Plan Canonical Groups

/-! ## Documents -/

structure BaseTensorWire where
  name : TensorName
  shape : List Nat
  content : ContentDigest

/-- An operation whose scale has not been checked. -/
inductive OverlayOperationDocument where
  | replace (target : TensorName) (value : SourceTensor) (implementation : ImplementationId)
  | add (target : TensorName) (value : SourceTensor) (scale : F64)
      (implementation : ImplementationId)
  | lowRank (target : TensorName) (down up : SourceTensor) (rank : Nat) (scale : F64)
      (implementation : ImplementationId)
  | recipe (target : TensorName) (inputs : OrderedMap TensorName SourceTensor)
      (outputShape : List Nat) (recipe : ConversionRecipe)

structure OverlayLayerWire where
  schemaVersion : Nat
  id : OverlayId
  sourceDigests : List ContentDigest
  operations : List OverlayOperationDocument

structure OverlayBindingDocument where
  base : BaseTensorWire
  operations : List OverlayOperationRef

structure OverlayPlanWire where
  schemaVersion : Nat
  mode : CompositionMode
  conflictPolicy : ConflictPolicy
  aliases : AliasEntries
  bases : List BaseTensorWire
  layers : List OverlayLayerWire
  bindings : List OverlayBindingDocument
  digest : ContentDigest

def BaseTensor.document (base : BaseTensor) : BaseTensorWire := ⟨base.name, base.shape, base.content⟩

def OverlayOperation.document : OverlayOperation → OverlayOperationDocument
  | .replace target value implementation => .replace target value implementation
  | .add target value scale implementation => .add target value scale.value implementation
  | .lowRank target down up rank scale implementation =>
    .lowRank target down up rank scale.value implementation
  | .recipe target inputs outputShape conversion => .recipe target inputs outputShape conversion

def OverlayLayer.document (layer : OverlayLayer) : OverlayLayerWire :=
  ⟨layer.schemaVersion, layer.id, layer.sourceDigests,
    layer.operations.map OverlayOperation.document⟩

def OverlayBinding.document (binding : OverlayBinding) : OverlayBindingDocument :=
  ⟨binding.base.document, binding.operations⟩

def OverlayPlan.document (plan : OverlayPlan) : OverlayPlanWire :=
  { plan with
    aliases := plan.aliases.entries
    bases := plan.bases.map BaseTensor.document
    layers := plan.layers.map OverlayLayer.document
    bindings := plan.bindings.map OverlayBinding.document }

/-! ## Decoding -/

def BaseTensorWire.decode (wire : BaseTensorWire) : Option BaseTensor :=
  if wire.name.valid then (BaseTensor.new wire.name wire.shape wire.content).toOption else none

def decodeAliases (entries : AliasEntries) : Option AliasTable :=
  if entries.entries.all fun e => e.1.valid && e.2.valid then
    (AliasTable.new (entries.entries.map fun e => ⟨e.1, e.2⟩)).toOption
  else none

def decodeInput (entry : TensorName × SourceTensor) : Option (TensorName × SourceTensor) :=
  if entry.1.valid then entry.2.decode.map (Prod.mk entry.1) else none

def OverlayOperationDocument.decode : OverlayOperationDocument → Option OverlayOperation
  | .replace target value implementation => do
    let value ← value.decode
    if target.valid && implementation.valid then some (.replace target value implementation)
    else none
  | .add target value scale implementation => do
    let value ← value.decode
    let scale ← (FiniteScale.new scale).toOption
    if target.valid && implementation.valid then some (.add target value scale implementation)
    else none
  | .lowRank target down up rank scale implementation => do
    let down ← down.decode
    let up ← up.decode
    let scale ← (FiniteScale.new scale).toOption
    if target.valid && implementation.valid then
      some (.lowRank target down up rank scale implementation)
    else none
  | .recipe target inputs outputShape conversion => do
    let inputs ← inputs.entries.mapM decodeInput
    if target.valid && conversion.valid then
      some (.recipe target (OrderedMap.ofList inputs) outputShape conversion)
    else none

/-- `OverlayLayer::try_from` on decoded operations. -/
def OverlayLayer.tryFrom (h : OverlayHashing) (schemaVersion : Nat) (id : OverlayId)
    (sourceDigests : List ContentDigest) (operations : List OverlayOperation) :
    Result OverlayLayer := do
  if schemaVersion ≠ overlaySchemaVersion then
    .error (.invalid "unsupported overlay layer schema version")
  else
    let layer ← OverlayLayer.new h sourceDigests operations
    if layer.id ≠ id then
      .error (.integrity "overlay layer identity does not match normalized content")
    else .ok layer

def OverlayLayerWire.decode (h : OverlayHashing) (wire : OverlayLayerWire) :
    Option OverlayLayer := do
  let operations ← wire.operations.mapM OverlayOperationDocument.decode
  (OverlayLayer.tryFrom h wire.schemaVersion wire.id wire.sourceDigests operations).toOption

def OverlayBindingDocument.decode (document : OverlayBindingDocument) :
    Option OverlayBinding := do
  let base ← document.base.decode
  some ⟨base, document.operations⟩

/-- `OverlayPlan::try_from` on decoded fields: the plan is built again. -/
def OverlayPlan.tryFrom (h : OverlayHashing) (sort : KeySort TensorName) (wire : OverlayPlan) :
    Result OverlayPlan := do
  if wire.schemaVersion ≠ overlaySchemaVersion then
    .error (.invalid "unsupported ordered-overlay schema version")
  else
    let plan ← OverlayPlan.build h sort wire.bases wire.aliases wire.layers wire.conflictPolicy
      wire.mode
    if plan.bindings ≠ wire.bindings ∨ plan.digest ≠ wire.digest then
      .error (.integrity
        "overlay plan derived bindings or identity do not match normalized content")
    else .ok plan

def OverlayPlanWire.decode (h : OverlayHashing) (sort : KeySort TensorName)
    (wire : OverlayPlanWire) : Option OverlayPlan := do
  let aliases ← decodeAliases wire.aliases
  let bases ← wire.bases.mapM BaseTensorWire.decode
  let layers ← wire.layers.mapM (OverlayLayerWire.decode h)
  let bindings ← wire.bindings.mapM OverlayBindingDocument.decode
  (OverlayPlan.tryFrom h sort
    { wire with aliases := aliases, bases := bases, layers := layers, bindings := bindings }).toOption

def OverlayPlan.fromCanonicalJson (h : OverlayHashing) (sort : KeySort TensorName)
    (parse : List UInt8 → Option OverlayPlanWire) (bytes : List UInt8) : Result OverlayPlan := do
  let plan ← okOr ((parse bytes).bind (OverlayPlanWire.decode h sort))
    (.invalid "parse ordered-overlay JSON")
  if plan.toCanonicalJson h ≠ bytes then
    .error (.invalid "ordered-overlay JSON is not canonical")
  else .ok plan

/-! ## Values that exist -/

/-- An operation of valid parts. -/
def OverlayOperation.Made : OverlayOperation → Prop
  | .replace target value implementation | .add target value _ implementation =>
    target.valid = true ∧ value.Made ∧ implementation.valid = true
  | .lowRank target down up _ _ implementation =>
    target.valid = true ∧ down.Made ∧ up.Made ∧ implementation.valid = true
  | .recipe target inputs _ conversion =>
    target.valid = true ∧ (∀ entry ∈ inputs.entries, entry.1.valid = true ∧ entry.2.Made) ∧
      conversion.valid = true

/-- The arguments of `OverlayPlan::build` are values that their constructors made. -/
structure ArgumentsMade (h : OverlayHashing) (bases : List BaseTensor) (aliases : AliasTable)
    (layers : List OverlayLayer) : Prop where
  baseNames : ∀ base ∈ bases, base.name.valid = true
  aliasNames : ∀ entry ∈ aliases.entries.entries, entry.1.valid = true ∧ entry.2.valid = true
  layersMade : ∀ layer ∈ layers, layer.Made h
  operationsMade : ∀ layer ∈ layers, ∀ operation ∈ layer.operations, operation.Made

/-! ## Decoding undoes encoding -/

theorem BaseTensor.document_decode {base : BaseTensor} (hname : base.name.valid = true) :
    base.document.decode = some base := by
  have hnew : BaseTensor.new base.name base.shape base.content = .ok base := by
    unfold BaseTensor.new
    split
    · next e he =>
      have hcounted := base.counted
      rw [he] at hcounted
      cases hcounted
    · rfl
  rw [BaseTensorWire.decode, document, if_pos hname, hnew]
  rfl

theorem FiniteScale.new_value (scale : FiniteScale) : FiniteScale.new scale.value = .ok scale := by
  unfold new
  rw [dif_pos scale.finite]
  split
  · next hzero =>
    have hvalue := scale.oneZero hzero
    congr
    exact hvalue.symm
  · rfl

/-- The entries of a table make the table again. -/
theorem AliasTable.new_entries (table : AliasTable) :
    AliasTable.new (table.entries.entries.map fun e => ⟨e.1, e.2⟩) = .ok table := by
  have hdeclares : Declares (table.entries.entries.map fun e => ⟨e.1, e.2⟩) =
      FunctionalGraph.Step table.entries.get? := by
    funext a b
    refine propext ?_
    rw [FunctionalGraph.Step, OrderedMap.get?_eq_some, Declares, List.mem_map]
    constructor
    · rintro ⟨e, he, heq⟩
      obtain ⟨rfl, rfl⟩ := Alias.mk.inj heq
      exact he
    · exact fun he => ⟨(a, b), he, rfl⟩
  have honce : ((table.entries.entries.map fun e => (⟨e.1, e.2⟩ : Alias)).map
      Alias.aliasName).Nodup := by
    rw [List.map_map]
    exact table.entries.nodup_keys
  obtain ⟨entries, hcollect⟩ := collectAliases_iff.mpr
    (addable_of_acyclic honce (by rw [hdeclares]; exact table.acyclic_get?))
  have hentries : entries = table.entries := by
    refine OrderedMap.ext_get? fun name => Option.ext fun target => ?_
    rw [get?_collectAliases hcollect, hdeclares]
    exact or_iff_right fun he => by cases he
  subst hentries
  exact AliasTable.new_of_collect hcollect table.acyclic

theorem decodeAliases_entries {table : AliasTable}
    (h : ∀ entry ∈ table.entries.entries, entry.1.valid = true ∧ entry.2.valid = true) :
    decodeAliases table.entries = some table := by
  have hall : (table.entries.entries.all fun e => e.1.valid && e.2.valid) = true :=
    List.all_eq_true.mpr fun e he => Bool.and_eq_true_iff.mpr (h e he)
  rw [decodeAliases, if_pos hall, table.new_entries]
  rfl

theorem decodeInputs_of_made {inputs : OrderedMap TensorName SourceTensor}
    (h : ∀ entry ∈ inputs.entries, entry.1.valid = true ∧ entry.2.Made) :
    inputs.entries.mapM decodeInput = some inputs.entries := by
  have hmap := mapM_decode_eq decodeInput id
    fun entry he => by
      obtain ⟨hname, hmade⟩ := h entry he
      rw [id, decodeInput, if_pos hname, entry.2.decode_of_made hmade]
      rfl
  rwa [List.map_id] at hmap

theorem OverlayOperation.document_decode {operation : OverlayOperation} (h : operation.Made) :
    operation.document.decode = some operation := by
  cases operation with
  | replace target value implementation =>
    obtain ⟨htarget, hvalue, himpl⟩ := h
    rw [document, OverlayOperationDocument.decode, value.decode_of_made hvalue]
    exact if_pos (Bool.and_eq_true_iff.mpr ⟨htarget, himpl⟩)
  | add target value scale implementation =>
    obtain ⟨htarget, hvalue, himpl⟩ := h
    rw [document, OverlayOperationDocument.decode, value.decode_of_made hvalue, scale.new_value]
    exact if_pos (Bool.and_eq_true_iff.mpr ⟨htarget, himpl⟩)
  | lowRank target down up rank scale implementation =>
    obtain ⟨htarget, hdown, hup, himpl⟩ := h
    rw [document, OverlayOperationDocument.decode, down.decode_of_made hdown,
      up.decode_of_made hup, scale.new_value]
    exact if_pos (Bool.and_eq_true_iff.mpr ⟨htarget, himpl⟩)
  | recipe target inputs outputShape conversion =>
    obtain ⟨htarget, hinputs, hconversion⟩ := h
    have hmap : OrderedMap.ofList inputs.entries = inputs := ofList_entries inputs
    rw [document, OverlayOperationDocument.decode, decodeInputs_of_made hinputs]
    show (if target.valid && conversion.valid then
      some (OverlayOperation.recipe target (OrderedMap.ofList inputs.entries) outputShape conversion)
      else none) = _
    rw [hmap]
    exact if_pos (Bool.and_eq_true_iff.mpr ⟨htarget, hconversion⟩)

section Layer
variable {h : OverlayHashing}

theorem OverlayLayer.Made.version {layer : OverlayLayer} (hmade : layer.Made h) :
    layer.schemaVersion = overlaySchemaVersion := by
  unfold OverlayLayer.Made OverlayLayer.new at hmade
  obtain ⟨_, hmade⟩ := unless_error_ok hmade
  obtain ⟨_, _, hmade⟩ := bind_ok hmade
  exact (congrArg OverlayLayer.schemaVersion (Except.ok.inj hmade)).symm

theorem OverlayLayer.document_decode {layer : OverlayLayer} (hmade : layer.Made h)
    (hops : ∀ operation ∈ layer.operations, operation.Made) :
    layer.document.decode h = some layer := by
  have hoperations := mapM_decode_eq OverlayOperationDocument.decode
    OverlayOperation.document fun operation hm =>
      OverlayOperation.document_decode (hops operation hm)
  have htry : OverlayLayer.tryFrom h layer.schemaVersion layer.id layer.sourceDigests
      layer.operations = .ok layer := by
    unfold OverlayLayer.tryFrom
    rw [if_neg (not_not.mpr hmade.version), hmade]
    exact if_neg (not_not.mpr rfl)
  unfold OverlayLayerWire.decode
  show ((layer.operations.map OverlayOperation.document).mapM OverlayOperationDocument.decode
    >>= _) = _
  rw [hoperations]
  show (OverlayLayer.tryFrom h layer.schemaVersion layer.id layer.sourceDigests
    layer.operations).toOption = _
  rw [htry]
  rfl

end Layer

/-! ## Plans that were built -/

section Built
variable {h : OverlayHashing} {sort : KeySort TensorName} {bases : List BaseTensor}
  {aliases : AliasTable} {layers : List OverlayLayer} {policy : ConflictPolicy}
  {mode : CompositionMode} {plan : OverlayPlan}

variable (sort) in
/-- The order of the bases does not matter. -/
theorem build_perm (sort' : KeySort TensorName) {bases' : List BaseTensor}
    (hperm : bases'.Perm bases) (hn : (bases.map BaseTensor.name).Nodup) :
    OverlayPlan.build h sort' bases' aliases layers policy mode =
      OverlayPlan.build h sort bases aliases layers policy mode := by
  have hn' : (bases'.map BaseTensor.name).Nodup := (hperm.map BaseTensor.name).nodup_iff.mpr hn
  rw [OverlayPlan.build, OverlayPlan.build, KeySort.eq_of_perm sort' sort hperm hn']

/-- A built plan is decoded from its document. -/
theorem OverlayPlan.document_decode (hargs : ArgumentsMade h bases aliases layers)
    (hb : OverlayPlan.build h sort bases aliases layers policy mode = .ok plan)
    (sort' : KeySort TensorName) : plan.document.decode h sort' = some plan := by
  obtain ⟨hcomposed, hn, hbases, haliases, hlayers, hpolicy, hmode⟩ := build_ok hb
  have hperm : plan.bases.Perm bases := by
    rw [hbases]
    exact sort.perm BaseTensor.name bases
  have hdaliases : decodeAliases plan.aliases.entries = some plan.aliases := by
    rw [haliases]
    exact decodeAliases_entries hargs.aliasNames
  have hdbases := mapM_decode_eq BaseTensorWire.decode BaseTensor.document
    (l := plan.bases) fun base hm =>
      BaseTensor.document_decode (hargs.baseNames base (hperm.mem_iff.mp hm))
  have hdlayers := mapM_decode_eq (OverlayLayerWire.decode h) OverlayLayer.document
    (l := plan.layers) fun layer hm => by
      rw [hlayers] at hm
      exact OverlayLayer.document_decode (hargs.layersMade layer hm)
        (hargs.operationsMade layer hm)
  have hdbindings := mapM_decode_eq OverlayBindingDocument.decode OverlayBinding.document
    (l := plan.bindings) fun binding hm => by
      rw [hcomposed.bindings] at hm
      obtain ⟨base, hbase, rfl⟩ := List.mem_map.mp hm
      have hname := hargs.baseNames base (hperm.mem_iff.mp hbase)
      unfold OverlayBindingDocument.decode
      show base.document.decode >>= _ = _
      rw [base.document_decode hname]
      rfl
  have hrebuilt : OverlayPlan.build h sort' plan.bases plan.aliases plan.layers
      plan.conflictPolicy plan.mode = .ok plan := by
    rw [build_perm sort sort' hperm hn, haliases, hlayers, hpolicy, hmode, hb]
  have htry : OverlayPlan.tryFrom h sort' plan = .ok plan := by
    unfold OverlayPlan.tryFrom
    rw [if_neg (not_not.mpr hcomposed.version), hrebuilt]
    exact if_neg (by simp)
  unfold OverlayPlanWire.decode
  show decodeAliases plan.aliases.entries >>= _ = _
  rw [hdaliases]
  show (plan.bases.map BaseTensor.document).mapM BaseTensorWire.decode >>= _ = _
  rw [hdbases]
  show (plan.layers.map OverlayLayer.document).mapM (OverlayLayerWire.decode h) >>= _ = _
  rw [hdlayers]
  show (plan.bindings.map OverlayBinding.document).mapM OverlayBindingDocument.decode >>= _ = _
  rw [hdbindings]
  show (OverlayPlan.tryFrom h sort' plan).toOption = _
  rw [htry]
  rfl

end Built

namespace Stacked

/-- SHA-256 on what the two layers and the plan hash, told apart by their lengths. -/
def sha256 (bytes : List UInt8) : ContentDigest :=
  if bytes.length = 401 then Sample.wDigest
  else if bytes.length = 619 then
    ⟨[55, 220, 48, 246, 255, 169, 196, 160, 50, 132, 15, 30, 82, 61, 183, 105, 74, 25, 144, 76,
      242, 217, 140, 178, 0, 217, 165, 229, 41, 101, 212, 77], rfl⟩
  else
    ⟨[238, 44, 193, 114, 104, 73, 76, 244, 194, 108, 10, 181, 196, 150, 157, 48, 199, 200, 174,
      218, 94, 69, 59, 246, 141, 86, 2, 141, 252, 66, 112, 25], rfl⟩

def hashing : OverlayHashing := ⟨sha256, Sample.operationJson⟩

def layer (operations : List OverlayOperation) : OverlayLayer where
  schemaVersion := 1
  id := ContentDigest.hash sha256 "overlay-layer-v1"
    [canonicalJson (layerIdentityJson hashing [Sample.digest 2] operations)]
  sourceDigests := [Sample.digest 2]
  operations := operations

/-- Two layers on two bases; the second layer names one of them by its alias. -/
def layers : List OverlayLayer :=
  [layer [Sample.operation "w"], layer [Sample.operation "tied", Sample.operation "x"]]

def build : Result OverlayPlan :=
  OverlayPlan.build hashing insertionKeySort [Sample.base "x", Sample.base "w"] Sample.aliases
    layers .ordered .lazy

end Stacked

end ModelWeights.Overlay
