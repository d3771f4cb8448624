import ModelWeights.Lib.Json
import ModelWeights.Plan.Contract
import ModelWeights.Prepared.Address

/-! # Overlay layers

The operations of an overlay and the layers that hold them. The JSON of one
operation and SHA-256 are parameters; the JSON around operations is written out. -/
namespace ModelWeights.Overlay
open ModelWeights.Graph Plan Prepared Parsing PrefixCode

def overlaySchemaVersion : Nat := 1

/-! ## Scales -/

/-- An `f64`, by its bits. -/
abbrev F64 := UInt64

def isFinite (value : F64) : Bool := (value >>> 52) &&& 0x7ff != 0x7ff

/-- Positive or negative zero. -/
def isZero (value : F64) : Bool := value &&& 0x7fffffffffffffff == 0

structure FiniteScale where
  value : F64
  finite : isFinite value = true
  oneZero : isZero value = true → value = 0
  deriving DecidableEq

def FiniteScale.new (value : F64) : Result FiniteScale :=
  if h : isFinite value = true then
    if hz : isZero value = true then .ok ⟨0, by decide, fun _ => rfl⟩
    else .ok ⟨value, h, fun hzero => absurd hzero hz⟩
  else .error (.invalid "overlay scale must be finite")

/-! ## Bases -/

/-- A tensor that overlays apply to. Its number of elements fits `u64`. -/
structure BaseTensor where
  name : TensorName
  shape : List Nat
  content : ContentDigest
  counted : (checkedElements shape "base tensor").isOk = true
  deriving DecidableEq

def BaseTensor.new (name : TensorName) (shape : List Nat) (content : ContentDigest) :
    Result BaseTensor :=
  match h : checkedElements shape "base tensor" with
  | .error e => .error e
  | .ok _ => .ok ⟨name, shape, content, by rw [h]; rfl⟩

/-! ## Operations -/

inductive OverlayOperation where
  | replace (target : TensorName) (value : SourceTensor) (implementation : ImplementationId)
  | add (target : TensorName) (value : SourceTensor) (scale : FiniteScale)
      (implementation : ImplementationId)
  | lowRank (target : TensorName) (down up : SourceTensor) (rank : Nat) (scale : FiniteScale)
      (implementation : ImplementationId)
  | recipe (target : TensorName) (inputs : OrderedMap TensorName SourceTensor)
      (outputShape : List Nat) (recipe : ConversionRecipe)
  deriving DecidableEq

namespace OverlayOperation

def target : OverlayOperation → TensorName
  | .replace target _ _ | .add target _ _ _ | .lowRank target _ _ _ _ _ | .recipe target _ _ _ =>
    target

def sources : OverlayOperation → List SourceTensor
  | .replace _ value _ | .add _ value _ _ => [value]
  | .lowRank _ down up _ _ _ => [down, up]
  | .recipe _ inputs _ _ => inputs.entries.map Prod.snd

end OverlayOperation

/-- A file ordinal of the storage that `digestCount` digests do not cover. -/
def storageHasMissingDigest (storage : Storage) (digestCount : Nat) : Bool :=
  (fileOrdinals storage).any fun ordinal => digestCount ≤ ordinal

def validateOperationSources (operation : OverlayOperation) (digestCount : Nat) : Result Unit :=
  if operation.sources.any fun source => storageHasMissingDigest source.storage digestCount then
    .error (.binding
      "overlay source or quantized companion file ordinal has no ordered content digest")
  else .ok ()

def validateRecipeInputs : OverlayOperation → Result Unit
  | .recipe target inputs outputShape recipe => do
    let _ ← checkedElements outputShape "overlay recipe output"
    if recipe.inputs.length ≠ inputs.entries.length ∨ recipe.inputs.any fun name =>
        (inputs.get? name).all fun source => source.name ≠ name then
      .error (.binding "overlay recipe inputs do not match supplied source tensors")
    else if ¬recipe.outputs.contains target then
      .error (.binding "overlay recipe does not declare its target tensor as an output")
    else .ok ()
  | _ => .ok ()

def validateOperation (digestCount : Nat) (operation : OverlayOperation) : Result Unit := do
  validateOperationSources operation digestCount
  validateRecipeInputs operation

def validateOperations (digestCount : Nat) : List OverlayOperation → Result Unit
  | [] => .ok ()
  | operation :: rest => do
    validateOperation digestCount operation
    validateOperations digestCount rest

/-! ## Identities -/

abbrev OverlayId := ContentDigest

/-- What identities of overlays take from outside. -/
structure OverlayHashing where
  sha256 : List UInt8 → ContentDigest
  operationJson : OverlayOperation → Json

def canonicalJson (json : Json) : List UInt8 := utf8 (String.ofList json.render)

/-- The two hexadecimal digits of a byte. -/
def hexByte (byte : UInt8) : List Char :=
  [Json.hexDigit (byte.toNat / 16), Json.hexDigit (byte.toNat % 16)]

def digestJson (digest : ContentDigest) : Json :=
  .text (String.ofList (digest.bytes.flatMap hexByte))

def nameJson (name : TensorName) : Json := .text name.text

/-- One independently identified layer of operations, with the digests of the files
that their sources lie in. -/
structure OverlayLayer where
  schemaVersion : Nat
  id : OverlayId
  sourceDigests : List ContentDigest
  operations : List OverlayOperation
  deriving DecidableEq

def layerIdentityJson (h : OverlayHashing) (sourceDigests : List ContentDigest)
    (operations : List OverlayOperation) : Json :=
  .fields [("schema_version", .nat overlaySchemaVersion),
    ("source_digests", .list (sourceDigests.map digestJson)),
    ("operations", .list (operations.map h.operationJson))]

def OverlayLayer.new (h : OverlayHashing) (sourceDigests : List ContentDigest)
    (operations : List OverlayOperation) : Result OverlayLayer := do
  if operations.isEmpty then
    .error (.binding "overlay layer must contain at least one operation")
  else
    validateOperations sourceDigests.length operations
    let bytes := canonicalJson (layerIdentityJson h sourceDigests operations)
    .ok ⟨overlaySchemaVersion, ContentDigest.hash h.sha256 "overlay-layer-v1" [bytes],
      sourceDigests, operations⟩

/-- A layer that its constructor made. -/
def OverlayLayer.Made (h : OverlayHashing) (layer : OverlayLayer) : Prop :=
  OverlayLayer.new h layer.sourceDigests layer.operations = .ok layer

/-! ## Texts -/

theorem canonicalJson_injective : Function.Injective canonicalJson := by
  intro a b h
  have hbytes : (String.ofList a.render).toByteArray = (String.ofList b.render).toByteArray :=
    ByteArray.ext (Array.toList_inj.mp h)
  exact Json.render_injective (String.ofList_injective (String.toByteArray_inj.mp hbytes))

theorem hexDigit_inj : ∀ m < 16, ∀ n < 16, Json.hexDigit m = Json.hexDigit n → m = n := by decide

theorem prefixFree_hexByte : PrefixFree (fun _ => True) hexByte where
  ne_nil _ := List.cons_ne_nil _ _
  split := by
    intro a b s t _ _ h
    simp only [hexByte, List.cons_append, List.nil_append, List.cons.injEq] at h
    obtain ⟨hhigh, hlow, hrest⟩ := h
    have ha := a.toNat_lt
    have hb := b.toNat_lt
    have hhigh := hexDigit_inj _ (by omega) _ (by omega) hhigh
    have hlow := hexDigit_inj _ (by omega) _ (by omega) hlow
    exact ⟨UInt8.toNat_inj.mp (by omega), hrest⟩

@[simp] theorem digestJson_inj {a b : ContentDigest} : digestJson a = digestJson b ↔ a = b := by
  refine ⟨fun h => ?_, fun h => by rw [h]⟩
  have htext := String.ofList_injective (Json.text.inj h)
  have hbytes := prefixFree_hexByte.flatMap_injective (fun _ _ => trivial) (fun _ _ => trivial) htext
  cases a
  cases b
  congr

@[simp] theorem nameJson_inj {a b : TensorName} : nameJson a = nameJson b ↔ a = b := by
  refine ⟨fun h => ?_, fun h => by rw [h]⟩
  cases a
  cases b
  exact congrArg _ (Json.text.inj h)

/-! ## Layers that were made -/

section Made
variable {h : OverlayHashing} {layer : OverlayLayer}

theorem validateOperations_ok {count : Nat} {operations : List OverlayOperation}
    (h : validateOperations count operations = .ok ()) :
    ∀ operation ∈ operations, validateOperation count operation = .ok () := by
  induction operations with
  | nil => exact fun operation hm => absurd hm List.not_mem_nil
  | cons first rest ih =>
    rw [validateOperations] at h
    obtain ⟨_, hfirst, hrest⟩ := bind_ok h
    intro operation hm
    cases hm with
    | head => exact hfirst
    | tail _ hm => exact ih hrest operation hm

/-- A constructor that succeeds makes a layer. -/
theorem OverlayLayer.made_of_new {sourceDigests : List ContentDigest}
    {operations : List OverlayOperation}
    (hnew : OverlayLayer.new h sourceDigests operations = .ok layer) : layer.Made h := by
  unfold OverlayLayer.Made
  have hfields := hnew
  unfold OverlayLayer.new at hfields
  obtain ⟨_, hfields⟩ := unless_error_ok hfields
  obtain ⟨_, _, hfields⟩ := bind_ok hfields
  obtain rfl := Except.ok.inj hfields
  exact hnew

/-- The digests of a layer cover the files of its operations. -/
theorem OverlayLayer.Made.covers (hmade : layer.Made h) {operation : OverlayOperation}
    (hop : operation ∈ layer.operations) {source : SourceTensor} (hs : source ∈ operation.sources)
    {ordinal : Nat} (ho : ordinal ∈ fileOrdinals source.storage) :
    ordinal < layer.sourceDigests.length := by
  unfold OverlayLayer.Made OverlayLayer.new at hmade
  obtain ⟨_, hmade⟩ := unless_error_ok hmade
  obtain ⟨_, hall, _⟩ := bind_ok hmade
  have hop := validateOperations_ok hall operation hop
  unfold validateOperation at hop
  obtain ⟨_, hsources, _⟩ := bind_ok hop
  unfold validateOperationSources at hsources
  split at hsources
  · cases hsources
  · next hnone =>
    refine Nat.lt_of_not_le fun hle => hnone ?_
    refine List.any_eq_true.mpr ⟨source, hs, ?_⟩
    exact List.any_eq_true.mpr ⟨ordinal, ho, decide_eq_true hle⟩

end Made

end ModelWeights.Overlay
