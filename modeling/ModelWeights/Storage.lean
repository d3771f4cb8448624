import ModelWeights.Tensor
import ModelWeights.Lib.OrderedMap
import Mathlib.Data.List.Sort

/-! # Source spans and storage descriptors

The descriptors of `tensor.rs`, `quantization.rs` and `inventory.rs` for where
and how the bytes of a tensor are stored. -/
namespace ModelWeights

/-! ## Spans -/

/-- A source file within one inventory, by its ordinal. -/
abbrev FileId := Nat

structure SourceSpan where
  file : FileId
  offset : Nat
  length : Nat
  deriving DecidableEq, Repr

namespace SourceSpan

def new (file : FileId) (offset length : Nat) : Result SourceSpan := do
  let _ ← okOr (checkedAdd offset length) (.limit "source byte span end overflows u64")
  .ok ⟨file, offset, length⟩

/-- The exclusive end. -/
def finish (span : SourceSpan) : Nat := span.offset + span.length

theorem new_ok {file : FileId} {offset length : Nat} {span : SourceSpan}
    (h : new file offset length = .ok span) :
    span = ⟨file, offset, length⟩ ∧ offset + length < u64Size := by
  obtain ⟨n, hn, h⟩ := bind_ok h
  exact ⟨(Except.ok.inj h).symm, (checkedAdd_eq_some.mp (okOr_eq_ok.mp hn)).1⟩

theorem new_eq {file : FileId} {offset length : Nat} (h : offset + length < u64Size) :
    new file offset length = .ok ⟨file, offset, length⟩ := by
  unfold new
  rw [checkedAdd_eq_some.mpr ⟨h, rfl⟩]
  rfl

end SourceSpan

/-! ## Names in order -/

instance : LinearOrder StableName :=
  LinearOrder.lift' StableName.text fun a b h => by
    cases a
    cases b
    exact congrArg StableName.mk h

instance : LinearOrder TensorName :=
  LinearOrder.lift' TensorName.text fun a b h => by
    cases a
    cases b
    exact congrArg TensorName.mk h

/-! ## Provider values

`MetadataValue` and `RecipeValue` have the same shape; an object keeps its
fields in key order. -/

mutual

inductive ProviderValue where
  | bool (value : Bool)
  | i64 (value : Int)
  | u64 (value : Nat)
  | text (value : String)
  | bytes (value : List UInt8)
  | sequence (values : ProviderValues)
  | object (fields : ProviderFields)
  deriving DecidableEq, Repr

inductive ProviderValues where
  | nil
  | cons (value : ProviderValue) (rest : ProviderValues)
  deriving DecidableEq, Repr

inductive ProviderFields where
  | nil
  | cons (name : StableName) (value : ProviderValue) (rest : ProviderFields)
  deriving DecidableEq, Repr

end

abbrev MetadataValue := ProviderValue

/-! ## Packing -/

inductive PackingOrder where
  | flat
  | axis (axis : Nat)
  deriving DecidableEq, Repr

structure BlockPacking where
  valuesPerBlock : Nat
  bytesPerBlock : Nat
  order : PackingOrder
  deriving DecidableEq, Repr

def BlockPacking.new (valuesPerBlock bytesPerBlock : Nat) (order : PackingOrder) :
    Result BlockPacking :=
  if valuesPerBlock = 0 ∨ bytesPerBlock = 0 then
    .error (.invalid "quantized block value and byte counts must be greater than zero")
  else .ok ⟨valuesPerBlock, bytesPerBlock, order⟩

inductive Packing where
  | blocks (packing : BlockPacking)
  | opaquePayload
  deriving DecidableEq, Repr

structure Grouping where
  axis : Nat
  valuesPerGroup : Nat
  deriving DecidableEq, Repr

def Grouping.new (axis valuesPerGroup : Nat) : Result Grouping :=
  if valuesPerGroup = 0 then
    .error (.invalid "quantized values per group must be greater than zero")
  else .ok ⟨axis, valuesPerGroup⟩

def validateAxis (axis rank : Nat) (description : String) : Result Unit :=
  if axis ≥ rank then
    .error (.invalid (description ++ " axis lies outside the logical tensor rank"))
  else .ok ()

def blockBytes (values valuesPerBlock bytesPerBlock : Nat) : Result Nat := do
  if values = 0 then .ok 0
  else
    let rounded ← okOr (checkedAdd values (valuesPerBlock - 1))
      (.limit "quantized block count rounding overflows u64")
    okOr (checkedMul (rounded / valuesPerBlock) bytesPerBlock)
      (.limit "quantized packed byte length overflows u64")

/-- The bytes of a payload in fixed-size blocks. -/
def expectedPayload (shape : List Nat) (elements : Nat) (block : BlockPacking) : Result Nat := do
  match block.order with
  | .flat => blockBytes elements block.valuesPerBlock block.bytesPerBlock
  | .axis axis =>
    validateAxis axis shape.length "quantized block"
    let axisValues := shape.getD axis 0
    if axisValues = 0 then .ok 0
    else
      let bytesPerLine ← blockBytes axisValues block.valuesPerBlock block.bytesPerBlock
      okOr (checkedMul (elements / axisValues) bytesPerLine)
        (.limit "quantized axis-blocked byte length overflows u64")

def validateShapeAndPacking (shape : List Nat) (payload : SourceSpan) (packing : Packing) :
    Result Unit := do
  let elements ← shape.foldlM (fun product dimension => okOr (checkedMul product dimension)
    (.limit "quantized tensor element count overflows u64")) 1
  match packing with
  | .opaquePayload => .ok ()
  | .blocks block =>
    let expected ← expectedPayload shape elements block
    if expected ≠ payload.length then
      .error (.invalid "quantized payload span length does not match its shape and block packing")
    else .ok ()

/-! ## Quantized storage -/

structure CompanionTensor where
  tensor : String
  dtype : DType
  shape : List Nat
  span : SourceSpan
  deriving DecidableEq, Repr

def CompanionTensor.new (tensor : String) (dtype : DType) (shape : List Nat) (span : SourceSpan) :
    Result CompanionTensor := do
  if tensor.isEmpty then
    .error (.invalid "quantized companion tensor name must not be empty")
  else
    let length ← dtype.byteLen shape
    if length ≠ span.length then
      .error (.invalid "quantized companion span length does not match its dtype and shape")
    else .ok ⟨tensor, dtype, shape, span⟩

structure QuantizedStorage where
  schemaVersion : Nat
  encoding : ImplementationId
  logicalShape : List Nat
  payload : SourceSpan
  packing : Packing
  grouping : Option Grouping
  requiredCompanions : List StableName
  companions : OrderedMap StableName CompanionTensor
  metadata : OrderedMap StableName MetadataValue
  deriving DecidableEq

def quantizedStorageSchemaVersion : Nat := 1

/-- Whether a sorted list repeats an element. -/
def hasAdjacentDuplicate {α : Type} [DecidableEq α] : List α → Bool
  | a :: b :: rest => a = b || hasAdjacentDuplicate (b :: rest)
  | _ => false

/-- In a sorted list repetitions are adjacent. -/
theorem hasAdjacentDuplicate_eq_false {α : Type} [i : DecidableEq α] [LinearOrder α] :
    ∀ {l : List α}, l.Pairwise (· ≤ ·) → (@hasAdjacentDuplicate α i l = false ↔ l.Nodup)
  | [], _ => iff_of_true rfl List.nodup_nil
  | [a], _ => iff_of_true rfl (List.nodup_singleton a)
  | a :: b :: rest, h => by
    obtain ⟨ha, hrest⟩ := List.pairwise_cons.mp h
    have ih := hasAdjacentDuplicate_eq_false hrest
    rw [hasAdjacentDuplicate, Bool.or_eq_false_iff, decide_eq_false_iff_not, ih,
      List.nodup_cons (a := a)]
    refine and_congr_left fun _ => ?_
    constructor
    · intro hne hm
      rcases List.mem_cons.mp hm with heq | hm
      · exact hne heq
      · have hle := (List.pairwise_cons.mp hrest).1 a hm
        exact hne (le_antisymm (ha b (List.mem_cons_self ..)) hle)
    · intro hnew heq
      exact hnew (heq ▸ List.mem_cons_self ..)

/-- The companions of a builder by role. -/
def collectCompanions : List (StableName × CompanionTensor) →
    OrderedMap StableName CompanionTensor → Result (OrderedMap StableName CompanionTensor)
  | [], companions => .ok companions
  | (role, tensor) :: rest, companions =>
    if companions.contains role then
      .error (.binding "quantized descriptor contains a duplicate companion role")
    else collectCompanions rest (companions.insert role tensor)

def validateGrouping (grouping : Option Grouping) (rank : Nat) : Result Unit :=
  match grouping with
  | none => .ok ()
  | some grouping => validateAxis grouping.axis rank "quantized grouping"

namespace QuantizedStorage

/-- `QuantizedStorageBuilder::build`. -/
def build (encoding : ImplementationId) (logicalShape : List Nat) (payload : SourceSpan)
    (packing : Packing) (grouping : Option Grouping) (requiredCompanions : List StableName)
    (companions : List (StableName × CompanionTensor))
    (metadata : OrderedMap StableName MetadataValue) : Result QuantizedStorage := do
  validateShapeAndPacking logicalShape payload packing
  validateGrouping grouping logicalShape.length
  let requiredCompanions := requiredCompanions.insertionSort (· ≤ ·)
  if hasAdjacentDuplicate requiredCompanions then
    .error (.binding "quantized descriptor contains a duplicate required companion role")
  else
    let companions ← collectCompanions companions .empty
    if requiredCompanions.any fun role => !companions.contains role then
      .error (.binding "quantized descriptor is missing a required companion role")
    else .ok {
      schemaVersion := quantizedStorageSchemaVersion
      encoding, logicalShape, payload, packing, grouping, requiredCompanions, companions, metadata }

/-- A descriptor without grouping, companions or metadata. -/
def new (encoding : ImplementationId) (logicalShape : List Nat) (payload : SourceSpan)
    (packing : Packing) : Result QuantizedStorage :=
  build encoding logicalShape payload packing none [] [] .empty

end QuantizedStorage

inductive Storage where
  | plain (dtype : DType) (span : SourceSpan)
  | quantized (storage : QuantizedStorage)
  deriving DecidableEq

def Storage.span : Storage → SourceSpan
  | .plain _ span => span
  | .quantized storage => storage.payload

/-- One tensor of an inventory. -/
structure TensorRecord where
  name : String
  shape : List Nat
  storage : Storage
  deriving DecidableEq

end ModelWeights
