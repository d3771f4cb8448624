import ModelWeights.Lib.Document
import ModelWeights.Safetensors.Table

/-! # Headers of safetensors files

`parse_header_json` of `checkpoint.rs` and the visitors it hands to the JSON reader.
The reader is a parameter: a function from the bytes to the document they hold. The
visitors see the document member by member, and stop at the first thing that a limit
forbids. -/
namespace ModelWeights.Safetensors
open Gguf (ResourceLimits)
open Json (Document)
open Parsing

/-! ## How a visit ends early -/

/-- An error of the crate that the parse control keeps, or one of the JSON reader. -/
inductive Stop where
  | aborted (error : Error)
  | json
  deriving DecidableEq, Repr

abbrev Visit := Except Stop

/-- `HeaderParseControl::limit`. -/
def Stop.limit (message : String) : Stop := .aborted (.limit message)

/-- `HeaderParseControl::classify_json_error`. -/
def Stop.classify (cancellation : CancellationToken) (message : String) : Stop → Error
  | .aborted error => error
  | .json => if cancellation.cancelled then .cancelled else .invalid message

/-- `HeaderParseControl::check`. -/
def checkVisit (cancellation : CancellationToken) : Visit Unit :=
  if cancellation.cancelled then .error (.aborted .cancelled) else .ok ()

/-- The end of a sequence or a map, when it is there. -/
def endOf (closed : Bool) : Visit Unit := if closed then .ok () else .error .json

/-- A number that is read as a `u64`. -/
def readU64 : Document → Visit Nat
  | .natural value => if value < u64Size then .ok value else .error .json
  | _ => .error .json

/-- `[u64; 2]`. -/
def readU64Pair : Document → Visit (Nat × Nat)
  | .array [first, second] closed => do
    let first ← readU64 first
    let second ← readU64 second
    endOf closed
    .ok (first, second)
  | _ => .error .json

def nameLimitMessage : String := "safetensors tensor or dtype name violates configured limits"

def rankLimitMessage : String := "safetensors tensor rank exceeds configured limits"

def metadataLimitMessage : String := "safetensors metadata exceeds configured limits"

def metadataKey : String := "__metadata__"

/-- The limits that a header is read with. -/
structure HeaderLimits extends ResourceLimits where
  maxMetadataBytes : Nat
  deriving DecidableEq, Repr

section Visitors
variable (limits : HeaderLimits) (cancellation : CancellationToken)

/-! ## Strings -/

/-- `HeaderStringVisitor::validate`. -/
def validateHeaderString (maximum : Nat) (rejectEmpty : Bool) (limitMessage value : String) :
    Visit Unit := do
  checkVisit cancellation
  if (utf8 value).length > maximum ∨ (rejectEmpty ∧ value.isEmpty) then
    .error (.limit limitMessage)
  else .ok ()

/-- `HeaderStringSeed` on a key. -/
def headerString (maximum : Nat) (rejectEmpty : Bool) (limitMessage value : String) :
    Visit String := do
  checkVisit cancellation
  validateHeaderString cancellation maximum rejectEmpty limitMessage value
  .ok value

/-- `HeaderStringSeed` on a value. -/
def headerText (maximum : Nat) (rejectEmpty : Bool) (limitMessage : String) :
    Document → Visit String
  | .text value => headerString cancellation maximum rejectEmpty limitMessage value
  | _ => do
    checkVisit cancellation
    .error .json

/-! ## Shapes -/

/-- One turn of `ShapeVisitor::visit_seq`. The reader gives no size hint. -/
def visitDimension (shape : List Nat) (item : Document) : Visit (List Nat) := do
  checkVisit cancellation
  let dimension ← readU64 item
  if shape.length ≥ limits.maxRank then .error (.limit rankLimitMessage)
  else .ok (shape ++ [dimension])

/-- `ShapeSeed`. -/
def readShape : Document → Visit (List Nat)
  | .array items closed => do
    checkVisit cancellation
    let shape ← items.foldlM (visitDimension limits cancellation) []
    checkVisit cancellation
    endOf closed
    .ok shape
  | _ => do
    checkVisit cancellation
    .error .json

/-! ## Tensors -/

inductive RawTensorField where
  | dtype
  | shape
  | dataOffsets
  deriving DecidableEq, Repr

/-- `RawTensorFieldVisitor::visit_str`. -/
def RawTensorField.read (value : String) : Visit RawTensorField :=
  match value with
  | "dtype" => .ok .dtype
  | "shape" => .ok .shape
  | "data_offsets" => .ok .dataOffsets
  | _ => .error .json

/-- The fields of a tensor that were read so far. -/
structure RawFields where
  dtype : Option String
  shape : Option (List Nat)
  dataOffsets : Option (Nat × Nat)
  deriving DecidableEq, Repr

def RawFields.none : RawFields := ⟨.none, .none, .none⟩

/-- One turn of `RawTensorVisitor::visit_map`. -/
def visitField (fields : RawFields) (member : String × Document) : Visit RawFields := do
  checkVisit cancellation
  let field ← RawTensorField.read member.1
  checkVisit cancellation
  match field with
  | .dtype =>
    if fields.dtype.isSome then .error .json
    else
      let dtype ← headerText cancellation limits.maxNameBytes false nameLimitMessage member.2
      .ok { fields with dtype := some dtype }
  | .shape =>
    if fields.shape.isSome then .error .json
    else
      let shape ← readShape limits cancellation member.2
      .ok { fields with shape := some shape }
  | .dataOffsets =>
    if fields.dataOffsets.isSome then .error .json
    else
      let dataOffsets ← readU64Pair member.2
      .ok { fields with dataOffsets := some dataOffsets }

/-- The tensor of the fields, when none is missing. -/
def RawFields.tensor (fields : RawFields) : Visit RawTensor :=
  match fields with
  | ⟨some dtype, some shape, some dataOffsets⟩ => .ok ⟨dtype, shape, dataOffsets⟩
  | _ => .error .json

/-- `RawTensorSeed`. -/
def readRawTensor : Document → Visit RawTensor
  | .object members closed => do
    checkVisit cancellation
    let fields ← members.foldlM (visitField limits cancellation) .none
    checkVisit cancellation
    endOf closed
    fields.tensor
  | _ => do
    checkVisit cancellation
    .error .json

/-! ## Metadata -/

/-- One turn of `MetadataVisitor::visit_map`, with the keys and the bytes seen so far. -/
def visitMetadata (state : List String × Nat) (member : String × Document) :
    Visit (List String × Nat) := do
  checkVisit cancellation
  let key ← headerString cancellation (limits.maxMetadataBytes - state.2) false
    metadataLimitMessage member.1
  if key ∈ state.1 then .error .json
  else
    let bytes := state.2 + (utf8 key).length
    let value ← headerText cancellation (limits.maxMetadataBytes - bytes) false
      metadataLimitMessage member.2
    .ok (key :: state.1, bytes + (utf8 value).length)

/-- `MetadataSeed`. -/
def readMetadata : Document → Visit Nat
  | .object members closed => do
    checkVisit cancellation
    let state ← members.foldlM (visitMetadata limits cancellation) ([], 0)
    checkVisit cancellation
    endOf closed
    .ok state.2
  | _ => do
    checkVisit cancellation
    .error .json

/-! ## The header -/

/-- One turn of `HeaderVisitor::visit_map`, with the tensors so far and whether the
metadata was seen. -/
def visitTensor (state : OrderedMap String RawTensor × Bool) (member : String × Document) :
    Visit (OrderedMap String RawTensor × Bool) := do
  checkVisit cancellation
  let name ← headerString cancellation (max limits.maxNameBytes (utf8 metadataKey).length) true
    nameLimitMessage member.1
  checkVisit cancellation
  if name = metadataKey then
    if state.2 then .error .json
    else
      let _ ← readMetadata limits cancellation member.2
      .ok (state.1, true)
  else if (utf8 name).length > limits.maxNameBytes then .error (.limit nameLimitMessage)
  else if state.1.contains name then .error .json
  else if state.1.entries.length ≥ limits.maxTensors then
    .error (.limit "safetensors header exceeds the configured tensor count")
  else
    let raw ← readRawTensor limits cancellation member.2
    .ok (state.1.insert name raw, state.2)

/-- `HeaderSeed`. -/
def readHeader : Document → Visit RawHeader
  | .object members closed => do
    checkVisit cancellation
    let state ← members.foldlM (visitTensor limits cancellation) (.empty, false)
    checkVisit cancellation
    endOf closed
    .ok ⟨state.1⟩
  | _ => do
    checkVisit cancellation
    .error .json

end Visitors

/-! ## The text -/

/-- What a JSON reader finds in some bytes: a document, and whether only blanks
follow it. -/
structure JsonReader where
  document : List UInt8 → Document
  ended : List UInt8 → Bool

def Visit.classify {α : Type} (cancellation : CancellationToken) (message : String) :
    Visit α → Result α
  | .ok value => .ok value
  | .error stop => .error (stop.classify cancellation message)

section Text
variable (reader : JsonReader) (maxMetadataBytes : Nat) (bytes : List UInt8)
  (limits : ResourceLimits) (cancellation : CancellationToken)

def deserializeHeaderJson : Result RawHeader := do
  let header ← (readHeader ⟨limits, maxMetadataBytes⟩ cancellation
    (reader.document bytes)).classify cancellation "safetensors header JSON is invalid"
  cancellation.check
  (endOf (reader.ended bytes)).classify cancellation
    "safetensors header contains trailing non-whitespace data"
  cancellation.check
  .ok header

def parseHeaderJson : Result RawHeader := do
  cancellation.check
  if bytes.head? ≠ some 123 then
    .error (.invalid "safetensors header must begin with a JSON object")
  else deserializeHeaderJson reader maxMetadataBytes bytes limits cancellation

end Text

end ModelWeights.Safetensors
