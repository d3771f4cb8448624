import ModelWeights.Storage
import ModelWeights.Gguf.Reader

/-! # GGUF containers

Metadata values, storage types and the parser of `gguf.rs`. Scalars are kept as
their bits; the ten scalar types of the format only differ in their width. -/
namespace ModelWeights.Gguf
open Parsing

/-! ## Metadata values -/

inductive ScalarType where
  | u8 | i8 | u16 | i16 | u32 | i32 | f32 | u64 | i64 | f64
  deriving DecidableEq, Repr

/-- The width in bytes. -/
def ScalarType.width : ScalarType → Nat
  | .u8 | .i8 => 1
  | .u16 | .i16 => 2
  | .u32 | .i32 | .f32 => 4
  | .u64 | .i64 | .f64 => 8

abbrev ScalarType.Bits (type : ScalarType) : Type := BitVec (8 * type.width)

inductive GgufArray where
  | array (values : List GgufArray)
  | scalars (type : ScalarType) (values : List type.Bits)
  | bool (values : List Bool)
  | string (values : List String)

inductive GgufValue where
  | scalar (type : ScalarType) (value : type.Bits)
  | bool (value : Bool)
  | string (value : String)
  | array (value : GgufArray)

def GgufValue.asU64 : GgufValue → Option Nat
  | .scalar .u8 value => some value.toNat
  | .scalar .u16 value => some value.toNat
  | .scalar .u32 value => some value.toNat
  | .scalar .u64 value => some value.toNat
  | _ => none

inductive ValueType where
  | scalar (type : ScalarType)
  | bool
  | string
  | array
  deriving DecidableEq, Repr

def ValueType.fromRaw (value : Nat) : Result ValueType :=
  match value with
  | 0 => .ok (.scalar .u8)
  | 1 => .ok (.scalar .i8)
  | 2 => .ok (.scalar .u16)
  | 3 => .ok (.scalar .i16)
  | 4 => .ok (.scalar .u32)
  | 5 => .ok (.scalar .i32)
  | 6 => .ok (.scalar .f32)
  | 7 => .ok .bool
  | 8 => .ok .string
  | 9 => .ok .array
  | 10 => .ok (.scalar .u64)
  | 11 => .ok (.scalar .i64)
  | 12 => .ok (.scalar .f64)
  | _ => .error (.invalid "GGUF metadata has an unknown value type")

/-- The least number of bytes that an array element takes. -/
def ValueType.elementBytes : ValueType → Nat
  | .scalar type => type.width
  | .bool => 1
  | .string => 8
  | .array => 12

def maxMetadataNestingDepth : Nat := 64

section Values
variable (src : HeaderSource)

def readScalar (type : ScalarType) : ReadM type.Bits := do
  let value ← readWord src type.width
  return BitVec.ofNat _ value

/-- The type and the number of the elements of an array. -/
def readArrayHeader (metadataLimit : Nat) : ReadM (ValueType × Nat) := do
  let code ← readU32 src
  let elementType ← ValueType.fromRaw code
  let count ← readU64 src
  let count ← boundedCount count (metadataLimit / elementType.elementBytes)
    "GGUF metadata array length"
  return (elementType, count)

/-- `levels` is how much deeper arrays may nest. -/
def readArray (metadataLimit : Nat) : Nat → ReadM GgufArray
  | 0 => throw (.limit "GGUF metadata array nesting exceeds the configured limit")
  | levels + 1 => do
    let (elementType, count) ← readArrayHeader src metadataLimit
    match elementType with
    | .scalar type => return .scalars type (← readElements (readScalar src type) count)
    | .bool => return .bool (← readElements (readBoolean src) count)
    | .string =>
      return .string (← readElements
        (readString src metadataLimit "GGUF metadata array string") count)
    | .array => return .array (← readElements (readArray metadataLimit levels) count)

def readValue (valueType : ValueType) (metadataLimit : Nat) : ReadM GgufValue := do
  match valueType with
  | .scalar type => return .scalar type (← readScalar src type)
  | .bool => return .bool (← readBoolean src)
  | .string => return .string (← readString src metadataLimit "GGUF metadata string")
  | .array => return .array (← readArray src metadataLimit maxMetadataNestingDepth)

end Values

/-! ## Storage types -/

inductive GgmlType where
  | f32 | f16 | q4_0 | q4_1 | q5_0 | q5_1 | q8_0 | q8_1 | q2k | q3k | q4k | q5k | q6k | q8k
  | iq2xxs | iq2xs | iq3xxs | iq1s | iq4nl | iq3s | iq2s | iq4xs | i8 | i16 | i32 | i64 | f64
  | iq1m | bf16 | tq1_0 | tq2_0 | mxfp4 | nvfp4 | q1_0 | q2_0
  deriving DecidableEq, Repr

namespace GgmlType

def fromCode (code : Nat) : Result GgmlType :=
  match code with
  | 0 => .ok .f32
  | 1 => .ok .f16
  | 2 => .ok .q4_0
  | 3 => .ok .q4_1
  | 6 => .ok .q5_0
  | 7 => .ok .q5_1
  | 8 => .ok .q8_0
  | 9 => .ok .q8_1
  | 10 => .ok .q2k
  | 11 => .ok .q3k
  | 12 => .ok .q4k
  | 13 => .ok .q5k
  | 14 => .ok .q6k
  | 15 => .ok .q8k
  | 16 => .ok .iq2xxs
  | 17 => .ok .iq2xs
  | 18 => .ok .iq3xxs
  | 19 => .ok .iq1s
  | 20 => .ok .iq4nl
  | 21 => .ok .iq3s
  | 22 => .ok .iq2s
  | 23 => .ok .iq4xs
  | 24 => .ok .i8
  | 25 => .ok .i16
  | 26 => .ok .i32
  | 27 => .ok .i64
  | 28 => .ok .f64
  | 29 => .ok .iq1m
  | 30 => .ok .bf16
  | 34 => .ok .tq1_0
  | 35 => .ok .tq2_0
  | 39 => .ok .mxfp4
  | 40 => .ok .nvfp4
  | 41 => .ok .q1_0
  | 42 => .ok .q2_0
  | _ => .error (.unsupported
      "GGUF tensor uses a removed, reserved, or unknown GGML storage type")

def code : GgmlType → Nat
  | .f32 => 0
  | .f16 => 1
  | .q4_0 => 2
  | .q4_1 => 3
  | .q5_0 => 6
  | .q5_1 => 7
  | .q8_0 => 8
  | .q8_1 => 9
  | .q2k => 10
  | .q3k => 11
  | .q4k => 12
  | .q5k => 13
  | .q6k => 14
  | .q8k => 15
  | .iq2xxs => 16
  | .iq2xs => 17
  | .iq3xxs => 18
  | .iq1s => 19
  | .iq4nl => 20
  | .iq3s => 21
  | .iq2s => 22
  | .iq4xs => 23
  | .i8 => 24
  | .i16 => 25
  | .i32 => 26
  | .i64 => 27
  | .f64 => 28
  | .iq1m => 29
  | .bf16 => 30
  | .tq1_0 => 34
  | .tq2_0 => 35
  | .mxfp4 => 39
  | .nvfp4 => 40
  | .q1_0 => 41
  | .q2_0 => 42

def name : GgmlType → String
  | .f32 => "f32"
  | .f16 => "f16"
  | .q4_0 => "q4_0"
  | .q4_1 => "q4_1"
  | .q5_0 => "q5_0"
  | .q5_1 => "q5_1"
  | .q8_0 => "q8_0"
  | .q8_1 => "q8_1"
  | .q2k => "q2_k"
  | .q3k => "q3_k"
  | .q4k => "q4_k"
  | .q5k => "q5_k"
  | .q6k => "q6_k"
  | .q8k => "q8_k"
  | .iq2xxs => "iq2_xxs"
  | .iq2xs => "iq2_xs"
  | .iq3xxs => "iq3_xxs"
  | .iq1s => "iq1_s"
  | .iq4nl => "iq4_nl"
  | .iq3s => "iq3_s"
  | .iq2s => "iq2_s"
  | .iq4xs => "iq4_xs"
  | .i8 => "i8"
  | .i16 => "i16"
  | .i32 => "i32"
  | .i64 => "i64"
  | .f64 => "f64"
  | .iq1m => "iq1_m"
  | .bf16 => "bf16"
  | .tq1_0 => "tq1_0"
  | .tq2_0 => "tq2_0"
  | .mxfp4 => "mxfp4"
  | .nvfp4 => "nvfp4"
  | .q1_0 => "q1_0"
  | .q2_0 => "q2_0"

def valuesPerBlock : GgmlType → Nat
  | .f32 | .f16 | .i8 | .i16 | .i32 | .i64 | .f64 | .bf16 => 1
  | .q4_0 | .q4_1 | .q5_0 | .q5_1 | .q8_0 | .q8_1 | .iq4nl | .mxfp4 => 32
  | .nvfp4 | .q2_0 => 64
  | .q1_0 => 128
  | .q2k | .q3k | .q4k | .q5k | .q6k | .q8k | .iq2xxs | .iq2xs | .iq3xxs | .iq1s | .iq3s | .iq2s
  | .iq4xs | .iq1m | .tq1_0 | .tq2_0 => 256

def bytesPerBlock : GgmlType → Nat
  | .f32 | .i32 => 4
  | .f16 | .i16 | .bf16 => 2
  | .i8 => 1
  | .i64 | .f64 => 8
  | .q4_0 | .iq4nl | .q1_0 | .q2_0 => 18
  | .q4_1 => 20
  | .q5_0 => 22
  | .q5_1 => 24
  | .q8_0 => 34
  | .q8_1 | .nvfp4 => 36
  | .q2k => 84
  | .q3k | .iq3s => 110
  | .q4k => 144
  | .q5k => 176
  | .q6k => 210
  | .q8k => 292
  | .iq2xxs | .tq2_0 => 66
  | .iq2xs => 74
  | .iq3xxs => 98
  | .iq1s => 50
  | .iq2s => 82
  | .iq4xs => 136
  | .iq1m => 56
  | .tq1_0 => 54
  | .mxfp4 => 17

def dtype : GgmlType → Option DType
  | .f32 => some .f32
  | .f16 => some .f16
  | .i8 => some .i8
  | .i16 => some .i16
  | .i32 => some .i32
  | .i64 => some .i64
  | .f64 => some .f64
  | .bf16 => some .bf16
  | _ => none

def encodingVersion : Nat := 1

def encoding (type : GgmlType) : Option ImplementationId :=
  if type.dtype.isNone then some ⟨⟨"gguf"⟩, ⟨type.name⟩, encodingVersion⟩ else none

@[simp] theorem fromCode_code (type : GgmlType) : fromCode type.code = .ok type := by
  cases type <;> rfl

theorem code_lt (type : GgmlType) : type.code < 256 ^ 4 := by
  cases type <;> decide

theorem valuesPerBlock_pos (type : GgmlType) : 0 < type.valuesPerBlock := by
  cases type <;> decide

theorem valuesPerBlock_dvd (type : GgmlType) : type.valuesPerBlock ∣ u64Size := by
  cases type <;> decide

theorem bytesPerBlock_pos (type : GgmlType) : 0 < type.bytesPerBlock := by
  cases type <;> decide

/-- A scalar type is stored in blocks of one value. -/
theorem plain_geometry {type : GgmlType} {dtype : DType} (h : type.dtype = some dtype) :
    type.valuesPerBlock = 1 ∧ type.bytesPerBlock = dtype.bits / 8 := by
  cases type <;> cases h <;> exact ⟨rfl, rfl⟩

end GgmlType

/-! ## Tensor records -/

structure RawTensor where
  name : String
  dimensions : List Nat
  ggmlType : Nat
  relativeOffset : Nat
  deriving DecidableEq, Repr

/-- The storage of a packed type: blocks restart with every row. -/
def packedStorage (file : FileId) (offset : Nat) (shape : List Nat) (type : GgmlType) :
    Result Storage := do
  let axis ← okOr (checkedSub shape.length 1) (.invalid "packed GGUF tensor has no block axis")
  if shape.getD axis 0 % type.valuesPerBlock ≠ 0 then
    .error (.invalid "packed GGUF tensor row length is not a whole storage block")
  else
    let elements ← shape.foldlM (fun product dimension => okOr (checkedMul product dimension)
      (.limit "GGUF tensor element count overflows u64")) 1
    let length ← okOr (checkedMul (elements / type.valuesPerBlock) type.bytesPerBlock)
      (.limit "packed GGUF tensor byte length overflows u64")
    let span ← SourceSpan.new file offset length
    if axis ≥ 2 ^ 32 then .error (.limit "GGUF block axis exceeds u32")
    else
      let packing ← BlockPacking.new type.valuesPerBlock type.bytesPerBlock (.axis axis)
      let encoding ← okOr type.encoding (.invalid "packed GGUF tensor has no encoding identity")
      let storage ← QuantizedStorage.new encoding shape span (.blocks packing)
      .ok (.quantized storage)

def storage (file : FileId) (offset : Nat) (shape : List Nat) (ggmlTypeCode : Nat) :
    Result Storage := do
  let type ← GgmlType.fromCode ggmlTypeCode
  match type.dtype with
  | some dtype =>
    let length ← dtype.byteLen shape
    let span ← SourceSpan.new file offset length
    .ok (.plain dtype span)
  | none => packedStorage file offset shape type

section Records
variable (file : FileId) (fileSize dataBase alignment : Nat) (cancellation : CancellationToken)

def buildTensorRecord (raw : RawTensor) : Result TensorRecord := do
  cancellation.check
  if raw.relativeOffset % alignment ≠ 0 then
    .error (.invalid "GGUF tensor offset does not satisfy general.alignment")
  else
    let absoluteOffset ← okOr (checkedAdd dataBase raw.relativeOffset)
      (.limit "GGUF tensor offset overflows u64")
    let shape := raw.dimensions.reverse
    let storage ← storage file absoluteOffset shape raw.ggmlType
    if storage.span.finish > fileSize then
      .error (.invalid "GGUF tensor payload extends beyond the source file")
    else .ok ⟨raw.name, shape, storage⟩

/-- Whether a span of a sorted list runs into the next one. -/
def overlaps : List (Nat × Nat) → Bool
  | a :: b :: rest => a.2 > b.1 || overlaps (b :: rest)
  | _ => false

/-- The order of `(offset, end)` pairs. -/
def spanLe (a b : Nat × Nat) : Prop := a.1 < b.1 ∨ a.1 = b.1 ∧ a.2 ≤ b.2

instance : DecidableRel spanLe := fun a b =>
  inferInstanceAs (Decidable (a.1 < b.1 ∨ a.1 = b.1 ∧ a.2 ≤ b.2))

def buildTensorRecords (rawTensors : List RawTensor) : Result (List TensorRecord) := do
  let tensors ← rawTensors.mapM
    (buildTensorRecord file fileSize dataBase alignment cancellation)
  let occupied := tensors.map fun tensor =>
    (tensor.storage.span.offset, tensor.storage.span.finish)
  if overlaps (occupied.insertionSort spanLe) then
    .error (.invalid "GGUF tensor payload spans overlap")
  else .ok tensors

end Records

/-! ## The container -/

structure ResourceLimits where
  maxHeaderBytes : Nat
  maxTensors : Nat
  maxRank : Nat
  maxNameBytes : Nat
  deriving DecidableEq, Repr

structure GgufMetadata where
  version : Nat
  alignment : Nat
  entries : OrderedMap String GgufValue

structure ParsedGguf where
  metadata : GgufMetadata
  tensors : List TensorRecord

/-- The container up to the end of the tensor infos. -/
structure Header where
  version : Nat
  alignment : Nat
  entries : OrderedMap String GgufValue
  rawTensors : List RawTensor
  finish : Nat

def magic : List UInt8 := [0x47, 0x47, 0x55, 0x46]

def defaultAlignment : Nat := 32

def metadataAlignment (entries : OrderedMap String GgufValue) : Result Nat :=
  let alignment := ((entries.get? "general.alignment").bind GgufValue.asU64).getD defaultAlignment
  if alignment = 0 ∨ ¬alignment.isPowerOfTwo then
    .error (.invalid "GGUF general.alignment must be a nonzero power of two")
  else .ok alignment

/-- `rounded & !(alignment - 1)` for a power of two. -/
def alignUp (value alignment : Nat) : Result Nat := do
  let rounded ← okOr (checkedAdd value (alignment - 1))
    (.limit "GGUF aligned data offset overflows u64")
  .ok (rounded &&& (u64Size - 1 - (alignment - 1)))

section Parse
variable (src : HeaderSource) (limits : ResourceLimits)

def readerOffset : ReadM Nat := do return (← get).offset

def checkMetadataBytes (metadataStart : Nat) : ReadM Unit := do
  let offset ← readerOffset
  if offset - metadataStart > limits.maxHeaderBytes then
    throw (.limit "GGUF metadata exceeds the configured byte limit")
  else return ()

def insertEntry (entries : OrderedMap String GgufValue) (key : String) (value : GgufValue) :
    Result (OrderedMap String GgufValue) :=
  if entries.contains key then .error (.invalid "GGUF contains a duplicate metadata key")
  else .ok (entries.insert key value)

def readEntries (metadataStart : Nat) :
    Nat → OrderedMap String GgufValue → ReadM (OrderedMap String GgufValue)
  | 0, entries => return entries
  | count + 1, entries => do
    src.cancellation.check
    let key ← readString src limits.maxNameBytes "GGUF metadata key"
    let code ← readU32 src
    let valueType ← ValueType.fromRaw code
    let value ← readValue src valueType limits.maxHeaderBytes
    checkMetadataBytes limits metadataStart
    let entries ← insertEntry entries key value
    readEntries metadataStart count entries

def readMetadata : ReadM (OrderedMap String GgufValue) := do
  let count ← readU64 src
  let count ← boundedCount count (limits.maxHeaderBytes / 12) "GGUF metadata entry count"
  let metadataStart ← readerOffset
  readEntries src limits metadataStart count .empty

def checkRank (rank : Nat) : Result Unit :=
  if rank = 0 then .error (.invalid "GGUF tensors must have nonzero rank") else .ok ()

def readTensorInfo : ReadM RawTensor := do
  src.cancellation.check
  let name ← readString src limits.maxNameBytes "GGUF tensor name"
  let rank ← readU32 src
  let rank ← boundedCount rank limits.maxRank "GGUF tensor rank"
  checkRank rank
  let dimensions ← readElements (readU64 src) rank
  let ggmlType ← readU32 src
  let relativeOffset ← readU64 src
  return { name, dimensions, ggmlType, relativeOffset }

def checkMagic (bytes : List UInt8) : Result Unit :=
  if bytes ≠ magic then .error (.invalid "GGUF source has invalid magic") else .ok ()

def checkVersion (version : Nat) : Result Unit :=
  if version < 2 ∨ 3 < version then
    .error (.unsupported "GGUF container version is not supported")
  else .ok ()

def parseHeader : ReadM Header := do
  let bytes ← read src 4
  checkMagic bytes
  let version ← readU32 src
  checkVersion version
  let tensorCount ← readU64 src
  let tensorCount ← boundedCount tensorCount limits.maxTensors "GGUF tensor count"
  let entries ← readMetadata src limits
  let alignment ← metadataAlignment entries
  let rawTensors ← readElements (readTensorInfo src limits) tensorCount
  let finish ← readerOffset
  return { version, alignment, entries, rawTensors, finish }

end Parse

/-- The part of `parse` after the header. -/
def parseTensors (bytes : List UInt8) (file : FileId) (limits : ResourceLimits)
    (cancellation : CancellationToken) (header : Header) : Result ParsedGguf := do
  let dataBase ← alignUp header.finish header.alignment
  if dataBase > bytes.length then
    .error (.invalid "GGUF tensor data begins beyond the source file")
  else if dataBase > limits.maxHeaderBytes then
    .error (.limit "GGUF header length violates the configured limit")
  else
    let tensors ← buildTensorRecords file bytes.length dataBase header.alignment cancellation
      header.rawTensors
    .ok ⟨⟨header.version, header.alignment, header.entries⟩, tensors⟩

def parse (bytes : List UInt8) (fits : bytes.length < u64Size) (file : FileId)
    (limits : ResourceLimits) (cancellation : CancellationToken) : Result ParsedGguf := do
  let (header, _) ← parseHeader ⟨bytes, limits.maxHeaderBytes, cancellation, fits⟩ limits .new
  parseTensors bytes file limits cancellation header

end ModelWeights.Gguf
