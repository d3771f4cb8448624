import ModelWeights.Storage
import ModelWeights.Gguf.Parse

/-! # Tensor tables of safetensors files

`validate_tensor_entries` of `checkpoint.rs` and the scalar types a header can
name. The header JSON is read before; its map of tensors is in name order. -/
namespace ModelWeights.Safetensors
open Gguf (ResourceLimits)

structure RawTensor where
  dtype : String
  shape : List Nat
  dataOffsets : Nat × Nat
  deriving DecidableEq, Repr

structure RawHeader where
  tensors : OrderedMap String RawTensor

/-! ## Header dtypes -/

inductive HeaderDtype where
  | plain (dtype : DType)
  | quantized (operation : String) (valuesPerBlock bytesPerBlock : Nat)
  deriving DecidableEq, Repr

namespace HeaderDtype

def byteLen (dtype : HeaderDtype) (shape : List Nat) : Result Nat :=
  match dtype with
  | .plain dtype => dtype.byteLen shape
  | .quantized _ valuesPerBlock bytesPerBlock => do
    let elements ← elementProduct shape
    if elements = 0 then .ok 0
    else if elements % valuesPerBlock ≠ 0 then
      .error (.invalid "sub-byte safetensors dtype is not byte-aligned")
    else
      okOr (checkedMul (elements / valuesPerBlock) bytesPerBlock)
        (.limit "packed tensor byte length overflows u64")

def intoStorage (dtype : HeaderDtype) (shape : List Nat) (span : SourceSpan) : Result Storage :=
  match dtype with
  | .plain dtype => .ok (.plain dtype span)
  | .quantized operation valuesPerBlock bytesPerBlock => do
    let provider ← StableName.parse "safetensors"
    let operation ← StableName.parse operation
    let packing ← BlockPacking.new valuesPerBlock bytesPerBlock .flat
    let storage ← QuantizedStorage.new ⟨provider, operation, 1⟩ shape span (.blocks packing)
    .ok (.quantized storage)

end HeaderDtype

def parseDtype (value : String) : Result HeaderDtype :=
  match value with
  | "BOOL" => .ok (.plain .bool)
  | "F4" => .ok (.quantized "f4" 2 1)
  | "F6_E2M3" => .ok (.quantized "f6-e2m3" 4 3)
  | "F6_E3M2" => .ok (.quantized "f6-e3m2" 4 3)
  | "U8" => .ok (.plain .u8)
  | "I8" => .ok (.plain .i8)
  | "U16" => .ok (.plain .u16)
  | "I16" => .ok (.plain .i16)
  | "U32" => .ok (.plain .u32)
  | "I32" => .ok (.plain .i32)
  | "U64" => .ok (.plain .u64)
  | "I64" => .ok (.plain .i64)
  | "F16" => .ok (.plain .f16)
  | "BF16" => .ok (.plain .bf16)
  | "F32" => .ok (.plain .f32)
  | "F64" => .ok (.plain .f64)
  | "C64" => .ok (.plain .c64)
  | "F8_E5M2" => .ok (.plain .f8e5m2)
  | "F8_E4M3" => .ok (.plain .f8e4m3)
  | "F8_E8M0" => .ok (.plain .f8e8m0)
  | "F8_E4M3FNUZ" => .ok (.plain .f8e4m3Fnuz)
  | "F8_E5M2FNUZ" => .ok (.plain .f8e5m2Fnuz)
  | _ => .error (.unsupported "safetensors dtype is not represented by this crate version")

/-! ## Entries -/

structure Entry where
  name : String
  shape : List Nat
  dtype : HeaderDtype
  start : Nat
  finish : Nat
  deriving DecidableEq, Repr

section Entries
variable (limits : ResourceLimits) (cancellation : CancellationToken)

/-- The checks of one tensor. -/
def checkTensor (dataLength : Nat) (entry : String × RawTensor) : Result Entry := do
  let (name, tensor) := entry
  cancellation.check
  if tensor.shape.length > limits.maxRank then
    .error (.limit "safetensors tensor rank exceeds configured limits")
  else
    let dtype ← parseDtype tensor.dtype
    let (start, finish) := tensor.dataOffsets
    if start > finish ∨ finish > dataLength then
      .error (.invalid "safetensors tensor offset lies outside its data section")
    else
      let expected ← dtype.byteLen tensor.shape
      if finish - start ≠ expected then
        .error (.invalid "safetensors tensor byte length disagrees with dtype and shape")
      else .ok ⟨name, tensor.shape, dtype, start, finish⟩

/-- The order of the entries: by start, end and name. -/
def entryLe (left right : Entry) : Prop :=
  left.start < right.start ∨ left.start = right.start ∧
    (left.finish < right.finish ∨ left.finish = right.finish ∧ left.name ≤ right.name)

instance : DecidableRel entryLe := fun left right =>
  inferInstanceAs (Decidable (_ ∨ _ ∧ (_ ∨ _ ∧ left.name ≤ right.name)))

/-- The pass over the sorted entries; it returns where the last one ends. -/
def claimBytes : Nat → List Entry → Result Nat
  | cursor, [] => .ok cursor
  | cursor, entry :: rest => do
    cancellation.check
    if entry.start ≠ cursor then
      .error (.invalid "safetensors data contains an overlap or unclaimed gap")
    else claimBytes entry.finish rest

def buildRecord (file : FileId) (dataBase : Nat) (entry : Entry) : Result TensorRecord := do
  cancellation.check
  let offset ← okOr (checkedAdd dataBase entry.start)
    (.limit "absolute tensor byte offset overflows u64")
  let span ← SourceSpan.new file offset (entry.finish - entry.start)
  let storage ← entry.dtype.intoStorage entry.shape span
  .ok ⟨entry.name, entry.shape, storage⟩

def validateTensorEntries (file : FileId) (dataBase dataLength : Nat) (raw : RawHeader) :
    Result (List TensorRecord) := do
  let entries ← raw.tensors.entries.mapM (checkTensor limits cancellation dataLength)
  let entries := entries.insertionSort entryLe
  let cursor ← claimBytes cancellation 0 entries
  if cursor ≠ dataLength then
    .error (.invalid "safetensors data section contains unclaimed trailing bytes")
  else
    let records ← entries.mapM (buildRecord cancellation file dataBase)
    cancellation.check
    .ok records

end Entries

end ModelWeights.Safetensors
