import ModelWeights.Gguf.Spans
import Mathlib.Data.Rat.Defs
import Mathlib.Algebra.Order.Field.Rat
import Mathlib.Tactic.NormNum

/-! # Declared alignments

`metadata_alignment` reads `general.alignment` as an unsigned integer and takes the
default for every other type, so a value of another type is used only if it is the
default itself. -/
namespace ModelWeights.Gguf
open Parsing

/-- The number with the given bits in a binary floating-point format. -/
def binaryValue (exponentBits fractionBits bits : Nat) : Option Rat :=
  let sign : Rat := if bits.testBit (exponentBits + fractionBits) then -1 else 1
  let exponent := bits / 2 ^ fractionBits % 2 ^ exponentBits
  let fraction := bits % 2 ^ fractionBits
  let bias : Int := 2 ^ (exponentBits - 1) - 1
  if exponent = 2 ^ exponentBits - 1 then none
  else if exponent = 0 then some (sign * fraction * 2 ^ (1 - bias - fractionBits))
  else some (sign * (2 ^ fractionBits + fraction) * 2 ^ (exponent - bias - fractionBits))

/-- The number that a metadata value stands for. -/
def GgufValue.number : GgufValue → Option Rat
  | .scalar .u8 value => some value.toNat
  | .scalar .u16 value => some value.toNat
  | .scalar .u32 value => some value.toNat
  | .scalar .u64 value => some value.toNat
  | .scalar .i8 value => some value.toInt
  | .scalar .i16 value => some value.toInt
  | .scalar .i32 value => some value.toInt
  | .scalar .i64 value => some value.toInt
  | .scalar .f32 value => binaryValue 8 23 value.toNat
  | .scalar .f64 value => binaryValue 11 52 value.toNat
  | .bool _ | .string _ | .array _ => none

theorem GgufValue.number_of_asU64 {value : GgufValue} {n : Nat} (h : value.asU64 = some n) :
    value.number = some (n : Rat) := by
  unfold asU64 at h
  split at h
  case h_5 => cases h
  all_goals
    obtain rfl := Option.some.inj h
    rfl

/-- What an accepted header uses: the unsigned value of the entry, or the default. -/
theorem alignment_of_entry {entries : OrderedMap String GgufValue} {alignment : Nat}
    {value : GgufValue} (h : metadataAlignment entries = .ok alignment)
    (hv : entries.get? "general.alignment" = some value) :
    alignment = value.asU64.getD defaultAlignment := by
  unfold metadataAlignment at h
  rw [hv] at h
  exact (Except.ok.inj (unless_error_ok h).2).symm

section Parsed
variable {bytes : List UInt8} {fits : bytes.length < u64Size} {file : FileId}
  {limits : ResourceLimits} {token : CancellationToken} {parsed : ParsedGguf}

/-- The data base and the offsets of a parsed file are those of an alignment. -/
def UsesAlignment (bytes : List UInt8) (fits : bytes.length < u64Size) (file : FileId)
    (limits : ResourceLimits) (token : CancellationToken) (parsed : ParsedGguf)
    (alignment : Nat) : Prop :=
  ∃ header r dataBase,
    parseHeader ⟨bytes, limits.maxHeaderBytes, token, fits⟩ limits .new = .ok (header, r) ∧
    parsed.metadata.alignment = alignment ∧
    IsLeast {m | alignment ∣ m ∧ header.finish ≤ m} dataBase ∧
    List.Forall₂ (Accepted file bytes.length dataBase alignment) header.rawTensors parsed.tensors

/-- The alignment that a file declares is used exactly when its type is unsigned or it is
the default. -/
theorem parse_uses_declared_iff (h : parse bytes fits file limits token = .ok parsed)
    {value : GgufValue} (hv : parsed.metadata.entries.get? "general.alignment" = some value) :
    (∃ alignment : Nat, value.number = some (alignment : Rat) ∧
      UsesAlignment bytes fits file limits token parsed alignment) ↔
      value.asU64.isSome ∨ value.number = some (defaultAlignment : Rat) := by
  obtain ⟨header, r, dataBase, hheader, hmetadata, hbase, _, hall, _⟩ := parse_ok h
  have hentries : header.entries.get? "general.alignment" = some value := by
    rw [hmetadata] at hv
    exact hv
  have halignment := alignment_of_entry (parseHeader_ok hheader).1 hentries
  have huses : UsesAlignment bytes fits file limits token parsed header.alignment :=
    ⟨header, r, dataBase, hheader, by rw [hmetadata], hbase, hall⟩
  constructor
  · rintro ⟨alignment, hnumber, _, _, _, _, hused, _⟩
    rw [hmetadata] at hused
    obtain rfl : header.alignment = alignment := hused
    cases hu : value.asU64 with
    | some n => exact .inl rfl
    | none =>
      rw [hu] at halignment
      rw [halignment] at hnumber
      exact .inr hnumber
  · intro hdeclared
    refine ⟨header.alignment, ?_, huses⟩
    cases hu : value.asU64 with
    | some n =>
      rw [hu] at halignment
      rw [halignment]
      exact value.number_of_asU64 hu
    | none =>
      rw [hu] at halignment hdeclared
      rw [halignment]
      exact hdeclared.resolve_left (by decide)

/-! ## A signed alignment -/

/-- No tensors, and `general.alignment` with the given type code and bytes. -/
def alignedContainer (code : Nat) (value : List UInt8) : List UInt8 :=
  magic ++ leBytes 4 3 ++ leBytes 8 0 ++ leBytes 8 1 ++
    (leBytes 8 17 ++ utf8 "general.alignment" ++ leBytes 4 code ++ value) ++
    List.replicate 71 0

/-- The container with a 32-bit value. -/
def declaring (code : Nat) (value : Nat) : List UInt8 := alignedContainer code (leBytes 4 value)

theorem declaring_fits (code value : Nat) : (declaring code value).length < u64Size := by
  have hkey : (utf8 "general.alignment").length = 17 := by decide +kernel
  simp only [declaring, alignedContainer, magic, List.length_append, length_leBytes,
    List.length_replicate, hkey, List.length_cons, List.length_nil]
  decide

/-- A 32-bit unsigned alignment is used. -/
theorem parse_uses_declared_iff_u32 : ∃ parsed value,
    parse (declaring 4 128) (declaring_fits 4 128) 0 ⟨128, 1, 1, 32⟩ ⟨false⟩ = .ok parsed ∧
      parsed.metadata.entries.get? "general.alignment" = some value ∧
      ∃ alignment : Nat, value.number = some (alignment : Rat) ∧
        UsesAlignment (declaring 4 128) (declaring_fits 4 128) 0 ⟨128, 1, 1, 32⟩ ⟨false⟩ parsed
          alignment := by
  have hparse : (parse (declaring 4 128) (declaring_fits 4 128) 0 ⟨128, 1, 1, 32⟩
      ⟨false⟩).toOption.bind (fun parsed =>
        (parsed.metadata.entries.get? "general.alignment").bind GgufValue.asU64) = some 128 := by
    decide +kernel
  obtain ⟨parsed, hok, hentry⟩ := Option.bind_eq_some_iff.mp hparse
  obtain ⟨value, hvalue, hu⟩ := Option.bind_eq_some_iff.mp hentry
  have hok := toOption_eq_some hok
  exact ⟨parsed, value, hok, hvalue,
    (parse_uses_declared_iff hok hvalue).mpr (.inl (by rw [hu]; rfl))⟩

/-- A 32-bit signed one is replaced by the default. -/
theorem signed_alignment_ignored : ∃ parsed value,
    parse (declaring 5 128) (declaring_fits 5 128) 0 ⟨128, 1, 1, 32⟩ ⟨false⟩ = .ok parsed ∧
      parsed.metadata.entries.get? "general.alignment" = some value ∧
      ¬∃ alignment : Nat, value.number = some (alignment : Rat) ∧
        UsesAlignment (declaring 5 128) (declaring_fits 5 128) 0 ⟨128, 1, 1, 32⟩ ⟨false⟩ parsed
          alignment := by
  have hparse : (parse (declaring 5 128) (declaring_fits 5 128) 0 ⟨128, 1, 1, 32⟩
      ⟨false⟩).toOption.bind (fun parsed =>
        (parsed.metadata.entries.get? "general.alignment").map fun value =>
          (value.number, parsed.metadata.alignment)) = some (some (128 : Rat), 32) := by
    decide +kernel
  obtain ⟨parsed, hok, hentry⟩ := Option.bind_eq_some_iff.mp hparse
  obtain ⟨value, hvalue, hpair⟩ := Option.map_eq_some_iff.mp hentry
  obtain ⟨hnumber, halignment⟩ := Prod.mk.inj hpair
  refine ⟨parsed, value, toOption_eq_some hok, hvalue, ?_⟩
  rintro ⟨alignment, hdeclared, _, _, _, _, hused, _⟩
  rw [hnumber] at hdeclared
  rw [halignment] at hused
  subst hused
  exact absurd (Option.some.inj hdeclared) (by norm_num)

end Parsed

end ModelWeights.Gguf
