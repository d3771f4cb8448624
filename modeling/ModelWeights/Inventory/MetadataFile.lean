import ModelWeights.Error
import ModelWeights.Lib.Success

/-! # Metadata files

`read_bounded_file` of `checkpoint.rs` reads a file from its start on in blocks, as far as a
limit allows. Reads may be short, and the file may change between them. -/
namespace ModelWeights

/-- A file as the operating system answers for it: its length, and what a read at a position
finds, at most as much as it asks for. -/
structure MetadataFile where
  opens : Bool
  size : Option Nat
  readAt : Nat → Nat → Option (List UInt8)
  atMost : ∀ position amount block, readAt position amount = some block → block.length ≤ amount

def metadataBlockBytes : Nat := 64 * 1024

namespace MetadataFile
variable (file : MetadataFile) (cancellation : CancellationToken)

/-- The loop of `read_bounded_file`, with the bytes read so far. -/
def readBlocks : (fuel remaining : Nat) → List UInt8 → Result (List UInt8)
  | 0, _, bytes => .ok bytes
  | fuel + 1, remaining, bytes =>
    if remaining = 0 then .ok bytes
    else do
      cancellation.check
      let block ← okOr (file.readAt bytes.length (min remaining metadataBlockBytes))
        ⟨.io, "failed to read metadata file"⟩
      if block.isEmpty then .ok bytes
      else readBlocks fuel (remaining - block.length) (bytes ++ block)

/-- The most that is read: one byte more than the limit, which tells that the file grew. -/
def readLimit (byteLimit : Nat) : Nat := saturatingAdd byteLimit 1

/-- `read_bounded_file`. -/
def readBounded (byteLimit : Nat) : Result (List UInt8) := do
  cancellation.check
  if ¬file.opens then .error ⟨.io, "failed to open metadata file"⟩
  else
    let size ← okOr file.size ⟨.io, "failed to inspect metadata file"⟩
    if size > byteLimit then
      .error (.limit "metadata file exceeds the configured byte limit")
    else
      let bytes ← file.readBlocks cancellation (readLimit byteLimit) (readLimit byteLimit) []
      cancellation.check
      if bytes.length > byteLimit then
        .error (.limit "metadata file grew beyond the configured byte limit")
      else .ok bytes

/-- The file holds the bytes and does not change: a read returns some of what follows its
position, and nothing only at the end. -/
structure Serves (bytes : List UInt8) : Prop where
  opens : file.opens = true
  size : file.size = some bytes.length
  fits : bytes.length < u64Size
  reads : ∀ position amount, ∃ block, file.readAt position amount = some block ∧
    block <+: bytes.drop position ∧ (0 < amount → position < bytes.length → block ≠ [])

variable {file cancellation} {bytes : List UInt8} {byteLimit : Nat}

/-- The blocks of an unchanging file are its bytes, as far as they go. -/
theorem Serves.readBlocks (h : file.Serves bytes) (hc : cancellation.cancelled = false)
    {fuel : Nat} : ∀ {remaining position : Nat}, remaining ≤ fuel → position ≤ bytes.length →
      file.readBlocks cancellation fuel remaining (bytes.take position) =
        .ok (bytes.take (position + remaining)) := by
  induction fuel with
  | zero =>
    intro remaining position hfuel _
    obtain rfl := Nat.le_zero.mp hfuel
    rfl
  | succ fuel ih =>
    intro remaining position hfuel hposition
    unfold MetadataFile.readBlocks
    by_cases hzero : remaining = 0
    · rw [if_pos hzero, hzero, Nat.add_zero]
    · obtain ⟨block, hread, hprefix, hsome⟩ :=
        h.reads position (min remaining metadataBlockBytes)
      have hle := file.atMost _ _ _ hread
      have hseen : (bytes.take position).length = position := List.length_take_of_le hposition
      rw [if_neg hzero, CancellationToken.check_eq_ok hc, hseen, hread]
      show (if block.isEmpty then Except.ok (bytes.take position) else _) = _
      by_cases hempty : block = []
      · -- a read finds nothing at the end only
        have hend : bytes.length ≤ position := by
          by_contra hlt
          refine hsome ?_ (Nat.lt_of_not_le hlt) hempty
          rw [Nat.lt_min]
          exact ⟨Nat.pos_of_ne_zero hzero, by decide⟩
        rw [if_pos (List.isEmpty_iff.mpr hempty), List.take_of_length_le hend,
          List.take_of_length_le (hend.trans (Nat.le_add_right ..))]
      · have hblock : block = (bytes.drop position).take block.length :=
          List.prefix_iff_eq_take.mp hprefix
        have hlength := hprefix.length_le
        rw [List.length_drop] at hlength
        have hpos := List.length_pos_iff.mpr hempty
        have hrest : block.length ≤ remaining := hle.trans (Nat.min_le_left ..)
        have hjoin : bytes.take position ++ block = bytes.take (position + block.length) := by
          rw [List.take_add, ← hblock]
        rw [if_neg (mt List.isEmpty_iff.mp hempty), hjoin,
          ih (by omega) (by omega), Nat.add_assoc, Nat.add_sub_of_le hrest]

/-- An unchanging file is read whole exactly when it keeps to the limit. -/
theorem Serves.readBounded_eq_ok (h : file.Serves bytes) (hc : cancellation.cancelled = false)
    {out : List UInt8} : file.readBounded cancellation byteLimit = .ok out ↔
      bytes.length ≤ byteLimit ∧ out = bytes := by
  have hcheck : cancellation.check = .ok () := CancellationToken.check_eq_ok hc
  have hblocks : file.readBlocks cancellation (readLimit byteLimit) (readLimit byteLimit) [] =
      .ok (bytes.take (readLimit byteLimit)) := by
    have hread := h.readBlocks hc (Nat.le_refl (readLimit byteLimit)) (Nat.zero_le bytes.length)
    rwa [List.take_zero, Nat.zero_add] at hread
  simp only [readBounded, bind_eq_ok_iff, guard_eq_ok_iff, hcheck, h.opens, h.size, hblocks,
    okOr_eq_ok, not_true_eq_false, not_false_eq_true, Option.some.injEq, Except.ok.injEq,
    exists_const, true_and, exists_eq_left', gt_iff_lt, Nat.not_lt]
  refine and_congr_right fun hlimit => ?_
  have hwhole : bytes.take (readLimit byteLimit) = bytes := by
    have hfits := h.fits
    refine List.take_of_length_le ?_
    unfold readLimit saturatingAdd
    omega
  rw [hwhole]
  exact ⟨fun heq => heq.2.symm, fun heq => ⟨hlimit, heq.symm⟩⟩

end MetadataFile

end ModelWeights
