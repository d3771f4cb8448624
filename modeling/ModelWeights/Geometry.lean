import ModelWeights.Gguf.Spans
import ModelWeights.Plan.Validity
import ModelWeights.Safetensors.Acceptance
import Mathlib.Algebra.BigOperators.Group.List.Basic

/-! # The geometry of packed payloads

The length that a block packing gives a shape, over the natural numbers, against the
checked arithmetic of `quantization.rs` and of the two readers. -/
namespace ModelWeights

/-- The bytes of a payload. An axis order has whole blocks on every line of the axis; an axis
outside the rank has no lines. -/
def packedLength (shape : List Nat) (block : BlockPacking) : Option Nat :=
  match block.order with
  | .flat => some (blockCount shape.prod block.valuesPerBlock * block.bytesPerBlock)
  | .axis axis =>
    if axis < shape.length then
      some ((shape.eraseIdx axis).prod *
        (blockCount (shape.getD axis 0) block.valuesPerBlock * block.bytesPerBlock))
    else none

/-- The block arithmetic of a shape stays within `u64`, the final length apart. -/
def BlocksFit (shape : List Nat) (block : BlockPacking) : Prop :=
  match block.order with
  | .flat => RoundsUp shape.prod block.valuesPerBlock
  | .axis axis => RoundsUp (shape.getD axis 0) block.valuesPerBlock ∧
    blockCount (shape.getD axis 0) block.valuesPerBlock * block.bytesPerBlock < u64Size

section Payload
variable {shape : List Nat} {block : BlockPacking} {n : Nat}

theorem prod_div_axis {axis : Nat} (haxis : axis < shape.length) (hz : shape.getD axis 0 ≠ 0) :
    shape.prod / shape.getD axis 0 = (shape.eraseIdx axis).prod := by
  have hget : shape.getD axis 0 = shape[axis] := by simp [haxis]
  rw [hget] at hz ⊢
  rw [← List.CommMonoid.mul_prod_eraseIdx haxis, Nat.mul_div_cancel_left _ (Nat.pos_of_ne_zero hz)]

/-- What `validate_shape_and_packing` expects, and when it can say so. -/
theorem expectedPayload_iff (hv : 0 < block.valuesPerBlock) :
    expectedPayload shape shape.prod block = .ok n ↔
      packedLength shape block = some n ∧ BlocksFit shape block ∧ n < u64Size := by
  unfold expectedPayload packedLength BlocksFit
  cases block.order with
  | flat =>
    dsimp only
    rw [blockBytes_iff hv, Option.some.injEq]
    constructor
    · rintro ⟨hround, rfl, hlt⟩
      exact ⟨rfl, hround, hlt⟩
    · rintro ⟨rfl, hround, hlt⟩
      exact ⟨hround, rfl, hlt⟩
  | axis axis =>
    dsimp only
    by_cases haxis : axis < shape.length
    · have hvalid : validateAxis axis shape.length "quantized block" = .ok () :=
        if_neg (by omega)
      rw [hvalid, if_pos haxis, Option.some.injEq]
      show (if shape.getD axis 0 = 0 then _ else _) = _ ↔ _
      by_cases hz : shape.getD axis 0 = 0
      · rw [if_pos hz, hz, blockCount_zero hv, Nat.zero_mul, Nat.mul_zero]
        constructor
        · intro h
          obtain rfl := Except.ok.inj h
          exact ⟨rfl, ⟨.inl rfl, Nat.two_pow_pos 64⟩, Nat.two_pow_pos 64⟩
        · rintro ⟨rfl, _⟩
          rfl
      · rw [if_neg hz, prod_div_axis haxis hz]
        constructor
        · intro h
          obtain ⟨line, hline, h⟩ := bind_ok h
          obtain ⟨hround, rfl, hfits⟩ := (blockBytes_iff hv).mp hline
          obtain ⟨hlt, rfl⟩ := checkedMul_eq_some.mp (okOr_eq_ok.mp h)
          exact ⟨rfl, ⟨hround, hfits⟩, hlt⟩
        · rintro ⟨rfl, ⟨hround, hfits⟩, hlt⟩
          rw [(blockBytes_iff hv).mpr ⟨hround, rfl, hfits⟩]
          exact okOr_eq_ok.mpr (checkedMul_eq_some.mpr ⟨hlt, rfl⟩)
    · rw [if_neg haxis]
      constructor
      · intro h
        obtain ⟨_, haxis', _⟩ := bind_ok h
        exact absurd (Nat.not_le.mp (unless_error_ok haxis').1) haxis
      · rintro ⟨h, _⟩
        cases h

/-- A payload is accepted if it has the length of its blocks and this can be computed. -/
theorem validatePacking_iff (hfits : ∀ k, (shape.take k).prod < u64Size)
    (hv : 0 < block.valuesPerBlock) {payload : SourceSpan} (hlength : payload.length < u64Size) :
    validateShapeAndPacking shape payload (.blocks block) = .ok () ↔
      packedLength shape block = some payload.length ∧ BlocksFit shape block := by
  unfold validateShapeAndPacking
  rw [foldlM_checkedMul_one _ hfits]
  show (expectedPayload shape shape.prod block >>= _) = _ ↔ _
  constructor
  · intro h
    obtain ⟨expected, hexpected, h⟩ := bind_ok h
    obtain ⟨hpacked, hblocks, _⟩ := (expectedPayload_iff hv).mp hexpected
    rw [not_not.mp (unless_error_ok h).1] at hpacked
    exact ⟨hpacked, hblocks⟩
  · rintro ⟨hpacked, hblocks⟩
    rw [(expectedPayload_iff hv).mpr ⟨hpacked, hblocks, hlength⟩]
    exact if_neg (not_not.mpr rfl)

end Payload

/-! ## The lengths that the readers compute -/

/-- A packed GGUF tensor whose length and span the reader computed. -/
structure ComputedLength (type : Gguf.GgmlType) (offset : Nat) (shape : List Nat) : Prop where
  packed : type.dtype = none
  dimensions : ∀ d ∈ shape, d < u64Size
  rank : 0 < shape.length
  axis : shape.length - 1 < 2 ^ 32
  rows : type.valuesPerBlock ∣ shape.getD (shape.length - 1) 0
  products : ∀ k, (shape.take k).prod < u64Size
  span : offset + shape.prod / type.valuesPerBlock * type.bytesPerBlock < u64Size

/-- The bytes of one row. -/
def rowBytes (type : Gguf.GgmlType) (shape : List Nat) : Nat :=
  shape.getD (shape.length - 1) 0 / type.valuesPerBlock * type.bytesPerBlock

section Gguf
open Gguf
variable {type : GgmlType} {offset : Nat} {shape : List Nat}

/-- The rows together have the length of the reader. -/
theorem ComputedLength.packedLength (h : ComputedLength type offset shape) :
    packedLength shape ⟨type.valuesPerBlock, type.bytesPerBlock, .axis (shape.length - 1)⟩ =
      some (shape.prod / type.valuesPerBlock * type.bytesPerBlock) := by
  have hrank := h.rank
  have haxis : shape.length - 1 < shape.length := by omega
  have hget : shape.getD (shape.length - 1) 0 = shape[shape.length - 1] := by simp [haxis]
  have hprod := List.CommMonoid.mul_prod_eraseIdx haxis
  unfold ModelWeights.packedLength
  dsimp only
  rw [if_pos haxis, blockCount_whole type.valuesPerBlock_pos h.rows, ← hprod, ← hget,
    ← Nat.div_mul_right_comm h.rows, Nat.mul_left_comm, Nat.mul_assoc]

theorem ComputedLength.blocksFit (h : ComputedLength type offset shape) :
    BlocksFit shape ⟨type.valuesPerBlock, type.bytesPerBlock, .axis (shape.length - 1)⟩ ↔
      rowBytes type shape < u64Size := by
  have hrank := h.rank
  have haxis : shape.length - 1 < shape.length := by omega
  have hrow : shape.getD (shape.length - 1) 0 < u64Size := by
    have hget : shape.getD (shape.length - 1) 0 = shape[shape.length - 1] := by simp [haxis]
    rw [hget]
    exact h.dimensions _ (List.getElem_mem haxis)
  have hround := roundsUp_whole type.valuesPerBlock_pos h.rows type.valuesPerBlock_dvd hrow
  unfold BlocksFit rowBytes
  dsimp only
  rw [blockCount_whole type.valuesPerBlock_pos h.rows]
  exact ⟨fun hfits => hfits.2, fun hfits => ⟨hround, hfits⟩⟩

/-- A row of a tensor with elements is no longer than the tensor. -/
theorem ComputedLength.rowBytes_lt (h : ComputedLength type offset shape)
    (helements : shape.prod ≠ 0) : rowBytes type shape < u64Size := by
  have hrank := h.rank
  have haxis : shape.length - 1 < shape.length := by omega
  have hget : shape.getD (shape.length - 1) 0 = shape[shape.length - 1] := by simp [haxis]
  have hprod := List.CommMonoid.mul_prod_eraseIdx haxis
  have hlines : 0 < (shape.eraseIdx (shape.length - 1)).prod := by
    refine Nat.pos_of_ne_zero fun hz => helements ?_
    rw [← hprod, hz, Nat.mul_zero]
  have hspan := h.span
  unfold rowBytes
  rw [hget]
  rw [← hprod] at hspan
  have hle := Nat.div_le_div_right (c := type.valuesPerBlock)
    (Nat.le_mul_of_pos_right shape[shape.length - 1] hlines)
  have hbytes := Nat.mul_le_mul_right type.bytesPerBlock hle
  omega

/-- The descriptor of a packed GGUF tensor with a computed length is accepted exactly if one
of its rows has a length. -/
theorem packedStorage_iff (h : ComputedLength type offset shape) (file : FileId) :
    (∃ st, packedStorage file offset shape type = .ok st) ↔ rowBytes type shape < u64Size := by
  have hrank := h.rank
  have haxis := h.axis
  have hv := type.valuesPerBlock_pos
  have hb := type.bytesPerBlock_pos
  have hspan := h.span
  have hprod := foldlM_checkedMul_one (.limit "GGUF tensor element count overflows u64") h.products
  have hcheckedAxis : checkedSub shape.length 1 = some (shape.length - 1) :=
    checkedSub_eq_some.mpr ⟨hrank, rfl⟩
  have hlength : checkedMul (shape.prod / type.valuesPerBlock) type.bytesPerBlock =
      some (shape.prod / type.valuesPerBlock * type.bytesPerBlock) :=
    checkedMul_eq_some.mpr ⟨by omega, rfl⟩
  have hpacking : BlockPacking.new type.valuesPerBlock type.bytesPerBlock
      (.axis (shape.length - 1)) = .ok ⟨type.valuesPerBlock, type.bytesPerBlock,
        .axis (shape.length - 1)⟩ := by
    unfold BlockPacking.new
    rw [if_neg (by omega)]
  have hencoding : type.encoding = some ⟨⟨"gguf"⟩, ⟨type.name⟩, GgmlType.encodingVersion⟩ := by
    rw [GgmlType.encoding, h.packed]
    rfl
  have hvalid := @validatePacking_iff shape ⟨type.valuesPerBlock, type.bytesPerBlock,
    .axis (shape.length - 1)⟩ h.products hv
    ⟨file, offset, shape.prod / type.valuesPerBlock * type.bytesPerBlock⟩ (by dsimp only; omega)
  rw [h.packedLength, h.blocksFit] at hvalid
  unfold packedStorage
  rw [hcheckedAxis]
  show (∃ st, (if _ ≠ 0 then _ else _) = _) ↔ _
  rw [if_neg (not_not.mpr (Nat.mod_eq_zero_of_dvd h.rows)), hprod]
  show (∃ st, (okOr (checkedMul (shape.prod / type.valuesPerBlock) _) _ >>= _) = _) ↔ _
  rw [hlength]
  show (∃ st, (SourceSpan.new file _ _ >>= _) = _) ↔ _
  rw [SourceSpan.new_eq hspan]
  show (∃ st, (if _ ≥ _ then _ else _) = _) ↔ _
  rw [if_neg (by omega), hpacking, hencoding]
  show (∃ st, (QuantizedStorage.build _ _ _ _ _ _ _ _ >>= _) = _) ↔ _
  unfold QuantizedStorage.build
  constructor
  · rintro ⟨st, h⟩
    obtain ⟨_, h, _⟩ := bind_ok h
    obtain ⟨_, h, _⟩ := bind_ok h
    exact (hvalid.mp h).2
  · intro hrow
    rw [hvalid.mpr ⟨rfl, hrow⟩]
    exact ⟨_, rfl⟩

end Gguf

/-- A safetensors tensor of a length that the reader computed has a descriptor. -/
theorem intoStorage_byteLen {value : String} {dtype : Safetensors.HeaderDtype}
    (hd : Safetensors.parseDtype value = .ok dtype) {shape : List Nat} {span : SourceSpan}
    (h : dtype.byteLen shape = .ok span.length) :
    ∃ st, dtype.intoStorage shape span = .ok st := by
  obtain ⟨hfits, hbytes, _⟩ := (Safetensors.byteLen_iff hd).mp h
  exact Safetensors.intoStorage_eq hd hfits hbytes

/-- **Packed payloads have the length of their blocks.** A payload is accepted exactly if it
has the length that its shape and packing have over the natural numbers and the arithmetic
of its blocks stays within `u64`. A length that the GGUF reader computed is accepted exactly
if one row has a length, which it has in every tensor with elements; a length that the
safetensors reader computed is always accepted. -/
theorem packed_accepted :
    (∀ (shape : List Nat) (block : BlockPacking) (payload : SourceSpan),
      (∀ k, (shape.take k).prod < u64Size) → (Packing.blocks block).valid = true →
      payload.valid = true → (validateShapeAndPacking shape payload (.blocks block) = .ok () ↔
        packedLength shape block = some payload.length ∧ BlocksFit shape block)) ∧
    (∀ (type : Gguf.GgmlType) (offset : Nat) (shape : List Nat) (file : FileId),
      ComputedLength type offset shape →
      ((∃ st, Gguf.packedStorage file offset shape type = .ok st) ↔
        rowBytes type shape < u64Size) ∧
      (shape.prod ≠ 0 → ∃ st, Gguf.packedStorage file offset shape type = .ok st)) ∧
    (∀ (value : String) (dtype : Safetensors.HeaderDtype) (shape : List Nat) (span : SourceSpan),
      Safetensors.parseDtype value = .ok dtype → dtype.byteLen shape = .ok span.length →
      ∃ st, dtype.intoStorage shape span = .ok st) := by
  refine ⟨fun shape block payload hfits hblock hpayload => ?_, fun type offset shape file h => ?_,
    fun value dtype shape span hd h => intoStorage_byteLen hd h⟩
  · have hv : 0 < block.valuesPerBlock := by
      refine Nat.pos_of_ne_zero fun hz => ?_
      unfold Packing.valid BlockPacking.new at hblock
      dsimp only at hblock
      rw [if_pos (.inl hz)] at hblock
      cases hblock
    have hlength : payload.length < u64Size := by
      unfold SourceSpan.valid SourceSpan.new at hpayload
      cases hadd : checkedAdd payload.offset payload.length with
      | none =>
        rw [hadd] at hpayload
        cases hpayload
      | some finish =>
        have hlt := (checkedAdd_eq_some.mp hadd).1
        omega
    exact validatePacking_iff hfits hv hlength
  · exact ⟨packedStorage_iff h file, fun helements =>
      (packedStorage_iff h file).mpr (h.rowBytes_lt helements)⟩

/-- Rows of 33 values in blocks of 32, a `Q8_0` tensor, and an `F4` tensor. -/
theorem packed_accepted_rows :
    (validateShapeAndPacking [3, 33] ⟨0, 0, 204⟩ (.blocks ⟨32, 34, .axis 1⟩) = .ok () ↔
      packedLength [3, 33] ⟨32, 34, .axis 1⟩ = some 204 ∧
        BlocksFit [3, 33] ⟨32, 34, .axis 1⟩) ∧
    (∃ st, Gguf.packedStorage 0 64 [2, 64] .q8_0 = .ok st) ∧
    ∃ st, Safetensors.HeaderDtype.intoStorage (.quantized "f4" 2 1) [3, 2] ⟨0, 0, 3⟩ = .ok st := by
  have hrows := (Safetensors.elementProduct_iff.mp (by decide : elementProduct [3, 33] = .ok 99)).1
  have hproducts :=
    (Safetensors.elementProduct_iff.mp (by decide : elementProduct [2, 64] = .ok 128)).1
  have hcomputed : ComputedLength .q8_0 64 [2, 64] :=
    ⟨rfl, by decide, by decide, by decide, by decide, hproducts, by decide⟩
  exact ⟨packed_accepted.1 [3, 33] ⟨32, 34, .axis 1⟩ ⟨0, 0, 204⟩ hrows (by decide) (by decide),
    (packed_accepted.2.1 .q8_0 64 [2, 64] 0 hcomputed).2 (by decide),
    packed_accepted.2.2 "F4" (.quantized "f4" 2 1) [3, 2] ⟨0, 0, 3⟩ rfl rfl⟩

/-- One value less than 2^64 in blocks of two has a length, but is not rounded up; and an empty
`Q8_0` tensor whose row has no length is rejected, though the reader computed no bytes. -/
theorem packed_overflows :
    validateShapeAndPacking [2 ^ 64 - 1] ⟨0, 0, 2 ^ 63⟩ (.blocks ⟨2, 1, .flat⟩) =
      .error (.limit "quantized block count rounding overflows u64") ∧
    packedLength [2 ^ 64 - 1] ⟨2, 1, .flat⟩ = some (2 ^ 63) ∧
    SourceSpan.valid ⟨0, 0, 2 ^ 63⟩ = true ∧ (Packing.blocks ⟨2, 1, .flat⟩).valid = true ∧
    elementProduct [2 ^ 64 - 1] = .ok (2 ^ 64 - 1) ∧
    Gguf.storage 0 64 [0, 2 ^ 64 - 32] 8 =
      .error (.limit "quantized packed byte length overflows u64") ∧
    packedLength [0, 2 ^ 64 - 32] ⟨32, 34, .axis 1⟩ = some 0 := by
  decide +kernel

end ModelWeights
