import ModelWeights.Storage

/-! # Block arithmetic

`block_bytes` rounds a count of values up to whole blocks, in checked arithmetic. -/
namespace ModelWeights

/-- The blocks that hold `values`: the last one may be partly filled. -/
def blockCount (values valuesPerBlock : Nat) : Nat := (values + (valuesPerBlock - 1)) / valuesPerBlock

/-- The count of values can be rounded up to a block. -/
def RoundsUp (values valuesPerBlock : Nat) : Prop :=
  values = 0 ∨ values + (valuesPerBlock - 1) < u64Size

section Blocks
variable {values v b n : Nat}

theorem blockCount_zero (hv : 0 < v) : blockCount 0 v = 0 := by
  unfold blockCount
  exact Nat.div_eq_of_lt (by omega)

theorem blockCount_whole (hv : 0 < v) (h : v ∣ values) : blockCount values v = values / v := by
  obtain ⟨k, rfl⟩ := h
  unfold blockCount
  rw [Nat.mul_add_div hv, Nat.div_eq_of_lt (by omega : v - 1 < v), Nat.add_zero,
    Nat.mul_div_cancel_left _ hv]

/-- Whole blocks below a multiple of the block size can be rounded up. -/
theorem roundsUp_whole (hv : 0 < v) (h : v ∣ values) (hsize : v ∣ u64Size)
    (hlt : values < u64Size) : RoundsUp values v := by
  obtain ⟨k, rfl⟩ := h
  obtain ⟨m, hm⟩ := hsize
  right
  rw [hm] at hlt ⊢
  have hkm : k + 1 ≤ m := Nat.lt_of_mul_lt_mul_left hlt
  have hle := Nat.mul_le_mul_left v hkm
  rw [Nat.mul_add, Nat.mul_one] at hle
  omega

/-- What `block_bytes` computes, and when. -/
theorem blockBytes_iff (hv : 0 < v) : blockBytes values v b = .ok n ↔
    RoundsUp values v ∧ n = blockCount values v * b ∧ n < u64Size := by
  unfold blockBytes
  by_cases hz : values = 0
  · rw [if_pos hz, hz, blockCount_zero hv, Nat.zero_mul]
    constructor
    · intro h
      obtain rfl := Except.ok.inj h
      exact ⟨.inl rfl, rfl, Nat.two_pow_pos 64⟩
    · rintro ⟨_, rfl, _⟩
      rfl
  · rw [if_neg hz]
    constructor
    · intro h
      obtain ⟨rounded, hround, h⟩ := bind_ok h
      obtain ⟨hlt, rfl⟩ := checkedAdd_eq_some.mp (okOr_eq_ok.mp hround)
      obtain ⟨hmul, rfl⟩ := checkedMul_eq_some.mp (okOr_eq_ok.mp h)
      exact ⟨.inr hlt, rfl, hmul⟩
    · rintro ⟨hround, rfl, hlt⟩
      rw [checkedAdd_eq_some.mpr ⟨hround.resolve_left hz, rfl⟩]
      exact okOr_eq_ok.mpr (checkedMul_eq_some.mpr ⟨hlt, rfl⟩)

/-- A whole number of blocks is not rounded. -/
theorem blockBytes_whole (hv : 0 < v) (h : v ∣ values) (hsize : v ∣ u64Size)
    (hlt : values < u64Size) (hbytes : values / v * b < u64Size) :
    blockBytes values v b = .ok (values / v * b) := by
  have hcount := blockCount_whole hv h
  exact (blockBytes_iff hv).mpr ⟨roundsUp_whole hv h hsize hlt, by rw [hcount], hbytes⟩

end Blocks

end ModelWeights
