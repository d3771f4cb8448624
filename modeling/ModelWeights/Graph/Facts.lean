import ModelWeights.Tensor
import ModelWeights.Lib.Strided
import Mathlib.Data.List.Sort

/-! # Checked tensor facts

`TensorFacts` can only be made by the checks of `TensorFacts::new`: the record
carries the proof that they passed. What the checks give a kernel is stated at
the end: the map from logical coordinates to storage elements is injective and
stays inside the allocation. -/
namespace ModelWeights.Graph
open Strided

/-! ## Shapes and strides -/

def validateRank (rank : Nat) : Result Unit :=
  if rank < 2 ^ 32 then .ok () else .error (.limit "tensor rank exceeds u32")

def checkedElementCount (shape : List Nat) : Result Nat := elementProduct shape

/-- The loop of `contiguous_strides`: the strides of `shape` and the running
stride after its first axis. -/
def contiguousStridesLoop : List Nat → Result (List Nat × Nat)
  | [] => .ok ([], 1)
  | dimension :: rest => do
    let (strides, stride) ← contiguousStridesLoop rest
    let next ← okOr (checkedMul stride dimension) (.limit "contiguous tensor stride overflows u64")
    .ok (stride :: strides, next)

def contiguousStrides (shape : List Nat) : Result (List Nat) := do
  validateRank shape.length
  let (strides, _) ← contiguousStridesLoop shape
  .ok strides

/-- The axes that vary, ordered by stride. -/
def varyingAxes (shape strides : List Nat) : List (Nat × Nat) :=
  ((shape.zip strides).filter fun axis => 1 < axis.1).insertionSort fun a b => a.2 ≤ b.2

def denseLoop : Nat → List (Nat × Nat) → Result Nat
  | expectedStride, [] => .ok expectedStride
  | expectedStride, (dimension, stride) :: rest =>
    if stride ≠ expectedStride then
      .error (.invalid "logical element strides must describe dense non-overlapping storage")
    else do
      let next ← okOr (checkedMul expectedStride dimension)
        (.limit "logical element-stride span overflows u64")
      denseLoop next rest

def validateDenseStrides (shape strides : List Nat) (elements : Nat) : Result Unit :=
  if elements = 0 then .ok ()
  else do
    let expectedStride ← denseLoop 1 (varyingAxes shape strides)
    if expectedStride ≠ elements then
      .error (.invalid "logical element strides do not span the complete storage")
    else .ok ()

def storageSpanLoop : Nat → List (Nat × Nat) → Result Nat
  | span, [] => .ok span
  | span, (dimension, stride) :: rest =>
    if stride < span then
      .error (.invalid "physical element strides overlap logical coordinates")
    else do
      let next ← okOr ((checkedSub dimension 1).bind fun extent =>
          (checkedMul extent stride).bind fun extent => checkedAdd extent span)
        (.limit "physical element-stride span overflows u64")
      storageSpanLoop next rest

def validateStorageStrides (logicalShape storageStrides : List Nat)
    (logicalElements storageElements : Nat) : Result Unit :=
  if logicalElements = 0 then .ok ()
  else if storageElements = 0 then
    .error (.invalid "non-empty logical tensor requires non-empty physical storage")
  else do
    let span ← storageSpanLoop 1 (varyingAxes logicalShape storageStrides)
    if span > storageElements then
      .error (.invalid "physical element strides address beyond the storage allocation")
    else .ok ()

/-! ## Facts -/

def validateContiguousStorage (logicalShape storageShape storageStrides : List Nat)
    (representation : Representation) : Result Unit :=
  if representation.layout.isContiguous then do
    let expectedStorageStrides ← contiguousStrides logicalShape
    if storageShape ≠ logicalShape ∨ storageStrides ≠ expectedStorageStrides then
      .error (.invalid "contiguous representation requires logical-order physical storage")
    else .ok ()
  else .ok ()

/-- The checks of `TensorFacts::new`, in its order. -/
def validateFacts (logicalShape storageShape logicalStrides storageStrides : List Nat)
    (representation : Representation) (byteLen : Nat) : Result Unit := do
  validateRank logicalShape.length
  validateRank storageShape.length
  if logicalShape.length ≠ storageShape.length then
    .error (.invalid "logical and storage tensor ranks must be equal")
  else if logicalShape.length ≠ logicalStrides.length then
    .error (.invalid "logical shape and element-stride ranks must be equal")
  else if logicalShape.length ≠ storageStrides.length then
    .error (.invalid "logical shape and storage-stride ranks must be equal")
  else do
    let logicalElements ← checkedElementCount logicalShape
    let storageElements ← checkedElementCount storageShape
    validateDenseStrides logicalShape logicalStrides logicalElements
    validateStorageStrides logicalShape storageStrides logicalElements storageElements
    validateContiguousStorage logicalShape storageShape storageStrides representation
    let expectedBytes ← representation.dtype.byteLen storageShape
    if byteLen ≠ expectedBytes then
      .error (.invalid s!"tensor facts record {byteLen} bytes, but {debugDType representation.dtype} storage requires {expectedBytes}")
    else .ok ()

/-- Logical and physical facts of one dense tensor value. -/
structure TensorFacts where
  logicalShape : List Nat
  storageShape : List Nat
  logicalStrides : List Nat
  storageStrides : List Nat
  representation : Representation
  byteLen : Nat
  validated : validateFacts logicalShape storageShape logicalStrides storageStrides
    representation byteLen = .ok ()
  deriving DecidableEq

namespace TensorFacts

def new (logicalShape storageShape logicalStrides storageStrides : List Nat)
    (representation : Representation) (byteLen : Nat) : Result TensorFacts :=
  match h : validateFacts logicalShape storageShape logicalStrides storageStrides
      representation byteLen with
  | .ok () => .ok ⟨logicalShape, storageShape, logicalStrides, storageStrides, representation,
      byteLen, h⟩
  | .error e => .error e

def contiguous (shape : List Nat) (representation : Representation) : Result TensorFacts :=
  if representation.layout.isContiguous = false then
    .error (.invalid "contiguous tensor facts require a contiguous representation")
  else do
    let strides ← contiguousStrides shape
    let byteLen ← representation.dtype.byteLen shape
    new shape shape strides strides representation byteLen

/-- The element count, with the saturating product of the source. -/
def elementCount (facts : TensorFacts) : Nat := facts.logicalShape.foldl saturatingMul 1

def isCanonicalContiguous (facts : TensorFacts) : Bool :=
  facts.representation.layout.isContiguous &&
    (facts.logicalShape == facts.storageShape) &&
    match contiguousStrides facts.logicalShape with
    | .ok strides => strides == facts.logicalStrides && strides == facts.storageStrides
    | .error _ => false

/-- The byte width of one element. -/
def width (facts : TensorFacts) : Nat := facts.representation.dtype.bits / 8

theorem width_pos (facts : TensorFacts) : 0 < facts.width :=
  facts.representation.dtype.width_pos

/-- The storage element a logical coordinate addresses. -/
def offset (facts : TensorFacts) (coord : List Nat) : Nat := dot facts.storageStrides coord

end TensorFacts

/-! ## What the checks establish -/

theorem contiguousStridesLoop_ok : ∀ {shape strides : List Nat} {next : Nat},
    contiguousStridesLoop shape = .ok (strides, next) →
      strides = rowMajor shape ∧ next = shape.prod
  | [], strides, next, h => by
    simp only [contiguousStridesLoop, Except.ok.injEq, Prod.mk.injEq] at h
    simp [← h.1, ← h.2, rowMajor]
  | d :: ds, strides, next, h => by
    obtain ⟨⟨ss, stride⟩, hl, hr⟩ := bind_ok h
    obtain ⟨m, hm, hr⟩ := bind_ok hr
    obtain ⟨hs, hn⟩ := contiguousStridesLoop_ok hl
    have hm := (checkedMul_eq_some.mp (okOr_eq_ok.mp hm)).2
    simp only [Except.ok.injEq, Prod.mk.injEq] at hr
    obtain ⟨rfl, rfl⟩ := hr
    exact ⟨by rw [rowMajor, hs, hn], by rw [hm, hn, List.prod_cons, Nat.mul_comm]⟩

theorem contiguousStrides_ok {shape strides : List Nat}
    (h : contiguousStrides shape = .ok strides) : strides = rowMajor shape := by
  obtain ⟨_, _, h⟩ := bind_ok h
  obtain ⟨⟨ss, next⟩, hl, h⟩ := bind_ok h
  obtain rfl : ss = strides := by simpa using h
  exact (contiguousStridesLoop_ok hl).1

theorem storageSpanLoop_ok : ∀ {axes : List (Nat × Nat)} {span result : Nat},
    storageSpanLoop span axes = .ok result → Separated span axes ∧ result = spanOf span axes
  | [], span, result, h => by
    simp only [storageSpanLoop, Except.ok.injEq] at h
    simp [Separated, spanOf, h]
  | (d, s) :: rest, span, result, h => by
    rw [storageSpanLoop] at h
    obtain ⟨hge, h⟩ := unless_error_ok h
    obtain ⟨next, hn, h⟩ := bind_ok h
    have hn := okOr_eq_ok.mp hn
    obtain ⟨extent, he, hn⟩ := Option.bind_eq_some_iff.mp hn
    obtain ⟨product, hm, hn⟩ := Option.bind_eq_some_iff.mp hn
    have he := (checkedSub_eq_some.mp he).2
    have hm := (checkedMul_eq_some.mp hm).2
    have hn := (checkedAdd_eq_some.mp hn).2
    obtain ⟨hs, hr⟩ := storageSpanLoop_ok h
    subst he hm hn
    exact ⟨⟨by omega, hs⟩, hr⟩

/-- The checks that facts have passed. -/
structure FactsChecks (f : TensorFacts) : Prop where
  logicalRank : validateRank f.logicalShape.length = .ok ()
  storageRank : validateRank f.storageShape.length = .ok ()
  ranks : f.logicalShape.length = f.storageShape.length
  logicalStrideRank : f.logicalShape.length = f.logicalStrides.length
  storageStrideRank : f.logicalShape.length = f.storageStrides.length
  logicalElements : checkedElementCount f.logicalShape = .ok f.logicalShape.prod
  storageElements : checkedElementCount f.storageShape = .ok f.storageShape.prod
  logicalStrides : validateDenseStrides f.logicalShape f.logicalStrides f.logicalShape.prod = .ok ()
  storageStrides : validateStorageStrides f.logicalShape f.storageStrides f.logicalShape.prod
    f.storageShape.prod = .ok ()
  contiguous : validateContiguousStorage f.logicalShape f.storageShape f.storageStrides
    f.representation = .ok ()
  bytes : f.representation.dtype.byteLen f.storageShape = .ok f.byteLen

theorem TensorFacts.checks (f : TensorFacts) : FactsChecks f := by
  have h := f.validated
  unfold validateFacts at h
  obtain ⟨_, hlogicalRank, h⟩ := bind_ok h
  obtain ⟨_, hstorageRank, h⟩ := bind_ok h
  obtain ⟨hranks, h⟩ := unless_error_ok h
  obtain ⟨hlogicalStrideRank, h⟩ := unless_error_ok h
  obtain ⟨hstorageStrideRank, h⟩ := unless_error_ok h
  obtain ⟨logicalElements, hlogical, h⟩ := bind_ok h
  obtain ⟨storageElements, hstorage, h⟩ := bind_ok h
  obtain ⟨_, hlogicalStrides, h⟩ := bind_ok h
  obtain ⟨_, hstorageStrides, h⟩ := bind_ok h
  obtain ⟨_, hcontiguous, h⟩ := bind_ok h
  obtain ⟨bytes, hbytes, h⟩ := bind_ok h
  obtain rfl := not_not.mp (unless_error_ok h).1
  obtain rfl := elementProduct_ok hlogical
  obtain rfl := elementProduct_ok hstorage
  exact ⟨hlogicalRank, hstorageRank, not_not.mp hranks, not_not.mp hlogicalStrideRank,
    not_not.mp hstorageStrideRank, hlogical, hstorage, hlogicalStrides, hstorageStrides, hcontiguous,
    hbytes⟩

/-- Everything the checks of `TensorFacts::new` say, as facts about numbers. -/
structure FactsSpec (f : TensorFacts) : Prop where
  storageRank : f.storageShape.length = f.logicalShape.length
  logicalStrideRank : f.logicalStrides.length = f.logicalShape.length
  strideRank : f.storageStrides.length = f.logicalShape.length
  byteLen : f.byteLen = f.storageShape.prod * f.width
  strides : f.logicalShape.prod ≠ 0 →
    Separated 1 (varyingAxes f.logicalShape f.storageStrides) ∧
      spanOf 1 (varyingAxes f.logicalShape f.storageStrides) ≤ f.storageShape.prod
  contiguous : f.representation.layout.isContiguous = true →
    f.storageShape = f.logicalShape ∧ f.storageStrides = rowMajor f.logicalShape

theorem TensorFacts.spec (f : TensorFacts) : FactsSpec f := by
  have hchecks := f.checks
  refine ⟨hchecks.ranks.symm, hchecks.logicalStrideRank.symm, hchecks.storageStrideRank.symm, ?_, ?_,
    ?_⟩
  · exact DType.byteLen_ok hchecks.bytes
  · intro hne
    have hst := hchecks.storageStrides
    unfold validateStorageStrides at hst
    rw [if_neg (by omega)] at hst
    obtain ⟨_, hst⟩ := unless_error_ok hst
    obtain ⟨span, hspan, hst⟩ := bind_ok hst
    obtain ⟨hs, hr⟩ := storageSpanLoop_ok hspan
    have := (unless_error_ok hst).1
    exact ⟨hs, by omega⟩
  · intro hc
    have hcont := hchecks.contiguous
    rw [validateContiguousStorage, if_pos hc] at hcont
    obtain ⟨ss, hss, hcont⟩ := bind_ok hcont
    have hn := (unless_error_ok hcont).1
    simp only [ne_eq, not_or, not_not] at hn
    exact ⟨hn.1, hn.2.trans (contiguousStrides_ok hss)⟩

theorem TensorFacts.new_ok {ls ss lst sst : List Nat} {r : Representation} {n : Nat}
    {f : TensorFacts} (h : TensorFacts.new ls ss lst sst r n = .ok f) :
    f.logicalShape = ls ∧ f.storageShape = ss ∧ f.logicalStrides = lst ∧ f.storageStrides = sst ∧
      f.representation = r ∧ f.byteLen = n := by
  unfold TensorFacts.new at h
  split at h
  · simp only [Except.ok.injEq] at h
    simp [← h]
  · cases h

theorem TensorFacts.contiguous_ok {shape : List Nat} {r : Representation} {f : TensorFacts}
    (h : TensorFacts.contiguous shape r = .ok f) :
    f.logicalShape = shape ∧ f.storageShape = shape ∧ f.logicalStrides = rowMajor shape ∧
      f.storageStrides = rowMajor shape ∧ f.representation = r ∧
      r.layout.isContiguous = true := by
  unfold TensorFacts.contiguous at h
  obtain ⟨hc, h⟩ := unless_error_ok h
  obtain ⟨strides, hs, h⟩ := bind_ok h
  obtain ⟨bytes, _, h⟩ := bind_ok h
  obtain ⟨h1, h2, h3, h4, h5, _⟩ := TensorFacts.new_ok h
  have hs := contiguousStrides_ok hs
  exact ⟨h1, h2, h3.trans hs, h4.trans hs, h5, by simpa using hc⟩

theorem TensorFacts.isCanonicalContiguous_iff {f : TensorFacts}
    (h : f.isCanonicalContiguous = true) :
    f.storageShape = f.logicalShape ∧ f.logicalStrides = rowMajor f.logicalShape ∧
      f.storageStrides = rowMajor f.logicalShape := by
  unfold TensorFacts.isCanonicalContiguous at h
  simp only [Bool.and_eq_true, beq_iff_eq] at h
  obtain ⟨⟨_, hs⟩, h⟩ := h
  split at h
  · next strides hc =>
    simp only [Bool.and_eq_true, beq_iff_eq] at h
    have hc := contiguousStrides_ok hc
    exact ⟨hs.symm, by rw [← h.1, hc], by rw [← h.2, hc]⟩
  · cases h

/-- A product that passes the checked loop does not saturate. -/
theorem foldl_saturatingMul_eq {e : Error} : ∀ (shape : List Nat) (a n : Nat),
    shape.foldlM (fun p d => okOr (checkedMul p d) e) a = Except.ok n →
      shape.foldl saturatingMul a = n
  | [], a, n, h => by simpa [pure, Except.pure] using h
  | d :: ds, a, n, h => by
    rw [List.foldlM_cons] at h
    obtain ⟨m, hm, hr⟩ := bind_ok h
    obtain ⟨hlt, hm⟩ := checkedMul_eq_some.mp (okOr_eq_ok.mp hm)
    rw [List.foldl_cons, show saturatingMul a d = m by unfold saturatingMul; omega]
    exact foldl_saturatingMul_eq ds m n hr

theorem TensorFacts.elementCount_eq (f : TensorFacts) : f.elementCount = f.logicalShape.prod :=
  foldl_saturatingMul_eq _ _ _ f.checks.logicalElements

section Addressing
variable (f : TensorFacts)

theorem prod_pos_of_inBounds : ∀ {shape coord : List Nat}, InBounds shape coord → 0 < shape.prod
  | [], [], _ => by simp
  | d :: ds, c :: cs, h => by
    rw [List.prod_cons]
    exact Nat.mul_pos (by have := h.1; omega) (prod_pos_of_inBounds h.2)

theorem varyingAxes_perm (shape strides : List Nat) :
    ((shape.zip strides).filter fun x => 1 < x.1).Perm (varyingAxes shape strides) :=
  (List.perm_insertionSort _ _).symm

/-- Distinct logical coordinates address distinct storage elements. -/
theorem TensorFacts.offset_injective {c c' : List Nat} (hc : InBounds f.logicalShape c)
    (hc' : InBounds f.logicalShape c') (he : f.offset c = f.offset c') : c = c' :=
  dot_injective f.spec.strideRank (varyingAxes_perm _ _)
    (f.spec.strides (by have := prod_pos_of_inBounds hc; omega)).1 hc hc' he

/-- Every addressed storage element lies inside the allocation. -/
theorem TensorFacts.offset_lt {c : List Nat} (hc : InBounds f.logicalShape c) :
    f.offset c < f.storageShape.prod :=
  Nat.lt_of_lt_of_le (dot_lt_spanOf f.spec.strideRank (varyingAxes_perm _ _) hc)
    (f.spec.strides (by have := prod_pos_of_inBounds hc; omega)).2

theorem TensorFacts.element_fits {c : List Nat} (hc : InBounds f.logicalShape c) :
    f.offset c * f.width + f.width ≤ f.byteLen := by
  have := Nat.mul_le_mul_right f.width (Nat.succ_le_of_lt (f.offset_lt hc))
  rw [f.spec.byteLen]
  rw [Nat.succ_mul] at this
  exact this

theorem TensorFacts.nodup_offsets : ((coords f.logicalShape).map f.offset).Nodup := by
  refine (List.nodup_map_iff_inj_on (nodup_coords _)).mpr ?_
  intro c hc c' hc' he
  exact f.offset_injective (mem_coords.mp hc) (mem_coords.mp hc') he

end Addressing

/-- A 2 by 3 matrix of bytes. -/
def matrixFacts : TensorFacts := ⟨[2, 3], [2, 3], [3, 1], [3, 1], .contiguous .u8, 6, rfl⟩

end ModelWeights.Graph
