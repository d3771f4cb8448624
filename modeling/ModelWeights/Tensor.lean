import ModelWeights.Error

/-! # Scalar types, layouts and pinned transforms

The descriptors of `tensor.rs`, `identity.rs`, `prepare.rs` and `plan.rs` that
operation graphs are built from. -/
namespace ModelWeights

/-! ## Scalar types -/

inductive DType where
  | bool | u8 | i8 | u16 | i16 | u32 | i32 | u64 | i64
  | f16 | bf16 | f32 | f64 | c64
  | f8e5m2 | f8e4m3 | f8e8m0 | f8e4m3Fnuz | f8e5m2Fnuz
  deriving DecidableEq, Repr

/-- The derived `Debug`. -/
def debugDType : DType → String
  | .bool => "Bool"
  | .u8 => "U8"
  | .i8 => "I8"
  | .u16 => "U16"
  | .i16 => "I16"
  | .u32 => "U32"
  | .i32 => "I32"
  | .u64 => "U64"
  | .i64 => "I64"
  | .f16 => "F16"
  | .bf16 => "Bf16"
  | .f32 => "F32"
  | .f64 => "F64"
  | .c64 => "C64"
  | .f8e5m2 => "F8E5M2"
  | .f8e4m3 => "F8E4M3"
  | .f8e8m0 => "F8E8M0"
  | .f8e4m3Fnuz => "F8E4M3Fnuz"
  | .f8e5m2Fnuz => "F8E5M2Fnuz"

def DType.bits : DType → Nat
  | .bool | .u8 | .i8 | .f8e5m2 | .f8e4m3 | .f8e8m0 | .f8e4m3Fnuz | .f8e5m2Fnuz => 8
  | .u16 | .i16 | .f16 | .bf16 => 16
  | .u32 | .i32 | .f32 => 32
  | .u64 | .i64 | .f64 | .c64 => 64

/-- The left-to-right product of a shape, in `u64`. -/
def elementProduct (shape : List Nat) : Result Nat :=
  shape.foldlM (fun product dimension =>
    okOr (checkedMul product dimension) (.limit "tensor element count overflows u64")) 1

def DType.byteLen (dtype : DType) (shape : List Nat) : Result Nat := do
  let elements ← elementProduct shape
  okOr (checkedMul elements (dtype.bits / 8)) (.limit "tensor byte length overflows u64")

/-- The byte width of a scalar; every scalar type is byte aligned. -/
def dtypeWidth (dtype : DType) : Result Nat :=
  let bits := dtype.bits
  if bits = 0 ∨ bits % 8 ≠ 0 then
    .error (.unsupported "host structural operations require byte-aligned scalar dtypes")
  else .ok (bits / 8)

@[simp] theorem dtypeWidth_eq (dtype : DType) : dtypeWidth dtype = .ok (dtype.bits / 8) := by
  cases dtype <;> rfl

theorem DType.width_pos (dtype : DType) : 0 < dtype.bits / 8 := by
  cases dtype <;> decide

/-! ## Identities -/

/-- A portable ASCII identifier of at most 128 bytes. -/
structure StableName where
  text : String
  deriving DecidableEq, Repr

def isStableByte (c : Char) : Bool :=
  c.isAlphanum || c == '.' || c == '_' || c == '-' || c == '/' || c == ':'

def StableName.parse (value : String) : Result StableName :=
  if value.isEmpty = false ∧ value.utf8ByteSize ≤ 128 ∧ value.toList.all isStableByte then
    .ok ⟨value⟩
  else .error (.invalid "stable name must contain 1 to 128 portable ASCII identifier bytes")

structure ImplementationId where
  provider : StableName
  operation : StableName
  version : Nat
  deriving DecidableEq, Repr

structure TensorName where
  text : String
  deriving DecidableEq, Repr

/-! ## Representations and transforms -/

inductive Layout where
  | contiguous
  | custom (name : StableName) (version : Nat) (parameters : List UInt8)
  deriving DecidableEq, Repr

def Layout.isContiguous : Layout → Bool
  | .contiguous => true
  | .custom .. => false

structure Representation where
  dtype : DType
  layout : Layout
  deriving DecidableEq, Repr

def Representation.contiguous (dtype : DType) : Representation := ⟨dtype, .contiguous⟩

structure TransformSpec where
  implementation : ImplementationId
  source : Representation
  target : Representation
  deriving DecidableEq, Repr

structure PlannedTransform where
  transform : TransformSpec
  outputSize : Nat
  scratchBytes : Nat
  deriving DecidableEq, Repr

/-! ## What the checked products compute -/

theorem foldlM_checkedMul {e : Error} : ∀ (shape : List Nat) (a n : Nat),
    shape.foldlM (fun p d => okOr (checkedMul p d) e) a = Except.ok n → n = a * shape.prod
  | [], a, n, h => by
    have : a = n := by simpa [pure, Except.pure] using h
    simp [this]
  | d :: ds, a, n, h => by
    rw [List.foldlM_cons] at h
    obtain ⟨m, hm, hr⟩ := bind_ok h
    have hm := (checkedMul_eq_some.mp (okOr_eq_ok.mp hm)).2
    rw [foldlM_checkedMul ds m n hr, hm, List.prod_cons, Nat.mul_assoc]

theorem foldlM_checkedMul_eq {e : Error} : ∀ {shape : List Nat} {a : Nat},
    (∀ n, a * (shape.take n).prod < u64Size) →
    shape.foldlM (fun p d => okOr (checkedMul p d) e) a = Except.ok (a * shape.prod)
  | [], a, _ => by
    rw [List.foldlM_nil, List.prod_nil, Nat.mul_one]
    rfl
  | d :: ds, a, h => by
    have hd : a * d < u64Size := by simpa using h 1
    rw [List.foldlM_cons, checkedMul_eq_some.mpr ⟨hd, rfl⟩, List.prod_cons, ← Nat.mul_assoc]
    refine foldlM_checkedMul_eq fun n => ?_
    have hn := h (n + 1)
    rwa [List.take_succ_cons, List.prod_cons, ← Nat.mul_assoc] at hn

/-- The checked product of a shape whose leading products fit. -/
theorem foldlM_checkedMul_one (e : Error) {shape : List Nat}
    (h : ∀ n, (shape.take n).prod < u64Size) :
    shape.foldlM (fun p d => okOr (checkedMul p d) e) 1 = Except.ok shape.prod := by
  have := @foldlM_checkedMul_eq e shape 1 fun n => by rw [Nat.one_mul]; exact h n
  rwa [Nat.one_mul] at this

theorem elementProduct_ok {shape : List Nat} {n : Nat} (h : elementProduct shape = .ok n) :
    n = shape.prod := by
  simpa using foldlM_checkedMul shape 1 n h

theorem DType.byteLen_ok {dtype : DType} {shape : List Nat} {n : Nat}
    (h : dtype.byteLen shape = .ok n) : n = shape.prod * (dtype.bits / 8) := by
  obtain ⟨m, hm, hr⟩ := bind_ok h
  rw [(checkedMul_eq_some.mp (okOr_eq_ok.mp hr)).2, elementProduct_ok hm]

end ModelWeights
