import ModelWeights.Gguf.Parse

/-! # Encoded values

The reference encoding of metadata values, and that the reader takes every value
back from it. An array is read back as long as it does not nest deeper than the
reader goes. -/
namespace ModelWeights.Gguf
open Parsing

/-! ## The encoding -/

def ValueType.raw : ValueType → Nat
  | .scalar .u8 => 0
  | .scalar .i8 => 1
  | .scalar .u16 => 2
  | .scalar .i16 => 3
  | .scalar .u32 => 4
  | .scalar .i32 => 5
  | .scalar .f32 => 6
  | .bool => 7
  | .string => 8
  | .array => 9
  | .scalar .u64 => 10
  | .scalar .i64 => 11
  | .scalar .f64 => 12

def encodeScalar (type : ScalarType) (value : type.Bits) : List UInt8 :=
  leBytes type.width value.toNat

def encodeBool (value : Bool) : List UInt8 := leBytes 1 (if value then 1 else 0)

def encodeArrayHeader (type : ValueType) (count : Nat) : List UInt8 :=
  leBytes 4 type.raw ++ leBytes 8 count

mutual

def encodeArray : GgufArray → List UInt8
  | .array values => encodeArrayHeader .array values.length ++ encodeArrays values
  | .scalars type values =>
    encodeArrayHeader (.scalar type) values.length ++ values.flatMap (encodeScalar type)
  | .bool values => encodeArrayHeader .bool values.length ++ values.flatMap encodeBool
  | .string values => encodeArrayHeader .string values.length ++ values.flatMap encodeString

def encodeArrays : List GgufArray → List UInt8
  | [] => []
  | value :: values => encodeArray value ++ encodeArrays values

end

mutual

/-- How deep arrays nest; an array of anything else has depth one. -/
def GgufArray.depth : GgufArray → Nat
  | .array values => depths values + 1
  | _ => 1

def GgufArray.depths : List GgufArray → Nat
  | [] => 0
  | value :: values => max value.depth (depths values)

end

def GgufValue.type : GgufValue → ValueType
  | .scalar type _ => .scalar type
  | .bool _ => .bool
  | .string _ => .string
  | .array _ => .array

def encodeValue : GgufValue → List UInt8
  | .scalar type value => encodeScalar type value
  | .bool value => encodeBool value
  | .string value => encodeString value
  | .array value => encodeArray value

def GgufValue.depth : GgufValue → Nat
  | .array value => value.depth
  | _ => 0

/-! ## Sizes -/

@[simp] theorem ValueType.fromRaw_raw (type : ValueType) : fromRaw type.raw = .ok type := by
  cases type with
  | scalar type => cases type <;> rfl
  | _ => rfl

theorem ValueType.raw_lt (type : ValueType) : type.raw < 256 ^ 4 := by
  cases type with
  | scalar type => cases type <;> decide
  | _ => decide

@[simp] theorem length_encodeArrayHeader (type : ValueType) (count : Nat) :
    (encodeArrayHeader type count).length = 12 := by
  simp [encodeArrayHeader]

theorem le_length_encodeArray (value : GgufArray) : 12 ≤ (encodeArray value).length := by
  cases value <;> simp [encodeArray]

theorem encodeArrays_eq : ∀ values : List GgufArray,
    encodeArrays values = values.flatMap encodeArray
  | [] => rfl
  | value :: values => by
    rw [encodeArrays, encodeArrays_eq values, List.flatMap_cons]

theorem GgufArray.depth_le_depths {value : GgufArray} : ∀ {values : List GgufArray},
    value ∈ values → value.depth ≤ depths values
  | v :: values, h => by
    rw [depths]
    rcases List.mem_cons.mp h with rfl | h
    · exact Nat.le_max_left _ _
    · exact Nat.le_trans (depth_le_depths h) (Nat.le_max_right _ _)

section Sizes
variable {α : Type} {f : α → List UInt8}

/-- Elements of at least `k` bytes. -/
theorem length_mul_le_flatMap {k : Nat} : ∀ {l : List α}, (∀ a ∈ l, k ≤ (f a).length) →
    l.length * k ≤ (l.flatMap f).length
  | [], _ => by simp
  | a :: l, h => by
    have ha := h a (List.mem_cons_self ..)
    have ih := length_mul_le_flatMap fun b hb => h b (List.mem_cons_of_mem _ hb)
    rw [List.flatMap_cons, List.length_append, List.length_cons, Nat.add_mul]
    omega

theorem length_le_flatMap {a : α} : ∀ {l : List α}, a ∈ l →
    (f a).length ≤ (l.flatMap f).length
  | b :: l, h => by
    rw [List.flatMap_cons, List.length_append]
    rcases List.mem_cons.mp h with rfl | h
    · exact Nat.le_add_right _ _
    · exact Nat.le_trans (length_le_flatMap h) (Nat.le_add_left _ _)

end Sizes

/-! ## Reading back -/

section Values
variable {src : HeaderSource} {finish : Nat} (hc : src.cancellation.cancelled = false)
include hc

theorem parses_readScalar (type : ScalarType) (value : type.Bits) :
    Parses (At src finish) (readScalar src type) value (encodeScalar type value) := by
  have hlt : value.toNat < 256 ^ type.width := by
    have := value.isLt
    rwa [Nat.pow_mul] at this
  refine (parses_readWord hc type.width hlt).last ?_
  rw [BitVec.ofNat_toNat, BitVec.setWidth_eq]
  exact Parses.pure value

theorem parses_readBoolean (value : Bool) :
    Parses (At src finish) (readBoolean src) value (encodeBool value) := by
  cases value with
  | false => exact (parses_readWord hc 1 (by decide : 0 < 256 ^ 1)).last (Parses.pure false)
  | true => exact (parses_readWord hc 1 (by decide : 1 < 256 ^ 1)).last (Parses.pure true)

theorem parses_readArrayHeader {limit : Nat} (type : ValueType) {count : Nat}
    (hcount : count < u64Size) (hm : count * type.elementBytes ≤ limit) :
    Parses (At src finish) (readArrayHeader src limit) (type, count)
      (encodeArrayHeader type count) := by
  refine (parses_readWord hc 4 type.raw_lt).bind ?_
  refine Parses.then (Parses.lift type.fromRaw_raw) ?_
  have hpos : 0 < type.elementBytes := by
    cases type with
    | scalar type => cases type <;> decide
    | _ => decide
  have hbound : count ≤ limit / type.elementBytes := (Nat.le_div_iff_mul_le hpos).mpr hm
  exact (parses_readWord hc 8 hcount).last (Parses.lift (boundedCount_ok hcount hbound)).map

/-- An array of a flat element type: its header, then its elements. -/
theorem parses_elements {α : Type} {limit : Nat} {m : ReadM α} {encode : α → List UInt8}
    {type : ValueType} {values : List α} {k : (ValueType × Nat) → ReadM GgufArray}
    (wrap : List α → GgufArray)
    (hk : k (type, values.length) =
      (readElements m values.length >>= fun values => pure (wrap values)))
    (hmin : ∀ v ∈ values, type.elementBytes ≤ (encode v).length)
    (hl : (values.flatMap encode).length ≤ limit)
    (hu : values.length < u64Size)
    (hm : ∀ v ∈ values, Parses (At src finish) m v (encode v)) :
    Parses (At src finish) (readArrayHeader src limit >>= k) (wrap values)
      (encodeArrayHeader type values.length ++ values.flatMap encode) := by
  refine (parses_readArrayHeader hc type hu
    (Nat.le_trans (length_mul_le_flatMap hmin) hl)).bind ?_
  rw [hk]
  exact (Parses.elements hm).map

theorem parses_readArray {limit : Nat} : ∀ {levels : Nat} {value : GgufArray},
    value.depth ≤ levels → (encodeArray value).length ≤ limit →
    (encodeArray value).length < u64Size →
    Parses (At src finish) (readArray src limit levels) value (encodeArray value) := by
  intro levels
  induction levels with
  | zero => intro value hd; cases value <;> simp [GgufArray.depth] at hd
  | succ levels ih =>
    intro value hd hl hu
    cases value with
    | array values =>
      rw [encodeArray, encodeArrays_eq] at hl hu ⊢
      rw [List.length_append, length_encodeArrayHeader] at hl hu
      have hdepth : GgufArray.depths values ≤ levels := by simpa [GgufArray.depth] using hd
      have hmin : values.length * 12 ≤ (values.flatMap encodeArray).length :=
        length_mul_le_flatMap fun v _ => le_length_encodeArray v
      refine parses_elements hc .array rfl (fun v _ => le_length_encodeArray v)
        (by omega) (by omega) fun v hv => ?_
      have hv' := length_le_flatMap (f := encodeArray) hv
      exact ih (Nat.le_trans (GgufArray.depth_le_depths hv) hdepth) (by omega) (by omega)
    | scalars type values =>
      rw [encodeArray] at hl hu ⊢
      rw [List.length_append, length_encodeArrayHeader] at hl hu
      have hwidth : ∀ v ∈ values, type.width ≤ (encodeScalar type v).length := by
        intro v _
        rw [encodeScalar, length_leBytes]
      have hmin := length_mul_le_flatMap hwidth
      have hpos : values.length * 1 ≤ values.length * type.width :=
        Nat.mul_le_mul_left _ (by cases type <;> decide)
      exact parses_elements hc (.scalars type) rfl hwidth (by omega) (by omega)
        fun v _ => parses_readScalar hc type v
    | bool values =>
      rw [encodeArray] at hl hu ⊢
      rw [List.length_append, length_encodeArrayHeader] at hl hu
      have hwidth : ∀ v ∈ values, 1 ≤ (encodeBool v).length := by
        intro v _
        rw [encodeBool, length_leBytes]
      have hmin := length_mul_le_flatMap hwidth
      exact parses_elements hc .bool rfl hwidth (by omega) (by omega)
        fun v _ => parses_readBoolean hc v
    | string values =>
      rw [encodeArray] at hl hu ⊢
      rw [List.length_append, length_encodeArrayHeader] at hl hu
      have hwidth : ∀ v ∈ values, 8 ≤ (encodeString v).length := by
        intro v _
        rw [encodeString, List.length_append, length_leBytes]
        exact Nat.le_add_right _ _
      have hmin := length_mul_le_flatMap hwidth
      refine parses_elements hc .string rfl hwidth (by omega) (by omega)
        fun v hv => ?_
      have hv' := length_le_flatMap (f := encodeString) hv
      rw [encodeString, List.length_append] at hv'
      exact parses_readString hc (by omega) (by omega)

theorem parses_readValue {limit : Nat} {value : GgufValue}
    (hd : value.depth ≤ maxMetadataNestingDepth) (hl : (encodeValue value).length ≤ limit)
    (hu : (encodeValue value).length < u64Size) :
    Parses (At src finish) (readValue src value.type limit) value (encodeValue value) := by
  cases value with
  | scalar type value => exact (parses_readScalar hc type value).map
  | bool value => exact (parses_readBoolean hc value).map
  | string value =>
    rw [encodeValue, encodeString, List.length_append] at hl hu
    exact (parses_readString hc (by omega) (by omega)).map
  | array value => exact (parses_readArray hc hd hl hu).map

end Values

end ModelWeights.Gguf
