import ModelWeights.Gguf.Parse
import Mathlib.Order.Bounds.Basic

/-! # Spans of accepted containers

What acceptance says about the tensors of a container: where their payloads lie,
that they do not overlap, and how long they are. Every equation is one between
natural numbers. -/
namespace ModelWeights.Gguf

open Parsing

/-! ## Alignment -/

/-- Clearing the low bits of a 64-bit number. -/
theorem and_high_mask {n k : Nat} (hn : n < 2 ^ 64) (hk : k < 64) :
    n &&& (u64Size - 1 - (2 ^ k - 1)) = n / 2 ^ k * 2 ^ k := by
  have hmask : u64Size - 1 - (2 ^ k - 1) = (2 ^ (64 - k) - 1) <<< k := by
    have hpow : 2 ^ (64 - k) * 2 ^ k = 2 ^ 64 := by
      rw [← Nat.pow_add]
      congr 1
      omega
    have hpos : 0 < 2 ^ k := Nat.two_pow_pos k
    rw [Nat.shiftLeft_eq, Nat.sub_mul, hpow, u64Size]
    omega
  rw [hmask, ← Nat.shiftRight_eq_div_pow, ← Nat.shiftLeft_eq]
  refine Nat.eq_of_testBit_eq fun i => ?_
  rw [Nat.testBit_and, Nat.testBit_shiftLeft, Nat.testBit_shiftLeft, Nat.testBit_shiftRight,
    Nat.testBit_two_pow_sub_one]
  by_cases hi : k ≤ i
  · have hik : k + (i - k) = i := by omega
    simp only [hi, decide_true, Bool.true_and, hik]
    by_cases h64 : i < 64
    · rw [decide_eq_true (by omega : i - k < 64 - k), Bool.and_true]
    · rw [Nat.testBit_lt_two_pow (Nat.lt_of_lt_of_le hn (Nat.pow_le_pow_right (by decide)
        (by omega)))]
      rfl
  · simp [hi]

theorem asU64_lt {value : GgufValue} {n : Nat} (h : value.asU64 = some n) : n < 2 ^ 64 := by
  cases value with
  | scalar type bits =>
    cases type <;> simp only [GgufValue.asU64, Option.some.injEq, reduceCtorEq] at h
    all_goals
      subst h
      exact Nat.lt_of_lt_of_le bits.isLt (Nat.pow_le_pow_right (by decide) (by decide))
  | _ => cases h

/-- An accepted alignment is a 64-bit power of two. -/
theorem metadataAlignment_ok {entries : OrderedMap String GgufValue} {alignment : Nat}
    (h : metadataAlignment entries = .ok alignment) : ∃ k < 64, alignment = 2 ^ k := by
  obtain ⟨hgood, h⟩ := unless_error_ok h
  obtain rfl := Except.ok.inj h
  rw [not_or, not_not] at hgood
  have hlt : ((entries.get? "general.alignment").bind GgufValue.asU64).getD defaultAlignment <
      2 ^ 64 := by
    cases ho : (entries.get? "general.alignment").bind GgufValue.asU64 with
    | none => decide
    | some n =>
      obtain ⟨value, _, hv⟩ := Option.bind_eq_some_iff.mp ho
      exact asU64_lt hv
  obtain ⟨k, hk⟩ := hgood.2
  refine ⟨k, ?_, hk⟩
  rw [hk] at hlt
  exact (Nat.pow_lt_pow_iff_right (by decide)).mp hlt

/-- The data base is the first aligned offset that is not in the header. -/
theorem alignUp_ok {value k base : Nat} (hk : k < 64) (h : alignUp value (2 ^ k) = .ok base) :
    IsLeast {m | 2 ^ k ∣ m ∧ value ≤ m} base := by
  obtain ⟨rounded, hr, h⟩ := bind_ok h
  obtain ⟨hlt, rfl⟩ := checkedAdd_eq_some.mp (okOr_eq_ok.mp hr)
  have hpos : 0 < 2 ^ k := Nat.two_pow_pos k
  rw [and_high_mask hlt hk] at h
  obtain rfl := Except.ok.inj h
  have hdiv := Nat.div_add_mod (value + (2 ^ k - 1)) (2 ^ k)
  have hmod := Nat.mod_lt (value + (2 ^ k - 1)) hpos
  refine ⟨⟨Nat.dvd_mul_left _ _, ?_⟩, ?_⟩
  · rw [Nat.mul_comm] at hdiv
    omega
  · rintro m ⟨⟨c, rfl⟩, hm⟩
    rw [Nat.mul_comm (2 ^ k) c]
    refine Nat.mul_le_mul_right _ ?_
    refine Nat.lt_succ_iff.mp ((Nat.div_lt_iff_lt_mul hpos).mpr ?_)
    rw [Nat.succ_mul, Nat.mul_comm c]
    omega

/-! ## Storage -/

theorem getD_last_dvd_prod : ∀ {shape : List Nat} {n : Nat}, shape ≠ [] →
    shape.getD (shape.length - 1) 0 % n = 0 → n ∣ shape.prod
  | [d], n, _, h => by
    rw [List.prod_singleton]
    exact Nat.dvd_of_mod_eq_zero h
  | d :: e :: rest, n, _, h => by
    rw [List.prod_cons]
    refine Nat.dvd_mul_left_of_dvd (getD_last_dvd_prod (by simp) ?_) d
    simpa using h

/-- The descriptor of a packed tensor is made from its own span. -/
theorem quantizedNew_payload {encoding : ImplementationId} {shape : List Nat} {span : SourceSpan}
    {packing : Packing} {q : QuantizedStorage}
    (h : QuantizedStorage.new encoding shape span packing = .ok q) : q.payload = span := by
  obtain ⟨_, _, h⟩ := bind_ok h
  obtain ⟨_, _, h⟩ := bind_ok h
  obtain ⟨_, h⟩ := unless_error_ok h
  obtain ⟨_, _, h⟩ := bind_ok h
  obtain ⟨_, h⟩ := unless_error_ok h
  rw [← Except.ok.inj h]

/-- The length of a payload in the blocks of its type. -/
def GgmlType.payloadBytes (type : GgmlType) (shape : List Nat) : Nat :=
  shape.prod / type.valuesPerBlock * type.bytesPerBlock

theorem packedStorage_ok {file : FileId} {offset : Nat} {shape : List Nat} {type : GgmlType}
    {st : Storage} (h : packedStorage file offset shape type = .ok st) :
    st.span = ⟨file, offset, type.payloadBytes shape⟩ ∧ type.valuesPerBlock ∣ shape.prod := by
  obtain ⟨axis, haxis, h⟩ := bind_ok h
  obtain ⟨hrow, h⟩ := unless_error_ok h
  obtain ⟨elements, he, h⟩ := bind_ok h
  obtain ⟨length, hl, h⟩ := bind_ok h
  obtain ⟨span, hs, h⟩ := bind_ok h
  obtain ⟨_, h⟩ := unless_error_ok h
  obtain ⟨packing, _, h⟩ := bind_ok h
  obtain ⟨encoding, _, h⟩ := bind_ok h
  obtain ⟨q, hq, h⟩ := bind_ok h
  obtain rfl := Except.ok.inj h
  obtain ⟨hrank, rfl⟩ := checkedSub_eq_some.mp (okOr_eq_ok.mp haxis)
  have he : elements = shape.prod := by simpa using foldlM_checkedMul shape 1 elements he
  have hl := (checkedMul_eq_some.mp (okOr_eq_ok.mp hl)).2
  obtain ⟨rfl, _⟩ := SourceSpan.new_ok hs
  rw [not_not] at hrow
  refine ⟨?_, getD_last_dvd_prod (by rintro rfl; simp at hrank) hrow⟩
  show q.payload = _
  rw [quantizedNew_payload hq, hl, he, GgmlType.payloadBytes]

theorem storage_ok {file : FileId} {offset code : Nat} {shape : List Nat} {st : Storage}
    (h : storage file offset shape code = .ok st) :
    ∃ type, GgmlType.fromCode code = .ok type ∧
      st.span = ⟨file, offset, type.payloadBytes shape⟩ ∧ type.valuesPerBlock ∣ shape.prod := by
  obtain ⟨type, htype, h⟩ := bind_ok h
  refine ⟨type, htype, ?_⟩
  cases hd : type.dtype with
  | some dtype =>
    rw [hd] at h
    obtain ⟨length, hl, h⟩ := bind_ok h
    obtain ⟨span, hs, h⟩ := bind_ok h
    obtain rfl := Except.ok.inj h
    obtain ⟨rfl, _⟩ := SourceSpan.new_ok hs
    obtain ⟨hv, hb⟩ := GgmlType.plain_geometry hd
    rw [GgmlType.payloadBytes, hv, hb, Nat.div_one, ← DType.byteLen_ok hl]
    exact ⟨rfl, Nat.one_dvd _⟩
  | none =>
    rw [hd] at h
    exact packedStorage_ok h

/-! ## Records -/

/-- What acceptance says about one tensor. -/
structure Accepted (file : FileId) (fileSize dataBase alignment : Nat) (raw : RawTensor)
    (tensor : TensorRecord) : Prop where
  name : tensor.name = raw.name
  shape : tensor.shape = raw.dimensions.reverse
  aligned : alignment ∣ raw.relativeOffset
  offset : tensor.storage.span.offset = dataBase + raw.relativeOffset
  within : tensor.storage.span.offset + tensor.storage.span.length ≤ fileSize
  geometry : ∃ type, GgmlType.fromCode raw.ggmlType = .ok type ∧
    type.valuesPerBlock ∣ tensor.shape.prod ∧
    tensor.storage.span.length = tensor.shape.prod / type.valuesPerBlock * type.bytesPerBlock

/-- One span ends before the other one begins. -/
def Disjoint (a b : TensorRecord) : Prop :=
  a.storage.span.offset + a.storage.span.length ≤ b.storage.span.offset ∨
    b.storage.span.offset + b.storage.span.length ≤ a.storage.span.offset

section Records
variable {file : FileId} {fileSize dataBase alignment : Nat} {token : CancellationToken}

theorem buildTensorRecord_ok {raw : RawTensor} {tensor : TensorRecord}
    (h : buildTensorRecord file fileSize dataBase alignment token raw = .ok tensor) :
    Accepted file fileSize dataBase alignment raw tensor := by
  obtain ⟨_, _, h⟩ := bind_ok h
  obtain ⟨haligned, h⟩ := unless_error_ok h
  obtain ⟨absolute, ha, h⟩ := bind_ok h
  obtain ⟨st, hst, h⟩ := bind_ok h
  obtain ⟨hend, h⟩ := unless_error_ok h
  obtain rfl := Except.ok.inj h
  obtain ⟨_, rfl⟩ := checkedAdd_eq_some.mp (okOr_eq_ok.mp ha)
  obtain ⟨type, htype, hspan, hdvd⟩ := storage_ok hst
  rw [SourceSpan.finish] at hend
  refine ⟨rfl, rfl, Nat.dvd_of_mod_eq_zero (not_not.mp haligned), ?_, Nat.not_lt.mp hend,
    ⟨type, htype, hdvd, ?_⟩⟩
  · rw [hspan]
  · rw [hspan]
    rfl

/-- A record lies in the file it is built for. -/
theorem buildTensorRecord_file {raw : RawTensor} {tensor : TensorRecord}
    (h : buildTensorRecord file fileSize dataBase alignment token raw = .ok tensor) :
    tensor.storage.span.file = file := by
  obtain ⟨_, _, h⟩ := bind_ok h
  obtain ⟨_, h⟩ := unless_error_ok h
  obtain ⟨_, _, h⟩ := bind_ok h
  obtain ⟨st, hst, h⟩ := bind_ok h
  obtain ⟨_, h⟩ := unless_error_ok h
  obtain rfl := Except.ok.inj h
  obtain ⟨_, _, hspan, _⟩ := storage_ok hst
  show st.span.file = file
  rw [hspan]

/-- Adjacent spans of a sorted list that do not overlap are apart from all
later ones. -/
theorem pairwise_of_not_overlaps : ∀ {l : List (Nat × Nat)}, (∀ a ∈ l, a.1 ≤ a.2) →
    l.Pairwise spanLe → overlaps l = false → l.Pairwise fun a b => a.2 ≤ b.1
  | [], _, _, _ => List.Pairwise.nil
  | [a], _, _, _ => List.pairwise_singleton _ _
  | a :: b :: rest, hle, hs, ho => by
    rw [overlaps, Bool.or_eq_false_iff, decide_eq_false_iff_not] at ho
    rw [List.pairwise_cons] at hs
    have ih := pairwise_of_not_overlaps (fun x hx => hle x (List.mem_cons_of_mem _ hx)) hs.2 ho.2
    refine List.pairwise_cons.mpr ⟨fun c hc => ?_, ih⟩
    rcases List.mem_cons.mp hc with rfl | hc
    · omega
    · have := (List.pairwise_cons.mp ih).1 c hc
      have := hle b (by simp)
      omega

instance : Std.Total spanLe := ⟨fun a b => by unfold spanLe; omega⟩

instance : IsTrans (Nat × Nat) spanLe := ⟨fun a b c => by unfold spanLe; omega⟩

theorem disjoint_of_not_overlaps {tensors : List TensorRecord}
    (h : overlaps ((tensors.map fun tensor =>
      (tensor.storage.span.offset, tensor.storage.span.finish)).insertionSort spanLe) = false) :
    tensors.Pairwise Disjoint := by
  generalize hl : tensors.map (fun tensor =>
    (tensor.storage.span.offset, tensor.storage.span.finish)) = spans at h
  have hperm := List.perm_insertionSort spanLe spans
  have hle : ∀ a ∈ spans.insertionSort spanLe, a.1 ≤ a.2 := by
    intro a ha
    have ha := hperm.mem_iff.mp ha
    rw [← hl] at ha
    obtain ⟨tensor, _, rfl⟩ := List.mem_map.mp ha
    exact Nat.le_add_right _ _
  have hsorted := pairwise_of_not_overlaps hle (List.pairwise_insertionSort spanLe spans) h
  -- being apart is symmetric, so the order does not matter
  have hapart : (spans.insertionSort spanLe).Pairwise fun a b => a.2 ≤ b.1 ∨ b.2 ≤ a.1 :=
    hsorted.imp Or.inl
  rw [hperm.pairwise_iff fun hab => hab.symm, ← hl, List.pairwise_map] at hapart
  exact hapart

end Records

/-! ## Containers -/

/-- The alignment of a header comes from its metadata, and the header ends where
its reader stands. -/
theorem parseHeader_ok {src : HeaderSource} {limits : ResourceLimits} {s t : Reader}
    {header : Header} (h : parseHeader src limits s = .ok (header, t)) :
    metadataAlignment header.entries = .ok header.alignment ∧ header.finish = t.offset := by
  obtain ⟨_, s, _, h⟩ := bind_eq_ok h
  obtain ⟨_, s, _, h⟩ := bind_eq_ok h
  obtain ⟨_, s, _, h⟩ := bind_eq_ok h
  obtain ⟨_, s, _, h⟩ := bind_eq_ok h
  obtain ⟨_, s, _, h⟩ := bind_eq_ok h
  obtain ⟨_, s, _, h⟩ := bind_eq_ok h
  obtain ⟨entries, s, _, h⟩ := bind_eq_ok h
  obtain ⟨alignment, s, ha, h⟩ := bind_eq_ok h
  obtain ⟨_, s, _, h⟩ := bind_eq_ok h
  obtain ⟨finish, s', hf, h⟩ := bind_eq_ok h
  cases h
  cases hf
  exact ⟨(lift_eq_ok ha).1, rfl⟩

/-- What `parse` does with an accepted container: its header, its data base and the
tensors behind it. -/
theorem parse_ok {bytes : List UInt8} {fits : bytes.length < u64Size} {file : FileId}
    {limits : ResourceLimits} {token : CancellationToken} {parsed : ParsedGguf}
    (h : parse bytes fits file limits token = .ok parsed) :
    ∃ header r dataBase,
      parseHeader ⟨bytes, limits.maxHeaderBytes, token, fits⟩ limits .new = .ok (header, r) ∧
      parsed.metadata = ⟨header.version, header.alignment, header.entries⟩ ∧
      IsLeast {m | header.alignment ∣ m ∧ header.finish ≤ m} dataBase ∧
      dataBase ≤ bytes.length ∧
      List.Forall₂ (Accepted file bytes.length dataBase header.alignment) header.rawTensors
        parsed.tensors ∧
      parsed.tensors.Pairwise Disjoint := by
  obtain ⟨⟨header, r⟩, hheader, h⟩ := bind_ok h
  obtain ⟨dataBase, hbase, h⟩ := bind_ok h
  obtain ⟨hfile, h⟩ := unless_error_ok h
  obtain ⟨_, h⟩ := unless_error_ok h
  obtain ⟨tensors, htensors, h⟩ := bind_ok h
  obtain rfl := Except.ok.inj h
  obtain ⟨tensors', hmap, htensors⟩ := bind_ok htensors
  obtain ⟨hover, htensors⟩ := unless_error_ok htensors
  obtain rfl := Except.ok.inj htensors
  obtain ⟨k, hk, hpow⟩ := metadataAlignment_ok (parseHeader_ok hheader).1
  refine ⟨header, r, dataBase, hheader, rfl, ?_, Nat.not_lt.mp hfile,
    (mapM_ok_forall₂ hmap).imp (fun _ _ => buildTensorRecord_ok),
    disjoint_of_not_overlaps (by simpa using hover)⟩
  rw [hpow] at hbase ⊢
  exact alignUp_ok hk hbase

/-- The names of the tensors are those of the header, and all tensors lie in the
file that is parsed. -/
theorem parse_names {bytes : List UInt8} {fits : bytes.length < u64Size} {file : FileId}
    {limits : ResourceLimits} {token : CancellationToken} {parsed : ParsedGguf}
    (h : parse bytes fits file limits token = .ok parsed) :
    ∃ header r,
      parseHeader ⟨bytes, limits.maxHeaderBytes, token, fits⟩ limits .new = .ok (header, r) ∧
      parsed.tensors.map TensorRecord.name = header.rawTensors.map RawTensor.name ∧
      ∀ tensor ∈ parsed.tensors, tensor.storage.span.file = file := by
  obtain ⟨⟨header, r⟩, hheader, h⟩ := bind_ok h
  obtain ⟨_, _, h⟩ := bind_ok h
  obtain ⟨_, h⟩ := unless_error_ok h
  obtain ⟨_, h⟩ := unless_error_ok h
  obtain ⟨tensors, htensors, h⟩ := bind_ok h
  obtain rfl := Except.ok.inj h
  obtain ⟨tensors', hmap, htensors⟩ := bind_ok htensors
  obtain ⟨_, htensors⟩ := unless_error_ok htensors
  obtain rfl := Except.ok.inj htensors
  have hbuilt := mapM_ok_forall₂ hmap
  refine ⟨header, r, hheader, ?_, ?_⟩
  · exact forall₂_map_eq (hbuilt.imp fun _ _ hrecord => (buildTensorRecord_ok hrecord).name)
  · intro tensor htensor
    obtain ⟨raw, _, hrecord⟩ := forall₂_mem_right hbuilt htensor
    exact buildTensorRecord_file hrecord

/-- **Accepted containers are safe.** The header ends where its reader stands behind the
tensor infos, the data base is the least aligned offset from there on, and every tensor
lies behind it and inside the file, at an aligned relative offset, with the length its
block geometry gives, apart from all other tensors. -/
theorem parse_spans {bytes : List UInt8} {fits : bytes.length < u64Size} {file : FileId}
    {limits : ResourceLimits} {token : CancellationToken} {parsed : ParsedGguf}
    (h : parse bytes fits file limits token = .ok parsed) :
    ∃ header r dataBase,
      parseHeader ⟨bytes, limits.maxHeaderBytes, token, fits⟩ limits .new = .ok (header, r) ∧
      header.finish = r.offset ∧ parsed.metadata.alignment = header.alignment ∧
      IsLeast {m | header.alignment ∣ m ∧ header.finish ≤ m} dataBase ∧
      dataBase ≤ bytes.length ∧
      List.Forall₂ (Accepted file bytes.length dataBase header.alignment) header.rawTensors
        parsed.tensors ∧
      parsed.tensors.Pairwise Disjoint := by
  obtain ⟨header, r, dataBase, hheader, hmetadata, hrest⟩ := parse_ok h
  exact ⟨header, r, dataBase, hheader, (parseHeader_ok hheader).2, by rw [hmetadata], hrest⟩

/-- Two scalar tensors and no metadata. -/
def pairContainer : List UInt8 :=
  magic ++ leBytes 4 3 ++ leBytes 8 2 ++ leBytes 8 0 ++
    (leBytes 8 1 ++ [0x74] ++ leBytes 4 1 ++ leBytes 8 1 ++ leBytes 4 0 ++ leBytes 8 0) ++
    (leBytes 8 1 ++ [0x75] ++ leBytes 4 1 ++ leBytes 8 1 ++ leBytes 4 0 ++ leBytes 8 32) ++
    List.replicate 42 0

theorem pairContainer_fits : pairContainer.length < u64Size := by decide +kernel

theorem parse_spans_pair : ∃ parsed,
    parse pairContainer pairContainer_fits 0 ⟨96, 2, 1, 1⟩ ⟨false⟩ = .ok parsed ∧
      IsLeast {m | 32 ∣ m ∧ 90 ≤ m} 96 ∧
      List.Forall₂ (Accepted 0 132 96 32) [⟨"t", [1], 0, 0⟩, ⟨"u", [1], 0, 32⟩] parsed.tensors ∧
      parsed.tensors.Pairwise Disjoint := by
  have hok : (parse pairContainer pairContainer_fits 0 ⟨96, 2, 1, 1⟩ ⟨false⟩).isOk = true := by
    decide +kernel
  have hread : (parseHeader ⟨pairContainer, 96, ⟨false⟩, pairContainer_fits⟩ ⟨96, 2, 1, 1⟩
      .new).toOption.map (fun x => (x.1.alignment, x.1.rawTensors, x.2.offset)) =
      some (32, [⟨"t", [1], 0, 0⟩, ⟨"u", [1], 0, 32⟩], 90) := by
    decide +kernel
  have hleast : IsLeast {m | 32 ∣ m ∧ 90 ≤ m} 96 := by
    refine ⟨⟨by decide, by decide⟩, fun m hm => ?_⟩
    obtain ⟨⟨k, rfl⟩, hle⟩ := hm
    omega
  cases h : parse pairContainer pairContainer_fits 0 ⟨96, 2, 1, 1⟩ ⟨false⟩ with
  | error e => rw [h] at hok; cases hok
  | ok parsed =>
    obtain ⟨header, r, dataBase, hheader, hfinish, _, hbase, _, haccepted, hdisjoint⟩ :=
      parse_spans h
    rw [hheader] at hread
    obtain ⟨halignment, htail⟩ := Prod.mk.inj (Option.some.inj hread)
    obtain ⟨hraw, hoffset⟩ := Prod.mk.inj htail
    dsimp only at halignment hraw hoffset
    rw [hfinish, hoffset, halignment] at hbase
    rw [hbase.unique hleast, hraw, halignment] at haccepted
    exact ⟨parsed, rfl, hleast, haccepted, hdisjoint⟩

end ModelWeights.Gguf
