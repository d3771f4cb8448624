import ModelWeights.Blocks
import ModelWeights.Gguf.Encode
import ModelWeights.Gguf.Spans

/-! # Round trip of containers

A model as its writer has it, the reference encoding of it, and what the parser
makes of that encoding. -/
namespace ModelWeights.Gguf
open Parsing

/-! ## Models -/

structure ModelTensor where
  name : String
  /-- Fastest-varying dimension first, as the container stores them. -/
  dimensions : List Nat
  type : GgmlType
  relativeOffset : Nat
  deriving DecidableEq, Repr

structure Model where
  version : Nat
  entries : List (String × GgufValue)
  tensors : List ModelTensor
  data : List UInt8

def encodeEntry (entry : String × GgufValue) : List UInt8 :=
  encodeString entry.1 ++ (leBytes 4 entry.2.type.raw ++ encodeValue entry.2)

def encodeTensor (tensor : ModelTensor) : List UInt8 :=
  encodeString tensor.name ++ (leBytes 4 tensor.dimensions.length ++
    (tensor.dimensions.flatMap (leBytes 8) ++
      (leBytes 4 tensor.type.code ++ leBytes 8 tensor.relativeOffset)))

namespace ModelTensor

def raw (tensor : ModelTensor) : RawTensor :=
  ⟨tensor.name, tensor.dimensions, tensor.type.code, tensor.relativeOffset⟩

def shape (tensor : ModelTensor) : List Nat := tensor.dimensions.reverse

def payloadBytes (tensor : ModelTensor) : Nat := tensor.type.payloadBytes tensor.shape

def span (tensor : ModelTensor) (file : FileId) (dataBase : Nat) : SourceSpan :=
  ⟨file, dataBase + tensor.relativeOffset, tensor.payloadBytes⟩

/-- A scalar payload, or blocks along the rows. -/
def storage (tensor : ModelTensor) (file : FileId) (dataBase : Nat) : Storage :=
  match tensor.type.dtype with
  | some dtype => .plain dtype (tensor.span file dataBase)
  | none => .quantized {
      schemaVersion := quantizedStorageSchemaVersion
      encoding := ⟨⟨"gguf"⟩, ⟨tensor.type.name⟩, GgmlType.encodingVersion⟩
      logicalShape := tensor.shape
      payload := tensor.span file dataBase
      packing := .blocks ⟨tensor.type.valuesPerBlock, tensor.type.bytesPerBlock,
        .axis (tensor.dimensions.length - 1)⟩
      grouping := none
      requiredCompanions := []
      companions := .empty
      metadata := .empty }

def record (tensor : ModelTensor) (file : FileId) (dataBase : Nat) : TensorRecord :=
  ⟨tensor.name, tensor.shape, tensor.storage file dataBase⟩

end ModelTensor

namespace Model

/-- The container up to the end of the tensor infos. -/
def header (model : Model) : List UInt8 :=
  magic ++ (leBytes 4 model.version ++ (leBytes 8 model.tensors.length ++
    ((leBytes 8 model.entries.length ++ model.entries.flatMap encodeEntry) ++
      model.tensors.flatMap encodeTensor)))

def alignment (model : Model) : Nat :=
  ((OrderedMap.find "general.alignment" model.entries).bind GgufValue.asU64).getD defaultAlignment

/-- The end of the header, rounded up to the alignment. -/
def dataBase (model : Model) : Nat :=
  (model.header.length + (model.alignment - 1)) / model.alignment * model.alignment

def encode (model : Model) : List UInt8 :=
  model.header ++ (List.replicate (model.dataBase - model.header.length) 0 ++ model.data)

end Model

/-- What makes a tensor of a model well formed: the numbers fit their fields, a
row is a whole number of blocks, and the payload is aligned and inside the file. -/
structure ModelTensor.WellFormed (limits : ResourceLimits) (alignment dataBase fileSize : Nat)
    (tensor : ModelTensor) : Prop where
  name : (utf8 tensor.name).length ≤ limits.maxNameBytes
  rank : 0 < tensor.dimensions.length
  rankLimit : tensor.dimensions.length ≤ limits.maxRank
  rankFits : tensor.dimensions.length < 2 ^ 32
  dimensionsFit : ∀ d ∈ tensor.dimensions, d < 2 ^ 64
  blocks : tensor.type.valuesPerBlock ∣ tensor.dimensions.headD 0
  offsetFits : tensor.relativeOffset < 2 ^ 64
  aligned : alignment ∣ tensor.relativeOffset
  inside : dataBase + tensor.relativeOffset + tensor.payloadBytes ≤ fileSize

/-- Of two payloads, one ends before the other one begins. -/
def ModelTensor.Apart (a b : ModelTensor) : Prop :=
  a.relativeOffset + a.payloadBytes ≤ b.relativeOffset ∨
    b.relativeOffset + b.payloadBytes ≤ a.relativeOffset

/-- A well-formed model within the limits of a caller. -/
structure Model.WellFormed (limits : ResourceLimits) (model : Model) : Prop where
  version : model.version = 2 ∨ model.version = 3
  keys : (model.entries.map Prod.fst).Nodup
  keyBytes : ∀ entry ∈ model.entries, (utf8 entry.1).length ≤ limits.maxNameBytes
  nesting : ∀ entry ∈ model.entries, entry.2.depth ≤ maxMetadataNestingDepth
  alignment : ∀ value, OrderedMap.find "general.alignment" model.entries = some value →
    ∃ k, value.asU64 = some (2 ^ k)
  tensorCount : model.tensors.length ≤ limits.maxTensors
  headerBytes : model.dataBase ≤ limits.maxHeaderBytes
  tensors : ∀ tensor ∈ model.tensors,
    tensor.WellFormed limits model.alignment model.dataBase model.encode.length
  apart : model.tensors.Pairwise ModelTensor.Apart
  fileSize : model.encode.length < u64Size

/-- What the parser computes in `u64` on the way to the length of a payload: the
products of the leading dimensions, and the bytes of one row of blocks. -/
structure ModelTensor.Computable (tensor : ModelTensor) : Prop where
  products : ∀ n, (tensor.shape.take n).prod < u64Size
  row : tensor.type.dtype = none →
    tensor.dimensions.headD 0 / tensor.type.valuesPerBlock * tensor.type.bytesPerBlock < u64Size

/-! ## The header -/

section Header
variable {src : HeaderSource} {finish : Nat} {limits : ResourceLimits}
  (hc : src.cancellation.cancelled = false)
include hc

omit hc in
/-- Within the header the metadata never exceeds the header limit. -/
theorem parses_checkMetadataBytes (hlimit : src.limit = limits.maxHeaderBytes) (start : Nat) :
    Parses (At src finish) (checkMetadataBytes limits start) () [] := by
  intro r rest h
  refine ⟨r, ?_, h⟩
  have hends := h.ends
  have hwithin := h.within
  show (if r.offset - start > limits.maxHeaderBytes then
    (throw (.limit "GGUF metadata exceeds the configured byte limit") : ReadM Unit)
    else pure ()) r = _
  rw [if_neg (by omega)]
  rfl

omit hc in
/-- The offset of the reader only matters to what follows. -/
theorem parses_readerOffset {α : Type} {k : Nat → ReadM α} {a : α} {bytes : List UInt8}
    (h : ∀ n, Parses (At src finish) (k n) a bytes) :
    Parses (At src finish) (readerOffset >>= k) a bytes :=
  fun r rest hat => h r.offset r rest hat

theorem parses_readEntries (hlimit : src.limit = limits.maxHeaderBytes) (start : Nat) :
    ∀ {entries : List (String × GgufValue)} {acc : OrderedMap String GgufValue},
      (entries.map Prod.fst).Nodup → (∀ e ∈ entries, acc.get? e.1 = none) →
      (∀ e ∈ entries, (utf8 e.1).length ≤ limits.maxNameBytes) →
      (∀ e ∈ entries, e.2.depth ≤ maxMetadataNestingDepth) →
      (entries.flatMap encodeEntry).length ≤ limits.maxHeaderBytes →
      (entries.flatMap encodeEntry).length < u64Size →
      Parses (At src finish) (readEntries src limits start entries.length acc)
        (entries.foldl (fun m e => m.insert e.1 e.2) acc) (entries.flatMap encodeEntry) := by
  intro entries
  induction entries with
  | nil => intro acc _ _ _ _ _ _; exact Parses.pure acc
  | cons entry entries ih =>
    obtain ⟨key, value⟩ := entry
    intro acc hn hnew hk hd hl hu
    rw [List.flatMap_cons, List.length_append, encodeEntry, List.length_append,
      List.length_append, length_leBytes, encodeString, List.length_append] at hl hu
    rw [List.map_cons, List.nodup_cons] at hn
    rw [List.flatMap_cons, encodeEntry, List.append_assoc, List.append_assoc]
    refine Parses.then (Parses.lift (CancellationToken.check_eq_ok hc)) ?_
    refine (parses_readString hc (hk _ (List.mem_cons_self ..)) (by omega)).bind ?_
    refine (parses_readWord hc 4 value.type.raw_lt).bind ?_
    refine Parses.then (Parses.lift value.type.fromRaw_raw) ?_
    refine (parses_readValue hc (hd _ (List.mem_cons_self ..)) (by omega) (by omega)).bind ?_
    refine Parses.then (parses_checkMetadataBytes hlimit start) ?_
    have hinsert : insertEntry acc key value = .ok (acc.insert key value) := by
      unfold insertEntry OrderedMap.contains
      rw [hnew (key, value) (List.mem_cons_self ..)]
      rfl
    refine Parses.then (Parses.lift hinsert) ?_
    refine ih hn.2 (fun e he => ?_) (fun e he => hk e (List.mem_cons_of_mem _ he))
      (fun e he => hd e (List.mem_cons_of_mem _ he)) (by omega) (by omega)
    rw [OrderedMap.get?_insert, if_neg, hnew e (List.mem_cons_of_mem _ he)]
    intro hkey
    exact hn.1 (hkey ▸ List.mem_map.mpr ⟨e, he, rfl⟩)

/-- An entry takes at least twelve bytes. -/
theorem parses_readMetadata (hlimit : src.limit = limits.maxHeaderBytes)
    {entries : List (String × GgufValue)} (hn : (entries.map Prod.fst).Nodup)
    (hk : ∀ e ∈ entries, (utf8 e.1).length ≤ limits.maxNameBytes)
    (hd : ∀ e ∈ entries, e.2.depth ≤ maxMetadataNestingDepth)
    (hl : (entries.flatMap encodeEntry).length ≤ limits.maxHeaderBytes)
    (hu : (entries.flatMap encodeEntry).length < u64Size) :
    Parses (At src finish) (readMetadata src limits) (OrderedMap.ofList entries)
      (leBytes 8 entries.length ++ entries.flatMap encodeEntry) := by
  have hmin : entries.length * 12 ≤ (entries.flatMap encodeEntry).length := by
    refine length_mul_le_flatMap fun e _ => ?_
    simp only [encodeEntry, encodeString, List.length_append, length_leBytes]
    omega
  have hcount : entries.length ≤ limits.maxHeaderBytes / 12 :=
    (Nat.le_div_iff_mul_le (by decide)).mpr (Nat.le_trans hmin hl)
  have hlt : entries.length < u64Size := by omega
  refine (parses_readWord hc 8 hlt).bind ?_
  refine Parses.then (Parses.lift (boundedCount_ok hlt hcount)) ?_
  exact parses_readerOffset fun start =>
    parses_readEntries hc hlimit start hn (fun _ _ => rfl) hk hd hl hu

theorem parses_readTensorInfo {tensor : ModelTensor} {alignment dataBase fileSize : Nat}
    (hw : tensor.WellFormed limits alignment dataBase fileSize)
    (hname : (utf8 tensor.name).length < u64Size) :
    Parses (At src finish) (readTensorInfo src limits) tensor.raw (encodeTensor tensor) := by
  refine Parses.then (Parses.lift (CancellationToken.check_eq_ok hc)) ?_
  refine (parses_readString hc hw.name hname).bind ?_
  have hfits := hw.rankFits
  refine (parses_readWord hc 4 hw.rankFits).bind ?_
  refine Parses.then (Parses.lift (boundedCount_ok (by unfold u64Size; omega) hw.rankLimit)) ?_
  have hrank : checkRank tensor.dimensions.length = .ok () := by
    unfold checkRank
    rw [if_neg (Nat.ne_of_gt hw.rank)]
  refine Parses.then (Parses.lift hrank) ?_
  refine (Parses.elements fun d hd => parses_readWord hc 8 (hw.dimensionsFit d hd)).bind ?_
  refine (parses_readWord hc 4 tensor.type.code_lt).bind ?_
  exact (parses_readWord hc 8 hw.offsetFits).map

end Header

section Header
variable {limits : ResourceLimits} {model : Model}

theorem Model.alignment_eq (hn : (model.entries.map Prod.fst).Nodup) :
    model.alignment = (((OrderedMap.ofList model.entries).get? "general.alignment").bind
      GgufValue.asU64).getD defaultAlignment := by
  rw [OrderedMap.get?_ofList hn, Model.alignment]

theorem Model.WellFormed.alignment_pow (hw : model.WellFormed limits) :
    ∃ k < 64, model.alignment = 2 ^ k := by
  rw [Model.alignment]
  cases h : OrderedMap.find "general.alignment" model.entries with
  | none => exact ⟨5, by decide, rfl⟩
  | some value =>
    obtain ⟨k, hk⟩ := hw.alignment value h
    refine ⟨k, (Nat.pow_lt_pow_iff_right (by decide)).mp (asU64_lt hk), ?_⟩
    rw [Option.bind_some, hk, Option.getD_some]

theorem metadataAlignment_ofList (hw : model.WellFormed limits) :
    metadataAlignment (OrderedMap.ofList model.entries) = .ok model.alignment := by
  obtain ⟨k, _, hk⟩ := hw.alignment_pow
  unfold metadataAlignment
  rw [← model.alignment_eq hw.keys, if_neg]
  rw [hk, not_or, not_not]
  exact ⟨Nat.ne_of_gt (Nat.two_pow_pos k), ⟨k, rfl⟩⟩

theorem Model.header_le_dataBase (hw : model.WellFormed limits) :
    model.header.length ≤ model.dataBase := by
  obtain ⟨k, _, hk⟩ := hw.alignment_pow
  have hpos : 0 < 2 ^ k := Nat.two_pow_pos k
  have hdiv := Nat.div_add_mod (model.header.length + (2 ^ k - 1)) (2 ^ k)
  have hmod := Nat.mod_lt (model.header.length + (2 ^ k - 1)) hpos
  rw [Model.dataBase, hk, Nat.mul_comm]
  omega

theorem Model.length_encode (hw : model.WellFormed limits) :
    model.encode.length = model.dataBase + model.data.length := by
  have := Model.header_le_dataBase hw
  rw [Model.encode, List.length_append, List.length_append, List.length_replicate]
  omega

/-- **The header of an encoded model is read back.** -/
theorem parseHeader_encode (hw : model.WellFormed limits) {token : CancellationToken}
    (hc : token.cancelled = false) :
    ∃ r, parseHeader ⟨model.encode, limits.maxHeaderBytes, token, hw.fileSize⟩ limits .new =
      .ok (⟨model.version, model.alignment, OrderedMap.ofList model.entries,
        model.tensors.map ModelTensor.raw, model.header.length⟩, r) := by
  generalize hsrc : (⟨model.encode, limits.maxHeaderBytes, token, hw.fileSize⟩ : HeaderSource) =
    src
  have hc : src.cancellation.cancelled = false := by rw [← hsrc]; exact hc
  have hlimit : src.limit = limits.maxHeaderBytes := by rw [← hsrc]
  have hbytes : src.bytes = model.encode := by rw [← hsrc]
  have hbase := Model.header_le_dataBase hw
  have hheader := hw.headerBytes
  have hsize := hw.fileSize
  rw [Model.length_encode hw] at hsize
  have hstart : At src model.header.length .new model.header := by
    refine ⟨⟨Nat.zero_le _, List.nil_prefix⟩, ?_, Nat.zero_le _, Nat.zero_add _, by omega⟩
    rw [hbytes, Model.encode]
    exact List.prefix_append _ _
  -- every part is shorter than the header
  have hlen : model.header.length = 4 + (4 + (8 + ((8 + (model.entries.flatMap
      encodeEntry).length) + (model.tensors.flatMap encodeTensor).length))) := by
    simp only [Model.header, List.length_append, length_leBytes]
    rfl
  refine (parses_read hc magic).run hstart fun r h => ?_
  refine Parses.runLift (rfl : checkMagic magic = .ok ()) h fun r h => ?_
  have hversion : model.version < 256 ^ 4 := by
    rcases hw.version with hv | hv <;> rw [hv] <;> decide
  refine (parses_readWord hc 4 hversion).run h fun r h => ?_
  have hcheck : checkVersion model.version = .ok () := by
    rcases hw.version with hv | hv <;> rw [hv] <;> rfl
  refine Parses.runLift hcheck h fun r h => ?_
  have hcount : model.tensors.length < u64Size := by
    have hmin : model.tensors.length * 1 ≤ (model.tensors.flatMap encodeTensor).length := by
      refine length_mul_le_flatMap fun t _ => ?_
      simp only [encodeTensor, encodeString, List.length_append, length_leBytes]
      omega
    omega
  refine (parses_readWord hc 8 hcount).run h fun r h => ?_
  refine Parses.runLift (boundedCount_ok hcount hw.tensorCount) h fun r h => ?_
  refine (parses_readMetadata hc hlimit hw.keys hw.keyBytes hw.nesting (by omega)
    (by omega)).run h fun r h => ?_
  refine Parses.runLift (metadataAlignment_ofList hw) h fun r h => ?_
  have hinfos : Parses (At src model.header.length)
      (readElements (readTensorInfo src limits) model.tensors.length)
      (model.tensors.map ModelTensor.raw) (model.tensors.flatMap encodeTensor) := by
    refine Parses.elements_map fun t ht => parses_readTensorInfo hc (hw.tensors t ht) ?_
    have := length_le_flatMap (f := encodeTensor) ht
    rw [encodeTensor, encodeString, List.length_append, List.length_append] at this
    omega
  rw [← List.append_nil (model.tensors.flatMap encodeTensor)] at h
  refine hinfos.run h fun r h => ⟨r, ?_⟩
  have hoffset : r.offset = model.header.length := h.ends
  show Except.ok (_, r) = _
  rw [hoffset]

end Header

/-! ## The tensors -/

theorem getD_reverse_last (l : List Nat) : l.reverse.getD (l.length - 1) 0 = l.headD 0 := by
  cases l with
  | nil => rfl
  | cons d ds => simp

section Tensors
variable {limits : ResourceLimits} {alignment dataBase fileSize : Nat} {tensor : ModelTensor}

/-- Blocks along the rows take the bytes that the whole shape gives. -/
theorem expectedPayload_rows (hw : tensor.WellFormed limits alignment dataBase fileSize)
    (hcomp : tensor.Computable) (hpacked : tensor.type.dtype = none)
    (hpayload : tensor.payloadBytes < u64Size) :
    expectedPayload tensor.shape tensor.shape.prod ⟨tensor.type.valuesPerBlock,
      tensor.type.bytesPerBlock, .axis (tensor.dimensions.length - 1)⟩ =
      .ok tensor.payloadBytes := by
  have hrank := hw.rank
  have hrow := hcomp.row hpacked
  have hpos := tensor.type.valuesPerBlock_pos
  obtain ⟨hfirst, hdim⟩ : tensor.dimensions.headD 0 < u64Size ∧
      tensor.dimensions.headD 0 ∣ tensor.shape.prod := by
    rw [ModelTensor.shape, List.prod_reverse]
    cases hd : tensor.dimensions with
    | nil => rw [hd] at hrank; cases hrank
    | cons d ds =>
      refine ⟨hw.dimensionsFit d (hd ▸ List.mem_cons_self ..), ?_⟩
      rw [List.prod_cons]
      exact Nat.dvd_mul_right d _
  obtain ⟨rows, hrows⟩ := hdim
  obtain ⟨blocks, hblocks⟩ := hw.blocks
  rw [hblocks, Nat.mul_div_cancel_left _ hpos] at hrow
  rw [hblocks] at hfirst
  have hbytes : tensor.payloadBytes = rows * (blocks * tensor.type.bytesPerBlock) := by
    rw [ModelTensor.payloadBytes, GgmlType.payloadBytes, hrows, hblocks, Nat.mul_assoc,
      Nat.mul_div_cancel_left _ hpos, Nat.mul_comm blocks rows, Nat.mul_assoc]
  have haxis : validateAxis (tensor.dimensions.length - 1) tensor.shape.length
      "quantized block" = .ok () := by
    unfold validateAxis
    rw [ModelTensor.shape, List.length_reverse, if_neg (by omega)]
  have hlast : tensor.shape.getD (tensor.dimensions.length - 1) 0 =
      tensor.type.valuesPerBlock * blocks := by
    rw [ModelTensor.shape, getD_reverse_last, hblocks]
  unfold expectedPayload
  simp only [haxis, hlast]
  show (if _ = 0 then _ else _) = _
  rw [hbytes] at hpayload ⊢
  split
  · next hzero =>
    rcases Nat.mul_eq_zero.mp hzero with h | h
    · omega
    · rw [h, Nat.zero_mul, Nat.mul_zero]
  · next hne =>
    have hwhole := blockBytes_whole (b := tensor.type.bytesPerBlock) hpos (Nat.dvd_mul_right _ blocks)
      tensor.type.valuesPerBlock_dvd hfirst (by rwa [Nat.mul_div_cancel_left _ hpos])
    rw [Nat.mul_div_cancel_left _ hpos] at hwhole
    rw [hwhole, hrows, hblocks, Nat.mul_div_cancel_left _ (Nat.pos_of_ne_zero hne)]
    show okOr (checkedMul _ _) _ = _
    rw [checkedMul_eq_some.mpr ⟨hpayload, rfl⟩]
    rfl

theorem packedStorage_encode (hw : tensor.WellFormed limits alignment dataBase fileSize)
    (hcomp : tensor.Computable) (hpacked : tensor.type.dtype = none) (hsize : fileSize < u64Size)
    (file : FileId) :
    packedStorage file (dataBase + tensor.relativeOffset) tensor.shape tensor.type =
      .ok (tensor.storage file dataBase) := by
  have hrank := hw.rank
  have hfits := hw.rankFits
  have hinside := hw.inside
  have hlen : tensor.shape.length = tensor.dimensions.length := List.length_reverse
  have hpayload : tensor.payloadBytes < u64Size := by omega
  have hprod := foldlM_checkedMul_one (.limit "GGUF tensor element count overflows u64")
    hcomp.products
  have hprod' := foldlM_checkedMul_one (.limit "quantized tensor element count overflows u64")
    hcomp.products
  have hrow : tensor.shape.getD (tensor.dimensions.length - 1) 0 % tensor.type.valuesPerBlock =
      0 := by
    rw [ModelTensor.shape, getD_reverse_last]
    exact Nat.mod_eq_zero_of_dvd hw.blocks
  have hspan : SourceSpan.new file (dataBase + tensor.relativeOffset) tensor.payloadBytes =
      .ok (tensor.span file dataBase) := SourceSpan.new_eq (by omega)
  have hpacking : BlockPacking.new tensor.type.valuesPerBlock tensor.type.bytesPerBlock
      (.axis (tensor.dimensions.length - 1)) = .ok ⟨tensor.type.valuesPerBlock,
        tensor.type.bytesPerBlock, .axis (tensor.dimensions.length - 1)⟩ := by
    have := tensor.type.valuesPerBlock_pos
    have := tensor.type.bytesPerBlock_pos
    unfold BlockPacking.new
    rw [if_neg (by omega)]
  have hencoding : tensor.type.encoding =
      some ⟨⟨"gguf"⟩, ⟨tensor.type.name⟩, GgmlType.encodingVersion⟩ := by
    rw [GgmlType.encoding, hpacked]
    rfl
  have hshape : validateShapeAndPacking tensor.shape (tensor.span file dataBase)
      (.blocks ⟨tensor.type.valuesPerBlock, tensor.type.bytesPerBlock,
        .axis (tensor.dimensions.length - 1)⟩) = .ok () := by
    unfold validateShapeAndPacking
    rw [hprod']
    show (expectedPayload _ _ _ >>= _) = _
    rw [expectedPayload_rows hw hcomp hpacked hpayload]
    exact if_neg (not_not.mpr rfl)
  unfold packedStorage
  rw [hlen, checkedSub_eq_some.mpr ⟨hrank, rfl⟩]
  show (if _ ≠ 0 then _ else _) = _
  rw [if_neg (not_not.mpr hrow), hprod]
  show (okOr (checkedMul (tensor.shape.prod / tensor.type.valuesPerBlock) _) _ >>= _) = _
  rw [checkedMul_eq_some.mpr ⟨hpayload, rfl⟩]
  show (SourceSpan.new file _ tensor.payloadBytes >>= _) = _
  rw [hspan]
  show (if _ ≥ _ then _ else _) = _
  rw [if_neg (by omega), hpacking, hencoding]
  show (QuantizedStorage.build _ _ _ _ _ _ _ _ >>= _) = _
  unfold QuantizedStorage.build
  rw [hshape, ModelTensor.storage, hpacked]
  rfl

theorem storage_encode (hw : tensor.WellFormed limits alignment dataBase fileSize)
    (hcomp : tensor.Computable) (hsize : fileSize < u64Size) (file : FileId) :
    storage file (dataBase + tensor.relativeOffset) tensor.shape tensor.type.code =
      .ok (tensor.storage file dataBase) := by
  have hinside := hw.inside
  unfold storage
  rw [GgmlType.fromCode_code]
  cases hd : tensor.type.dtype with
  | some dtype =>
    obtain ⟨hv, hb⟩ := GgmlType.plain_geometry hd
    have hbytes : tensor.payloadBytes = tensor.shape.prod * (dtype.bits / 8) := by
      rw [ModelTensor.payloadBytes, GgmlType.payloadBytes, hv, hb, Nat.div_one]
    have hlength : dtype.byteLen tensor.shape = .ok tensor.payloadBytes := by
      unfold DType.byteLen elementProduct
      rw [foldlM_checkedMul_one _ hcomp.products]
      exact okOr_eq_ok.mpr (checkedMul_eq_some.mpr ⟨by omega, hbytes⟩)
    have hspan : SourceSpan.new file (dataBase + tensor.relativeOffset) tensor.payloadBytes =
        .ok (tensor.span file dataBase) := SourceSpan.new_eq (by omega)
    show (match tensor.type.dtype with | some _ => _ | none => _) = _
    rw [hd]
    show (dtype.byteLen _ >>= _) = _
    rw [hlength]
    show (SourceSpan.new _ _ _ >>= _) = _
    rw [hspan, ModelTensor.storage, hd]
    rfl
  | none =>
    show (match tensor.type.dtype with | some _ => _ | none => _) = _
    rw [hd]
    exact packedStorage_encode hw hcomp hd hsize file

theorem buildTensorRecord_encode (hw : tensor.WellFormed limits alignment dataBase fileSize)
    (hcomp : tensor.Computable) (hsize : fileSize < u64Size) (file : FileId)
    {token : CancellationToken} (hc : token.cancelled = false) :
    buildTensorRecord file fileSize dataBase alignment token tensor.raw =
      .ok (tensor.record file dataBase) := by
  have hinside := hw.inside
  have hcheck : token.check = .ok () := by
    simp [CancellationToken.check, hc]
  have hspan : (tensor.storage file dataBase).span = tensor.span file dataBase := by
    unfold ModelTensor.storage
    cases tensor.type.dtype <;> rfl
  unfold buildTensorRecord
  rw [hcheck]
  show (if tensor.relativeOffset % alignment ≠ 0 then _ else _) = _
  rw [if_neg (not_not.mpr (Nat.mod_eq_zero_of_dvd hw.aligned))]
  show (okOr (checkedAdd dataBase tensor.relativeOffset) _ >>= _) = _
  rw [checkedAdd_eq_some.mpr ⟨by omega, rfl⟩]
  show (storage file (dataBase + tensor.relativeOffset) tensor.shape tensor.type.code >>= _) = _
  rw [storage_encode hw hcomp hsize]
  show (if (tensor.storage file dataBase).span.finish > fileSize then _ else _) = _
  rw [hspan, SourceSpan.finish, if_neg]
  · rfl
  · exact Nat.not_lt.mpr hinside

/-- Sorted spans that are apart do not run into the next one. -/
theorem not_overlaps_of_apart : ∀ {l : List (Nat × Nat)}, (∀ a ∈ l, a.1 ≤ a.2) →
    l.Pairwise spanLe → l.Pairwise (fun a b => a.2 ≤ b.1 ∨ b.2 ≤ a.1) → overlaps l = false
  | [], _, _, _ => rfl
  | [_], _, _, _ => rfl
  | a :: b :: rest, hle, hs, hd => by
    rw [List.pairwise_cons] at hs hd
    have ih := not_overlaps_of_apart (fun x hx => hle x (List.mem_cons_of_mem _ hx)) hs.2 hd.2
    rw [overlaps, ih, Bool.or_false, decide_eq_false_iff_not]
    have hab := hs.1 b (List.mem_cons_self ..)
    have hapart := hd.1 b (List.mem_cons_self ..)
    have ha := hle a (by simp)
    have hb := hle b (by simp)
    unfold spanLe at hab
    -- an empty payload may lie at the start of another one
    omega

theorem buildTensorRecords_encode {tensors : List ModelTensor}
    (hw : ∀ t ∈ tensors, t.WellFormed limits alignment dataBase fileSize)
    (hcomp : ∀ t ∈ tensors, t.Computable) (hapart : tensors.Pairwise ModelTensor.Apart)
    (hsize : fileSize < u64Size) (file : FileId) {token : CancellationToken}
    (hc : token.cancelled = false) :
    buildTensorRecords file fileSize dataBase alignment token (tensors.map ModelTensor.raw) =
      .ok (tensors.map fun t => t.record file dataBase) := by
  have hmap : (tensors.map ModelTensor.raw).mapM
      (buildTensorRecord file fileSize dataBase alignment token) =
      .ok (tensors.map fun t => t.record file dataBase) := by
    clear hapart
    induction tensors with
    | nil => rfl
    | cons t tensors ih =>
      rw [List.map_cons, List.mapM_cons, buildTensorRecord_encode (hw t (List.mem_cons_self ..))
        (hcomp t (List.mem_cons_self ..)) hsize file hc]
      rw [ih (fun u hu => hw u (List.mem_cons_of_mem _ hu))
        fun u hu => hcomp u (List.mem_cons_of_mem _ hu)]
      rfl
  have hspan : ∀ t : ModelTensor, (t.record file dataBase).storage.span = t.span file dataBase := by
    intro t
    show (t.storage file dataBase).span = _
    unfold ModelTensor.storage
    cases t.type.dtype <;> rfl
  have hspans : (tensors.map fun t => t.record file dataBase).map (fun tensor =>
      (tensor.storage.span.offset, tensor.storage.span.finish)) = tensors.map fun t =>
        (dataBase + t.relativeOffset, dataBase + t.relativeOffset + t.payloadBytes) := by
    rw [List.map_map]
    refine List.map_congr_left fun t _ => ?_
    simp only [Function.comp, hspan]
    rfl
  generalize hl : (tensors.map fun t =>
    (dataBase + t.relativeOffset, dataBase + t.relativeOffset + t.payloadBytes)) = spans at hspans
  have hperm := List.perm_insertionSort spanLe spans
  have hle : ∀ a ∈ spans.insertionSort spanLe, a.1 ≤ a.2 := by
    intro a ha
    have ha := hperm.mem_iff.mp ha
    rw [← hl] at ha
    obtain ⟨t, _, rfl⟩ := List.mem_map.mp ha
    exact Nat.le_add_right _ _
  have hpair : spans.Pairwise fun a b => a.2 ≤ b.1 ∨ b.2 ≤ a.1 := by
    rw [← hl, List.pairwise_map]
    refine hapart.imp fun h => ?_
    unfold ModelTensor.Apart at h
    simp only
    omega
  have hover := not_overlaps_of_apart hle (List.pairwise_insertionSort spanLe spans)
    ((hperm.pairwise_iff fun hab => hab.symm).mpr hpair)
  unfold buildTensorRecords
  rw [hmap]
  show (if overlaps (List.insertionSort spanLe (List.map _ _)) = true then _ else _) = _
  rw [hspans, hover]
  rfl

end Tensors

/-! ## The container -/

/-- The base of the data section of an encoded model. -/
theorem alignUp_header {limits : ResourceLimits} {model : Model} (hw : model.WellFormed limits) :
    alignUp model.header.length model.alignment = .ok model.dataBase := by
  obtain ⟨k, hk, hpow⟩ := hw.alignment_pow
  have hpos : 0 < 2 ^ k := Nat.two_pow_pos k
  have hsize := hw.fileSize
  rw [Model.length_encode hw] at hsize
  have hmod := Nat.mod_lt (model.header.length + (2 ^ k - 1)) hpos
  have hdiv := Nat.div_add_mod (model.header.length + (2 ^ k - 1)) (2 ^ k)
  have hbase : model.dataBase = 2 ^ k * ((model.header.length + (2 ^ k - 1)) / 2 ^ k) := by
    rw [Model.dataBase, hpow, Nat.mul_comm]
  -- both the base and the size of `u64` are multiples of the alignment
  have hlt : model.header.length + (2 ^ k - 1) < u64Size := by
    have hdvd : u64Size = 2 ^ k * 2 ^ (64 - k) := by
      rw [← Nat.pow_add, u64Size]
      congr 1
      omega
    have hlt : 2 ^ k * ((model.header.length + (2 ^ k - 1)) / 2 ^ k) < 2 ^ k * 2 ^ (64 - k) := by
      rw [← hbase, ← hdvd]
      omega
    have hle := Nat.mul_le_mul_left (2 ^ k) (Nat.succ_le_of_lt (Nat.lt_of_mul_lt_mul_left hlt))
    rw [← hdvd, Nat.mul_succ] at hle
    omega
  unfold alignUp
  rw [hpow, checkedAdd_eq_some.mpr ⟨hlt, rfl⟩]
  show Except.ok (_ &&& _) = _
  rw [and_high_mask hlt hk, hbase, Nat.mul_comm]

/-- **Encoded models are parsed back.** The parser accepts the reference encoding
of a well-formed model whose sizes it can compute, and returns its metadata and its
tensors in order, with reversed dimensions and absolute offsets. -/
theorem parse_encode {limits : ResourceLimits} {model : Model} (hw : model.WellFormed limits)
    (hcomp : ∀ tensor ∈ model.tensors, tensor.Computable) (file : FileId)
    {token : CancellationToken} (hc : token.cancelled = false) :
    parse model.encode hw.fileSize file limits token =
      .ok ⟨⟨model.version, model.alignment, OrderedMap.ofList model.entries⟩,
        model.tensors.map fun tensor => tensor.record file model.dataBase⟩ := by
  obtain ⟨r, hheader⟩ := parseHeader_encode hw hc
  have hlen := Model.length_encode hw
  have hlimit := hw.headerBytes
  unfold parse
  rw [hheader]
  show parseTensors _ _ _ _ _ = _
  unfold parseTensors
  rw [alignUp_header hw]
  show (if _ > _ then _ else if _ > _ then _ else _) = _
  rw [if_neg (by omega), if_neg (by omega)]
  show (buildTensorRecords _ _ _ _ _ _ >>= _) = _
  rw [buildTensorRecords_encode hw.tensors hcomp hw.apart hw.fileSize file hc]
  rfl

def sampleLimits : ResourceLimits := ⟨4096, 8, 4, 64⟩

/-- A scalar tensor and a packed one, with nested metadata. -/
def sampleModel : Model where
  version := 3
  entries := [("general.name", .string "tiny"), ("general.alignment", .scalar .u32 16#32),
    ("tokens", .array (.array [.string ["a", "bc"], .scalars .i8 [255#8]]))]
  tensors := [⟨"scale", [2], .f32, 0⟩, ⟨"weight", [32, 2], .q8_0, 16⟩]
  data := List.replicate 84 0

theorem sampleModel_wellFormed : sampleModel.WellFormed sampleLimits where
  version := by decide
  keys := by decide
  keyBytes := by decide
  nesting := by decide
  alignment := by
    intro value h
    refine ⟨4, ?_⟩
    have : value = .scalar .u32 16#32 := (Option.some.inj h).symm
    rw [this]
    rfl
  tensorCount := by decide
  headerBytes := by decide +kernel
  tensors := by
    intro tensor h
    have h : tensor = ⟨"scale", [2], .f32, 0⟩ ∨ tensor = ⟨"weight", [32, 2], .q8_0, 16⟩ := by
      simpa [sampleModel] using h
    rcases h with rfl | rfl
    · exact ⟨by decide, by decide, by decide, by decide, by decide, by decide, by decide,
        by decide +kernel, by decide +kernel⟩
    · exact ⟨by decide, by decide, by decide, by decide, by decide, by decide, by decide,
        by decide +kernel, by decide +kernel⟩
  apart := by
    refine List.pairwise_pair.mpr (.inl ?_)
    decide
  fileSize := by decide +kernel

theorem sampleModel_computable : ∀ tensor ∈ sampleModel.tensors, tensor.Computable := by
  intro tensor h
  have h : tensor = ⟨"scale", [2], .f32, 0⟩ ∨ tensor = ⟨"weight", [32, 2], .q8_0, 16⟩ := by
    simpa [sampleModel] using h
  rcases h with rfl | rfl
  · refine ⟨fun n => ?_, fun _ => by decide⟩
    rcases n with _ | n <;> simp [ModelTensor.shape, u64Size]
  · refine ⟨fun n => ?_, fun _ => by decide⟩
    rcases n with _ | _ | n <;> simp [ModelTensor.shape, u64Size]

theorem parse_encode_sample : sampleModel.WellFormed sampleLimits ∧
    parse sampleModel.encode sampleModel_wellFormed.fileSize 0 sampleLimits ⟨false⟩ =
      .ok ⟨⟨3, 16, OrderedMap.ofList sampleModel.entries⟩,
        sampleModel.tensors.map fun tensor => tensor.record 0 sampleModel.dataBase⟩ :=
  ⟨sampleModel_wellFormed,
    parse_encode sampleModel_wellFormed sampleModel_computable 0 rfl⟩

/-- An empty tensor whose nonempty leading dimensions overflow. -/
def hollowModel : Model := ⟨3, [], [⟨"hollow", [0, 2 ^ 40, 2 ^ 40], .f32, 0⟩], []⟩

theorem hollowModel_wellFormed : hollowModel.WellFormed sampleLimits where
  version := by decide
  keys := by decide
  keyBytes := by decide
  nesting := by decide
  alignment := by
    intro value h
    cases h
  tensorCount := by decide
  headerBytes := by decide +kernel
  tensors := by
    intro tensor h
    have h : tensor = ⟨"hollow", [0, 2 ^ 40, 2 ^ 40], .f32, 0⟩ := by
      simpa [hollowModel] using h
    subst h
    exact ⟨by decide, by decide, by decide, by decide, by decide, by decide, by decide,
        by decide +kernel, by decide +kernel⟩
  apart := List.pairwise_singleton _ _
  fileSize := by decide +kernel

theorem hollowModel_rejected : ∃ hw : hollowModel.WellFormed sampleLimits,
    ∀ parsed, parse hollowModel.encode hw.fileSize 0 sampleLimits ⟨false⟩ ≠ .ok parsed := by
  refine ⟨hollowModel_wellFormed, fun parsed h => ?_⟩
  have hrejected : (parse hollowModel.encode hollowModel_wellFormed.fileSize 0 sampleLimits
      ⟨false⟩).isOk = false := by decide +kernel
  rw [h] at hrejected
  cases hrejected

end ModelWeights.Gguf
