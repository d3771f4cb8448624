import ModelWeights.Blocks
import ModelWeights.Safetensors.Table
import ModelWeights.Gguf.Spans
import ModelWeights.Lib.Tiling

/-! # Which tensor tables are accepted

A table is accepted exactly when every tensor has a known dtype and the length
its shape gives, and the spans tile the data section. -/
namespace ModelWeights.Safetensors
open Gguf (ResourceLimits)
open Tiling

/-! ## What the checks stand for -/

/-- The bytes that elements of a dtype take; packed dtypes only have whole
blocks. -/
def HeaderDtype.Occupies (dtype : HeaderDtype) (elements bytes : Nat) : Prop :=
  match dtype with
  | .plain dtype => bytes = elements * (dtype.bits / 8)
  | .quantized _ valuesPerBlock bytesPerBlock =>
    valuesPerBlock ∣ elements ∧ bytes = elements / valuesPerBlock * bytesPerBlock

/-- A tensor whose span has the length that its dtype and shape give. -/
structure RawTensor.Valid (limits : ResourceLimits) (tensor : RawTensor) : Prop where
  rank : tensor.shape.length ≤ limits.maxRank
  products : ∀ n, (tensor.shape.take n).prod < u64Size
  size : ∃ dtype, parseDtype tensor.dtype = .ok dtype ∧
    dtype.Occupies tensor.shape.prod (tensor.dataOffsets.2 - tensor.dataOffsets.1) ∧
    tensor.dataOffsets.2 - tensor.dataOffsets.1 < u64Size

/-- The tables that are safetensors tables over a data section. -/
structure RawHeader.WellFormed (limits : ResourceLimits) (dataLength : Nat) (raw : RawHeader) :
    Prop where
  tensors : ∀ entry ∈ raw.tensors.entries, entry.2.Valid limits
  tiling : Tiles (fun entry : String × RawTensor => entry.2.dataOffsets.1)
    (fun entry => entry.2.dataOffsets.2) raw.tensors.entries 0 dataLength

/-! ## Byte lengths -/

theorem elementProduct_iff {shape : List Nat} {n : Nat} :
    elementProduct shape = .ok n ↔ (∀ k, (shape.take k).prod < u64Size) ∧ n = shape.prod := by
  constructor
  · intro h
    refine ⟨fun k => ?_, elementProduct_ok h⟩
    have hfold : ∀ {shape : List Nat} {a n : Nat}, a < u64Size →
        shape.foldlM (fun p d => okOr (checkedMul p d)
          (.limit "tensor element count overflows u64")) a = Except.ok n →
        ∀ k, a * (shape.take k).prod < u64Size := by
      intro shape
      induction shape with
      | nil =>
        intro a n ha _ k
        simpa using ha
      | cons d rest ih =>
        intro a n ha h k
        rw [List.foldlM_cons] at h
        obtain ⟨m, hm, h⟩ := bind_ok h
        obtain ⟨hlt, rfl⟩ := checkedMul_eq_some.mp (okOr_eq_ok.mp hm)
        cases k with
        | zero => simpa using ha
        | succ k =>
          rw [List.take_succ_cons, List.prod_cons, ← Nat.mul_assoc]
          exact ih hlt h k
    have := hfold (by decide : 1 < u64Size) h k
    rwa [Nat.one_mul] at this
  · rintro ⟨hfits, rfl⟩
    exact foldlM_checkedMul_one _ hfits

theorem parseDtype_quantized {value operation : String} {v b : Nat}
    (h : parseDtype value = .ok (.quantized operation v b)) :
    (operation = "f4" ∧ v = 2 ∧ b = 1) ∨ (operation = "f6-e2m3" ∧ v = 4 ∧ b = 3) ∨
      (operation = "f6-e3m2" ∧ v = 4 ∧ b = 3) := by
  unfold parseDtype at h
  split at h <;> cases h <;> simp

theorem parseDtype_block {value operation : String} {v b : Nat}
    (h : parseDtype value = .ok (.quantized operation v b)) :
    0 < v ∧ 0 < b ∧ b ≤ v ∧ v ∣ u64Size := by
  obtain ⟨-, rfl, rfl⟩ | ⟨-, rfl, rfl⟩ | ⟨-, rfl, rfl⟩ := parseDtype_quantized h <;> decide

/-- The byte length of a dtype is exact where it fits. -/
theorem byteLen_iff {value : String} {dtype : HeaderDtype} (hd : parseDtype value = .ok dtype)
    {shape : List Nat} {bytes : Nat} : dtype.byteLen shape = .ok bytes ↔
      (∀ k, (shape.take k).prod < u64Size) ∧ dtype.Occupies shape.prod bytes ∧
        bytes < u64Size := by
  cases dtype with
  | plain dtype =>
    constructor
    · intro h
      obtain ⟨n, hn, h⟩ := bind_ok h
      obtain ⟨hfits, rfl⟩ := elementProduct_iff.mp hn
      obtain ⟨hlt, rfl⟩ := checkedMul_eq_some.mp (okOr_eq_ok.mp h)
      exact ⟨hfits, rfl, hlt⟩
    · rintro ⟨hfits, rfl, hlt⟩
      show (elementProduct shape >>= _) = _
      rw [elementProduct_iff.mpr ⟨hfits, rfl⟩]
      exact okOr_eq_ok.mpr (checkedMul_eq_some.mpr ⟨hlt, rfl⟩)
  | quantized operation v b =>
    obtain ⟨hv, hb, hle, _⟩ := parseDtype_block hd
    constructor
    · intro h
      obtain ⟨n, hn, h⟩ := bind_ok h
      obtain ⟨hfits, rfl⟩ := elementProduct_iff.mp hn
      refine ⟨hfits, ?_⟩
      split at h
      · next hz =>
        obtain rfl := Except.ok.inj h
        rw [hz]
        exact ⟨⟨Nat.dvd_zero _, by rw [Nat.zero_div, Nat.zero_mul]⟩, by decide⟩
      · obtain ⟨hdvd, h⟩ := unless_error_ok h
        obtain ⟨hlt, rfl⟩ := checkedMul_eq_some.mp (okOr_eq_ok.mp h)
        exact ⟨⟨Nat.dvd_of_mod_eq_zero (not_not.mp hdvd), rfl⟩, hlt⟩
    · rintro ⟨hfits, ⟨hdvd, rfl⟩, hlt⟩
      show (elementProduct shape >>= _) = _
      rw [elementProduct_iff.mpr ⟨hfits, rfl⟩]
      show (if shape.prod = 0 then _ else _) = _
      by_cases hz : shape.prod = 0
      · rw [if_pos hz, hz, Nat.zero_div, Nat.zero_mul]
      · rw [if_neg hz, if_neg (not_not.mpr (Nat.mod_eq_zero_of_dvd hdvd))]
        exact okOr_eq_ok.mpr (checkedMul_eq_some.mpr ⟨hlt, rfl⟩)

/-! ## Storage of packed tensors -/

theorem quantizedNew_flat {encoding : ImplementationId} {shape : List Nat} {span : SourceSpan}
    {v b : Nat} (hfits : ∀ k, (shape.take k).prod < u64Size)
    (hblocks : blockBytes shape.prod v b = .ok span.length) :
    ∃ q, QuantizedStorage.new encoding shape span (.blocks ⟨v, b, .flat⟩) = .ok q := by
  have hcheck : validateShapeAndPacking shape span (.blocks ⟨v, b, .flat⟩) = .ok () := by
    unfold validateShapeAndPacking
    rw [foldlM_checkedMul_one _ hfits]
    show (blockBytes shape.prod v b >>= _) = _
    rw [hblocks]
    exact if_neg (not_not.mpr rfl)
  unfold QuantizedStorage.new QuantizedStorage.build
  rw [hcheck]
  exact ⟨_, rfl⟩

/-- The storage of an accepted tensor is made from its own span. -/
theorem intoStorage_ok {dtype : HeaderDtype} {shape : List Nat} {span : SourceSpan} {st : Storage}
    (h : dtype.intoStorage shape span = .ok st) : st.span = span := by
  cases dtype with
  | plain dtype => rw [← Except.ok.inj h]; rfl
  | quantized operation v b =>
    obtain ⟨provider, _, h⟩ := bind_ok h
    obtain ⟨operation, _, h⟩ := bind_ok h
    obtain ⟨packing, _, h⟩ := bind_ok h
    obtain ⟨q, hq, h⟩ := bind_ok h
    rw [← Except.ok.inj h]
    exact Gguf.quantizedNew_payload hq

theorem intoStorage_eq {value : String} {dtype : HeaderDtype} (hd : parseDtype value = .ok dtype)
    {shape : List Nat} {span : SourceSpan} (hfits : ∀ k, (shape.take k).prod < u64Size)
    (hbytes : dtype.Occupies shape.prod span.length) :
    ∃ st, dtype.intoStorage shape span = .ok st := by
  cases dtype with
  | plain dtype => exact ⟨_, rfl⟩
  | quantized operation v b =>
    obtain ⟨hv, hb, hle, hsize⟩ := parseDtype_block hd
    obtain ⟨hdvd, hlen⟩ := hbytes
    have hprod : shape.prod < u64Size := by
      have := hfits shape.length
      rwa [List.take_length] at this
    have hwhole : shape.prod / v * b < u64Size :=
      Nat.lt_of_le_of_lt ((Nat.mul_le_mul_left _ hle).trans (Nat.div_mul_le_self _ _)) hprod
    have hname : ∃ name, StableName.parse operation = .ok name := by
      obtain ⟨rfl, -⟩ | ⟨rfl, -⟩ | ⟨rfl, -⟩ := parseDtype_quantized hd
      · exact ⟨⟨"f4"⟩, by decide +kernel⟩
      · exact ⟨⟨"f6-e2m3"⟩, by decide +kernel⟩
      · exact ⟨⟨"f6-e3m2"⟩, by decide +kernel⟩
    obtain ⟨name, hname⟩ := hname
    have hprovider : StableName.parse "safetensors" = .ok ⟨"safetensors"⟩ := by decide +kernel
    obtain ⟨q, hq⟩ := @quantizedNew_flat ⟨⟨"safetensors"⟩, name, 1⟩ _ _ _ _ hfits
      ((blockBytes_whole hv hdvd hsize hprod hwhole).trans (congrArg Except.ok hlen.symm))
    refine ⟨.quantized q, ?_⟩
    unfold HeaderDtype.intoStorage
    dsimp only
    rw [hprovider, hname, show BlockPacking.new v b .flat = .ok ⟨v, b, .flat⟩ from
      if_neg (by omega)]
    show (QuantizedStorage.new _ shape span _ >>= _) = _
    rw [hq]
    rfl

/-! ## The passes -/

section Passes
variable {limits : ResourceLimits} {cancellation : CancellationToken} {file : FileId}
  {dataBase dataLength : Nat}

/-- The entry of an accepted tensor. -/
structure Checked (limits : ResourceLimits) (dataLength : Nat) (raw : String × RawTensor)
    (entry : Entry) : Prop where
  valid : raw.2.Valid limits
  name : entry.name = raw.1
  shape : entry.shape = raw.2.shape
  dtype : parseDtype raw.2.dtype = .ok entry.dtype
  start : entry.start = raw.2.dataOffsets.1
  finish : entry.finish = raw.2.dataOffsets.2
  ordered : entry.start ≤ entry.finish ∧ entry.finish ≤ dataLength

theorem checkTensor_ok {raw : String × RawTensor} {entry : Entry}
    (h : checkTensor limits cancellation dataLength raw = .ok entry) :
    Checked limits dataLength raw entry := by
  obtain ⟨_, _, h⟩ := bind_ok h
  obtain ⟨hrank, h⟩ := unless_error_ok h
  obtain ⟨dtype, hd, h⟩ := bind_ok h
  obtain ⟨hrange, h⟩ := unless_error_ok h
  obtain ⟨expected, he, h⟩ := bind_ok h
  obtain ⟨hlen, h⟩ := unless_error_ok h
  obtain rfl := Except.ok.inj h
  obtain rfl := not_not.mp hlen
  obtain ⟨hfits, hbytes, hlt⟩ := (byteLen_iff hd).mp he
  exact ⟨⟨Nat.not_lt.mp hrank, hfits, dtype, hd, hbytes, hlt⟩, rfl, rfl, hd, rfl, rfl, by
    rw [not_or, Nat.not_lt, Nat.not_lt] at hrange
    exact hrange⟩

theorem checkTensor_eq (hc : cancellation.cancelled = false) {raw : String × RawTensor}
    (h : raw.2.Valid limits) (hrange : raw.2.dataOffsets.1 ≤ raw.2.dataOffsets.2 ∧
      raw.2.dataOffsets.2 ≤ dataLength) :
    ∃ entry, checkTensor limits cancellation dataLength raw = .ok entry := by
  obtain ⟨dtype, hd, hbytes, hlt⟩ := h.size
  have hlen := (byteLen_iff hd).mpr ⟨h.products, hbytes, hlt⟩
  refine ⟨⟨raw.1, raw.2.shape, dtype, raw.2.dataOffsets.1, raw.2.dataOffsets.2⟩, ?_⟩
  unfold checkTensor
  rw [CancellationToken.check_eq_ok hc]
  show (if raw.2.shape.length > limits.maxRank then _ else _) = _
  rw [if_neg (Nat.not_lt.mpr h.rank), hd]
  show (if raw.2.dataOffsets.1 > raw.2.dataOffsets.2 ∨ raw.2.dataOffsets.2 > dataLength then _
    else _) = _
  rw [if_neg (by omega), hlen]
  exact if_neg (not_not.mpr rfl)

theorem claimBytes_iff (hc : cancellation.cancelled = false) {b : Nat} :
    ∀ {l : List Entry} {a : Nat}, claimBytes cancellation a l = .ok b ↔
      Chained Entry.start Entry.finish a l b
  | [], a => ⟨Except.ok.inj, congrArg Except.ok⟩
  | entry :: rest, a => by
    unfold claimBytes
    rw [CancellationToken.check_eq_ok hc]
    show (if entry.start ≠ a then _ else _) = _ ↔ _
    by_cases hs : entry.start = a
    · rw [if_neg (not_not.mpr hs), claimBytes_iff hc]
      exact ⟨fun h => ⟨hs, h⟩, And.right⟩
    · rw [if_pos hs]
      exact ⟨fun h => (by cases h), fun h => absurd h.1 hs⟩

theorem buildRecord_ok {entry : Entry} {record : TensorRecord}
    (h : buildRecord cancellation file dataBase entry = .ok record) :
    record.name = entry.name ∧ record.shape = entry.shape ∧
      record.storage.span = ⟨file, dataBase + entry.start, entry.finish - entry.start⟩ := by
  obtain ⟨_, _, h⟩ := bind_ok h
  obtain ⟨offset, ho, h⟩ := bind_ok h
  obtain ⟨span, hs, h⟩ := bind_ok h
  obtain ⟨st, hst, h⟩ := bind_ok h
  obtain rfl := Except.ok.inj h
  obtain ⟨_, rfl⟩ := checkedAdd_eq_some.mp (okOr_eq_ok.mp ho)
  obtain ⟨rfl, _⟩ := SourceSpan.new_ok hs
  exact ⟨rfl, rfl, intoStorage_ok hst⟩

theorem buildRecord_eq (hc : cancellation.cancelled = false)
    (hfit : dataBase + dataLength < u64Size) {raw : String × RawTensor} {entry : Entry}
    (h : Checked limits dataLength raw entry) :
    ∃ record, buildRecord cancellation file dataBase entry = .ok record := by
  have hord := h.ordered
  obtain ⟨dtype, hd, hbytes, _⟩ := h.valid.size
  obtain rfl := Except.ok.inj (h.dtype.symm.trans hd)
  have hspan : SourceSpan.new file (dataBase + entry.start) (entry.finish - entry.start) =
      .ok ⟨file, dataBase + entry.start, entry.finish - entry.start⟩ :=
    SourceSpan.new_eq (by omega)
  rw [← h.start, ← h.finish, ← h.shape] at hbytes
  have hproducts := h.valid.products
  rw [← h.shape] at hproducts
  obtain ⟨st, hst⟩ := @intoStorage_eq _ _ hd _ ⟨file, dataBase + entry.start,
    entry.finish - entry.start⟩ hproducts hbytes
  refine ⟨⟨entry.name, entry.shape, st⟩, ?_⟩
  unfold buildRecord
  rw [CancellationToken.check_eq_ok hc, checkedAdd_eq_some.mpr ⟨by omega, rfl⟩]
  show (SourceSpan.new file (dataBase + entry.start) _ >>= _) = _
  rw [hspan]
  show (entry.dtype.intoStorage entry.shape _ >>= _) = _
  rw [hst]
  rfl

end Passes

/-! ## Sorted entries -/

instance : Std.Total entryLe where
  total a b := by
    rcases lt_trichotomy a.start b.start with h | h | h
    · exact .inl (.inl h)
    · rcases lt_trichotomy a.finish b.finish with h' | h' | h'
      · exact .inl (.inr ⟨h, .inl h'⟩)
      · exact (le_total a.name b.name).imp (fun hn => .inr ⟨h, .inr ⟨h', hn⟩⟩)
          (fun hn => .inr ⟨h.symm, .inr ⟨h'.symm, hn⟩⟩)
      · exact .inr (.inr ⟨h.symm, .inl h'⟩)
    · exact .inr (.inl h)

instance : IsTrans Entry entryLe where
  trans a b c := by
    rintro (h₁ | ⟨h₁, h₁' | ⟨h₁', h₁''⟩⟩) (h₂ | ⟨h₂, h₂' | ⟨h₂', h₂''⟩⟩)
    · exact .inl (h₁.trans h₂)
    · exact .inl (h₂ ▸ h₁)
    · exact .inl (h₂ ▸ h₁)
    · exact .inl (h₁ ▸ h₂)
    · exact .inr ⟨h₁.trans h₂, .inl (h₁'.trans h₂')⟩
    · exact .inr ⟨h₁.trans h₂, .inl (h₂' ▸ h₁')⟩
    · exact .inl (h₁ ▸ h₂)
    · exact .inr ⟨h₁.trans h₂, .inl (h₁' ▸ h₂')⟩
    · exact .inr ⟨h₁.trans h₂, .inr ⟨h₁'.trans h₂', h₁''.trans h₂''⟩⟩

theorem spanLe_of_entryLe {a b : Entry} (h : entryLe a b) : SpanLe Entry.start Entry.finish a b :=
  h.imp id fun h => ⟨h.1, h.2.elim Nat.le_of_lt fun h => Nat.le_of_eq h.1⟩

/-- A key that tells the entries of a table apart. -/
def Entry.key (entry : Entry) : String × Nat × Nat := (entry.name, entry.start, entry.finish)

section Table
variable {limits : ResourceLimits} {cancellation : CancellationToken} {file : FileId}
  {dataBase dataLength : Nat} {raw : RawHeader} {entries : List Entry}

/-- The entries of a table have the spans of its tensors. -/
theorem entries_keys (h : List.Forall₂ (Checked limits dataLength) raw.tensors.entries entries) :
    entries.map Entry.key = raw.tensors.entries.map fun e =>
      (e.1, e.2.dataOffsets.1, e.2.dataOffsets.2) := by
  refine forall₂_map_eq (h.imp fun _ _ hx => ?_)
  rw [Entry.key, hx.name, hx.start, hx.finish]

theorem entries_tiles
    (h : List.Forall₂ (Checked limits dataLength) raw.tensors.entries entries) :
    Tiles Entry.start Entry.finish entries 0 dataLength ↔
      Tiles (fun entry : String × RawTensor => entry.2.dataOffsets.1)
        (fun entry => entry.2.dataOffsets.2) raw.tensors.entries 0 dataLength := by
  have hkeys := entries_keys h
  have hnodup : (raw.tensors.entries.map fun e : String × RawTensor =>
      (e.1, e.2.dataOffsets.1, e.2.dataOffsets.2)).Nodup := by
    refine List.Nodup.of_map Prod.fst ?_
    rw [List.map_map]
    exact raw.tensors.nodup_keys
  rw [show Entry.start = fun x => (Entry.key x).2.1 from rfl,
    show Entry.finish = fun x => (Entry.key x).2.2 from rfl,
    ← @tiles_map _ (fun k : String × Nat × Nat => k.2.1) (fun k => k.2.2) _ _ _ _ _
      (hkeys ▸ hnodup), hkeys, tiles_map hnodup]

theorem entries_names (h : List.Forall₂ (Checked limits dataLength) raw.tensors.entries entries) :
    entries.map Entry.name = raw.tensors.entries.map Prod.fst :=
  forall₂_map_eq (h.imp fun _ _ hx => hx.name)

theorem entries_nodup (h : List.Forall₂ (Checked limits dataLength) raw.tensors.entries entries) :
    entries.Nodup := by
  refine List.Nodup.of_map Entry.name ?_
  rw [entries_names h]
  exact raw.tensors.nodup_keys

/-- The records have the names of the table, and all of them lie in its file. -/
theorem validateTensorEntries_names {records : List TensorRecord}
    (h : validateTensorEntries limits cancellation file dataBase dataLength raw = .ok records) :
    (records.map TensorRecord.name).Perm (raw.tensors.entries.map Prod.fst) ∧
      ∀ record ∈ records, record.storage.span.file = file := by
  obtain ⟨entries, he, h⟩ := bind_ok h
  obtain ⟨_, _, h⟩ := bind_ok h
  obtain ⟨_, h⟩ := unless_error_ok h
  obtain ⟨records', hr, h⟩ := bind_ok h
  obtain ⟨_, _, h⟩ := bind_ok h
  obtain rfl := Except.ok.inj h
  have hbuilt := (mapM_ok_forall₂ hr).imp fun _ _ => buildRecord_ok
  constructor
  · rw [forall₂_map_eq (hbuilt.imp fun _ _ hx => hx.1),
      ← entries_names ((mapM_ok_forall₂ he).imp fun _ _ => checkTensor_ok)]
    exact (List.perm_insertionSort entryLe entries).map _
  · intro record hrecord
    obtain ⟨entry, _, hx⟩ := forall₂_mem_right hbuilt hrecord
    rw [hx.2.2]

end Table

/-- **Accepted tables.** A tensor table over a data section whose end fits in 64
bits is accepted exactly when every tensor is valid and the spans tile the
section. The records then lie inside the section. -/
theorem validateTensorEntries_iff {limits : ResourceLimits} {cancellation : CancellationToken}
    {file : FileId} {dataBase dataLength : Nat} {raw : RawHeader}
    (hc : cancellation.cancelled = false) (hfit : dataBase + dataLength < u64Size) :
    ((∃ records, validateTensorEntries limits cancellation file dataBase dataLength raw =
        .ok records) ↔ raw.WellFormed limits dataLength) ∧
    ∀ records, validateTensorEntries limits cancellation file dataBase dataLength raw =
        .ok records → ∀ record ∈ records, dataBase ≤ record.storage.span.offset ∧
          record.storage.span.finish ≤ dataBase + dataLength := by
  constructor
  · constructor
    · rintro ⟨records, h⟩
      obtain ⟨entries, he, h⟩ := bind_ok h
      obtain ⟨cursor, hcursor, h⟩ := bind_ok h
      obtain ⟨hend, _⟩ := unless_error_ok h
      obtain rfl := not_not.mp hend
      have hall := (mapM_ok_forall₂ he).imp fun _ _ => checkTensor_ok
      have hperm := List.perm_insertionSort entryLe entries
      have hchain := (claimBytes_iff hc).mp hcursor
      have htiles := hchain.tiles fun x hx => by
        obtain ⟨_, _, hx⟩ := forall₂_mem_right hall (hperm.mem_iff.mp hx)
        exact hx.ordered.1
      refine ⟨fun tensor ht => ?_, (entries_tiles hall).mp (htiles.of_mem_iff fun x =>
        hperm.symm.mem_iff)⟩
      obtain ⟨_, _, hx⟩ := forall₂_mem_left hall ht
      exact hx.valid
    · intro h
      obtain ⟨entries, he⟩ := mapM_ok_of_forall fun tensor ht =>
        checkTensor_eq hc (h.tensors tensor ht) (h.tiling.within tensor ht).2
      have hall := (mapM_ok_forall₂ he).imp fun _ _ => checkTensor_ok
      have hperm := List.perm_insertionSort entryLe entries
      have htiles := ((entries_tiles hall).mpr h.tiling).of_mem_iff fun x => hperm.mem_iff
      have hchain := htiles.chained (Nat.zero_le _)
        ((List.pairwise_insertionSort entryLe entries).imp spanLe_of_entryLe)
        (hperm.nodup_iff.mpr (entries_nodup hall))
      obtain ⟨records, hr⟩ := mapM_ok_of_forall (f := buildRecord cancellation file dataBase)
        (l := entries.insertionSort entryLe) fun x hx => by
          obtain ⟨_, _, hx⟩ := forall₂_mem_right hall (hperm.mem_iff.mp hx)
          exact buildRecord_eq hc hfit hx
      refine ⟨records, ?_⟩
      unfold validateTensorEntries
      rw [he]
      show (claimBytes cancellation 0 (entries.insertionSort entryLe) >>= _) = _
      rw [(claimBytes_iff hc).mpr hchain]
      show (if dataLength ≠ dataLength then _ else _) = _
      rw [if_neg (not_not.mpr rfl), hr]
      show (cancellation.check >>= _) = _
      rw [CancellationToken.check_eq_ok hc]
      rfl
  · intro records h record hrecord
    obtain ⟨entries, he, h⟩ := bind_ok h
    obtain ⟨cursor, _, h⟩ := bind_ok h
    obtain ⟨_, h⟩ := unless_error_ok h
    obtain ⟨records', hr, h⟩ := bind_ok h
    obtain ⟨_, _, h⟩ := bind_ok h
    obtain rfl := Except.ok.inj h
    have hall := (mapM_ok_forall₂ he).imp fun _ _ => checkTensor_ok
    obtain ⟨entry, hentry, hbuild⟩ := forall₂_mem_right (mapM_ok_forall₂ hr) hrecord
    obtain ⟨_, _, hspan⟩ := buildRecord_ok hbuild
    obtain ⟨_, _, hx⟩ := forall₂_mem_right hall
      ((List.perm_insertionSort entryLe entries).mem_iff.mp hentry)
    have hord := hx.ordered
    rw [hspan, SourceSpan.finish]
    refine ⟨Nat.le_add_right _ _, ?_⟩
    show dataBase + entry.start + (entry.finish - entry.start) ≤ _
    omega

/-- A tensor, an empty one at its end and a packed one. -/
def packedTable : RawHeader where
  tensors := {
    entries := [("bias", ⟨"U8", [3, 0], (8, 8)⟩), ("gate", ⟨"F4", [2, 2], (8, 10)⟩),
      ("norm", ⟨"F32", [2], (0, 8)⟩)]
    sorted := by decide +kernel }

theorem validateTensorEntries_packed :
    packedTable.WellFormed ⟨64, 4, 4, 16⟩ 10 ∧
    ∃ records, validateTensorEntries ⟨64, 4, 4, 16⟩ ⟨false⟩ 0 24 10 packedTable = .ok records ∧
      ∀ record ∈ records, 24 ≤ record.storage.span.offset ∧ record.storage.span.finish ≤ 34 := by
  obtain ⟨hiff, hwithin⟩ := @validateTensorEntries_iff ⟨64, 4, 4, 16⟩ ⟨false⟩ 0 24 10 packedTable
    rfl (by decide)
  have hok : (validateTensorEntries ⟨64, 4, 4, 16⟩ ⟨false⟩ 0 24 10 packedTable).isOk = true := by
    decide +kernel
  cases h : validateTensorEntries ⟨64, 4, 4, 16⟩ ⟨false⟩ 0 24 10 packedTable with
  | error e => rw [h] at hok; cases hok
  | ok records => exact ⟨hiff.mp ⟨records, h⟩, records, rfl, hwithin records h⟩

end ModelWeights.Safetensors
