import ModelWeights.Inventory.Open
import ModelWeights.Prepared.HostBytes
import ModelWeights.Safetensors.Described

/-! # Safetensors files

A safetensors file is the length of its header, the header and the data section. The
files that are accepted are those whose header describes tensors that tile the data
section, and the spans of the records cut the tensors out of it. -/
namespace ModelWeights
open Parsing Tiling
open Prepared (spanOf)
open Safetensors (RawHeader RawTensor JsonReader parseHeaderJson)

/-! ## Tensor tables -/

namespace Safetensors
variable {limits : Gguf.ResourceLimits} {cancellation : CancellationToken} {file : FileId}
  {dataBase dataLength : Nat} {raw : RawHeader} {records : List TensorRecord}

/-- The record of a table entry. -/
structure Entry.Recorded (file : FileId) (dataBase : Nat) (entry : Entry) (record : TensorRecord) :
    Prop where
  name : record.name = entry.name
  shape : record.shape = entry.shape
  span : record.storage.span = ⟨file, dataBase + entry.start, entry.finish - entry.start⟩
  storage : entry.dtype.intoStorage entry.shape record.storage.span = .ok record.storage

theorem buildRecord_recorded {entry : Entry} {record : TensorRecord}
    (h : buildRecord cancellation file dataBase entry = .ok record) :
    entry.Recorded file dataBase record := by
  obtain ⟨hname, hshape, hspan⟩ := buildRecord_ok h
  refine ⟨hname, hshape, hspan, ?_⟩
  obtain ⟨_, _, h⟩ := bind_ok h
  obtain ⟨offset, _, h⟩ := bind_ok h
  obtain ⟨span, _, h⟩ := bind_ok h
  obtain ⟨storage, hstorage, h⟩ := bind_ok h
  obtain rfl := Except.ok.inj h
  obtain rfl : storage.span = span := intoStorage_ok hstorage
  exact hstorage

/-- The entries of an accepted table in the order of their data. -/
structure Laid (limits : Gguf.ResourceLimits) (dataLength : Nat) (raw : RawHeader)
    (entries : List Entry) : Prop where
  checked : ∃ checked, List.Forall₂ (Checked limits dataLength) raw.tensors.entries checked ∧
    entries.Perm checked
  chained : Chained Entry.start Entry.finish 0 entries dataLength

theorem validateTensorEntries_laid (hc : cancellation.cancelled = false)
    (h : validateTensorEntries limits cancellation file dataBase dataLength raw = .ok records) :
    ∃ entries, Laid limits dataLength raw entries ∧
      List.Forall₂ (Entry.Recorded file dataBase) entries records := by
  obtain ⟨checked, he, h⟩ := bind_ok h
  obtain ⟨cursor, hcursor, h⟩ := bind_ok h
  obtain ⟨hend, h⟩ := unless_error_ok h
  obtain ⟨built, hr, h⟩ := bind_ok h
  obtain ⟨_, _, h⟩ := bind_ok h
  obtain rfl := Except.ok.inj h
  obtain rfl := not_not.mp hend
  refine ⟨checked.insertionSort entryLe, ⟨⟨checked, (mapM_ok_forall₂ he).imp fun _ _ =>
    checkTensor_ok, List.perm_insertionSort entryLe checked⟩, (claimBytes_iff hc).mp hcursor⟩, ?_⟩
  exact (mapM_ok_forall₂ hr).imp fun _ _ => buildRecord_recorded

variable {entries : List Entry}

theorem Laid.ordered (h : Laid limits dataLength raw entries) {entry : Entry}
    (he : entry ∈ entries) : entry.start ≤ entry.finish ∧ entry.finish ≤ dataLength := by
  obtain ⟨checked, hall, hperm⟩ := h.checked
  obtain ⟨_, _, hx⟩ := forall₂_mem_right hall (hperm.mem_iff.mp he)
  exact hx.ordered

theorem Laid.wellFormed (h : Laid limits dataLength raw entries) :
    raw.WellFormed limits dataLength := by
  have htiles := h.chained.tiles fun x hx => (h.ordered hx).1
  obtain ⟨checked, hall, hperm⟩ := h.checked
  refine ⟨fun tensor ht => ?_, (entries_tiles hall).mp (htiles.of_mem_iff fun x =>
    hperm.symm.mem_iff)⟩
  obtain ⟨_, _, hx⟩ := forall₂_mem_left hall ht
  exact hx.valid

/-- A well-formed table has its records. -/
theorem validateTensorEntries_succeeds (hc : cancellation.cancelled = false)
    (hfit : dataBase + dataLength < u64Size) (h : raw.WellFormed limits dataLength) :
    ∃ records, validateTensorEntries limits cancellation file dataBase dataLength raw =
      .ok records := by
  obtain ⟨checked, he⟩ := mapM_ok_of_forall fun tensor ht =>
    checkTensor_eq hc (h.tensors tensor ht) (h.tiling.within tensor ht).2
  have hall := (mapM_ok_forall₂ he).imp fun _ _ => checkTensor_ok
  have hperm := List.perm_insertionSort entryLe checked
  have hchain := (((entries_tiles hall).mpr h.tiling).of_mem_iff fun x => hperm.mem_iff).chained
    (Nat.zero_le _) ((List.pairwise_insertionSort entryLe checked).imp spanLe_of_entryLe)
    (hperm.nodup_iff.mpr (entries_nodup hall))
  obtain ⟨records, hr⟩ := mapM_ok_of_forall (f := buildRecord cancellation file dataBase)
    (l := checked.insertionSort entryLe) fun x hx => by
      obtain ⟨_, _, hx⟩ := forall₂_mem_right hall (hperm.mem_iff.mp hx)
      exact buildRecord_eq hc hfit hx
  refine ⟨records, ?_⟩
  simp only [validateTensorEntries, bind_eq_ok_iff, guard_eq_ok_iff]
  exact ⟨checked, he, dataLength, (claimBytes_iff hc).mpr hchain, not_not.mpr rfl, records, hr,
    (), CancellationToken.check_eq_ok hc, rfl⟩

end Safetensors

/-! ## Files -/

section Container
variable (reader : JsonReader) (maxMetadataBytes : Nat) (limits : CheckpointLimits)

/-- The bytes are the file of a header and a data section, and the header describes the
tensors of the section. -/
structure Container (bytes header data : List UInt8) (raw : RawHeader) : Prop where
  layout : bytes = leBytes 8 header.length ++ (header ++ data)
  length : header.length ≤ limits.maxHeaderBytes
  object : header.head? = some 123
  describes : raw.Describes ⟨limits.toResourceLimits, maxMetadataBytes⟩ (reader.document header)
  ended : reader.ended header = true
  wellFormed : raw.WellFormed limits.toResourceLimits data.length

/-- A record of a tensor: its shape and dtype, and a span that holds its bytes. -/
structure Safetensors.RawTensor.RecordedAs (tensor : RawTensor) (bytes data : List UInt8)
    (record : TensorRecord) : Prop where
  shape : record.shape = tensor.shape
  storage : ∃ dtype, Safetensors.parseDtype tensor.dtype = .ok dtype ∧
    dtype.intoStorage tensor.shape record.storage.span = .ok record.storage
  bytes : spanOf bytes record.storage.span =
    (data.drop tensor.dataOffsets.1).take (tensor.dataOffsets.2 - tensor.dataOffsets.1)

/-- The records of a file: one for each tensor, all within the file, and their spans are
the data section. -/
structure RecordsOf (bytes data : List UInt8) (id : FileId) (raw : RawHeader)
    (records : List TensorRecord) : Prop where
  names : (records.map TensorRecord.name).Perm (raw.tensors.entries.map Prod.fst)
  tensors : ∀ name tensor, raw.tensors.get? name = some tensor → ∃ record ∈ records,
    record.name = name ∧ tensor.RecordedAs bytes data record
  within : ∀ record ∈ records, record.storage.span.file = id ∧
    record.storage.span.finish ≤ bytes.length
  contents : records.flatMap (fun record => spanOf bytes record.storage.span) = data

variable {reader maxMetadataBytes limits} {bytes header data : List UInt8} {raw : RawHeader}
  {cancellation : CancellationToken} {id : FileId} {records : List TensorRecord}

/-! ### The layout -/

theorem container_parts (hlayout : bytes = leBytes 8 header.length ++ (header ++ data))
    (hfits : bytes.length < u64Size) : leNat (bytes.take 8) = header.length ∧
      (bytes.drop 8).take header.length = header ∧ bytes.drop (8 + header.length) = data ∧
      bytes.length = 8 + header.length + data.length := by
  have hlength : bytes.length = 8 + header.length + data.length := by
    rw [hlayout, List.length_append, List.length_append, length_leBytes, Nat.add_assoc]
  have htake : bytes.take 8 = leBytes 8 header.length := by
    rw [hlayout, List.take_left' (length_leBytes ..)]
  have hdrop : bytes.drop 8 = header ++ data := by
    rw [hlayout, List.drop_left' (length_leBytes ..)]
  refine ⟨?_, ?_, ?_, hlength⟩
  · rw [htake]
    exact leNat_leBytes (show header.length < 256 ^ 8 by unfold u64Size at hfits; omega)
  · rw [hdrop, List.take_left]
  · rw [← List.drop_drop, hdrop, List.drop_left]

/-- A span behind the header is a piece of the data section. -/
theorem spanOf_data (hlayout : bytes = leBytes 8 header.length ++ (header ++ data))
    (hfits : bytes.length < u64Size) (start length : Nat) :
    spanOf bytes ⟨id, 8 + header.length + start, length⟩ = (data.drop start).take length := by
  obtain ⟨_, _, hdata, _⟩ := container_parts hlayout hfits
  unfold spanOf
  rw [← List.drop_drop, hdata]

/-- The records of a well-formed file are its tensors. -/
theorem recordsOf_container (hc : cancellation.cancelled = false)
    (hlayout : bytes = leBytes 8 header.length ++ (header ++ data)) (hfits : bytes.length < u64Size)
    (h : Safetensors.validateTensorEntries limits.toResourceLimits cancellation id
      (8 + header.length) data.length raw = .ok records) :
    RecordsOf bytes data id raw records := by
  obtain ⟨hnames, hfile⟩ := Safetensors.validateTensorEntries_names h
  obtain ⟨entries, hlaid, hrecorded⟩ := Safetensors.validateTensorEntries_laid hc h
  obtain ⟨_, _, _, hlength⟩ := container_parts hlayout hfits
  have hspan : ∀ {entry : Safetensors.Entry} {record : TensorRecord},
      entry.Recorded id (8 + header.length) record →
      spanOf bytes record.storage.span =
        (data.drop entry.start).take (entry.finish - entry.start) := by
    intro entry record hr
    rw [hr.span, spanOf_data hlayout hfits]
  refine ⟨hnames, fun name tensor hget => ?_, fun record hrecord => ⟨hfile record hrecord, ?_⟩, ?_⟩
  · obtain ⟨checked, hall, hperm⟩ := hlaid.checked
    obtain ⟨entry, hentry, hx⟩ := forall₂_mem_left hall (OrderedMap.get?_eq_some.mp hget)
    obtain ⟨record, hrecord, hr⟩ := forall₂_mem_left hrecorded (hperm.mem_iff.mpr hentry)
    refine ⟨record, hrecord, hr.name.trans hx.name, hr.shape.trans hx.shape,
      ⟨entry.dtype, hx.dtype, hx.shape ▸ hr.storage⟩, ?_⟩
    rw [hspan hr, hx.start, hx.finish]
  · obtain ⟨entry, hentry, hr⟩ := forall₂_mem_right hrecorded hrecord
    have hord := hlaid.ordered hentry
    rw [hr.span, SourceSpan.finish, hlength]
    show 8 + header.length + entry.start + (entry.finish - entry.start) ≤ _
    omega
  · have hpieces := hlaid.chained.flatMap_pieces data fun entry hentry => (hlaid.ordered hentry).1
    rw [List.drop_zero, Nat.sub_zero, List.take_length] at hpieces
    rw [← hpieces, List.flatMap_def, List.flatMap_def]
    exact congrArg List.flatten (forall₂_map_eq (hrecorded.imp fun _ _ => hspan))

/-! ### Acceptance -/

/-- A file is its own header and data section, where its length allows. -/
theorem container_layout (hlength : ¬bytes.length < 8)
    (hbase : ¬8 + leNat (bytes.take 8) > bytes.length) :
    ((bytes.drop 8).take (leNat (bytes.take 8))).length = leNat (bytes.take 8) ∧
      bytes = leBytes 8 (leNat (bytes.take 8)) ++ ((bytes.drop 8).take (leNat (bytes.take 8)) ++
        bytes.drop (8 + leNat (bytes.take 8))) := by
  have htake : (bytes.take 8).length = 8 := by
    rw [List.length_take]
    omega
  refine ⟨by rw [List.length_take, List.length_drop]; omega, ?_⟩
  have hword := leBytes_leNat (bytes.take 8)
  rw [htake] at hword
  rw [hword, ← List.drop_drop, List.take_append_drop, List.take_append_drop]

/-- A file has one header, one data section and one table. -/
theorem Container.unique {header' data' : List UInt8} {raw' : RawHeader}
    (h : Container reader maxMetadataBytes limits bytes header data raw)
    (hfits : bytes.length < u64Size)
    (h' : Container reader maxMetadataBytes limits bytes header' data' raw') :
    header = header' ∧ data = data' ∧ raw = raw' := by
  obtain ⟨hword, hheader, hdata, _⟩ := container_parts h.layout hfits
  obtain ⟨hword', hheader', hdata', _⟩ := container_parts h'.layout hfits
  have hlength : header.length = header'.length := hword.symm.trans hword'
  have heq : header = header' := by rw [← hheader, ← hheader', hlength]
  subst heq
  refine ⟨rfl, hdata.symm.trans hdata', ?_⟩
  have hread : Safetensors.readHeader _ ⟨false⟩ (reader.document header) = .ok raw :=
    (Safetensors.readHeader_eq_ok rfl).mpr h.describes
  exact Except.ok.inj (hread.symm.trans ((Safetensors.readHeader_eq_ok rfl).mpr h'.describes))

theorem parseSafetensorsHeader_eq_ok (hc : cancellation.cancelled = false) {file : OpenedFile} :
    parseSafetensorsHeader (parseHeaderJson reader maxMetadataBytes) limits cancellation file id =
        .ok records ↔
      ∃ header data raw, Container reader maxMetadataBytes limits file.bytes header data raw ∧
        Safetensors.validateTensorEntries limits.toResourceLimits cancellation id
          (8 + header.length) data.length raw = .ok records := by
  have hcheck : cancellation.check = .ok () := CancellationToken.check_eq_ok hc
  simp only [parseSafetensorsHeader, bind_eq_ok_iff, guard_eq_ok_iff, hcheck,
    Safetensors.parseHeaderJson_eq_ok hc, okOr_eq_ok, checkedAdd_eq_some, exists_const, true_and]
  constructor
  · rintro ⟨hsize, hlength, _, ⟨_, rfl⟩, hbase, raw, ⟨hobject, hdescribes, hended⟩, h⟩
    obtain ⟨hheader, hlayout⟩ := container_layout hsize hbase
    rw [not_or, Nat.not_lt] at hlength
    refine ⟨(file.bytes.drop 8).take (leNat (file.bytes.take 8)),
      file.bytes.drop (8 + leNat (file.bytes.take 8)), raw, ⟨?_, ?_, hobject, hdescribes, hended,
      ?_⟩, ?_⟩
    · rw [hheader]
      exact hlayout
    · rw [hheader]
      exact hlength.2
    · rw [List.length_drop]
      obtain ⟨entries, hlaid, _⟩ := Safetensors.validateTensorEntries_laid hc h
      exact hlaid.wellFormed
    · rw [hheader, List.length_drop]
      exact h
  · rintro ⟨header, data, raw, hfile, h⟩
    obtain ⟨hword, hheader, hdata, hlength⟩ := container_parts hfile.layout file.fits
    have hfits := file.fits
    have hnonempty : header.length ≠ 0 := by
      intro hnil
      have hobject := hfile.object
      rw [List.length_eq_zero_iff.mp hnil] at hobject
      cases hobject
    rw [hword, hheader]
    refine ⟨by omega, by rw [not_or, Nat.not_lt]; exact ⟨hnonempty, hfile.length⟩,
      8 + header.length, ⟨by omega, rfl⟩, by omega, raw,
      ⟨hfile.object, hfile.describes, hfile.ended⟩, ?_⟩
    rw [hlength, Nat.add_sub_cancel_left]
    exact h

/-- **Safetensors files.** A file is accepted exactly when it is a header and a data section,
the header describes tensors in any order of its members, and their spans tile the section.
Its records are then those tensors: their spans hold the bytes that the header assigns to
them, and together they are the data section. -/
theorem parseSafetensorsHeader_iff (hc : cancellation.cancelled = false) {file : OpenedFile} :
    ((∃ records, parseSafetensorsHeader (parseHeaderJson reader maxMetadataBytes) limits
        cancellation file id = .ok records) ↔
      ∃ header data raw, Container reader maxMetadataBytes limits file.bytes header data raw) ∧
    ∀ records header data raw, parseSafetensorsHeader (parseHeaderJson reader maxMetadataBytes)
        limits cancellation file id = .ok records →
      Container reader maxMetadataBytes limits file.bytes header data raw →
      RecordsOf file.bytes data id raw records := by
  refine ⟨⟨?_, ?_⟩, ?_⟩
  · rintro ⟨records, h⟩
    obtain ⟨header, data, raw, hfile, _⟩ := (parseSafetensorsHeader_eq_ok hc).mp h
    exact ⟨header, data, raw, hfile⟩
  · rintro ⟨header, data, raw, hfile⟩
    have hlength := (container_parts hfile.layout file.fits).2.2.2
    have hfits := file.fits
    obtain ⟨records, h⟩ : ∃ records, Safetensors.validateTensorEntries limits.toResourceLimits
        cancellation id (8 + header.length) data.length raw = .ok records :=
      Safetensors.validateTensorEntries_succeeds hc (by omega) hfile.wellFormed
    exact ⟨records, (parseSafetensorsHeader_eq_ok hc).mpr ⟨header, data, raw, hfile, h⟩⟩
  · intro records header data raw h hfile
    obtain ⟨header', data', raw', hfile', hrecords⟩ := (parseSafetensorsHeader_eq_ok hc).mp h
    obtain ⟨rfl, rfl, rfl⟩ := hfile.unique file.fits hfile'
    exact recordsOf_container hc hfile.layout file.fits hrecords

end Container

/-- A header with one tensor of two bytes behind its metadata. -/
def pairHeader : List UInt8 :=
  utf8 ("\x7b\"__metadata__\":\x7b\x7d,\"w\":\x7b\"shape\":[2],\"dtype\":\"U8\"," ++
    "\"data_offsets\":[0,2]\x7d\x7d")

def pairDocument : Json.Document :=
  .object [("__metadata__", .object [] true),
    ("w", .object [("shape", .array [.natural 2] true), ("dtype", .text "U8"),
      ("data_offsets", .array [.natural 0, .natural 2] true)] true)] true

def pairReader : JsonReader where
  document _ := pairDocument
  ended _ := true

def pairFile : OpenedFile where
  isFile := true
  bytes := leBytes 8 pairHeader.length ++ (pairHeader ++ [7, 9])
  fits := by decide +kernel

theorem parseSafetensorsHeader_pair :
    ∃ records, parseSafetensorsHeader (parseHeaderJson pairReader 16) ⟨⟨128, 4, 4, 16⟩, 1⟩ ⟨false⟩
        pairFile 0 = .ok records ∧
      records.flatMap (fun record => spanOf pairFile.bytes record.storage.span) = [7, 9] := by
  obtain ⟨hiff, hrecords⟩ := @parseSafetensorsHeader_iff pairReader 16 ⟨⟨128, 4, 4, 16⟩, 1⟩ ⟨false⟩ 0
    rfl pairFile
  have hok : (parseSafetensorsHeader (parseHeaderJson pairReader 16) ⟨⟨128, 4, 4, 16⟩, 1⟩ ⟨false⟩
    pairFile 0).isOk = true := by decide +kernel
  cases h : parseSafetensorsHeader (parseHeaderJson pairReader 16) ⟨⟨128, 4, 4, 16⟩, 1⟩ ⟨false⟩
      pairFile 0 with
  | error e => rw [h] at hok; cases hok
  | ok records =>
    obtain ⟨header, data, raw, hfile⟩ := hiff.mp ⟨records, h⟩
    obtain ⟨hword, _, hdata, _⟩ := container_parts hfile.layout pairFile.fits
    have hlength : header.length = pairHeader.length := hword.symm.trans (by decide +kernel)
    refine ⟨records, rfl, (hrecords records header data raw h hfile).contents.trans ?_⟩
    rw [← hdata, hlength]
    decide +kernel

end ModelWeights
