import ModelWeights.Inventory.Container
import ModelWeights.Prepared.Served

/-! # Reading tensors by name

`Checkpoint::tensor_with_cancellation` of `checkpoint.rs` on a checkpoint that was opened.
Reading a name returns the bytes that the header of a source assigns to it, with the shape
and the dtype that the header gives, whatever way the span is read. -/
namespace ModelWeights
open Canonical
open ModelWeights.Graph (ByteView)
open Prepared (CheckpointFile spanOf)
open Safetensors (RawHeader RawTensor JsonReader parseHeaderJson)

/-! ## Tensors -/

inductive TensorData where
  | plain (name : String) (dtype : DType) (shape : List Nat) (bytes : ByteView)
  | quantized (name : String) (storage : Storage) (shape : List Nat) (bytes : ByteView)

namespace TensorData

def name : TensorData → String
  | .plain name _ _ _ => name
  | .quantized name _ _ _ => name

def shape : TensorData → List Nat
  | .plain _ _ shape _ => shape
  | .quantized _ _ shape _ => shape

def bytes : TensorData → ByteView
  | .plain _ _ _ bytes => bytes
  | .quantized _ _ _ bytes => bytes

end TensorData

/-- The data of a record. -/
def TensorRecord.data (record : TensorRecord) (bytes : ByteView) : TensorData :=
  match record.storage with
  | .plain dtype _ => .plain record.name dtype record.shape bytes
  | .quantized _ => .quantized record.name record.storage record.shape bytes

/-- What the system answers when an open file is read or mapped. -/
structure FileAnswers where
  readAt : Nat → Nat → Result (List UInt8)
  atMost : ∀ offset length bytes, readAt offset length = .ok bytes → bytes.length ≤ length
  mapping : Result (List UInt8)

def OpenFile.reading (file : OpenFile) (answers : FileAnswers) : CheckpointFile where
  id := file.id
  size := file.file.bytes.length
  kind := file.source.kind
  readAt := answers.readAt
  atMost := answers.atMost
  mapping := answers.mapping

namespace CheckpointInner
variable (inner : CheckpointInner) (answers : FileId → FileAnswers)

/-- The checkpoint as it is read. -/
def checkpoint : Prepared.Checkpoint where
  files := inner.files.map fun file => file.reading (answers file.id)
  access := inner.access

/-- `Checkpoint::tensor_with_cancellation`. -/
def tensor (name : String) (cancellation : CancellationToken) : Result TensorData := do
  let record ← okOr (inner.inventory.tensor name)
    (.binding "checkpoint tensor name was not found")
  let bytes ← (inner.checkpoint answers).readSpan record.storage.span cancellation
  .ok (record.data bytes)

/-- The files hold what they held when they were opened. -/
def Backed : Prop :=
  ∀ file ∈ inner.files, (file.reading (answers file.id)).Serves file.file.bytes

end CheckpointInner

@[simp] theorem TensorRecord.data_name (record : TensorRecord) (bytes : ByteView) :
    (record.data bytes).name = record.name := by
  unfold TensorRecord.data
  split <;> rfl

@[simp] theorem TensorRecord.data_shape (record : TensorRecord) (bytes : ByteView) :
    (record.data bytes).shape = record.shape := by
  unfold TensorRecord.data
  split <;> rfl

@[simp] theorem TensorRecord.data_bytes (record : TensorRecord) (bytes : ByteView) :
    (record.data bytes).bytes = bytes := by
  unfold TensorRecord.data
  split <;> rfl

/-! ## What the headers say -/

/-- The data has the dtype of a header. -/
def TensorData.HasDtype (data : TensorData) (dtype : Safetensors.HeaderDtype) : Prop :=
  match data with
  | .plain _ stored _ _ => dtype = .plain stored
  | .quantized _ storage shape _ => dtype.intoStorage shape storage.span = .ok storage

/-- The data is the tensor of a header over a data section. -/
structure TensorData.Is (out : TensorData) (name : String) (tensor : RawTensor)
    (data : List UInt8) : Prop where
  name : out.name = name
  shape : out.shape = tensor.shape
  dtype : ∃ dtype, Safetensors.parseDtype tensor.dtype = .ok dtype ∧ out.HasDtype dtype
  bytes : out.bytes.bytes =
    (data.drop tensor.dataOffsets.1).take (tensor.dataOffsets.2 - tensor.dataOffsets.1)

theorem Safetensors.RawTensor.RecordedAs.is {tensor : RawTensor} {bytes data : List UInt8}
    {record : TensorRecord} (h : tensor.RecordedAs bytes data record) {view : ByteView}
    (hview : view.bytes = spanOf bytes record.storage.span) :
    (record.data view).Is record.name tensor data := by
  refine ⟨record.data_name view, (record.data_shape view).trans h.shape, ?_, ?_⟩
  · obtain ⟨dtype, hdtype, hstorage⟩ := h.storage
    refine ⟨dtype, hdtype, ?_⟩
    unfold TensorRecord.data
    cases hkind : record.storage with
    | plain plain span =>
      cases dtype with
      | plain dtype =>
        rw [hkind] at hstorage
        cases hstorage
        rfl
      | quantized operation v b =>
        rw [hkind] at hstorage
        obtain ⟨_, _, hstorage⟩ := bind_ok hstorage
        obtain ⟨_, _, hstorage⟩ := bind_ok hstorage
        obtain ⟨_, _, hstorage⟩ := bind_ok hstorage
        obtain ⟨_, _, hstorage⟩ := bind_ok hstorage
        cases hstorage
    | quantized storage =>
      rw [hkind] at hstorage
      show dtype.intoStorage record.shape _ = _
      rw [h.shape]
      exact hstorage
  · rw [record.data_bytes, hview]
    exact h.bytes

/-! ## Opened sources -/

/-- The sources in the order of their files. -/
def inOrder (sources : List SourceDescriptor) : List SourceDescriptor :=
  insertionKeySort.sort SourceDescriptor.logicalPath sources

section Opened
variable {reader : JsonReader} {maxMetadataBytes : Nat} {limits : CheckpointLimits}
  {cancellation : CancellationToken} {access : Prepared.AccessMode}
  {sources : List SourceDescriptor} {gathered : Gathered}

/-- Every source that was passed has the format that was found. -/
theorem gathered_format {parseHeaderJson : HeaderParser} {sorted : List SourceDescriptor}
    (hfold : sorted.zipIdx.foldlM (gatherSource parseHeaderJson limits cancellation)
      ⟨none, [], [], [], []⟩ = .ok gathered) :
    ∀ i source opened, sorted[i]? = some source →
      openSource parseHeaderJson limits cancellation i source = .ok opened →
        gathered.format = some opened.2.format := by
  have hformat : ∀ i source opened, i < sorted.length → sorted[i]? = some source →
      openSource parseHeaderJson limits cancellation i source = .ok opened →
        gathered.format = some opened.2.format := by
    refine gathered_invariant (fun k gathered => ∀ i source opened, i < k →
      sorted[i]? = some source →
      openSource parseHeaderJson limits cancellation i source = .ok opened →
        gathered.format = some opened.2.format) ?_ ?_ hfold
    · exact fun _ _ _ hi => absurd hi (Nat.not_lt_zero _)
    · intro k source before after hk hbefore hstep i other opened hi hother hopen
      obtain ⟨_, _, hstep⟩ := bind_ok hstep
      obtain ⟨_, hstep⟩ := unless_error_ok hstep
      obtain ⟨last, hlast, hstep⟩ := bind_ok hstep
      obtain ⟨hsame, hstep⟩ := unless_error_ok hstep
      obtain ⟨_, _, hstep⟩ := bind_ok hstep
      obtain ⟨_, hstep⟩ := unless_error_ok hstep
      obtain rfl := Except.ok.inj hstep
      rcases Nat.lt_succ_iff_lt_or_eq.mp hi with hi | rfl
      · rw [hbefore i other opened hi hother hopen, Option.any_some, decide_eq_true_eq,
          not_not] at hsame
        exact congrArg some hsame.symm
      · rw [hk] at hother
        cases hother
        rw [hopen] at hlast
        cases hlast
        rfl
  intro i source opened hi
  exact hformat i source opened (List.getElem?_eq_some_iff.mp hi).1 hi

/-- A safetensors source is a container, and its records are the container's. -/
theorem openSource_container (hc : cancellation.cancelled = false) {id : FileId}
    {source : SourceDescriptor} {opened : OpenFile × ParsedSource} {file : OpenedFile}
    (hfile : source.opened = .ok file)
    (h : openSource (parseHeaderJson reader maxMetadataBytes) limits cancellation id source =
      .ok opened) (hformat : opened.2.format = .safetensors) :
    ∃ header data raw, Container reader maxMetadataBytes limits file.bytes header data raw ∧
      RecordsOf file.bytes data id raw opened.2.tensors := by
  obtain ⟨file', hopen, h⟩ := bind_ok h
  obtain ⟨parsed, hparsed, h⟩ := bind_ok h
  obtain rfl := Except.ok.inj h
  obtain ⟨held, hheld, rfl⟩ := openFile_ok hopen
  obtain rfl := Except.ok.inj (hfile.symm.trans hheld)
  obtain ⟨_, _, hparsed⟩ := bind_ok hparsed
  obtain ⟨_, hparsed⟩ := unless_error_ok hparsed
  by_cases hmagic : file.bytes.take 4 = Gguf.magic
  · rw [if_pos hmagic] at hparsed
    obtain ⟨container, _, hparsed⟩ := bind_ok hparsed
    obtain rfl := Except.ok.inj hparsed
    cases hformat
  · rw [if_neg hmagic] at hparsed
    obtain ⟨_, hparsed⟩ := unless_error_ok hparsed
    obtain ⟨records, hrecords, hparsed⟩ := bind_ok hparsed
    obtain rfl := Except.ok.inj hparsed
    obtain ⟨header, data, raw, hcontainer, hvalid⟩ :=
      (parseSafetensorsHeader_eq_ok hc).mp hrecords
    exact ⟨header, data, raw, hcontainer,
      recordsOf_container hc hcontainer.layout file.fits hvalid⟩

/-! ## Reading by name -/

variable {index : Option ShardIndex} {inner : CheckpointInner} {answers : FileId → FileAnswers}

/-- The source at a place was opened as the file of that ordinal. -/
theorem open_source
    (hopen : openWithCancellation (parseHeaderJson reader maxMetadataBytes) limits cancellation
      index access sources = .ok inner) (hformat : inner.format = .safetensors)
    {i : Nat} {source : SourceDescriptor} {file : OpenedFile}
    (hi : (inOrder sources)[i]? = some source) (hfile : source.opened = .ok file) :
    ∃ header data raw records,
      Container reader maxMetadataBytes limits file.bytes header data raw ∧
      RecordsOf file.bytes data i raw records ∧
      (∀ record ∈ records, record ∈ inner.inventory.tensors) ∧
      ∀ record ∈ inner.inventory.tensors, record.storage.span.file = i → record ∈ records := by
  obtain ⟨gathered, hgather, hopen⟩ := bind_ok hopen
  obtain ⟨inventory, hnew, hopen⟩ := bind_ok hopen
  obtain ⟨_, _, hopen⟩ := bind_ok hopen
  obtain ⟨_, _, hopen⟩ := bind_ok hopen
  obtain rfl := Except.ok.inj hopen
  obtain ⟨_, hperm⟩ := Inventory.new_ok hnew
  have hgathered := gatherSources_ok hgather
  obtain ⟨opened, hsource, _, hmem⟩ := hgathered.opened i source
    (List.getElem?_eq_some_iff.mp hi).1 hi
  have hfound := gathered_format (gatherSources_fold hgather) i source opened hi hsource
  have hsafe : opened.2.format = .safetensors := by
    have hgiven : gathered.format.getD .safetensors = .safetensors := hformat
    rwa [hfound] at hgiven
  obtain ⟨header, data, raw, hcontainer, hrecords⟩ :=
    openSource_container (gatherSources_live hgather) hfile hsource hsafe
  refine ⟨header, data, raw, opened.2.tensors, hcontainer, hrecords,
    fun record hrecord => hperm.mem_iff.mpr (hmem record hrecord), fun record hrecord hspan => ?_⟩
  obtain ⟨other, hother, opened', hopened', hin⟩ :=
    hgathered.tensors record (hperm.mem_iff.mp hrecord)
  rw [hspan] at hother hopened'
  obtain rfl := Option.some.inj (hi.symm.trans hother)
  obtain rfl := Except.ok.inj (hsource.symm.trans hopened')
  exact hin

theorem open_access {parse : HeaderParser}
    (hopen : openWithCancellation parse limits cancellation index access sources = .ok inner) :
    inner.access = access := by
  obtain ⟨gathered, _, hopen⟩ := bind_ok hopen
  obtain ⟨inventory, _, hopen⟩ := bind_ok hopen
  obtain ⟨_, _, hopen⟩ := bind_ok hopen
  obtain ⟨_, _, hopen⟩ := bind_ok hopen
  obtain rfl := Except.ok.inj hopen
  rfl

/-- Every record lies in the file of a source that was opened. -/
theorem open_record {parse : HeaderParser}
    (hopen : openWithCancellation parse limits cancellation index access sources = .ok inner)
    {record : TensorRecord} (hrecord : record ∈ inner.inventory.tensors) :
    ∃ source file, (inOrder sources)[record.storage.span.file]? = some source ∧
      source.opened = .ok file := by
  obtain ⟨gathered, hgather, hnew, _⟩ := openWithCancellation_ok hopen
  obtain ⟨_, hperm⟩ := Inventory.new_ok hnew
  obtain ⟨source, hsource, opened, hopened, _⟩ :=
    (gatherSources_ok hgather).tensors record (hperm.mem_iff.mp hrecord)
  obtain ⟨⟨file, hfile, _⟩, _⟩ := openSource_ok hopened
  exact ⟨source, file, hsource, hfile⟩

/-- A span within an opened file is read from that file. -/
theorem CheckpointInner.Backed.readSpan (hfiles : inner.Backed answers) {span : SourceSpan}
    {file : OpenFile} (hi : inner.files[span.file]? = some file) (hid : file.id = span.file)
    (hfinish : span.finish ≤ file.file.bytes.length) {token : CancellationToken} :
    (∀ view, (inner.checkpoint answers).readSpan span token = .ok view →
      view.bytes = spanOf file.file.bytes span) ∧
    (token.cancelled = false → inner.access ≠ .mmap →
      (∀ file ∈ (inner.checkpoint answers).files, file.Answers) →
      ∃ view, (inner.checkpoint answers).readSpan span token = .ok view) := by
  have hstored : (inner.checkpoint answers).files[span.file]? =
      some (file.reading (answers file.id)) := by
    show (inner.files.map _)[span.file]? = _
    rw [List.getElem?_map, hi]
    rfl
  have hserves := hfiles file (List.mem_of_getElem? hi)
  constructor
  · intro view hview
    obtain ⟨_, _, hview⟩ := bind_ok hview
    obtain ⟨other, hother, hview⟩ := bind_ok hview
    obtain ⟨read, hread, hview⟩ := bind_ok hview
    obtain ⟨_, _, hview⟩ := bind_ok hview
    obtain rfl := Except.ok.inj hview
    obtain rfl := Option.some.inj (hstored.symm.trans (okOr_eq_ok.mp hother))
    exact hserves.readSpan hread
  · intro hc haccess hanswers
    have hanswer := hanswers _ (List.mem_of_getElem? hstored)
    obtain ⟨view, hview⟩ := hanswer.readSpan hserves hc hid.symm hfinish haccess
    have hcheck : token.check = .ok () := CancellationToken.check_eq_ok hc
    refine ⟨view, ?_⟩
    simp only [Prepared.Checkpoint.readSpan, bind_eq_ok_iff, okOr_eq_ok, hcheck, exists_const,
      true_and]
    exact ⟨_, hstored, view, hview, rfl⟩

/-- The record of a name is read from the file of its source. -/
theorem tensor_of_record (hfiles : inner.Backed answers) {record : TensorRecord}
    (hrecord : record ∈ inner.inventory.tensors) {file : OpenFile}
    (hi : inner.files[record.storage.span.file]? = some file)
    (hid : file.id = record.storage.span.file)
    (hfinish : record.storage.span.finish ≤ file.file.bytes.length) {token : CancellationToken} :
    (∀ out, inner.tensor answers record.name token = .ok out →
      ∃ view, view.bytes = spanOf file.file.bytes record.storage.span ∧ out = record.data view) ∧
    (token.cancelled = false → inner.access ≠ .mmap →
      (∀ file ∈ (inner.checkpoint answers).files, file.Answers) →
      ∃ out, inner.tensor answers record.name token = .ok out) := by
  have hlookup : inner.inventory.tensor record.name = some record :=
    Inventory.tensor_eq_some.mpr ⟨hrecord, rfl⟩
  obtain ⟨hread, hreads⟩ := @CheckpointInner.Backed.readSpan _ _ hfiles _ _ hi hid hfinish token
  constructor
  · intro out hout
    obtain ⟨found, hfound, hout⟩ := bind_ok hout
    obtain ⟨view, hview, hout⟩ := bind_ok hout
    obtain rfl := Except.ok.inj hout
    obtain rfl := Option.some.inj (hlookup.symm.trans (okOr_eq_ok.mp hfound))
    exact ⟨view, hread view hview, rfl⟩
  · intro hc haccess hanswers
    obtain ⟨view, hview⟩ := hreads hc haccess hanswers
    refine ⟨record.data view, ?_⟩
    simp only [CheckpointInner.tensor, bind_eq_ok_iff, okOr_eq_ok]
    exact ⟨record, hlookup, view, hview, rfl⟩

/-- The header of a source assigns the tensor to the name, over its data section. -/
def Assigned (reader : JsonReader) (maxMetadataBytes : Nat) (limits : CheckpointLimits)
    (sources : List SourceDescriptor) (name : String) (tensor : RawTensor) (data : List UInt8) :
    Prop :=
  ∃ source ∈ sources, ∃ (file : OpenedFile) (header : List UInt8) (raw : RawHeader),
    source.opened = .ok file ∧
      Container reader maxMetadataBytes limits file.bytes header data raw ∧
      raw.tensors.get? name = some tensor

theorem mem_inOrder {source : SourceDescriptor} :
    source ∈ sources ↔ ∃ i : Nat, (inOrder sources)[i]? = some source := by
  rw [← List.mem_iff_getElem?, inOrder, (insertionKeySort.perm _ sources).mem_iff]

/-- **Reading by name.** Every source of an opened safetensors checkpoint is a header and a
data section. A name is read exactly when a header assigns a tensor to it: what is returned
has the shape and dtype of the header and the bytes that the header assigns to it, whether
they are copied or mapped, and reading fails only if the token is cancelled, the files fail
or they may only be mapped. -/
theorem tensor_of_header
    (hopen : openWithCancellation (parseHeaderJson reader maxMetadataBytes) limits cancellation
      index access sources = .ok inner) (hformat : inner.format = .safetensors)
    (hfiles : inner.Backed answers) (token : CancellationToken) :
    (∀ source ∈ sources, ∀ file, source.opened = .ok file → ∃ header data raw,
      Container reader maxMetadataBytes limits file.bytes header data raw) ∧
    (∀ name tensor data, Assigned reader maxMetadataBytes limits sources name tensor data →
      (∀ out, inner.tensor answers name token = .ok out → out.Is name tensor data) ∧
      (token.cancelled = false → access ≠ .mmap →
        (∀ file ∈ (inner.checkpoint answers).files, file.Answers) →
        ∃ out, inner.tensor answers name token = .ok out)) ∧
    ∀ name out, inner.tensor answers name token = .ok out →
      ∃ tensor data, Assigned reader maxMetadataBytes limits sources name tensor data ∧
        out.Is name tensor data := by
  have haccess := open_access hopen
  refine ⟨fun source hsource file hfile => ?_, ?_, ?_⟩
  · obtain ⟨i, hi⟩ := mem_inOrder.mp hsource
    obtain ⟨header, data, raw, _, hcontainer, _⟩ := open_source hopen hformat hi hfile
    exact ⟨header, data, raw, hcontainer⟩
  · rintro name tensor data ⟨source, hsource, file, header, raw, hfile, hcontainer, hget⟩
    obtain ⟨i, hi⟩ := mem_inOrder.mp hsource
    obtain ⟨_, _, _, records, hsame, hrecords, hheld, _⟩ := open_source hopen hformat hi hfile
    obtain ⟨rfl, rfl, rfl⟩ := hcontainer.unique file.fits hsame
    obtain ⟨record, hrecord, rfl, hrecorded⟩ := hrecords.tensors name tensor hget
    obtain ⟨rfl, hfinish⟩ := hrecords.within record hrecord
    obtain ⟨held, hopened, hstored⟩ := (files_of_open hopen).2.2 _ source hi
    obtain rfl := Except.ok.inj (hfile.symm.trans hopened)
    obtain ⟨hread, hreads⟩ := @tensor_of_record inner _ hfiles record (hheld record hrecord) _
      hstored rfl hfinish token
    refine ⟨fun out hout => ?_, haccess ▸ hreads⟩
    obtain ⟨view, hview, rfl⟩ := hread out hout
    exact hrecorded.is hview
  · intro name out hout
    obtain ⟨record, hlookup, _⟩ := bind_ok hout
    obtain ⟨hrecord, rfl⟩ := Inventory.tensor_eq_some.mp (okOr_eq_ok.mp hlookup)
    obtain ⟨source, file, hi, hfile⟩ := open_record hopen hrecord
    obtain ⟨header, data, raw, records, hcontainer, hrecords, hheld, honly⟩ :=
      open_source hopen hformat hi hfile
    have hmem := honly record hrecord rfl
    obtain ⟨⟨name, tensor⟩, hentry, hname⟩ := List.mem_map.mp
      (hrecords.names.mem_iff.mp (List.mem_map_of_mem hmem))
    obtain rfl : name = record.name := hname
    have hget := OrderedMap.get?_eq_some.mpr hentry
    obtain ⟨other, hother, hsame, hrecorded⟩ := hrecords.tensors record.name tensor hget
    obtain rfl := List.inj_on_of_nodup_map inner.inventory.names_nodup (hheld other hother)
      hrecord hsame
    obtain ⟨held, hopened, hstored⟩ := (files_of_open hopen).2.2 _ source hi
    obtain rfl := Except.ok.inj (hfile.symm.trans hopened)
    obtain ⟨hread, _⟩ := @tensor_of_record inner _ hfiles other hrecord _ hstored rfl
      (hrecords.within other hmem).2 token
    obtain ⟨view, hview, rfl⟩ := hread out hout
    exact ⟨tensor, data, ⟨source, mem_inOrder.mpr ⟨_, hi⟩, file, header, raw, hfile, hcontainer,
      hget⟩, hrecorded.is hview⟩

end Opened

/-! ## One file -/

def pairSource : SourceDescriptor where
  logicalPath := biasPath
  expectedSize := none
  digestPolicy := .computeOnDemand
  kind := .local
  ggufExtension := false
  opened := .ok pairFile

/-- A file of these bytes, read byte by byte and without a mapping. -/
def byteAnswers (bytes : List UInt8) : FileAnswers where
  readAt offset length := .ok ((bytes.drop offset).take (min length 1))
  atMost offset length answer h := by
    obtain rfl := Except.ok.inj h
    rw [List.length_take]
    omega
  mapping := .error (.unsupported "mapped access requires a retained immutable snapshot")

theorem byteAnswers_serves (file : OpenFile) :
    (file.reading (byteAnswers file.file.bytes)).Serves file.file.bytes where
  size := rfl
  fits := file.file.fits
  reads _ _ _ h := Except.ok.inj h ▸ List.take_prefix ..
  mapping _ h := by cases h

theorem byteAnswers_answers (file : OpenFile) :
    (file.reading (byteAnswers file.file.bytes)).Answers where
  reads offset length hlength hsize := by
    refine ⟨_, rfl, List.ne_nil_of_length_pos ?_⟩
    have hrange : offset + length ≤ file.file.bytes.length := hsize
    rw [List.length_take, List.length_drop]
    omega
  mapping e h := by
    obtain rfl := Except.error.inj h
    exact .inr rfl

/-- A checkpoint of one source has one file. -/
theorem files_of_one {parse : HeaderParser} {limits : CheckpointLimits}
    {cancellation : CancellationToken} {index : Option ShardIndex} {access : Prepared.AccessMode}
    {source : SourceDescriptor} {file : OpenedFile} {inner : CheckpointInner}
    (hopen : openWithCancellation parse limits cancellation index access [source] = .ok inner)
    (hfile : source.opened = .ok file) : inner.files = [⟨source, 0, file⟩] := by
  obtain ⟨_, hlength, heach⟩ := files_of_open hopen
  obtain ⟨only, honly⟩ := List.length_eq_one_iff.mp hlength
  obtain ⟨held, hheld, hzero⟩ := heach 0 source rfl
  obtain rfl := Except.ok.inj (hfile.symm.trans hheld)
  rw [honly] at hzero ⊢
  rw [← Option.some.inj hzero]

theorem tensor_of_header_pair :
    ∃ inner out, openWithCancellation (parseHeaderJson pairReader 16) ⟨⟨128, 4, 4, 16⟩, 1⟩ ⟨false⟩
        none .auto [pairSource] = .ok inner ∧
      inner.tensor (fun _ => byteAnswers pairFile.bytes) "w" ⟨false⟩ = .ok out ∧
      out.bytes.bytes = [7, 9] := by
  have hformat : ((openWithCancellation (parseHeaderJson pairReader 16) ⟨⟨128, 4, 4, 16⟩, 1⟩
      ⟨false⟩ none .auto [pairSource]).toOption.map CheckpointInner.format) =
        some .safetensors := by decide +kernel
  cases hopen : openWithCancellation (parseHeaderJson pairReader 16) ⟨⟨128, 4, 4, 16⟩, 1⟩ ⟨false⟩
      none .auto [pairSource] with
  | error e => rw [hopen] at hformat; cases hformat
  | ok inner =>
    rw [hopen] at hformat
    have hone := files_of_one hopen rfl
    have hbacked : inner.Backed fun _ => byteAnswers pairFile.bytes := by
      intro file hfile
      rw [hone] at hfile
      obtain rfl := List.mem_singleton.mp hfile
      exact byteAnswers_serves _
    obtain ⟨hfiles, hread, _⟩ := tensor_of_header hopen (Option.some.inj hformat) hbacked ⟨false⟩
    obtain ⟨header, data, raw, hfile⟩ := hfiles pairSource (List.mem_singleton_self _) pairFile rfl
    obtain ⟨hword, _, hdata, _⟩ := container_parts hfile.layout pairFile.fits
    have hlength : header.length = pairHeader.length := hword.symm.trans (by decide +kernel)
    have hparsed : Safetensors.readHeader ⟨⟨128, 4, 4, 16⟩, 16⟩ ⟨false⟩
        pairDocument = .ok raw := (Safetensors.readHeader_eq_ok rfl).mpr
      hfile.describes
    have hget : (Safetensors.readHeader ⟨⟨128, 4, 4, 16⟩, 16⟩ ⟨false⟩
        pairDocument).toOption.bind (fun raw => raw.tensors.get? "w") =
          some ⟨"U8", [2], (0, 2)⟩ := by decide +kernel
    rw [hparsed] at hget
    obtain ⟨hout, hsucceeds⟩ := hread "w" ⟨"U8", [2], (0, 2)⟩ data
      ⟨pairSource, List.mem_singleton_self _, pairFile, header, raw, rfl, hfile, hget⟩
    obtain ⟨out, ho⟩ := hsucceeds rfl nofun fun file hmem => by
      rw [CheckpointInner.checkpoint, hone] at hmem
      rw [List.mem_singleton.mp hmem]
      exact byteAnswers_answers ⟨pairSource, 0, pairFile⟩
    refine ⟨inner, out, rfl, ho, (hout out ho).bytes.trans ?_⟩
    rw [← hdata, hlength]
    decide +kernel

end ModelWeights
