import ModelWeights.Gguf.Spans
import ModelWeights.Inventory.ShardIndex
import ModelWeights.Safetensors.Acceptance
import ModelWeights.Safetensors.Header

/-! # Opening a checkpoint

`CheckpointBuilder::open_with_cancellation` of `checkpoint.rs`: the sources are put
in the order of their paths, opened and parsed, and their tensors collected in one
inventory, which a shard index may describe. What the operating system answers and
the JSON of a safetensors header are parameters. -/
namespace ModelWeights
open Parsing Canonical
open Prepared (SourceKind AccessMode)
open Gguf (GgufMetadata)

/-! ## Sources -/

/-- A file that was opened, with the bytes it holds. -/
structure OpenedFile where
  isFile : Bool
  bytes : List UInt8
  fits : bytes.length < u64Size

/-- A source, with what opening its file answers. -/
structure SourceDescriptor where
  logicalPath : RepoPath
  expectedSize : Option Nat
  digestPolicy : DigestPolicy
  kind : SourceKind
  ggufExtension : Bool
  opened : Result OpenedFile

/-- `OpenFile`: a source that was opened as a file of a checkpoint. -/
structure OpenFile where
  source : SourceDescriptor
  id : FileId
  file : OpenedFile

/-- `OpenFile::open`. -/
def SourceDescriptor.openFile (source : SourceDescriptor) (id : FileId) : Result OpenFile := do
  let file ← source.opened
  if ¬file.isFile then .error (.invalid "checkpoint source is not a regular file")
  else if source.expectedSize.any fun expected => expected ≠ file.bytes.length then
    .error (.integrity "checkpoint source size differs from its declared size")
  else .ok ⟨source, id, file⟩

/-- `OpenFile::record`. -/
def OpenFile.record (file : OpenFile) : FileRecord :=
  ⟨file.id, file.source.logicalPath, file.file.bytes.length, file.source.kind,
    .ofPolicy file.source.digestPolicy⟩

inductive CheckpointFormat where
  | safetensors
  | gguf
  deriving DecidableEq, Repr

structure ParsedSource where
  format : CheckpointFormat
  ggufMetadata : Option GgufMetadata
  tensors : List TensorRecord

/-- `parse_header_json`. -/
abbrev HeaderParser := List UInt8 → Gguf.ResourceLimits → CancellationToken →
  Result Safetensors.RawHeader

section Open
variable (parseHeaderJson : HeaderParser) (limits : CheckpointLimits)
  (cancellation : CancellationToken)

def parseSafetensorsHeader (file : OpenedFile) (id : FileId) : Result (List TensorRecord) := do
  let size := file.bytes.length
  if size < 8 then .error (.invalid "safetensors source is shorter than its length prefix")
  else
    let headerLen := leNat (file.bytes.take 8)
    if headerLen = 0 ∨ headerLen > limits.maxHeaderBytes then
      .error (.limit "safetensors header length violates configured limits")
    else
      let dataBase ← okOr (checkedAdd 8 headerLen)
        (.limit "safetensors data offset overflows u64")
      if dataBase > size then
        .error (.invalid "safetensors header extends beyond the source file")
      else
        cancellation.check
        let raw ← parseHeaderJson ((file.bytes.drop 8).take headerLen) limits.toResourceLimits
          cancellation
        cancellation.check
        Safetensors.validateTensorEntries limits.toResourceLimits cancellation id dataBase
          (size - dataBase) raw

/-- `OpenFile::parse_source`. -/
def parseSource (source : SourceDescriptor) (file : OpenedFile) (id : FileId) :
    Result ParsedSource := do
  cancellation.check
  if file.bytes.length < 4 then .error (.invalid "checkpoint source is shorter than its magic")
  else if file.bytes.take 4 = Gguf.magic then
    let parsed ← Gguf.parse file.bytes file.fits id limits.toResourceLimits cancellation
    .ok ⟨.gguf, some parsed.metadata, parsed.tensors⟩
  else if source.ggufExtension then .error (.invalid "GGUF source has invalid magic")
  else
    let tensors ← parseSafetensorsHeader parseHeaderJson limits cancellation file id
    .ok ⟨.safetensors, none, tensors⟩

/-- A source as the file `id` of a checkpoint. -/
def openSource (id : FileId) (source : SourceDescriptor) : Result (OpenFile × ParsedSource) := do
  let file ← source.openFile id
  let parsed ← parseSource parseHeaderJson limits cancellation source file.file id
  .ok (file, parsed)

/-! ## The checkpoint -/

/-- What the loop over the sources has collected. -/
structure Gathered where
  format : Option CheckpointFormat
  openFiles : List OpenFile
  files : List FileRecord
  tensors : List TensorRecord
  ggufMetadata : List GgufMetadata

/-- One turn of the loop, for a source and its ordinal. -/
def gatherSource (gathered : Gathered) (source : SourceDescriptor × Nat) : Result Gathered := do
  cancellation.check
  if source.2 ≥ u32Size then .error (.limit "checkpoint source ordinal exceeds u32")
  else
    let opened ← openSource parseHeaderJson limits cancellation source.2 source.1
    if gathered.format.any fun current => current ≠ opened.2.format then
      .error (.invalid "checkpoint cannot mix Safetensors and GGUF sources")
    else
      let remaining ← okOr (checkedSub limits.maxTensors gathered.tensors.length)
        (.limit "checkpoint exceeds configured tensor count")
      if opened.2.tensors.length > remaining then
        .error (.limit "checkpoint exceeds the configured tensor count")
      else .ok {
        format := some opened.2.format
        openFiles := gathered.openFiles ++ [opened.1]
        files := gathered.files ++ [opened.1.record]
        tensors := gathered.tensors ++ opened.2.tensors
        ggufMetadata := gathered.ggufMetadata ++ opened.2.ggufMetadata.toList }

/-- The sources in the order of their paths. -/
def sortSources (access : AccessMode) (sources : List SourceDescriptor) :
    Result (List SourceDescriptor) := do
  cancellation.check
  if sources.isEmpty then .error (.invalid "checkpoint must contain at least one source")
  else if sources.length > limits.maxShards then
    .error (.limit "checkpoint exceeds the configured shard count")
  else if access = .mmap ∧ sources.any fun source => source.kind ≠ .retainedSnapshot then
    .error (.unsupported "mapped access requires retained immutable snapshot sources")
  else
    let sources := insertionKeySort.sort SourceDescriptor.logicalPath sources
    if hasAdjacentDuplicate (sources.map SourceDescriptor.logicalPath) then
      .error (.invalid "checkpoint contains duplicate logical source paths")
    else .ok sources

/-- The part of opening before the inventory. -/
def gatherSources (access : AccessMode) (sources : List SourceDescriptor) : Result Gathered := do
  let sources ← sortSources limits cancellation access sources
  let gathered ← sources.zipIdx.foldlM (gatherSource parseHeaderJson limits cancellation)
    ⟨none, [], [], [], []⟩
  cancellation.check
  .ok gathered

structure CheckpointInner where
  inventory : Inventory
  files : List OpenFile
  access : AccessMode
  format : CheckpointFormat
  ggufMetadata : List GgufMetadata

def checkShardIndex (index : Option ShardIndex) (format : Option CheckpointFormat)
    (inventory : Inventory) : Result Unit :=
  match index with
  | none => .ok ()
  | some index =>
    if format = some .gguf then
      .error (.invalid "a Safetensors shard index cannot describe a GGUF checkpoint")
    else validateShardIndex index inventory cancellation

def openWithCancellation (index : Option ShardIndex) (access : AccessMode)
    (sources : List SourceDescriptor) : Result CheckpointInner := do
  let gathered ← gatherSources parseHeaderJson limits cancellation access sources
  let inventory ← Inventory.new gathered.files gathered.tensors
  checkShardIndex cancellation index gathered.format inventory
  cancellation.check
  .ok {
    inventory
    files := gathered.openFiles
    access
    format := gathered.format.getD .safetensors
    ggufMetadata := gathered.ggufMetadata }

/-! ## What a checkpoint holds -/

/-- A tensor of this name is in the source, as whatever file it is opened. -/
def SourceDescriptor.Holds (source : SourceDescriptor) (name : String) : Prop :=
  ∃ (id : FileId) (opened : OpenFile × ParsedSource),
    openSource parseHeaderJson limits cancellation id source = .ok opened ∧
      ∃ tensor ∈ opened.2.tensors, tensor.name = name

/-- The map of the index is the map from the names of the tensors to the paths of
the sources that hold them. -/
def ShardIndex.Describes (index : ShardIndex) (sources : List SourceDescriptor) : Prop :=
  ∀ (name : String) (path : RepoPath), index.weightMap.get? name = some path ↔
    ∃ source ∈ sources, source.logicalPath = path ∧
      source.Holds parseHeaderJson limits cancellation name

/-- What the loop has collected after the first `count` sources. -/
structure GatheredTo (sources : List SourceDescriptor) (count : Nat) (gathered : Gathered) :
    Prop where
  records : gathered.files = gathered.openFiles.map OpenFile.record
  paths : gathered.files.map FileRecord.path =
    (sources.take count).map SourceDescriptor.logicalPath
  opened : ∀ (i : Nat) (source : SourceDescriptor), i < count → sources[i]? = some source →
    ∃ opened, openSource parseHeaderJson limits cancellation i source = .ok opened ∧
      gathered.openFiles[i]? = some opened.1 ∧
      ∀ tensor ∈ opened.2.tensors, tensor ∈ gathered.tensors
  tensors : ∀ tensor ∈ gathered.tensors, ∃ source,
    sources[tensor.storage.span.file]? = some source ∧
      ∃ opened, openSource parseHeaderJson limits cancellation tensor.storage.span.file source =
        .ok opened ∧ tensor ∈ opened.2.tensors

end Open

section Sources
variable {parseHeaderJson : HeaderParser} {limits : CheckpointLimits}
  {cancellation : CancellationToken} {source : SourceDescriptor}

theorem parseSafetensorsHeader_ok {file : OpenedFile} {id : FileId} {records : List TensorRecord}
    (h : parseSafetensorsHeader parseHeaderJson limits cancellation file id = .ok records) :
    ∃ raw, parseHeaderJson ((file.bytes.drop 8).take (leNat (file.bytes.take 8)))
        limits.toResourceLimits cancellation = .ok raw ∧
      (records.map TensorRecord.name).Perm (raw.tensors.entries.map Prod.fst) ∧
      ∀ record ∈ records, record.storage.span.file = id := by
  obtain ⟨_, h⟩ := unless_error_ok h
  obtain ⟨_, h⟩ := unless_error_ok h
  obtain ⟨_, _, h⟩ := bind_ok h
  obtain ⟨_, h⟩ := unless_error_ok h
  obtain ⟨_, _, h⟩ := bind_ok h
  obtain ⟨raw, hraw, h⟩ := bind_ok h
  obtain ⟨_, _, h⟩ := bind_ok h
  exact ⟨raw, hraw, Safetensors.validateTensorEntries_names h⟩

/-- The two formats of a source. -/
theorem parseSource_ok {file : OpenedFile} {id : FileId} {parsed : ParsedSource}
    (h : parseSource parseHeaderJson limits cancellation source file id = .ok parsed) :
    (file.bytes.take 4 = Gguf.magic ∧ ∃ container,
      Gguf.parse file.bytes file.fits id limits.toResourceLimits cancellation = .ok container ∧
        parsed.tensors = container.tensors) ∨
    (file.bytes.take 4 ≠ Gguf.magic ∧
      parseSafetensorsHeader parseHeaderJson limits cancellation file id = .ok parsed.tensors) := by
  obtain ⟨_, _, h⟩ := bind_ok h
  obtain ⟨_, h⟩ := unless_error_ok h
  by_cases hmagic : file.bytes.take 4 = Gguf.magic
  · rw [if_pos hmagic] at h
    obtain ⟨container, hc, h⟩ := bind_ok h
    obtain rfl := Except.ok.inj h
    exact .inl ⟨hmagic, container, hc, rfl⟩
  · rw [if_neg hmagic] at h
    obtain ⟨_, h⟩ := unless_error_ok h
    obtain ⟨records, hr, h⟩ := bind_ok h
    obtain rfl := Except.ok.inj h
    exact .inr ⟨hmagic, hr⟩

/-- The tensors lie in the file that is parsed. -/
theorem parseSource_file {file : OpenedFile} {id : FileId} {parsed : ParsedSource}
    (h : parseSource parseHeaderJson limits cancellation source file id = .ok parsed) :
    ∀ tensor ∈ parsed.tensors, tensor.storage.span.file = id := by
  rcases parseSource_ok h with ⟨_, container, hc, htensors⟩ | ⟨_, hr⟩
  · obtain ⟨_, _, _, _, hfile⟩ := Gguf.parse_names hc
    rwa [htensors]
  · obtain ⟨_, _, _, hfile⟩ := parseSafetensorsHeader_ok hr
    exact hfile

/-- Their names do not depend on its identifier. -/
theorem parseSource_names {file : OpenedFile} {id id' : FileId} {parsed parsed' : ParsedSource}
    (h : parseSource parseHeaderJson limits cancellation source file id = .ok parsed)
    (h' : parseSource parseHeaderJson limits cancellation source file id' = .ok parsed') :
    (parsed.tensors.map TensorRecord.name).Perm (parsed'.tensors.map TensorRecord.name) := by
  rcases parseSource_ok h with ⟨hmagic, container, hc, htensors⟩ | ⟨hmagic, hr⟩
  · rcases parseSource_ok h' with ⟨_, container', hc', htensors'⟩ | ⟨hmagic', _⟩
    · obtain ⟨_, _, hheader, hnames, _⟩ := Gguf.parse_names hc
      obtain ⟨_, _, hheader', hnames', _⟩ := Gguf.parse_names hc'
      rw [hheader] at hheader'
      cases hheader'
      rw [htensors, htensors', hnames, hnames']
    · exact absurd hmagic hmagic'
  · rcases parseSource_ok h' with ⟨hmagic', _⟩ | ⟨_, hr'⟩
    · exact absurd hmagic' hmagic
    · obtain ⟨_, hraw, hnames, _⟩ := parseSafetensorsHeader_ok hr
      obtain ⟨_, hraw', hnames', _⟩ := parseSafetensorsHeader_ok hr'
      rw [hraw] at hraw'
      cases hraw'
      exact hnames.trans hnames'.symm

theorem openFile_ok {id : FileId} {file : OpenFile} (h : source.openFile id = .ok file) :
    ∃ held, source.opened = .ok held ∧ file = ⟨source, id, held⟩ := by
  obtain ⟨held, hheld, h⟩ := bind_ok h
  obtain ⟨_, h⟩ := unless_error_ok h
  obtain ⟨_, h⟩ := unless_error_ok h
  exact ⟨held, hheld, (Except.ok.inj h).symm⟩

theorem openSource_ok {id : FileId} {opened : OpenFile × ParsedSource}
    (h : openSource parseHeaderJson limits cancellation id source = .ok opened) :
    (∃ held, source.opened = .ok held ∧ opened.1 = ⟨source, id, held⟩) ∧
      ∀ tensor ∈ opened.2.tensors, tensor.storage.span.file = id := by
  obtain ⟨file, hfile, h⟩ := bind_ok h
  obtain ⟨parsed, hparsed, h⟩ := bind_ok h
  obtain rfl := Except.ok.inj h
  exact ⟨openFile_ok hfile, parseSource_file hparsed⟩

/-- A source that is opened holds the names of its tensors. -/
theorem openSource_holds {id : FileId} {opened : OpenFile × ParsedSource} {name : String}
    (h : openSource parseHeaderJson limits cancellation id source = .ok opened) :
    source.Holds parseHeaderJson limits cancellation name ↔
      ∃ tensor ∈ opened.2.tensors, tensor.name = name := by
  refine ⟨?_, fun hname => ⟨id, opened, h, hname⟩⟩
  rintro ⟨id', opened', h', tensor, htensor, hname⟩
  obtain ⟨file, hfile, h⟩ := bind_ok h
  obtain ⟨parsed, hparsed, h⟩ := bind_ok h
  obtain rfl := Except.ok.inj h
  obtain ⟨file', hfile', h'⟩ := bind_ok h'
  obtain ⟨parsed', hparsed', h'⟩ := bind_ok h'
  obtain rfl := Except.ok.inj h'
  obtain ⟨held, hheld, rfl⟩ := openFile_ok hfile
  obtain ⟨held', hheld', rfl⟩ := openFile_ok hfile'
  obtain rfl := Except.ok.inj (hheld.symm.trans hheld')
  have hmem := (parseSource_names hparsed hparsed').mem_iff.mpr (List.mem_map_of_mem htensor)
  obtain ⟨other, hother, heq⟩ := List.mem_map.mp hmem
  exact ⟨other, hother, heq.trans hname⟩

end Sources

section Gather
variable {parseHeaderJson : HeaderParser} {limits : CheckpointLimits}
  {cancellation : CancellationToken} {sources : List SourceDescriptor}

theorem GatheredTo.length {k : Nat} {gathered : Gathered}
    (h : GatheredTo parseHeaderJson limits cancellation sources k gathered)
    (hk : k ≤ sources.length) : gathered.openFiles.length = k := by
  have hpaths := congrArg List.length h.paths
  rwa [h.records, List.length_map, List.length_map, List.length_map, List.length_take,
    Nat.min_eq_left hk] at hpaths

theorem GatheredTo.step {k : Nat} {source : SourceDescriptor} {gathered gathered' : Gathered}
    (h : GatheredTo parseHeaderJson limits cancellation sources k gathered)
    (hk : sources[k]? = some source)
    (hstep : gatherSource parseHeaderJson limits cancellation gathered (source, k) =
      .ok gathered') :
    GatheredTo parseHeaderJson limits cancellation sources (k + 1) gathered' := by
  obtain ⟨_, _, hstep⟩ := bind_ok hstep
  obtain ⟨_, hstep⟩ := unless_error_ok hstep
  obtain ⟨opened, hopened, hstep⟩ := bind_ok hstep
  obtain ⟨_, hstep⟩ := unless_error_ok hstep
  obtain ⟨_, _, hstep⟩ := bind_ok hstep
  obtain ⟨_, hstep⟩ := unless_error_ok hstep
  obtain rfl := Except.ok.inj hstep
  obtain ⟨⟨_, _, hof⟩, hfile⟩ := openSource_ok hopened
  constructor
  · show gathered.files ++ [opened.1.record] =
      (gathered.openFiles ++ [opened.1]).map OpenFile.record
    rw [List.map_append, h.records]
    rfl
  · show (gathered.files ++ [opened.1.record]).map FileRecord.path = _
    rw [List.take_add_one, hk, List.map_append, h.paths, List.map_append, List.map_singleton, hof]
    rfl
  · intro i other hi hother
    rcases Nat.lt_succ_iff_lt_or_eq.mp hi with hi | rfl
    · obtain ⟨before, hbefore, hheld, htensors⟩ := h.opened i other hi hother
      refine ⟨before, hbefore, ?_, fun tensor ht => List.mem_append_left _ (htensors tensor ht)⟩
      exact (List.getElem?_append_left (List.getElem?_eq_some_iff.mp hheld).1).trans hheld
    · rw [hk] at hother
      cases hother
      refine ⟨opened, hopened, ?_, fun tensor ht => List.mem_append_right _ ht⟩
      rw [← h.length (Nat.le_of_lt (List.getElem?_eq_some_iff.mp hk).1)]
      exact List.getElem?_concat_length
  · intro tensor htensor
    rcases List.mem_append.mp htensor with ht | ht
    · exact h.tensors tensor ht
    · rw [hfile tensor ht]
      exact ⟨source, hk, opened, hopened, ht⟩

theorem sortSources_ok {access : AccessMode} {sorted : List SourceDescriptor}
    (h : sortSources limits cancellation access sources = .ok sorted) :
    sorted = insertionKeySort.sort SourceDescriptor.logicalPath sources := by
  obtain ⟨_, _, h⟩ := bind_ok h
  obtain ⟨_, h⟩ := unless_error_ok h
  obtain ⟨_, h⟩ := unless_error_ok h
  obtain ⟨_, h⟩ := unless_error_ok h
  obtain ⟨_, h⟩ := unless_error_ok h
  exact (Except.ok.inj h).symm

/-- The loop over the sources in the order of their paths. -/
theorem gatherSources_fold {access : AccessMode} {gathered : Gathered}
    (h : gatherSources parseHeaderJson limits cancellation access sources = .ok gathered) :
    (insertionKeySort.sort SourceDescriptor.logicalPath sources).zipIdx.foldlM
      (gatherSource parseHeaderJson limits cancellation) ⟨none, [], [], [], []⟩ = .ok gathered := by
  obtain ⟨sorted, hsort, h⟩ := bind_ok h
  obtain ⟨gathered', hfold, h⟩ := bind_ok h
  obtain ⟨_, _, h⟩ := bind_ok h
  obtain rfl := Except.ok.inj h
  rwa [sortSources_ok hsort] at hfold

/-- What holds of every state of the loop, by the number of sources it has passed. -/
theorem gathered_invariant {sorted : List SourceDescriptor} {gathered : Gathered}
    (P : Nat → Gathered → Prop) (hstart : P 0 ⟨none, [], [], [], []⟩)
    (hstep : ∀ k source before after, sorted[k]? = some source → P k before →
      gatherSource parseHeaderJson limits cancellation before (source, k) = .ok after →
        P (k + 1) after)
    (hfold : sorted.zipIdx.foldlM (gatherSource parseHeaderJson limits cancellation)
      ⟨none, [], [], [], []⟩ = .ok gathered) : P sorted.length gathered := by
  rw [← List.length_zipIdx (l := sorted) (i := 0)]
  refine foldlM_ok P hstart ?_ hfold
  intro k entry before after hk hbefore hafter
  rw [List.getElem?_zipIdx, Option.map_eq_some_iff] at hk
  obtain ⟨source, hsource, rfl⟩ := hk
  rw [Nat.zero_add] at hafter
  exact hstep k source before after hsource hbefore hafter

/-- **The collected records.** They are those of the sources in the order of their
paths, opened as the files of these ordinals. -/
theorem gatherSources_ok {access : AccessMode} {gathered : Gathered}
    (h : gatherSources parseHeaderJson limits cancellation access sources = .ok gathered) :
    GatheredTo parseHeaderJson limits cancellation
      (insertionKeySort.sort SourceDescriptor.logicalPath sources)
      (insertionKeySort.sort SourceDescriptor.logicalPath sources).length gathered := by
  refine gathered_invariant (GatheredTo parseHeaderJson limits cancellation _) ?_
    (fun _ _ _ _ hk hbefore hstep => hbefore.step hk hstep) (gatherSources_fold h)
  exact ⟨rfl, rfl, fun _ _ hi => absurd hi (Nat.not_lt_zero _), nofun⟩

/-- A token that let the loop pass has not been cancelled. -/
theorem gatherSources_live {access : AccessMode} {gathered : Gathered}
    (h : gatherSources parseHeaderJson limits cancellation access sources = .ok gathered) :
    cancellation.cancelled = false := by
  obtain ⟨_, hsort, _⟩ := bind_ok h
  obtain ⟨_, hcheck, _⟩ := bind_ok hsort
  exact CancellationToken.check_ok hcheck

/-- The shard of a tensor is the source that holds its name. -/
theorem shardOf_eq_some {access : AccessMode} {gathered : Gathered} {inventory : Inventory}
    (h : gatherSources parseHeaderJson limits cancellation access sources = .ok gathered)
    (hnew : Inventory.new gathered.files gathered.tensors = .ok inventory) {name : String}
    {path : RepoPath} :
    (∃ tensor ∈ inventory.tensors, tensor.name = name ∧ inventory.shardOf tensor = some path) ↔
      ∃ source ∈ sources, source.logicalPath = path ∧
        source.Holds parseHeaderJson limits cancellation name := by
  have hgathered := gatherSources_ok h
  have hperm := insertionKeySort.perm SourceDescriptor.logicalPath sources
  generalize insertionKeySort.sort SourceDescriptor.logicalPath sources = sorted
    at hgathered hperm
  obtain ⟨hfiles, htensors⟩ := Inventory.new_ok hnew
  have hpath : ∀ i : Nat, inventory.files[i]?.map FileRecord.path =
      sorted[i]?.map SourceDescriptor.logicalPath := by
    intro i
    rw [hfiles, ← List.getElem?_map, hgathered.paths, List.take_length, List.getElem?_map]
  constructor
  · rintro ⟨tensor, htensor, hname, hshard⟩
    obtain ⟨source, hsource, opened, hopened, hmem⟩ :=
      hgathered.tensors tensor (htensors.mem_iff.mp htensor)
    refine ⟨source, hperm.mem_iff.mp (List.mem_of_getElem? hsource), ?_,
      (openSource_holds hopened).mpr ⟨tensor, hmem, hname⟩⟩
    rw [Inventory.shardOf, hpath, hsource] at hshard
    exact Option.some.inj hshard
  · rintro ⟨source, hsource, hlogical, hholds⟩
    obtain ⟨i, hi, rfl⟩ := List.mem_iff_getElem.mp (hperm.mem_iff.mpr hsource)
    obtain ⟨opened, hopened, _, hmem⟩ := hgathered.opened i _ hi (List.getElem?_eq_getElem hi)
    obtain ⟨tensor, htensor, hname⟩ := (openSource_holds hopened).mp hholds
    refine ⟨tensor, htensors.mem_iff.mpr (hmem tensor htensor), hname, ?_⟩
    rw [Inventory.shardOf, hpath, (openSource_ok hopened).2 tensor htensor,
      List.getElem?_eq_getElem hi, Option.map_some, hlogical]

/-- The order of the sources does not matter to their sort. -/
theorem sortSources_perm {access : AccessMode} {sources' : List SourceDescriptor}
    (h : sources.Perm sources') :
    sortSources limits cancellation access sources =
      sortSources limits cancellation access sources' := by
  have hempty : sources.isEmpty = sources'.isEmpty := h.isEmpty_eq
  have hsorted := insertionKeySort.sorted SourceDescriptor.logicalPath
  have hpaths : (insertionKeySort.sort SourceDescriptor.logicalPath sources).map
        SourceDescriptor.logicalPath =
      (insertionKeySort.sort SourceDescriptor.logicalPath sources').map
        SourceDescriptor.logicalPath := by
    have hperm := (insertionKeySort.perm SourceDescriptor.logicalPath sources).trans
      (h.trans (insertionKeySort.perm SourceDescriptor.logicalPath sources').symm)
    exact (hperm.map _).eq_of_pairwise (fun _ _ _ _ hab hba => le_antisymm hab hba)
      (List.pairwise_map.mpr (hsorted sources)) (List.pairwise_map.mpr (hsorted sources'))
  unfold sortSources
  dsimp only
  rw [hempty, h.length_eq, h.any_eq, hpaths]
  by_cases hdup : hasAdjacentDuplicate ((insertionKeySort.sort SourceDescriptor.logicalPath
    sources').map SourceDescriptor.logicalPath) = true
  · simp only [if_pos hdup]
  · -- distinct paths have one order
    rw [Bool.not_eq_true,
      hasAdjacentDuplicate_eq_false (List.pairwise_map.mpr (hsorted sources'))] at hdup
    have hnodup : (sources.map SourceDescriptor.logicalPath).Nodup :=
      (((insertionKeySort.perm _ sources').trans h.symm).map _).nodup_iff.mp hdup
    rw [insertionKeySort.eq_of_perm insertionKeySort h hnodup]

theorem openWithCancellation_perm {index : Option ShardIndex} {access : AccessMode}
    {sources' : List SourceDescriptor} (h : sources.Perm sources') :
    openWithCancellation parseHeaderJson limits cancellation index access sources =
      openWithCancellation parseHeaderJson limits cancellation index access sources' := by
  unfold openWithCancellation gatherSources
  rw [sortSources_perm h]

theorem openWithCancellation_ok {index : Option ShardIndex} {access : AccessMode}
    {inner : CheckpointInner}
    (h : openWithCancellation parseHeaderJson limits cancellation index access sources =
      .ok inner) :
    ∃ gathered,
      gatherSources parseHeaderJson limits cancellation access sources = .ok gathered ∧
      Inventory.new gathered.files gathered.tensors = .ok inner.inventory ∧
      checkShardIndex cancellation index gathered.format inner.inventory = .ok () ∧
      inner.files = gathered.openFiles := by
  obtain ⟨gathered, hgathered, h⟩ := bind_ok h
  obtain ⟨inventory, hnew, h⟩ := bind_ok h
  obtain ⟨_, hindex, h⟩ := bind_ok h
  obtain ⟨_, _, h⟩ := bind_ok h
  obtain rfl := Except.ok.inj h
  exact ⟨gathered, hgathered, hnew, hindex, rfl⟩

/-- **The files of an opened checkpoint.** They are its sources in the order of their paths,
each opened as the file of that ordinal, and the inventory has their records. -/
theorem files_of_open {index : Option ShardIndex} {access : AccessMode} {inner : CheckpointInner}
    (h : openWithCancellation parseHeaderJson limits cancellation index access sources =
      .ok inner) :
    inner.inventory.files = inner.files.map OpenFile.record ∧
      inner.files.length = sources.length ∧
      ∀ (i : Nat) (source : SourceDescriptor),
        (insertionKeySort.sort SourceDescriptor.logicalPath sources)[i]? = some source →
          ∃ file, source.opened = .ok file ∧ inner.files[i]? = some ⟨source, i, file⟩ := by
  obtain ⟨gathered, hgather, hnew, _, hfiles⟩ := openWithCancellation_ok h
  have hgathered := gatherSources_ok hgather
  rw [hfiles]
  refine ⟨(Inventory.new_ok hnew).1.trans hgathered.records, ?_, fun i source hi => ?_⟩
  · rw [hgathered.length (Nat.le_refl _), (insertionKeySort.perm _ sources).length_eq]
  · obtain ⟨opened, hopened, hheld, _⟩ :=
      hgathered.opened i source (List.getElem?_eq_some_iff.mp hi).1 hi
    obtain ⟨⟨file, hfile, hof⟩, _⟩ := openSource_ok hopened
    exact ⟨file, hfile, hof ▸ hheld⟩

theorem openWithCancellation_eq_ok {index : Option ShardIndex} {access : AccessMode}
    {gathered : Gathered} {inventory : Inventory}
    (h : gatherSources parseHeaderJson limits cancellation access sources = .ok gathered)
    (hnew : Inventory.new gathered.files gathered.tensors = .ok inventory) :
    (∃ inner, openWithCancellation parseHeaderJson limits cancellation index access sources =
      .ok inner) ↔ checkShardIndex cancellation index gathered.format inventory = .ok () := by
  constructor
  · rintro ⟨inner, hopen⟩
    obtain ⟨gathered', h', hnew', hindex, _⟩ := openWithCancellation_ok hopen
    rw [h] at h'
    cases h'
    rw [hnew] at hnew'
    cases hnew'
    exact hindex
  · intro hindex
    unfold openWithCancellation
    rw [h, CancellationToken.check_eq_ok (gatherSources_live h)]
    simp only [bind, Except.bind, hnew, hindex]
    exact ⟨_, rfl⟩

theorem checkShardIndex_eq_ok {index : ShardIndex} {format : Option CheckpointFormat}
    {inventory : Inventory} :
    checkShardIndex cancellation (some index) format inventory = .ok () ↔
      format ≠ some .gguf ∧ validateShardIndex index inventory cancellation = .ok () := by
  unfold checkShardIndex
  constructor
  · exact unless_error_ok
  · rintro ⟨hformat, h⟩
    exact (if_neg hformat).trans h

end Gather

/-- **Sharded checkpoints.** The index that opening accepts maps the names of the
tensors, and nothing else, to the paths of the sources that hold them. On records
that the inventory accepts, the check of the index passes exactly then, and so does
opening unless the sources are GGUF containers, which no index describes. The
result does not depend on the order of the sources, and the lookup finds the names
that they hold. -/
theorem openWithCancellation_describes (parseHeaderJson : HeaderParser)
    (limits : CheckpointLimits) (cancellation : CancellationToken) (access : AccessMode)
    (index : ShardIndex) (sources : List SourceDescriptor) :
    (∀ inner, openWithCancellation parseHeaderJson limits cancellation (some index) access sources =
        .ok inner → index.Describes parseHeaderJson limits cancellation sources) ∧
    (∀ gathered inventory,
      gatherSources parseHeaderJson limits cancellation access sources = .ok gathered →
      Inventory.new gathered.files gathered.tensors = .ok inventory →
        (validateShardIndex index inventory cancellation = .ok () ↔
          index.Describes parseHeaderJson limits cancellation sources) ∧
        ((∃ inner, openWithCancellation parseHeaderJson limits cancellation (some index) access
            sources = .ok inner) ↔ gathered.format ≠ some .gguf ∧
          index.Describes parseHeaderJson limits cancellation sources)) ∧
    (∀ (sources' : List SourceDescriptor) (shards : Option ShardIndex), sources.Perm sources' →
      openWithCancellation parseHeaderJson limits cancellation shards access sources =
        openWithCancellation parseHeaderJson limits cancellation shards access sources') ∧
    (∀ (inner : CheckpointInner) (shards : Option ShardIndex),
      openWithCancellation parseHeaderJson limits cancellation shards access sources = .ok inner →
      ∀ name : String,
        (∀ tensor, inner.inventory.tensor name = some tensor ↔
          tensor ∈ inner.inventory.tensors ∧ tensor.name = name) ∧
        ((inner.inventory.tensor name).isSome = true ↔
          ∃ source ∈ sources, source.Holds parseHeaderJson limits cancellation name)) := by
  have hvalidate : ∀ gathered inventory,
      gatherSources parseHeaderJson limits cancellation access sources = .ok gathered →
      Inventory.new gathered.files gathered.tensors = .ok inventory →
        (validateShardIndex index inventory cancellation = .ok () ↔
          index.Describes parseHeaderJson limits cancellation sources) := by
    intro gathered inventory h hnew
    rw [validateShardIndex_eq_ok (gatherSources_live h), ShardIndex.Describes]
    simp only [shardOf_eq_some h hnew]
  refine ⟨?_, ?_, fun _ _ h => openWithCancellation_perm h, ?_⟩
  · intro inner hopen
    obtain ⟨gathered, h, hnew, hindex, _⟩ := openWithCancellation_ok hopen
    exact (hvalidate gathered _ h hnew).mp (checkShardIndex_eq_ok.mp hindex).2
  · intro gathered inventory h hnew
    refine ⟨hvalidate gathered inventory h hnew, ?_⟩
    rw [openWithCancellation_eq_ok h hnew, checkShardIndex_eq_ok, hvalidate gathered inventory h hnew]
  · intro inner shards hopen name
    obtain ⟨gathered, h, hnew, _⟩ := openWithCancellation_ok hopen
    refine ⟨fun tensor => Inventory.tensor_eq_some, ?_⟩
    rw [Option.isSome_iff_exists]
    simp only [Inventory.tensor_eq_some]
    constructor
    · rintro ⟨tensor, hmem, hname⟩
      obtain ⟨file, hfile⟩ := inner.inventory.file_of_mem hmem
      have hshard : inner.inventory.shardOf tensor = some file.path := by
        rw [Inventory.shardOf, hfile, Option.map_some]
      obtain ⟨source, hsource, _, hholds⟩ :=
        (shardOf_eq_some h hnew).mp ⟨tensor, hmem, hname, hshard⟩
      exact ⟨source, hsource, hholds⟩
    · rintro ⟨source, hsource, hholds⟩
      obtain ⟨tensor, hmem, hname, _⟩ :=
        (shardOf_eq_some h hnew).mpr ⟨source, hsource, rfl, hholds⟩
      exact ⟨tensor, hmem, hname⟩

/-! ## Two shards -/

/-- The header of a shard with one tensor of two bytes. -/
def shardHeader (name : String) : List UInt8 :=
  utf8 ("\x7b\"" ++ name ++ "\":\x7b\"dtype\":\"U8\",\"shape\":[2],\"data_offsets\":[0,2]\x7d\x7d")

def shardDocument (name : String) : Json.Document :=
  .object [(name, .object [("dtype", .text "U8"), ("shape", .array [.natural 2] true),
    ("data_offsets", .array [.natural 0, .natural 2] true)] true)] true

/-- A reader that knows the headers of two shards. -/
def shardReader : Safetensors.JsonReader where
  document bytes := if bytes = shardHeader "bias" then shardDocument "bias"
    else if bytes = shardHeader "gate" then shardDocument "gate" else .broken
  ended _ := true

def shardBytes (name : String) : List UInt8 :=
  leBytes 8 (shardHeader name).length ++ (shardHeader name ++ [2, 3])

def biasFile : OpenedFile := ⟨true, shardBytes "bias", by decide +kernel⟩

def gateFile : OpenedFile := ⟨true, shardBytes "gate", by decide +kernel⟩

def shardSource (path : RepoPath) (file : OpenedFile) : SourceDescriptor where
  logicalPath := path
  expectedSize := some file.bytes.length
  digestPolicy := .computeOnDemand
  kind := .local
  ggufExtension := false
  opened := .ok file

theorem biasPath_safe : safeRepoPath "a.safetensors" = true := by decide +kernel

theorem gatePath_safe : safeRepoPath "shards/b.safetensors" = true := by decide +kernel

def biasPath : RepoPath := ⟨_, biasPath_safe⟩

def gatePath : RepoPath := ⟨_, gatePath_safe⟩

def biasShard : SourceDescriptor := shardSource biasPath biasFile

def gateShard : SourceDescriptor := shardSource gatePath gateFile

def shardParser : HeaderParser := Safetensors.parseHeaderJson shardReader 16

def shardIndex : ShardIndex := ⟨⟨[("bias", biasPath), ("gate", gatePath)], by decide +kernel⟩⟩

theorem openWithCancellation_describes_shards :
    ∃ inner, openWithCancellation shardParser ⟨⟨64, 4, 4, 16⟩, 2⟩ ⟨false⟩ (some shardIndex) .auto
        [gateShard, biasShard] = .ok inner ∧
      shardIndex.Describes shardParser ⟨⟨64, 4, 4, 16⟩, 2⟩ ⟨false⟩ [gateShard, biasShard] ∧
      openWithCancellation shardParser ⟨⟨64, 4, 4, 16⟩, 2⟩ ⟨false⟩ (some shardIndex) .auto
        [biasShard, gateShard] = .ok inner := by
  obtain ⟨hdescribes, _, hperm, _⟩ := openWithCancellation_describes shardParser
    ⟨⟨64, 4, 4, 16⟩, 2⟩ ⟨false⟩ .auto shardIndex [gateShard, biasShard]
  have hok : (openWithCancellation shardParser ⟨⟨64, 4, 4, 16⟩, 2⟩ ⟨false⟩ (some shardIndex) .auto
      [gateShard, biasShard]).isOk = true := by
    decide +kernel
  cases h : openWithCancellation shardParser ⟨⟨64, 4, 4, 16⟩, 2⟩ ⟨false⟩ (some shardIndex) .auto
    [gateShard, biasShard] with
  | error e => rw [h] at hok; cases hok
  | ok inner =>
    refine ⟨inner, rfl, hdescribes inner h, ?_⟩
    rw [← hperm [biasShard, gateShard] _ (List.Perm.swap _ _ _)]
    exact h

end ModelWeights
