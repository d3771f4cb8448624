import ModelWeights.Inventory.IndexText
import ModelWeights.Inventory.MetadataFile
import ModelWeights.Inventory.Reading

/-! # Sharded checkpoints

`CheckpointBuilder::from_local_index_with_limits_and_cancellation` of `checkpoint.rs`: the
text of an index is read, and the shards that it lists are looked up below its directory.
An index and its shards are accepted together exactly when the text lists what the headers
hold. -/
namespace ModelWeights
open Canonical Parsing
open Safetensors (RawHeader RawTensor JsonReader parseHeaderJson)

/-! ## Directories -/

/-- Files by their paths, with the names that the platform gives to components. The
canonical path of a file has no links. -/
structure FileTree (Name : Type) where
  name : String → Name
  text : Name → Option String
  canonicalize : List Name → Option (List Name)
  metadataFile : List Name → MetadataFile
  opened : List Name → Result OpenedFile

/-- The extension of a file name: what follows its last dot, unless that begins it. -/
def extension (name : String) : Option String :=
  let chars := name.toList
  let stem := chars.reverse.dropWhile (· ≠ '.')
  if stem.length ≤ 1 then none
  else some (String.ofList (chars.reverse.takeWhile (· ≠ '.')).reverse)

/-- `eq_ignore_ascii_case("gguf")` on the extension. -/
def hasGgufExtension (name : String) : Bool :=
  (extension name).any fun text => text.toList.map Char.toLower = "gguf".toList

/-- `repo_path_to_platform`. -/
def RepoPath.components (path : RepoPath) : List String :=
  (path.text.toList.splitOn '/').map String.ofList

def ShardIndex.shards (index : ShardIndex) : List RepoPath :=
  sortDedup (index.weightMap.entries.map Prod.snd)

structure CheckpointBuilder where
  sources : List SourceDescriptor
  shardIndex : Option ShardIndex
  limits : CheckpointLimits
  access : Prepared.AccessMode

section Builder
variable {Name : Type} [DecidableEq Name] (tree : FileTree Name)

/-- `SourceDescriptor::local`. -/
def SourceDescriptor.ofLocal (path : List Name) : Result SourceDescriptor := do
  let name ← okOr (path.getLast?.bind tree.text)
    ⟨.invalidPath, "local checkpoint path must have a UTF-8 file name"⟩
  let logicalPath ← RepoPath.parse name
  .ok {
    logicalPath
    expectedSize := none
    digestPolicy := .computeOnDemand
    kind := .local
    ggufExtension := hasGgufExtension name
    opened := tree.opened path }

/-- `SourceDescriptor::with_logical_path`, on a source without a retained file. -/
def SourceDescriptor.withLogicalPath (source : SourceDescriptor) (text : String) :
    Result SourceDescriptor := do
  let logicalPath ← RepoPath.parse text
  .ok { source with logicalPath }

/-- One turn of the loop over the shards. -/
def resolveShard (cancellation : CancellationToken) (root : List Name) (shard : RepoPath) :
    Result SourceDescriptor := do
  cancellation.check
  let path ← okOr (tree.canonicalize (root ++ shard.components.map tree.name))
    ⟨.io, "failed to canonicalize checkpoint shard"⟩
  if ¬root.isPrefixOf path then
    .error ⟨.invalidPath, "checkpoint shard resolves outside the index directory"⟩
  else
    let source ← SourceDescriptor.ofLocal tree path
    source.withLogicalPath shard.text

/-- `CheckpointBuilder::from_local_index_with_limits_and_cancellation`. -/
def CheckpointBuilder.fromLocalIndex (reader : JsonReader) (path : List Name)
    (limits : CheckpointLimits) (cancellation : CancellationToken) : Result CheckpointBuilder := do
  cancellation.check
  let bytes ← (tree.metadataFile path).readBounded cancellation limits.maxHeaderBytes
  cancellation.check
  let index ← ShardIndex.fromJson reader bytes limits cancellation
  cancellation.check
  -- a path of one component has the current directory for its parent
  let root ← okOr (tree.canonicalize path.dropLast)
    ⟨.io, "failed to canonicalize shard-index directory"⟩
  let sources ← index.shards.mapM (resolveShard tree cancellation root)
  .ok ⟨sources, some index, limits, .auto⟩

def CheckpointBuilder.accessMode (builder : CheckpointBuilder) (access : Prepared.AccessMode) :
    CheckpointBuilder := { builder with access }

def CheckpointBuilder.open (builder : CheckpointBuilder) (parse : HeaderParser)
    (cancellation : CancellationToken) : Result CheckpointInner :=
  openWithCancellation parse builder.limits cancellation builder.shardIndex builder.access
    builder.sources

/-- A shard below the directory, and the source that it becomes. -/
def ResolvedTo (root : List Name) (shard : RepoPath) (source : SourceDescriptor) : Prop :=
  ∃ (inside : List Name) (name : String),
    tree.canonicalize (root ++ shard.components.map tree.name) = some (root ++ inside) ∧
      (root ++ inside).getLast?.bind tree.text = some name ∧ safeRepoPath name = true ∧
      source = {
        logicalPath := shard
        expectedSize := none
        digestPolicy := .computeOnDemand
        kind := .local
        ggufExtension := hasGgufExtension name
        opened := tree.opened (root ++ inside) }

variable {tree} {cancellation : CancellationToken}

theorem resolveShard_eq_ok (hc : cancellation.cancelled = false) {root : List Name}
    {shard : RepoPath} {source : SourceDescriptor} :
    resolveShard tree cancellation root shard = .ok source ↔
      ResolvedTo tree root shard source := by
  have hcheck : cancellation.check = .ok () := CancellationToken.check_eq_ok hc
  simp only [resolveShard, SourceDescriptor.ofLocal, SourceDescriptor.withLogicalPath,
    bind_eq_ok_iff, guard_eq_ok_iff, okOr_eq_ok, RepoPath.parse_eq_ok, hcheck, exists_const,
    true_and, not_not, List.isPrefixOf_iff_prefix, Except.ok.injEq]
  constructor
  · rintro ⟨_, hpath, ⟨inside, rfl⟩, _, ⟨name, hname, logical, rfl, rfl⟩, shard', hshard, rfl⟩
    obtain rfl : shard' = shard := by
      obtain ⟨text, safe⟩ := shard'
      cases hshard
      rfl
    exact ⟨inside, logical.text, hpath, hname, logical.safe, rfl⟩
  · rintro ⟨inside, name, hpath, hname, hsafe, rfl⟩
    exact ⟨_, hpath, ⟨inside, rfl⟩, _, ⟨name, hname, ⟨name, hsafe⟩, rfl, rfl⟩, shard, rfl, rfl⟩

end Builder

/-! ## What an index lists -/

section Sharded
variable {reader : JsonReader} {maxMetadataBytes : Nat} {limits : CheckpointLimits}
  {cancellation : CancellationToken} {access : Prepared.AccessMode}
  {sources : List SourceDescriptor}

/-- The header of the source has a tensor of this name. -/
def SourceDescriptor.Assigns (reader : JsonReader) (maxMetadataBytes : Nat)
    (limits : CheckpointLimits) (source : SourceDescriptor) (name : String) : Prop :=
  ∃ (file : OpenedFile) (header data : List UInt8) (raw : RawHeader) (tensor : RawTensor),
    source.opened = .ok file ∧
      Container reader maxMetadataBytes limits file.bytes header data raw ∧
      raw.tensors.get? name = some tensor

/-- The index lists the names of the headers, each with the path of its source. -/
def Lists (reader : JsonReader) (maxMetadataBytes : Nat) (limits : CheckpointLimits)
    (entries : List (String × String)) (sources : List SourceDescriptor) : Prop :=
  ∀ name path, (name, path) ∈ entries ↔ ∃ source ∈ sources, source.logicalPath.text = path ∧
    source.Assigns reader maxMetadataBytes limits name

/-- The index maps the names of the headers to their sources, where the entries list them. -/
theorem describes_iff_lists {index : ShardIndex} {entries : List (String × String)}
    (hentries : ShardIndex.Holds index.weightMap entries)
    (hholds : ∀ source ∈ sources, ∀ name,
      source.Holds (parseHeaderJson reader maxMetadataBytes) limits cancellation name ↔
        source.Assigns reader maxMetadataBytes limits name) :
    index.Describes (parseHeaderJson reader maxMetadataBytes) limits cancellation sources ↔
      Lists reader maxMetadataBytes limits entries sources := by
  have hsource : ∀ name path, (∃ source ∈ sources, source.logicalPath = path ∧
      source.Holds (parseHeaderJson reader maxMetadataBytes) limits cancellation name) ↔
      ∃ source ∈ sources, source.logicalPath.text = path.text ∧
        source.Assigns reader maxMetadataBytes limits name := by
    intro name path
    refine exists_congr fun source => and_congr_right fun hmem =>
      and_congr ?_ (hholds source hmem name)
    refine ⟨congrArg RepoPath.text, fun heq => ?_⟩
    obtain ⟨text, safe⟩ := path
    generalize source.logicalPath = logical at heq
    obtain ⟨text', safe'⟩ := logical
    cases heq
    rfl
  constructor
  · intro h name text
    constructor
    · intro hmem
      obtain ⟨path, rfl⟩ := hentries.path_of_mem hmem
      exact (hsource name path).mp ((h name path).mp ((hentries.get name path).mpr hmem))
    · rintro ⟨source, hmem, rfl, hassigns⟩
      rw [← hentries.get]
      exact (h name _).mpr ((hsource name _).mpr ⟨source, hmem, rfl, hassigns⟩)
  · intro h name path
    rw [hentries.get, h, hsource]

/-- In a safetensors checkpoint a source holds the names that its header assigns. -/
theorem holds_iff_assigns {gathered : Gathered}
    (hgather : gatherSources (parseHeaderJson reader maxMetadataBytes) limits cancellation access
      sources = .ok gathered) (hformat : gathered.format ≠ some .gguf)
    {source : SourceDescriptor} (hsource : source ∈ sources) (name : String) :
    source.Holds (parseHeaderJson reader maxMetadataBytes) limits cancellation name ↔
      source.Assigns reader maxMetadataBytes limits name := by
  obtain ⟨i, hi⟩ := mem_inOrder.mp hsource
  obtain ⟨opened, hopened, _⟩ :=
    (gatherSources_ok hgather).opened i source (List.getElem?_eq_some_iff.mp hi).1 hi
  have hfound := gathered_format (gatherSources_fold hgather) i source opened hi hopened
  have hsafe : opened.2.format = .safetensors := by
    cases hkind : opened.2.format with
    | safetensors => rfl
    | gguf => exact absurd (hkind ▸ hfound) hformat
  obtain ⟨⟨file, hfile, _⟩, _⟩ := openSource_ok hopened
  obtain ⟨header, data, raw, hcontainer, hrecords⟩ :=
    openSource_container (gatherSources_live hgather) hfile hopened hsafe
  have hnames : (∃ tensor ∈ opened.2.tensors, tensor.name = name) ↔
      ∃ tensor, raw.tensors.get? name = some tensor := by
    simp only [OrderedMap.get?_eq_some]
    rw [← List.mem_map, hrecords.names.mem_iff, List.mem_map]
    simp only [Prod.exists, exists_and_right, exists_eq_right]
  rw [openSource_holds hopened, hnames]
  constructor
  · rintro ⟨tensor, htensor⟩
    exact ⟨file, header, data, raw, tensor, hfile, hcontainer, htensor⟩
  · rintro ⟨file', _, _, _, tensor, hfile', hcontainer', htensor⟩
    obtain rfl := Except.ok.inj (hfile.symm.trans hfile')
    obtain ⟨_, _, rfl⟩ := hcontainer.unique file.fits hcontainer'
    exact ⟨tensor, htensor⟩

/-- An index only checks: what is opened with it is what is opened without. -/
theorem open_with_index {index : ShardIndex} {inner : CheckpointInner} :
    openWithCancellation (parseHeaderJson reader maxMetadataBytes) limits cancellation (some index)
        access sources = .ok inner ↔
      openWithCancellation (parseHeaderJson reader maxMetadataBytes) limits cancellation none access
        sources = .ok inner ∧ inner.format = .safetensors ∧
      index.Describes (parseHeaderJson reader maxMetadataBytes) limits cancellation sources := by
  have hformat : ∀ gathered : Gathered, gathered.format.getD .safetensors = .safetensors ↔
      gathered.format ≠ some .gguf := by
    rintro ⟨format, _, _, _⟩
    rcases format with _ | _ | _ <;> simp
  have hcheck : ∀ gathered inventory, gatherSources (parseHeaderJson reader maxMetadataBytes)
      limits cancellation access sources = .ok gathered →
      Inventory.new gathered.files gathered.tensors = .ok inventory →
      (checkShardIndex cancellation (some index) gathered.format inventory = .ok () ↔
        gathered.format.getD .safetensors = .safetensors ∧
        index.Describes (parseHeaderJson reader maxMetadataBytes) limits cancellation sources) := by
    intro gathered inventory hgather hnew
    rw [checkShardIndex_eq_ok, validateShardIndex_eq_ok (gatherSources_live hgather), hformat,
      ShardIndex.Describes]
    simp only [shardOf_eq_some hgather hnew]
  simp only [openWithCancellation, bind_eq_ok_iff, Except.ok.injEq]
  constructor
  · rintro ⟨gathered, hgather, inventory, hnew, _, hindex, _, hlive, rfl⟩
    obtain ⟨hsafe, hdescribes⟩ := (hcheck gathered inventory hgather hnew).mp hindex
    exact ⟨⟨gathered, hgather, inventory, hnew, (), rfl, (), hlive, rfl⟩, hsafe, hdescribes⟩
  · rintro ⟨⟨gathered, hgather, inventory, hnew, _, _, _, hlive, rfl⟩, hsafe, hdescribes⟩
    exact ⟨gathered, hgather, inventory, hnew, (),
      (hcheck gathered inventory hgather hnew).mpr ⟨hsafe, hdescribes⟩, (), hlive, rfl⟩

end Sharded

/-! ## Local indexes -/

section Local
variable {Name : Type} [DecidableEq Name]

/-- The text is an index whose shards lie below its directory, and it lists what they
hold. -/
structure LocalIndex (tree : FileTree Name) (reader : JsonReader) (maxMetadataBytes : Nat)
    (path : List Name) (limits : CheckpointLimits) (text : List UInt8) (index : ShardIndex)
    (entries : List (String × String)) (sources : List SourceDescriptor) : Prop where
  length : text.length ≤ limits.maxHeaderBytes
  described : index.DescribedBy limits (reader.document text) entries
  ended : reader.ended text = true
  resolved : ∃ root, tree.canonicalize path.dropLast = some root ∧
    List.Forall₂ (ResolvedTo tree root) index.shards sources
  lists : Lists reader maxMetadataBytes limits entries sources

variable {tree : FileTree Name} {reader : JsonReader} {maxMetadataBytes : Nat} {path : List Name}
  {limits : CheckpointLimits} {cancellation : CancellationToken} {text : List UInt8}

theorem fromLocalIndex_eq_ok (hc : cancellation.cancelled = false)
    (htext : (tree.metadataFile path).Serves text) {builder : CheckpointBuilder} :
    CheckpointBuilder.fromLocalIndex tree reader path limits cancellation = .ok builder ↔
      ∃ (index : ShardIndex) (sources : List SourceDescriptor) (root : List Name),
        text.length ≤ limits.maxHeaderBytes ∧
        (∃ entries, index.DescribedBy limits (reader.document text) entries) ∧
        reader.ended text = true ∧ tree.canonicalize path.dropLast = some root ∧
        List.Forall₂ (ResolvedTo tree root) index.shards sources ∧
        builder = ⟨sources, some index, limits, .auto⟩ := by
  have hcheck : cancellation.check = .ok () := CancellationToken.check_eq_ok hc
  have hresolve : ∀ {root : List Name} {shards : List RepoPath} {sources : List SourceDescriptor},
      shards.mapM (resolveShard tree cancellation root) = .ok sources ↔
        List.Forall₂ (ResolvedTo tree root) shards sources := by
    intro root shards sources
    rw [mapM_eq_ok_iff]
    simp only [resolveShard_eq_ok hc]
  simp only [CheckpointBuilder.fromLocalIndex, bind_eq_ok_iff, hcheck,
    htext.readBounded_eq_ok hc, ShardIndex.fromJson_eq_ok hc, okOr_eq_ok, hresolve, exists_const,
    true_and, Except.ok.injEq]
  constructor
  · rintro ⟨_, ⟨hlength, rfl⟩, index, ⟨_, hdescribed, hended⟩, root, hroot, sources, hsources, rfl⟩
    exact ⟨index, sources, root, hlength, hdescribed, hended, hroot, hsources, rfl⟩
  · rintro ⟨index, sources, root, hlength, hdescribed, hended, hroot, hsources, rfl⟩
    exact ⟨text, ⟨hlength, rfl⟩, index, ⟨hlength, hdescribed, hended⟩, root, hroot, sources,
      hsources, rfl⟩

/-- **Sharded checkpoints.** An index and its shards are opened exactly when the text of the
index is an object within the limits with one map of names to paths, every path leads to a
file below the directory of the index, the shards are opened without it, and the map lists
the names of their headers, each with the path of its shard. What is opened is then what is
opened without the index. -/
theorem openLocalIndex_iff (hc : cancellation.cancelled = false)
    (htext : (tree.metadataFile path).Serves text) (access : Prepared.AccessMode)
    (inner : CheckpointInner) :
    (∃ builder, CheckpointBuilder.fromLocalIndex tree reader path limits cancellation =
        .ok builder ∧ (builder.accessMode access).open (parseHeaderJson reader maxMetadataBytes)
          cancellation = .ok inner) ↔
      ∃ index entries sources,
        LocalIndex tree reader maxMetadataBytes path limits text index entries sources ∧
        openWithCancellation (parseHeaderJson reader maxMetadataBytes) limits cancellation none
          access sources = .ok inner ∧ inner.format = .safetensors := by
  have hlists : ∀ {index : ShardIndex} {entries : List (String × String)}
      {sources : List SourceDescriptor}, index.DescribedBy limits (reader.document text) entries →
      openWithCancellation (parseHeaderJson reader maxMetadataBytes) limits cancellation none
        access sources = .ok inner → inner.format = .safetensors →
      (index.Describes (parseHeaderJson reader maxMetadataBytes) limits cancellation sources ↔
        Lists reader maxMetadataBytes limits entries sources) := by
    intro index entries sources hdescribed hopen hformat
    refine describes_iff_lists hdescribed.weights.toHolds fun source hsource name => ?_
    obtain ⟨gathered, hgather, hopen⟩ := bind_ok hopen
    obtain ⟨_, _, hopen⟩ := bind_ok hopen
    obtain ⟨_, _, hopen⟩ := bind_ok hopen
    obtain ⟨_, _, hopen⟩ := bind_ok hopen
    obtain rfl := Except.ok.inj hopen
    refine holds_iff_assigns hgather (fun hgguf => ?_) hsource name
    have hsafe : gathered.format.getD .safetensors = .safetensors := hformat
    rw [hgguf] at hsafe
    cases hsafe
  simp only [fromLocalIndex_eq_ok hc htext]
  constructor
  · rintro ⟨_, ⟨index, sources, root, hlength, ⟨entries, hdescribed⟩, hended, hroot, hsources,
      rfl⟩, hopen⟩
    obtain ⟨hopen, hformat, hdescribes⟩ := open_with_index.mp hopen
    exact ⟨index, entries, sources, ⟨hlength, hdescribed, hended, ⟨root, hroot, hsources⟩,
      (hlists hdescribed hopen hformat).mp hdescribes⟩, hopen, hformat⟩
  · rintro ⟨index, entries, sources, h, hopen, hformat⟩
    obtain ⟨root, hroot, hsources⟩ := h.resolved
    exact ⟨_, ⟨index, sources, root, h.length, ⟨entries, h.described⟩, h.ended, hroot, hsources,
      rfl⟩, open_with_index.mpr ⟨hopen, hformat, (hlists h.described hopen hformat).mpr h.lists⟩⟩

end Local

/-! ## An index of two shards -/

def shardIndexText : List UInt8 :=
  utf8 ("\x7b\"metadata\":\x7b\x7d,\"weight_map\":\x7b\"gate\":\"shards/b.safetensors\"," ++
    "\"bias\":\"a.safetensors\"\x7d\x7d")

def shardIndexDocument : Json.Document :=
  .object [("metadata", .object [] true),
    (weightMapKey, .object [("gate", .text "shards/b.safetensors"), ("bias", .text "a.safetensors")]
      true)] true

/-- A reader that knows the text of the index from the headers of the shards. -/
def shardIndexReader : JsonReader where
  document bytes :=
    if bytes = shardIndexText then shardIndexDocument else shardReader.document bytes
  ended _ := true

/-- The index, read a few bytes at a time. -/
def shardIndexFile : MetadataFile where
  opens := true
  size := some shardIndexText.length
  readAt position amount := some ((shardIndexText.drop position).take (min amount 5))
  atMost position amount block h := by
    obtain rfl := Option.some.inj h
    rw [List.length_take]
    omega

def shardTree : FileTree String where
  name := id
  text := some
  canonicalize := some
  metadataFile _ := shardIndexFile
  opened path := if path = ["weights", "a.safetensors"] then .ok biasFile
    else if path = ["weights", "shards", "b.safetensors"] then .ok gateFile
    else .error ⟨.io, "failed to open checkpoint source"⟩

theorem shardIndexFile_serves : shardIndexFile.Serves shardIndexText where
  opens := rfl
  size := rfl
  fits := by decide +kernel
  reads position amount := by
    refine ⟨_, rfl, List.take_prefix .., fun hamount hposition => List.ne_nil_of_length_pos ?_⟩
    rw [List.length_take, List.length_drop]
    omega

theorem openLocalIndex_iff_pair :
    ∃ index entries sources inner,
      LocalIndex shardTree shardIndexReader 16 ["weights", "model.safetensors.index.json"]
        ⟨⟨128, 4, 4, 32⟩, 2⟩ shardIndexText index entries sources ∧
      openWithCancellation (parseHeaderJson shardIndexReader 16) ⟨⟨128, 4, 4, 32⟩, 2⟩ ⟨false⟩ none
        .read sources = .ok inner ∧ inner.format = .safetensors ∧
      inner.inventory.files.length = 2 ∧
      inner.inventory.tensors.map TensorRecord.name = ["bias", "gate"] := by
  have hrun : (CheckpointBuilder.fromLocalIndex shardTree shardIndexReader
      ["weights", "model.safetensors.index.json"] ⟨⟨128, 4, 4, 32⟩, 2⟩ ⟨false⟩ >>= fun builder =>
        (builder.accessMode .read).open (parseHeaderJson shardIndexReader 16) ⟨false⟩).toOption.map
      (fun inner => (inner.inventory.files.length,
        inner.inventory.tensors.map TensorRecord.name)) = some (2, ["bias", "gate"]) := by
    decide +kernel
  cases hinner : CheckpointBuilder.fromLocalIndex shardTree shardIndexReader
      ["weights", "model.safetensors.index.json"] ⟨⟨128, 4, 4, 32⟩, 2⟩ ⟨false⟩ >>= fun builder =>
        (builder.accessMode .read).open (parseHeaderJson shardIndexReader 16) ⟨false⟩ with
  | error e => rw [hinner] at hrun; cases hrun
  | ok inner =>
    rw [hinner] at hrun
    obtain ⟨hfiles, hnames⟩ := Prod.mk.inj (Option.some.inj hrun)
    obtain ⟨builder, hbuilder, hopen⟩ := bind_ok hinner
    obtain ⟨index, entries, sources, hindex, hsources, hformat⟩ := (openLocalIndex_iff rfl
      shardIndexFile_serves .read inner).mp ⟨builder, hbuilder, hopen⟩
    exact ⟨index, entries, sources, inner, hindex, hsources, hformat, hfiles, hnames⟩

end ModelWeights
