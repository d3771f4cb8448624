import ModelWeights.Cache.Files
import ModelWeights.Lib.Canonical

/-! # The cache service

The operations of `cache.rs` as programs over file system steps. Handles that the
source releases in `drop` are released here on every path that ends a call. -/
namespace ModelWeights.Cache
open Program

abbrev Task := Program FileOp FileOp.Resp

def step (o : FileOp) : Task o.Resp := perform o

/-- A task that may fail. -/
abbrev Action := ExceptT Error Task

/-- The outcome of an action, as a value. -/
def outcome {α : Type} (action : Action α) : Action (Result α) := ExceptT.lift action.run

/-- `CancellationToken::check`. -/
def checkCancelled : Action Unit := do
  if ← step .cancelled then throw .cancelled

/-- `ScanBudget::visit_entry`, for all entries of one listing. -/
def visitEntries : Action Unit := do
  checkCancelled
  if ← step .exhausted then
    throw (.limit "cache maintenance scan exceeded the configured entry limit")

/-- A step whose failure ends the call. -/
def attempt {α : Type} (message : String) (step : Task (IoResult α)) : Action α := do
  match ← step with
  | .ok a => pure a
  | .error _ => throw (.ioError message)

def cacheEnvelopeVersion : UInt32 := 1

def maxMetadataBytes : Nat := 64 * 1024

def copyBufferBytes : Nat := 256 * 1024

structure CacheOptions where
  leaseWait : Nat
  staleAfter : Nat

inductive CacheValidation where
  | full
  | trustedMetadata
  deriving DecidableEq, Repr

inductive CacheMissReason where
  | notFound
  | incompleteEntry
  | metadataTooLarge (actual maximum : Nat)
  | metadataMalformed
  | envelopeVersion (found supported : UInt32)
  | namespaceMismatch (found : CacheNamespace)
  | keyMismatch (found : CacheKey)
  | compatibilityMismatch (found : CacheCompatibility)
  | lengthMismatch (expected actual : Nat)
  | digestMismatch (expected actual : ContentDigest)
  deriving DecidableEq

structure CacheEntryInfo where
  ns : CacheNamespace
  key : CacheKey
  compatibility : CacheCompatibility
  payloadLen : Nat
  payloadDigest : ContentDigest
  createdUnixMillis : Nat
  payloadPath : Path
  deriving DecidableEq

/-- An entry and what its open payload handle reads. -/
structure CacheEntry where
  info : CacheEntryInfo
  payload : List UInt8
  deriving DecidableEq

inductive CacheLookup where
  | hit (entry : CacheEntry)
  | miss (reason : CacheMissReason)
  deriving DecidableEq

inductive CachePublication where
  | published (entry : CacheEntry)
  | reused (entry : CacheEntry)
  deriving DecidableEq

/-- What the service takes from outside: its timing, SHA-256 of a payload, the length
of the JSON of an envelope, and how often one call polls for a lease. -/
structure CacheService where
  options : CacheOptions
  sha256 : List UInt8 → ContentDigest
  envelopeLength : CacheEnvelope → Nat
  polls : Nat

/-- The time since the epoch as a 64-bit number. -/
def unixMillis (now : Nat) : Nat := min now (u64Size - 1)

def entryPath (ns : CacheNamespace) (key : CacheKey) : Path := ⟨ns, .final key⟩

def infoFromEnvelope (envelope : CacheEnvelope) (path : Path) : CacheEntryInfo where
  ns := envelope.ns
  key := envelope.key
  compatibility := envelope.compatibility
  payloadLen := envelope.payloadLen
  payloadDigest := envelope.payloadDigest
  createdUnixMillis := envelope.createdUnixMillis
  payloadPath := path

/-! ## Lookup -/

inductive MetadataRead where
  | envelope (envelope : CacheEnvelope)
  | miss (reason : CacheMissReason)

def readEnvelope (path : Path) : Action MetadataRead := do
  match ← step (.readMetadata path) with
  | .error .notFound => pure (.miss .incompleteEntry)
  | .error _ => throw (.ioError "failed to open cache metadata")
  | .ok .incomplete => pure (.miss .metadataMalformed)
  | .ok (.envelope envelope length) =>
    if length > maxMetadataBytes then pure (.miss (.metadataTooLarge length maxMetadataBytes))
    else pure (.envelope envelope)

/-- The checks of an envelope against a request, before the payload is opened. -/
def envelopeMiss (ns : CacheNamespace) (key : CacheKey) (compatibility : CacheCompatibility)
    (envelope : CacheEnvelope) : Option CacheMissReason :=
  if envelope.envelopeVersion ≠ cacheEnvelopeVersion then
    some (.envelopeVersion envelope.envelopeVersion cacheEnvelopeVersion)
  else if envelope.ns ≠ ns then some (.namespaceMismatch envelope.ns)
  else if envelope.key ≠ key then some (.keyMismatch envelope.key)
  else if envelope.compatibility ≠ compatibility then
    some (.compatibilityMismatch envelope.compatibility)
  else none

variable (c : CacheService)

def lookupEntryPath (path : Path) (ns : CacheNamespace) (key : CacheKey)
    (compatibility : CacheCompatibility) (validation : CacheValidation) : Action CacheLookup := do
  checkCancelled
  match ← step (.modified path) with
  | .error .notFound => pure (.miss .notFound)
  | .error _ => throw (.ioError "failed to inspect a cache entry directory")
  | .ok _ =>
    match ← readEnvelope path with
    | .miss reason => pure (.miss reason)
    | .envelope envelope =>
      match envelopeMiss ns key compatibility envelope with
      | some reason => pure (.miss reason)
      | none =>
        match ← step (.openPayload path) with
        | .error .notFound => pure (.miss .incompleteEntry)
        | .error _ => throw (.ioError "failed to open a cache payload")
        | .ok payload =>
          if payload.length ≠ envelope.payloadLen then
            pure (.miss (.lengthMismatch envelope.payloadLen payload.length))
          else do
            if validation = .full then checkCancelled
            if validation = .full ∧ c.sha256 payload ≠ envelope.payloadDigest then
              pure (.miss (.digestMismatch envelope.payloadDigest (c.sha256 payload)))
            else pure (.hit ⟨infoFromEnvelope envelope path, payload⟩)

/-- The replacement generations of an entry among the names of its shard, with their
modification times. -/
def datedReplacements (ns : CacheNamespace) (key : CacheKey) :
    List Name → Action (List (Nat × Path))
  | [] => pure []
  | name :: rest => do
    match name with
    | .previous k _ =>
      if k = key then
        match ← step (.modified ⟨ns, name⟩) with
        | .error .notFound => datedReplacements ns key rest
        | .error _ => throw (.ioError "failed to inspect a cache replacement generation")
        | .ok modified => do
          let dated ← datedReplacements ns key rest
          pure ((modified, ⟨ns, name⟩) :: dated)
      else datedReplacements ns key rest
    | _ => datedReplacements ns key rest

/-- The latest first, and among equal times the last name first. -/
def newestFirst (a b : Nat × Path) : Bool :=
  b.1 < a.1 || (b.1 == a.1 && decide (b.2.name.text ≤ a.2.name.text))

def replacementPaths (ns : CacheNamespace) (key : CacheKey) : Action (List Path) := do
  checkCancelled
  match ← step (.readShard ns (shardOf key)) with
  | .error .notFound => pure []
  | .error _ => throw (.ioError "failed to enumerate cache replacement generations")
  | .ok names => do
    visitEntries
    let dated ← datedReplacements ns key names
    pure ((dated.insertionSort fun a b => newestFirst a b).map Prod.snd)

/-- The first hit among replacement generations. A generation that was removed while it
was read is passed over. -/
def lookupReplacements (ns : CacheNamespace) (key : CacheKey) (compatibility : CacheCompatibility)
    (validation : CacheValidation) : List Path → Action (Option CacheEntry)
  | [] => pure none
  | path :: rest => do
    match ← outcome (lookupEntryPath c path ns key compatibility validation) with
    | .ok (.hit entry) => pure (some entry)
    | .ok (.miss _) => lookupReplacements ns key compatibility validation rest
    | .error e => do
      match ← step (.modified path) with
      | .ok _ => throw e
      | .error _ => lookupReplacements ns key compatibility validation rest

def lookup (ns : CacheNamespace) (key : CacheKey) (compatibility : CacheCompatibility)
    (validation : CacheValidation) : Action CacheLookup := do
  checkCancelled
  match ← lookupEntryPath c (entryPath ns key) ns key compatibility validation with
  | .hit entry => pure (.hit entry)
  | .miss _ => do
    let previous ← replacementPaths ns key
    match ← lookupEntryPath c (entryPath ns key) ns key compatibility validation with
    | .hit entry => pure (.hit entry)
    | .miss _ => do
      match ← lookupReplacements c ns key compatibility validation previous with
      | some entry => pure (.hit entry)
      | none => lookupEntryPath c (entryPath ns key) ns key compatibility validation

/-! ## Removal -/

/-- A file that is gone already is passed over. -/
def unlinkAll (inode : Nat) : List File → Task (IoResult Unit)
  | [] => pure (.ok ())
  | file :: rest => do
    match ← step (.unlink inode file) with
    | .ok () | .error .notFound => unlinkAll inode rest
    | .error e => pure (.error e)

/-- `fs::remove_dir_all`: the files are removed through the open directory, the
directory under its name. -/
def removeDirAll (path : Path) : Task (IoResult Unit) := do
  match ← step (.openDir path) with
  | .error e => pure (.error e)
  | .ok (inode, files) => do
    match ← unlinkAll inode files with
    | .error e => pure (.error e)
    | .ok () => step (.removeDir path)

def leasePath (ns : CacheNamespace) (key : CacheKey) : Path := ⟨ns, .lease key⟩

def reapDirectory (ns : CacheNamespace) (key : CacheKey) : Action Unit := do
  let token ← step .token
  match ← step (.rename (leasePath ns key) ⟨ns, .reap key token⟩) with
  | .ok () =>
    attempt "failed to remove a recovered cache directory" (removeDirAll ⟨ns, .reap key token⟩)
  | .error .notFound => pure ()
  | .error _ => throw (.ioError "failed to atomically claim a stale cache directory")

/-! ## Writer leases -/

structure WriterLease where
  ns : CacheNamespace
  key : CacheKey
  owner : Token
  active : Bool

def leaseIsStale (ns : CacheNamespace) (key : CacheKey) : Action Bool := do
  checkCancelled
  match ← step (.heartbeatOld (leasePath ns key) c.options.staleAfter) with
  | .ok stale => pure stale
  | .error .notFound =>
    match ← step (.modifiedOld (leasePath ns key) c.options.staleAfter) with
    | .ok stale => pure stale
    | .error .notFound => pure false
    | .error _ => throw (.ioError "failed to inspect cache lease age")
  | .error _ => throw (.ioError "failed to inspect cache lease age")

/-- A new lease directory gets its owner and its first heartbeat. -/
def initializeLease (ns : CacheNamespace) (key : CacheKey) : Action WriterLease := do
  let owner ← step .token
  match ← step (.writeOwner (leasePath ns key) owner) with
  | .error _ => do
    let _ ← outcome (reapDirectory ns key)
    throw (.ioError "failed to initialize a cache lease")
  | .ok () =>
    match ← step (.writeHeartbeat (leasePath ns key)) with
    | .error _ => do
      let _ ← outcome (reapDirectory ns key)
      throw (.ioError "failed to initialize a cache lease")
    | .ok () => pure ⟨ns, key, owner, true⟩

/-- The polling loop of `WriterLease::acquire`. A call that polls more often than
`polls` says is one with a larger `polls`. -/
def acquireLoop (ns : CacheNamespace) (key : CacheKey) (started : Nat) : Nat → Action WriterLease
  | 0 => throw (.cacheError "timed out waiting for a cache writer lease")
  | polls + 1 => do
    checkCancelled
    match ← step (.createDir (leasePath ns key)) with
    | .ok () => initializeLease ns key
    | .error .alreadyExists => do
      if ← leaseIsStale c ns key then
        reapDirectory ns key
        acquireLoop ns key started polls
      else
        let now ← step .now
        if now - started ≥ c.options.leaseWait then
          throw (.cacheError "timed out waiting for a cache writer lease")
        else acquireLoop ns key started polls
    | .error _ => throw (.ioError "failed to acquire a cache writer lease")

def acquire (ns : CacheNamespace) (key : CacheKey) : Action WriterLease := do
  let started ← step .now
  acquireLoop c ns key started c.polls

def WriterLease.refresh (lease : WriterLease) : Task (Result Unit × WriterLease) := do
  match ← step (.readOwner (leasePath lease.ns lease.key)) with
  | .error _ => pure (.error (.ioError "failed to verify a cache writer lease"), lease)
  | .ok owner =>
    if owner ≠ lease.owner then
      pure (.error (.cacheError "cache writer lease ownership changed"), { lease with active := false })
    else
      match ← step (.refreshHeartbeat (leasePath lease.ns lease.key)) with
      | .error _ => pure (.error (.ioError "failed to refresh a cache writer lease"), lease)
      | .ok () => pure (.ok (), lease)

def releaseWriterLease (ns : CacheNamespace) (key : CacheKey) : Task Unit := do
  let token ← step .token
  match ← step (.rename (leasePath ns key) ⟨ns, .reap key token⟩) with
  | .ok () => do
    let _ ← removeDirAll ⟨ns, .reap key token⟩
    pure ()
  | .error _ => pure ()

def WriterLease.drop (lease : WriterLease) : Task Unit := do
  if lease.active then
    match ← step (.readOwner (leasePath lease.ns lease.key)) with
    | .ok owner => if owner = lease.owner then releaseWriterLease lease.ns lease.key else pure ()
    | .error _ => pure ()
  else pure ()

/-- Goes on with the lease unless the first part failed. -/
def andThen {α β : Type} (x : Task (Result α × WriterLease))
    (f : α → WriterLease → Task (Result β × WriterLease)) : Task (Result β × WriterLease) := do
  let (result, lease) ← x
  match result with
  | .ok a => f a lease
  | .error e => pure (.error e, lease)

/-- An action that leaves the lease alone. -/
def keeping {α : Type} (lease : WriterLease) (action : Action α) :
    Task (Result α × WriterLease) := do
  let result ← action.run
  pure (result, lease)

/-! ## Publication -/

/-- A source of payload bytes: the results of its reads up to the end. -/
abbrev Reader := List (IoResult (List UInt8))

/-- `StagingEntry::create`, for at most the given number of attempts. -/
def createStaging (ns : CacheNamespace) (key : CacheKey) : Nat → Action Path
  | 0 => throw (.cacheError "failed to allocate a unique cache staging directory")
  | attempts + 1 => do
    let token ← step .token
    match ← step (.createDir ⟨ns, .staging key token⟩) with
    | .ok () => pure ⟨ns, .staging key token⟩
    | .error .alreadyExists => createStaging ns key attempts
    | .error _ => throw (.ioError "failed to create a same-filesystem staging directory")

/-- The copy loop of `write_payload`: `written` are the bytes hashed so far and
`total` their number. -/
def writeChunks (inode : Nat) (written : List UInt8) (total : Nat) :
    Reader → WriterLease → Task (Result (Nat × List UInt8) × WriterLease)
  | reader, lease => andThen (keeping lease checkCancelled) fun _ lease =>
    andThen lease.refresh fun _ lease =>
      match reader with
      | [] => pure (.ok (total, written), lease)
      | .error _ :: _ =>
        pure (.error (.ioError "failed to read a cache publication payload"), lease)
      | .ok [] :: _ => pure (.ok (total, written), lease)
      | .ok chunk :: rest =>
        andThen (keeping lease (attempt "failed to write a staged cache payload"
            (step (.appendPayload inode chunk)))) fun _ lease =>
          match checkedAdd total chunk.length with
          | none => pure (.error (.cacheError "cache payload length overflowed u64"), lease)
          | some total => writeChunks inode (written ++ chunk) total rest lease

def writePayload (path : Path) (reader : Reader) (lease : WriterLease) :
    Task (Result (Nat × ContentDigest) × WriterLease) :=
  andThen (keeping lease (attempt "failed to create a staged cache payload"
      (step (.createPayload path)))) fun inode lease =>
    andThen (writeChunks inode [] 0 reader lease) fun (total, written) lease =>
      andThen (keeping lease (attempt "failed to synchronize a staged cache payload"
        (step .sync))) fun _ lease => pure (.ok (total, c.sha256 written), lease)

def writeEnvelope (path : Path) (envelope : CacheEnvelope) : Action Unit := do
  if c.envelopeLength envelope > maxMetadataBytes then
    throw (.cacheError "serialized cache metadata exceeds its defensive size limit")
  let inode ← attempt "failed to create staged cache metadata" (step (.createMetadata path))
  attempt "failed to write staged cache metadata"
    (step (.writeMetadata inode envelope (c.envelopeLength envelope)))
  attempt "failed to synchronize staged cache metadata" (step .sync)

/-- The second rename of `StagingEntry::publish`. A generation that was moved away is moved
back if it fails, else removed. -/
def placeStaging (path : Path) (ns : CacheNamespace) (key : CacheKey) (token : Token)
    (moved : Bool) : Action Unit := do
  match ← step (.rename path (entryPath ns key)) with
  | .error _ => do
    if moved then
      let _ ← step (.rename ⟨ns, .previous key token⟩ (entryPath ns key))
    throw (.ioError "failed to atomically publish a cache entry")
  | .ok () =>
    if moved then
      let _ ← (removeDirAll ⟨ns, .previous key token⟩ : Task (IoResult Unit))

/-- `StagingEntry::publish`. -/
def publishStaging (path : Path) (ns : CacheNamespace) (key : CacheKey) : Action Unit := do
  let token ← step .token
  match ← step (.rename (entryPath ns key) ⟨ns, .previous key token⟩) with
  | .ok () => placeStaging path ns key token true
  | .error .notFound => placeStaging path ns key token false
  | .error _ => throw (.ioError "failed to move an existing cache entry before publication")

/-- `open_published_entry`. -/
def openPublishedEntry (ns : CacheNamespace) (key : CacheKey) (envelope : CacheEnvelope) :
    Action CacheEntry := do
  let payload ← attempt "failed to open the published cache payload"
    (step (.openPayload (entryPath ns key)))
  if payload.length ≠ envelope.payloadLen then
    throw (.cacheError "published cache payload length changed after staging")
  pure ⟨infoFromEnvelope envelope (entryPath ns key), payload⟩

/-- The part of `publish_reader` that a staging directory lives through. -/
def stage (path : Path) (ns : CacheNamespace) (key : CacheKey) (compatibility : CacheCompatibility)
    (reader : Reader) (lease : WriterLease) : Task (Result CacheEnvelope × WriterLease) :=
  andThen (writePayload c path reader lease) fun (payloadLen, payloadDigest) lease => do
    let created ← step .now
    let envelope : CacheEnvelope := {
      envelopeVersion := cacheEnvelopeVersion
      ns, key, compatibility, payloadLen, payloadDigest
      createdUnixMillis := unixMillis created }
    andThen (keeping lease (writeEnvelope c path envelope)) fun _ lease =>
      andThen lease.refresh fun _ lease =>
        andThen (keeping lease checkCancelled) fun _ lease =>
          andThen (keeping lease (publishStaging path ns key)) fun _ lease =>
            pure (.ok envelope, lease)

/-- The part of `publish_reader` under the lease. A staging directory that was not
published is removed. -/
def publishLeased (ns : CacheNamespace) (key : CacheKey) (compatibility : CacheCompatibility)
    (reader : Reader) (lease : WriterLease) : Task (Result CachePublication × WriterLease) :=
  andThen (keeping lease (lookup c ns key compatibility .full)) fun found lease =>
    match found with
    | .hit entry => pure (.ok (.reused entry), lease)
    | .miss _ =>
      andThen (keeping lease (createStaging ns key 100)) fun path lease => do
        let (staged, lease) ← stage c path ns key compatibility reader lease
        match staged with
        | .error e => do
          let _ ← removeDirAll path
          pure (.error e, lease)
        | .ok envelope =>
          andThen (keeping lease (openPublishedEntry ns key envelope)) fun entry lease =>
            pure (.ok (.published entry), lease)

/-- Runs a task under a lease and releases the lease. -/
def withLease {α : Type} (ns : CacheNamespace) (key : CacheKey)
    (body : WriterLease → Task (Result α × WriterLease)) : Action α := do
  let lease ← acquire c ns key
  let (result, lease) ← (body lease : Task (Result α × WriterLease))
  lease.drop
  ExceptT.mk (pure result)

def publishReader (ns : CacheNamespace) (key : CacheKey) (compatibility : CacheCompatibility)
    (reader : Reader) : Action CachePublication := do
  match ← lookup c ns key compatibility .full with
  | .hit entry => pure (.reused entry)
  | .miss _ => do
    attempt "failed to create a cache key directory" (step (.createShard ns (shardOf key)))
    withLease c ns key (publishLeased c ns key compatibility reader)

/-- The reads of a `Cursor` over `bytes` into a buffer of `size` bytes. -/
def cursor (size : Nat) : Nat → List UInt8 → Reader
  | _, [] => []
  | 0, _ => []
  | fuel + 1, bytes => .ok (bytes.take size) :: cursor size fuel (bytes.drop size)

def publishBytes (ns : CacheNamespace) (key : CacheKey) (compatibility : CacheCompatibility)
    (payload : List UInt8) : Action CachePublication :=
  publishReader c ns key compatibility (cursor copyBufferBytes payload.length payload)

/-! ## Eviction -/

inductive EvictionReason where
  | explicit
  | capacity
  | corrupt
  | incompatible
  | sourceChanged
  deriving DecidableEq, Repr

structure EvictionRecord where
  ns : CacheNamespace
  key : CacheKey
  reason : EvictionReason
  bytes : Nat
  deriving DecidableEq

def evictLeased (ns : CacheNamespace) (key : CacheKey) (reason : EvictionReason) :
    Action (Option EvictionRecord) := do
  checkCancelled
  match ← step (.size (entryPath ns key)) with
  | .error .notFound => pure none
  | .error _ => throw (.ioError "failed to inspect an evicted entry")
  | .ok bytes => do
    visitEntries
    let token ← step .token
    match ← step (.rename (entryPath ns key) ⟨ns, .evicted key token⟩) with
    | .error .notFound => pure none
    | .error _ => throw (.ioError "failed to atomically hide an evicted cache entry")
    | .ok () => do
      attempt "failed to remove an evicted cache entry" (removeDirAll ⟨ns, .evicted key token⟩)
      pure (some ⟨ns, key, reason, bytes⟩)

def evict (ns : CacheNamespace) (key : CacheKey) (reason : EvictionReason) :
    Action (Option EvictionRecord) := do
  attempt "failed to create a cache key directory" (step (.createShard ns (shardOf key)))
  withLease c ns key fun lease => keeping lease (evictLeased ns key reason)

/-! ## Inspection -/

structure CacheInspection where
  entries : List CacheEntryInfo
  invalidEntries : Nat
  payloadBytes : Nat
  totalBytes : Nat
  deriving DecidableEq

structure CacheCandidate where
  ns : CacheNamespace
  key : CacheKey
  modified : Nat
  envelope : Option CacheEnvelope

/-- `read_directories` on a namespace: its shards in order. -/
def readShardList (ns : CacheNamespace) : Action (List UInt8) := do
  checkCancelled
  match ← step (.readShards ns) with
  | .error .notFound => pure []
  | .error _ => throw (.ioError "failed to enumerate a cache directory")
  | .ok shards => do
    visitEntries
    pure (shards.insertionSort (· ≤ ·))

/-- `read_directories` on a shard: its names in the order of their texts. -/
def readNames (ns : CacheNamespace) (shard : UInt8) : Action (List Name) := do
  checkCancelled
  match ← step (.readShard ns shard) with
  | .error .notFound => pure []
  | .error _ => throw (.ioError "failed to enumerate a cache directory")
  | .ok names => do
    visitEntries
    pure (names.insertionSort fun a b => a.text ≤ b.text)

/-- The published entries among the names of a shard. -/
def nameCandidates (ns : CacheNamespace) : List Name → Action (List CacheCandidate)
  | [] => pure []
  | .final key :: rest => do
    let modified ← attempt "failed to inspect a published cache entry"
      (step (.modified (entryPath ns key)))
    let envelope ← match ← readEnvelope (entryPath ns key) with
      | .envelope envelope => pure (some envelope)
      | .miss _ => pure none
    let candidates ← nameCandidates ns rest
    pure (⟨ns, key, modified, envelope⟩ :: candidates)
  | _ :: rest => nameCandidates ns rest

def shardCandidates (ns : CacheNamespace) : List UInt8 → Action (List CacheCandidate)
  | [] => pure []
  | shard :: rest => do
    let names ← readNames ns shard
    let candidates ← nameCandidates ns names
    let more ← shardCandidates ns rest
    pure (candidates ++ more)

def scanCandidates : List CacheNamespace → Action (List CacheCandidate)
  | [] => pure []
  | ns :: rest => do
    checkCancelled
    let shards ← readShardList ns
    let candidates ← shardCandidates ns shards
    let more ← scanCandidates rest
    pure (candidates ++ more)

/-- The infos of structurally valid candidates and the number of the others. -/
def inspectCandidates : List CacheCandidate → Action (List CacheEntryInfo × Nat)
  | [] => pure ([], 0)
  | candidate :: rest => do
    checkCancelled
    let info ← match candidate.envelope with
      | none => pure none
      | some envelope =>
        if envelope.envelopeVersion ≠ cacheEnvelopeVersion ∨ envelope.ns ≠ candidate.ns ∨
            envelope.key ≠ candidate.key then pure none
        else
          match ← step (.openPayload (entryPath candidate.ns candidate.key)) with
          | .error .notFound => pure none
          | .error _ => throw (.ioError "failed to inspect an inventoried cache payload")
          | .ok payload =>
            if payload.length ≠ envelope.payloadLen then pure none
            else pure (some (infoFromEnvelope envelope (entryPath candidate.ns candidate.key)))
    let (entries, invalidEntries) ← inspectCandidates rest
    match info with
    | none => pure (entries, invalidEntries + 1)
    | some info => pure (info :: entries, invalidEntries)

def CacheEntryInfo.place (info : CacheEntryInfo) : CacheNamespace ×ₗ CacheKey :=
  toLex (info.ns, info.key)

def namespaces : List CacheNamespace := [.plan, .prepared]

def inspect : Action CacheInspection := do
  checkCancelled
  let candidates ← scanCandidates namespaces
  let (entries, invalidEntries) ← inspectCandidates candidates
  visitEntries
  let totalBytes ← attempt "failed to inspect cache storage" (step .totalSize)
  pure {
    entries := entries.insertionSort fun a b => a.place ≤ b.place
    invalidEntries
    payloadBytes := entries.foldl (fun n info => saturatingAdd n info.payloadLen) 0
    totalBytes }

/-! ## Capacity -/

structure EvictionReport where
  beforeBytes : Nat
  afterBytes : Nat
  records : List EvictionRecord
  deriving DecidableEq

/-- The order of candidates for eviction. -/
def CacheCandidate.age (candidate : CacheCandidate) : Nat ×ₗ CacheNamespace ×ₗ CacheKey :=
  toLex (candidate.modified, toLex (candidate.ns, candidate.key))

/-- `directory_size` of the version directory, with a new `ScanBudget`. -/
def versionSize : Action Nat := do
  checkCancelled
  visitEntries
  attempt "failed to inspect cache storage" (step .totalSize)

/-- The loop of `evict_to` over the sorted candidates. -/
def evictCandidates (maximumBytes : Nat) (reason : EvictionReason) :
    List CacheCandidate → Nat → Action (List EvictionRecord)
  | [], _ => pure []
  | candidate :: rest, estimated => do
    if estimated ≤ maximumBytes then pure []
    else
      checkCancelled
      match ← evict c candidate.ns candidate.key reason with
      | none => evictCandidates maximumBytes reason rest estimated
      | some record => do
        let records ← evictCandidates maximumBytes reason rest (estimated - record.bytes)
        pure (record :: records)

def evictTo (maximumBytes : Nat) (reason : EvictionReason) : Action EvictionReport := do
  let beforeBytes ← versionSize
  checkCancelled
  let candidates ← scanCandidates namespaces
  let records ← evictCandidates c maximumBytes reason
    (candidates.insertionSort fun a b => a.age ≤ b.age) beforeBytes
  let afterBytes ← versionSize
  pure { beforeBytes, afterBytes, records }

/-! ## Recovery -/

structure RecoveryReport where
  removedDirectories : Nat
  restoredEntries : Nat
  reclaimedBytes : Nat
  deriving DecidableEq

def RecoveryReport.removed (report : RecoveryReport) (bytes : Nat) : RecoveryReport :=
  { report with
    removedDirectories := saturatingAdd report.removedDirectories 1
    reclaimedBytes := saturatingAdd report.reclaimedBytes bytes }

/-- `path_is_stale`. A path that is gone is not stale. -/
def pathIsStale (path : Path) : Action Bool := do
  checkCancelled
  match ← step (.newestOld path c.options.staleAfter) with
  | .error .notFound => pure false
  | .error _ => throw (.ioError "failed to inspect cache recovery age")
  | .ok stale => do
    visitEntries
    pure stale

/-- `directory_size`. A path that is gone has no bytes. -/
def directorySize (path : Path) : Action Nat := do
  visitEntries
  match ← step (.size path) with
  | .error .notFound => pure 0
  | .error _ => throw (.ioError "failed to inspect cache storage")
  | .ok bytes => pure bytes

/-- `Path::exists`. -/
def pathExists (path : Path) : Task Bool := do
  match ← step (.modified path) with
  | .ok _ => pure true
  | .error _ => pure false

def removeSuperseded (path : Path) (report : RecoveryReport) : Action RecoveryReport := do
  let bytes ← directorySize path
  attempt "failed to remove a superseded cache generation" (removeDirAll path)
  pure (report.removed bytes)

def restoreReplacement (ns : CacheNamespace) (key : CacheKey) (token : Token)
    (report : RecoveryReport) : Action RecoveryReport := do
  let path : Path := ⟨ns, .previous key token⟩
  if ← pathExists (entryPath ns key) then removeSuperseded path report
  else
    match ← step (.rename path (entryPath ns key)) with
    | .ok () => pure { report with restoredEntries := saturatingAdd report.restoredEntries 1 }
    | .error .notFound => pure report
    | .error _ => do
      if ← pathExists (entryPath ns key) then removeSuperseded path report
      else throw (.ioError "failed to restore an interrupted cache replacement")

/-- Whether a lease holds back the recovery of staging or replacement data. -/
def heldByLease (ns : CacheNamespace) (key : CacheKey) : Action Bool := do
  if ← pathExists (leasePath ns key) then
    let stale ← leaseIsStale c ns key
    pure !stale
  else pure false

/-- What `recover_shard` does with one name. -/
def recoverName (ns : CacheNamespace) (name : Name) (report : RecoveryReport) :
    Action RecoveryReport := do
  checkCancelled
  if name.isFinal then pure report
  else if ← pathIsStale c ⟨ns, name⟩ then
    match name with
    | .final _ => pure report
    | .previous key token =>
      if ← heldByLease c ns key then pure report else restoreReplacement ns key token report
    | .staging key token => do
      if ← heldByLease c ns key then pure report
      else
        let bytes ← directorySize ⟨ns, .staging key token⟩
        attempt "failed to recover stale cache staging data"
          (removeDirAll ⟨ns, .staging key token⟩)
        pure (report.removed bytes)
    | .lease key => do
      let bytes ← directorySize ⟨ns, .lease key⟩
      reapDirectory ns key
      pure (report.removed bytes)
    | name => do
      let bytes ← directorySize ⟨ns, name⟩
      attempt "failed to recover stale cache staging data" (removeDirAll ⟨ns, name⟩)
      pure (report.removed bytes)
  else pure report

def recoverNames (ns : CacheNamespace) : List Name → RecoveryReport → Action RecoveryReport
  | [], report => pure report
  | name :: rest, report => do
    let report ← recoverName c ns name report
    recoverNames ns rest report

def recoverShards (ns : CacheNamespace) : List UInt8 → RecoveryReport → Action RecoveryReport
  | [], report => pure report
  | shard :: rest, report => do
    let names ← readNames ns shard
    let report ← recoverNames c ns names report
    recoverShards ns rest report

def recoverNamespaces : List CacheNamespace → RecoveryReport → Action RecoveryReport
  | [], report => pure report
  | ns :: rest, report => do
    checkCancelled
    let shards ← readShardList ns
    let report ← recoverShards c ns shards report
    recoverNamespaces rest report

def recoverStale : Action RecoveryReport := recoverNamespaces c namespaces ⟨0, 0, 0⟩

end ModelWeights.Cache
