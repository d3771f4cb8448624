import ModelWeights.Cache.Key
import ModelWeights.Lib.OrderedMap
import ModelWeights.Lib.Program
import Mathlib.Data.List.Lex
import Mathlib.Data.Prod.Lex

/-! # The directories of a cache

The names that `cache.rs` gives to directories, their contents, and the file system
operations it performs, each one atomic step. A directory is an inode under a name, so
that a rename moves it with everything that is open in it. The modification times and
the sizes of the files of one directory are read in one step, and so are a modification
time and the clock it is compared with: the clock is arbitrary. What is read from an
open file does not depend on the names, so reading it is a step that may only fail. -/
namespace ModelWeights.Cache

/-! ## Orders -/

theorem toNat_bytes_injective :
    Function.Injective fun d : ContentDigest => d.bytes.map UInt8.toNat := by
  intro a b h
  have hmap : Function.Injective UInt8.toNat := fun x y hxy => UInt8.toNat_inj.mp hxy
  exact bytes_injective (hmap.list_map h)

/-- Digests are ordered by their bytes. -/
instance : LinearOrder ContentDigest := LinearOrder.lift' _ toNat_bytes_injective

theorem ctorIdx_injective : Function.Injective CacheNamespace.ctorIdx := by
  intro a b h
  cases a <;> cases b <;> first | rfl | cases h

instance : LinearOrder CacheNamespace := LinearOrder.lift' CacheNamespace.ctorIdx ctorIdx_injective

/-! ## Names -/

abbrev Token := String

def hexDigit (n : Nat) : Char := if n < 10 then Char.ofNat (48 + n) else Char.ofNat (87 + n)

/-- A key as its 64 hexadecimal digits. -/
def hexText (key : CacheKey) : String :=
  String.ofList (key.bytes.flatMap fun b => [hexDigit (b.toNat / 16), hexDigit (b.toNat % 16)])

/-- The directories beside an entry. -/
inductive Name where
  | final (key : CacheKey)
  | lease (key : CacheKey)
  | reap (key : CacheKey) (token : Token)
  | staging (key : CacheKey) (token : Token)
  | previous (key : CacheKey) (token : Token)
  | evicted (key : CacheKey) (token : Token)
  deriving DecidableEq

namespace Name

def key : Name → CacheKey
  | .final key | .lease key | .reap key _ | .staging key _ | .previous key _ | .evicted key _ => key

def token : Name → Token
  | .final _ | .lease _ => ""
  | .reap _ token | .staging _ token | .previous _ token | .evicted _ token => token

/-- The text of a name, by which directory listings are sorted. -/
def text : Name → String
  | .final key => hexText key
  | .lease key => "." ++ hexText key ++ ".lease"
  | .reap key token => "." ++ hexText key ++ ".lease.reap-" ++ token
  | .staging key token => "." ++ hexText key ++ ".tmp-" ++ token
  | .previous key token => "." ++ hexText key ++ ".previous-" ++ token
  | .evicted key token => "." ++ hexText key ++ ".evicted-" ++ token

def isFinal : Name → Bool
  | .final _ => true
  | _ => false

end Name

/-- The subdirectory of a namespace that holds a key. -/
def shardOf (key : CacheKey) : UInt8 := key.bytes.head?.getD 0

structure Path where
  ns : CacheNamespace
  name : Name

def Path.order (p : Path) : CacheNamespace ×ₗ Nat ×ₗ CacheKey ×ₗ String :=
  toLex (p.ns, toLex (p.name.ctorIdx, toLex (p.name.key, p.name.token)))

theorem Path.order_injective : Function.Injective Path.order := by
  intro p q h
  obtain ⟨ns, name⟩ := p
  obtain ⟨ns', name'⟩ := q
  simp only [order, EmbeddingLike.apply_eq_iff_eq, Prod.mk.injEq] at h
  obtain ⟨rfl, hkind, hkey, htoken⟩ := h
  cases name <;> cases name' <;> simp_all [Name.ctorIdx, Name.key, Name.token]

/-- Some order on paths, for the table of names. -/
instance : LinearOrder Path := LinearOrder.lift' Path.order Path.order_injective

/-! ## Contents -/

structure CacheEnvelope where
  envelopeVersion : UInt32
  ns : CacheNamespace
  key : CacheKey
  compatibility : CacheCompatibility
  payloadLen : Nat
  payloadDigest : ContentDigest
  createdUnixMillis : Nat
  deriving DecidableEq

/-- A metadata file: created and not completely written, or the JSON of an envelope
and its length. -/
inductive MetadataFile where
  | incomplete
  | envelope (envelope : CacheEnvelope) (length : Nat)
  deriving DecidableEq

inductive File where
  | owner
  | heartbeat
  | payload
  | metadata
  deriving DecidableEq

/-- A directory: its modification time, the newest modification time of it and its
files, the process that created it, and its files. -/
structure Directory where
  modified : Nat
  newest : Nat
  creator : Nat
  owner : Option Token
  heartbeat : Option Nat
  payload : Option (List UInt8)
  metadata : Option MetadataFile

namespace Directory

def files (d : Directory) : List File :=
  (if d.owner.isSome then [.owner] else []) ++ (if d.heartbeat.isSome then [.heartbeat] else []) ++
    (if d.payload.isSome then [.payload] else []) ++ (if d.metadata.isSome then [.metadata] else [])

def unlink (d : Directory) : File → Directory
  | .owner => { d with owner := none }
  | .heartbeat => { d with heartbeat := none }
  | .payload => { d with payload := none }
  | .metadata => { d with metadata := none }

/-- The bytes of the owner and heartbeat files are decimal and hexadecimal texts. -/
def leaseBytes (d : Directory) : Nat :=
  (d.owner.map String.length).getD 0 + (d.heartbeat.map fun now => (toString now).length).getD 0

/-- The bytes of the files. The source adds with `saturating_add`, which is the sum as long as
the files of a store hold fewer than 2^64 bytes. -/
def size (d : Directory) : Nat :=
  d.leaseBytes + (d.payload.map List.length).getD 0 + match d.metadata with
    | some (.envelope _ length) => length
    | _ => 0

end Directory

/-- The shards that exist, the directories by name, their contents by inode, and the
next inode. -/
structure Files where
  shards : List (CacheNamespace × UInt8)
  names : OrderedMap Path Nat
  dirs : Nat → Directory
  next : Nat

namespace Files

def at? (fs : Files) (path : Path) : Option Directory := (fs.names.get? path).map fs.dirs

def setDir (fs : Files) (inode : Nat) (d : Directory) : Files :=
  { fs with dirs := fun i => if i = inode then d else fs.dirs i }

def hasShard (fs : Files) (path : Path) : Bool :=
  fs.shards.contains (path.ns, shardOf path.name.key)

def namesIn (fs : Files) (ns : CacheNamespace) (shard : UInt8) : List Name :=
  (fs.names.entries.filter fun e => e.1.ns = ns ∧ shardOf e.1.name.key = shard).map fun e => e.1.name

end Files

/-! ## Operations -/

inductive IoError where
  | notFound
  | alreadyExists
  | notEmpty
  | other
  deriving DecidableEq, Repr

/-- What a step does not read from the files: the process that takes it, the clock, a
new token, the order of a directory listing, whether cancellation was requested,
whether a scan would visit more entries than it may, and whether the step fails. -/
structure Env where
  process : Nat
  now : Nat
  token : Token
  reversed : Bool
  cancelled : Bool
  exhausted : Bool
  fault : Bool

inductive FileOp where
  | cancelled
  | exhausted
  | now
  | token
  | createShard (ns : CacheNamespace) (shard : UInt8)
  | readShards (ns : CacheNamespace)
  | readShard (ns : CacheNamespace) (shard : UInt8)
  | modified (path : Path)
  | modifiedOld (path : Path) (age : Nat)
  | newestOld (path : Path) (age : Nat)
  | heartbeatOld (path : Path) (age : Nat)
  | size (path : Path)
  | totalSize
  | createDir (path : Path)
  | rename (source destination : Path)
  | readOwner (path : Path)
  | writeOwner (path : Path) (owner : Token)
  | writeHeartbeat (path : Path)
  | refreshHeartbeat (path : Path)
  | createPayload (path : Path)
  | appendPayload (inode : Nat) (bytes : List UInt8)
  | createMetadata (path : Path)
  | writeMetadata (inode : Nat) (envelope : CacheEnvelope) (length : Nat)
  | readMetadata (path : Path)
  | openPayload (path : Path)
  | readOpen
  | openDir (path : Path)
  | unlink (inode : Nat) (file : File)
  | removeDir (path : Path)
  | sync

abbrev IoResult := Except IoError

@[reducible] def FileOp.Resp : FileOp → Type
  | .cancelled | .exhausted => Bool
  | .now => Nat
  | .token => Token
  | .readShards _ => IoResult (List UInt8)
  | .readShard _ _ => IoResult (List Name)
  | .modified _ | .size _ | .totalSize => IoResult Nat
  | .modifiedOld _ _ | .newestOld _ _ | .heartbeatOld _ _ => IoResult Bool
  | .readOwner _ => IoResult Token
  | .createPayload _ | .createMetadata _ => IoResult Nat
  | .readMetadata _ => IoResult MetadataFile
  | .openPayload _ => IoResult (List UInt8)
  | .openDir _ => IoResult (Nat × List File)
  | .createShard _ _ | .createDir _ | .rename _ _ | .writeOwner _ _ | .writeHeartbeat _
  | .refreshHeartbeat _ | .appendPayload _ _ | .writeMetadata _ _ _ | .unlink _ _ | .removeDir _
  | .readOpen | .sync => IoResult Unit

namespace Files

/-- An answer about the directory at a path. -/
def ask {α : Type} (fs : Files) (path : Path) (f : Directory → Option α) : IoResult α × Files :=
  match (fs.at? path).bind f with
  | some a => (.ok a, fs)
  | none => (.error .notFound, fs)

/-- A change of the directory at a path. -/
def change {α : Type} (fs : Files) (path : Path) (f : Nat → Directory → IoResult (α × Directory)) :
    IoResult α × Files :=
  match fs.names.get? path with
  | none => (.error .notFound, fs)
  | some inode =>
    match f inode (fs.dirs inode) with
    | .error e => (.error e, fs)
    | .ok (a, d) => (.ok a, fs.setDir inode d)

/-- An entry was added to or removed from a directory. -/
def stamp (now : Nat) (d : Directory) : Directory :=
  { d with modified := now, newest := max d.newest now }

/-- A file of a directory was written. -/
def touch (now : Nat) (d : Directory) : Directory := { d with newest := max d.newest now }

def newDirectory (process now : Nat) : Directory := ⟨now, now, process, none, none, none, none⟩

def createDir (fs : Files) (process now : Nat) (path : Path) : IoResult Unit × Files :=
  if ¬fs.hasShard path then (.error .notFound, fs)
  else if (fs.names.get? path).isSome then (.error .alreadyExists, fs)
  else (.ok (), { fs.setDir fs.next (newDirectory process now) with
    names := fs.names.insert path fs.next
    next := fs.next + 1 })

/-- `rename(2)` on directories: it replaces an empty directory and no other. -/
def rename (fs : Files) (source destination : Path) : IoResult Unit × Files :=
  match fs.names.get? source with
  | none => (.error .notFound, fs)
  | some inode =>
    match fs.names.get? destination with
    | none =>
      if ¬fs.hasShard destination then (.error .notFound, fs)
      else (.ok (), { fs with names := (fs.names.erase source).insert destination inode })
    | some other =>
      if inode = other then (.ok (), fs)
      else if (fs.dirs other).files ≠ [] then (.error .notEmpty, fs)
      else (.ok (), { fs with names := (fs.names.erase source).insert destination inode })

def removeDir (fs : Files) (path : Path) : IoResult Unit × Files :=
  match fs.names.get? path with
  | none => (.error .notFound, fs)
  | some inode =>
    if (fs.dirs inode).files ≠ [] then (.error .notEmpty, fs)
    else (.ok (), { fs with names := fs.names.erase path })

end Files

/-- The effect of an operation that does not fail. -/
def FileOp.effect (env : Env) (fs : Files) : (o : FileOp) → o.Resp × Files
  | .cancelled => (env.cancelled, fs)
  | .exhausted => (env.exhausted, fs)
  | .now => (env.now, fs)
  | .token => (env.token, fs)
  | .createShard ns shard =>
    (.ok (), if (ns, shard) ∈ fs.shards then fs else { fs with shards := (ns, shard) :: fs.shards })
  | .readShards ns => (.ok ((fs.shards.filter fun s => s.1 = ns).map Prod.snd), fs)
  | .readShard ns shard => if (ns, shard) ∈ fs.shards then (.ok (fs.namesIn ns shard), fs)
    else (.error .notFound, fs)
  | .modified path => fs.ask path fun d => some d.modified
  | .modifiedOld path age => fs.ask path fun d => some (env.now - d.modified ≥ age)
  | .newestOld path age => fs.ask path fun d => some (env.now - d.newest ≥ age)
  | .heartbeatOld path age => fs.ask path fun d => d.heartbeat.map fun time => env.now - time ≥ age
  | .size path => fs.ask path fun d => some d.size
  -- As for one directory, the sum is that of the source below 2^64 bytes.
  | .totalSize => (.ok ((fs.names.entries.map fun e => (fs.dirs e.2).size).sum), fs)
  | .createDir path => fs.createDir env.process env.now path
  | .rename source destination => fs.rename source destination
  | .readOwner path => fs.ask path fun d => d.owner
  | .writeOwner path owner => fs.change path fun _ d =>
    .ok ((), { Files.stamp env.now d with owner := some owner })
  | .writeHeartbeat path => fs.change path fun _ d =>
    .ok ((), { Files.stamp env.now d with heartbeat := some env.now })
  | .refreshHeartbeat path => fs.change path fun _ d => if d.heartbeat.isNone then .error .notFound
    else .ok ((), { Files.touch env.now d with heartbeat := some env.now })
  | .createPayload path => fs.change path fun inode d => if d.payload.isSome then
      .error .alreadyExists
    else .ok (inode, { Files.stamp env.now d with payload := some [] })
  | .appendPayload inode bytes => (.ok (), fs.setDir inode { Files.touch env.now (fs.dirs inode) with
      payload := (fs.dirs inode).payload.map (· ++ bytes) })
  | .createMetadata path => fs.change path fun inode d => if d.metadata.isSome then
      .error .alreadyExists
    else .ok (inode, { Files.stamp env.now d with metadata := some .incomplete })
  | .writeMetadata inode envelope length => (.ok (), fs.setDir inode
      { Files.touch env.now (fs.dirs inode) with
        metadata := (fs.dirs inode).metadata.map fun _ => .envelope envelope length })
  | .readMetadata path => fs.ask path fun d => d.metadata
  | .openPayload path => fs.ask path fun d => d.payload
  | .readOpen => (.ok (), fs)
  | .openDir path => match fs.names.get? path with
    | none => (.error .notFound, fs)
    | some inode => (.ok (inode, if env.reversed then (fs.dirs inode).files.reverse
        else (fs.dirs inode).files), fs)
  | .unlink inode file => if file ∈ (fs.dirs inode).files then
      (.ok (), fs.setDir inode (Files.stamp env.now ((fs.dirs inode).unlink file)))
    else (.error .notFound, fs)
  | .removeDir path => fs.removeDir path
  | .sync => (.ok (), fs)

/-- The answer of an operation that fails. -/
def FileOp.failure : (o : FileOp) → Option o.Resp
  | .cancelled | .exhausted | .now | .token => none
  | .readShards _ | .readShard _ _ | .modified _ | .modifiedOld _ _ | .newestOld _ _
  | .heartbeatOld _ _ | .size _ | .totalSize | .readOwner _ | .createPayload _ | .createMetadata _
  | .readMetadata _ | .openPayload _ | .readOpen | .openDir _ | .createShard _ _ | .createDir _
  | .rename _ _
  | .writeOwner _ _ | .writeHeartbeat _ | .refreshHeartbeat _ | .appendPayload _ _
  | .writeMetadata _ _ _ | .unlink _ _ | .removeDir _
  | .sync => some (.error .other)

/-- One atomic step. -/
def FileOp.eval (o : FileOp) (env : Env) (fs : Files) : o.Resp × Files :=
  match if env.fault then o.failure else none with
  | some r => (r, fs)
  | none => o.effect env fs

/-- Operations that only read. -/
def FileOp.Reading : FileOp → Prop
  | .cancelled | .exhausted | .now | .token | .readShards _ | .readShard _ _ | .modified _
  | .modifiedOld _ _ | .newestOld _ _ | .heartbeatOld _ _ | .size _ | .totalSize | .readOwner _
  | .readMetadata _ | .openPayload _ | .readOpen | .openDir _ | .sync => True
  | _ => False

theorem Files.ask_snd {α : Type} (fs : Files) (path : Path) (f : Directory → Option α) :
    (fs.ask path f).2 = fs := by
  rw [ask]
  split <;> rfl

theorem FileOp.Reading.eval {o : FileOp} (h : o.Reading) (env : Env) (fs : Files) :
    (o.eval env fs).2 = fs := by
  have heffect : (o.effect env fs).2 = fs := by
    cases o with
    | readShard ns shard => rw [effect]; split <;> rfl
    | openDir path => rw [effect]; split <;> rfl
    | modified | modifiedOld | newestOld | heartbeatOld | size | readOwner | readMetadata |
      openPayload => exact Files.ask_snd ..
    | cancelled | exhausted | now | token | readShards | totalSize | readOpen | sync => rfl
    | createShard | createDir | rename | writeOwner | writeHeartbeat | refreshHeartbeat |
      createPayload | appendPayload | createMetadata | writeMetadata | unlink | removeDir =>
      cases h
  rw [FileOp.eval]
  split
  · rfl
  · exact heffect

/-- An environment without failures, exceeded limits and cancellation. -/
structure Env.Quiet (env : Env) : Prop where
  fault : env.fault = false
  exhausted : env.exhausted = false
  cancelled : env.cancelled = false

theorem FileOp.eval_quiet {o : FileOp} {env : Env} {fs : Files} (h : env.fault = false) :
    o.eval env fs = o.effect env fs := by
  rw [eval, h]
  rfl

end ModelWeights.Cache
