import ModelWeights.Graph.Execute
import ModelWeights.Storage

/-! # Reading the spans of a checkpoint

`Checkpoint::read_span_with_cancellation` of `checkpoint.rs`. What an opened file and a
mapping of it answer is a parameter; which of the two is asked, in what pieces, and what
is checked is modelled. -/
namespace ModelWeights.Prepared
open ModelWeights.Graph

/-- The bytes of one block of a read. -/
def sourceReadBlockBytes : Nat := 1024 * 1024

inductive AccessMode where
  | auto
  | read
  | mmap
  deriving DecidableEq, Repr

inductive SourceKind where
  | local
  | retainedSnapshot
  deriving DecidableEq, Repr

/-- An opened source file: what a read at an offset and a mapping answer. A read returns at
most as many bytes as it was asked for. -/
structure CheckpointFile where
  id : FileId
  size : Nat
  kind : SourceKind
  readAt : Nat → Nat → Result Bytes
  atMost : ∀ offset length bytes, readAt offset length = .ok bytes → bytes.length ≤ length
  mapping : Result Bytes

namespace CheckpointFile
variable (file : CheckpointFile)

/-- `read_exact_at`, for at most `fuel` reads. -/
def readExactAt : (fuel offset remaining : Nat) → Result Bytes
  | _, _, 0 => .ok []
  | 0, _, _ + 1 => .error (.integrity "checkpoint source ended before a validated span")
  | fuel + 1, offset, remaining + 1 => do
    let bytes ← file.readAt offset (remaining + 1)
    if bytes.isEmpty then .error (.integrity "checkpoint source ended before a validated span")
    else do
      let offset ← okOr (checkedAdd offset bytes.length)
        (.limit "checkpoint read offset overflows u64")
      let rest ← readExactAt fuel offset (remaining + 1 - bytes.length)
      .ok (bytes ++ rest)

/-- The blocks of a span, of the given lengths. -/
def readBlocks (span : SourceSpan) (cancellation : CancellationToken) :
    (relative : Nat) → List Nat → Result Bytes
  | _, [] => .ok []
  | relative, length :: rest => do
    cancellation.check
    let offset ← okOr (checkedAdd span.offset relative)
      (.limit "tensor source block offset overflows u64")
    let block ← file.readExactAt length offset length
    let blocks ← readBlocks span cancellation (relative + length) rest
    .ok (block ++ blocks)

/-- `chunks_mut`: whole blocks, and what is left. -/
def blockLengths (length : Nat) : List Nat :=
  List.replicate (length / sourceReadBlockBytes) sourceReadBlockBytes ++
    if length % sourceReadBlockBytes = 0 then [] else [length % sourceReadBlockBytes]

def readOwned (span : SourceSpan) (cancellation : CancellationToken) : Result ByteView := do
  let bytes ← file.readBlocks span cancellation 0 (blockLengths span.length)
  cancellation.check
  .ok (.fromBoxed bytes)

/-- A mapped view is a range of the mapping, which has an address even if it is empty. -/
def readMapped (span : SourceSpan) : Result ByteView :=
  if file.kind ≠ .retainedSnapshot then
    .error (.unsupported "mapped access requires a retained immutable snapshot")
  else do
    let bytes ← file.mapping
    if span.finish > bytes.length then
      .error (.invalid "byte view range lies outside its owner")
    else .ok ⟨(bytes.drop span.offset).take span.length, false⟩

def readSpan (span : SourceSpan) (access : AccessMode) (cancellation : CancellationToken) :
    Result ByteView :=
  if span.file ≠ file.id ∨ span.finish > file.size then
    .error (.invalid "validated source span lies outside its checkpoint file")
  else
    match access with
    | .read => file.readOwned span cancellation
    | .auto =>
      if file.kind = .local then file.readOwned span cancellation
      else
        match file.readMapped span with
        | .ok view => .ok view
        | .error e =>
          if e.category = .io ∨ e.category = .unsupported then file.readOwned span cancellation
          else .error e
    | .mmap => file.readMapped span

end CheckpointFile

structure Checkpoint where
  files : List CheckpointFile
  access : AccessMode

def Checkpoint.readSpan (checkpoint : Checkpoint) (span : SourceSpan)
    (cancellation : CancellationToken) : Result ByteView := do
  cancellation.check
  let file ← okOr checkpoint.files[span.file]?
    (.invalid "source span refers to an unknown file")
  let view ← file.readSpan span checkpoint.access cancellation
  cancellation.check
  .ok view

/-! ## Lengths -/

namespace CheckpointFile
variable {file : CheckpointFile} {span : SourceSpan} {cancellation : CancellationToken}

theorem length_readExactAt : ∀ {fuel offset remaining : Nat} {bytes : Bytes},
    file.readExactAt fuel offset remaining = .ok bytes → bytes.length = remaining := by
  intro fuel
  induction fuel with
  | zero =>
    intro offset remaining bytes h
    cases remaining with
    | zero =>
      obtain rfl := Except.ok.inj h
      rfl
    | succ remaining => cases h
  | succ fuel ih =>
    intro offset remaining bytes h
    cases remaining with
    | zero =>
      obtain rfl := Except.ok.inj h
      rfl
    | succ remaining =>
      obtain ⟨chunk, hchunk, h⟩ := bind_ok h
      obtain ⟨_, h⟩ := unless_error_ok h
      obtain ⟨next, _, h⟩ := bind_ok h
      obtain ⟨rest, hrest, h⟩ := bind_ok h
      obtain rfl := Except.ok.inj h
      have hle := file.atMost _ _ _ hchunk
      rw [List.length_append, ih hrest]
      omega

theorem length_readBlocks {lengths : List Nat} : ∀ {relative : Nat} {bytes : Bytes},
    file.readBlocks span cancellation relative lengths = .ok bytes →
    bytes.length = lengths.sum := by
  induction lengths with
  | nil =>
    intro relative bytes h
    obtain rfl := Except.ok.inj h
    rfl
  | cons length rest ih =>
    intro relative bytes h
    obtain ⟨_, _, h⟩ := bind_ok h
    obtain ⟨offset, _, h⟩ := bind_ok h
    obtain ⟨block, hblock, h⟩ := bind_ok h
    obtain ⟨blocks, hblocks, h⟩ := bind_ok h
    obtain rfl := Except.ok.inj h
    rw [List.length_append, length_readExactAt hblock, ih hblocks, List.sum_cons]

theorem sum_blockLengths (length : Nat) : (blockLengths length).sum = length := by
  have hparts := Nat.div_add_mod length sourceReadBlockBytes
  unfold blockLengths
  rw [List.sum_append, List.sum_replicate_nat, Nat.mul_comm]
  by_cases h : length % sourceReadBlockBytes = 0
  · rw [if_pos h, List.sum_nil]
    omega
  · rw [if_neg h, List.sum_singleton]
    exact hparts

theorem length_readOwned {view : ByteView} (h : file.readOwned span cancellation = .ok view) :
    view.bytes.length = span.length := by
  obtain ⟨bytes, hbytes, h⟩ := bind_ok h
  obtain ⟨_, _, h⟩ := bind_ok h
  obtain rfl := Except.ok.inj h
  exact (length_readBlocks hbytes).trans (sum_blockLengths span.length)

theorem length_readMapped {view : ByteView} (h : file.readMapped span = .ok view) :
    view.bytes.length = span.length := by
  obtain ⟨_, h⟩ := unless_error_ok h
  obtain ⟨bytes, _, h⟩ := bind_ok h
  obtain ⟨hrange, h⟩ := unless_error_ok h
  obtain rfl := Except.ok.inj h
  unfold SourceSpan.finish at hrange
  rw [List.length_take, List.length_drop]
  omega

theorem length_readSpan {access : AccessMode} {view : ByteView}
    (h : file.readSpan span access cancellation = .ok view) :
    view.bytes.length = span.length := by
  obtain ⟨_, h⟩ := unless_error_ok h
  cases access with
  | read => exact length_readOwned h
  | mmap => exact length_readMapped h
  | auto =>
    dsimp only at h
    by_cases hlocal : file.kind = .local
    · rw [if_pos hlocal] at h
      exact length_readOwned h
    · rw [if_neg hlocal] at h
      cases hmapped : file.readMapped span with
      | ok mapped =>
        rw [hmapped] at h
        obtain rfl := Except.ok.inj h
        exact length_readMapped hmapped
      | error e =>
        rw [hmapped] at h
        dsimp only at h
        split at h
        · exact length_readOwned h
        · cases h

end CheckpointFile

/-- A span that is read has its bytes. -/
theorem Checkpoint.length_readSpan {checkpoint : Checkpoint} {span : SourceSpan}
    {cancellation : CancellationToken} {view : ByteView}
    (h : checkpoint.readSpan span cancellation = .ok view) : view.bytes.length = span.length := by
  obtain ⟨_, _, h⟩ := bind_ok h
  obtain ⟨file, _, h⟩ := bind_ok h
  obtain ⟨read, hread, h⟩ := bind_ok h
  obtain ⟨_, _, h⟩ := bind_ok h
  obtain rfl := Except.ok.inj h
  exact CheckpointFile.length_readSpan hread

end ModelWeights.Prepared
