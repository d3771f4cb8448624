import ModelWeights.Lib.Success
import ModelWeights.Prepared.Checkpoint
import ModelWeights.Prepared.HostBytes

/-! # What reads of a checkpoint return

A file that serves some bytes answers every read with some of what is there: reads may be
short, and they may fail. Whatever a span is read with, a copy in blocks or a mapping, a
view that is returned holds the bytes of the span. -/
namespace ModelWeights.Prepared
open ModelWeights.Graph

namespace CheckpointFile

/-- The file holds the bytes: reads return some of what is at their offset, and a mapping
holds all of it. -/
structure Serves (file : CheckpointFile) (bytes : Bytes) : Prop where
  size : file.size = bytes.length
  fits : bytes.length < u64Size
  reads : ∀ offset length answer, file.readAt offset length = .ok answer →
    answer <+: bytes.drop offset
  mapping : ∀ mapped, file.mapping = .ok mapped → mapped = bytes

/-- Reads do not fail, and find bytes up to the end of the file. Where the file cannot be
mapped, the reason is one that lets copies stand in. -/
structure Answers (file : CheckpointFile) : Prop where
  reads : ∀ offset length, 0 < length → offset + length ≤ file.size →
    ∃ answer, file.readAt offset length = .ok answer ∧ answer ≠ []
  mapping : ∀ e, file.mapping = .error e → e.category = .io ∨ e.category = .unsupported

variable {file : CheckpointFile} {bytes : Bytes} {span : SourceSpan}
  {cancellation : CancellationToken}

/-! ## Copies -/

theorem Serves.take_of_read (h : file.Serves bytes) {offset length : Nat} {answer : Bytes}
    (hread : file.readAt offset length = .ok answer) :
    answer = (bytes.drop offset).take answer.length :=
  List.prefix_iff_eq_take.mp (h.reads offset length answer hread)

/-- Short reads are put together to the bytes that were asked for. -/
theorem Serves.readExactAt (h : file.Serves bytes) {fuel : Nat} : ∀ {offset remaining : Nat}
    {out : Bytes}, file.readExactAt fuel offset remaining = .ok out →
      out = (bytes.drop offset).take remaining := by
  induction fuel with
  | zero =>
    intro offset remaining out hout
    cases remaining with
    | zero =>
      obtain rfl := Except.ok.inj hout
      rfl
    | succ remaining => cases hout
  | succ fuel ih =>
    intro offset remaining out hout
    cases remaining with
    | zero =>
      obtain rfl := Except.ok.inj hout
      rfl
    | succ remaining =>
      obtain ⟨answer, hread, hout⟩ := bind_ok hout
      obtain ⟨_, hout⟩ := unless_error_ok hout
      obtain ⟨next, hnext, hout⟩ := bind_ok hout
      obtain ⟨rest, hrest, hout⟩ := bind_ok hout
      obtain rfl := Except.ok.inj hout
      obtain ⟨_, rfl⟩ := checkedAdd_eq_some.mp (okOr_eq_ok.mp hnext)
      have hle := file.atMost _ _ _ hread
      have hsplit : remaining + 1 = answer.length + (remaining + 1 - answer.length) := by omega
      rw [ih hrest, hsplit, List.take_add, ← h.take_of_read hread, List.drop_drop,
        Nat.add_sub_cancel_left]

theorem Answers.readExactAt (h : file.Answers) (hserves : file.Serves bytes) {fuel : Nat} :
    ∀ {offset remaining : Nat}, remaining ≤ fuel → offset + remaining ≤ file.size →
      ∃ out, file.readExactAt fuel offset remaining = .ok out := by
  induction fuel with
  | zero =>
    intro offset remaining hfuel _
    obtain rfl := Nat.le_zero.mp hfuel
    exact ⟨[], rfl⟩
  | succ fuel ih =>
    intro offset remaining hfuel hsize
    cases remaining with
    | zero => exact ⟨[], rfl⟩
    | succ remaining =>
      obtain ⟨answer, hread, hne⟩ := h.reads offset (remaining + 1) (Nat.succ_pos _) hsize
      have hle := file.atMost _ _ _ hread
      have hpos := List.length_pos_iff.mpr hne
      have hfits := hserves.fits
      rw [← hserves.size] at hfits
      obtain ⟨rest, hrest⟩ := @ih (offset + answer.length) (remaining + 1 - answer.length)
        (by omega) (by omega)
      refine ⟨answer ++ rest, ?_⟩
      simp only [CheckpointFile.readExactAt, bind_eq_ok_iff, guard_eq_ok_iff, okOr_eq_ok,
        checkedAdd_eq_some, List.isEmpty_iff]
      exact ⟨answer, hread, hne, _, ⟨by omega, rfl⟩, rest, hrest, rfl⟩

/-- Blocks that follow one another are the bytes from the first one on. -/
theorem Serves.readBlocks (h : file.Serves bytes) {lengths : List Nat} :
    ∀ {relative : Nat} {out : Bytes},
      file.readBlocks span cancellation relative lengths = .ok out →
        out = (bytes.drop (span.offset + relative)).take lengths.sum := by
  induction lengths with
  | nil =>
    intro relative out hout
    obtain rfl := Except.ok.inj hout
    rfl
  | cons length rest ih =>
    intro relative out hout
    obtain ⟨_, _, hout⟩ := bind_ok hout
    obtain ⟨offset, hoffset, hout⟩ := bind_ok hout
    obtain ⟨block, hblock, hout⟩ := bind_ok hout
    obtain ⟨blocks, hblocks, hout⟩ := bind_ok hout
    obtain rfl := Except.ok.inj hout
    obtain ⟨_, rfl⟩ := checkedAdd_eq_some.mp (okOr_eq_ok.mp hoffset)
    rw [h.readExactAt hblock, ih hblocks, List.sum_cons, List.take_add, List.drop_drop,
      Nat.add_assoc]

theorem Answers.readBlocks (h : file.Answers) (hserves : file.Serves bytes)
    (hc : cancellation.cancelled = false) {lengths : List Nat} : ∀ {relative : Nat},
      span.offset + relative + lengths.sum ≤ file.size →
        ∃ out, file.readBlocks span cancellation relative lengths = .ok out := by
  induction lengths with
  | nil => exact fun _ => ⟨[], rfl⟩
  | cons length rest ih =>
    intro relative hsize
    rw [List.sum_cons] at hsize
    have hfits := hserves.fits
    rw [← hserves.size] at hfits
    obtain ⟨block, hblock⟩ := h.readExactAt hserves (Nat.le_refl length)
      (show span.offset + relative + length ≤ file.size by omega)
    obtain ⟨blocks, hblocks⟩ := @ih (relative + length) (by omega)
    refine ⟨block ++ blocks, ?_⟩
    simp only [CheckpointFile.readBlocks, bind_eq_ok_iff, okOr_eq_ok, checkedAdd_eq_some]
    exact ⟨(), CancellationToken.check_eq_ok hc, _, ⟨by omega, rfl⟩, block, hblock, blocks,
      hblocks, rfl⟩

/-! ## Views -/

theorem Serves.readOwned (h : file.Serves bytes) {view : ByteView}
    (hview : file.readOwned span cancellation = .ok view) : view.bytes = spanOf bytes span := by
  obtain ⟨out, hout, hview⟩ := bind_ok hview
  obtain ⟨_, _, hview⟩ := bind_ok hview
  obtain rfl := Except.ok.inj hview
  rw [ByteView.fromBoxed, h.readBlocks hout, sum_blockLengths, Nat.add_zero, spanOf]

theorem Serves.readMapped (h : file.Serves bytes) {view : ByteView}
    (hview : file.readMapped span = .ok view) : view.bytes = spanOf bytes span := by
  obtain ⟨_, hview⟩ := unless_error_ok hview
  obtain ⟨mapped, hmapped, hview⟩ := bind_ok hview
  obtain ⟨_, hview⟩ := unless_error_ok hview
  obtain rfl := Except.ok.inj hview
  rw [h.mapping mapped hmapped, spanOf]

/-- Every way to read a span returns its bytes. -/
theorem Serves.readSpan (h : file.Serves bytes) {access : AccessMode} {view : ByteView}
    (hview : file.readSpan span access cancellation = .ok view) :
    view.bytes = spanOf bytes span := by
  obtain ⟨_, hview⟩ := unless_error_ok hview
  cases access with
  | read => exact h.readOwned hview
  | mmap => exact h.readMapped hview
  | auto =>
    dsimp only at hview
    by_cases hlocal : file.kind = .local
    · rw [if_pos hlocal] at hview
      exact h.readOwned hview
    · rw [if_neg hlocal] at hview
      cases hmapped : file.readMapped span with
      | ok mapped =>
        rw [hmapped] at hview
        obtain rfl := Except.ok.inj hview
        exact h.readMapped hmapped
      | error e =>
        rw [hmapped] at hview
        dsimp only at hview
        split at hview
        · exact h.readOwned hview
        · cases hview

theorem Answers.readOwned (h : file.Answers) (hserves : file.Serves bytes)
    (hc : cancellation.cancelled = false) (hsize : span.finish ≤ file.size) :
    ∃ view, file.readOwned span cancellation = .ok view := by
  obtain ⟨out, hout⟩ : ∃ out, file.readBlocks span cancellation 0 (blockLengths span.length) =
      .ok out := h.readBlocks hserves hc (by rw [sum_blockLengths]; exact hsize)
  refine ⟨.fromBoxed out, ?_⟩
  simp only [CheckpointFile.readOwned, bind_eq_ok_iff]
  exact ⟨out, hout, (), CancellationToken.check_eq_ok hc, rfl⟩

/-- Where a span of a file cannot be mapped, copies stand in. -/
theorem Answers.readMapped (h : file.Answers) (hserves : file.Serves bytes)
    (hsize : span.finish ≤ file.size) {e : Error} (he : file.readMapped span = .error e) :
    e.category = .io ∨ e.category = .unsupported := by
  unfold CheckpointFile.readMapped at he
  split at he
  · obtain rfl := Except.error.inj he
    exact .inr rfl
  · cases hmapping : file.mapping with
    | error other =>
      rw [hmapping] at he
      obtain rfl := Except.error.inj he
      exact h.mapping _ hmapping
    | ok mapped =>
      rw [hserves.size, ← hserves.mapping mapped hmapping] at hsize
      have hok : (if span.finish > mapped.length then .error _ else Except.ok _) = .error e :=
        hmapping ▸ he
      rw [if_neg (Nat.not_lt.mpr hsize)] at hok
      cases hok

/-- A span of a file that answers is read, unless only a mapping is allowed. -/
theorem Answers.readSpan (h : file.Answers) (hserves : file.Serves bytes)
    (hc : cancellation.cancelled = false) (hfile : span.file = file.id)
    (hsize : span.finish ≤ file.size) {access : AccessMode} (haccess : access ≠ .mmap) :
    ∃ view, file.readSpan span access cancellation = .ok view := by
  obtain ⟨view, hview⟩ := h.readOwned hserves hc hsize
  unfold CheckpointFile.readSpan
  rw [if_neg (by rw [not_or, not_not, Nat.not_lt]; exact ⟨hfile, hsize⟩)]
  cases access with
  | mmap => exact absurd rfl haccess
  | read => exact ⟨view, hview⟩
  | auto =>
    dsimp only
    by_cases hlocal : file.kind = .local
    · rw [if_pos hlocal]
      exact ⟨view, hview⟩
    · rw [if_neg hlocal]
      cases hmapped : file.readMapped span with
      | ok mapped => exact ⟨mapped, rfl⟩
      | error e =>
        refine ⟨view, ?_⟩
        dsimp only
        rw [if_pos (h.readMapped hserves hsize hmapped), hview]

end CheckpointFile

end ModelWeights.Prepared
