import ModelWeights.Error
import ModelWeights.Lib.Parsing
import Mathlib.Data.List.TakeDrop

/-! # The buffered header reader

`Reader` reads a GGUF header through a buffer of 64 KiB. A read that stays within
the file and the header limit behaves as a plain cursor: it returns the bytes at
the offset and moves on. -/
namespace ModelWeights.Gguf
open Parsing

/-- What a reader reads: a file whose size is a `u64`, the header limit and the
token of the call. -/
structure HeaderSource where
  bytes : List UInt8
  limit : Nat
  cancellation : CancellationToken
  fits : bytes.length < u64Size

/-- The offset of the reader, and the filled part of its buffer. -/
structure Reader where
  offset : Nat
  bufferStart : Nat
  buffer : List UInt8
  deriving DecidableEq, Repr

abbrev ReadM := StateT Reader Result

def Reader.new : Reader := ⟨0, 0, []⟩

def readerBufferBytes : Nat := 64 * 1024

def truncated : Error := .invalid "GGUF header is truncated"

def readExactAt (file : List UInt8) (offset amount : Nat) : Result (List UInt8) :=
  if offset + amount ≤ file.length then .ok ((file.drop offset).take amount)
  else .error (.integrity "checkpoint source ended before a validated span")

section Reads
variable (src : HeaderSource)

def fillBuffer (r : Reader) : Result Reader := do
  let remaining := min src.bytes.length src.limit - r.offset
  if remaining = 0 then .error truncated
  else
    let buffer ← readExactAt src.bytes r.offset (min remaining readerBufferBytes)
    .ok { r with bufferStart := r.offset, buffer }

/-- The buffer with the byte at the offset in it. -/
def ensureBuffer (r : Reader) : Result Reader := do
  let bufferEnd ← okOr (checkedAdd r.bufferStart r.buffer.length)
    (.limit "GGUF read buffer end overflows u64")
  if r.offset < r.bufferStart ∨ r.offset ≥ bufferEnd then fillBuffer src r else .ok r

/-- The loop of `read_into`; a round copies at least one byte, so `fuel` rounds
are enough for `fuel` bytes. -/
def readInto : Nat → Nat → Reader → Result (List UInt8 × Reader)
  | _, 0, r => .ok ([], r)
  | 0, _ + 1, _ => .error truncated
  | fuel + 1, wanted + 1, r => do
    src.cancellation.check
    let r ← ensureBuffer src r
    let available := r.buffer.drop (r.offset - r.bufferStart)
    let copied := available.take (wanted + 1)
    let offset ← okOr (checkedAdd r.offset copied.length)
      (.limit "GGUF buffered read offset overflows u64")
    let (rest, r) ← readInto fuel (wanted + 1 - copied.length) { r with offset }
    .ok (copied ++ rest, r)

/-- The bounds that `read` and `bytes` check. -/
def checkEnd (length : Nat) (overflow : String) (r : Reader) : Result Unit := do
  let finish ← okOr (checkedAdd r.offset length) (.limit overflow)
  if finish > src.limit then .error (.limit "GGUF header length violates the configured limit")
  else if finish > src.bytes.length then .error truncated
  else .ok ()

/-- `Reader::read::<N>`. -/
def read (length : Nat) : ReadM (List UInt8) := fun r => do
  src.cancellation.check
  checkEnd src length "GGUF header offset overflows u64" r
  readInto src length length r

def readBytes (length : Nat) : ReadM (List UInt8) := fun r => do
  checkEnd src length "GGUF byte string end overflows u64" r
  readInto src length length r

def boundedCount (value maximum : Nat) (description : String) : Result Nat :=
  if value ≥ u64Size then .error (.limit (description ++ " does not fit usize"))
  else if value > maximum then .error (.limit (description ++ " exceeds the configured limit"))
  else .ok value

/-- A little-endian word of some bytes. -/
def readWord (width : Nat) : ReadM Nat := do
  let bytes ← read src width
  return leNat bytes

def readU32 : ReadM Nat := readWord src 4

def readU64 : ReadM Nat := readWord src 8

def decodeUtf8 (bytes : List UInt8) (description : String) : Result String :=
  match String.fromUTF8? ⟨bytes.toArray⟩ with
  | some text => .ok text
  | none => .error (.invalid (description ++ " is not valid UTF-8"))

def readString (maximum : Nat) (description : String) : ReadM String := do
  let length ← readU64 src
  let length ← boundedCount length maximum description
  let bytes ← readBytes src length
  decodeUtf8 bytes description

def readBoolean : ReadM Bool := do
  let value ← readWord src 1
  if value = 0 then return false
  else if value = 1 then return true
  else throw (.invalid "GGUF Boolean metadata is neither zero nor one")

end Reads

/-! ## The reader as a cursor -/

/-- The buffer holds the bytes of the file it claims to hold. -/
structure Reader.Valid (src : HeaderSource) (r : Reader) : Prop where
  start : r.bufferStart ≤ src.bytes.length
  buffered : r.buffer <+: src.bytes.drop r.bufferStart

/-- The header goes on with `bytes` at the offset of the reader, up to `finish`. -/
structure At (src : HeaderSource) (finish : Nat) (r : Reader) (bytes : List UInt8) : Prop where
  valid : r.Valid src
  rest : bytes <+: src.bytes.drop r.offset
  offset : r.offset ≤ src.bytes.length
  ends : r.offset + bytes.length = finish
  within : finish ≤ src.limit

theorem prefix_drop {α : Type} {l₁ l₂ : List α} (h : l₁ <+: l₂) (n : Nat) :
    l₁.drop n <+: l₂.drop n := by
  obtain ⟨t, rfl⟩ := h
  rw [List.drop_append]
  exact List.prefix_append _ _

section Cursor
variable {src : HeaderSource} {finish : Nat} {r : Reader}

theorem Reader.Valid.bound (h : r.Valid src) :
    r.bufferStart + r.buffer.length ≤ src.bytes.length := by
  have := h.buffered.length_le
  have := h.start
  rw [List.length_drop] at *
  omega

theorem ensureBuffer_ok (hv : r.Valid src) (ho : r.offset < src.bytes.length)
    (hl : r.offset < src.limit) :
    ∃ r', ensureBuffer src r = .ok r' ∧ r'.Valid src ∧ r'.offset = r.offset ∧
      r'.bufferStart ≤ r'.offset ∧ r'.offset < r'.bufferStart + r'.buffer.length := by
  have hfits := src.fits
  have hend : r.bufferStart + r.buffer.length < u64Size := Nat.lt_of_le_of_lt hv.bound hfits
  have hensure : ensureBuffer src r = if r.offset < r.bufferStart ∨
      r.offset ≥ r.bufferStart + r.buffer.length then fillBuffer src r else .ok r := by
    unfold ensureBuffer
    rw [checkedAdd_eq_some.mpr ⟨hend, rfl⟩]
    rfl
  rw [hensure]
  split
  · have hpos : min src.bytes.length src.limit - r.offset ≠ 0 := by omega
    have hread : r.offset + min (min src.bytes.length src.limit - r.offset) readerBufferBytes ≤
        src.bytes.length := by omega
    have hbuf : 0 < readerBufferBytes := by decide
    unfold fillBuffer readExactAt
    simp only [if_neg hpos, if_pos hread]
    refine ⟨_, rfl, ⟨Nat.le_of_lt ho, List.take_prefix _ _⟩, rfl, Nat.le_refl _, ?_⟩
    show r.offset < r.offset + ((src.bytes.drop r.offset).take _).length
    rw [List.length_take, List.length_drop]
    omega
  · next hin => exact ⟨r, rfl, hv, rfl, by omega, by omega⟩

/-- A read within the file and the limit returns the bytes at the offset. -/
theorem readInto_ok (hc : src.cancellation.cancelled = false) : ∀ {fuel wanted : Nat} {r : Reader},
    wanted ≤ fuel → r.Valid src → r.offset + wanted ≤ src.bytes.length →
    r.offset + wanted ≤ src.limit →
    ∃ r', readInto src fuel wanted r = .ok ((src.bytes.drop r.offset).take wanted, r') ∧
      r'.Valid src ∧ r'.offset = r.offset + wanted := by
  intro fuel
  induction fuel with
  | zero =>
    intro wanted r hw hv _ _
    obtain rfl : wanted = 0 := by omega
    exact ⟨r, by simp [readInto], hv, rfl⟩
  | succ fuel ih =>
    intro wanted r hw hv ho hl
    cases wanted with
    | zero => exact ⟨r, by simp [readInto], hv, rfl⟩
    | succ wanted =>
      obtain ⟨r₁, h₁, hv₁, ho₁, hle, hlt⟩ := ensureBuffer_ok hv (by omega) (by omega)
      have hfits := src.fits
      generalize havailable : r₁.buffer.drop (r₁.offset - r₁.bufferStart) = available
      -- what is copied are the next bytes of the file
      have hnext : available <+: src.bytes.drop r.offset := by
        have := prefix_drop hv₁.buffered (r₁.offset - r₁.bufferStart)
        rwa [List.drop_drop, havailable,
          show r₁.bufferStart + (r₁.offset - r₁.bufferStart) = r.offset by omega] at this
      have hlen : 0 < available.length := by
        rw [← havailable, List.length_drop]
        omega
      have hcopied : available.take (wanted + 1) =
          (src.bytes.drop r.offset).take (min (wanted + 1) available.length) := by
        rw [← List.take_take, ← List.prefix_iff_eq_take.mp hnext]
      have hcount : (available.take (wanted + 1)).length = min (wanted + 1) available.length :=
        List.length_take
      generalize min (wanted + 1) available.length = count at hcopied hcount
      have hcle : count ≤ wanted + 1 := by
        rw [← hcount]
        exact List.length_take_le _ _
      have hcpos : 0 < count := by
        rw [← hcount, List.length_take]
        omega
      have hadd : r₁.offset + count < u64Size := by omega
      obtain ⟨r₂, h₂, hv₂, ho₂⟩ := @ih (wanted + 1 - count)
        { r₁ with offset := r₁.offset + count } (by omega) ⟨hv₁.start, hv₁.buffered⟩
        (by show r₁.offset + count + _ ≤ _; omega) (by show r₁.offset + count + _ ≤ _; omega)
      refine ⟨r₂, ?_, hv₂, ?_⟩
      · rw [readInto]
        simp only [CancellationToken.check, hc, Bool.false_eq_true, if_false, h₁, havailable,
          hcount, checkedAdd_eq_some.mpr ⟨hadd, rfl⟩, okOr, bind, Except.bind, h₂]
        rw [hcopied]
        congr 2
        show _ ++ (src.bytes.drop (r₁.offset + count)).take _ = _
        rw [ho₁, ← List.drop_drop, ← List.take_add]
        congr 1
        omega
      · rw [ho₂]
        show r₁.offset + count + _ = _
        omega

theorem At.length_le {bytes : List UInt8} (h : At src finish r bytes) :
    r.offset + bytes.length ≤ src.bytes.length := by
  have := h.rest.length_le
  have := h.offset
  rw [List.length_drop] at *
  omega

/-- What is read at the offset, and where the reader is after it. -/
theorem At.readInto (hc : src.cancellation.cancelled = false) {bytes rest : List UInt8}
    (h : At src finish r (bytes ++ rest)) :
    ∃ r', readInto src bytes.length bytes.length r = .ok (bytes, r') ∧ At src finish r' rest := by
  have hlen := h.length_le
  have hends := h.ends
  have hwithin := h.within
  rw [List.length_append] at hlen hends
  obtain ⟨r', hr, hv, ho⟩ := readInto_ok hc (Nat.le_refl bytes.length) h.valid
    (by omega) (by omega)
  obtain ⟨tail, htail⟩ := h.rest
  refine ⟨r', ?_, hv, ?_, by omega, by omega, hwithin⟩
  · rw [hr, ← htail, List.append_assoc, List.take_left]
  · rw [ho, ← List.drop_drop, ← htail, List.append_assoc, List.drop_left]
    exact List.prefix_append _ _

theorem At.checkEnd {bytes rest : List UInt8} (h : At src finish r (bytes ++ rest))
    (overflow : String) :
    checkEnd src bytes.length overflow r = .ok () := by
  have hlen := h.length_le
  have hends := h.ends
  have hwithin := h.within
  have hfits := src.fits
  rw [List.length_append] at hlen hends
  have hadd : r.offset + bytes.length < u64Size := by omega
  unfold Gguf.checkEnd
  rw [checkedAdd_eq_some.mpr ⟨hadd, rfl⟩]
  show (if _ > _ then _ else _) = _
  rw [if_neg (by omega), if_neg (by omega)]

end Cursor

/-! ## Readers of encoded values -/

section Parsers
variable {src : HeaderSource} {finish : Nat} (hc : src.cancellation.cancelled = false)
include hc

theorem parses_read (bytes : List UInt8) :
    Parses (At src finish) (read src bytes.length) bytes bytes := by
  intro r rest h
  obtain ⟨r', hr, h'⟩ := h.readInto hc
  refine ⟨r', ?_, h'⟩
  unfold read
  rw [h.checkEnd, hr]
  simp only [CancellationToken.check, hc]
  rfl

theorem parses_readBytes (bytes : List UInt8) :
    Parses (At src finish) (readBytes src bytes.length) bytes bytes := by
  intro r rest h
  obtain ⟨r', hr, h'⟩ := h.readInto hc
  refine ⟨r', ?_, h'⟩
  unfold readBytes
  rw [h.checkEnd, hr]
  rfl

theorem parses_readWord (width : Nat) {n : Nat} (h : n < 256 ^ width) :
    Parses (At src finish) (readWord src width) n (leBytes width n) := by
  have hread := @parses_read src finish hc (leBytes width n)
  rw [length_leBytes] at hread
  have := hread.map (f := leNat)
  rwa [leNat_leBytes h] at this

end Parsers

/-- A count within its bounds. -/
theorem boundedCount_ok {value maximum : Nat} {description : String} (hv : value < u64Size)
    (hm : value ≤ maximum) : boundedCount value maximum description = .ok value := by
  unfold boundedCount
  rw [if_neg (by omega), if_neg (by omega)]

/-! ### Strings -/

def encodeString (text : String) : List UInt8 := leBytes 8 (utf8 text).length ++ utf8 text

theorem decodeUtf8_utf8 (text description : String) :
    decodeUtf8 (utf8 text) description = .ok text := by
  have hbytes : (⟨(utf8 text).toArray⟩ : ByteArray) = text.toByteArray := by
    simp [utf8]
  unfold decodeUtf8 String.fromUTF8?
  rw [hbytes, dif_pos text.isValidUTF8]
  rfl

theorem parses_readString {src : HeaderSource} {finish : Nat}
    (hc : src.cancellation.cancelled = false) {text : String} {maximum : Nat}
    {description : String} (hm : (utf8 text).length ≤ maximum)
    (hlen : (utf8 text).length < u64Size) :
    Parses (At src finish) (readString src maximum description) text (encodeString text) := by
  refine (parses_readWord hc 8 hlen).bind ?_
  refine Parses.then (Parses.lift (boundedCount_ok hlen hm)) ?_
  exact (parses_readBytes hc (utf8 text)).last
    (Parses.lift (decodeUtf8_utf8 text description))

end ModelWeights.Gguf
