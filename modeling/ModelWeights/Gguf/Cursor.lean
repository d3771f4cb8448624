import ModelWeights.Gguf.Reader

/-! # The reader against a plain cursor

`Reader` keeps a window of the file, an offset and a limit, each updated on its
own path. Here a call on the reader leaves its state behind whether it fails or
not, a subtraction below zero traps, and the refill loop has no result when its
rounds run out. Over any sequence of reads it is a cursor: an offset that moves
on by what it returns. -/
namespace ModelWeights.Gguf

/-- A call on the reader: its result and the reader it leaves behind. It has
neither when a subtraction underflows or the refill loop does not end. -/
abbrev Call := ExceptT Error (StateT Reader Option)

namespace Call
variable {α β : Type}

def stuck : Call α := ExceptT.mk fun _ => none

def ofResult (x : Result α) : Call α := ExceptT.mk fun r => some (x, r)

/-- A step that replaces the reader when it succeeds. -/
def update (f : Reader → Result Reader) : Call Reader := ExceptT.mk fun r => do
  let next := f r
  return (next, next.toOption.getD r)

/-- `a - b`. -/
def subtract (a b : Nat) : Call Nat := if b ≤ a then ofResult (.ok (a - b)) else stuck

/-- What a call returns from a reader, and the reader it leaves behind. -/
def Ends (x : Call α) (r : Reader) (result : Result α) (r' : Reader) : Prop :=
  StateT.run (ExceptT.run x) r = some (result, r')

theorem Ends.bind {x : Call α} {f : α → Call β} {r r₁ r₂ : Reader} {a : α} {result : Result β}
    (hx : Ends x r (.ok a) r₁) (hf : Ends (f a) r₁ result r₂) : Ends (x >>= f) r result r₂ := by
  unfold Ends at *
  rw [ExceptT.run_bind, StateT.run_bind, hx]
  exact hf

theorem Ends.bind_error {x : Call α} {f : α → Call β} {r r₁ : Reader} {e : Error}
    (hx : Ends x r (.error e) r₁) : Ends (x >>= f) r (.error e) r₁ := by
  unfold Ends at *
  rw [ExceptT.run_bind, StateT.run_bind, hx]
  rfl

theorem Ends.of_pure (a : α) (r : Reader) : Ends (pure a) r (.ok a) r := rfl

theorem Ends.of_result (x : Result α) (r : Reader) : Ends (ofResult x) r x r := rfl

theorem Ends.of_subtract {a b : Nat} (h : b ≤ a) (r : Reader) :
    Ends (subtract a b) r (.ok (a - b)) r := by
  rw [subtract, if_pos h]
  exact Ends.of_result _ _

theorem Ends.of_update {f : Reader → Result Reader} {r r' : Reader} (h : f r = .ok r') :
    Ends (update f) r (.ok r') r' := by
  unfold Ends update
  show some (f r, (f r).toOption.getD r) = _
  rw [h]
  rfl

/-- `x` computes `m`, and also keeps the reader of a failed call. -/
def Computes (x : Call α) (m : ReadM α) : Prop :=
  ∀ r result r', Ends x r result r' → m r = result.map fun a => (a, r')

theorem Computes.bind {x : Call α} {m : ReadM α} {f : α → Call β} {g : α → ReadM β}
    (hx : Computes x m) (hf : ∀ a, Computes (f a) (g a)) : Computes (x >>= f) (m >>= g) := by
  intro r result r' h
  unfold Ends at h
  rw [ExceptT.run_bind, StateT.run_bind] at h
  show (m r >>= fun p => g p.1 p.2) = _
  cases hrun : StateT.run (ExceptT.run x) r with
  | none =>
    rw [hrun] at h
    cases h
  | some p =>
    obtain ⟨outcome, r₁⟩ := p
    rw [hrun] at h
    rw [hx r outcome r₁ hrun]
    cases outcome with
    | error e =>
      cases h
      rfl
    | ok a => exact hf a r₁ result r' h

theorem Computes.of_pure (a : α) : Computes (pure a) (pure a) := by
  intro r result r' h
  cases h
  rfl

theorem Computes.of_result (x : Result α) : Computes (ofResult x) (liftM x) := by
  intro r result r' h
  cases h
  cases x <;> rfl

theorem Computes.of_update (f : Reader → Result Reader) :
    Computes (update f) (fun r => (f r).map fun r' => (r', r')) := by
  intro r result r' h
  have h : some (f r, (f r).toOption.getD r) = some (result, r') := h
  obtain ⟨rfl, rfl⟩ := Prod.mk.inj (Option.some.inj h)
  show (f r).map _ = (f r).map _
  cases f r <;> rfl

theorem Computes.of_subtract (a b : Nat) : Computes (subtract a b) (pure (a - b)) := by
  unfold subtract
  split
  · exact Computes.of_result (.ok (a - b))
  · intro r result r' h
    cases h

end Call

section Calls
variable (src : HeaderSource)

/-- The loop of `read_into`, in at most `fuel` rounds. -/
def readIntoCall : Nat → Nat → Call (List UInt8)
  | _, 0 => pure []
  | 0, _ + 1 => .stuck
  | fuel + 1, wanted + 1 => do
    Call.ofResult src.cancellation.check
    let r ← Call.update (ensureBuffer src)
    let relative ← Call.subtract r.offset r.bufferStart
    let available ← Call.subtract r.buffer.length relative
    let amount := min available (wanted + 1)
    let copied := (r.buffer.drop relative).take amount
    let _ ← Call.update fun r => do
      let offset ← okOr (checkedAdd r.offset amount)
        (.limit "GGUF buffered read offset overflows u64")
      return { r with offset }
    let rest ← readIntoCall fuel (wanted + 1 - amount)
    return copied ++ rest

/-- The bounds that a read checks on the reader as it stands. -/
def checkEndCall (length : Nat) (overflow : String) : Call Unit :=
  ExceptT.mk fun r => some (checkEnd src length overflow r, r)

def readCall (length : Nat) : Call (List UInt8) := do
  Call.ofResult src.cancellation.check
  checkEndCall src length "GGUF header offset overflows u64"
  readIntoCall src length length

def readBytesCall (length : Nat) : Call (List UInt8) := do
  checkEndCall src length "GGUF byte string end overflows u64"
  readIntoCall src length length

/-- A read of a fixed size, or of a byte string. -/
inductive HeaderRead where
  | fixed (length : Nat)
  | bytes (length : Nat)
  deriving DecidableEq, Repr

def HeaderRead.length : HeaderRead → Nat
  | .fixed length => length
  | .bytes length => length

def HeaderRead.call : HeaderRead → Call (List UInt8)
  | .fixed length => readCall src length
  | .bytes length => readBytesCall src length

/-- The results of a sequence of reads on one reader, failed reads included. -/
def runReads : List HeaderRead → Reader → Option (List (Result (List UInt8)) × Reader)
  | [], r => some ([], r)
  | read :: reads, r => do
    let (result, r) ← StateT.run (ExceptT.run (read.call src)) r
    let (results, r) ← runReads reads r
    return (result :: results, r)

/-! ## The plain cursor -/

/-- The bytes a read takes from the file, and the offset after it. -/
def cursorRead (length offset : Nat) : Option (List UInt8) × Nat :=
  if offset + length ≤ src.limit ∧ offset + length ≤ src.bytes.length then
    (some ((src.bytes.drop offset).take length), offset + length)
  else (none, offset)

def cursorReads : List HeaderRead → Nat → List (Option (List UInt8)) × Nat
  | [], offset => ([], offset)
  | read :: reads, offset =>
    let (result, offset) := cursorRead src read.length offset
    let (results, offset) := cursorReads reads offset
    (result :: results, offset)

end Calls

/-! ## The reads of the parser -/

section Computes
variable (src : HeaderSource)

/-- Away from its traps, the loop computes what the loop of the parser does. -/
theorem computes_readInto : ∀ fuel wanted : Nat,
    (readIntoCall src fuel wanted).Computes (readInto src fuel wanted) := by
  intro fuel
  induction fuel with
  | zero =>
    intro wanted
    cases wanted with
    | zero => exact Call.Computes.of_pure []
    | succ wanted =>
      intro r result r' h
      cases h
  | succ fuel ih =>
    intro wanted
    cases wanted with
    | zero => exact Call.Computes.of_pure []
    | succ wanted =>
      have hround := (Call.Computes.of_result src.cancellation.check).bind fun _ =>
        (Call.Computes.of_update (ensureBuffer src)).bind fun r =>
        (Call.Computes.of_subtract r.offset r.bufferStart).bind fun relative =>
        (Call.Computes.of_subtract r.buffer.length relative).bind fun available =>
        (Call.Computes.of_update fun next => do
          let offset ← okOr (checkedAdd next.offset (min available (wanted + 1)))
            (.limit "GGUF buffered read offset overflows u64")
          return { next with offset }).bind fun _ =>
        (ih (wanted + 1 - min available (wanted + 1))).bind fun rest =>
        Call.Computes.of_pure ((r.buffer.drop relative).take (min available (wanted + 1)) ++ rest)
      intro r result r' h
      rw [← hround r result r' h, readInto]
      show (src.cancellation.check >>= _) = _
      cases src.cancellation.check with
      | error e => rfl
      | ok _ =>
        show (ensureBuffer src r >>= _) = (((ensureBuffer src r).map fun r' => (r', r')) >>= _)
        cases ensureBuffer src r with
        | error e => rfl
        | ok r₁ =>
          show (okOr (checkedAdd r₁.offset _) _ >>= _) =
            (((okOr (checkedAdd r₁.offset _) _ >>= _).map _) >>= _)
          have hamount : (((r₁.buffer.drop (r₁.offset - r₁.bufferStart)).take (wanted + 1)).length) =
              min (r₁.buffer.length - (r₁.offset - r₁.bufferStart)) (wanted + 1) := by
            rw [List.length_take, List.length_drop, Nat.min_comm]
          have hcopied : (r₁.buffer.drop (r₁.offset - r₁.bufferStart)).take (wanted + 1) =
              (r₁.buffer.drop (r₁.offset - r₁.bufferStart)).take
                (min (r₁.buffer.length - (r₁.offset - r₁.bufferStart)) (wanted + 1)) := by
            rw [← hamount]
            rw [List.length_take, ← List.take_eq_take_min]
          rw [hamount, hcopied]
          cases okOr (checkedAdd r₁.offset _) _ with
          | error e => rfl
          | ok offset => rfl

theorem computes_checkEnd (length : Nat) (overflow : String) :
    (checkEndCall src length overflow).Computes
      (fun r => (checkEnd src length overflow r).map fun a => (a, r)) := by
  intro r result r' h
  cases h
  rfl

theorem computes_readBytes (length : Nat) :
    (readBytesCall src length).Computes (readBytes src length) := by
  have hcall := (computes_checkEnd src length "GGUF byte string end overflows u64").bind fun _ =>
    computes_readInto src length length
  intro r result r' h
  rw [← hcall r result r' h]
  show (checkEnd src length _ r >>= _) = ((checkEnd src length _ r).map _ >>= _)
  cases checkEnd src length "GGUF byte string end overflows u64" r <;> rfl

theorem computes_read (length : Nat) : (readCall src length).Computes (read src length) := by
  have hcall := (Call.Computes.of_result src.cancellation.check).bind fun _ =>
    (computes_checkEnd src length "GGUF header offset overflows u64").bind fun _ =>
    computes_readInto src length length
  intro r result r' h
  rw [← hcall r result r' h]
  show (src.cancellation.check >>= _) = _
  cases src.cancellation.check with
  | error e => rfl
  | ok _ =>
    show (checkEnd src length _ r >>= _) = ((checkEnd src length _ r).map _ >>= _)
    cases checkEnd src length "GGUF header offset overflows u64" r <;> rfl

end Computes

/-! ## One read -/

section Refinement
variable {src : HeaderSource} {r : Reader}

/-- The bounds hold exactly when the read ends within the limit and the file. -/
theorem checkEnd_eq_ok (length : Nat) (overflow : String) :
    checkEnd src length overflow r = .ok () ↔
      r.offset + length ≤ src.limit ∧ r.offset + length ≤ src.bytes.length := by
  have hfits := src.fits
  unfold checkEnd
  by_cases hadd : r.offset + length < u64Size
  · rw [checkedAdd_eq_some.mpr ⟨hadd, rfl⟩]
    show (if _ > _ then _ else _) = _ ↔ _
    grind
  · have hnone : checkedAdd r.offset length = none := by
      unfold checkedAdd
      rw [if_neg hadd]
    rw [hnone]
    constructor
    · intro h
      cases h
    · intro h
      omega

theorem checkEnd_error {length : Nat} (overflow : String)
    (h : ¬(r.offset + length ≤ src.limit ∧ r.offset + length ≤ src.bytes.length)) :
    ∃ e, checkEnd src length overflow r = .error e := by
  cases hc : checkEnd src length overflow r with
  | error e => exact ⟨e, rfl⟩
  | ok _ => exact absurd ((checkEnd_eq_ok length overflow).mp hc) h

/-- **The refill loop ends**, within as many rounds as there are bytes to read,
and no subtraction of it underflows: each round finds the offset inside the
window and copies a byte. -/
theorem ends_readInto (hc : src.cancellation.cancelled = false) : ∀ {fuel wanted : Nat} {r : Reader},
    wanted ≤ fuel → r.Valid src → r.offset + wanted ≤ src.bytes.length →
    r.offset + wanted ≤ src.limit →
    ∃ r', (readIntoCall src fuel wanted).Ends r (.ok ((src.bytes.drop r.offset).take wanted)) r' ∧
      r'.Valid src ∧ r'.offset = r.offset + wanted := by
  intro fuel
  induction fuel with
  | zero =>
    intro wanted r hw hv _ _
    obtain rfl : wanted = 0 := by omega
    exact ⟨r, Call.Ends.of_pure _ _, hv, rfl⟩
  | succ fuel ih =>
    intro wanted r hw hv ho hl
    cases wanted with
    | zero => exact ⟨r, Call.Ends.of_pure _ _, hv, rfl⟩
    | succ wanted =>
      obtain ⟨r₁, h₁, hv₁, ho₁, hle, hlt⟩ := ensureBuffer_ok hv (by omega) (by omega)
      have hfits := src.fits
      have hrelative : r₁.offset - r₁.bufferStart ≤ r₁.buffer.length := by omega
      generalize hamount :
        min (r₁.buffer.length - (r₁.offset - r₁.bufferStart)) (wanted + 1) = amount
      have hpos : 0 < amount := by omega
      have hamount_le : amount ≤ wanted + 1 := by omega
      -- the window holds the next bytes of the file
      have hcopied : (r₁.buffer.drop (r₁.offset - r₁.bufferStart)).take amount =
          (src.bytes.drop r.offset).take amount := by
        have hnext := prefix_drop hv₁.buffered (r₁.offset - r₁.bufferStart)
        rw [List.drop_drop,
          show r₁.bufferStart + (r₁.offset - r₁.bufferStart) = r.offset by omega] at hnext
        obtain ⟨tail, htail⟩ := hnext
        rw [← htail, List.take_append_of_le_length]
        rw [List.length_drop]
        omega
      obtain ⟨r₂, h₂, hv₂, ho₂⟩ := @ih (wanted + 1 - amount)
        { r₁ with offset := r₁.offset + amount } (by omega) ⟨hv₁.start, hv₁.buffered⟩
        (by show r₁.offset + amount + _ ≤ _; omega) (by show r₁.offset + amount + _ ≤ _; omega)
      refine ⟨r₂, ?_, hv₂, ?_⟩
      · have hcheck : (Call.ofResult src.cancellation.check).Ends r (.ok ()) r := by
          rw [CancellationToken.check_eq_ok hc]
          exact Call.Ends.of_result _ _
        have hadvance : checkedAdd r₁.offset amount = some (r₁.offset + amount) :=
          checkedAdd_eq_some.mpr ⟨by omega, rfl⟩
        unfold readIntoCall
        refine hcheck.bind ((Call.Ends.of_update h₁).bind ?_)
        refine (Call.Ends.of_subtract hle r₁).bind ?_
        refine (Call.Ends.of_subtract hrelative r₁).bind ?_
        rw [hamount]
        refine (@Call.Ends.of_update _ _ { r₁ with offset := r₁.offset + amount } ?_).bind ?_
        · rw [hadvance]
          rfl
        · refine h₂.bind ?_
          have hjoin : (r₁.buffer.drop (r₁.offset - r₁.bufferStart)).take amount ++
              (src.bytes.drop (r₁.offset + amount)).take (wanted + 1 - amount) =
              (src.bytes.drop r.offset).take (wanted + 1) := by
            rw [hcopied, ho₁, ← List.drop_drop, ← List.take_add]
            congr 1
            omega
          rw [← hjoin]
          exact Call.Ends.of_pure _ _
      · rw [ho₂]
        show r₁.offset + amount + _ = _
        omega

/-- A bounds check and then the loop are one read of the cursor. -/
theorem ends_checked (hc : src.cancellation.cancelled = false) (length : Nat) (overflow : String)
    (hv : r.Valid src) :
    ∃ result r', (do checkEndCall src length overflow; readIntoCall src length length).Ends r
        result r' ∧ r'.Valid src ∧
      (result.toOption, r'.offset) = cursorRead src length r.offset := by
  unfold cursorRead
  by_cases hin : r.offset + length ≤ src.limit ∧ r.offset + length ≤ src.bytes.length
  · obtain ⟨r', h, hv', ho⟩ := ends_readInto hc (Nat.le_refl length) hv hin.2 hin.1
    have hcheck : (checkEndCall src length overflow).Ends r (.ok ()) r := by
      rw [← (checkEnd_eq_ok length overflow).mpr hin]
      rfl
    refine ⟨_, r', hcheck.bind h, hv', ?_⟩
    rw [if_pos hin, ho]
    rfl
  · obtain ⟨e, he⟩ := checkEnd_error overflow hin
    have hcheck : (checkEndCall src length overflow).Ends r (.error e) r := by
      rw [← he]
      rfl
    refine ⟨_, r, hcheck.bind_error, hv, ?_⟩
    rw [if_neg hin]
    rfl

/-- A read is one step of the cursor and keeps the window valid. -/
theorem HeaderRead.ends_call (hc : src.cancellation.cancelled = false) (read : HeaderRead)
    (hv : r.Valid src) :
    ∃ result r', (read.call src).Ends r result r' ∧ r'.Valid src ∧
      (result.toOption, r'.offset) = cursorRead src read.length r.offset := by
  cases read with
  | bytes length => exact ends_checked hc length _ hv
  | fixed length =>
    obtain ⟨result, r', h, hrest⟩ := ends_checked hc length "GGUF header offset overflows u64" hv
    have hcheck : (Call.ofResult src.cancellation.check).Ends r (.ok ()) r := by
      rw [CancellationToken.check_eq_ok hc]
      exact Call.Ends.of_result _ _
    exact ⟨result, r', hcheck.bind h, hrest⟩

/-! ## Sequences of reads -/

theorem runReads_cursor (hc : src.cancellation.cancelled = false) (reads : List HeaderRead) :
    ∀ {r : Reader}, r.Valid src → ∃ results r', runReads src reads r = some (results, r') ∧
      (results.map Except.toOption, r'.offset) = cursorReads src reads r.offset := by
  induction reads with
  | nil => exact fun {r} _ => ⟨[], r, rfl, rfl⟩
  | cons read reads ih =>
    intro r hv
    obtain ⟨result, r₁, h₁, hv₁, hread⟩ := read.ends_call hc hv
    obtain ⟨results, r₂, h₂, hreads⟩ := ih hv₁
    refine ⟨result :: results, r₂, ?_, ?_⟩
    · unfold Call.Ends at h₁
      rw [runReads, h₁]
      show (runReads src reads r₁ >>= _) = _
      rw [h₂]
      rfl
    · rw [cursorReads, ← hread]
      simp only
      rw [← hreads]
      rfl

theorem Reader.valid_new : Reader.new.Valid src := ⟨Nat.zero_le _, List.nil_prefix⟩

/-- **The reader is a cursor.** Whatever is read from a new reader, every read
ends; it returns the bytes at the offset and moves the offset past them, or it
fails without a byte, exactly when it would end past the limit or the file. -/
theorem reads_as_cursor (src : HeaderSource) (hc : src.cancellation.cancelled = false)
    (reads : List HeaderRead) :
    ∃ results r, runReads src reads .new = some (results, r) ∧
      (results.map Except.toOption, r.offset) = cursorReads src reads 0 :=
  runReads_cursor hc reads Reader.valid_new

/-- Reads up to the end of the file, one past it, and an empty one at the end. -/
theorem reads_as_cursor_end :
    ∃ results r, runReads ⟨[71, 71, 85, 70, 3], 8, ⟨false⟩, by decide⟩
        [.fixed 4, .bytes 2, .bytes 1, .fixed 0] .new = some (results, r) ∧
      (results.map Except.toOption, r.offset) =
        ([some [71, 71, 85, 70], none, some [3], some []], 5) :=
  reads_as_cursor ⟨[71, 71, 85, 70, 3], 8, ⟨false⟩, by decide⟩ rfl _

end Refinement

end ModelWeights.Gguf
