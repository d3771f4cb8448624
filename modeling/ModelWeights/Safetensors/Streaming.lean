import ModelWeights.Lib.Success
import ModelWeights.Safetensors.Header

/-! # Limits apply while a header is read

A limit that a header violates stops the reading there: what the text holds behind that
place does not matter, nor whether it is JSON at all. -/
namespace ModelWeights.Safetensors
open Json (Document)

/-! ## Loops that stop -/

section Loops
variable {σ ε β : Type} {f : σ → β → Except ε σ} {e : ε} {s : σ} {l : List β}

theorem foldlM_error_append (rest : List β) (h : l.foldlM f s = .error e) :
    (l ++ rest).foldlM f s = .error e := by
  rw [List.foldlM_append, h]
  rfl

/-- A step that fails with an element fails in the same way in a longer loop. -/
theorem foldlM_last_error {last last' : β} (rest : List β)
    (hlast : ∀ state, f state last = .error e → f state last' = .error e)
    (h : (l ++ [last]).foldlM f s = .error e) : (l ++ last' :: rest).foldlM f s = .error e := by
  rw [List.foldlM_append] at h ⊢
  cases hl : l.foldlM f s with
  | error other =>
    rw [hl] at h
    exact h
  | ok state =>
    rw [hl] at h
    have hstep : (f state last >>= Except.ok) = .error e := h
    cases hf : f state last with
    | error other =>
      rw [hf] at hstep
      obtain rfl : other = e := Except.error.inj hstep
      show (last' :: rest).foldlM f state = _
      rw [List.foldlM_cons, hlast state hf]
      rfl
    | ok next =>
      rw [hf] at hstep
      cases hstep

end Loops

section Streams
variable {α σ : Type} {limits : HeaderLimits} {cancellation : CancellationToken}

/-- An error of the crate stays when the text goes on behind it. -/
def Streams (visit : Document → Visit α) : Prop :=
  ∀ (document longer : Document) (error : Error), document.Extends longer →
    visit document = .error (.aborted error) → visit longer = .error (.aborted error)

theorem checkVisit_running (hc : cancellation.cancelled = false) :
    checkVisit cancellation = .ok () := by
  rw [checkVisit, hc]
  rfl

/-- A visitor that checks the token first ends at once when it is cancelled. -/
theorem Streams.of_running (cancellation : CancellationToken) {visit : Document → Visit α}
    (hcancelled : cancellation.cancelled = true →
      ∀ document, visit document = .error (.aborted .cancelled))
    (hrunning : cancellation.cancelled = false → Streams visit) : Streams visit := by
  cases hc : cancellation.cancelled with
  | true =>
    intro document longer error _ h
    rw [hcancelled hc document] at h
    rw [hcancelled hc longer]
    exact h
  | false => exact hrunning hc

/-! ## Visitors -/

/-- What a visitor of arrays or of objects does after its loop. -/
def finishVisit (cancellation : CancellationToken) (closed : Bool) (finish : σ → Visit α)
    (state : σ) : Visit α := do
  checkVisit cancellation
  endOf closed
  finish state

/-- The loop of an array or object that has not ended is where it was aborted. -/
theorem aborted_in_loop (hc : cancellation.cancelled = false) {loop : Visit σ}
    {finish : σ → Visit α} {error : Error}
    (h : (loop >>= finishVisit cancellation false finish) = .error (.aborted error)) :
    loop = .error (.aborted error) := by
  cases loop with
  | error stop => exact congrArg Except.error (Except.error.inj h)
  | ok state =>
    have hend : finishVisit cancellation false finish state = .error (.aborted error) := h
    rw [finishVisit, checkVisit_running hc] at hend
    cases hend

/-- What an array or an object holds grows at its end only. -/
def GrowsAtEnd {β : Type} (parts : Document → Option (List β × Bool)) (longer : β → β → Prop) :
    Prop :=
  ∀ (document document' : Document) (l : List β) (closed : Bool), document.Extends document' →
    parts document = some (l, closed) → document = document' ∨ closed = false ∧
      ∃ closed', (∃ rest, parts document' = some (l ++ rest, closed')) ∨
        ∃ before last last' rest, l = before ++ [last] ∧ longer last last' ∧
          parts document' = some (before ++ last' :: rest, closed')

def itemsOf : Document → Option (List Document × Bool)
  | .array items closed => some (items, closed)
  | _ => none

def membersOf : Document → Option (List (String × Document) × Bool)
  | .object members closed => some (members, closed)
  | _ => none

theorem itemsOf_grows : GrowsAtEnd itemsOf Document.Extends := by
  intro document document' l closed hext hparts
  cases hext with
  | same => exact .inl rfl
  | broken => cases hparts
  | items items rest closed' =>
    cases hparts
    exact .inr ⟨rfl, closed', .inl ⟨rest, rfl⟩⟩
  | item items rest closed' hlast =>
    cases hparts
    exact .inr ⟨rfl, closed', .inr ⟨items, _, _, rest, rfl, hlast, rfl⟩⟩
  | members => cases hparts
  | member => cases hparts

theorem membersOf_grows : GrowsAtEnd membersOf fun member member' : String × Document =>
    member.1 = member'.1 ∧ member.2.Extends member'.2 := by
  intro document document' l closed hext hparts
  cases hext with
  | same => exact .inl rfl
  | broken => cases hparts
  | items => cases hparts
  | item => cases hparts
  | members members rest closed' =>
    cases hparts
    exact .inr ⟨rfl, closed', .inl ⟨rest, rfl⟩⟩
  | @member members rest closed' key value value' hvalue =>
    cases hparts
    exact .inr ⟨rfl, closed', .inr ⟨members, (key, value), (key, value'), rest, rfl,
      ⟨rfl, hvalue⟩, rfl⟩⟩

/-- **Visitors stream.** A visitor that loops over what an array or object holds, and then
looks for its end, stops with an error of the crate where a turn of the loop does. -/
theorem Streams.of_loop (cancellation : CancellationToken) {β : Type}
    {parts : Document → Option (List β × Bool)} {longer : β → β → Prop}
    (hparts : GrowsAtEnd parts longer) (step : σ → β → Visit σ) (start : σ)
    (finish : σ → Visit α) {visit : Document → Visit α}
    (hloop : ∀ document l closed, parts document = some (l, closed) → visit document =
      (checkVisit cancellation >>= fun _ => l.foldlM step start >>=
        finishVisit cancellation closed finish))
    (hother : ∀ document, parts document = none →
      visit document = (checkVisit cancellation >>= fun _ => .error .json))
    (hstep : ∀ state part part' error, longer part part' →
      step state part = .error (.aborted error) → step state part' = .error (.aborted error)) :
    Streams visit := by
  refine of_running cancellation ?_ ?_
  · intro hc document
    have hcheck : checkVisit cancellation = .error (.aborted .cancelled) := by
      rw [checkVisit, hc]
      rfl
    cases hp : parts document with
    | none =>
      rw [hother document hp, hcheck]
      rfl
    | some held =>
      rw [hloop document held.1 held.2 hp, hcheck]
      rfl
  · intro hc document document' error hext h
    have hcheck := checkVisit_running hc
    cases hp : parts document with
    | none =>
      rw [hother document hp, hcheck] at h
      cases h
    | some held =>
      obtain ⟨l, closed⟩ := held
      obtain rfl | ⟨rfl, closed', hgrown⟩ := hparts document document' l closed hext hp
      · exact h
      rw [hloop document l false hp, hcheck] at h
      have hstop := aborted_in_loop hc h
      obtain ⟨l', hp', hstop'⟩ : ∃ l', parts document' = some (l', closed') ∧
          l'.foldlM step start = .error (.aborted error) := by
        obtain ⟨rest, hp'⟩ | ⟨before, last, last', rest, rfl, hlast, hp'⟩ := hgrown
        · exact ⟨_, hp', foldlM_error_append rest hstop⟩
        · exact ⟨_, hp', foldlM_last_error rest
            (fun state => hstep state last last' error hlast) hstop⟩
      rw [hloop document' l' closed' hp', hcheck]
      show (l'.foldlM step start >>= finishVisit cancellation closed' finish) = _
      rw [hstop']
      rfl

/-! ## Steps -/

theorem Streams.const (x : Visit α) : Streams fun _ => x := fun _ _ _ _ h => h

theorem Streams.after {x : Visit σ} {visit : σ → Document → Visit α}
    (h : ∀ a, Streams (visit a)) : Streams fun document => x >>= fun a => visit a document := by
  intro document longer error hext hx
  cases x with
  | error stop => exact hx
  | ok a => exact h a document longer error hext hx

theorem Streams.guard {c : Prop} [Decidable c] {stop : Stop} {visit : Document → Visit α}
    (h : Streams visit) : Streams fun document => if c then .error stop else visit document := by
  by_cases hc : c
  · simp only [if_pos hc]
    exact const _
  · simp only [if_neg hc]
    exact h

/-- A value that is only stored. -/
theorem Streams.store {visit : Document → Visit σ} {store : σ → α} (h : Streams visit) :
    Streams fun document => visit document >>= fun a => .ok (store a) := by
  intro document longer error hext hx
  dsimp only at hx ⊢
  cases hv : visit document with
  | error stop =>
    rw [hv] at hx
    obtain rfl : stop = .aborted error := Except.error.inj hx
    show (visit longer >>= _) = _
    rw [h document longer error hext hv]
    rfl
  | ok a =>
    rw [hv] at hx
    cases hx

/-! ## The header -/

theorem headerText_streams (maximum : Nat) (rejectEmpty : Bool) (limitMessage : String) :
    Streams (headerText cancellation maximum rejectEmpty limitMessage) := by
  refine .of_running cancellation ?_ ?_
  · intro hc document
    cases document <;>
      simp [headerText, headerString, checkVisit, hc] <;> rfl
  · intro hc document longer error hext h
    cases hext with
    | same => exact h
    | _ =>
      simp only [headerText, checkVisit_running hc] at h
      cases h

theorem readU64_error {document : Document} {stop : Stop} (h : readU64 document = .error stop) :
    stop = .json := by
  unfold readU64 at h
  split at h
  · split at h <;> cases h
    rfl
  · cases h
    rfl

theorem readU64Pair_streams : Streams readU64Pair := by
  intro document longer error _ h
  unfold readU64Pair at h
  split at h
  · next first second closed _ =>
    cases hfirst : readU64 first with
    | error stop =>
      rw [hfirst, readU64_error hfirst] at h
      cases h
    | ok a =>
      cases hsecond : readU64 second with
      | error stop =>
        rw [hfirst, hsecond, readU64_error hsecond] at h
        cases h
      | ok b =>
        rw [hfirst, hsecond] at h
        cases closed <;> cases h
  · cases h

/-- A dimension was read whole before the rank is compared. -/
theorem visitDimension_streams (shape : List Nat) :
    Streams (visitDimension limits cancellation shape) := by
  refine .after fun _ => ?_
  intro item longer error hext h
  dsimp only at h ⊢
  cases hitem : readU64 item with
  | error stop =>
    rw [hitem, readU64_error hitem] at h
    cases h
  | ok dimension =>
    rw [hitem] at h
    cases hext with
    | same =>
      rw [hitem]
      exact h
    | _ => cases hitem

theorem readShape_streams : Streams (readShape limits cancellation) := by
  refine .of_loop cancellation itemsOf_grows (visitDimension limits cancellation) [] .ok ?_ ?_
    fun shape item item' error hext h => visitDimension_streams shape item item' error hext h
  · intro document items closed hparts
    cases document <;> cases hparts
    rfl
  · intro document hparts
    cases document <;> first | rfl | cases hparts

theorem visitField_streams (fields : RawFields) (key : String) :
    Streams fun value => visitField limits cancellation fields (key, value) := by
  unfold visitField
  dsimp only
  refine .after fun _ => .after fun field => .after fun _ => ?_
  cases field with
  | dtype => exact .guard (.store (headerText_streams _ _ _))
  | shape => exact .guard (.store readShape_streams)
  | dataOffsets => exact .guard (.store readU64Pair_streams)

theorem readRawTensor_streams : Streams (readRawTensor limits cancellation) := by
  refine .of_loop cancellation membersOf_grows (visitField limits cancellation) .none
    RawFields.tensor ?_ ?_ ?_
  · intro document members closed hparts
    cases document <;> cases hparts
    rfl
  · intro document hparts
    cases document <;> first | rfl | cases hparts
  · rintro fields ⟨key, value⟩ ⟨_, value'⟩ error ⟨rfl, hext⟩ h
    exact visitField_streams fields key value value' error hext h

theorem visitMetadata_streams (state : List String × Nat) (key : String) :
    Streams fun value => visitMetadata limits cancellation state (key, value) := by
  unfold visitMetadata
  dsimp only
  exact .after fun _ => .after fun _ => .guard (.store (headerText_streams _ _ _))

theorem readMetadata_streams : Streams (readMetadata limits cancellation) := by
  refine .of_loop cancellation membersOf_grows (visitMetadata limits cancellation) ([], 0)
    (fun state => .ok state.2) ?_ ?_ ?_
  · intro document members closed hparts
    cases document <;> cases hparts
    rfl
  · intro document hparts
    cases document <;> first | rfl | cases hparts
  · rintro state ⟨key, value⟩ ⟨_, value'⟩ error ⟨rfl, hext⟩ h
    exact visitMetadata_streams state key value value' error hext h

theorem visitTensor_streams (state : OrderedMap String RawTensor × Bool) (key : String) :
    Streams fun value => visitTensor limits cancellation state (key, value) := by
  unfold visitTensor
  dsimp only
  refine .after fun _ => .after fun name => .after fun _ => ?_
  by_cases hname : name = metadataKey
  · simp only [if_pos hname]
    exact .guard (.store readMetadata_streams)
  · simp only [if_neg hname]
    exact .guard (.guard (.guard (.store readRawTensor_streams)))

theorem readHeader_streams : Streams (readHeader limits cancellation) := by
  refine .of_loop cancellation membersOf_grows (visitTensor limits cancellation) (.empty, false)
    (fun state => .ok ⟨state.1⟩) ?_ ?_ ?_
  · intro document members closed hparts
    cases document <;> cases hparts
    rfl
  · intro document hparts
    cases document <;> first | rfl | cases hparts
  · rintro state ⟨key, value⟩ ⟨_, value'⟩ error ⟨rfl, hext⟩ h
    exact visitTensor_streams state key value value' error hext h

end Streams

/-! ## The text -/

section Text
variable {reader : JsonReader} {maxMetadataBytes : Nat} {bytes longer : List UInt8}
  {limits : Gguf.ResourceLimits} {cancellation : CancellationToken} {error : Error}

theorem classify_limit {α : Type} {message : String} {visit : Visit α}
    (hlimit : error.category = .resourceLimit)
    (h : visit.classify cancellation message = .error error) : visit = .error (.aborted error) := by
  cases visit with
  | ok value => cases h
  | error stop =>
    obtain rfl := Except.error.inj h
    cases stop with
    | aborted error => rfl
    | json =>
      cases hc : cancellation.cancelled <;>
        simp [Stop.classify, hc, Error.invalid, Error.cancelled] at hlimit

/-- A resource limit is reported by the visitor of the header. -/
theorem parseHeaderJson_limit (hlimit : error.category = .resourceLimit) :
    parseHeaderJson reader maxMetadataBytes bytes limits cancellation = .error error ↔
      cancellation.cancelled = false ∧ bytes.head? = some 123 ∧
        readHeader ⟨limits, maxMetadataBytes⟩ cancellation (reader.document bytes) =
          .error (.aborted error) := by
  unfold parseHeaderJson
  cases hc : cancellation.cancelled with
  | true =>
    have hcheck : cancellation.check = .error .cancelled := by
      rw [CancellationToken.check, hc]
      rfl
    rw [hcheck]
    refine ⟨fun h => ?_, fun h => (by cases h.1)⟩
    obtain rfl := Except.error.inj h
    cases hlimit
  | false =>
    rw [CancellationToken.check_eq_ok hc, and_iff_right rfl]
    show (if _ then _ else _) = _ ↔ _
    by_cases hobject : bytes.head? = some 123
    · rw [if_neg (not_not.mpr hobject), and_iff_right hobject]
      unfold deserializeHeaderJson
      rw [CancellationToken.check_eq_ok hc]
      constructor
      · intro h
        cases hread : readHeader ⟨limits, maxMetadataBytes⟩ cancellation
            (reader.document bytes) with
        | error stop =>
          rw [hread] at h
          exact classify_limit hlimit h
        | ok header =>
          rw [hread] at h
          have hend : ((endOf (reader.ended bytes)).classify cancellation
              "safetensors header contains trailing non-whitespace data" >>= fun _ =>
                Except.ok header) = .error error := h
          cases hended : reader.ended bytes with
          | true =>
            rw [hended] at hend
            cases hend
          | false =>
            rw [hended] at hend
            obtain rfl := Except.error.inj hend
            simp [Stop.classify, hc, Error.invalid] at hlimit
      · intro h
        rw [h]
        rfl
    · rw [if_pos hobject]
      refine ⟨fun h => ?_, fun h => absurd h.1 hobject⟩
      obtain rfl := Except.error.inj h
      cases hlimit

/-- **Limits hold while reading.** A header that violates a limit is refused with the same
error however its text goes on behind the violation. -/
theorem parseHeaderJson_streams (hlonger : bytes <+: longer)
    (hdocument : (reader.document bytes).Extends (reader.document longer))
    (hlimit : error.category = .resourceLimit)
    (h : parseHeaderJson reader maxMetadataBytes bytes limits cancellation = .error error) :
    parseHeaderJson reader maxMetadataBytes longer limits cancellation = .error error := by
  obtain ⟨hc, hobject, hread⟩ := (parseHeaderJson_limit hlimit).mp h
  refine (parseHeaderJson_limit hlimit).mpr ⟨hc, ?_, ?_⟩
  · obtain ⟨rest, rfl⟩ := hlonger
    rw [List.head?_append, hobject]
    rfl
  · exact readHeader_streams _ _ error hdocument hread

end Text

/-- A header with an empty name, cut behind the name or complete. -/
def unnamedHeader (complete : Bool) : List UInt8 :=
  [123, 34, 34, 58] ++ if complete then [123, 125, 125] else []

def unnamedReader : JsonReader where
  document bytes :=
    if bytes = unnamedHeader true then .object [("", .object [] true)] true
    else .object [("", .broken)] false
  ended bytes := bytes = unnamedHeader true

theorem parseHeaderJson_streams_unnamed :
    parseHeaderJson unnamedReader 16 (unnamedHeader false) ⟨64, 4, 4, 16⟩ ⟨false⟩ =
      .error (.limit nameLimitMessage) ∧
    parseHeaderJson unnamedReader 16 (unnamedHeader true) ⟨64, 4, 4, 16⟩ ⟨false⟩ =
      .error (.limit nameLimitMessage) :=
  ⟨rfl, @parseHeaderJson_streams unnamedReader 16 (unnamedHeader false) _ _ _ _
    ⟨[123, 125, 125], rfl⟩ (.member [] [] true "" (.broken _)) rfl rfl⟩

end ModelWeights.Safetensors
