import ModelWeights.Cache.Publication
import ModelWeights.Prepared.HostBytes

/-! # Warm and cold deliveries

Materializers with any plans, overlays and modes share a cache, together with other
users of it. What a materializer takes from the cache for a binding that the host can
make is what the host makes: the payload under the key of such a binding was made by the
host for a binding with the same target, sources and files. -/
namespace ModelWeights.Prepared
open ModelWeights.Graph Plan Cache Pipeline Program Interference Transition

/-- A binding with a transform chain or an operation graph. -/
def HostBinding (binding : Binding) : Prop :=
  binding.target.operationGraph.isSome ∨ binding.target.transforms ≠ []

/-- The address of a binding with an overlay digest. -/
def Address (a : Addressing) (m : Materializer) (binding : Binding) (digest : Option ContentDigest)
    (address : PreparedCacheAddress) : Prop :=
  ∃ cancellation, cacheAddressForBinding a ⟨m.plan, binding, digest⟩ cancellation =
    .ok (some address)

/-- The overlay digests that a materializer uses for a binding. -/
def Overlaid (m : Materializer) (binding : Binding) (digest : Option ContentDigest) : Prop :=
  digest = none ∨ ∃ cancellation index d, m.overlay binding cancellation = .ok (some (index, d)) ∧
    digest = some d

/-- What is assumed of the materializers that share a cache: digests identify the
contents of files, a provider's output is a function of the implementation, the
transform, the shape and the source bytes, and hashes and JSON texts tell the values
apart that the materializers hash. -/
structure Trust (a : Addressing) (F : PrepareFunction) (contents : ContentDigest → Bytes)
    (W : Set Materializer) : Prop where
  reads : ∀ m ∈ W, Identifies contents m
  providers : ∀ m ∈ W, Computes F m.host.preparation
  trusted : ∀ m ∈ W, ∀ m' ∈ W, ∀ binding binding' digest digest' sources sources',
    Overlaid m binding digest → Overlaid m' binding' digest' →
    orderedSources m.plan binding = .ok sources → orderedSources m'.plan binding' = .ok sources' →
    Trusted a ⟨m.plan, binding, digest⟩ ⟨m'.plan, binding', digest'⟩ sources sources'
  keys : ∀ m ∈ W, ∀ m' ∈ W, ∀ binding binding' digest digest' cancellation cancellation' p p',
    Overlaid m binding digest → Overlaid m' binding' digest' →
    addressParts a ⟨m.plan, binding, digest⟩ cancellation = .ok (some p) →
    addressParts a ⟨m'.plan, binding', digest'⟩ cancellation' = .ok (some p') →
    Set.InjOn a.sha256 {keyPreimage .prepared p.1 p.2, keyPreimage .prepared p'.1 p'.2}

/-- A payload is right for its key: if the key is one of a binding that the host can make,
then the host made the payload for a binding with that key. -/
def RightIn (a : Addressing) (W : Set Materializer) (e : CacheEnvelope) (bytes : List UInt8) :
    Prop :=
  e.ns = .prepared → ∀ m ∈ W, ∀ binding address, HostBinding binding →
    Address a m binding none address → address.key = e.key →
    ∃ m' ∈ W, ∃ binding' address', Address a m' binding' none address' ∧ address'.key = e.key ∧
      HostMade m' binding' bytes

section Separate
variable {a : Addressing} {F : PrepareFunction} {contents : ContentDigest → Bytes}
  {W : Set Materializer} {m m' : Materializer} {binding binding' : Binding}
  {digest digest' : Option ContentDigest} {address address' : PreparedCacheAddress}

theorem Address.parts (h : Address a m binding digest address) :
    ∃ cancellation c ids, addressParts a ⟨m.plan, binding, digest⟩ cancellation =
      .ok (some (c, ids)) ∧ address.key = a.sha256 (keyPreimage .prepared c ids) := by
  obtain ⟨cancellation, h⟩ := h
  obtain ⟨parts, hparts, h⟩ := bind_ok h
  cases parts with
  | none => cases Except.ok.inj h
  | some p =>
    obtain rfl := Option.some.inj (Except.ok.inj h)
    exact ⟨cancellation, p.1, p.2, hparts, rfl⟩

/-- **Equal keys come from equal bindings.** -/
theorem Trust.separates (trust : Trust a F contents W) (hm : m ∈ W) (hm' : m' ∈ W)
    (hd : Overlaid m binding digest) (hd' : Overlaid m' binding' digest')
    (h : Address a m binding digest address) (h' : Address a m' binding' digest' address')
    (hkey : address.key = address'.key) :
    ∃ sources, orderedSources m.plan binding = .ok sources ∧
      orderedSources m'.plan binding' = .ok sources ∧ binding.target = binding'.target ∧
      digest = digest' := by
  obtain ⟨cancellation, c, ids, hparts, hk⟩ := h.parts
  obtain ⟨cancellation', c', ids', hparts', hk'⟩ := h'.parts
  obtain ⟨sources, hsources, _, _⟩ := addressParts_ok hparts
  obtain ⟨sources', hsources', _, _⟩ := addressParts_ok hparts'
  have hpreimage := trust.keys m hm m' hm' _ _ _ _ _ _ _ _ hd hd' hparts hparts' (Or.inl rfl)
    (Or.inr rfl) (hk.symm.trans (hkey.trans hk'))
  obtain ⟨rfl, htarget, _, hdigest⟩ := parts_separate hsources hsources' hparts hparts'
    (trust.trusted m hm m' hm' _ _ _ _ _ _ hd hd' hsources hsources') hpreimage
  exact ⟨sources, hsources, hsources', htarget, hdigest⟩

end Separate

/-! ## Reading an entry -/

section Reading
variable {D : Discipline}

theorem acts_readBlocks {payload : List UInt8} {length : Nat} : ∀ {fuel : Nat} {bytes : List UInt8},
    D.acts (readBlocks payload length fuel bytes)
  | 0, _ => Discipline.acts_pure _
  | fuel + 1, bytes => by
    unfold readBlocks
    split
    · refine Discipline.acts_bind Discipline.acts_checkCancelled fun _ =>
        Discipline.acts_bind (Discipline.acts_attempt (D.step (D.reading trivial))) fun _ => ?_
      dsimp only
      split
      · exact Discipline.acts_throw _
      · exact acts_readBlocks
    · exact Discipline.acts_pure _

theorem acts_readCacheEntry {sha256 : List UInt8 → ContentDigest} {entry : CacheEntry}
    {validation : CacheValidation} : D.acts (readCacheEntry sha256 entry validation) := by
  refine Discipline.acts_bind Discipline.acts_checkCancelled fun _ =>
    Discipline.acts_bind acts_readBlocks fun bytes =>
    Discipline.acts_bind Discipline.acts_checkCancelled fun _ =>
    Discipline.acts_bind (Discipline.acts_attempt (D.step (D.reading trivial))) fun _ => ?_
  split
  · exact Discipline.acts_throw _
  · split
    · exact Discipline.acts_throw _
    · exact Discipline.acts_pure _

end Reading

/-- The copy loop copies the payload. -/
theorem readBlocks_bytes {payload : List UInt8} {length : Nat} : ∀ {fuel : Nat}
    {bytes out : List UInt8}, bytes = payload.take bytes.length → bytes.length ≤ length →
    length ≤ bytes.length + fuel → Produces (readBlocks payload length fuel bytes) out →
    out = payload.take length
  | 0, bytes, out, hbytes, hle, hfuel, h => by
    obtain rfl := produces_pure.mp h
    rw [hbytes, show out.length = length by omega]
  | fuel + 1, bytes, out, hbytes, hle, hfuel, h => by
    unfold readBlocks at h
    split at h
    · next hlt =>
      obtain ⟨_, _, h⟩ := produces_bind.mp h
      obtain ⟨_, _, h⟩ := produces_bind.mp h
      dsimp only at h
      split at h
      · exact absurd h not_produces_throw
      · next hchunk =>
        set n := min (length - bytes.length) (min length cacheReadBlockBytes) with hn
        have hpos : 0 < ((payload.drop bytes.length).take n).length :=
          List.length_pos_iff.mpr fun he => hchunk (by rw [he]; rfl)
        have hchunkle : ((payload.drop bytes.length).take n).length ≤ n := List.length_take_le _ _
        have hnle : n ≤ length - bytes.length := Nat.min_le_left _ _
        refine readBlocks_bytes ?_ ?_ ?_ h
        · rw [List.length_append, List.take_add, ← hbytes, List.append_cancel_left_eq]
          rw [List.length_take, List.length_drop, List.take_eq_take_iff]
          simp
        · rw [List.length_append]
          omega
        · rw [List.length_append]
          omega
    · next hge =>
      obtain rfl := produces_pure.mp h
      rw [hbytes, show out.length = length by omega]

theorem readCacheEntry_bytes {sha256 : List UInt8 → ContentDigest} {entry : CacheEntry}
    {validation : CacheValidation} {view : ByteView}
    (h : Produces (readCacheEntry sha256 entry validation) view) :
    view.bytes = entry.payload ∧ entry.payload.length = entry.info.payloadLen := by
  obtain ⟨_, _, h⟩ := produces_bind.mp h
  obtain ⟨bytes, hbytes, h⟩ := produces_bind.mp h
  obtain ⟨_, _, h⟩ := produces_bind.mp h
  obtain ⟨_, _, h⟩ := produces_bind.mp h
  split at h
  · exact absurd h not_produces_throw
  · next hlength =>
    split at h
    · exact absurd h not_produces_throw
    · obtain rfl := produces_pure.mp h
      have hcopy := readBlocks_bytes rfl (Nat.zero_le _) (by simp) hbytes
      have hlength := not_not.mp hlength
      refine ⟨?_, hlength⟩
      show bytes = entry.payload
      rw [hcopy, ← hlength, List.take_length]

/-- A reader over bytes in memory reads these bytes. -/
theorem content_cursor {size : Nat} (hsize : 0 < size) : ∀ {fuel : Nat} {bytes : List UInt8},
    bytes.length ≤ fuel → Reader.content (cursor size fuel bytes) = bytes
  | 0, [], _ => rfl
  | 0, _ :: _, h => absurd h (by simp)
  | fuel + 1, [], _ => rfl
  | fuel + 1, b :: bytes, h => by
    obtain ⟨n, rfl⟩ := Nat.exists_eq_add_of_lt hsize
    have hrest : ((b :: bytes).drop (0 + n + 1)).length ≤ fuel := by
      rw [List.length_drop, List.length_cons] at *
      omega
    have hcontent := content_cursor hsize hrest
    show Reader.content (.ok ((b :: bytes).take (0 + n + 1)) :: _) = _
    rw [List.take_succ_cons, Reader.content, hcontent, List.drop_succ_cons, List.cons_append,
      List.take_append_drop]

end ModelWeights.Prepared
