import ModelWeights.Cache.Hits

/-! # Publications under interference

`publish_reader` keeps every directory sound, whatever the other processes do, and the
entry that it returns comes from publications of the key. -/
namespace ModelWeights.Cache
open Program Interference

variable {Good : CacheEnvelope → List UInt8 → Prop} {process : Nat} {others : Nat → Prop}
  {fs t : Files} {path : Path} {inode : Nat} {c : CacheService} {ns : CacheNamespace}
  {key : CacheKey} {compatibility : CacheCompatibility} {reader : Reader}

/-- The envelope of the content of a reader that came to its end. -/
def Sealed (c : CacheService) (ns : CacheNamespace) (key : CacheKey)
    (compatibility : CacheCompatibility) (reader : Reader) (e : CacheEnvelope) : Prop :=
  Reader.Ends reader ∧
    ∃ created, e = envelopeOf c ns key compatibility (Reader.content reader) created

/-- An entry with the info of its publication. Its payload is read back from the path of
the key, and only its length is checked. -/
structure Placed (Good : CacheEnvelope → List UInt8 → Prop) (c : CacheService)
    (ns : CacheNamespace) (key : CacheKey) (compatibility : CacheCompatibility)
    (reader : Reader) (entry : CacheEntry) : Prop where
  info : ∃ e, Sealed c ns key compatibility reader e ∧
    entry.info = infoFromEnvelope e (entryPath ns key)
  payload : ∃ e, Good e entry.payload ∧ e.ns = ns ∧ e.key = key
  length : entry.payload.length = entry.info.payloadLen

/-- What a publication returns: a hit of a lookup under full validation, or its entry. -/
def PublicationOf (Good : CacheEnvelope → List UInt8 → Prop) (c : CacheService)
    (ns : CacheNamespace) (key : CacheKey) (compatibility : CacheCompatibility)
    (reader : Reader) : CachePublication → Prop
  | .published entry => Placed Good c ns key compatibility reader entry
  | .reused entry => Found Good c ns key compatibility .full entry

theorem leads_stage (hothers : ¬others process) {lease : WriterLease}
    (hgood : Reader.Ends reader → ∀ created,
      Good (envelopeOf c ns key compatibility (Reader.content reader) created)
        (Reader.content reader))
    (h : Own process path inode (Directory.Payloaded none) fs) :
    (soundProtocol Good process others).Leads (stage c path ns key compatibility reader lease)
      (fun e _ => Sealed c ns key compatibility reader e) (Owned process path inode) fs := by
  unfold stage
  refine leads_andThen own_stable (leads_writePayload hothers h) ?_
  rintro _ lease t _ ⟨⟨hends, rfl⟩, h⟩
  refine does_bind ((ownDiscipline Good others own_kept).step (o := .now) trivial t h)
    fun created t _ h => ?_
  refine leads_andThen own_stable (leads_keeping own_stable (fun _ => own_stable)
    (acts_writeEnvelope hothers (hgood hends (unixMillis created)) h)) fun _ lease t _ h => ?_
  refine leads_after own_kept (Discipline.holds_refresh sound_leasing) h (fun t ht => ht.owned)
    own_stable fun _ lease t _ h => ?_
  refine leads_after own_kept (Discipline.holds_keeping Discipline.acts_checkCancelled) h
    (fun t ht => ht.owned) own_stable fun _ lease t _ h => ?_
  refine leads_andThen own_stable (leads_keeping own_stable (fun _ => stable_true)
    (acts_publishStaging hothers ⟨rfl, rfl⟩ h)) fun _ lease t _ _ => ?_
  exact leads_pure stable_fact ⟨hends, _, rfl⟩

theorem yields_openPublishedEntry {e : CacheEnvelope} (he : Sealed c ns key compatibility reader e) :
    (soundProtocol Good process others).Yields (openPublishedEntry ns key e)
      (Placed Good c ns key compatibility reader) := by
  have hopen : (soundProtocol Good process others).Yields
      (attempt "failed to open the published cache payload" (step (.openPayload (entryPath ns key))))
      fun payload => ∃ e, Good e payload ∧ e.ns = ns ∧ e.key = key := by
    refine yields_reading (o := .openPayload (entryPath ns key)) (Q := fun r => ∀ payload,
      r = .ok payload → ∃ e, Good e payload ∧ e.ns = ns ∧ e.key = key) trivial
      (fun env t ht payload hr => ?_) fun r hr => ?_
    · obtain ⟨inode, hn, hp⟩ := openPayload_ok hr
      obtain ⟨e', hgood, hfits⟩ := ht.published _ inode payload rfl hn hp
      exact ⟨e', hgood, hfits.ns, hfits.key⟩
    · cases r with
      | ok payload => exact yields_pure (hr payload rfl)
      | error e => exact yields_throw
  refine yields_bind hopen fun payload hpayload => ?_
  split
  · exact yields_bind (R := fun _ => False) yields_throw fun _ h => h.elim
  · next hlength => exact yields_pure ⟨⟨e, he, rfl⟩, hpayload, not_not.mp hlength⟩

theorem leads_publishLeased (hothers : ¬others process) {lease : WriterLease}
    (hgood : Reader.Ends reader → ∀ created,
      Good (envelopeOf c ns key compatibility (Reader.content reader) created)
        (Reader.content reader)) :
    (soundProtocol Good process others).Leads
      (publishLeased c ns key compatibility reader lease)
      (fun r _ => PublicationOf Good c ns key compatibility reader r) (fun _ => True) fs := by
  refine leads_andThen stable_true (leads_keeping stable_true (fun _ => stable_fact)
    (yields_lookup fs)) fun found lease t _ hfound => ?_
  cases found with
  | hit entry => exact leads_pure stable_fact (hfound entry rfl)
  | miss reason =>
    refine leads_andThen stable_true (leads_keeping stable_true (fun path s t hs hst _ => ?_)
      acts_createStaging) fun path lease t _ h => ?_
    · obtain ⟨inode, hs⟩ := hs
      exact ⟨inode, own_kept.later hs hst⟩
    · obtain ⟨inode, h⟩ := h
      refine does_bind (leads_stage hothers hgood h) fun r t _ hr => ?_
      match r with
      | (.error e, lease) =>
        refine does_bind (does_removeDirAll (fun _ => id) kept_true
          (Own.clear hr hothers) trivial) fun _ t _ _ => leads_error stable_true trivial
      | (.ok envelope, lease) =>
        refine leads_andThen stable_true (leads_keeping stable_true (fun _ => stable_fact)
          (yields_openPublishedEntry hr t)) fun entry lease t _ hentry => ?_
        exact leads_pure stable_fact hentry

/-- **Publication keeps every directory sound**, under any interference with directories
of others, any failure and any cancellation, and returns an entry of the key. -/
theorem yields_publishReader (hothers : ¬others process)
    (hgood : Reader.Ends reader → ∀ created,
      Good (envelopeOf c ns key compatibility (Reader.content reader) created)
        (Reader.content reader)) :
    (soundProtocol Good process others).Yields (publishReader c ns key compatibility reader)
      (PublicationOf Good c ns key compatibility reader) := by
  refine yields_bind yields_lookup fun found hfound => ?_
  cases found with
  | hit entry => exact yields_pure (hfound entry rfl)
  | miss reason =>
    refine yields_first (Discipline.acts_attempt
      ((ownDiscipline Good others kept_true).step (o := .createShard ns (shardOf key)) trivial))
      fun _ => yields_first (Discipline.acts_acquire sound_leasing) fun lease => ?_
    refine fun fs => acts_seq (leads_publishLeased hothers hgood) fun r t _ hr => ?_
    obtain ⟨result, lease⟩ := r
    have hdrop : (soundProtocol Good process others).Does lease.drop (fun _ _ => True) t :=
      (Discipline.holds_drop (D := ownDiscipline Good others kept_true) sound_leasing) t trivial
    refine acts_seq hdrop fun _ t _ _ => ?_
    cases result with
    | ok publication => exact acts_pure stable_fact hr
    | error e => exact acts_throw stable_true trivial

end ModelWeights.Cache
