import ModelWeights.Cache.Service

/-! # What every operation keeps to

A discipline is a property of tasks that is closed under sequencing. A task that only
performs operations a discipline allows keeps to it: shown here once for lookups,
leases, evictions and inspections, for any discipline. -/
namespace ModelWeights.Cache
open Program

structure Discipline where
  holds : {α : Type} → Task α → Prop
  ok : FileOp → Prop
  removable : Path → Prop
  ret : ∀ {α : Type} (a : α), holds (pure a)
  bind : ∀ {α β : Type} {x : Task α} {f : α → Task β}, holds x → (∀ a, holds (f a)) →
    holds (x >>= f)
  step : ∀ {o : FileOp}, ok o → holds (Cache.step o)
  reading : ∀ {o : FileOp}, o.Reading → ok o
  removal : ∀ {path : Path}, removable path → holds (removeDirAll path)

namespace Discipline
variable {D : Discipline} {α β : Type}

/-- An action that keeps to a discipline. -/
def acts (D : Discipline) (x : Action α) : Prop := D.holds x.run

theorem acts_pure (a : α) : D.acts (pure a) := D.ret _

theorem acts_throw (e : Error) : D.acts (throw e : Action α) := D.ret _

theorem acts_bind {x : Action α} {f : α → Action β} (hx : D.acts x) (hf : ∀ a, D.acts (f a)) :
    D.acts (x >>= f) := by
  refine D.bind hx fun r => ?_
  cases r with
  | ok a => exact hf a
  | error e => exact D.ret _

theorem acts_lift {x : Task α} (hx : D.holds x) : D.acts (liftM x) :=
  D.bind hx fun _ => D.ret _

theorem acts_seq {x : Task α} {f : α → Action β} (hx : D.holds x) (hf : ∀ a, D.acts (f a)) :
    D.acts (liftM x >>= f) := acts_bind (acts_lift hx) hf

theorem acts_outcome {x : Action α} (hx : D.acts x) : D.acts (outcome x) := acts_lift hx

theorem acts_attempt {message : String} {x : Task (IoResult α)} (hx : D.holds x) :
    D.acts (attempt message x) := by
  refine acts_seq hx fun r => ?_
  cases r with
  | ok a => exact acts_pure a
  | error e => exact acts_throw _

/-- A step that only reads. -/
theorem acts_read {o : FileOp} {f : o.Resp → Action β} (ho : o.Reading)
    (hf : ∀ r, D.acts (f r)) : D.acts (liftM (Cache.step o) >>= f) :=
  acts_seq (D.step (D.reading ho)) hf

theorem acts_checkCancelled : D.acts checkCancelled := by
  refine acts_read trivial fun r => ?_
  cases r with
  | true => exact acts_throw _
  | false => exact acts_pure _

theorem acts_visitEntries : D.acts visitEntries := by
  refine acts_bind acts_checkCancelled fun _ => acts_read trivial fun r => ?_
  cases r with
  | true => exact acts_throw _
  | false => exact acts_pure _

/-! ## Lookup -/

variable {c : CacheService} {ns : CacheNamespace} {key : CacheKey}
  {compatibility : CacheCompatibility} {validation : CacheValidation} {path : Path}

theorem acts_readEnvelope : D.acts (readEnvelope path) := by
  refine acts_read trivial fun r => ?_
  match r with
  | .error .notFound => exact acts_pure _
  | .error .alreadyExists | .error .notEmpty | .error .other => exact acts_throw _
  | .ok .incomplete => exact acts_pure _
  | .ok (.envelope envelope length) =>
    show D.acts (if length > maxMetadataBytes then _ else _)
    split
    · exact acts_pure _
    · exact acts_pure _

theorem acts_lookupEntryPath :
    D.acts (lookupEntryPath c path ns key compatibility validation) := by
  refine acts_bind acts_checkCancelled fun _ => acts_read trivial fun r => ?_
  match r with
  | .error .notFound => exact acts_pure _
  | .error .alreadyExists | .error .notEmpty | .error .other => exact acts_throw _
  | .ok _ =>
    refine acts_bind acts_readEnvelope fun read => ?_
    cases read with
    | miss reason => exact acts_pure _
    | envelope envelope =>
      dsimp only
      split
      · exact acts_pure _
      · refine acts_read trivial fun r => ?_
        match r with
        | .error .notFound => exact acts_pure _
        | .error .alreadyExists | .error .notEmpty | .error .other => exact acts_throw _
        | .ok payload =>
          dsimp only
          have hlast : D.acts (if validation = .full ∧ c.sha256 payload ≠ envelope.payloadDigest then
                pure (CacheLookup.miss (.digestMismatch envelope.payloadDigest (c.sha256 payload)))
              else pure (CacheLookup.hit ⟨infoFromEnvelope envelope path, payload⟩)) := by
            split
            · exact acts_pure _
            · exact acts_pure _
          split
          · exact acts_pure _
          · split
            · exact acts_bind acts_checkCancelled fun _ => hlast
            · exact hlast

theorem acts_datedReplacements : ∀ {names : List Name}, D.acts (datedReplacements ns key names)
  | [] => acts_pure _
  | name :: rest => by
    have hrest : D.acts (datedReplacements ns key rest) := acts_datedReplacements
    unfold datedReplacements
    cases name with
    | previous k token =>
      dsimp only
      split
      · refine acts_read trivial fun r => ?_
        match r with
        | .error .notFound => exact hrest
        | .error .alreadyExists | .error .notEmpty | .error .other => exact acts_throw _
        | .ok _ => exact acts_bind hrest fun _ => acts_pure _
      · exact hrest
    | final _ | lease _ | reap _ _ | staging _ _ | evicted _ _ => exact hrest

theorem acts_replacementPaths : D.acts (replacementPaths ns key) := by
  refine acts_bind acts_checkCancelled fun _ => acts_read trivial fun r => ?_
  match r with
  | .error .notFound => exact acts_pure _
  | .error .alreadyExists | .error .notEmpty | .error .other => exact acts_throw _
  | .ok _ =>
    exact acts_bind acts_visitEntries fun _ => acts_bind acts_datedReplacements fun _ => acts_pure _

theorem acts_lookupReplacements : ∀ {paths : List Path},
    D.acts (lookupReplacements c ns key compatibility validation paths)
  | [] => acts_pure _
  | path :: rest => by
    have hrest : D.acts (lookupReplacements c ns key compatibility validation rest) :=
      acts_lookupReplacements
    unfold lookupReplacements
    refine acts_bind (acts_outcome acts_lookupEntryPath) fun r => ?_
    match r with
    | .ok (.hit entry) => exact acts_pure _
    | .ok (.miss _) => exact hrest
    | .error e =>
      refine acts_read trivial fun r => ?_
      match r with
      | .ok _ => exact acts_throw _
      | .error _ => exact hrest

theorem acts_lookup : D.acts (lookup c ns key compatibility validation) := by
  refine acts_bind acts_checkCancelled fun _ => acts_bind acts_lookupEntryPath fun found => ?_
  cases found with
  | hit entry => exact acts_pure _
  | miss _ =>
    refine acts_bind acts_replacementPaths fun previous =>
      acts_bind acts_lookupEntryPath fun found => ?_
    cases found with
    | hit entry => exact acts_pure _
    | miss _ =>
      refine acts_bind acts_lookupReplacements fun entry => ?_
      cases entry with
      | some entry => exact acts_pure _
      | none => exact acts_lookupEntryPath

/-! ## Writer leases -/

/-- A discipline that allows everything on the lease of a key. -/
structure Leasing (D : Discipline) (ns : CacheNamespace) (key : CacheKey) : Prop where
  create : D.ok (.createDir (leasePath ns key))
  owner : ∀ owner, D.ok (.writeOwner (leasePath ns key) owner)
  heartbeat : D.ok (.writeHeartbeat (leasePath ns key))
  refresh : D.ok (.refreshHeartbeat (leasePath ns key))
  reap : ∀ token, D.ok (.rename (leasePath ns key) ⟨ns, .reap key token⟩)
  removable : ∀ token, D.removable ⟨ns, .reap key token⟩

theorem acts_reapDirectory (h : D.Leasing ns key) : D.acts (reapDirectory ns key) := by
  refine acts_read trivial fun token => acts_seq (D.step (h.reap token)) fun r => ?_
  match r with
  | .ok () => exact acts_attempt (D.removal (h.removable token))
  | .error .notFound => exact acts_pure _
  | .error .alreadyExists | .error .notEmpty | .error .other => exact acts_throw _

theorem acts_leaseIsStale : D.acts (leaseIsStale c ns key) := by
  refine acts_bind acts_checkCancelled fun _ => acts_read trivial fun r => ?_
  match r with
  | .ok stale => exact acts_pure _
  | .error .alreadyExists | .error .notEmpty | .error .other => exact acts_throw _
  | .error .notFound =>
    refine acts_read trivial fun r => ?_
    match r with
    | .ok stale => exact acts_pure _
    | .error .notFound => exact acts_pure _
    | .error .alreadyExists | .error .notEmpty | .error .other => exact acts_throw _

theorem acts_initializeLease (h : D.Leasing ns key) : D.acts (initializeLease ns key) := by
  have hfail : ∀ message, D.acts (do
      let _ ← outcome (reapDirectory ns key)
      throw (.ioError message) : Action WriterLease) := fun message =>
    acts_bind (acts_outcome (acts_reapDirectory h)) fun _ => acts_throw _
  refine acts_read trivial fun owner => acts_seq (D.step (h.owner owner)) fun r => ?_
  match r with
  | .error _ => exact hfail _
  | .ok () =>
    refine acts_seq (D.step h.heartbeat) fun r => ?_
    match r with
    | .error _ => exact hfail _
    | .ok () => exact acts_pure _

theorem acts_acquireLoop (h : D.Leasing ns key) {started : Nat} :
    ∀ {polls : Nat}, D.acts (acquireLoop c ns key started polls)
  | 0 => acts_throw _
  | polls + 1 => by
    have hrest : D.acts (acquireLoop c ns key started polls) := acts_acquireLoop h
    unfold acquireLoop
    refine acts_bind acts_checkCancelled fun _ => acts_seq (D.step h.create) fun r => ?_
    match r with
    | .ok () => exact acts_initializeLease h
    | .error .notFound | .error .notEmpty | .error .other => exact acts_throw _
    | .error .alreadyExists =>
      refine acts_bind acts_leaseIsStale fun stale => ?_
      cases stale with
      | true => exact acts_bind (acts_reapDirectory h) fun _ => hrest
      | false =>
        refine acts_read trivial fun now => ?_
        split
        · exact acts_throw _
        · exact hrest

theorem acts_acquire (h : D.Leasing ns key) : D.acts (acquire c ns key) :=
  acts_read trivial fun _ => acts_acquireLoop h

theorem holds_refresh {lease : WriterLease} (h : D.Leasing lease.ns lease.key) :
    D.holds lease.refresh := by
  refine D.bind (D.step (D.reading trivial)) fun r => ?_
  match r with
  | .error _ => exact D.ret _
  | .ok owner =>
    dsimp only
    split
    · exact D.ret _
    · refine D.bind (D.step h.refresh) fun r => ?_
      match r with
      | .error _ => exact D.ret _
      | .ok () => exact D.ret _

theorem holds_releaseWriterLease (h : D.Leasing ns key) : D.holds (releaseWriterLease ns key) := by
  refine D.bind (D.step (D.reading trivial)) fun token => D.bind (D.step (h.reap token)) fun r => ?_
  match r with
  | .ok () => exact D.bind (D.removal (h.removable token)) fun _ => D.ret _
  | .error _ => exact D.ret _

theorem holds_drop {lease : WriterLease} (h : D.Leasing lease.ns lease.key) :
    D.holds lease.drop := by
  unfold WriterLease.drop
  split
  · refine D.bind (D.step (D.reading trivial)) fun r => ?_
    match r with
    | .error _ => exact D.ret _
    | .ok owner =>
      dsimp only
      split
      · exact holds_releaseWriterLease h
      · exact D.ret _
  · exact D.ret _

theorem holds_keeping {lease : WriterLease} {x : Action α} (hx : D.acts x) :
    D.holds (keeping lease x) := D.bind hx fun _ => D.ret _

theorem acts_withLease {body : WriterLease → Task (Result α × WriterLease)}
    (h : ∀ ns key, D.Leasing ns key) (hbody : ∀ lease, D.holds (body lease)) :
    D.acts (withLease c ns key body) := by
  refine acts_bind (acts_acquire (h ns key)) fun lease => acts_seq (hbody lease) fun r => ?_
  exact acts_seq (holds_drop (h _ _)) fun _ => D.ret _

/-! ## Eviction -/

/-- A discipline that allows everything an eviction of a key does. -/
structure Evicting (D : Discipline) (ns : CacheNamespace) (key : CacheKey) : Prop where
  leasing : ∀ ns key, D.Leasing ns key
  createShard : D.ok (.createShard ns (shardOf key))
  hide : ∀ token, D.ok (.rename (entryPath ns key) ⟨ns, .evicted key token⟩)
  removable : ∀ token, D.removable ⟨ns, .evicted key token⟩

theorem acts_evictLeased {reason : EvictionReason} (h : D.Evicting ns key) :
    D.acts (evictLeased ns key reason) := by
  refine acts_bind acts_checkCancelled fun _ => acts_read trivial fun r => ?_
  match r with
  | .error .notFound => exact acts_pure _
  | .error .alreadyExists | .error .notEmpty | .error .other => exact acts_throw _
  | .ok bytes =>
    refine acts_bind acts_visitEntries fun _ => acts_read trivial fun token =>
      acts_seq (D.step (h.hide token)) fun r => ?_
    match r with
    | .error .notFound => exact acts_pure _
    | .error .alreadyExists | .error .notEmpty | .error .other => exact acts_throw _
    | .ok () =>
      exact acts_bind (acts_attempt (D.removal (h.removable token))) fun _ => acts_pure _

theorem acts_evict {reason : EvictionReason} (h : D.Evicting ns key) :
    D.acts (evict c ns key reason) :=
  acts_bind (acts_attempt (D.step h.createShard)) fun _ =>
    acts_withLease h.leasing fun _ => holds_keeping (acts_evictLeased h)

/-! ## Inspection -/

theorem acts_readShardList : D.acts (readShardList ns) := by
  refine acts_bind acts_checkCancelled fun _ => acts_read trivial fun r => ?_
  match r with
  | .error .notFound => exact acts_pure _
  | .error .alreadyExists | .error .notEmpty | .error .other => exact acts_throw _
  | .ok _ => exact acts_bind acts_visitEntries fun _ => acts_pure _

theorem acts_readNames {shard : UInt8} : D.acts (readNames ns shard) := by
  refine acts_bind acts_checkCancelled fun _ => acts_read trivial fun r => ?_
  match r with
  | .error .notFound => exact acts_pure _
  | .error .alreadyExists | .error .notEmpty | .error .other => exact acts_throw _
  | .ok _ => exact acts_bind acts_visitEntries fun _ => acts_pure _

theorem acts_nameCandidates : ∀ {names : List Name}, D.acts (nameCandidates ns names)
  | [] => acts_pure _
  | name :: rest => by
    have hrest : D.acts (nameCandidates ns rest) := acts_nameCandidates
    cases name with
    | final key =>
      refine acts_bind (acts_attempt (D.step (D.reading trivial))) fun modified =>
        acts_bind acts_readEnvelope fun read => ?_
      cases read with
      | envelope envelope =>
        exact acts_bind (acts_pure _) fun _ => acts_bind hrest fun _ => acts_pure _
      | miss reason => exact acts_bind (acts_pure _) fun _ => acts_bind hrest fun _ => acts_pure _
    | lease _ | reap _ _ | staging _ _ | previous _ _ | evicted _ _ => exact hrest

theorem acts_shardCandidates : ∀ {shards : List UInt8}, D.acts (shardCandidates ns shards)
  | [] => acts_pure _
  | _ :: _ => acts_bind acts_readNames fun _ => acts_bind acts_nameCandidates fun _ =>
    acts_bind acts_shardCandidates fun _ => acts_pure _

theorem acts_scanCandidates : ∀ {namespaces : List CacheNamespace},
    D.acts (scanCandidates namespaces)
  | [] => acts_pure _
  | _ :: _ => acts_bind acts_checkCancelled fun _ => acts_bind acts_readShardList fun _ =>
    acts_bind acts_shardCandidates fun _ => acts_bind acts_scanCandidates fun _ => acts_pure _

theorem acts_inspectCandidates : ∀ {candidates : List CacheCandidate},
    D.acts (inspectCandidates candidates)
  | [] => acts_pure _
  | candidate :: rest => by
    unfold inspectCandidates
    refine acts_bind acts_checkCancelled fun _ => ?_
    split
    · refine acts_bind (acts_pure _) fun info => acts_bind acts_inspectCandidates fun _ => ?_
      cases info <;> exact acts_pure _
    · split
      · refine acts_bind (acts_pure _) fun info => acts_bind acts_inspectCandidates fun _ => ?_
        cases info <;> exact acts_pure _
      · refine acts_read trivial fun r => ?_
        cases r with
        | error e =>
          cases e with
          | notFound =>
            refine acts_bind (acts_pure _) fun info => acts_bind acts_inspectCandidates fun _ => ?_
            cases info <;> exact acts_pure _
          | alreadyExists | notEmpty | other =>
            refine acts_bind (acts_throw _) fun info => acts_bind acts_inspectCandidates fun _ => ?_
            cases info <;> exact acts_pure _
        | ok payload =>
          dsimp only
          split <;> refine acts_bind (acts_pure _) fun info =>
            acts_bind acts_inspectCandidates fun _ => ?_
          · cases info <;> exact acts_pure _
          · cases info <;> exact acts_pure _

theorem acts_inspect : D.acts inspect :=
  acts_bind acts_checkCancelled fun _ => acts_bind acts_scanCandidates fun _ =>
    acts_bind acts_inspectCandidates fun _ => acts_bind acts_visitEntries fun _ =>
      acts_bind (acts_attempt (D.step (D.reading trivial))) fun _ => acts_pure _

end Discipline

end ModelWeights.Cache
