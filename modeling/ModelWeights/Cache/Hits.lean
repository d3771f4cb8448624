import ModelWeights.Cache.Publisher

/-! # Lookups under interference

What a hit consists of, whatever other processes do while it is looked up: metadata
that describes a payload of the entry, and a payload that some metadata of the entry
describes. Only a hash of the payload ties the one to the other. -/
namespace ModelWeights.Cache
open Program Interference

variable {Good : CacheEnvelope → List UInt8 → Prop} {process : Nat} {others : Nat → Prop}
  {fs t : Files} {path : Path} {c : CacheService} {ns : CacheNamespace} {key : CacheKey}
  {compatibility : CacheCompatibility} {validation : CacheValidation}

/-- A path that a lookup reads. -/
structure Serves (ns : CacheNamespace) (key : CacheKey) (path : Path) : Prop where
  ns : path.ns = ns
  key : path.name.key = key
  kind : path.name.kind = .entry

/-- A hit of a lookup. -/
structure Found (Good : CacheEnvelope → List UInt8 → Prop) (c : CacheService)
    (ns : CacheNamespace) (key : CacheKey) (compatibility : CacheCompatibility)
    (validation : CacheValidation) (entry : CacheEntry) : Prop where
  info : ∃ e path bytes, entry.info = infoFromEnvelope e path ∧ Good e bytes ∧
    envelopeMiss ns key compatibility e = none
  payload : ∃ e, Good e entry.payload ∧ e.ns = ns ∧ e.key = key
  length : entry.payload.length = entry.info.payloadLen
  digest : validation = .full → c.sha256 entry.payload = entry.info.payloadDigest

/-- Every hit is one of a lookup. -/
def FoundIn (Good : CacheEnvelope → List UInt8 → Prop) (c : CacheService)
    (ns : CacheNamespace) (key : CacheKey) (compatibility : CacheCompatibility)
    (validation : CacheValidation) (found : CacheLookup) : Prop :=
  ∀ entry, found = .hit entry → Found Good c ns key compatibility validation entry

section Steps
variable {α β : Type} {R : α → Prop} {S : β → Prop}

/-- A step that only reads. -/
theorem yields_reading {o : FileOp} {f : o.Resp → Action β} {Q : o.Resp → Prop} (ho : o.Reading)
    (hQ : ∀ env t, t.Sound Good → Q (o.eval env t).1)
    (hf : ∀ r, Q r → (soundProtocol Good process others).Yields (f r) S) :
    (soundProtocol Good process others).Yields (liftM (step o) >>= f) S := by
  refine yields_seq (fun fs => does_step (fun t _ hi env _ => ?_) fun r => stable_fact) hf
  rw [ho.eval env t]
  exact ⟨hi, .refl _ t, hQ env t hi⟩

/-- A step whose answer does not matter. -/
theorem yields_asking {o : FileOp} {f : o.Resp → Action β} (ho : o.Reading)
    (hf : ∀ r, (soundProtocol Good process others).Yields (f r) S) :
    (soundProtocol Good process others).Yields (liftM (step o) >>= f) S :=
  yields_reading (Q := fun _ => True) ho (fun _ _ _ => trivial) fun r _ => hf r

/-- A calm action. -/
theorem yields_calm {x : Action α}
    (hx : (ownDiscipline Good others (kept_true : Kept _ process fun _ => True)).acts x) :
    (soundProtocol Good process others).Yields x fun _ => True := fun _ => acts_calm hx trivial

theorem yields_first {x : Action α} {f : α → Action β}
    (hx : (ownDiscipline Good others (kept_true : Kept _ process fun _ => True)).acts x)
    (hf : ∀ a, (soundProtocol Good process others).Yields (f a) S) :
    (soundProtocol Good process others).Yields (x >>= f) S :=
  yields_bind (yields_calm hx) fun a _ => hf a

end Steps

theorem ask_ok {α : Type} {f : Directory → Option α} {a : α} (h : (fs.ask path f).1 = .ok a) :
    ∃ inode, fs.names.get? path = some inode ∧ f (fs.dirs inode) = some a := by
  rw [Files.ask] at h
  cases ho : (fs.at? path).bind f with
  | none =>
    rw [ho] at h
    cases h
  | some b =>
    rw [ho] at h
    obtain rfl := Except.ok.inj h
    obtain ⟨d, hd, hf⟩ := Option.bind_eq_some_iff.mp ho
    obtain ⟨inode, hi, rfl⟩ := Option.map_eq_some_iff.mp hd
    exact ⟨inode, hi, hf⟩

theorem readMetadata_ok {env : Env} {file : MetadataFile}
    (h : (FileOp.eval (.readMetadata path) env fs).1 = .ok file) :
    ∃ inode, fs.names.get? path = some inode ∧ (fs.dirs inode).metadata = some file := by
  cases hfault : env.fault with
  | true =>
    rw [FileOp.eval, hfault] at h
    cases h
  | false =>
    rw [FileOp.eval_quiet hfault] at h
    exact ask_ok h

theorem openPayload_ok {env : Env} {payload : List UInt8}
    (h : (FileOp.eval (.openPayload path) env fs).1 = .ok payload) :
    ∃ inode, fs.names.get? path = some inode ∧ (fs.dirs inode).payload = some payload := by
  cases hfault : env.fault with
  | true =>
    rw [FileOp.eval, hfault] at h
    cases h
  | false =>
    rw [FileOp.eval_quiet hfault] at h
    exact ask_ok h

/-! ## Lookup -/

theorem yields_readEnvelope : (soundProtocol Good process others).Yields (readEnvelope path)
    fun read => ∀ e, read = .envelope e → ∃ bytes, Good e bytes := by
  refine yields_reading (o := .readMetadata path) (Q := fun r => ∀ e length,
    r = .ok (.envelope e length) → ∃ bytes, Good e bytes) trivial (fun env t ht e length hr => ?_)
    fun r hr => ?_
  · obtain ⟨inode, _, hm⟩ := readMetadata_ok hr
    exact (ht.dirs inode).described e length hm
  · match r with
    | .error .notFound => exact yields_pure fun _ he => by cases he
    | .error .alreadyExists | .error .notEmpty | .error .other => exact yields_throw
    | .ok .incomplete => exact yields_pure fun _ he => by cases he
    | .ok (.envelope e length) =>
      show (soundProtocol Good process others).Yields (if length > maxMetadataBytes then _ else _) _
      split
      · exact yields_pure fun _ he => by cases he
      · refine yields_pure fun e' he => ?_
        obtain rfl := MetadataRead.envelope.inj he
        exact hr e length rfl

theorem yields_lookupEntryPath (hpath : Serves ns key path) :
    (soundProtocol Good process others).Yields
      (lookupEntryPath c path ns key compatibility validation)
      (FoundIn Good c ns key compatibility validation) := by
  have hmiss : ∀ {reason : CacheMissReason}, (soundProtocol Good process others).Yields
      (pure (CacheLookup.miss reason)) (FoundIn Good c ns key compatibility validation) :=
    yields_pure fun _ he => by cases he
  refine yields_first Discipline.acts_checkCancelled fun _ => yields_asking trivial fun r => ?_
  match r with
  | .error .notFound => exact hmiss
  | .error .alreadyExists | .error .notEmpty | .error .other => exact yields_throw
  | .ok _ =>
    refine yields_bind yields_readEnvelope fun read hread => ?_
    cases read with
    | miss reason => exact hmiss
    | envelope e =>
      obtain ⟨bytes, hgood⟩ := hread e rfl
      dsimp only
      split
      · exact hmiss
      · next hnone =>
        refine yields_reading (o := .openPayload path) (Q := fun r => ∀ payload,
          r = .ok payload → ∃ e, Good e payload ∧ e.ns = ns ∧ e.key = key) trivial
          (fun env t ht payload hr => ?_) fun r hr => ?_
        · obtain ⟨inode, hn, hp⟩ := openPayload_ok hr
          obtain ⟨e', hgood', hfits⟩ := ht.published path inode payload hpath.kind hn hp
          exact ⟨e', hgood', hfits.ns.trans hpath.ns, hfits.key.trans hpath.key⟩
        · match r with
          | .error .notFound => exact hmiss
          | .error .alreadyExists | .error .notEmpty | .error .other => exact yields_throw
          | .ok payload =>
            dsimp only
            have hlast : payload.length = e.payloadLen →
                (soundProtocol Good process others).Yields
                  (if validation = .full ∧ c.sha256 payload ≠ e.payloadDigest then
                    pure (CacheLookup.miss (.digestMismatch e.payloadDigest (c.sha256 payload)))
                  else pure (CacheLookup.hit ⟨infoFromEnvelope e path, payload⟩))
                  (FoundIn Good c ns key compatibility validation) := by
              intro hlength
              split
              · exact hmiss
              · next hdigest =>
                refine yields_pure fun entry he => ?_
                obtain rfl := CacheLookup.hit.inj he
                refine ⟨⟨e, path, bytes, rfl, hgood, hnone⟩, hr payload rfl, hlength, fun hfull => ?_⟩
                exact not_not.mp fun hne => hdigest ⟨hfull, hne⟩
            split
            · exact hmiss
            · next hlength =>
              split
              · exact yields_first Discipline.acts_checkCancelled fun _ => hlast (not_not.mp hlength)
              · exact hlast (not_not.mp hlength)

theorem yields_datedReplacements : ∀ {names : List Name},
    (soundProtocol Good process others).Yields (datedReplacements ns key names)
      fun dated => ∀ p ∈ dated, Serves ns key p.2
  | [] => yields_pure fun _ hm => absurd hm List.not_mem_nil
  | name :: rest => by
    have hrest : (soundProtocol Good process others).Yields (datedReplacements ns key rest)
        fun dated => ∀ p ∈ dated, Serves ns key p.2 := yields_datedReplacements
    unfold datedReplacements
    cases name with
    | previous k token =>
      dsimp only
      split
      · next hk =>
        refine yields_asking trivial fun r => ?_
        cases r with
        | error e =>
          cases e with
          | notFound => exact hrest
          | alreadyExists | notEmpty | other => exact yields_throw
        | ok modified =>
          refine yields_bind hrest fun dated hdated => yields_pure fun p hp => ?_
          rcases List.mem_cons.mp hp with rfl | hp
          · exact ⟨rfl, hk, rfl⟩
          · exact hdated p hp
      · exact hrest
    | final _ | lease _ | reap _ _ | staging _ _ | evicted _ _ => exact hrest

theorem yields_replacementPaths : (soundProtocol Good process others).Yields
    (replacementPaths ns key) fun paths => ∀ path ∈ paths, Serves ns key path := by
  refine yields_first Discipline.acts_checkCancelled fun _ => yields_asking trivial fun r => ?_
  match r with
  | .error .notFound => exact yields_pure fun _ hm => absurd hm List.not_mem_nil
  | .error .alreadyExists | .error .notEmpty | .error .other => exact yields_throw
  | .ok names =>
    refine yields_first Discipline.acts_visitEntries fun _ =>
      yields_bind yields_datedReplacements fun dated hdated => yields_pure fun path hp => ?_
    obtain ⟨p, hp', rfl⟩ := List.mem_map.mp hp
    exact hdated p ((List.perm_insertionSort _ dated).mem_iff.mp hp')

theorem yields_lookupReplacements : ∀ {paths : List Path}, (∀ path ∈ paths, Serves ns key path) →
    (soundProtocol Good process others).Yields
      (lookupReplacements c ns key compatibility validation paths)
      fun found => ∀ entry, found = some entry →
        Found Good c ns key compatibility validation entry
  | [], _ => yields_pure fun _ he => by cases he
  | path :: rest, hpaths => by
    have hrest : (soundProtocol Good process others).Yields
        (lookupReplacements c ns key compatibility validation rest)
        fun found => ∀ entry, found = some entry →
          Found Good c ns key compatibility validation entry :=
      yields_lookupReplacements fun p hp => hpaths p (List.mem_cons_of_mem _ hp)
    unfold lookupReplacements
    refine yields_outcome (yields_lookupEntryPath (hpaths path (List.mem_cons_self ..)))
      fun r hr => ?_
    cases r with
    | ok found =>
      cases found with
      | hit entry =>
        refine yields_pure fun e he => ?_
        obtain rfl := Option.some.inj he
        exact hr _ rfl entry rfl
      | miss reason => exact hrest
    | error e =>
      refine yields_asking trivial fun r => ?_
      cases r with
      | ok modified => exact yields_throw
      | error gone => exact hrest

/-- **Every hit is found**, under any interference. -/
theorem yields_lookup : (soundProtocol Good process others).Yields
    (lookup c ns key compatibility validation)
    (FoundIn Good c ns key compatibility validation) := by
  have hfinal : Serves ns key (entryPath ns key) := ⟨rfl, rfl, rfl⟩
  refine yields_first Discipline.acts_checkCancelled fun _ =>
    yields_bind (yields_lookupEntryPath hfinal) fun found hfound => ?_
  cases found with
  | hit entry => exact yields_pure hfound
  | miss _ =>
    refine yields_bind yields_replacementPaths fun previous hprevious =>
      yields_bind (yields_lookupEntryPath hfinal) fun found hfound => ?_
    cases found with
    | hit entry => exact yields_pure hfound
    | miss _ =>
      refine yields_bind (yields_lookupReplacements hprevious) fun found hfound => ?_
      cases found with
      | some entry =>
        exact yields_pure fun e he => hfound e (congrArg some (CacheLookup.hit.inj he))
      | none => exact yields_lookupEntryPath hfinal

/-! ## Inspection -/

/-- An envelope that describes a payload. -/
def Describes (Good : CacheEnvelope → List UInt8 → Prop) (e : CacheEnvelope) : Prop :=
  ∃ bytes, Good e bytes

theorem yields_nameCandidates : ∀ {names : List Name},
    (soundProtocol Good process others).Yields (nameCandidates ns names)
      fun candidates => ∀ candidate ∈ candidates, ∀ e, candidate.envelope = some e →
        Describes Good e
  | [] => yields_pure fun _ hm => absurd hm List.not_mem_nil
  | name :: rest => by
    have hrest : (soundProtocol Good process others).Yields (nameCandidates ns rest)
        fun candidates => ∀ candidate ∈ candidates, ∀ e, candidate.envelope = some e →
          Describes Good e := yields_nameCandidates
    cases name with
    | final key =>
      refine yields_first (Discipline.acts_attempt
        ((ownDiscipline Good others kept_true).step (o := .modified (entryPath ns key)) trivial))
        fun modified => yields_bind yields_readEnvelope fun read hread => ?_
      cases read with
      | envelope envelope =>
        refine yields_bind (R := fun e => ∀ e', e = some e' → Describes Good e')
          (yields_pure fun e' he => hread e' (congrArg _ (Option.some.inj he)))
          fun e he => yields_bind hrest fun candidates hcandidates => yields_pure ?_
        intro candidate hm
        rcases List.mem_cons.mp hm with rfl | hm
        · exact he
        · exact hcandidates candidate hm
      | miss reason =>
        refine yields_bind (R := fun e => e = none) (yields_pure rfl)
          fun e he => yields_bind hrest fun candidates hcandidates => yields_pure ?_
        intro candidate hm e' he'
        rcases List.mem_cons.mp hm with rfl | hm
        · cases he.symm.trans he'
        · exact hcandidates candidate hm e' he'
    | lease _ | reap _ _ | staging _ _ | previous _ _ | evicted _ _ => exact hrest

theorem yields_shardCandidates : ∀ {shards : List UInt8},
    (soundProtocol Good process others).Yields (shardCandidates ns shards)
      fun candidates => ∀ candidate ∈ candidates, ∀ e, candidate.envelope = some e →
        Describes Good e
  | [] => yields_pure fun _ hm => absurd hm List.not_mem_nil
  | _ :: _ => yields_first Discipline.acts_readNames fun _ =>
    yields_bind yields_nameCandidates fun _ h => yields_bind yields_shardCandidates fun _ h' =>
      yields_pure fun candidate hm => (List.mem_append.mp hm).elim (h candidate) (h' candidate)

theorem yields_scanCandidates : ∀ {namespaces : List CacheNamespace},
    (soundProtocol Good process others).Yields (scanCandidates namespaces)
      fun candidates => ∀ candidate ∈ candidates, ∀ e, candidate.envelope = some e →
        Describes Good e
  | [] => yields_pure fun _ hm => absurd hm List.not_mem_nil
  | _ :: _ => yields_first Discipline.acts_checkCancelled fun _ =>
    yields_first Discipline.acts_readShardList fun _ => yields_bind yields_shardCandidates
      fun _ h => yields_bind yields_scanCandidates fun _ h' =>
        yields_pure fun candidate hm => (List.mem_append.mp hm).elim (h candidate) (h' candidate)

/-- The info of an envelope that describes a payload, at the path of its key. -/
def Inventoried (Good : CacheEnvelope → List UInt8 → Prop) (info : CacheEntryInfo) : Prop :=
  ∃ e, Describes Good e ∧ info = infoFromEnvelope e (entryPath e.ns e.key)

/-- The rest of the list is inspected, and the first one counted. -/
theorem yields_tally {rest : List CacheCandidate}
    {f : Option CacheEntryInfo → List CacheEntryInfo × Nat → Action (List CacheEntryInfo × Nat)}
    (hnone : ∀ r, f none r = pure (r.1, r.2 + 1))
    (hsome : ∀ info r, f (some info) r = pure (info :: r.1, r.2))
    (hrest : (soundProtocol Good process others).Yields (inspectCandidates rest)
      fun r => ∀ info ∈ r.1, Inventoried Good info) (info : Option CacheEntryInfo)
    (hinfo : ∀ i, info = some i → Inventoried Good i) :
    (soundProtocol Good process others).Yields (inspectCandidates rest >>= f info)
      fun r => ∀ info ∈ r.1, Inventoried Good info := by
  refine yields_bind hrest fun r hr => ?_
  cases info with
  | none =>
    rw [hnone]
    exact yields_pure hr
  | some info =>
    rw [hsome]
    refine yields_pure fun i hi => ?_
    rcases List.mem_cons.mp hi with rfl | hi
    · exact hinfo i rfl
    · exact hr i hi

theorem yields_inspectCandidates {candidates : List CacheCandidate}
    (h : ∀ candidate ∈ candidates, ∀ e, candidate.envelope = some e → Describes Good e) :
    (soundProtocol Good process others).Yields (inspectCandidates candidates)
      fun r => ∀ info ∈ r.1, Inventoried Good info := by
  induction candidates with
  | nil => exact yields_pure fun _ hm => absurd hm List.not_mem_nil
  | cons candidate rest ih =>
    have hrest := ih fun candidate hm => h candidate (List.mem_cons_of_mem _ hm)
    have hnone : (soundProtocol Good process others).Yields
        (pure none : Action (Option CacheEntryInfo))
        fun info => ∀ i, info = some i → Inventoried Good i := yields_pure fun _ hi => by cases hi
    unfold inspectCandidates
    refine yields_first Discipline.acts_checkCancelled fun _ => ?_
    cases henvelope : candidate.envelope with
    | none => exact yields_bind hnone (yields_tally (fun _ => rfl) (fun _ _ => rfl) hrest)
    | some envelope =>
      dsimp only
      split
      · exact yields_bind hnone (yields_tally (fun _ => rfl) (fun _ _ => rfl) hrest)
      · next hmatches =>
        obtain ⟨_, hns, hkey⟩ : _ ∧ envelope.ns = candidate.ns ∧ envelope.key = candidate.key := by
          simpa only [not_or, not_not] using hmatches
        refine yields_asking (o := .openPayload (entryPath candidate.ns candidate.key)) trivial
          fun r => ?_
        cases r with
        | error e =>
          cases e with
          | notFound => exact yields_bind hnone (yields_tally (fun _ => rfl) (fun _ _ => rfl) hrest)
          | alreadyExists | notEmpty | other =>
            exact yields_bind yields_throw (yields_tally (fun _ => rfl) (fun _ _ => rfl) hrest)
        | ok payload =>
          dsimp only
          split
          · exact yields_bind hnone (yields_tally (fun _ => rfl) (fun _ _ => rfl) hrest)
          · refine yields_bind (yields_pure fun i hi => ?_) (yields_tally (fun _ => rfl) (fun _ _ => rfl) hrest)
            obtain rfl := Option.some.inj hi
            refine ⟨envelope, h candidate (List.mem_cons_self ..) envelope henvelope, ?_⟩
            rw [hns, hkey]

/-- **Inspection lists what was published**, under any interference. -/
theorem yields_inspect : (soundProtocol Good process others).Yields inspect
    fun inspection => ∀ info ∈ inspection.entries, Inventoried Good info := by
  refine yields_first Discipline.acts_checkCancelled fun _ => yields_bind yields_scanCandidates
    fun candidates hcandidates => yields_bind (yields_inspectCandidates hcandidates) fun r hr =>
      yields_first Discipline.acts_visitEntries fun _ => yields_first (Discipline.acts_attempt
        ((ownDiscipline Good others kept_true).step (o := .totalSize) trivial))
        fun totalBytes => yields_pure fun info hm => ?_
  exact hr info ((List.perm_insertionSort _ r.1).mem_iff.mp hm)

end ModelWeights.Cache
