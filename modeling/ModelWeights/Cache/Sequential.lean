import ModelWeights.Cache.View

/-! # One call at a time

What every operation of the service does when it runs alone, without failures: a
specification for each function, in terms of what is at every path. -/
namespace ModelWeights.Cache
open Program

/-! ## Rules -/

/-- A task run against quiet environments. -/
def Ensures {α : Type} (task : Task α) (Q : α → Files → Prop) (fs : Files) : Prop :=
  wp FileOp.eval Env.Quiet task Q fs

/-- An action run against quiet environments. -/
def Meets {α : Type} (action : Action α) (Q : Result α → Files → Prop) (fs : Files) : Prop :=
  Ensures action.run Q fs

section Rules
variable {α β : Type} {fs : Files}

theorem ensures_step {o : FileOp} {Q : o.Resp → Files → Prop} :
    Ensures (step o) Q fs ↔ ∀ env : Env, env.Quiet →
      Q (o.effect env fs).1 (o.effect env fs).2 := by
  refine forall_congr' fun env => imp_congr_right fun henv => ?_
  rw [FileOp.eval_quiet henv.fault]
  exact Iff.rfl

theorem ensures_bind {x : Task α} {f : α → Task β} {Q : β → Files → Prop} :
    Ensures (x >>= f) Q fs ↔ Ensures x (fun a t => Ensures (f a) Q t) fs := wp_bind

theorem Ensures.mono {x : Task α} {Q Q' : α → Files → Prop} (h : Ensures x Q fs)
    (hQ : ∀ a t, Q a t → Q' a t) : Ensures x Q' fs := wp_mono h hQ

theorem meets_bind {x : Action α} {f : α → Action β} {Q : Result β → Files → Prop} :
    Meets (x >>= f) Q fs ↔ Meets x (fun r t => match r with
      | .ok a => Meets (f a) Q t
      | .error e => Q (.error e) t) fs := by
  refine Iff.trans (ensures_bind (x := x.run)) ?_
  refine ⟨fun h => h.mono fun r t hr => ?_, fun h => h.mono fun r t hr => ?_⟩
  · cases r with
    | ok a => exact hr
    | error e => exact hr
  · cases r with
    | ok a => exact hr
    | error e => exact hr

theorem meets_lift {x : Task α} {f : α → Action β} {Q : Result β → Files → Prop} :
    Meets (liftM x >>= f) Q fs ↔ Ensures x (fun a t => Meets (f a) Q t) fs := by
  rw [meets_bind]
  exact ensures_bind (x := x) (f := fun a => pure (Except.ok a))

theorem meets_step {o : FileOp} {f : o.Resp → Action β} {Q : Result β → Files → Prop} :
    Meets (liftM (step o) >>= f) Q fs ↔ ∀ env : Env, env.Quiet →
      Meets (f (o.effect env fs).1) Q (o.effect env fs).2 := by
  rw [meets_lift, ensures_step]

theorem Meets.mono {x : Action α} {Q Q' : Result α → Files → Prop} (h : Meets x Q fs)
    (hQ : ∀ a t, Q a t → Q' a t) : Meets x Q' fs := wp_mono h hQ

/-- An action that changes nothing and has one result. -/
def Reads (x : Action α) (fs : Files) (r : Result α) : Prop :=
  Meets x (fun r' t => r' = r ∧ t = fs) fs

theorem Reads.bind {x : Action α} {f : α → Action β} {a : α} {Q : Result β → Files → Prop}
    (h : Reads x fs (.ok a)) (hf : Meets (f a) Q fs) : Meets (x >>= f) Q fs := by
  rw [meets_bind]
  refine h.mono fun r t hr => ?_
  obtain ⟨rfl, rfl⟩ := hr
  exact hf

/-- A specification of the first part and one of the rest. -/
theorem Meets.bind {x : Action α} {f : α → Action β} {P : α → Files → Prop}
    {Q : Result β → Files → Prop} (h : Meets x (fun r t => ∃ a, r = .ok a ∧ P a t) fs)
    (hf : ∀ a t, P a t → Meets (f a) Q t) : Meets (x >>= f) Q fs := by
  rw [meets_bind]
  refine h.mono fun r t hr => ?_
  obtain ⟨a, rfl, hP⟩ := hr
  exact hf a t hP

theorem reads_checkCancelled : Reads checkCancelled fs (.ok ()) := by
  unfold Reads checkCancelled
  rw [meets_step]
  intro env henv
  rw [show (FileOp.effect env fs .cancelled).1 = false from henv.cancelled]
  exact ⟨rfl, rfl⟩

theorem reads_visitEntries : Reads visitEntries fs (.ok ()) := by
  unfold Reads visitEntries
  refine reads_checkCancelled.bind ?_
  rw [meets_step]
  intro env henv
  rw [show (FileOp.effect env fs .exhausted).1 = false from henv.exhausted]
  exact ⟨rfl, rfl⟩

theorem meets_attempt {message : String} {x : Task (IoResult α)} {P : α → Files → Prop}
    (h : Ensures x (fun r t => ∃ a, r = .ok a ∧ P a t) fs) :
    Meets (attempt message x) (fun r t => ∃ a, r = .ok a ∧ P a t) fs := by
  unfold attempt
  rw [meets_lift]
  refine h.mono fun r t hr => ?_
  obtain ⟨a, rfl, hP⟩ := hr
  exact ⟨a, rfl, hP⟩

theorem Meets.attempt {message : String} {x : Task (IoResult α)} {f : α → Action β}
    {P : α → Files → Prop} {Q : Result β → Files → Prop}
    (h : Ensures x (fun r t => ∃ a, r = .ok a ∧ P a t) fs)
    (hf : ∀ a t, P a t → Meets (f a) Q t) : Meets (Cache.attempt message x >>= f) Q fs :=
  (meets_attempt h).bind hf

end Rules

/-! ## Lookup -/

variable {c : CacheService} {fs : Files} {v : View} {ns : CacheNamespace} {key : CacheKey}

/-- The envelope of a payload. -/
def envelopeOf (c : CacheService) (ns : CacheNamespace) (key : CacheKey)
    (compatibility : CacheCompatibility) (payload : List UInt8) (created : Nat) : CacheEnvelope where
  envelopeVersion := cacheEnvelopeVersion
  ns := ns
  key := key
  compatibility := compatibility
  payloadLen := payload.length
  payloadDigest := c.sha256 payload
  createdUnixMillis := created

/-- What an entry holds. -/
structure Content where
  compatibility : CacheCompatibility
  payload : List UInt8
  created : Nat

def Content.envelope (e : Content) (c : CacheService) (ns : CacheNamespace) (key : CacheKey) :
    CacheEnvelope :=
  envelopeOf c ns key e.compatibility e.payload e.created

/-- The entry that a lookup returns for a content. -/
def Content.entry (e : Content) (c : CacheService) (ns : CacheNamespace) (key : CacheKey) :
    CacheEntry :=
  ⟨infoFromEnvelope (e.envelope c ns key) (entryPath ns key), e.payload⟩

/-- A directory that holds a complete entry. -/
structure Complete (c : CacheService) (ns : CacheNamespace) (key : CacheKey) (e : Content)
    (d : Directory) : Prop where
  owner : d.owner = none
  heartbeat : d.heartbeat = none
  payload : d.payload = some e.payload
  metadata : ∃ length ≤ maxMetadataBytes, d.metadata = some (.envelope (e.envelope c ns key) length)

theorem ask_some {α : Type} {path : Path} {f : Directory → Option α} {d : Directory} {a : α}
    (hd : fs.at? path = some d) (ha : f d = some a) : fs.ask path f = (.ok a, fs) := by
  rw [Files.ask, hd, Option.bind_some, ha]

theorem ask_none {α : Type} {path : Path} {f : Directory → Option α} (hd : fs.at? path = none) :
    fs.ask path f = (.error .notFound, fs) := by
  rw [Files.ask, hd, Option.bind_none]

theorem reads_readEnvelope {path : Path} {e : Content} {d : Directory} (hd : fs.at? path = some d)
    (he : Complete c ns key e d) : Reads (readEnvelope path) fs (.ok (.envelope (e.envelope c ns key))) := by
  obtain ⟨length, hlength, hmetadata⟩ := he.metadata
  unfold Reads readEnvelope
  rw [meets_step]
  intro env _
  rw [show FileOp.effect env fs (.readMetadata path) =
    (.ok (.envelope (e.envelope c ns key) length), fs) from ask_some hd hmetadata]
  show Meets (if length > maxMetadataBytes then _ else _) _ _
  rw [if_neg (Nat.not_lt.mpr hlength)]
  exact ⟨rfl, rfl⟩

theorem reads_lookupEntryPath_none {path : Path} {compatibility : CacheCompatibility}
    {validation : CacheValidation} (hd : fs.at? path = none) :
    Reads (lookupEntryPath c path ns key compatibility validation) fs (.ok (.miss .notFound)) := by
  unfold Reads lookupEntryPath
  refine reads_checkCancelled.bind ?_
  rw [meets_step]
  intro env _
  rw [show FileOp.effect env fs (.modified path) = (.error .notFound, fs) from ask_none hd]
  exact ⟨rfl, rfl⟩

/-- What a lookup of a complete entry returns. -/
def Content.found (e : Content) (c : CacheService) (ns : CacheNamespace) (key : CacheKey)
    (compatibility : CacheCompatibility) : CacheLookup :=
  if e.compatibility = compatibility then .hit (e.entry c ns key)
  else .miss (.compatibilityMismatch e.compatibility)

theorem reads_lookupEntryPath {compatibility : CacheCompatibility} {validation : CacheValidation}
    {e : Content} {d : Directory} (hd : fs.at? (entryPath ns key) = some d)
    (he : Complete c ns key e d) :
    Reads (lookupEntryPath c (entryPath ns key) ns key compatibility validation) fs
      (.ok (e.found c ns key compatibility)) := by
  unfold Reads lookupEntryPath
  refine reads_checkCancelled.bind ?_
  rw [meets_step]
  intro env _
  rw [show FileOp.effect env fs (.modified (entryPath ns key)) = (.ok d.modified, fs) from
    ask_some hd rfl]
  refine (reads_readEnvelope hd he).bind ?_
  by_cases hcompat : e.compatibility = compatibility
  · have hmiss : envelopeMiss ns key compatibility (e.envelope c ns key) = none := by
      simp [envelopeMiss, Content.envelope, envelopeOf, hcompat]
    simp only [hmiss]
    rw [meets_step]
    intro env _
    rw [show FileOp.effect env fs (.openPayload (entryPath ns key)) = (.ok e.payload, fs) from
      ask_some hd he.payload]
    show Meets (if e.payload.length ≠ e.payload.length then _ else _) _ _
    rw [if_neg (not_not.mpr rfl), Content.found, if_pos hcompat]
    have hhit : Reads (if validation = .full ∧ c.sha256 e.payload ≠
        (e.envelope c ns key).payloadDigest then
          pure (CacheLookup.miss (.digestMismatch (e.envelope c ns key).payloadDigest
            (c.sha256 e.payload)))
        else pure (CacheLookup.hit (e.entry c ns key))) fs (.ok (.hit (e.entry c ns key))) := by
      rw [if_neg fun hv => hv.2 rfl]
      exact ⟨rfl, rfl⟩
    cases validation with
    | full => exact reads_checkCancelled.bind hhit
    | trustedMetadata => exact hhit
  · have hmiss : envelopeMiss ns key compatibility (e.envelope c ns key) =
        some (.compatibilityMismatch e.compatibility) := by
      simp [envelopeMiss, Content.envelope, envelopeOf, hcompat]
    simp only [hmiss]
    rw [Content.found, if_neg hcompat]
    exact ⟨rfl, rfl⟩

theorem mem_namesIn {shard : UInt8} {name : Name} :
    name ∈ fs.namesIn ns shard ↔ shardOf name.key = shard ∧ (fs.at? ⟨ns, name⟩).isSome := by
  simp only [Files.namesIn, List.mem_map, List.mem_filter, decide_eq_true_eq, Files.at?,
    Option.isSome_map, Option.isSome_iff_exists, OrderedMap.get?_eq_some]
  constructor
  · rintro ⟨⟨⟨ns', name'⟩, inode⟩, ⟨hmem, rfl, rfl⟩, rfl⟩
    exact ⟨rfl, inode, hmem⟩
  · rintro ⟨rfl, inode, hmem⟩
    exact ⟨(⟨ns, name⟩, inode), ⟨hmem, rfl, rfl⟩, rfl⟩

theorem reads_datedReplacements : ∀ {names : List Name},
    (∀ name ∈ names, ∀ token, name ≠ .previous key token) →
    Reads (datedReplacements ns key names) fs (.ok [])
  | [], _ => ⟨rfl, rfl⟩
  | name :: rest, h => by
    have hrest : Reads (datedReplacements ns key rest) fs (.ok []) :=
      reads_datedReplacements fun n hn => h n (List.mem_cons_of_mem _ hn)
    unfold datedReplacements
    cases name with
    | previous k token =>
      have hk : k ≠ key := by
        rintro rfl
        exact h _ (List.mem_cons_self ..) token rfl
      simp only [hk, if_false]
      exact hrest
    | final _ => exact hrest
    | lease _ => exact hrest
    | reap _ _ => exact hrest
    | staging _ _ => exact hrest
    | evicted _ _ => exact hrest

/-- Nothing was left behind by a replacement of the entry. -/
def NoPrevious (fs : Files) (ns : CacheNamespace) (key : CacheKey) : Prop :=
  ∀ token, fs.at? ⟨ns, .previous key token⟩ = none

theorem reads_replacementPaths (h : NoPrevious fs ns key) :
    Reads (replacementPaths ns key) fs (.ok []) := by
  unfold Reads replacementPaths
  refine reads_checkCancelled.bind ?_
  rw [meets_step]
  intro env _
  have hnames : ∀ name ∈ fs.namesIn ns (shardOf key), ∀ token, name ≠ .previous key token := by
    rintro name hname token rfl
    have hsome := (mem_namesIn.mp hname).2
    rw [h token] at hsome
    cases hsome
  by_cases hshard : (ns, shardOf key) ∈ fs.shards
  · rw [show FileOp.effect env fs (.readShard ns (shardOf key)) =
      (.ok (fs.namesIn ns (shardOf key)), fs) from if_pos hshard]
    refine reads_visitEntries.bind ?_
    exact (reads_datedReplacements hnames).bind ⟨rfl, rfl⟩
  · rw [show FileOp.effect env fs (.readShard ns (shardOf key)) = (.error .notFound, fs) from
      if_neg hshard]
    exact ⟨rfl, rfl⟩

/-- What is at the final path of a key: nothing, or a complete entry. -/
def HoldsAt (c : CacheService) (fs : Files) (ns : CacheNamespace) (key : CacheKey) :
    Option Content → Prop
  | none => fs.at? (entryPath ns key) = none
  | some e => ∃ d, fs.at? (entryPath ns key) = some d ∧ Complete c ns key e d

/-- There is a directory exactly where there is a content. -/
theorem HoldsAt.map_const {β : Type} {e : Option Content} {b : β} (h : HoldsAt c fs ns key e) :
    (fs.at? (entryPath ns key)).map (fun _ => b) = e.map fun _ => b := by
  cases e with
  | none => rw [show fs.at? (entryPath ns key) = none from h]; rfl
  | some e =>
    obtain ⟨d, hd, _⟩ := h
    rw [hd]
    rfl

/-- What a lookup returns for the entry of a map. -/
def lookupResult (c : CacheService) (ns : CacheNamespace) (key : CacheKey)
    (compatibility : CacheCompatibility) : Option Content → CacheLookup
  | none => .miss .notFound
  | some e => e.found c ns key compatibility

theorem reads_lookupFinal {compatibility : CacheCompatibility} {validation : CacheValidation}
    {e : Option Content} (h : HoldsAt c fs ns key e) :
    Reads (lookupEntryPath c (entryPath ns key) ns key compatibility validation) fs
      (.ok (lookupResult c ns key compatibility e)) := by
  cases e with
  | none => exact reads_lookupEntryPath_none h
  | some e =>
    obtain ⟨d, hd, he⟩ := h
    exact reads_lookupEntryPath hd he

/-- A lookup that runs alone reads the final path. -/
theorem reads_lookup {compatibility : CacheCompatibility} {validation : CacheValidation}
    {e : Option Content} (h : HoldsAt c fs ns key e) (hprevious : NoPrevious fs ns key) :
    Reads (lookup c ns key compatibility validation) fs
      (.ok (lookupResult c ns key compatibility e)) := by
  have hfinal := @reads_lookupFinal c fs ns key compatibility validation e h
  unfold Reads lookup
  refine reads_checkCancelled.bind (hfinal.bind ?_)
  cases hr : lookupResult c ns key compatibility e with
  | hit entry => exact ⟨rfl, rfl⟩
  | miss reason =>
    rw [hr] at hfinal
    refine (reads_replacementPaths hprevious).bind (hfinal.bind ?_)
    exact hfinal

end ModelWeights.Cache
