import ModelWeights.Cache.Sequential

/-! # What a lookup finds

The result of a lookup that runs alone, as a function of the directories at the
final path of its key and at the replacement generations of the key. Stores that
agree on these directories answer every lookup alike. -/
namespace ModelWeights.Cache
open Program

/-! ## Entries -/

section Entries
variable (c : CacheService) (ns : CacheNamespace) (key : CacheKey)
  (compatibility : CacheCompatibility) (validation : CacheValidation)

/-- What is found in a directory with this payload, under a matching envelope. -/
def payloadAnswer (path : Path) (envelope : CacheEnvelope) : Option (List UInt8) → CacheLookup
  | none => .miss .incompleteEntry
  | some payload =>
    if payload.length ≠ envelope.payloadLen then
      .miss (.lengthMismatch envelope.payloadLen payload.length)
    else if validation = .full ∧ c.sha256 payload ≠ envelope.payloadDigest then
      .miss (.digestMismatch envelope.payloadDigest (c.sha256 payload))
    else .hit ⟨infoFromEnvelope envelope path, payload⟩

def metadataAnswer : Option MetadataFile → MetadataRead
  | none => .miss .incompleteEntry
  | some .incomplete => .miss .metadataMalformed
  | some (.envelope envelope length) =>
    if length > maxMetadataBytes then .miss (.metadataTooLarge length maxMetadataBytes)
    else .envelope envelope

def directoryAnswer (path : Path) (d : Directory) : CacheLookup :=
  match metadataAnswer d.metadata with
  | .miss reason => .miss reason
  | .envelope envelope =>
    match envelopeMiss ns key compatibility envelope with
    | some reason => .miss reason
    | none => payloadAnswer c validation path envelope d.payload

def pathAnswer (path : Path) : Option Directory → CacheLookup
  | none => .miss .notFound
  | some d => directoryAnswer c ns key compatibility validation path d

variable {c ns key compatibility validation} {fs : Files} {path : Path}

theorem reads_payload {envelope : CacheEnvelope} {payload : List UInt8} :
    Reads (if payload.length ≠ envelope.payloadLen then
        pure (CacheLookup.miss (.lengthMismatch envelope.payloadLen payload.length))
      else do
        if validation = .full then checkCancelled
        if validation = .full ∧ c.sha256 payload ≠ envelope.payloadDigest then
          pure (.miss (.digestMismatch envelope.payloadDigest (c.sha256 payload)))
        else pure (.hit ⟨infoFromEnvelope envelope path, payload⟩)) fs
      (.ok (payloadAnswer c validation path envelope (some payload))) := by
  by_cases hlength : payload.length = envelope.payloadLen
  · rw [if_neg (not_not.mpr hlength)]
    have hdigest : Reads (if validation = .full ∧ c.sha256 payload ≠ envelope.payloadDigest then
          pure (CacheLookup.miss (.digestMismatch envelope.payloadDigest (c.sha256 payload)))
        else pure (.hit ⟨infoFromEnvelope envelope path, payload⟩)) fs
        (.ok (payloadAnswer c validation path envelope (some payload))) := by
      rw [payloadAnswer, if_neg (not_not.mpr hlength)]
      split
      · exact ⟨rfl, rfl⟩
      · exact ⟨rfl, rfl⟩
    cases validation with
    | full => exact reads_checkCancelled.bind hdigest
    | trustedMetadata => exact hdigest
  · rw [if_pos hlength, payloadAnswer, if_pos hlength]
    exact ⟨rfl, rfl⟩

theorem reads_metadataAnswer {d : Directory} (hd : fs.at? path = some d) :
    Reads (readEnvelope path) fs (.ok (metadataAnswer d.metadata)) := by
  unfold Reads readEnvelope
  rw [meets_step]
  intro env _
  cases hm : d.metadata with
  | none =>
    rw [show FileOp.effect env fs (.readMetadata path) = (.error .notFound, fs) from by
      show fs.ask path _ = _
      rw [Files.ask, hd, Option.bind_some, hm]]
    exact ⟨rfl, rfl⟩
  | some file =>
    rw [show FileOp.effect env fs (.readMetadata path) = (.ok file, fs) from ask_some hd hm]
    cases file with
    | incomplete => exact ⟨rfl, rfl⟩
    | envelope envelope length =>
      by_cases hlength : length > maxMetadataBytes
      · simp only [if_pos hlength, metadataAnswer]
        exact ⟨rfl, rfl⟩
      · simp only [if_neg hlength, metadataAnswer]
        exact ⟨rfl, rfl⟩

/-- A lookup at one path. -/
theorem reads_pathAnswer : Reads (lookupEntryPath c path ns key compatibility validation) fs
    (.ok (pathAnswer c ns key compatibility validation path (fs.at? path))) := by
  cases hd : fs.at? path with
  | none => exact reads_lookupEntryPath_none hd
  | some d =>
    unfold Reads lookupEntryPath
    refine reads_checkCancelled.bind ?_
    rw [meets_step]
    intro env _
    rw [show FileOp.effect env fs (.modified path) = (.ok d.modified, fs) from ask_some hd rfl]
    refine (reads_metadataAnswer hd).bind ?_
    rw [pathAnswer, directoryAnswer]
    cases metadataAnswer d.metadata with
    | miss reason => exact ⟨rfl, rfl⟩
    | envelope envelope =>
      cases hmiss : envelopeMiss ns key compatibility envelope with
      | some reason =>
        simp only [hmiss]
        exact ⟨rfl, rfl⟩
      | none =>
        simp only [hmiss]
        rw [meets_step]
        intro env _
        cases hp : d.payload with
        | none =>
          rw [show FileOp.effect env fs (.openPayload path) = (.error .notFound, fs) from by
            show fs.ask path _ = _
            rw [Files.ask, hd, Option.bind_some, hp]]
          exact ⟨rfl, rfl⟩
        | some payload =>
          rw [show FileOp.effect env fs (.openPayload path) = (.ok payload, fs) from
            ask_some hd hp]
          exact reads_payload

end Entries

/-! ## Replacement generations -/

/-- A replacement generation of the key. -/
def isReplacement (ns : CacheNamespace) (key : CacheKey) (path : Path) : Bool :=
  match path.name with
  | .previous k _ => path.ns = ns ∧ k = key
  | _ => false

/-- A replacement generation with its modification time. -/
def dated (fs : Files) (ns : CacheNamespace) (key : CacheKey) (path : Path) :
    Option (Nat × Path) :=
  if isReplacement ns key path then (fs.at? path).map fun d => (d.modified, path) else none

def Files.replacements (fs : Files) (ns : CacheNamespace) (key : CacheKey) : List Path :=
  (((fs.names.entries.map Prod.fst).filterMap (dated fs ns key)).insertionSort
    fun a b => newestFirst a b).map Prod.snd

section Replacements
variable {fs t : Files} {ns : CacheNamespace} {key : CacheKey}

theorem isReplacement_previous {token : Token} :
    isReplacement ns key ⟨ns, .previous key token⟩ = true := by
  simp [isReplacement]

theorem isReplacement_iff {path : Path} : isReplacement ns key path = true ↔
    ∃ token, path = ⟨ns, .previous key token⟩ := by
  constructor
  · intro h
    obtain ⟨ns', name⟩ := path
    cases name with
    | previous k token =>
      obtain ⟨rfl, rfl⟩ := of_decide_eq_true h
      exact ⟨token, rfl⟩
    | final _ => cases h
    | lease _ => cases h
    | reap _ _ => cases h
    | staging _ _ => cases h
    | evicted _ _ => cases h
  · rintro ⟨token, rfl⟩
    exact isReplacement_previous

theorem reads_dated : ∀ {names : List Name}, Reads (datedReplacements ns key names) fs
    (.ok (names.filterMap fun name => dated fs ns key ⟨ns, name⟩))
  | [] => ⟨rfl, rfl⟩
  | name :: rest => by
    have hrest : Reads (datedReplacements ns key rest) fs
      (.ok (rest.filterMap fun name => dated fs ns key ⟨ns, name⟩)) := reads_dated
    unfold datedReplacements
    cases name with
    | previous k token =>
      by_cases hk : k = key
      · subst hk
        have hdated : dated fs ns k ⟨ns, .previous k token⟩ =
            (fs.at? ⟨ns, .previous k token⟩).map fun d => (d.modified, ⟨ns, .previous k token⟩) :=
          if_pos isReplacement_previous
        simp only [if_true]
        unfold Reads
        rw [meets_step]
        intro env _
        cases hd : fs.at? ⟨ns, .previous k token⟩ with
        | none =>
          rw [show FileOp.effect env fs (.modified ⟨ns, .previous k token⟩) =
            (.error .notFound, fs) from ask_none hd]
          rw [hd, Option.map_none] at hdated
          rw [List.filterMap_cons_none (f := fun name => dated fs ns _ ⟨ns, name⟩) hdated]
          exact hrest
        | some d =>
          rw [show FileOp.effect env fs (.modified ⟨ns, .previous k token⟩) =
            (.ok d.modified, fs) from ask_some hd rfl]
          rw [hd, Option.map_some] at hdated
          rw [List.filterMap_cons_some (f := fun name => dated fs ns _ ⟨ns, name⟩) hdated]
          exact hrest.bind ⟨rfl, rfl⟩
      · have hdated : dated fs ns key ⟨ns, .previous k token⟩ = none :=
          if_neg (by simp [isReplacement, hk])
        rw [List.filterMap_cons_none (f := fun name => dated fs ns _ ⟨ns, name⟩) hdated]
        simp only [if_neg hk]
        exact hrest
    | final _ => exact hrest
    | lease _ => exact hrest
    | reap _ _ => exact hrest
    | staging _ _ => exact hrest
    | evicted _ _ => exact hrest

/-- The names of the shard hold all replacement generations of the key. -/
theorem namesIn_dated : (fs.namesIn ns (shardOf key)).filterMap
      (fun name => dated fs ns key ⟨ns, name⟩) =
    (fs.names.entries.map Prod.fst).filterMap (dated fs ns key) := by
  rw [Files.namesIn, List.filterMap_map, List.filterMap_filter, List.filterMap_map]
  refine List.filterMap_congr fun entry _ => ?_
  obtain ⟨path, inode⟩ := entry
  by_cases hreplacement : isReplacement ns key path = true
  · obtain ⟨token, rfl⟩ := isReplacement_iff.mp hreplacement
    simp [Name.key]
  · have hnone : dated fs ns key path = none := if_neg hreplacement
    show (if _ then _ else none) = dated fs ns key path
    rw [hnone]
    split
    · next hin =>
      obtain ⟨rfl, _⟩ := of_decide_eq_true hin
      exact hnone
    · rfl

theorem reads_replacements (h : fs.Valid) :
    Reads (replacementPaths ns key) fs (.ok (fs.replacements ns key)) := by
  unfold Reads replacementPaths
  refine reads_checkCancelled.bind ?_
  rw [meets_step]
  intro env _
  by_cases hshard : (ns, shardOf key) ∈ fs.shards
  · rw [show FileOp.effect env fs (.readShard ns (shardOf key)) =
      (.ok (fs.namesIn ns (shardOf key)), fs) from if_pos hshard]
    refine reads_visitEntries.bind (reads_dated.bind ?_)
    rw [namesIn_dated]
    exact ⟨rfl, rfl⟩
  · rw [show FileOp.effect env fs (.readShard ns (shardOf key)) = (.error .notFound, fs) from
      if_neg hshard]
    have hempty : (fs.names.entries.map Prod.fst).filterMap (dated fs ns key) = [] := by
      rw [List.filterMap_eq_nil_iff]
      intro path hpath
      obtain ⟨entry, hentry, rfl⟩ := List.mem_map.mp hpath
      refine if_neg fun hreplacement => hshard ?_
      obtain ⟨token, hname⟩ := isReplacement_iff.mp hreplacement
      have hin := h.shard entry.1 entry.2 (OrderedMap.get?_eq_some.mpr hentry)
      rw [hname] at hin
      exact List.contains_iff_mem.mp hin
    rw [Files.replacements, hempty]
    exact ⟨rfl, rfl⟩

/-- Stores with the same replacement generations of a key list them alike. -/
theorem replacements_congr
    (h : ∀ token, t.at? ⟨ns, .previous key token⟩ = fs.at? ⟨ns, .previous key token⟩) :
    t.replacements ns key = fs.replacements ns key := by
  have hat : ∀ path, isReplacement ns key path = true → t.at? path = fs.at? path := by
    intro path hpath
    obtain ⟨token, rfl⟩ := isReplacement_iff.mp hpath
    exact h token
  have hdated : dated t ns key = dated fs ns key := by
    funext path
    unfold dated
    by_cases hpath : isReplacement ns key path = true
    · rw [if_pos hpath, if_pos hpath, hat path hpath]
    · rw [if_neg hpath, if_neg hpath]
  have hkeys : ∀ files : Files, (files.names.entries.map Prod.fst).filterMap (dated files ns key) =
      ((files.names.entries.map Prod.fst).filter (isReplacement ns key)).filterMap
        (dated files ns key) := by
    intro files
    rw [List.filterMap_filter]
    refine List.filterMap_congr fun path _ => ?_
    unfold dated
    split <;> rfl
  have hsame : (t.names.entries.map Prod.fst).filter (isReplacement ns key) =
      (fs.names.entries.map Prod.fst).filter (isReplacement ns key) := by
    have hsorted : ∀ files : Files, ((files.names.entries.map Prod.fst).filter
        (isReplacement ns key)).Pairwise (· < ·) := fun files =>
      (List.pairwise_map.mpr files.names.sorted).filter _
    refine Canonical.eq_of_pairwise_lt (hsorted t) (hsorted fs) fun path => ?_
    have hmem : ∀ files : Files, path ∈ files.names.entries.map Prod.fst ↔
        (files.at? path).isSome = true := by
      intro files
      rw [Files.at?, Option.isSome_map, Option.isSome_iff_exists]
      simp only [OrderedMap.get?_eq_some, List.mem_map, Prod.exists, exists_and_right,
        exists_eq_right]
    rw [List.mem_filter, List.mem_filter, hmem, hmem]
    refine and_congr_left fun hpath => ?_
    rw [hat path hpath]
  rw [Files.replacements, Files.replacements, hkeys t, hkeys fs, hsame, hdated]

end Replacements

/-! ## Lookups -/

section Lookups
variable (c : CacheService) (ns : CacheNamespace) (key : CacheKey)
  (compatibility : CacheCompatibility) (validation : CacheValidation)

/-- The first hit among paths. -/
def firstAnswer (fs : Files) : List Path → Option CacheEntry
  | [] => none
  | path :: rest =>
    match pathAnswer c ns key compatibility validation path (fs.at? path) with
    | .hit entry => some entry
    | .miss _ => firstAnswer fs rest

/-- What a lookup finds. -/
def answer (fs : Files) : CacheLookup :=
  match pathAnswer c ns key compatibility validation (entryPath ns key)
      (fs.at? (entryPath ns key)) with
  | .hit entry => .hit entry
  | .miss reason =>
    match firstAnswer c ns key compatibility validation fs (fs.replacements ns key) with
    | some entry => .hit entry
    | none => .miss reason

variable {c ns key compatibility validation} {fs t : Files}

theorem reads_outcome {α : Type} {x : Action α} {a : α} (h : Reads x fs (.ok a)) :
    Reads (outcome x) fs (.ok (.ok a)) := by
  refine ensures_bind.mpr (Ensures.mono h fun r u hr => ?_)
  obtain ⟨rfl, rfl⟩ := hr
  exact ⟨rfl, rfl⟩

theorem reads_firstAnswer : ∀ {paths : List Path},
    Reads (lookupReplacements c ns key compatibility validation paths) fs
      (.ok (firstAnswer c ns key compatibility validation fs paths))
  | [] => ⟨rfl, rfl⟩
  | path :: rest => by
    unfold lookupReplacements Reads
    refine (reads_outcome reads_pathAnswer).bind ?_
    rw [firstAnswer]
    cases pathAnswer c ns key compatibility validation path (fs.at? path) with
    | hit entry => exact ⟨rfl, rfl⟩
    | miss reason => exact reads_firstAnswer

/-- **A lookup that runs alone** returns what the directories of its key say. -/
theorem reads_answer (h : fs.Valid) : Reads (lookup c ns key compatibility validation) fs
    (.ok (answer c ns key compatibility validation fs)) := by
  unfold Reads lookup
  have hfinal := @reads_pathAnswer c ns key compatibility validation fs (entryPath ns key)
  refine reads_checkCancelled.bind (hfinal.bind ?_)
  rw [answer]
  cases hentry : pathAnswer c ns key compatibility validation (entryPath ns key)
      (fs.at? (entryPath ns key)) with
  | hit entry => exact ⟨rfl, rfl⟩
  | miss reason =>
    rw [hentry] at hfinal
    refine (reads_replacements h).bind (hfinal.bind (reads_firstAnswer.bind ?_))
    cases firstAnswer c ns key compatibility validation fs (fs.replacements ns key) with
    | some entry => exact ⟨rfl, rfl⟩
    | none => exact hfinal

/-- Only the entry of the key and its replacement generations are looked at. -/
theorem answer_congr (hentry : t.at? (entryPath ns key) = fs.at? (entryPath ns key))
    (hprevious : ∀ token, t.at? ⟨ns, .previous key token⟩ = fs.at? ⟨ns, .previous key token⟩) :
    answer c ns key compatibility validation t = answer c ns key compatibility validation fs := by
  have hpaths : ∀ path ∈ fs.replacements ns key, t.at? path = fs.at? path := by
    intro path hpath
    obtain ⟨entry, hmem, rfl⟩ := List.mem_map.mp hpath
    obtain ⟨name, _, hdated⟩ := List.mem_filterMap.mp ((List.mem_insertionSort _).mp hmem)
    unfold dated at hdated
    split at hdated
    · next hreplacement =>
      obtain ⟨d, _, rfl⟩ := Option.map_eq_some_iff.mp hdated
      obtain ⟨token, hname⟩ := isReplacement_iff.mp hreplacement
      show t.at? name = fs.at? name
      rw [hname, hprevious]
    · cases hdated
  have hfirst : firstAnswer c ns key compatibility validation t (fs.replacements ns key) =
      firstAnswer c ns key compatibility validation fs (fs.replacements ns key) := by
    generalize fs.replacements ns key = paths at hpaths
    induction paths with
    | nil => rfl
    | cons path rest ih =>
      rw [firstAnswer, firstAnswer, hpaths path (List.mem_cons_self ..),
        ih fun other hother => hpaths other (List.mem_cons_of_mem _ hother)]
  rw [answer, answer, hentry, replacements_congr hprevious, hfirst]

end Lookups

end ModelWeights.Cache
