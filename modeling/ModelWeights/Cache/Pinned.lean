import ModelWeights.Cache.Critical

/-! # Pinned keys

A key that is published for one compatibility only and never evicted: whatever a lookup
finds is the entry at the path of the key, and once it is there every lookup finds it. -/
namespace ModelWeights.Cache
open Program Interference

variable {x : Contender} {ns : CacheNamespace} {key : CacheKey} {c : CacheService} {fs t : Files}
  {path : Path} {inode : Nat} {compatibility : CacheCompatibility} {validation : CacheValidation}
  {entry : CacheEntry}

theorem stable_standing (hpin : x.pins ns key = some compatibility) :
    x.protocol.Stable (Standing x ns key compatibility entry inode) := fun _ _ h ht _ =>
  h.same (ht.2.pinned ns key (h.pinned hpin).1 (h.pinned hpin).2)

/-- Some entry that stands. -/
def Stood (x : Contender) (ns : CacheNamespace) (key : CacheKey)
    (compatibility : CacheCompatibility) (entry : CacheEntry) (fs : Files) : Prop :=
  ∃ inode, Standing x ns key compatibility entry inode fs

theorem stable_stood (hpin : x.pins ns key = some compatibility) :
    x.protocol.Stable (Stood x ns key compatibility entry) := fun s t ⟨i, h⟩ ht hi =>
  ⟨i, stable_standing hpin s t h ht hi⟩

/-! ## Hits -/

/-- Every hit is the entry that stands. -/
def HitsStood (x : Contender) (ns : CacheNamespace) (key : CacheKey)
    (compatibility : CacheCompatibility) (found : CacheLookup) (fs : Files) : Prop :=
  ∀ entry, found = .hit entry → Stood x ns key compatibility entry fs

theorem stable_hitsStood (hpin : x.pins ns key = some compatibility) {found : CacheLookup} :
    x.protocol.Stable (HitsStood x ns key compatibility found) := fun s t h ht hi entry he =>
  stable_stood hpin s t (h entry he) ht hi

theorem hitsStood_miss {reason : CacheMissReason} :
    HitsStood x ns key compatibility (.miss reason) fs := fun _ he => by cases he

/-- The envelope of a pinned key is that of the entry that stands. -/
def ReadStood (x : Contender) (ns : CacheNamespace) (key : CacheKey)
    (compatibility : CacheCompatibility) (path : Path) (read : MetadataRead) (fs : Files) : Prop :=
  ∀ e, read = .envelope e → path = entryPath ns key ∧
    ∃ bytes, Stood x ns key compatibility ⟨infoFromEnvelope e path, bytes⟩ fs

theorem pinned_readEnvelope (hpin : x.pins ns key = some compatibility)
    (hpath : Serves ns key path) :
    x.protocol.Acts (readEnvelope path) (ReadStood x ns key compatibility path) (fun _ => True)
      fs := by
  have hstable : ∀ read, x.protocol.Stable (ReadStood x ns key compatibility path read) := by
    intro read s t h ht hi e he
    obtain ⟨hpath, bytes, hstood⟩ := h e he
    exact ⟨hpath, bytes, stable_stood hpin s t hstood ht hi⟩
  refine acts_seq (does_reading (o := .readMetadata path) (R := fun r t => ∀ e length,
    r = .ok (.envelope e length) → ReadStood x ns key compatibility path (.envelope e) t) trivial
    stable_always trivial (fun r s t h ht hi e length hr => hstable _ s t (h e length hr) ht hi)
    fun env t hi _ _ e length hr e' he => ?_) fun r t _ hr => ?_
  · obtain rfl := MetadataRead.envelope.inj he
    obtain ⟨i, hn, hm⟩ := readMetadata_ok hr
    obtain ⟨rfl, e', bytes, hcomplete⟩ := hi.2 ns key compatibility hpin path i hpath hn
    obtain ⟨_, hm', _⟩ := hcomplete.metadata
    obtain ⟨rfl, _⟩ := MetadataFile.envelope.inj (Option.some.inj (hm.symm.trans hm'))
    exact ⟨rfl, bytes, i, hn, e, hcomplete, rfl⟩
  · match r with
    | .error .notFound => exact acts_pure (hstable _) fun _ he => by cases he
    | .error .alreadyExists | .error .notEmpty | .error .other =>
      exact acts_throw stable_always trivial
    | .ok .incomplete => exact acts_pure (hstable _) fun _ he => by cases he
    | .ok (.envelope e length) =>
      show x.protocol.Acts (if length > maxMetadataBytes then _ else _) _ _ _
      split
      · exact acts_pure (hstable _) fun _ he => by cases he
      · exact acts_pure (hstable _) (hr e length rfl)

theorem pinned_lookupEntryPath (hpin : x.pins ns key = some compatibility)
    (hpath : Serves ns key path) :
    x.protocol.Acts (lookupEntryPath c path ns key compatibility validation)
      (HitsStood x ns key compatibility) (fun _ => True) fs := by
  have hmiss : ∀ {reason : CacheMissReason} {t : Files}, x.protocol.Acts
      (pure (CacheLookup.miss reason)) (HitsStood x ns key compatibility) (fun _ => True) t :=
    acts_pure (stable_hitsStood hpin) hitsStood_miss
  refine acts_bind stable_always (acts_reading stable_always Discipline.acts_checkCancelled
    trivial) fun _ t _ _ => acts_seq (does_reading (o := .modified path) (R := fun _ _ => True)
      trivial stable_always trivial (fun _ => stable_always) fun _ _ _ _ _ => trivial)
    fun r t _ _ => ?_
  match r with
  | .error .notFound => exact hmiss
  | .error .alreadyExists | .error .notEmpty | .error .other =>
    exact acts_throw stable_always trivial
  | .ok _ =>
    refine acts_bind stable_always (pinned_readEnvelope hpin hpath) fun read t _ hread => ?_
    cases read with
    | miss reason => exact hmiss
    | envelope e =>
      dsimp only
      split
      · exact hmiss
      · obtain ⟨rfl, bytes, hstood⟩ := hread e rfl
        refine acts_seq (does_reading (o := .openPayload (entryPath ns key)) (R := fun r t =>
          Stood x ns key compatibility ⟨infoFromEnvelope e (entryPath ns key), bytes⟩ t ∧
            ∀ payload, r = .ok payload → payload = bytes) trivial (stable_stood hpin) hstood
          (fun r s t h ht hi => ⟨stable_stood hpin s t h.1 ht hi, h.2⟩)
          fun env t _ ht _ => ⟨ht, fun payload hr => ?_⟩) fun r t _ hr => ?_
        · obtain ⟨i, hn, hp⟩ := openPayload_ok hr
          obtain ⟨i', hi'⟩ := ht
          obtain rfl := Option.some.inj (hn.symm.trans hi'.named)
          obtain ⟨e', hcomplete, _⟩ := hi'.complete
          exact Option.some.inj (hp.symm.trans hcomplete.payload)
        · match r with
          | .error .notFound => exact hmiss
          | .error .alreadyExists | .error .notEmpty | .error .other =>
            exact acts_throw stable_always trivial
          | .ok payload =>
            obtain ⟨hstood, hpayload⟩ := hr
            obtain rfl := hpayload payload rfl
            dsimp only
            have hlast : ∀ {t : Files}, Stood x ns key compatibility
                ⟨infoFromEnvelope e (entryPath ns key), payload⟩ t → x.protocol.Acts
                  (if validation = .full ∧ c.sha256 payload ≠ e.payloadDigest then
                    pure (CacheLookup.miss (.digestMismatch e.payloadDigest (c.sha256 payload)))
                  else pure (CacheLookup.hit ⟨infoFromEnvelope e (entryPath ns key), payload⟩))
                  (HitsStood x ns key compatibility) (fun _ => True) t := by
              intro t ht
              split
              · exact hmiss
              · refine acts_pure (stable_hitsStood hpin) fun entry he => ?_
                obtain rfl := CacheLookup.hit.inj he
                exact ht
            split
            · exact hmiss
            · split
              · exact acts_bind stable_always (Guards.mono (acts_reading (stable_stood hpin)
                  Discipline.acts_checkCancelled hstood) fun r _ _ h => by cases r <;> [trivial; exact h])
                  fun _ t _ ht => hlast ht
              · exact hlast hstood

theorem pinned_replacementPaths :
    x.protocol.Acts (replacementPaths ns key) (fun paths _ => ∀ path ∈ paths, Serves ns key path)
      (fun _ => True) fs := by
  have hreads : x.protocol.Acts (replacementPaths ns key) (fun _ _ => True) (fun _ => True) fs :=
    acts_reading stable_always Discipline.acts_replacementPaths trivial
  refine Guards.mono (hreads.also (yields_replacementPaths fs)) fun r t _ hr => ?_
  cases r with
  | error e => trivial
  | ok paths => exact hr.1

theorem pinned_lookupReplacements (hpin : x.pins ns key = some compatibility) {paths : List Path}
    (hpaths : ∀ path ∈ paths, Serves ns key path) :
    x.protocol.Acts (lookupReplacements c ns key compatibility validation paths)
      (fun found t => ∀ entry, found = some entry → Stood x ns key compatibility entry t)
      (fun _ => True) fs := by
  have hstable : ∀ found : Option CacheEntry, x.protocol.Stable fun t =>
      ∀ entry, found = some entry → Stood x ns key compatibility entry t :=
    fun found s u hs hsu hi entry he => stable_stood hpin s u (hs entry he) hsu hi
  induction paths generalizing fs with
  | nil => exact acts_pure (hstable none) fun _ he => by cases he
  | cons path rest ih =>
    have hrest : ∀ {t : Files}, x.protocol.Acts
        (lookupReplacements c ns key compatibility validation rest)
        (fun found t => ∀ entry, found = some entry → Stood x ns key compatibility entry t)
        (fun _ => True) t := ih fun p hp => hpaths p (List.mem_cons_of_mem _ hp)
    unfold lookupReplacements
    refine acts_seq (pinned_lookupEntryPath hpin (hpaths path (List.mem_cons_self ..)))
      fun r t _ hr => ?_
    cases r with
    | ok found =>
      cases found with
      | hit entry =>
        refine acts_pure (hstable (some entry)) fun e he => ?_
        obtain rfl := Option.some.inj he
        exact hr _ rfl
      | miss reason => exact hrest
    | error e =>
      refine acts_seq (does_reading (o := .modified path) (R := fun _ _ => True) trivial
        stable_always trivial (fun _ => stable_always) fun _ _ _ _ _ => trivial) fun r t _ _ => ?_
      cases r with
      | ok modified => exact acts_throw stable_always trivial
      | error gone => exact hrest

/-- **Every hit of a pinned key is the entry that stands.** -/
theorem pinned_lookup (hpin : x.pins ns key = some compatibility) :
    x.protocol.Acts (lookup c ns key compatibility validation)
      (HitsStood x ns key compatibility) (fun _ => True) fs := by
  have hhit : ∀ {entry : CacheEntry} {t : Files}, Stood x ns key compatibility entry t →
      x.protocol.Acts (pure (CacheLookup.hit entry)) (HitsStood x ns key compatibility)
        (fun _ => True) t := by
    intro entry t ht
    refine acts_pure (stable_hitsStood hpin) fun e he => ?_
    obtain rfl := CacheLookup.hit.inj he
    exact ht
  refine acts_bind stable_always (acts_reading stable_always Discipline.acts_checkCancelled
    trivial) fun _ t _ _ => acts_bind stable_always
      (pinned_lookupEntryPath hpin serves_entryPath) fun found t _ hfound => ?_
  cases found with
  | hit entry => exact hhit (hfound entry rfl)
  | miss _ =>
    refine acts_bind stable_always pinned_replacementPaths fun previous t _ hprevious =>
      acts_bind stable_always (pinned_lookupEntryPath hpin serves_entryPath)
        fun found t _ hfound => ?_
    cases found with
    | hit entry => exact hhit (hfound entry rfl)
    | miss _ =>
      refine acts_bind stable_always (pinned_lookupReplacements hpin hprevious)
        fun found t _ hfound => ?_
      cases found with
      | some entry => exact hhit (hfound entry rfl)
      | none => exact pinned_lookupEntryPath hpin serves_entryPath

/-! ## An entry that stands is found -/

theorem ask_named {α : Type} {f : Directory → Option α} {a : α}
    (hn : fs.names.get? path = some inode) (hf : f (fs.dirs inode) = some a) :
    fs.ask path f = (.ok a, fs) := by
  rw [Files.ask, Files.at?, hn, Option.map_some, Option.bind_some, hf]

section Present
variable {env : Env}

/-- A step fails, or has its effect. -/
theorem eval_or (o : FileOp) (env : Env) (fs : Files) :
    (∃ r, o.failure = some r ∧ o.eval env fs = (r, fs)) ∨ o.eval env fs = o.effect env fs := by
  rw [FileOp.eval]
  cases env.fault with
  | true =>
    cases hr : o.failure with
    | none => exact .inr rfl
    | some r => exact .inl ⟨r, rfl, rfl⟩
  | false => exact .inr rfl

theorem modified_standing (h : Standing x ns key compatibility entry inode fs) :
    (FileOp.eval (.modified (entryPath ns key)) env fs).1 ≠ .error .notFound := by
  rcases eval_or (.modified (entryPath ns key)) env fs with ⟨r, hr, he⟩ | he
  · obtain rfl := Option.some.inj hr
    rw [he]
    exact fun h => by cases h
  · rw [he, FileOp.effect, Files.ask, Files.at?, h.named]
    exact fun h => by cases h

theorem readMetadata_standing (h : Standing x ns key compatibility entry inode fs) :
    (FileOp.eval (.readMetadata (entryPath ns key)) env fs).1 = .error .other ∨
      ∃ e length, (FileOp.eval (.readMetadata (entryPath ns key)) env fs).1 =
        .ok (.envelope e length) ∧ length ≤ maxMetadataBytes ∧
        (fs.dirs inode).Complete x.sha256 ns key compatibility e entry.payload ∧
        entry.info = infoFromEnvelope e (entryPath ns key) := by
  obtain ⟨e, hcomplete, hinfo⟩ := h.complete
  obtain ⟨length, hm, hlength⟩ := hcomplete.metadata
  rcases eval_or (.readMetadata (entryPath ns key)) env fs with ⟨r, hr, he⟩ | he
  · obtain rfl := Option.some.inj hr
    exact .inl (by rw [he])
  · refine .inr ⟨e, length, ?_, hlength, hcomplete, hinfo⟩
    rw [he, FileOp.effect, ask_named h.named hm]

theorem openPayload_standing (h : Standing x ns key compatibility entry inode fs) :
    (FileOp.eval (.openPayload (entryPath ns key)) env fs).1 = .error .other ∨
      (FileOp.eval (.openPayload (entryPath ns key)) env fs).1 = .ok entry.payload := by
  obtain ⟨e, hcomplete, _⟩ := h.complete
  rcases eval_or (.openPayload (entryPath ns key)) env fs with ⟨r, hr, he⟩ | he
  · obtain rfl := Option.some.inj hr
    exact .inl (by rw [he])
  · exact .inr (by rw [he, FileOp.effect, ask_named h.named hcomplete.payload])

/-- An action of reads keeps an assertion that the others keep. -/
theorem acts_keeps {α : Type} {A : Files → Prop} {action : Action α} (hA : x.protocol.Stable A)
    (ha : (observingDiscipline hA).acts action) (h : A fs) :
    x.protocol.Acts action (fun _ => A) (fun _ => True) fs :=
  Guards.mono (acts_reading hA ha h) fun r _ _ h => by cases r <;> [trivial; exact h]

/-- The lookup of an entry that stands fails or hits it. -/
def FindsStanding (x : Contender) (ns : CacheNamespace) (key : CacheKey)
    (compatibility : CacheCompatibility) (entry : CacheEntry) (inode : Nat) (found : CacheLookup)
    (fs : Files) : Prop :=
  found = .hit entry ∧ Standing x ns key compatibility entry inode fs

/-- The envelope of the entry that stands. -/
structure ReadsStanding (x : Contender) (ns : CacheNamespace) (key : CacheKey)
    (compatibility : CacheCompatibility) (entry : CacheEntry) (inode : Nat) (e : CacheEnvelope)
    (fs : Files) : Prop where
  standing : Standing x ns key compatibility entry inode fs
  requested : envelopeMiss ns key compatibility e = none
  length : entry.payload.length = e.payloadLen
  digest : x.sha256 entry.payload = e.payloadDigest
  info : entry.info = infoFromEnvelope e (entryPath ns key)

theorem present_readEnvelope (hpin : x.pins ns key = some compatibility)
    (h : Standing x ns key compatibility entry inode fs) :
    x.protocol.Acts (readEnvelope (entryPath ns key)) (fun read t => ∃ e, read = .envelope e ∧
      ReadsStanding x ns key compatibility entry inode e t) (fun _ => True) fs := by
  have hA : x.protocol.Stable (Standing x ns key compatibility entry inode) := stable_standing hpin
  have hstable : ∀ e, x.protocol.Stable (ReadsStanding x ns key compatibility entry inode e) :=
    fun e s t h ht hi => ⟨hA s t h.standing ht hi, h.requested, h.length, h.digest, h.info⟩
  refine acts_seq (does_reading (o := .readMetadata (entryPath ns key)) (R := fun r t =>
    r = .error .other ∨ ∃ e length, r = .ok (.envelope e length) ∧ length ≤ maxMetadataBytes ∧
      ReadsStanding x ns key compatibility entry inode e t) trivial hA h
    (fun r s t h ht hi => h.imp_right fun ⟨e, length, hr, hl, h⟩ =>
      ⟨e, length, hr, hl, hstable e s t h ht hi⟩)
    fun env t _ ht _ => ?_) fun r t _ hr => ?_
  · refine (readMetadata_standing ht).imp_right fun ⟨e, length, hr, hl, hcomplete, hinfo⟩ => ?_
    exact ⟨e, length, hr, hl, ht, hcomplete.requested, hcomplete.length, hcomplete.digest, hinfo⟩
  · rcases hr with rfl | ⟨e, length, rfl, hl, hreads⟩
    · exact acts_throw stable_always trivial
    · show x.protocol.Acts (if length > maxMetadataBytes then _ else _) _ _ _
      rw [if_neg (Nat.not_lt.mpr hl)]
      exact acts_pure (fun s t ⟨e, he, h⟩ ht hi => ⟨e, he, hstable e s t h ht hi⟩)
        ⟨e, rfl, hreads⟩

theorem present_lookupEntryPath (hpin : x.pins ns key = some compatibility)
    (hsha : c.sha256 = x.sha256) (h : Standing x ns key compatibility entry inode fs) :
    x.protocol.Acts (lookupEntryPath c (entryPath ns key) ns key compatibility validation)
      (FindsStanding x ns key compatibility entry inode) (fun _ => True) fs := by
  have hA : x.protocol.Stable (Standing x ns key compatibility entry inode) := stable_standing hpin
  refine acts_bind stable_always (acts_keeps hA Discipline.acts_checkCancelled h) fun _ t _ h =>
    acts_seq (does_reading (o := .modified (entryPath ns key)) (R := fun r t =>
      Standing x ns key compatibility entry inode t ∧ r ≠ .error .notFound) trivial hA h
      (fun r s t h ht hi => ⟨hA s t h.1 ht hi, h.2⟩)
      fun env t _ ht _ => ⟨ht, modified_standing ht⟩) fun r t _ hr => ?_
  match r with
  | .error .notFound => exact absurd rfl hr.2
  | .error .alreadyExists | .error .notEmpty | .error .other =>
    exact acts_throw stable_always trivial
  | .ok _ =>
    refine acts_bind stable_always (present_readEnvelope hpin hr.1) fun read t _ hread => ?_
    obtain ⟨e, rfl, hreads⟩ := hread
    dsimp only
    rw [hreads.requested]
    refine acts_seq (does_reading (o := .openPayload (entryPath ns key)) (R := fun r t =>
      Standing x ns key compatibility entry inode t ∧ (r = .error .other ∨ r = .ok entry.payload))
      trivial hA hreads.standing (fun r s t h ht hi => ⟨hA s t h.1 ht hi, h.2⟩)
      fun env t _ ht _ => ⟨ht, openPayload_standing ht⟩) fun r t _ hr => ?_
    obtain ⟨h, rfl | rfl⟩ := hr
    · exact acts_throw stable_always trivial
    · have hlast : ∀ {t : Files}, Standing x ns key compatibility entry inode t →
          x.protocol.Acts (if validation = .full ∧ c.sha256 entry.payload ≠ e.payloadDigest then
              pure (CacheLookup.miss (.digestMismatch e.payloadDigest (c.sha256 entry.payload)))
            else pure (CacheLookup.hit ⟨infoFromEnvelope e (entryPath ns key), entry.payload⟩))
            (FindsStanding x ns key compatibility entry inode) (fun _ => True) t := by
        intro t ht
        rw [hsha, if_neg fun hne => hne.2 hreads.digest, ← hreads.info]
        exact acts_pure (fun s u h hsu hi => ⟨h.1, hA s u h.2 hsu hi⟩) ⟨rfl, ht⟩
      dsimp only
      rw [if_neg (not_not.mpr hreads.length)]
      split
      · exact acts_bind stable_always (acts_keeps hA Discipline.acts_checkCancelled h)
          fun _ t _ ht => hlast ht
      · exact hlast h

/-- **An entry that stands is found** by every lookup that does not fail. -/
theorem present_lookup (hpin : x.pins ns key = some compatibility) (hsha : c.sha256 = x.sha256)
    (h : Standing x ns key compatibility entry inode fs) :
    x.protocol.Acts (lookup c ns key compatibility validation)
      (FindsStanding x ns key compatibility entry inode) (fun _ => True) fs := by
  have hA : x.protocol.Stable (Standing x ns key compatibility entry inode) := stable_standing hpin
  refine acts_bind stable_always (acts_keeps hA Discipline.acts_checkCancelled h) fun _ t _ h =>
    acts_bind stable_always (present_lookupEntryPath hpin hsha h) fun found t _ hfound => ?_
  obtain ⟨rfl, h⟩ := hfound
  exact acts_pure (fun s u h hsu hi => ⟨h.1, hA s u h.2 hsu hi⟩) ⟨rfl, h⟩

end Present

end ModelWeights.Cache
