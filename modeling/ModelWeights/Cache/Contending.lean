import ModelWeights.Cache.Pinned

/-! # Calls that contend for leases

`publish_reader` and `evict` keep to the leases, and a publication of a pinned key leaves
the entry that stands. -/
namespace ModelWeights.Cache
open Program Interference

variable {x : Contender} {ns : CacheNamespace} {key : CacheKey} {c : CacheService} {fs t : Files}
  {path : Path} {inode : Nat} {compatibility : CacheCompatibility} {reader : Reader}
  {entry : CacheEntry} {lease : WriterLease}

/-! ## The lease of a call -/

/-- Every lease that a task gives back is one of the key. -/
def LeaseOf (ns : CacheNamespace) (key : CacheKey) {α : Type} (task : Task (α × WriterLease)) :
    Prop :=
  ∀ r, Returns task r → r.2.ns = ns ∧ r.2.key = key

section LeaseOf
variable {α β : Type}

theorem leaseOf_pure {a : α} (h : lease.ns = ns ∧ lease.key = key) :
    LeaseOf ns key (pure (a, lease)) := fun r hr => by
  obtain rfl := returns_pure.mp hr
  exact h

theorem leaseOf_bind {task : Task β} {f : β → Task (α × WriterLease)}
    (hf : ∀ a, LeaseOf ns key (f a)) : LeaseOf ns key (task >>= f) := fun r hr => by
  obtain ⟨a, _, hr⟩ := returns_bind.mp hr
  exact hf a r hr

theorem leaseOf_andThen {task : Task (Result α × WriterLease)}
    {f : α → WriterLease → Task (Result β × WriterLease)} (h : LeaseOf ns key task)
    (hf : ∀ a lease, lease.ns = ns ∧ lease.key = key → LeaseOf ns key (f a lease)) :
    LeaseOf ns key (andThen task f) := fun r hr => by
  obtain ⟨⟨result, lease⟩, hx, hr⟩ := returns_bind.mp hr
  have hlease := h _ hx
  cases result with
  | ok a => exact hf a lease hlease r hr
  | error e =>
    obtain rfl := returns_pure.mp hr
    exact hlease

theorem leaseOf_keeping {action : Action α} (h : lease.ns = ns ∧ lease.key = key) :
    LeaseOf ns key (keeping lease action) := leaseOf_bind fun _ => leaseOf_pure h

theorem leaseOf_refresh (h : lease.ns = ns ∧ lease.key = key) : LeaseOf ns key lease.refresh := by
  refine leaseOf_bind fun r => ?_
  match r with
  | .error _ => exact leaseOf_pure h
  | .ok owner =>
    dsimp only
    split
    · exact leaseOf_pure h
    · refine leaseOf_bind fun r => ?_
      match r with
      | .error _ => exact leaseOf_pure h
      | .ok () => exact leaseOf_pure h

theorem leaseOf_writeChunks {written : List UInt8} {total : Nat}
    (h : lease.ns = ns ∧ lease.key = key) :
    LeaseOf ns key (writeChunks inode written total reader lease) := by
  induction reader generalizing written total lease with
  | nil =>
    unfold writeChunks
    exact leaseOf_andThen (leaseOf_keeping h) fun _ lease h =>
      leaseOf_andThen (leaseOf_refresh h) fun _ lease h => leaseOf_pure h
  | cons read rest ih =>
    unfold writeChunks
    refine leaseOf_andThen (leaseOf_keeping h) fun _ lease h =>
      leaseOf_andThen (leaseOf_refresh h) fun _ lease h => ?_
    cases read with
    | error e => exact leaseOf_pure h
    | ok chunk =>
      cases chunk with
      | nil => exact leaseOf_pure h
      | cons b chunk =>
        refine leaseOf_andThen (leaseOf_keeping h) fun _ lease h => ?_
        split
        · exact leaseOf_pure h
        · exact ih h

theorem leaseOf_stage (h : lease.ns = ns ∧ lease.key = key) :
    LeaseOf ns key (stage c path ns key compatibility reader lease) := by
  refine leaseOf_andThen (leaseOf_andThen (leaseOf_keeping h) fun _ lease h =>
    leaseOf_andThen (leaseOf_writeChunks h) fun _ lease h =>
      leaseOf_andThen (leaseOf_keeping h) fun _ lease h => leaseOf_pure h) fun _ lease h =>
    leaseOf_bind fun _ => leaseOf_andThen (leaseOf_keeping h) fun _ lease h =>
      leaseOf_andThen (leaseOf_refresh h) fun _ lease h =>
        leaseOf_andThen (leaseOf_keeping h) fun _ lease h =>
          leaseOf_andThen (leaseOf_keeping h) fun _ lease h => leaseOf_pure h

theorem leaseOf_publishLeased (h : lease.ns = ns ∧ lease.key = key) :
    LeaseOf ns key (publishLeased c ns key compatibility reader lease) := by
  refine leaseOf_andThen (leaseOf_keeping h) fun found lease h => ?_
  cases found with
  | hit entry => exact leaseOf_pure h
  | miss _ =>
    refine leaseOf_andThen (leaseOf_keeping h) fun path lease h r hr => ?_
    obtain ⟨⟨staged, lease⟩, hx, hr⟩ := returns_bind.mp hr
    have hlease := leaseOf_stage h _ hx
    match staged with
    | .error e => exact leaseOf_bind (fun _ => leaseOf_pure hlease) r hr
    | .ok envelope =>
      exact leaseOf_andThen (leaseOf_keeping hlease) (fun _ lease h => leaseOf_pure h) r hr

end LeaseOf

/-! ## Publication -/

/-- The compatibility that a call may publish a key for. -/
def Admits (x : Contender) (ns : CacheNamespace) (key : CacheKey)
    (compatibility : CacheCompatibility) : Prop :=
  ∀ compatibility', x.pins ns key = some compatibility' → compatibility' = compatibility

theorem complete_described {created : Nat} (hsha : c.sha256 = x.sha256)
    (hadmits : Admits x ns key compatibility) (compatibility' : CacheCompatibility) (d : Directory)
    (hpin : x.pins ns key = some compatibility')
    (h : Directory.Described (envelopeOf c ns key compatibility (Reader.content reader) created)
      (Reader.content reader) d) :
    d.Complete x.sha256 ns key compatibility'
      (envelopeOf c ns key compatibility (Reader.content reader) created)
      (Reader.content reader) := by
  obtain rfl := hadmits compatibility' hpin
  exact ⟨h.metadata, by simp [envelopeMiss, envelopeOf], h.payload, rfl, by rw [← hsha]; rfl⟩

theorem critical_refresh {e : CacheEnvelope} {bytes : List UInt8}
    (h : Ready x ns key path inode e bytes fs) :
    x.protocol.Leads lease.refresh (fun _ => Ready x ns key path inode e bytes)
      (Left x ns key path inode) fs := by
  have hleased : x.protocol.Does lease.refresh
      (fun r t => Leased x ns key t ∧ r.2.ns = lease.ns ∧ r.2.key = lease.key) fs :=
    exclusive_refresh stable_leased (fun _ _ ht hg => ht.gentle hg) h.leased
  have howned : (soundProtocol x.Good x.process x.others).Does lease.refresh
      (fun _ => Own x.process path inode (Directory.Described e bytes)) fs :=
    (Discipline.holds_refresh (D := ownDiscipline x.Good x.others own_kept) sound_leasing) fs h.own
  refine Guards.mono (hleased.also howned) fun r t _ hr => ?_
  have hready : Ready x ns key path inode e bytes t := ⟨hr.2.1, hr.1⟩
  rcases r with ⟨_ | _, _⟩
  · exact hready.left
  · exact hready

/-- A publication under the lease of its key. -/
theorem critical_stage (hgood : Reader.Ends reader → ∀ created,
      x.Good (envelopeOf c ns key compatibility (Reader.content reader) created)
        (Reader.content reader)) (hsha : c.sha256 = x.sha256)
    (hadmits : Admits x ns key compatibility) (h : Leased x ns key fs)
    (hown : Own x.process path inode (Directory.Payloaded none) fs) :
    x.protocol.Leads (stage c path ns key compatibility reader lease)
      (fun e t => Holds x.process ns key t ∧
        Stands x ns key (placedEntry ns key e (Reader.content reader)) t)
      (Left x ns key path inode) fs := by
  have hleft : ∀ t, Working x ns key path inode t → Left x ns key path inode t :=
    fun _ ht => ⟨ht.leased.holds, ht.owned⟩
  unfold stage
  refine leads_andThen stable_left ((critical_writePayload h hown).weaken hleft)
    fun r lease t _ hr => ?_
  obtain ⟨⟨hends, rfl⟩, h, hown⟩ := hr
  have hwritten : x.protocol.Stable fun t => Leased x ns key t ∧
      Own x.process path inode (Directory.Payloaded (some (Reader.content reader))) t :=
    fun s t h ht hi => ⟨stable_leased s t h.1 ht hi, stable_own s t h.2 ht hi⟩
  refine does_bind (does_reading (o := .now) trivial hwritten ⟨h, hown⟩ (fun _ => hwritten)
    fun _ _ _ ht _ => ht) fun created t _ h => ?_
  have hready : ∀ {e : CacheEnvelope}, x.protocol.Stable fun t => Leased x ns key t ∧
      Own x.process path inode (Directory.Described e (Reader.content reader)) t :=
    fun s t h ht hi => ⟨stable_leased s t h.1 ht hi, stable_own s t h.2 ht hi⟩
  refine leads_andThen stable_left (leads_keeping stable_left (fun _ => hready)
    ((critical_writeEnvelope (hgood hends (unixMillis created)) h.1 h.2).weaken hleft))
    fun _ lease t _ h => ?_
  refine leads_andThen stable_left (critical_refresh ⟨h.1, h.2⟩) fun _ lease t _ h => ?_
  refine leads_andThen stable_left (leads_keeping stable_left (fun _ => stable_ready)
    ((acts_reading stable_ready Discipline.acts_checkCancelled h).weaken fun _ => Ready.left))
    fun _ lease t _ h => ?_
  have hdone : ∀ {e : CacheEnvelope}, x.protocol.Stable fun t => Holds x.process ns key t ∧
      Stands x ns key (placedEntry ns key e (Reader.content reader)) t :=
    fun s t h ht hi => ⟨stable_holds s t h.1 ht hi, stable_stands s t h.2 ht hi⟩
  exact leads_andThen stable_left (leads_keeping stable_left (fun _ => hdone)
    (critical_publishStaging (complete_described hsha hadmits) h)) fun _ lease t _ h =>
      leads_pure hdone h

/-- What a call leaves behind. The entry that it returns is the one that stands, if its key is
pinned, and of an entry that it published it is the publisher. -/
def Leaves (x : Contender) (ns : CacheNamespace) (key : CacheKey) : CachePublication → Files → Prop
  | .published entry, t => Stands x ns key entry t
  | .reused entry, t => ∀ compatibility, x.pins ns key = some compatibility →
    Stood x ns key compatibility entry t

theorem stable_leaves {publication : CachePublication} :
    x.protocol.Stable (Leaves x ns key publication) := by
  intro s t h ht hi
  cases publication with
  | published entry => exact stable_stands s t h ht hi
  | reused entry => exact fun compatibility hpin => stable_stood hpin s t (h _ hpin) ht hi

theorem Leaves.kept {publication : CachePublication} (h : Leaves x ns key publication fs)
    (hkeep : Respects x.pins x.process fs t) : Leaves x ns key publication t := by
  cases publication with
  | published entry => exact Stands.kept h (hkeep.pinned ns key)
  | reused entry =>
    intro compatibility hpin
    obtain ⟨i, hi⟩ := h compatibility hpin
    exact ⟨i, hi.same (hkeep.pinned ns key (hi.pinned hpin).1 (hi.pinned hpin).2)⟩

theorem critical_openPublishedEntry {e : CacheEnvelope} {bytes : List UInt8}
    (h : Holds x.process ns key fs) (hstands : Stands x ns key (placedEntry ns key e bytes) fs) :
    x.protocol.Acts (openPublishedEntry ns key e)
      (fun entry t => Holds x.process ns key t ∧ Stands x ns key entry t)
      (Holds x.process ns key) fs := by
  have hA : x.protocol.Stable fun t => Holds x.process ns key t ∧
      Stands x ns key (placedEntry ns key e bytes) t :=
    fun s t h ht hi => ⟨stable_holds s t h.1 ht hi, stable_stands s t h.2 ht hi⟩
  have hopened : ∀ payload, x.protocol.Stable fun t => Holds x.process ns key t ∧
      Stands x ns key (placedEntry ns key e payload) t :=
    fun payload s t h ht hi => ⟨stable_holds s t h.1 ht hi, stable_stands s t h.2 ht hi⟩
  refine acts_bind stable_holds (acts_attempt (A := fun payload t => Holds x.process ns key t ∧
    Stands x ns key (placedEntry ns key e payload) t) stable_holds hopened
    (does_reading trivial hA ⟨h, hstands⟩ (stable_tried stable_holds hopened)
      fun env t _ ht _ => ?_)) fun payload t _ ht => ?_
  · cases hr : (FileOp.eval (.openPayload (entryPath ns key)) env t).1 with
    | error _ => exact ht.1
    | ok payload =>
      refine ⟨ht.1, fun compatibility hpin => ?_⟩
      obtain ⟨i, hi, hc⟩ := ht.2 compatibility hpin
      obtain ⟨i', hn, hp⟩ := openPayload_ok hr
      obtain rfl := Option.some.inj (hn.symm.trans hi.named)
      obtain ⟨e', hcomplete, hinfo⟩ := hi.complete
      obtain rfl := Option.some.inj (hcomplete.payload.symm.trans hp)
      exact ⟨i', ⟨hn, e', hcomplete, hinfo⟩, hc⟩
  · split
    · exact acts_bind stable_holds (acts_throw stable_holds ht.1) fun _ _ _ h => absurd h id
    · exact acts_pure (hopened payload) ht

/-- What the lookup under the lease of a key tells. -/
def Looked (x : Contender) (ns : CacheNamespace) (key : CacheKey) (found : CacheLookup)
    (fs : Files) : Prop :=
  Holds x.process ns key fs ∧ match found with
    | .hit entry => Leaves x ns key (.reused entry) fs
    | .miss _ => Leased x ns key fs

theorem stable_looked {found : CacheLookup} : x.protocol.Stable (Looked x ns key found) := by
  intro s t h ht hi
  refine ⟨stable_holds s t h.1 ht hi, ?_⟩
  cases found with
  | hit entry =>
    exact (stable_leaves : x.protocol.Stable (Leaves x ns key (.reused entry))) s t h.2 ht hi
  | miss reason => exact stable_leased s t h.2 ht hi

/-- The lookup under the lease misses a pinned key only if it has no entry. -/
theorem critical_lookup (hadmits : Admits x ns key compatibility) (hsha : c.sha256 = x.sha256)
    (h : Holds x.process ns key fs) :
    x.protocol.Acts (lookup c ns key compatibility .full) (Looked x ns key)
      (Holds x.process ns key) fs := by
  refine guards_of_now fun t ht hi => ?_
  have hnow := stable_holds fs t h ht hi
  have hleased : (x.pins ns key ≠ none → t.names.get? (entryPath ns key) = none) →
      x.protocol.Acts (lookup c ns key compatibility .full) (Looked x ns key)
        (Holds x.process ns key) t := by
    intro hvacant
    have hreads : x.protocol.Acts (lookup c ns key compatibility .full)
        (fun _ => Leased x ns key) (Leased x ns key) t :=
      acts_reading stable_leased Discipline.acts_lookup ⟨hnow, hvacant⟩
    have hhits : x.protocol.Acts (lookup c ns key compatibility .full)
        (fun found u => ∀ compatibility', x.pins ns key = some compatibility' →
          HitsStood x ns key compatibility' found u) (fun _ => True) t := by
      cases hpin : x.pins ns key with
      | none => exact Guards.mono hreads fun r _ _ _ => by cases r <;> [trivial; exact nofun]
      | some compatibility' =>
        obtain rfl := hadmits compatibility' hpin
        refine Guards.mono (pinned_lookup hpin) fun r u _ hr => ?_
        cases r with
        | error e => trivial
        | ok found =>
          rintro _ ⟨⟩
          exact hr
    refine Guards.mono (hreads.and hhits) fun r u _ hr => ?_
    match r with
    | .error e => exact hr.1.holds
    | .ok (.miss _) => exact ⟨hr.1.holds, hr.1⟩
    | .ok (.hit entry) => exact ⟨hr.1.holds, fun compatibility' hpin => hr.2 _ hpin entry rfl⟩
  cases hpin : x.pins ns key with
  | none => exact hleased fun hne => absurd hpin hne
  | some compatibility' =>
    cases hn : t.names.get? (entryPath ns key) with
    | none => exact hleased fun _ => hn
    | some i =>
      obtain rfl := hadmits compatibility' hpin
      obtain ⟨_, e, bytes, hcomplete⟩ := hi.2 ns key _ hpin _ i serves_entryPath hn
      have hstanding : Standing x ns key compatibility' (placedEntry ns key e bytes) i t :=
        ⟨hn, e, hcomplete, rfl⟩
      have hreads : x.protocol.Acts (lookup c ns key compatibility' .full)
          (fun _ => Holds x.process ns key) (Holds x.process ns key) t :=
        acts_reading stable_holds Discipline.acts_lookup hnow
      refine Guards.mono (hreads.and (present_lookup hpin hsha hstanding)) fun r u _ hr => ?_
      cases r with
      | error e => exact hr.1
      | ok found =>
        obtain ⟨hholds, rfl, hfound⟩ := hr
        refine ⟨hholds, fun compatibility'' hpin' => ?_⟩
        obtain rfl := Option.some.inj (hpin.symm.trans hpin')
        exact ⟨i, hfound⟩

theorem critical_publishLeased (hgood : Reader.Ends reader → ∀ created,
      x.Good (envelopeOf c ns key compatibility (Reader.content reader) created)
        (Reader.content reader)) (hsha : c.sha256 = x.sha256)
    (hadmits : Admits x ns key compatibility) (h : Holds x.process ns key fs) :
    x.protocol.Leads (publishLeased c ns key compatibility reader lease)
      (fun r t => Holds x.process ns key t ∧ Leaves x ns key r t) (Holds x.process ns key) fs := by
  have hdone : ∀ {r : CachePublication}, x.protocol.Stable fun t =>
      Holds x.process ns key t ∧ Leaves x ns key r t :=
    fun s t h ht hi => ⟨stable_holds s t h.1 ht hi, stable_leaves s t h.2 ht hi⟩
  refine leads_andThen stable_holds (leads_keeping stable_holds (fun _ => stable_looked)
    (critical_lookup hadmits hsha h)) fun found lease t _ hlooked => ?_
  cases found with
  | hit entry => exact leads_pure hdone hlooked
  | miss reason =>
    have hcreated : ∀ path, x.protocol.Stable fun t => Leased x ns key t ∧
        ∃ inode, Own x.process path inode (Directory.Payloaded none) t := by
      rintro path s t ⟨h, i, hi⟩ ht hinv
      exact ⟨stable_leased s t h ht hinv, i, stable_own s t hi ht hinv⟩
    refine leads_andThen stable_holds (leads_keeping stable_holds hcreated
      ((critical_createStaging hlooked.2).weaken fun _ => Leased.holds)) fun path lease t _ ht => ?_
    obtain ⟨hleased, i, hown⟩ := ht
    refine does_bind (critical_stage hgood hsha hadmits hleased hown) fun r t _ hr => ?_
    match r with
    | (.error e, lease) =>
      exact does_bind (does_removeStaging hr) fun _ t _ ht => leads_error stable_holds ht
    | (.ok envelope, lease) =>
      exact leads_andThen stable_holds (leads_keeping stable_holds (fun entry => hdone
        (r := .published entry)) (critical_openPublishedEntry hr.1 hr.2))
        fun entry lease t _ ht => leads_pure (hdone (r := .published entry)) ht

/-! ## Calls -/

theorem does_createShard {shard : UInt8} :
    x.protocol.Does (step (.createShard ns shard)) (fun _ _ => True) fs := by
  refine does_exclusive (fun t _ hi env _ _ => ?_) fun _ => stable_always
  have hsame : (FileOp.eval (.createShard ns shard) env t).2.names = t.names ∧
      (FileOp.eval (.createShard ns shard) env t).2.dirs = t.dirs ∧
      (FileOp.eval (.createShard ns shard) env t).2.next = t.next := by
    rcases eval_cases (.createShard ns shard) env t with hsame | heffect
    · rw [hsame]
      exact ⟨rfl, rfl, rfl⟩
    · rw [heffect, FileOp.effect]
      dsimp only
      split <;> exact ⟨rfl, rfl, rfl⟩
  obtain ⟨hnames, hdirs, hnext⟩ := hsame
  refine ⟨?_, respects_same hnames hdirs (Nat.le_of_eq hnext.symm), trivial⟩
  intro ns' key compatibility hpin path i hpath hn
  rw [hnames] at hn
  rw [hdirs]
  exact hi.2 ns' key compatibility hpin path i hpath hn

/-- **A publication keeps to the leases**, and of a pinned key it returns the entry that
stands. -/
theorem exclusive_publishReader (hgood : Reader.Ends reader → ∀ created,
      x.Good (envelopeOf c ns key compatibility (Reader.content reader) created)
        (Reader.content reader)) (hsha : c.sha256 = x.sha256)
    (hadmits : Admits x ns key compatibility) :
    x.protocol.Acts (publishReader c ns key compatibility reader) (Leaves x ns key)
      (fun _ => True) fs := by
  have hlookup : x.protocol.Acts (lookup c ns key compatibility .full) (fun found t =>
      ∀ entry, found = .hit entry → Leaves x ns key (.reused entry) t) (fun _ => True) fs := by
    cases hpin : x.pins ns key with
    | none =>
      refine Guards.mono (acts_reading stable_always Discipline.acts_lookup trivial)
        fun r t _ _ => ?_
      cases r with
      | error e => trivial
      | ok found =>
        intro entry _ compatibility' hpin'
        rw [hpin] at hpin'
        cases hpin'
    | some compatibility' =>
      obtain rfl := hadmits compatibility' hpin
      refine Guards.mono (pinned_lookup hpin) fun r t _ hr => ?_
      cases r with
      | error e => trivial
      | ok found =>
        intro entry he compatibility'' hpin'
        obtain rfl := Option.some.inj (hpin.symm.trans hpin')
        exact hr entry he
  refine acts_bind stable_always hlookup fun found t _ hfound => ?_
  cases found with
  | hit entry => exact acts_pure stable_leaves (hfound entry rfl)
  | miss reason =>
    refine acts_bind stable_always (acts_attempt stable_always (fun _ => stable_always)
      (Guards.mono does_createShard fun r _ _ _ => by cases r <;> trivial)) fun _ t _ _ =>
      exclusive_withLease (fun _ => stable_leaves) (fun _ s t h => h.kept) fun lease t ht => ?_
    refine Guards.mono (critical_publishLeased hgood hsha hadmits ht.1).returns
      fun r u _ hr => ?_
    have hlease := leaseOf_publishLeased ht.2 r hr.2
    obtain ⟨result, lease'⟩ := r
    cases result with
    | error e => exact ⟨⟨hr.1, hlease⟩, nofun⟩
    | ok publication =>
      refine ⟨⟨hr.1.1, hlease⟩, ?_⟩
      rintro _ ⟨⟩
      exact hr.1.2

/-- The entry of a key that is not pinned is hidden. -/
theorem does_hide {token : Token} (hnone : x.pins ns key = none) (h : Holds x.process ns key fs) :
    x.protocol.Does (step (.rename (entryPath ns key) ⟨ns, .evicted key token⟩))
      (fun _ => Holds x.process ns key) fs := by
  refine does_exclusive (fun t ht hi env _ _ => ?_) fun _ => stable_holds
  have hnow := stable_holds fs t h ht hi
  have hevicted : Serves ns key ⟨ns, .evicted key token⟩ := ⟨rfl, rfl, rfl⟩
  rcases eval_cases (.rename (entryPath ns key) ⟨ns, .evicted key token⟩) env t with hsame | heffect
  · rw [hsame]
    exact ⟨hi.2, .refl, hnow⟩
  · rw [heffect, FileOp.effect]
    have hmoved : Respects x.pins x.process t
        (t.rename (entryPath ns key) ⟨ns, .evicted key token⟩).2 ∧ (t.Pinned x.pins x.sha256 →
          (t.rename (entryPath ns key) ⟨ns, .evicted key token⟩).2.Pinned x.pins x.sha256) :=
      respects_rename (takes_entry serves_entryPath hnow hnone) (gives_entry hevicted hnow hnone)
    exact ⟨hmoved.2 hi.2, hmoved.1, hnow.rename serves_entryPath.lease_ne hevicted.lease_ne⟩

theorem critical_evictLeased {reason : EvictionReason} (hnone : x.pins ns key = none)
    (h : Holds x.process ns key fs) :
    x.protocol.Acts (evictLeased ns key reason) (fun _ => Holds x.process ns key)
      (Holds x.process ns key) fs := by
  refine acts_bind stable_holds (acts_reading stable_holds Discipline.acts_checkCancelled h)
    fun _ t _ h => acts_seq (does_reading (o := .size (entryPath ns key)) trivial stable_holds h
      (fun _ => stable_holds) fun _ _ _ ht _ => ht) fun r t _ h => ?_
  match r with
  | .error .notFound => exact acts_pure stable_holds h
  | .error .alreadyExists | .error .notEmpty | .error .other => exact acts_throw stable_holds h
  | .ok bytes =>
    refine acts_bind stable_holds (acts_reading stable_holds Discipline.acts_visitEntries h)
      fun _ t _ h => acts_seq (does_reading (o := .token) trivial stable_holds h
        (fun _ => stable_holds) fun _ _ _ ht _ => ht) fun token t _ h =>
          acts_seq (does_hide hnone h) fun r t _ h => ?_
    match r with
    | .error .notFound => exact acts_pure stable_holds h
    | .error .alreadyExists | .error .notEmpty | .error .other => exact acts_throw stable_holds h
    | .ok () =>
      refine acts_bind stable_holds (acts_attempt stable_holds (fun _ => stable_holds)
        (Guards.mono (does_removeServed ⟨rfl, rfl, rfl⟩ hnone h) fun r _ _ h => ?_))
        fun _ t _ h => acts_pure stable_holds h
      cases r <;> exact h

/-- **An eviction keeps to the leases.** -/
theorem exclusive_evict {reason : EvictionReason} (hnone : x.pins ns key = none) :
    x.protocol.Acts (evict c ns key reason) (fun _ _ => True) (fun _ => True) fs := by
  refine acts_bind stable_always (acts_attempt stable_always (fun _ => stable_always)
    (Guards.mono does_createShard fun r _ _ _ => by cases r <;> trivial)) fun _ t _ _ =>
    exclusive_withLease (fun _ => stable_always) (fun _ _ _ _ _ => trivial) fun lease t ht => ?_
  have hevicts : x.protocol.Does (keeping lease (evictLeased ns key reason))
      (fun _ => Holds x.process ns key) t := by
    refine does_bind (Guards.mono (critical_evictLeased hnone ht.1) fun r u _ h => ?_)
      fun r u _ h => does_pure stable_holds h
    cases r <;> exact h
  refine Guards.mono hevicts.returns fun r u _ hr => ⟨⟨hr.1, leaseOf_keeping ht.2 r hr.2⟩, ?_⟩
  exact fun _ _ => trivial

theorem exclusive_reads {α : Type} {action : Action α}
    (ha : (observingDiscipline (x := x) stable_always).acts action) :
    x.protocol.Yields action fun _ => True := fun _ => acts_keeps stable_always ha trivial

theorem exclusive_evictCandidates {maximumBytes : Nat} {reason : EvictionReason}
    (hnone : ∀ ns key, x.pins ns key = none) : ∀ {candidates : List CacheCandidate}
    {estimated : Nat}, x.protocol.Yields
      (evictCandidates c maximumBytes reason candidates estimated) fun _ => True
  | [], _ => yields_pure trivial
  | candidate :: rest, estimated => by
    unfold evictCandidates
    split
    · exact yields_pure trivial
    · refine yields_bind (exclusive_reads Discipline.acts_checkCancelled) fun _ _ =>
        yields_bind (fun _ => exclusive_evict (hnone _ _)) fun record _ => ?_
      cases record with
      | none => exact exclusive_evictCandidates hnone
      | some record =>
        exact yields_bind (exclusive_evictCandidates hnone) fun _ _ => yields_pure trivial

theorem exclusive_evictTo {maximumBytes : Nat} {reason : EvictionReason}
    (hnone : ∀ ns key, x.pins ns key = none) :
    x.protocol.Yields (evictTo c maximumBytes reason) fun _ => True := by
  have hsize : x.protocol.Yields versionSize fun _ => True :=
    exclusive_reads (Discipline.acts_bind Discipline.acts_checkCancelled fun _ =>
      Discipline.acts_bind Discipline.acts_visitEntries fun _ =>
        Discipline.acts_attempt ((observingDiscipline stable_always).step trivial))
  exact yields_bind hsize fun _ _ => yields_bind (exclusive_reads Discipline.acts_checkCancelled)
    fun _ _ => yields_bind (exclusive_reads Discipline.acts_scanCandidates) fun _ _ =>
      yields_bind (exclusive_evictCandidates hnone) fun _ _ => yields_bind hsize fun _ _ =>
        yields_pure trivial

end ModelWeights.Cache
