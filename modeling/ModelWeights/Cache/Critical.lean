import ModelWeights.Cache.Leasing

/-! # Under a lease

What a publication does while its process holds the lease of its key. It writes into its
own staging directory, and moves it to the entry of the key. -/
namespace ModelWeights.Cache
open Program Interference

variable {x : Contender} {ns : CacheNamespace} {key : CacheKey} {c : CacheService} {fs t : Files}
  {path : Path} {inode : Nat} {compatibility : CacheCompatibility} {reader : Reader}
  {e : CacheEnvelope} {bytes : List UInt8} {entry : CacheEntry}

/-! ## The staging directory -/

theorem stable_own {P : Directory → Prop} : x.protocol.Stable (Own x.process path inode P) :=
  fun _ _ h ht _ => own_kept.later h ht.1

/-- A process with a lease and a staging directory of its own. -/
structure Working (x : Contender) (ns : CacheNamespace) (key : CacheKey) (path : Path)
    (inode : Nat) (fs : Files) : Prop where
  leased : Leased x ns key fs
  owned : Owned x.process path inode fs

theorem stable_working : x.protocol.Stable (Working x ns key path inode) :=
  fun s t h ht hi => ⟨stable_leased s t h.leased ht hi, stable_own s t h.owned ht hi⟩

theorem Working.gentle (h : Working x ns key path inode fs) (hg : Gentle fs t) :
    Working x ns key path inode t := ⟨h.leased.gentle hg, hg.owned h.owned⟩

theorem Owned.writable (h : Owned x.process path inode fs) (hi : x.protocol.inv fs) :
    Writable x.pins x.process inode fs := by
  refine hi.1.valid.writable h.named ?_
  rw [h.staging]
  decide

/-- Steps on the open files of a directory, heartbeats and steps that only read. -/
def FileOp.Handles (inode : Nat) : FileOp → Prop
  | .refreshHeartbeat path => ∃ ns key, path = leasePath ns key
  | .appendPayload i _ | .writeMetadata i _ _ => i = inode
  | o => o.Reading

theorem FileOp.Handles.tame {o : FileOp} (ho : o.Handles inode) (hi : x.protocol.inv fs)
    (hw : Writable x.pins x.process inode fs) : Tame x o fs := by
  have hsame : o.Reading → Tame x o fs := fun hr env => .inl (hr.eval env fs)
  cases o with
  | refreshHeartbeat path =>
    obtain ⟨ns, key, rfl⟩ := ho
    exact tame_refreshHeartbeat hi
  | appendPayload i bytes =>
    obtain rfl := ho
    intro env
    refine (eval_cases _ env fs).imp_right fun h => ⟨i, { Files.touch env.now (fs.dirs i) with
      payload := (fs.dirs i).payload.map (· ++ bytes) }, ?_, hw, rfl⟩
    rw [h, FileOp.effect]
  | writeMetadata i envelope length =>
    obtain rfl := ho
    intro env
    refine (eval_cases _ env fs).imp_right fun h => ⟨i, { Files.touch env.now (fs.dirs i) with
      metadata := (fs.dirs i).metadata.map fun _ => .envelope envelope length }, ?_, hw, rfl⟩
    rw [h, FileOp.effect]
  | createShard | createDir | rename | writeOwner | writeHeartbeat | createPayload |
    createMetadata | unlink | removeDir => exact absurd ho id
  | cancelled | exhausted | now | token | readShards | readShard | modified | modifiedOld |
    newestOld | heartbeatOld | size | totalSize | readOwner | readMetadata | openPayload |
    readOpen | openDir | sync => exact hsame trivial

/-- A task of such steps. -/
theorem does_handles {α : Type} {task : Task α} (ho : task.Only (FileOp.Handles inode))
    (h : Working x ns key path inode fs) :
    x.protocol.Does task (fun _ => Working x ns key path inode) fs := by
  refine Only.guards (fun o env s ho henv hi hs => ?_) stable_working ho h
  obtain ⟨hinv, hg, hgentle⟩ := (ho.tame hi (hs.owned.writable hi)).step hi henv
  exact ⟨hinv, hg, hs.gentle hgentle⟩

/-- Such a task, whose failure ends the call. -/
theorem acts_handles {message : String} {task : Task (IoResult Unit)}
    (ho : task.Only (FileOp.Handles inode)) (h : Working x ns key path inode fs) :
    x.protocol.Acts (attempt message task) (fun _ => Working x ns key path inode)
      (Working x ns key path inode) fs := by
  refine acts_attempt stable_working (fun _ => stable_working)
    (Guards.mono (does_handles ho h) fun r t _ ht => ?_)
  cases r <;> exact ht

section Only

theorem only_check : checkCancelled.run.Only (FileOp.Handles inode) :=
  ⟨trivial, fun b => by cases b <;> trivial⟩

theorem only_keeping {α : Type} {P : FileOp → Prop} {action : Action α} {lease : WriterLease}
    (h : action.run.Only P) : (keeping lease action).Only P := only_bind h fun _ => trivial

theorem only_andThen {α β : Type} {P : FileOp → Prop} {task : Task (Result α × WriterLease)}
    {f : α → WriterLease → Task (Result β × WriterLease)} (h : task.Only P)
    (hf : ∀ a lease, (f a lease).Only P) : (andThen task f).Only P := by
  refine only_bind h fun r => ?_
  match r with
  | (.ok a, lease) => exact hf a lease
  | (.error _, _) => trivial

theorem only_attempt {α : Type} {P : FileOp → Prop} {message : String} {task : Task (IoResult α)}
    (h : task.Only P) : (attempt message task).run.Only P := by
  refine only_bind (only_bind h fun _ => trivial) fun r => ?_
  match r with
  | .ok (.ok _) => trivial
  | .ok (.error _) => trivial
  | .error _ => trivial

theorem only_refresh {lease : WriterLease} : lease.refresh.Only (FileOp.Handles inode) := by
  refine only_bind ⟨trivial, fun _ => trivial⟩ fun r => ?_
  match r with
  | .error _ => trivial
  | .ok owner =>
    dsimp only
    split
    · trivial
    · refine only_bind ⟨⟨_, _, rfl⟩, fun _ => trivial⟩ fun r => ?_
      match r with
      | .error _ => trivial
      | .ok () => trivial

theorem only_writeChunks {written : List UInt8} {total : Nat} {lease : WriterLease} :
    (writeChunks inode written total reader lease).Only (FileOp.Handles inode) := by
  induction reader generalizing written total lease with
  | nil =>
    unfold writeChunks
    exact only_andThen (only_keeping only_check) fun _ lease =>
      only_andThen only_refresh fun _ lease => trivial
  | cons read rest ih =>
    unfold writeChunks
    refine only_andThen (only_keeping only_check) fun _ lease =>
      only_andThen only_refresh fun _ lease => ?_
    cases read with
    | error e => trivial
    | ok chunk =>
      cases chunk with
      | nil => trivial
      | cons b chunk =>
        refine only_andThen (only_keeping (only_attempt ⟨rfl, fun _ => trivial⟩))
          fun _ lease => ?_
        split
        · trivial
        · exact ih

/-- The part of `write_payload` after the payload was created. -/
theorem only_copy {lease : WriterLease} :
    (andThen (writeChunks inode [] 0 reader lease) fun (total, written) lease =>
      andThen (keeping lease (attempt "failed to synchronize a staged cache payload"
        (step .sync))) fun _ lease =>
          (pure (.ok (total, c.sha256 written), lease) :
            Task (Result (Nat × ContentDigest) × WriterLease))).Only (FileOp.Handles inode) :=
  only_andThen only_writeChunks fun _ _ =>
    only_andThen (only_keeping (only_attempt ⟨trivial, fun _ => trivial⟩)) fun _ _ => trivial

end Only

theorem change_ok {α : Type} {f : Nat → Directory → IoResult (α × Directory)} {a : α}
    (h : (fs.change path f).1 = .ok a) :
    ∃ i d, fs.names.get? path = some i ∧ f i (fs.dirs i) = .ok (a, d) := by
  rcases fs.change_cases path f with ⟨e, he⟩ | ⟨i, b, d, hn, hd, he⟩
  · rw [he] at h
    cases h
  · rw [he] at h
    obtain rfl := Except.ok.inj h
    exact ⟨i, d, hn, hd⟩

/-- A file of the own staging directory was created, or not. -/
abbrev Opens (x : Contender) (ns : CacheNamespace) (key : CacheKey) (path : Path) (inode : Nat) :
    IoResult Nat → Files → Prop :=
  Tried (fun i t => i = inode ∧ Working x ns key path inode t) (Working x ns key path inode)

theorem stable_opens : ∀ r, x.protocol.Stable (Opens x ns key path inode r) :=
  stable_tried stable_working fun _ s t h ht hi => ⟨h.1, stable_working s t h.2 ht hi⟩

theorem Working.opens {r : IoResult Nat} (h : Working x ns key path inode fs)
    (hr : ∀ i, r = .ok i → fs.names.get? path = some i) (hg : Gentle fs t) :
    Opens x ns key path inode r t := by
  cases r with
  | error e => exact h.gentle hg
  | ok i => exact ⟨Option.some.inj ((hr i rfl).symm.trans h.owned.named), h.gentle hg⟩

theorem Working.kind (h : Working x ns key path inode fs) : path.name.kind ≠ .entry := by
  rw [h.owned.staging]
  decide

/-- A step that adds a file to the own staging directory and opens it, unless the file is
there. -/
theorem does_creates {o : FileOp} (answer : o.Resp → IoResult Nat) {r : o.Resp}
    {taken : Directory → Bool} {add : Env → Directory → Directory}
    (h : Working x ns key path inode fs) (hfailure : o.failure = some r)
    (hr : answer r = .error .other)
    (heffect : ∀ env t, (answer (o.effect env t).1, (o.effect env t).2) =
      t.change path fun i d => if taken d then .error .alreadyExists else .ok (i, add env d))
    (hadd : ∀ env d, (add env d).creator = d.creator) :
    x.protocol.Does (step o) (fun r => Opens x ns key path inode (answer r)) fs := by
  refine does_tame (fun t ht hi => tame_change hi h.kind (fun env => (eval_cases _ env t).imp_right
      fun h => by rw [h, ← heffect]) fun env i a d d' hd => ?_)
    (fun t env ht hi hg => (stable_working fs t h ht hi).opens (fun i hok => ?_) hg)
    fun r => stable_opens (answer r)
  · split at hd
    · cases hd
    · obtain ⟨_, rfl⟩ := Prod.mk.inj (Except.ok.inj hd)
      exact hadd env d
  · cases hfault : env.fault with
    | true =>
      rw [FileOp.eval, hfault, hfailure] at hok
      cases hr.symm.trans hok
    | false =>
      rw [FileOp.eval_quiet hfault] at hok
      obtain ⟨i', d, hn, hd⟩ := change_ok ((congrArg Prod.fst (heffect env t)).symm.trans hok)
      split at hd
      · cases hd
      · rw [hn, (Prod.mk.inj (Except.ok.inj hd)).1]

theorem does_createPayload (h : Working x ns key path inode fs) :
    x.protocol.Does (step (.createPayload path)) (Opens x ns key path inode) fs :=
  @does_creates _ _ _ _ _ _ (.createPayload path) id (.error .other) (fun d => d.payload.isSome)
    (fun env d => { Files.stamp env.now d with payload := some [] }) h rfl rfl (fun _ _ => rfl)
    fun _ _ => rfl

theorem does_createMetadata (h : Working x ns key path inode fs) :
    x.protocol.Does (step (.createMetadata path)) (Opens x ns key path inode) fs :=
  @does_creates _ _ _ _ _ _ (.createMetadata path) id (.error .other) (fun d => d.metadata.isSome)
    (fun env d => { Files.stamp env.now d with metadata := some .incomplete }) h rfl rfl
    (fun _ _ => rfl) fun _ _ => rfl

theorem critical_writePayload {lease : WriterLease} (h : Leased x ns key fs)
    (hown : Own x.process path inode (Directory.Payloaded none) fs) :
    x.protocol.Leads (writePayload c path reader lease)
      (fun r t => (Reader.Ends reader ∧
          r = ((Reader.content reader).length, c.sha256 (Reader.content reader))) ∧
        Leased x ns key t ∧
        Own x.process path inode (Directory.Payloaded (some (Reader.content reader))) t)
      (Working x ns key path inode) fs := by
  have hwork : x.protocol.Leads (writePayload c path reader lease)
      (fun _ => Working x ns key path inode) (Working x ns key path inode) fs := by
    refine leads_andThen stable_working (leads_keeping stable_working (fun _ => stable_opens (.ok _))
      (acts_attempt stable_working (fun _ => stable_opens (.ok _))
        (does_createPayload ⟨h, hown.owned⟩))) fun i lease t _ ht => ?_
    obtain ⟨rfl, ht⟩ := ht
    refine Guards.mono (does_handles only_copy ht) fun r t _ ht => ?_
    rcases r with ⟨_ | _, _⟩ <;> exact ht
  refine Guards.mono (hwork.also (leads_writePayload x.apart hown)) fun r t _ hr => ?_
  rcases r with ⟨e | a, lease⟩
  · exact hr.2
  · exact ⟨hr.1.1, hr.2.leased, hr.1.2⟩

theorem critical_writeEnvelope (hgood : x.Good e bytes) (h : Leased x ns key fs)
    (hown : Own x.process path inode (Directory.Payloaded (some bytes)) fs) :
    x.protocol.Acts (writeEnvelope c path e)
      (fun _ t => Leased x ns key t ∧ Own x.process path inode (Directory.Described e bytes) t)
      (Working x ns key path inode) fs := by
  have hwork : x.protocol.Acts (writeEnvelope c path e) (fun _ => Working x ns key path inode)
      (Working x ns key path inode) fs := by
    unfold writeEnvelope
    split
    · exact acts_bind stable_working (acts_throw stable_working ⟨h, hown.owned⟩)
        fun _ _ _ h => absurd h id
    · refine acts_bind stable_working (acts_attempt stable_working (fun _ => stable_opens (.ok _))
        (does_createMetadata ⟨h, hown.owned⟩)) fun i t _ ht => ?_
      obtain ⟨rfl, ht⟩ := ht
      exact acts_bind stable_working (acts_handles
        ⟨rfl, fun _ => trivial⟩ ht) fun _ t _ ht =>
          acts_handles ⟨trivial, fun _ => trivial⟩ ht
  refine Guards.mono (hwork.also (acts_writeEnvelope x.apart hgood hown)) fun r t _ hr => ?_
  cases r with
  | error e => exact hr.2
  | ok u => exact ⟨hr.2.leased, hr.1⟩

/-! ## Names -/

theorem Files.createDir_get? {process now : Nat} {q : Path} (hq : q ≠ path) :
    (fs.createDir process now path).2.names.get? q = fs.names.get? q := by
  rw [Files.createDir]
  split
  · rfl
  · split
    · rfl
    · exact (OrderedMap.get?_insert ..).trans (if_neg hq)

theorem Files.Valid.createDir_dirs (h : fs.Valid) {process now i : Nat} {q : Path}
    (hn : fs.names.get? q = some i) : (fs.createDir process now path).2.dirs i = fs.dirs i := by
  rw [Files.createDir]
  split
  · rfl
  · split
    · rfl
    · exact if_neg (Nat.ne_of_lt (h.fresh q i hn))

theorem Files.rename_destination {source destination : Path}
    (h : (fs.rename source destination).1 = .ok ()) (hs : fs.names.get? source = some inode) :
    (fs.rename source destination).2.names.get? destination = some inode := by
  have hmoved : ((fs.names.erase source).insert destination inode).get? destination = some inode :=
    (OrderedMap.get?_insert ..).trans (if_pos rfl)
  rw [Files.rename, hs] at h ⊢
  cases hd : fs.names.get? destination with
  | none =>
    rw [hd] at h
    dsimp only at h ⊢
    split at h
    · cases h
    · next hshard => rwa [if_neg hshard]
  | some other =>
    rw [hd] at h
    dsimp only at h ⊢
    split at h
    · next he =>
      rw [if_pos he]
      show fs.names.get? destination = some inode
      rw [hd, he]
    · next hne =>
      rw [if_neg hne]
      split at h
      · cases h
      · next hempty => rwa [if_neg hempty]

theorem Files.removeDir_get? {q : Path} (hq : q ≠ path) :
    (fs.removeDir path).2.names.get? q = fs.names.get? q := by
  rw [Files.removeDir]
  split
  · rfl
  · split
    · rfl
    · exact (OrderedMap.get?_erase ..).trans (if_neg hq)

theorem Files.removeDir_dirs : (fs.removeDir path).2.dirs = fs.dirs := by
  rw [Files.removeDir]
  split
  · rfl
  · split <;> rfl

section Names
variable {process : Nat}

theorem Holds.rename {source destination : Path} (h : Holds process ns key fs)
    (hs : leasePath ns key ≠ source) (hd : leasePath ns key ≠ destination) :
    Holds process ns key (fs.rename source destination).2 := by
  obtain ⟨i, hn, hc⟩ := h
  exact ⟨i, by rw [Files.rename_get? hs hd, hn], by rw [Files.rename_dirs, hc]⟩

theorem Holds.removeDir (h : Holds process ns key fs) (hpath : leasePath ns key ≠ path) :
    Holds process ns key (fs.removeDir path).2 := by
  obtain ⟨i, hn, hc⟩ := h
  exact ⟨i, by rw [Files.removeDir_get? hpath, hn], by rw [Files.removeDir_dirs, hc]⟩

theorem leasePath_ne {q : Path} (hk : q.name.kind ≠ .lease) : leasePath ns key ≠ q := by
  rintro rfl
  exact hk rfl

theorem Leased.createDir (h : Leased x ns key fs) (hvalid : fs.Valid) {now : Nat}
    (hk : path.name.kind = .staging) : Leased x ns key (fs.createDir process now path).2 := by
  obtain ⟨⟨i, hn, hc⟩, hvacant⟩ := h
  have hlease : leasePath ns key ≠ path := leasePath_ne (by rw [hk]; decide)
  have hentry : entryPath ns key ≠ path := by
    rintro rfl
    cases hk
  refine ⟨⟨i, by rw [Files.createDir_get? hlease, hn], by rw [hvalid.createDir_dirs hn, hc]⟩,
    fun hp => ?_⟩
  rw [Files.createDir_get? hentry]
  exact hvacant hp

end Names

theorem does_createStaging {token : Token} (h : Leased x ns key fs) :
    x.protocol.Does (step (.createDir ⟨ns, .staging key token⟩)) (fun _ => Leased x ns key) fs := by
  refine does_exclusive (fun t ht hi env _ _ => ?_) fun _ => stable_leased
  have hnow := stable_leased fs t h ht hi
  rcases eval_cases (.createDir ⟨ns, .staging key token⟩) env t with hsame | heffect
  · rw [hsame]
    exact ⟨hi.2, .refl, hnow⟩
  · rw [heffect, FileOp.effect]
    have hkind : (⟨ns, .staging key token⟩ : Path).name.kind ≠ .entry := by
      simp [Name.kind]
    obtain ⟨hrespects, hpinned⟩ := respects_createDir hi.1.valid hkind env.process env.now
    exact ⟨hpinned hi.2, hrespects, hnow.createDir hi.1.valid rfl⟩

theorem exclusive_createStaging {attempts : Nat} (h : Leased x ns key fs) :
    x.protocol.Acts (createStaging ns key attempts) (fun _ => Leased x ns key) (Leased x ns key)
      fs := by
  induction attempts generalizing fs with
  | zero => exact acts_throw stable_leased h
  | succ attempts ih =>
    refine acts_seq (does_reading (o := .token) trivial stable_leased h (fun _ => stable_leased)
      fun _ _ _ ht _ => ht) fun token t _ ht => acts_seq (does_createStaging ht) fun r t _ ht => ?_
    cases r with
    | ok u => exact acts_pure stable_leased ht
    | error e =>
      cases e with
      | alreadyExists => exact ih ht
      | notFound | notEmpty | other => exact acts_throw stable_leased ht

theorem critical_createStaging {attempts : Nat} (h : Leased x ns key fs) :
    x.protocol.Acts (createStaging ns key attempts) (fun path t => Leased x ns key t ∧
      ∃ inode, Own x.process path inode (Directory.Payloaded none) t) (Leased x ns key) fs := by
  refine Guards.mono ((exclusive_createStaging h).also acts_createStaging) fun r t _ hr => ?_
  cases r with
  | error e => exact hr.2
  | ok path => exact ⟨hr.2, hr.1⟩

/-! ## Publication -/

/-- The entry of a payload and its envelope, at the path of its key. -/
abbrev placedEntry (ns : CacheNamespace) (key : CacheKey) (e : CacheEnvelope)
    (bytes : List UInt8) : CacheEntry := ⟨infoFromEnvelope e (entryPath ns key), bytes⟩

/-- The entry that lookups of a pinned key find. -/
structure Standing (x : Contender) (ns : CacheNamespace) (key : CacheKey)
    (compatibility : CacheCompatibility) (entry : CacheEntry) (inode : Nat) (fs : Files) : Prop where
  named : fs.names.get? (entryPath ns key) = some inode
  complete : ∃ e, (fs.dirs inode).Complete x.sha256 ns key compatibility e entry.payload ∧
    entry.info = infoFromEnvelope e (entryPath ns key)

theorem Standing.same (h : Standing x ns key compatibility entry inode fs)
    (hsame : SameEntries ns key fs t) : Standing x ns key compatibility entry inode t := by
  refine ⟨(hsame.names _ serves_entryPath).trans h.named, ?_⟩
  rw [hsame.dirs _ inode serves_entryPath h.named]
  exact h.complete

theorem Standing.unique {entry' : CacheEntry} {inode' : Nat}
    (h : Standing x ns key compatibility entry inode fs)
    (h' : Standing x ns key compatibility entry' inode' fs) : entry = entry' ∧ inode = inode' := by
  obtain rfl := Option.some.inj (h.named.symm.trans h'.named)
  obtain ⟨e, hcomplete, hinfo⟩ := h.complete
  obtain ⟨e', hcomplete', hinfo'⟩ := h'.complete
  obtain ⟨_, hm, _⟩ := hcomplete.metadata
  obtain ⟨_, hm', _⟩ := hcomplete'.metadata
  obtain ⟨rfl, _⟩ := MetadataFile.envelope.inj (Option.some.inj (hm.symm.trans hm'))
  obtain ⟨info, payload⟩ := entry
  obtain ⟨info', payload'⟩ := entry'
  obtain rfl : payload = payload' :=
    Option.some.inj (hcomplete.payload.symm.trans hcomplete'.payload)
  obtain rfl : info = info' := hinfo.trans hinfo'.symm
  exact ⟨rfl, rfl⟩

theorem Standing.pinned (hpin : x.pins ns key = some compatibility)
    (h : Standing x ns key compatibility entry inode fs) :
    x.pins ns key ≠ none ∧ fs.names.get? (entryPath ns key) ≠ none := by
  rw [hpin, h.named]
  exact ⟨Option.some_ne_none _, Option.some_ne_none _⟩

/-- The entry of a pinned key, published by the process itself. -/
def Stands (x : Contender) (ns : CacheNamespace) (key : CacheKey) (entry : CacheEntry)
    (fs : Files) : Prop :=
  ∀ compatibility, x.pins ns key = some compatibility → ∃ inode,
    Standing x ns key compatibility entry inode fs ∧ (fs.dirs inode).creator = x.process

/-- What keeps the entries of pinned keys keeps the own ones. -/
theorem Stands.kept (h : Stands x ns key entry fs) (hsame : x.pins ns key ≠ none →
    fs.names.get? (entryPath ns key) ≠ none → SameEntries ns key fs t) :
    Stands x ns key entry t := by
  intro compatibility hpin
  obtain ⟨i, hi, hc⟩ := h compatibility hpin
  have hentries := hsame (hi.pinned hpin).1 (hi.pinned hpin).2
  exact ⟨i, hi.same hentries, by rw [hentries.dirs _ i serves_entryPath hi.named, hc]⟩

theorem stable_stands : x.protocol.Stable (Stands x ns key entry) :=
  fun _ _ h ht _ => h.kept (ht.2.pinned ns key)

/-- A process with the lease of a key and its complete staging directory. -/
structure Ready (x : Contender) (ns : CacheNamespace) (key : CacheKey) (path : Path)
    (inode : Nat) (e : CacheEnvelope) (bytes : List UInt8) (fs : Files) : Prop where
  leased : Leased x ns key fs
  own : Own x.process path inode (Directory.Described e bytes) fs

theorem stable_ready : x.protocol.Stable (Ready x ns key path inode e bytes) :=
  fun s t h ht hi => ⟨stable_leased s t h.leased ht hi, stable_own s t h.own ht hi⟩

/-- What a process still has when it failed to publish its staging directory. -/
def Left (x : Contender) (ns : CacheNamespace) (key : CacheKey) (path : Path) (inode : Nat)
    (fs : Files) : Prop := Holds x.process ns key fs ∧ Owned x.process path inode fs

theorem stable_left : x.protocol.Stable (Left x ns key path inode) :=
  fun s t h ht hi => ⟨stable_holds s t h.1 ht hi, stable_own s t h.2 ht hi⟩

theorem Ready.left (h : Ready x ns key path inode e bytes fs) : Left x ns key path inode fs :=
  ⟨h.leased.holds, h.own.owned⟩

theorem takes_entry {q : Path} (hq : Serves ns key q) (h : Holds x.process ns key fs)
    (hnone : x.pins ns key = none) : Takes x.pins x.process fs q := by
  obtain ⟨rfl, rfl, hkind⟩ := hq
  exact .entry hkind h hnone

theorem gives_entry {source q : Path} (hq : Serves ns key q) (h : Holds x.process ns key fs)
    (hnone : x.pins ns key = none) : Gives x.pins x.sha256 x.process fs source q := by
  obtain ⟨rfl, rfl, hkind⟩ := hq
  refine .entry hkind h fun compatibility hpin => ?_
  rw [hnone] at hpin
  cases hpin

theorem serves_previous {token : Token} : Serves ns key ⟨ns, .previous key token⟩ := ⟨rfl, rfl, rfl⟩

theorem Serves.lease_ne {q : Path} (h : Serves ns key q) : leasePath ns key ≠ q :=
  leasePath_ne (by rw [h.kind]; decide)

/-- The entry makes room for its replacement. A pinned key has none. -/
theorem does_replace {token : Token} (h : Ready x ns key path inode e bytes fs) :
    x.protocol.Does (step (.rename (entryPath ns key) ⟨ns, .previous key token⟩))
      (fun r t => Ready x ns key path inode e bytes t ∧ (r = .ok () → x.pins ns key = none)) fs := by
  refine does_exclusive (fun t ht hi env _ _ => ?_) fun r s u hs hsu hi =>
    ⟨stable_ready s u hs.1 hsu hi, hs.2⟩
  have hnow := stable_ready fs t h ht hi
  have hkeeps : Keeps (fun _ => True) t
      (FileOp.eval (.rename (entryPath ns key) ⟨ns, .previous key token⟩) env t).2 :=
    (FileOp.Calm.eval (o := .rename (entryPath ns key) ⟨ns, .previous key token⟩)
      ⟨⟨rfl, rfl, rfl⟩, by simp [entryPath, Name.kind]⟩ hi.1 env).2
  have hown := own_kept t _ hnow.own (hkeeps.mono fun _ _ => trivial)
  cases hfault : env.fault with
  | true =>
    rw [FileOp.eval, hfault]
    exact ⟨hi.2, .refl, hnow, fun hr => by cases hr⟩
  | false =>
    rw [FileOp.eval_quiet hfault, FileOp.effect] at hown ⊢
    cases hpin : x.pins ns key with
    | none =>
      have hmoved : Respects x.pins x.process t
          (t.rename (entryPath ns key) ⟨ns, .previous key token⟩).2 ∧ (t.Pinned x.pins x.sha256 →
            (t.rename (entryPath ns key) ⟨ns, .previous key token⟩).2.Pinned x.pins x.sha256) :=
        respects_rename (takes_entry serves_entryPath hnow.leased.holds hpin)
          (gives_entry serves_previous hnow.leased.holds hpin)
      refine ⟨hmoved.2 hi.2, hmoved.1, ⟨⟨?_, fun hne => absurd hpin hne⟩, hown⟩, fun _ => rfl⟩
      exact hnow.leased.holds.rename serves_entryPath.lease_ne serves_previous.lease_ne
    | some compatibility =>
      have hvacant : t.names.get? (entryPath ns key) = none :=
        hnow.leased.vacant (by rw [hpin]; exact Option.some_ne_none _)
      have hfails : t.rename (entryPath ns key) ⟨ns, .previous key token⟩ = (.error .notFound, t) := by
        rw [Files.rename, hvacant]
      rw [hfails]
      exact ⟨hi.2, .refl, hnow, fun hr => by cases hr⟩

/-- The staging directory becomes the entry of the key, or stays as it is. -/
theorem does_publish (hcomplete : ∀ compatibility d, x.pins ns key = some compatibility →
      Directory.Described e bytes d → d.Complete x.sha256 ns key compatibility e bytes)
    (h : Ready x ns key path inode e bytes fs) :
    x.protocol.Does (step (.rename path (entryPath ns key)))
      (Tried (fun _ t => Holds x.process ns key t ∧ Stands x ns key (placedEntry ns key e bytes) t)
        (Ready x ns key path inode e bytes)) fs := by
  refine does_exclusive (fun t ht hi env _ _ => ?_) (stable_tried stable_ready fun _ s t h ht hi =>
    ⟨stable_holds s t h.1 ht hi, stable_stands s t h.2 ht hi⟩)
  have hnow := stable_ready fs t h ht hi
  cases hfault : env.fault with
  | true =>
    rw [FileOp.eval, hfault]
    exact ⟨hi.2, .refl, hnow⟩
  | false =>
    rw [FileOp.eval_quiet hfault, FileOp.effect]
    have hmoved : Respects x.pins x.process t (t.rename path (entryPath ns key)).2 ∧
        (t.Pinned x.pins x.sha256 →
          (t.rename path (entryPath ns key)).2.Pinned x.pins x.sha256) := by
      refine respects_rename (.staging hnow.own.staging) (.entry rfl hnow.leased.holds
        fun compatibility hpin => ⟨hnow.leased.vacant ?_, rfl, fun i hn => ?_⟩)
      · rw [show x.pins ns key = some compatibility from hpin]
        exact Option.some_ne_none _
      · obtain rfl := Option.some.inj (hnow.own.named.symm.trans hn)
        exact ⟨e, bytes, hcomplete compatibility _ hpin hnow.own.holds⟩
    refine ⟨hmoved.2 hi.2, hmoved.1, ?_⟩
    cases hr : (t.rename path (entryPath ns key)).1 with
    | error e' =>
      rw [rename_error hr]
      exact hnow
    | ok u =>
      refine ⟨hnow.leased.holds.rename (leasePath_ne ?_) serves_entryPath.lease_ne,
        fun compatibility hpin => ⟨inode, ⟨Files.rename_destination hr hnow.own.named, e, ?_, rfl⟩,
          ?_⟩⟩
      · rw [hnow.own.staging]
        decide
      · rw [Files.rename_dirs]
        exact hcomplete compatibility _ hpin hnow.own.holds
      · rw [Files.rename_dirs, hnow.own.creator]

/-- The generation that was moved away comes back. -/
theorem does_restore {token : Token} (hnone : x.pins ns key = none)
    (h : Left x ns key path inode fs) :
    x.protocol.Does (step (.rename ⟨ns, .previous key token⟩ (entryPath ns key)))
      (fun _ => Left x ns key path inode) fs := by
  refine does_exclusive (fun t ht hi env _ _ => ?_) fun _ => stable_left
  have hnow := stable_left fs t h ht hi
  have hkeeps : Keeps (fun _ => True) t
      (FileOp.eval (.rename ⟨ns, .previous key token⟩ (entryPath ns key)) env t).2 :=
    (FileOp.Calm.eval (o := .rename ⟨ns, .previous key token⟩ (entryPath ns key))
      ⟨⟨rfl, rfl, rfl⟩, by simp [Name.kind]⟩ hi.1 env).2
  have hown := own_kept t _ hnow.2 (hkeeps.mono fun _ _ => trivial)
  rcases eval_cases (.rename ⟨ns, .previous key token⟩ (entryPath ns key)) env t with hsame | heffect
  · rw [hsame]
    exact ⟨hi.2, .refl, hnow⟩
  · rw [heffect, FileOp.effect] at hown ⊢
    have hmoved : Respects x.pins x.process t
        (t.rename ⟨ns, .previous key token⟩ (entryPath ns key)).2 ∧ (t.Pinned x.pins x.sha256 →
          (t.rename ⟨ns, .previous key token⟩ (entryPath ns key)).2.Pinned x.pins x.sha256) :=
      respects_rename (takes_entry serves_previous hnow.1 hnone)
        (gives_entry serves_entryPath hnow.1 hnone)
    exact ⟨hmoved.2 hi.2, hmoved.1, hnow.1.rename serves_previous.lease_ne
      serves_entryPath.lease_ne, hown⟩

/-- A generation beside the entry is removed, or what can be removed of it. -/
theorem does_removeServed {q : Path} (hq : Serves ns key q) (hnone : x.pins ns key = none)
    (h : Holds x.process ns key fs) :
    x.protocol.Does (removeDirAll q) (fun _ => Holds x.process ns key) fs := by
  refine exclusive_removeDirAll (W := fun i t => t.names.get? q = some i) stable_holds stable_holds
    (fun i s t hs hst hi => ⟨stable_holds s t hs.1 hst hi, ?_⟩) (fun _ _ _ _ hn => hn)
    (fun t i hi ht hn p hp hkind => ?_) (fun t u i ht hn hg => ⟨hg.holds ht, ?_⟩)
    (fun t ht => takes_entry hq ht hnone) (fun _ ht => ht)
    (fun t _ ht => ht.removeDir hq.lease_ne) h
  · exact ((hst.2.entries ns key hs.1).names q hq).trans hs.2
  · obtain rfl := hi.1.valid.unique p q i hp hn
    obtain ⟨rfl, rfl, _⟩ := hq
    exact ⟨ht, hnone⟩
  · rw [hg.names]
    exact hn

/-- The staging directory is removed. -/
theorem does_removeStaging (h : Left x ns key path inode fs) :
    x.protocol.Does (removeDirAll path) (fun _ => Holds x.process ns key) fs := by
  refine exclusive_removeDirAll (B := Left x ns key path inode) (W := fun i _ => i = inode)
    stable_holds stable_left (fun i s t hs hst hi => ⟨stable_left s t hs.1 hst hi, hs.2⟩)
    (fun t i _ ht hn => Option.some.inj (hn.symm.trans ht.2.named)) (fun t i hi ht hn => ?_)
    (fun t u i ht hn hg => ⟨⟨hg.holds ht.1, hg.owned ht.2⟩, hn⟩)
    (fun t ht => .staging ht.2.staging) (fun _ ht => ht.1)
    (fun t _ ht => ht.1.removeDir (leasePath_ne ?_)) h
  · subst hn
    exact ht.2.writable hi
  · rw [ht.2.staging]
    decide

theorem critical_placeStaging {token : Token} {moved : Bool}
    (hcomplete : ∀ compatibility d, x.pins ns key = some compatibility →
      Directory.Described e bytes d → d.Complete x.sha256 ns key compatibility e bytes)
    (hmoved : moved = true → x.pins ns key = none) (h : Ready x ns key path inode e bytes fs) :
    x.protocol.Acts (placeStaging path ns key token moved)
      (fun _ t => Holds x.process ns key t ∧ Stands x ns key (placedEntry ns key e bytes) t)
      (Left x ns key path inode) fs := by
  have hdone : x.protocol.Stable fun t =>
      Holds x.process ns key t ∧ Stands x ns key (placedEntry ns key e bytes) t :=
    fun s t h ht hi => ⟨stable_holds s t h.1 ht hi, stable_stands s t h.2 ht hi⟩
  refine acts_seq (does_publish hcomplete h) fun r t _ ht => ?_
  cases r with
  | error _ =>
    cases moved with
    | true =>
      exact acts_seq (does_restore (hmoved rfl) ht.left) fun _ t _ ht => acts_throw stable_left ht
    | false => exact acts_throw stable_left ht.left
  | ok _ =>
    cases moved with
    | true =>
      refine acts_seq (does_removeServed serves_previous (hmoved rfl) ht.1) fun _ t _ ht =>
        acts_pure hdone ⟨ht, fun compatibility hpin => ?_⟩
      rw [hmoved rfl] at hpin
      cases hpin
    | false => exact acts_pure hdone ht

theorem critical_publishStaging
    (hcomplete : ∀ compatibility d, x.pins ns key = some compatibility →
      Directory.Described e bytes d → d.Complete x.sha256 ns key compatibility e bytes)
    (h : Ready x ns key path inode e bytes fs) :
    x.protocol.Acts (publishStaging path ns key)
      (fun _ t => Holds x.process ns key t ∧ Stands x ns key (placedEntry ns key e bytes) t)
      (Left x ns key path inode) fs := by
  refine acts_seq (does_reading (o := .token) trivial stable_ready h (fun _ => stable_ready)
    fun _ _ _ ht _ => ht) fun token t _ ht => acts_seq (does_replace ht) fun r t _ ht => ?_
  match r with
  | .ok () => exact critical_placeStaging hcomplete (fun _ => ht.2 rfl) ht.1
  | .error .notFound => exact critical_placeStaging hcomplete (fun h => by cases h) ht.1
  | .error .alreadyExists | .error .notEmpty | .error .other =>
    exact acts_throw stable_left ht.1.left

end ModelWeights.Cache
