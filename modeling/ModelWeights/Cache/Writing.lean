import ModelWeights.Cache.Sequential

/-! # Leases and generations, one call at a time

A call that runs alone changes what is at the final path of its key. Every other
directory that it creates or renames is gone when the call ends. -/
namespace ModelWeights.Cache
open Program

variable {c : CacheService} {fs : Files} {ns : CacheNamespace} {key : CacheKey} {path : Path}

/-! ## Removal -/

/-- The files of a directory go one by one. The directory stays where it is. -/
theorem ensures_unlinkAll {inode : Nat} : ∀ {files : List File} {fs : Files}, fs.Valid →
    fs.names.get? path = some inode →
    Ensures (unlinkAll inode files) (fun r t => r = .ok () ∧ Changes [path] fs t ∧
      ∃ d, t.at? path = some d ∧ ∀ g ∈ d.files, g ∈ (fs.dirs inode).files ∧ g ∉ files) fs
  | [], fs, h, hi => by
    refine ⟨rfl, h.changes.mono fun q hq => absurd hq List.not_mem_nil, fs.dirs inode,
      at?_eq hi, fun g hg => ⟨hg, List.not_mem_nil⟩⟩
  | file :: rest, fs, h, hi => by
    unfold unlinkAll
    rw [ensures_bind, ensures_step]
    intro env _
    by_cases hfile : file ∈ (fs.dirs inode).files
    · rw [show FileOp.effect env fs (.unlink inode file) = (.ok (),
        fs.setDir inode (Files.stamp env.now ((fs.dirs inode).unlink file))) from if_pos hfile]
      obtain ⟨hchanges, _⟩ := h.setDir hi (Files.stamp env.now ((fs.dirs inode).unlink file))
      refine (ensures_unlinkAll hchanges.valid hi).mono fun r t hr => ?_
      obtain ⟨hr, hrest, d, hd, hfiles⟩ := hr
      refine ⟨hr, hchanges.trans hrest, d, hd, fun g hg => ?_⟩
      obtain ⟨hg, hnot⟩ := hfiles g hg
      have hset : (fs.setDir inode (Files.stamp env.now ((fs.dirs inode).unlink file))).dirs inode =
          Files.stamp env.now ((fs.dirs inode).unlink file) := if_pos rfl
      rw [hset] at hg
      obtain ⟨hg, hne⟩ := Directory.mem_files_unlink.mp hg
      exact ⟨hg, fun hm => (List.mem_cons.mp hm).elim hne hnot⟩
    · rw [show FileOp.effect env fs (.unlink inode file) = (.error .notFound, fs) from
        if_neg hfile]
      refine (ensures_unlinkAll h hi).mono fun r t hr => ?_
      obtain ⟨hr, hrest, d, hd, hfiles⟩ := hr
      refine ⟨hr, hrest, d, hd, fun g hg => ⟨(hfiles g hg).1, fun hm => ?_⟩⟩
      rcases List.mem_cons.mp hm with rfl | hm
      · exact hfile (hfiles g hg).1
      · exact (hfiles g hg).2 hm

/-- `fs::remove_dir_all` removes what is at a path, and nothing else. -/
theorem ensures_removeDirAll {d : Directory} (h : fs.Valid) (hd : fs.at? path = some d) :
    Ensures (removeDirAll path) (fun r t => r = .ok () ∧ Changes [path] fs t ∧
      t.at? path = none) fs := by
  obtain ⟨inode, hi, hdir⟩ := inode_of_at? hd
  unfold removeDirAll
  rw [ensures_bind, ensures_step]
  intro env _
  obtain ⟨files, heffect, hfiles⟩ : ∃ files, FileOp.effect env fs (.openDir path) =
      (.ok (inode, files), fs) ∧ ∀ g ∈ d.files, g ∈ files := by
    refine ⟨_, by simp only [FileOp.effect, hi]; rfl, fun g hg => ?_⟩
    rw [hdir]
    split
    · exact List.mem_reverse.mpr hg
    · exact hg
  rw [heffect]
  refine ensures_bind.mpr ((ensures_unlinkAll h hi).mono fun r t hr => ?_)
  obtain ⟨rfl, hchanges, d', hd', hempty⟩ := hr
  have hnone : d'.files = [] := List.eq_nil_iff_forall_not_mem.mpr fun g hg =>
    (hempty g hg).2 (hfiles g (hdir ▸ (hempty g hg).1))
  refine ensures_step.mpr fun env _ => ?_
  obtain ⟨hr, hremoved, hgone⟩ := hchanges.valid.removeDir hd' hnone
  exact ⟨hr, hchanges.trans hremoved, hgone⟩

/-! ## Writer leases -/

/-- The lease directory of a key is the one of a live handle. -/
structure Held (lease : WriterLease) (fs : Files) : Prop where
  active : lease.active = true
  directory : ∃ d, fs.at? (leasePath lease.ns lease.key) = some d ∧ d.owner = some lease.owner ∧
    d.heartbeat.isSome = true

theorem Held.of_same {lease : WriterLease} {t : Files} (h : Held lease fs)
    (hsame : t.at? (leasePath lease.ns lease.key) = fs.at? (leasePath lease.ns lease.key)) :
    Held lease t := ⟨h.active, hsame ▸ h.directory⟩

/-- With no lease directory there, the first attempt creates it. -/
theorem meets_acquire (h : fs.Valid) (hpolls : 0 < c.polls)
    (hnone : fs.at? (leasePath ns key) = none) (hshard : fs.hasShard (leasePath ns key) = true) :
    Meets (acquire c ns key) (fun r t => ∃ lease, r = .ok lease ∧ (lease.ns = ns ∧ lease.key = key) ∧
      Held lease t ∧ Changes [leasePath ns key] fs t) fs := by
  obtain ⟨polls, hpolls⟩ := Nat.exists_eq_succ_of_ne_zero (Nat.pos_iff_ne_zero.mp hpolls)
  unfold acquire
  rw [meets_step]
  intro env _
  rw [show FileOp.effect env fs .now = (env.now, fs) from rfl, hpolls]
  unfold acquireLoop
  refine reads_checkCancelled.bind (meets_step.mpr fun env _ => ?_)
  obtain ⟨hr, hchanges, hat⟩ := h.createDir hshard hnone env.process env.now
  rw [show (FileOp.effect env fs (.createDir (leasePath ns key))).1 = .ok () from hr]
  change Meets (initializeLease ns key) _ (fs.createDir env.process env.now (leasePath ns key)).2
  generalize (fs.createDir env.process env.now (leasePath ns key)).2 = t at hchanges hat
  unfold initializeLease
  rw [meets_step]
  intro env _
  rw [show FileOp.effect env t .token = (env.token, t) from rfl]
  generalize env.token = owner
  rw [meets_step]
  intro env _
  obtain ⟨_, hr, _, howner, _, hat⟩ := hchanges.valid.change hat (α := Unit) (a := fun _ => ())
    (f := fun _ d => .ok ((), { Files.stamp env.now d with owner := some owner })) fun _ => rfl
  rw [show (FileOp.effect env t (.writeOwner (leasePath ns key) owner)).1 = .ok () from hr]
  change Meets _ _ (t.change (leasePath ns key) _).2
  generalize (t.change (leasePath ns key) _).2 = u at howner hat
  refine meets_step.mpr fun env _ => ?_
  obtain ⟨_, hr, _, hheartbeat, _, hat⟩ := howner.valid.change hat (α := Unit) (a := fun _ => ())
    (f := fun _ d => .ok ((), { Files.stamp env.now d with heartbeat := some env.now })) fun _ => rfl
  rw [show (FileOp.effect env u (.writeHeartbeat (leasePath ns key))).1 = .ok () from hr]
  change Meets (pure _) _ (u.change (leasePath ns key) _).2
  exact ⟨⟨ns, key, owner, true⟩, rfl, ⟨rfl, rfl⟩, ⟨rfl, _, hat, rfl, rfl⟩,
    (hchanges.trans howner).trans hheartbeat⟩

/-- A refreshed lease is still held. -/
theorem ensures_refresh {lease : WriterLease} (h : fs.Valid) (hheld : Held lease fs) :
    Ensures lease.refresh (fun r t => r = (.ok (), lease) ∧
      Changes [leasePath lease.ns lease.key] fs t ∧ Held lease t ∧ t.names = fs.names) fs := by
  obtain ⟨d, hd, howner, hheartbeat⟩ := hheld.directory
  unfold WriterLease.refresh
  rw [ensures_bind, ensures_step]
  intro env _
  rw [show FileOp.effect env fs (.readOwner (leasePath lease.ns lease.key)) =
    (.ok lease.owner, fs) from ask_some hd howner]
  show Ensures (if lease.owner ≠ lease.owner then _ else _) _ _
  rw [if_neg (not_not.mpr rfl), ensures_bind, ensures_step]
  intro env _
  obtain ⟨_, hr, _, hchanges, hnames, hat⟩ := h.change hd (α := Unit) (a := fun _ => ())
    (f := fun _ d => if d.heartbeat.isNone then .error .notFound
      else .ok ((), { Files.touch env.now d with heartbeat := some env.now })) fun _ =>
        if_neg (by rw [Option.isNone_iff_eq_none, ← Option.not_isSome_iff_eq_none]; simp [hheartbeat])
  rw [show (FileOp.effect env fs (.refreshHeartbeat (leasePath lease.ns lease.key))).1 = .ok ()
    from hr]
  exact ⟨rfl, hchanges, ⟨hheld.active, _, hat, howner, rfl⟩, hnames⟩

/-- A lease that is dropped leaves no directory. -/
theorem ensures_drop {lease : WriterLease} (h : fs.Valid) (hheld : Held lease fs)
    (hreap : ∀ token, fs.at? ⟨lease.ns, .reap lease.key token⟩ = none) :
    Ensures lease.drop (fun _ t => Changes [leasePath lease.ns lease.key] fs t ∧
      t.at? (leasePath lease.ns lease.key) = none) fs := by
  obtain ⟨d, hd, howner, _⟩ := hheld.directory
  unfold WriterLease.drop
  rw [if_pos hheld.active, ensures_bind, ensures_step]
  intro env _
  rw [show FileOp.effect env fs (.readOwner (leasePath lease.ns lease.key)) =
    (.ok lease.owner, fs) from ask_some hd howner]
  show Ensures (if lease.owner = lease.owner then _ else _) _ _
  rw [if_pos rfl]
  unfold releaseWriterLease
  rw [ensures_bind, ensures_step]
  intro env _
  rw [show FileOp.effect env fs .token = (env.token, fs) from rfl]
  have hnone := hreap env.token
  generalize env.token = token at hnone
  rw [ensures_bind, ensures_step]
  intro env _
  obtain ⟨hr, hchanges, hlease, hat⟩ := h.rename hd hnone (h.hasShard hd rfl rfl)
  rw [show (FileOp.effect env fs (.rename (leasePath lease.ns lease.key)
    ⟨lease.ns, .reap lease.key token⟩)).1 = .ok () from hr]
  refine ensures_bind.mpr ((ensures_removeDirAll hchanges.valid hat).mono fun r t ht => ?_)
  obtain ⟨_, hremoved, hgone⟩ := ht
  have hne : leasePath lease.ns lease.key ≠ ⟨lease.ns, .reap lease.key token⟩ := by
    intro he
    cases he
  have hboth : Changes [⟨lease.ns, .reap lease.key token⟩, leasePath lease.ns lease.key] fs t :=
    (hchanges.mono fun q hq => by simpa [or_comm] using hq).trans
      (hremoved.mono fun q hq => List.mem_cons.mpr (.inl (List.mem_singleton.mp hq)))
  refine ⟨hboth.restore (hgone.trans hnone.symm), ?_⟩
  rw [hremoved.same _ fun hm => hne (List.mem_singleton.mp hm)]
  exact hlease

/-! ## Sequencing under a lease -/

section Leased
variable {α β : Type} {lease : WriterLease}

theorem ensures_andThen {x : Task (Result α × WriterLease)} {l : WriterLease}
    {f : α → WriterLease → Task (Result β × WriterLease)} {P : α → Files → Prop}
    {Q : Result β × WriterLease → Files → Prop}
    (h : Ensures x (fun r t => ∃ a, r = (.ok a, l) ∧ P a t) fs)
    (hf : ∀ a t, P a t → Ensures (f a l) Q t) : Ensures (andThen x f) Q fs := by
  unfold andThen
  refine ensures_bind.mpr (h.mono fun r t hr => ?_)
  obtain ⟨a, rfl, hP⟩ := hr
  exact hf a t hP

theorem ensures_keeping {action : Action α} {P : α → Files → Prop}
    (h : Meets action (fun r t => ∃ a, r = .ok a ∧ P a t) fs) :
    Ensures (keeping lease action) (fun r t => ∃ a, r = (.ok a, lease) ∧ P a t) fs := by
  unfold keeping
  refine ensures_bind.mpr (Ensures.mono h fun r t hr => ?_)
  obtain ⟨a, rfl, hP⟩ := hr
  exact ⟨a, rfl, hP⟩

/-- An action that changes nothing, under the lease. -/
theorem ensures_reading {action : Action α} {a : α}
    {f : α → WriterLease → Task (Result β × WriterLease)}
    {Q : Result β × WriterLease → Files → Prop} (h : Reads action fs (.ok a))
    (hf : Ensures (f a lease) Q fs) : Ensures (andThen (keeping lease action) f) Q fs := by
  refine ensures_andThen (P := fun a' t => a' = a ∧ t = fs)
    (ensures_keeping (Meets.mono h fun r t hr => ⟨a, hr.1, rfl, hr.2⟩)) ?_
  rintro _ t ⟨rfl, rfl⟩
  exact hf

theorem ensures_checked {f : Unit → WriterLease → Task (Result β × WriterLease)}
    {Q : Result β × WriterLease → Files → Prop} (h : Ensures (f () lease) Q fs) :
    Ensures (andThen (keeping lease checkCancelled) f) Q fs :=
  ensures_reading reads_checkCancelled h

theorem ensures_refreshed {f : Unit → WriterLease → Task (Result β × WriterLease)}
    {Q : Result β × WriterLease → Files → Prop} (h : fs.Valid) (hheld : Held lease fs)
    (hf : ∀ t, Changes [leasePath lease.ns lease.key] fs t → Held lease t → t.names = fs.names →
      Ensures (f () lease) Q t) : Ensures (andThen lease.refresh f) Q fs := by
  refine ensures_andThen (P := fun _ t => Changes [leasePath lease.ns lease.key] fs t ∧
    Held lease t ∧ t.names = fs.names) ((ensures_refresh h hheld).mono fun r t hr => ?_)
    fun _ t ht => hf t ht.1 ht.2.1 ht.2.2
  exact ⟨(), hr⟩

end Leased

/-! ## Staging -/

/-- A directory with a payload and nothing else. -/
structure Payload (bytes : List UInt8) (d : Directory) : Prop where
  owner : d.owner = none
  heartbeat : d.heartbeat = none
  payload : d.payload = some bytes
  metadata : d.metadata = none

theorem meets_createStaging (h : fs.Valid)
    (hnone : ∀ token, fs.at? ⟨ns, .staging key token⟩ = none)
    (hshard : fs.hasShard (entryPath ns key) = true) {attempts : Nat} (hattempts : 0 < attempts) :
    Meets (createStaging ns key attempts) (fun r t => ∃ path, r = .ok path ∧
      (∃ token, path = ⟨ns, .staging key token⟩) ∧ Changes [path] fs t ∧
      ∃ process now, t.at? path = some (Files.newDirectory process now)) fs := by
  obtain ⟨attempts, rfl⟩ := Nat.exists_eq_succ_of_ne_zero (Nat.pos_iff_ne_zero.mp hattempts)
  unfold createStaging
  rw [meets_step]
  intro env _
  rw [show FileOp.effect env fs .token = (env.token, fs) from rfl]
  generalize env.token = token
  rw [meets_step]
  intro env _
  have hstaging : fs.hasShard ⟨ns, .staging key token⟩ = true := hshard
  obtain ⟨hr, hchanges, hat⟩ := h.createDir hstaging (hnone token) env.process env.now
  rw [show (FileOp.effect env fs (.createDir ⟨ns, .staging key token⟩)).1 = .ok () from hr]
  exact ⟨_, rfl, ⟨token, rfl⟩, hchanges, env.process, env.now, hat⟩

section Staging
variable {lease : WriterLease}

/-- The copy loop appends the bytes of the reader to the payload, and keeps the lease. -/
theorem ensures_writeChunks {size inode : Nat} (hsize : 0 < size)
    (hne : path ≠ leasePath lease.ns lease.key) : ∀ {fuel total : Nat} {bytes written : List UInt8}
    {fs : Files} {d : Directory}, bytes.length ≤ fuel → total + bytes.length < u64Size →
    fs.Valid → Held lease fs → fs.names.get? path = some inode → fs.at? path = some d →
    Payload written d →
    Ensures (writeChunks inode written total (cursor size fuel bytes) lease) (fun r t =>
      r = (.ok (total + bytes.length, written ++ bytes), lease) ∧
      Changes [leasePath lease.ns lease.key, path] fs t ∧ Held lease t ∧
      ∃ d, t.at? path = some d ∧ Payload (written ++ bytes) d) fs := by
  intro fuel
  induction fuel with
  | zero =>
    intro total bytes written fs d hfuel htotal h hheld hi hd hp
    obtain rfl := List.eq_nil_of_length_eq_zero (Nat.le_zero.mp hfuel)
    unfold writeChunks
    refine ensures_checked (ensures_refreshed h hheld fun t hchanges hheld _ => ?_)
    rw [List.append_nil]
    refine ⟨rfl, hchanges.mono fun q hq => List.mem_cons.mpr (.inl (List.mem_singleton.mp hq)),
      hheld, d, ?_, hp⟩
    rw [hchanges.same _ fun hm => hne (List.mem_singleton.mp hm)]
    exact hd
  | succ fuel ih =>
    intro total bytes written fs d hfuel htotal h hheld hi hd hp
    unfold writeChunks
    refine ensures_checked (ensures_refreshed h hheld fun t hchanges hheld hnames => ?_)
    have hdt : t.at? path = some d := by
      rw [hchanges.same _ fun hm => hne (List.mem_singleton.mp hm)]
      exact hd
    have hchanges' : Changes [leasePath lease.ns lease.key, path] fs t :=
      hchanges.mono fun q hq => List.mem_cons.mpr (.inl (List.mem_singleton.mp hq))
    cases bytes with
    | nil =>
      rw [List.append_nil]
      exact ⟨rfl, hchanges', hheld, d, hdt, hp⟩
    | cons b bytes =>
      -- one read gives a chunk and the rest
      obtain ⟨chunk, rest, hsplit, hchunk, hrest⟩ : ∃ chunk rest, chunk ++ rest = b :: bytes ∧
          chunk ≠ [] ∧ cursor size (fuel + 1) (b :: bytes) = .ok chunk :: cursor size fuel rest := by
        refine ⟨(b :: bytes).take size, (b :: bytes).drop size, List.take_append_drop .., ?_, rfl⟩
        obtain ⟨n, rfl⟩ := Nat.exists_eq_succ_of_ne_zero (Nat.pos_iff_ne_zero.mp hsize)
        exact List.cons_ne_nil _ _
      rw [← hsplit, List.length_append] at hfuel htotal
      have hpos : 0 < chunk.length := List.length_pos_iff.mpr hchunk
      rw [hrest]
      obtain ⟨a, chunk', rfl⟩ := List.exists_cons_of_ne_nil hchunk
      refine ensures_andThen (l := lease) (P := fun _ u => Changes [path] t u ∧
        u.names = t.names ∧ ∃ d, u.at? path = some d ∧ Payload (written ++ a :: chunk') d)
        (ensures_keeping (meets_attempt ?_)) ?_
      · refine ensures_step.mpr fun env _ => ?_
        have hit : t.names.get? path = some inode := hnames ▸ hi
        obtain ⟨hset, hat⟩ := hchanges.valid.setDir hit { Files.touch env.now (t.dirs inode) with
          payload := (t.dirs inode).payload.map (· ++ a :: chunk') }
        have hdir : t.dirs inode = d := Option.some.inj ((at?_eq hit).symm.trans hdt)
        refine ⟨(), rfl, hset, rfl, _, hat, ?_⟩
        rw [hdir]
        exact ⟨hp.owner, hp.heartbeat, by simp [hp.payload], hp.metadata⟩
      · rintro ⟨⟩ u ⟨hset, hsame, d', hd', hp'⟩
        rw [checkedAdd_eq_some.mpr ⟨by omega, rfl⟩]
        have hheld' : Held lease u :=
          hheld.of_same (hset.same _ fun hm => hne (List.mem_singleton.mp hm).symm)
        refine (ih (by omega) (by omega) hset.valid hheld' (by rw [hsame, hnames, hi]) hd'
          hp').mono fun r w hr => ?_
        obtain ⟨hr, hw, hheld'', d'', hd'', hp''⟩ := hr
        rw [List.append_assoc, hsplit] at hr hp''
        refine ⟨?_, ?_, hheld'', d'', hd'', hp''⟩
        · rw [hr, ← hsplit, List.length_append, Nat.add_assoc]
        · exact (hchanges'.trans (hset.mono fun q hq =>
            List.mem_cons_of_mem _ hq)).trans hw

/-- The staged payload holds the bytes of the reader. -/
theorem ensures_writePayload {bytes : List UInt8} {process now : Nat} (h : fs.Valid)
    (hne : path ≠ leasePath lease.ns lease.key) (hbytes : InMemory bytes) (hheld : Held lease fs)
    (hd : fs.at? path = some (Files.newDirectory process now)) :
    Ensures (writePayload c path (cursor copyBufferBytes bytes.length bytes) lease) (fun r t =>
      ∃ p, r = (.ok p, lease) ∧ p = (bytes.length, c.sha256 bytes) ∧
      Changes [leasePath lease.ns lease.key, path] fs t ∧ Held lease t ∧
      ∃ d, t.at? path = some d ∧ Payload bytes d) fs := by
  unfold writePayload
  refine ensures_andThen (l := lease) (P := fun inode t => Changes [path] fs t ∧
    t.names.get? path = some inode ∧ ∃ d, t.at? path = some d ∧ Payload [] d)
    (ensures_keeping (meets_attempt (ensures_step.mpr fun env _ => ?_))) ?_
  · obtain ⟨inode, hr, hi, hchanges, hnames, hat⟩ := h.change hd (α := Nat) (a := id)
      (f := fun inode d => if d.payload.isSome then .error .alreadyExists
        else .ok (inode, { Files.stamp env.now d with payload := some [] })) fun _ => rfl
    exact ⟨inode, hr, hchanges, (congrArg (OrderedMap.get? · path) hnames).trans hi, _, hat,
      ⟨rfl, rfl, rfl, rfl⟩⟩
  · rintro inode t ⟨hcreated, hi, d, hdt, hp⟩
    have hheld' : Held lease t :=
      hheld.of_same (hcreated.same _ fun hm => hne (List.mem_singleton.mp hm).symm)
    refine ensures_andThen (l := lease) (P := fun p u => p = (bytes.length, bytes) ∧
      Changes [leasePath lease.ns lease.key, path] t u ∧ Held lease u ∧
      ∃ d, u.at? path = some d ∧ Payload bytes d) ?_ ?_
    · refine (ensures_writeChunks (by decide) hne (Nat.le_refl _) (by rwa [Nat.zero_add])
        hcreated.valid hheld' hi hdt hp).mono fun r u hr => ?_
      obtain ⟨hr, hrest⟩ := hr
      rw [Nat.zero_add] at hr
      exact ⟨_, hr, rfl, hrest⟩
    · rintro p u ⟨rfl, hwritten, hheld, d, hdu, hp⟩
      refine ensures_andThen (l := lease) (P := fun _ w => w = u)
        (ensures_keeping (meets_attempt (ensures_step.mpr fun env _ => ⟨(), rfl, rfl⟩))) ?_
      rintro _ w rfl
      exact ⟨_, rfl, rfl, (hcreated.mono fun q hq => List.mem_cons_of_mem _ hq).trans hwritten,
        hheld, d, hdu, hp⟩

end Staging

/-- The metadata makes a staged payload a complete entry. -/
theorem meets_writeEnvelope {e : Content} {d : Directory} (h : fs.Valid)
    (hd : fs.at? path = some d) (hp : Payload e.payload d)
    (hlength : c.envelopeLength (e.envelope c ns key) ≤ maxMetadataBytes) :
    Meets (writeEnvelope c path (e.envelope c ns key)) (fun r t => ∃ u, r = .ok u ∧
      Changes [path] fs t ∧ ∃ d, t.at? path = some d ∧ Complete c ns key e d) fs := by
  unfold writeEnvelope
  rw [if_neg (Nat.not_lt.mpr hlength)]
  refine Meets.attempt (P := fun inode t => Changes [path] fs t ∧
    t.names.get? path = some inode ∧ ∃ d, t.at? path = some d ∧
      d.metadata.isSome ∧ d.owner = none ∧ d.heartbeat = none ∧ d.payload = some e.payload)
    (ensures_step.mpr fun env _ => ?_) ?_
  · obtain ⟨inode, hr, hi, hchanges, hnames, hat⟩ := h.change hd (α := Nat) (a := id)
      (f := fun inode d => if d.metadata.isSome then .error .alreadyExists
        else .ok (inode, { Files.stamp env.now d with metadata := some .incomplete }))
      fun _ => if_neg (by simp [hp.metadata])
    exact ⟨inode, hr, hchanges, (congrArg (OrderedMap.get? · path) hnames).trans hi, _, hat,
      rfl, hp.owner, hp.heartbeat, hp.payload⟩
  · rintro inode t ⟨hcreated, hi, d, hdt, hmetadata, howner, hheartbeat, hpayload⟩
    refine Meets.attempt (P := fun _ u => Changes [path] t u ∧
      ∃ d, u.at? path = some d ∧ Complete c ns key e d) (ensures_step.mpr fun env _ => ?_) ?_
    · obtain ⟨hset, hat⟩ := hcreated.valid.setDir hi { Files.touch env.now (t.dirs inode) with
        metadata := (t.dirs inode).metadata.map fun _ =>
          .envelope (e.envelope c ns key) (c.envelopeLength (e.envelope c ns key)) }
      have hdir : t.dirs inode = d := Option.some.inj ((at?_eq hi).symm.trans hdt)
      refine ⟨(), rfl, hset, _, hat, ?_⟩
      rw [hdir]
      refine ⟨howner, hheartbeat, hpayload, _, hlength, ?_⟩
      obtain ⟨m, hm⟩ := Option.isSome_iff_exists.mp hmetadata
      rw [hm]
      rfl
    · rintro _ u ⟨hset, hcomplete⟩
      refine (meets_attempt (P := fun _ w => w = u)
        (ensures_step.mpr fun env _ => ⟨(), rfl, rfl⟩)).mono fun r w hr => ?_
      obtain ⟨_, rfl, rfl⟩ := hr
      exact ⟨(), rfl, hcreated.trans hset, hcomplete⟩

/-! ## Publication -/

/-- The staged directory takes the final path, and a generation that was there is
gone. -/
theorem meets_publishStaging {d : Directory} {token : Token} (h : fs.Valid)
    (hd : fs.at? ⟨ns, .staging key token⟩ = some d) (hprevious : NoPrevious fs ns key) :
    Meets (publishStaging ⟨ns, .staging key token⟩ ns key) (fun r t => ∃ u, r = .ok u ∧
      Changes [⟨ns, .staging key token⟩, entryPath ns key] fs t ∧
      t.at? ⟨ns, .staging key token⟩ = none ∧ t.at? (entryPath ns key) = some d) fs := by
  unfold publishStaging
  rw [meets_step]
  intro env _
  rw [show FileOp.effect env fs .token = (env.token, fs) from rfl]
  generalize env.token = old
  rw [meets_step]
  intro env _
  cases hfinal : fs.at? (entryPath ns key) with
  | none =>
    rw [show FileOp.effect env fs (.rename (entryPath ns key) ⟨ns, .previous key old⟩) =
      (.error .notFound, fs) from Files.rename_none hfinal]
    refine meets_step.mpr fun env _ => ?_
    obtain ⟨hr, hchanges, hstaging, hat⟩ := h.rename hd hfinal (h.hasShard hd rfl rfl)
    rw [show (FileOp.effect env fs (.rename ⟨ns, .staging key token⟩ (entryPath ns key))).1 = .ok ()
      from hr]
    exact ⟨(), rfl, hchanges, hstaging, hat⟩
  | some dF =>
    obtain ⟨hr, hmoved, hgone, hold⟩ := h.rename hfinal (hprevious old) (h.hasShard hfinal rfl rfl)
    rw [show (FileOp.effect env fs (.rename (entryPath ns key) ⟨ns, .previous key old⟩)).1 = .ok ()
      from hr]
    change Meets (placeStaging _ _ _ _ _) _ (fs.rename (entryPath ns key) ⟨ns, .previous key old⟩).2
    generalize (fs.rename (entryPath ns key) ⟨ns, .previous key old⟩).2 = t at hmoved hgone hold
    have hdt : t.at? ⟨ns, .staging key token⟩ = some d := by
      rw [hmoved.same _ (by simp [entryPath]), hd]
    refine meets_step.mpr fun env _ => ?_
    obtain ⟨hr, hchanges, hstaging, hat⟩ :=
      hmoved.valid.rename hdt hgone (hmoved.valid.hasShard hdt rfl rfl)
    rw [show (FileOp.effect env t (.rename ⟨ns, .staging key token⟩ (entryPath ns key))).1 = .ok ()
      from hr]
    change Meets _ _ (t.rename ⟨ns, .staging key token⟩ (entryPath ns key)).2
    generalize (t.rename ⟨ns, .staging key token⟩ (entryPath ns key)).2 = u at hchanges hstaging hat
    have holdu : u.at? ⟨ns, .previous key old⟩ = some dF := by
      rw [hchanges.same _ (by simp [entryPath]), hold]
    refine meets_lift.mpr ((ensures_removeDirAll hchanges.valid holdu).mono fun r w hr => ?_)
    obtain ⟨_, hremoved, hnone⟩ := hr
    refine ⟨(), rfl, ?_, ?_, ?_⟩
    · have hall : Changes [⟨ns, .previous key old⟩, ⟨ns, .staging key token⟩, entryPath ns key]
          fs w := by
        refine ((hmoved.mono ?_).trans (hchanges.mono ?_)).trans (hremoved.mono ?_) <;>
          intro q hq <;> simp only [List.mem_cons, List.not_mem_nil, or_false] at hq ⊢ <;> tauto
      exact hall.restore (hnone.trans (hprevious old).symm)
    · rw [hremoved.same _ (by simp), hstaging]
    · rw [hremoved.same _ (by simp [entryPath]), hat]

theorem reads_openPublishedEntry {e : Content} {d : Directory}
    (hd : fs.at? (entryPath ns key) = some d) (he : Complete c ns key e d) :
    Reads (openPublishedEntry ns key (e.envelope c ns key)) fs (.ok (e.entry c ns key)) := by
  unfold Reads openPublishedEntry
  refine Meets.attempt (P := fun payload t => payload = e.payload ∧ t = fs)
    (ensures_step.mpr fun env _ => ?_) ?_
  · rw [show FileOp.effect env fs (.openPayload (entryPath ns key)) = (.ok e.payload, fs) from
      ask_some hd he.payload]
    exact ⟨_, rfl, rfl, rfl⟩
  · rintro _ t ⟨rfl, rfl⟩
    have hlength : ¬e.payload.length ≠ (e.envelope c ns key).payloadLen := not_not.mpr rfl
    rw [if_neg hlength]
    exact ⟨rfl, rfl⟩

/-- The JSON of an envelope, whose numbers have 64 bits, is no longer than metadata may
be. -/
def CacheService.Fits (c : CacheService) : Prop :=
  ∀ envelope : CacheEnvelope, envelope.payloadLen < u64Size →
    envelope.createdUnixMillis < u64Size → c.envelopeLength envelope ≤ maxMetadataBytes

/-- What a staged publication leaves: the final path holds the new entry. -/
theorem ensures_stage {lease : WriterLease} {token : Token} {bytes : List UInt8}
    {compatibility : CacheCompatibility} {process now : Nat} (h : fs.Valid)
    (hfits : c.Fits) (hbytes : InMemory bytes)
    (hheld : Held lease fs) (hprevious : NoPrevious fs ns key)
    (hd : fs.at? ⟨ns, .staging key token⟩ = some (Files.newDirectory process now)) :
    Ensures (stage c ⟨ns, .staging key token⟩ ns key compatibility
      (cursor copyBufferBytes bytes.length bytes) lease) (fun r t => ∃ created,
        r = (.ok (envelopeOf c ns key compatibility bytes created), lease) ∧
        Changes [leasePath lease.ns lease.key, ⟨ns, .staging key token⟩, entryPath ns key] fs t ∧
        Held lease t ∧ t.at? ⟨ns, .staging key token⟩ = none ∧
        ∃ d, t.at? (entryPath ns key) = some d ∧
          Complete c ns key ⟨compatibility, bytes, created⟩ d) fs := by
  have hne : (⟨ns, .staging key token⟩ : Path) ≠ leasePath lease.ns lease.key := by
    intro he
    cases he
  unfold stage
  refine ensures_andThen (ensures_writePayload h hne hbytes hheld hd) ?_
  rintro _ t ⟨rfl, hpayload, hheld, d, hdt, hp⟩
  refine ensures_bind.mpr (ensures_step.mpr fun env _ => ?_)
  rw [show FileOp.effect env t .now = (env.now, t) from rfl]
  have hcreated : unixMillis env.now < u64Size := by
    have hsize : 0 < u64Size := by decide
    unfold unixMillis
    omega
  generalize unixMillis env.now = created at hcreated
  refine ensures_andThen (ensures_keeping (meets_writeEnvelope (e := ⟨compatibility, bytes, created⟩)
    hpayload.valid hdt hp (hfits _ hbytes hcreated))) ?_
  rintro _ u ⟨hmetadata, d, hdu, hcomplete⟩
  have hheldu : Held lease u :=
    hheld.of_same (hmetadata.same _ fun hm => hne (List.mem_singleton.mp hm).symm)
  refine ensures_refreshed hmetadata.valid hheldu fun w hrefreshed hheld _ => ensures_checked ?_
  have hdw : w.at? ⟨ns, .staging key token⟩ = some d := by
    rw [hrefreshed.same _ fun hm => hne (List.mem_singleton.mp hm)]
    exact hdu
  have hbefore : Changes [leasePath lease.ns lease.key, ⟨ns, .staging key token⟩] fs w :=
    (hpayload.trans (hmetadata.mono fun q hq => List.mem_cons_of_mem _ hq)).trans
      (hrefreshed.mono fun q hq => List.mem_cons.mpr (.inl (List.mem_singleton.mp hq)))
  have hpreviousw : NoPrevious w ns key := fun old => by
    rw [hbefore.same _ (by simp [leasePath])]
    exact hprevious old
  refine ensures_andThen (ensures_keeping
    (meets_publishStaging hrefreshed.valid hdw hpreviousw)) ?_
  rintro _ x ⟨hpublished, hstaging, hfinal⟩
  refine ⟨created, rfl, ?_, ?_, hstaging, d, hfinal, hcomplete⟩
  · refine (hbefore.mono fun q hq => ?_).trans (hpublished.mono fun q hq => ?_) <;>
      simp only [List.mem_cons, List.not_mem_nil, or_false] at hq ⊢ <;> tauto
  · exact hheld.of_same (hpublished.same _ (by simp [leasePath, entryPath]))

/-- No directory of a key but the final one. -/
def Bare (fs : Files) (ns : CacheNamespace) (key : CacheKey) : Prop :=
  ∀ name : Name, name.key = key → name.isFinal = false → fs.at? ⟨ns, name⟩ = none

theorem HoldsAt.of_same {e : Option Content} {t : Files} (h : HoldsAt c fs ns key e)
    (hsame : t.at? (entryPath ns key) = fs.at? (entryPath ns key)) : HoldsAt c t ns key e := by
  cases e with
  | none => exact hsame.trans h
  | some e =>
    obtain ⟨d, hd, he⟩ := h
    exact ⟨d, hsame.trans hd, he⟩

/-- The entry that a publication would reuse. -/
def reusable (e : Option Content) (compatibility : CacheCompatibility) : Option Content :=
  e.filter fun x => x.compatibility = compatibility

theorem lookupResult_of_reusable {e : Option Content} {compatibility : CacheCompatibility}
    {x : Content} (h : reusable e compatibility = some x) :
    lookupResult c ns key compatibility e = .hit (x.entry c ns key) := by
  obtain ⟨rfl, hx⟩ := Option.filter_eq_some_iff.mp h
  exact if_pos (of_decide_eq_true hx)

theorem lookupResult_of_not_reusable {e : Option Content} {compatibility : CacheCompatibility}
    (h : reusable e compatibility = none) :
    ∃ reason, lookupResult c ns key compatibility e = .miss reason := by
  cases e with
  | none => exact ⟨_, rfl⟩
  | some x =>
    have hx : ¬x.compatibility = compatibility := fun he => by
      rw [reusable, Option.filter_some, if_pos (decide_eq_true he)] at h
      cases h
    exact ⟨_, if_neg hx⟩

/-- What a publication returns, and what it leaves at the final path. -/
def publication (c : CacheService) (ns : CacheNamespace) (key : CacheKey) (e : Option Content)
    (new : Content) : CachePublication × Content :=
  match reusable e new.compatibility with
  | some x => (.reused (x.entry c ns key), x)
  | none => (.published (new.entry c ns key), new)

theorem publication_of_reusable {e : Option Content} {new x : Content}
    (h : reusable e new.compatibility = some x) (hholds : HoldsAt c fs ns key e) :
    CachePublication.reused (x.entry c ns key) = (publication c ns key e new).1 ∧
      HoldsAt c fs ns key (publication c ns key e new).2 := by
  have hx : e = some x := (Option.filter_eq_some_iff.mp h).1
  rw [publication, h]
  exact ⟨rfl, hx ▸ hholds⟩

theorem ensures_publishLeased {lease : WriterLease} {bytes : List UInt8} {e : Option Content}
    {compatibility : CacheCompatibility} (h : fs.Valid)
    (hfits : c.Fits) (hbytes : InMemory bytes)
    (hheld : Held lease fs) (hprevious : NoPrevious fs ns key)
    (hstaging : ∀ token, fs.at? ⟨ns, .staging key token⟩ = none)
    (hshard : fs.hasShard (entryPath ns key) = true) (hholds : HoldsAt c fs ns key e) :
    Ensures (publishLeased c ns key compatibility (cursor copyBufferBytes bytes.length bytes) lease)
      (fun r t => ∃ a, r = (.ok a, lease) ∧ (∃ created,
        a = (publication c ns key e ⟨compatibility, bytes, created⟩).1 ∧
        HoldsAt c t ns key (publication c ns key e ⟨compatibility, bytes, created⟩).2) ∧
        Changes [leasePath lease.ns lease.key, entryPath ns key] fs t ∧ Held lease t) fs := by
  unfold publishLeased
  have hlookup := @reads_lookup c fs ns key compatibility .full e hholds hprevious
  refine ensures_reading hlookup ?_
  cases hreuse : reusable e compatibility with
  | some x =>
    rw [lookupResult_of_reusable hreuse]
    exact ⟨_, rfl, ⟨0, publication_of_reusable hreuse hholds⟩,
      h.changes.mono fun q hq => absurd hq List.not_mem_nil, hheld⟩
  | none =>
    obtain ⟨reason, hmiss⟩ := @lookupResult_of_not_reusable c ns key e compatibility hreuse
    rw [hmiss]
    refine ensures_andThen (ensures_keeping (meets_createStaging h hstaging hshard (by decide))) ?_
    rintro path u ⟨⟨token, rfl⟩, hcreated, process, now, hdu⟩
    have hheldu : Held lease u := hheld.of_same (hcreated.same _ (by simp [leasePath]))
    have hpreviousu : NoPrevious u ns key := fun old => by
      rw [hcreated.same _ (by simp)]
      exact hprevious old
    refine ensures_bind.mpr ((ensures_stage hcreated.valid hfits hbytes hheldu hpreviousu
      hdu).mono fun r w hr => ?_)
    obtain ⟨created, rfl, hstaged, hheld, hgone, d, hd, hcomplete⟩ := hr
    have hopen := reads_openPublishedEntry hd hcomplete
    have hpub : publication c ns key e ⟨compatibility, bytes, created⟩ =
        (.published (Content.entry ⟨compatibility, bytes, created⟩ c ns key),
          ⟨compatibility, bytes, created⟩) := by
      rw [publication, hreuse]
    refine ensures_reading hopen ?_
    refine ⟨_, rfl, ⟨created, ?_, ?_⟩, ?_, hheld⟩
    · rw [hpub]
    · rw [hpub]
      exact ⟨d, hd, hcomplete⟩
    · have hall : Changes [⟨ns, .staging key token⟩, leasePath lease.ns lease.key,
          entryPath ns key] fs w := by
        refine (hcreated.mono fun q hq => ?_).trans (hstaged.mono fun q hq => ?_) <;>
          simp only [List.mem_cons, List.not_mem_nil, or_false] at hq ⊢ <;> tauto
      exact hall.restore (hgone.trans (hstaging token).symm)

/-- A task under a lease, with the lease around it. -/
theorem meets_withLease {α : Type} {body : WriterLease → Task (Result α × WriterLease)}
    {P : α → Files → Prop} (h : fs.Valid) (hpolls : 0 < c.polls)
    (hshard : fs.hasShard (entryPath ns key) = true) (hbare : Bare fs ns key)
    (hP : ∀ a t u, P a t → Changes [leasePath ns key] t u → P a u)
    (hbody : ∀ lease t, lease.ns = ns → lease.key = key → Held lease t →
      Changes [leasePath ns key] fs t → Ensures (body lease) (fun r u => ∃ a, r = (.ok a, lease) ∧
        P a u ∧ Changes [leasePath lease.ns lease.key, entryPath ns key] t u ∧ Held lease u) t) :
    Meets (withLease c ns key body) (fun r t => ∃ a, r = .ok a ∧ P a t ∧
      Changes [entryPath ns key] fs t) fs := by
  have hlease : fs.at? (leasePath ns key) = none := hbare _ rfl rfl
  unfold withLease
  refine (meets_acquire h hpolls hlease hshard).bind ?_
  rintro lease t ⟨⟨rfl, rfl⟩, hheld, hacquired⟩
  refine meets_lift.mpr ((hbody lease t rfl rfl hheld hacquired).mono fun r u hr => ?_)
  obtain ⟨a, rfl, ha, hchanges, hheld⟩ := hr
  have hall : Changes [leasePath lease.ns lease.key, entryPath lease.ns lease.key] fs u :=
    (hacquired.mono fun q hq => List.mem_cons.mpr (.inl (List.mem_singleton.mp hq))).trans hchanges
  have hreap : ∀ token, u.at? ⟨lease.ns, .reap lease.key token⟩ = none := fun token => by
    rw [hall.same _ (by simp [leasePath, entryPath])]
    exact hbare _ rfl rfl
  refine meets_lift.mpr ((ensures_drop hall.valid hheld hreap).mono fun _ w hw => ?_)
  obtain ⟨hdropped, hgone⟩ := hw
  refine ⟨a, rfl, hP a u w ha hdropped, ?_⟩
  refine (hall.trans (hdropped.mono fun q hq => ?_)).restore (hgone.trans hlease.symm)
  exact List.mem_cons.mpr (.inl (List.mem_singleton.mp hq))

theorem hasShard_of_mem (h : (ns, shardOf key) ∈ fs.shards) :
    fs.hasShard (entryPath ns key) = true := List.contains_iff_mem.mpr h

/-- A call on a key creates the directory of its shard first. -/
theorem ensures_createShard (h : fs.Valid) :
    Ensures (step (.createShard ns (shardOf key))) (fun r t => ∃ u, r = .ok u ∧
      Changes [] fs t ∧ t.hasShard (entryPath ns key) = true) fs :=
  ensures_step.mpr fun env _ => by
    obtain ⟨hchanges, hmem⟩ := h.createShard env ns (shardOf key)
    exact ⟨(), rfl, hchanges, hasShard_of_mem hmem⟩

theorem Bare.of_changes {t : Files} (h : Bare fs ns key) (hchanges : Changes [] fs t) :
    Bare t ns key := fun name hkey hfinal =>
  (hchanges.same _ List.not_mem_nil).trans (h name hkey hfinal)

/-- **Publication.** An entry with the same compatibility is reused. Otherwise the final
path holds the new entry. Nothing else changes. -/
theorem meets_publishBytes {bytes : List UInt8} {e : Option Content}
    {compatibility : CacheCompatibility} (h : fs.Valid) (hpolls : 0 < c.polls)
    (hfits : c.Fits) (hbytes : InMemory bytes)
    (hbare : Bare fs ns key) (hholds : HoldsAt c fs ns key e) :
    Meets (publishBytes c ns key compatibility bytes) (fun r t => ∃ a, r = .ok a ∧ (∃ created,
        a = (publication c ns key e ⟨compatibility, bytes, created⟩).1 ∧
        HoldsAt c t ns key (publication c ns key e ⟨compatibility, bytes, created⟩).2) ∧
      Changes [entryPath ns key] fs t) fs := by
  unfold publishBytes publishReader
  refine Reads.bind (@reads_lookup c fs ns key compatibility .full e hholds
    fun token => hbare _ rfl rfl) ?_
  cases hreuse : reusable e compatibility with
  | some x =>
    rw [lookupResult_of_reusable hreuse]
    exact ⟨_, rfl, ⟨0, publication_of_reusable hreuse hholds⟩,
      h.changes.mono fun q hq => absurd hq List.not_mem_nil⟩
  | none =>
    obtain ⟨reason, hmiss⟩ := @lookupResult_of_not_reusable c ns key e compatibility hreuse
    rw [hmiss]
    refine Meets.attempt (ensures_createShard h) ?_
    rintro _ t ⟨hshards, hshard⟩
    have hbaret := hbare.of_changes hshards
    refine (meets_withLease (P := fun a u => ∃ created,
      a = (publication c ns key e ⟨compatibility, bytes, created⟩).1 ∧
      HoldsAt c u ns key (publication c ns key e ⟨compatibility, bytes, created⟩).2)
      hshards.valid hpolls hshard hbaret ?_ ?_).mono fun r u hr => ?_
    · rintro a u w ⟨created, ha, hholds⟩ hchanges
      exact ⟨created, ha, hholds.of_same (hchanges.same _ (by simp [leasePath, entryPath]))⟩
    · rintro lease u rfl rfl hheld hacquired
      have hbareu : ∀ name : Name, name.key = lease.key → name.isFinal = false →
          name ≠ .lease lease.key → u.at? ⟨lease.ns, name⟩ = none := fun name hkey hfinal hne => by
        rw [hacquired.same _ (by simpa [leasePath] using hne)]
        exact hbaret name hkey hfinal
      have hholdsu : HoldsAt c u lease.ns lease.key e := (hholds.of_same (hshards.same _
        List.not_mem_nil)).of_same (hacquired.same _ (by simp [leasePath, entryPath]))
      obtain ⟨d, hd, _⟩ := hheld.directory
      exact ensures_publishLeased hacquired.valid hfits hbytes hheld
        (fun token => hbareu _ rfl rfl nofun) (fun token => hbareu _ rfl rfl nofun)
        (hacquired.valid.hasShard hd rfl rfl) hholdsu
    · obtain ⟨a, rfl, ha, hchanges⟩ := hr
      exact ⟨a, rfl, ha, (hshards.mono fun q hq => absurd hq List.not_mem_nil).trans hchanges⟩

/-! ## Eviction -/

theorem meets_evictLeased {e : Option Content} {reason : EvictionReason} (h : fs.Valid)
    (hevicted : ∀ token, fs.at? ⟨ns, .evicted key token⟩ = none) (hholds : HoldsAt c fs ns key e) :
    Meets (evictLeased ns key reason) (fun r t => ∃ a, r = .ok a ∧
        a = (fs.at? (entryPath ns key)).map (fun d => ⟨ns, key, reason, d.size⟩) ∧
        t.at? (entryPath ns key) = none ∧ Changes [entryPath ns key] fs t) fs := by
  unfold evictLeased
  refine reads_checkCancelled.bind (meets_step.mpr fun env _ => ?_)
  cases e with
  | none =>
    have hnone : fs.at? (entryPath ns key) = none := hholds
    rw [show FileOp.effect env fs (.size (entryPath ns key)) = (.error .notFound, fs) from
      ask_none hnone, hnone]
    exact ⟨none, rfl, rfl, hnone, h.changes.mono fun q hq => absurd hq List.not_mem_nil⟩
  | some x =>
    obtain ⟨d, hd, _⟩ := hholds
    rw [show FileOp.effect env fs (.size (entryPath ns key)) = (.ok d.size, fs) from
      ask_some hd rfl, hd]
    refine reads_visitEntries.bind (meets_step.mpr fun env _ => ?_)
    rw [show FileOp.effect env fs .token = (env.token, fs) from rfl]
    generalize env.token = token
    refine meets_step.mpr fun env _ => ?_
    obtain ⟨hr, hmoved, hgone, hat⟩ := h.rename hd (hevicted token) (h.hasShard hd rfl rfl)
    rw [show (FileOp.effect env fs (.rename (entryPath ns key) ⟨ns, .evicted key token⟩)).1 =
      .ok () from hr]
    change Meets _ _ (fs.rename (entryPath ns key) ⟨ns, .evicted key token⟩).2
    generalize (fs.rename (entryPath ns key) ⟨ns, .evicted key token⟩).2 = u at hmoved hgone hat
    refine Meets.attempt (P := fun _ t => Changes [⟨ns, .evicted key token⟩] u t ∧
      t.at? ⟨ns, .evicted key token⟩ = none)
      ((ensures_removeDirAll hmoved.valid hat).mono fun r t hr => ⟨(), hr⟩) ?_
    rintro _ t ⟨hremoved, hnone⟩
    have hall : Changes [⟨ns, .evicted key token⟩, entryPath ns key] fs t := by
      refine (hmoved.mono fun q hq => ?_).trans (hremoved.mono fun q hq => ?_) <;>
        simp only [List.mem_cons, List.not_mem_nil, or_false] at hq ⊢ <;> tauto
    refine ⟨some ⟨ns, key, reason, d.size⟩, rfl, rfl, ?_,
      hall.restore (hnone.trans (hevicted token).symm)⟩
    rw [hremoved.same _ (by simp [entryPath])]
    exact hgone

/-- **Eviction.** The final path of the key is gone, and a record with the size of its
directory is returned exactly when there was one. Nothing else changes. -/
theorem meets_evict {e : Option Content} {reason : EvictionReason} (h : fs.Valid)
    (hpolls : 0 < c.polls) (hbare : Bare fs ns key) (hholds : HoldsAt c fs ns key e) :
    Meets (evict c ns key reason) (fun r t => ∃ a, r = .ok a ∧
        a = (fs.at? (entryPath ns key)).map (fun d => ⟨ns, key, reason, d.size⟩) ∧
        HoldsAt c t ns key none ∧ Changes [entryPath ns key] fs t) fs := by
  unfold evict
  refine Meets.attempt (ensures_createShard h) ?_
  rintro _ t ⟨hshards, hshard⟩
  have hbaret := hbare.of_changes hshards
  refine (meets_withLease (P := fun a u =>
    a = (fs.at? (entryPath ns key)).map (fun d => ⟨ns, key, reason, d.size⟩) ∧
    u.at? (entryPath ns key) = none) hshards.valid hpolls hshard hbaret ?_ ?_).mono fun r u hr => ?_
  · rintro a u w ⟨ha, hnone⟩ hchanges
    exact ⟨ha, (hchanges.same _ (by simp [leasePath, entryPath])).trans hnone⟩
  · rintro lease u rfl rfl hheld hacquired
    have hevicted : ∀ token, u.at? ⟨lease.ns, .evicted lease.key token⟩ = none := fun token => by
      rw [hacquired.same _ (by simp [leasePath])]
      exact hbaret _ rfl rfl
    have hsame : u.at? (entryPath lease.ns lease.key) = fs.at? (entryPath lease.ns lease.key) :=
      (hacquired.same _ (by simp [leasePath, entryPath])).trans (hshards.same _ List.not_mem_nil)
    refine (ensures_keeping (meets_evictLeased hacquired.valid hevicted
      (hholds.of_same hsame))).mono fun r w hr => ?_
    obtain ⟨a, rfl, ha, hnone, hchanges⟩ := hr
    rw [hsame] at ha
    exact ⟨a, rfl, ⟨ha, hnone⟩, hchanges.mono fun q hq => List.mem_cons_of_mem _ hq,
      hheld.of_same (hchanges.same _ (by simp [leasePath, entryPath]))⟩
  · obtain ⟨a, rfl, ⟨ha, hnone⟩, hchanges⟩ := hr
    exact ⟨a, rfl, ha, hnone,
      (hshards.mono fun q hq => absurd hq List.not_mem_nil).trans hchanges⟩

end ModelWeights.Cache
