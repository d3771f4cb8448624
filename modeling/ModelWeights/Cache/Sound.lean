import ModelWeights.Cache.Guarded
import ModelWeights.Cache.View

/-! # Sound directories

Whatever happens, in any order and with any failure: the metadata and the payload of
one directory belong together. Only a publisher writes them, into a staging directory
of its own, and all other steps move directories or remove files. -/
namespace ModelWeights.Cache
open Program Interference

/-- What a directory is for, by its name. -/
inductive Kind where
  | staging
  | entry
  | lease
  deriving DecidableEq

def Name.kind : Name → Kind
  | .staging _ _ => .staging
  | .final _ | .previous _ _ | .evicted _ _ => .entry
  | .lease _ | .reap _ _ => .lease

/-- Two paths of one key and one kind. -/
structure Path.Beside (p q : Path) : Prop where
  ns : p.ns = q.ns
  key : p.name.key = q.name.key
  kind : p.name.kind = q.name.kind

variable {Good : CacheEnvelope → List UInt8 → Prop} {fs t : Files} {path : Path} {inode : Nat}

/-- A directory whose metadata, if complete, describes a good payload, and its own
payload if it has one. -/
structure Directory.Sound (Good : CacheEnvelope → List UInt8 → Prop) (d : Directory) : Prop where
  described : ∀ e length, d.metadata = some (.envelope e length) → ∃ bytes, Good e bytes
  paired : ∀ e length bytes, d.metadata = some (.envelope e length) → d.payload = some bytes →
    Good e bytes

/-- An envelope of the entry that a path is for. -/
structure CacheEnvelope.Fits (e : CacheEnvelope) (path : Path) : Prop where
  ns : e.ns = path.ns
  key : e.key = path.name.key

structure Files.Sound (Good : CacheEnvelope → List UInt8 → Prop) (fs : Files) : Prop where
  valid : fs.Valid
  dirs : ∀ inode, (fs.dirs inode).Sound Good
  published : ∀ path inode bytes, path.name.kind = .entry → fs.names.get? path = some inode →
    (fs.dirs inode).payload = some bytes → ∃ e, Good e bytes ∧ e.Fits path

/-- The staging directories of some processes stay as they are. No directory becomes a
staging directory, and leases and entries are never confused. -/
structure Keeps (p : Nat → Prop) (fs t : Files) : Prop where
  kept : ∀ path inode, path.name.kind = .staging → fs.names.get? path = some inode →
    p (fs.dirs inode).creator → t.names.get? path = some inode ∧ t.dirs inode = fs.dirs inode
  origin : ∀ path inode, t.names.get? path = some inode → fs.next ≤ inode ∨
    ∃ q, fs.names.get? q = some inode ∧ (q.name.kind = path.name.kind ∨
      q.name.kind = .staging ∧ path.name.kind = .entry)
  creator : ∀ inode < fs.next, (t.dirs inode).creator = (fs.dirs inode).creator
  next : fs.next ≤ t.next

section Keeps
variable {p p' : Nat → Prop}

theorem Keeps.refl (p : Nat → Prop) (fs : Files) : Keeps p fs fs :=
  ⟨fun _ _ _ h _ => ⟨h, rfl⟩, fun path _ h => .inr ⟨path, h, .inl rfl⟩, fun _ _ => rfl,
    Nat.le_refl _⟩

theorem Keeps.mono (h : Keeps p fs t) (hp : ∀ n, p' n → p n) : Keeps p' fs t :=
  ⟨fun path inode hk hn hc => h.kept path inode hk hn (hp _ hc), h.origin, h.creator, h.next⟩

theorem Keeps.trans {u : Files} (h : Keeps p fs t) (h' : Keeps p t u) : Keeps p fs u := by
  refine ⟨fun path inode hk hn hc => ?_, fun path inode hn => ?_, fun inode hi => ?_,
    Nat.le_trans h.next h'.next⟩
  · obtain ⟨hn', hd⟩ := h.kept path inode hk hn hc
    obtain ⟨hn'', hd'⟩ := h'.kept path inode hk hn' (by rwa [hd])
    exact ⟨hn'', hd'.trans hd⟩
  · rcases h'.origin path inode hn with hnew | ⟨q, hq, hkind⟩
    · exact .inl (Nat.le_trans h.next hnew)
    · rcases h.origin q inode hq with hnew | ⟨q', hq', hkind'⟩
      · exact .inl hnew
      · refine .inr ⟨q', hq', ?_⟩
        rcases hkind' with hkind' | ⟨hstaging, hentry⟩
        · rw [hkind']
          exact hkind
        · rcases hkind with hkind | ⟨hstaging', _⟩
          · exact .inr ⟨hstaging, hkind ▸ hentry⟩
          · rw [hentry] at hstaging'
            cases hstaging'
  · exact (h'.creator inode (Nat.lt_of_lt_of_le hi h.next)).trans (h.creator inode hi)

end Keeps

/-- The protocol of one process. The others leave its staging directories alone, and it
leaves those of some of the others alone. -/
def soundProtocol (Good : CacheEnvelope → List UInt8 → Prop) (process : Nat)
    (others : Nat → Prop) : CacheProtocol where
  admits _ env _ := env.process = process
  inv := Files.Sound Good
  rely := Keeps (· = process)
  guarantee := Keeps others
  refl := Keeps.refl _
  trans h h' := h.trans h'

/-! ## Contents -/

variable {p : Nat → Prop}

/-- No staging directory of the processes in `p`. -/
def Free (p : Nat → Prop) (inode : Nat) (fs : Files) : Prop :=
  ∀ path, path.name.kind = .staging → fs.names.get? path = some inode →
    ¬p (fs.dirs inode).creator

theorem Files.Sound.setDir (h : fs.Sound Good) {d : Directory} (hd : d.Sound Good)
    (hpublished : ∀ path bytes, path.name.kind = .entry → fs.names.get? path = some inode →
      d.payload = some bytes → ∃ e, Good e bytes ∧ e.Fits path) :
    (fs.setDir inode d).Sound Good := by
  refine ⟨⟨h.valid.nodup, h.valid.shard, h.valid.fresh, h.valid.unique⟩, fun i => ?_,
    fun path i bytes hk hn hp => ?_⟩
  · show (if i = inode then d else fs.dirs i).Sound Good
    split
    · exact hd
    · exact h.dirs i
  · change (if i = inode then d else fs.dirs i).payload = some bytes at hp
    split at hp
    · next hi =>
      subst hi
      exact hpublished path bytes hk hn hp
    · exact h.published path i bytes hk hn hp

theorem keeps_setDir {d : Directory} (hcreator : d.creator = (fs.dirs inode).creator)
    (h : Free p inode fs) : Keeps p fs (fs.setDir inode d) := by
  refine ⟨fun path i hk hn hc => ⟨hn, ?_⟩, fun path i hn => .inr ⟨path, hn, .inl rfl⟩,
    fun i _ => ?_, Nat.le_refl _⟩
  · have hi : i ≠ inode := by
      rintro rfl
      exact h path hk hn hc
    exact if_neg hi
  · show (if i = inode then d else fs.dirs i).creator = _
    split
    · next hi => rw [hcreator, hi]
    · rfl

/-- A directory with the data of another one, or less. -/
structure Directory.Below (d d' : Directory) : Prop where
  creator : d.creator = d'.creator
  payload : ∀ bytes, d.payload = some bytes → d'.payload = some bytes
  metadata : ∀ e length, d.metadata = some (.envelope e length) →
    d'.metadata = some (.envelope e length)

theorem Directory.Below.sound {d d' : Directory} (h : d.Below d') (hd : d'.Sound Good) :
    d.Sound Good :=
  ⟨fun e length hm => hd.described e length (h.metadata e length hm),
    fun e length bytes hm hp => hd.paired e length bytes (h.metadata e length hm)
      (h.payload bytes hp)⟩

theorem Files.Sound.below (h : fs.Sound Good) {d : Directory} (hd : d.Below (fs.dirs inode)) :
    (fs.setDir inode d).Sound Good :=
  h.setDir (hd.sound (h.dirs inode)) fun path bytes hk hn hp =>
    h.published path inode bytes hk hn (hd.payload bytes hp)

theorem below_unlink {d : Directory} {file : File} {now : Nat} :
    (Files.stamp now (d.unlink file)).Below d := by
  cases file with
  | owner => exact ⟨rfl, fun _ h => h, fun _ _ h => h⟩
  | heartbeat => exact ⟨rfl, fun _ h => h, fun _ _ h => h⟩
  | payload => exact ⟨rfl, fun _ h => (by cases h), fun _ _ h => h⟩
  | metadata => exact ⟨rfl, fun _ h => h, fun _ _ h => (by cases h)⟩

/-- The directory at a path that is not a staging path is no staging directory. -/
theorem Files.Valid.free (h : fs.Valid) (hn : fs.names.get? path = some inode)
    (hk : path.name.kind ≠ .staging) : Free p inode fs := by
  intro q hq hqn
  obtain rfl := h.unique q path inode hqn hn
  exact absurd hq hk

theorem Files.Sound.change {α : Type} (h : fs.Sound Good) (hk : path.name.kind ≠ .staging)
    {f : Nat → Directory → IoResult (α × Directory)}
    (hf : ∀ i d a d', f i d = .ok (a, d') → d'.Below d) :
    (fs.change path f).2.Sound Good ∧ Keeps p fs (fs.change path f).2 := by
  rw [Files.change]
  split
  · exact ⟨h, .refl p fs⟩
  · next i hi =>
    split
    · exact ⟨h, .refl p fs⟩
    · next a d hd =>
      have hbelow := hf i _ a d hd
      exact ⟨h.below hbelow, keeps_setDir hbelow.creator (h.valid.free hi hk)⟩

theorem Files.Sound.unlink (h : fs.Sound Good) (hfree : Free p inode fs) (env : Env) (file : File) :
    (FileOp.eval (.unlink inode file) env fs).2.Sound Good ∧
      Keeps p fs (FileOp.eval (.unlink inode file) env fs).2 := by
  rw [FileOp.eval]
  split
  · exact ⟨h, .refl p fs⟩
  · rw [FileOp.effect]
    split
    · exact ⟨h.below below_unlink, keeps_setDir below_unlink.creator hfree⟩
    · exact ⟨h, .refl p fs⟩

theorem unlink_names (env : Env) (file : File) :
    (FileOp.eval (.unlink inode file) env fs).2.names = fs.names := by
  rw [FileOp.eval]
  split
  · rfl
  · rw [FileOp.effect]
    split <;> rfl

/-! ## Names -/

theorem Files.Sound.createShard (h : fs.Sound Good) (env : Env) (ns : CacheNamespace)
    (shard : UInt8) : (FileOp.effect env fs (.createShard ns shard)).2.Sound Good ∧
      Keeps p fs (FileOp.effect env fs (.createShard ns shard)).2 := by
  have hvalid := (h.valid.createShard env ns shard).1.valid
  rw [FileOp.effect] at hvalid ⊢
  by_cases hm : (ns, shard) ∈ fs.shards
  · rw [if_pos hm]
    exact ⟨h, .refl p fs⟩
  · rw [if_neg hm] at hvalid ⊢
    exact ⟨⟨hvalid, h.dirs, h.published⟩, ⟨fun _ _ _ hn _ => ⟨hn, rfl⟩,
      fun path _ hn => .inr ⟨path, hn, .inl rfl⟩, fun _ _ => rfl, Nat.le_refl _⟩⟩

theorem Files.Sound.createDir (h : fs.Sound Good) (process now : Nat) (path : Path) :
    (fs.createDir process now path).2.Sound Good ∧
      Keeps p fs (fs.createDir process now path).2 := by
  rw [Files.createDir]
  split
  · exact ⟨h, .refl p fs⟩
  · next hshard =>
    split
    · exact ⟨h, .refl p fs⟩
    · next hnone =>
      have hget : ∀ q, (fs.names.insert path fs.next).get? q =
          if q = path then some fs.next else fs.names.get? q :=
        fun q => OrderedMap.get?_insert fs.names path q fs.next
      have hold : ∀ {q i}, (fs.names.insert path fs.next).get? q = some i →
          i = fs.next ∨ fs.names.get? q = some i := by
        intro q i hq
        rw [hget] at hq
        split at hq
        · exact .inl (Option.some.inj hq).symm
        · exact .inr hq
      have hvalid := (h.valid.shows.insert (not_not.mp hshard)
        (Files.newDirectory process now)).valid
      refine ⟨⟨hvalid, fun i => ?_, fun q i bytes hk hn hp => ?_⟩, ⟨fun q i hk hn _ => ?_,
        fun q i hn => ?_, fun i hi => ?_, Nat.le_succ _⟩⟩
      · show (if i = fs.next then Files.newDirectory process now else fs.dirs i).Sound Good
        split
        · exact ⟨fun _ _ hm => (by cases hm), fun _ _ _ hm => (by cases hm)⟩
        · exact h.dirs i
      · change (if i = fs.next then Files.newDirectory process now else fs.dirs i).payload =
          some bytes at hp
        split at hp
        · cases hp
        · next hi => exact h.published q i bytes hk ((hold hn).resolve_left hi) hp
      · have hq : q ≠ path := by
          rintro rfl
          rw [hn] at hnone
          exact hnone rfl
        refine ⟨(hget q).trans ((if_neg hq).trans hn), ?_⟩
        exact if_neg (Nat.ne_of_lt (h.valid.fresh q i hn))
      · rcases hold hn with rfl | hn
        · exact .inl (Nat.le_refl _)
        · exact .inr ⟨q, hn, .inl rfl⟩
      · exact congrArg Directory.creator (if_neg (Nat.ne_of_lt hi))

theorem Files.Sound.removeDir (h : fs.Sound Good)
    (hpath : path.name.kind = .staging → ∀ inode, fs.names.get? path = some inode →
      ¬p (fs.dirs inode).creator) :
    (fs.removeDir path).2.Sound Good ∧ Keeps p fs (fs.removeDir path).2 := by
  rw [Files.removeDir]
  split
  · exact ⟨h, .refl p fs⟩
  · next inode hi =>
    split
    · exact ⟨h, .refl p fs⟩
    · have hold : ∀ {q i}, (fs.names.erase path).get? q = some i → fs.names.get? q = some i := by
        intro q i hq
        rw [OrderedMap.get?_erase] at hq
        split at hq
        · cases hq
        · exact hq
      refine ⟨⟨(h.valid.shows.erase path).valid, h.dirs,
        fun q i bytes hk hn => h.published q i bytes hk (hold hn)⟩,
        ⟨fun q i hk hn hc => ⟨?_, rfl⟩, fun q i hn => .inr ⟨q, hold hn, .inl rfl⟩,
          fun _ _ => rfl, Nat.le_refl _⟩⟩
      have hq : q ≠ path := by
        rintro rfl
        exact hpath hk i hn hc
      show (fs.names.erase path).get? q = some i
      rw [OrderedMap.get?_erase, if_neg hq]
      exact hn

/-- A directory moves to a path that is no staging path. -/
theorem Files.Sound.move (h : fs.Sound Good) {source destination : Path}
    (hs : fs.names.get? source = some inode) (hshard : fs.hasShard destination = true)
    (hkind : source.Beside destination ∧ source.name.kind ≠ .staging ∨
      source.name.kind = .staging ∧ destination.name.kind = .entry ∧
        ¬p (fs.dirs inode).creator ∧ ∃ e length, e.Fits destination ∧
          (fs.dirs inode).metadata = some (.envelope e length)) :
    let moved : Files := { fs with names := (fs.names.erase source).insert destination inode }
    moved.Sound Good ∧ Keeps p fs moved := by
  have hget : ∀ q, ((fs.names.erase source).insert destination inode).get? q =
      if q = destination then some inode else if q = source then none else fs.names.get? q := by
    intro q
    rw [OrderedMap.get?_insert, OrderedMap.get?_erase]
  have hold : ∀ {q i}, ((fs.names.erase source).insert destination inode).get? q = some i →
      q = destination ∧ i = inode ∨ fs.names.get? q = some i := by
    intro q i hq
    rw [hget] at hq
    split at hq
    · next he => exact .inl ⟨he, (Option.some.inj hq).symm⟩
    · split at hq
      · cases hq
      · exact .inr hq
  refine ⟨⟨(h.valid.shows.move hs hshard).valid, h.dirs, fun q i bytes hk hn hp => ?_⟩,
    ⟨fun q i hk hn hc => ⟨?_, rfl⟩, fun q i hn => ?_, fun _ _ => rfl, Nat.le_refl _⟩⟩
  · rcases hold hn with ⟨rfl, rfl⟩ | hn
    · rcases hkind with ⟨hbeside, _⟩ | ⟨_, _, _, e, length, hfits, hm⟩
      · obtain ⟨e, hgood, hfits⟩ := h.published source i bytes (hbeside.kind.trans hk) hs hp
        exact ⟨e, hgood, hfits.ns.trans hbeside.ns, hfits.key.trans hbeside.key⟩
      · exact ⟨e, (h.dirs i).paired e length bytes hm hp, hfits⟩
    · exact h.published q i bytes hk hn hp
  · have hsource : q ≠ source := by
      rintro rfl
      rcases hkind with ⟨_, hkind⟩ | ⟨_, _, hcreator, _⟩
      · exact hkind hk
      · rw [hs] at hn
        rw [Option.some.inj hn] at hcreator
        exact hcreator hc
    have hdestination : q ≠ destination := by
      rintro rfl
      rcases hkind with ⟨hbeside, hne⟩ | ⟨_, hentry, _⟩
      · exact hne (hbeside.kind.trans hk)
      · rw [hk] at hentry
        cases hentry
    exact (hget q).trans ((if_neg hdestination).trans ((if_neg hsource).trans hn))
  · rcases hold hn with ⟨rfl, rfl⟩ | hn
    · refine .inr ⟨source, hs, ?_⟩
      rcases hkind with ⟨hbeside, _⟩ | ⟨hstaging, hentry, _⟩
      · exact .inl hbeside.kind
      · exact .inr ⟨hstaging, hentry⟩
    · exact .inr ⟨q, hn, .inl rfl⟩

theorem Files.Sound.rename (h : fs.Sound Good) {source destination : Path}
    (hkind : ∀ inode, fs.names.get? source = some inode →
      source.Beside destination ∧ source.name.kind ≠ .staging ∨
      source.name.kind = .staging ∧ destination.name.kind = .entry ∧
        ¬p (fs.dirs inode).creator ∧ ∃ e length, e.Fits destination ∧
          (fs.dirs inode).metadata = some (.envelope e length)) :
    (fs.rename source destination).2.Sound Good ∧
      Keeps p fs (fs.rename source destination).2 := by
  rw [Files.rename]
  split
  · exact ⟨h, .refl p fs⟩
  · next inode hi =>
    split
    · split
      · exact ⟨h, .refl p fs⟩
      · next hshard => exact h.move hi (not_not.mp hshard) (hkind inode hi)
    · next other ho =>
      split
      · exact ⟨h, .refl p fs⟩
      · split
        · exact ⟨h, .refl p fs⟩
        · exact h.move hi (h.valid.shard destination other ho) (hkind inode hi)

end ModelWeights.Cache
