import ModelWeights.Cache.Publication

/-! # What a writer lease excludes

The lease of a key is a directory, held by the process that created it. As long as no
lease is judged stale, nobody takes the lease of another process away, and only its
holder touches the entry of the key, the generations it replaces and those it evicts.
The entry of a pinned key, once there, stays as it is. -/
namespace ModelWeights.Cache
open Program Interference

/-- The keys that only one compatibility is published for and that nobody evicts. -/
abbrev Pins := CacheNamespace → CacheKey → Option CacheCompatibility

/-- The process that created the lease of a key holds it. -/
def Holds (process : Nat) (ns : CacheNamespace) (key : CacheKey) (fs : Files) : Prop :=
  ∃ inode, fs.names.get? (leasePath ns key) = some inode ∧ (fs.dirs inode).creator = process

/-- The directories of a key that a lookup may read are the same. -/
structure SameEntries (ns : CacheNamespace) (key : CacheKey) (fs t : Files) : Prop where
  names : ∀ path, Serves ns key path → t.names.get? path = fs.names.get? path
  dirs : ∀ path inode, Serves ns key path → fs.names.get? path = some inode →
    t.dirs inode = fs.dirs inode

/-- A directory in which a lookup finds `bytes` under the envelope `e`. -/
structure Directory.Complete (sha256 : List UInt8 → ContentDigest) (ns : CacheNamespace)
    (key : CacheKey) (compatibility : CacheCompatibility) (e : CacheEnvelope)
    (bytes : List UInt8) (d : Directory) : Prop where
  metadata : ∃ length, d.metadata = some (.envelope e length) ∧ length ≤ maxMetadataBytes
  requested : envelopeMiss ns key compatibility e = none
  payload : d.payload = some bytes
  length : bytes.length = e.payloadLen
  digest : sha256 bytes = e.payloadDigest

/-- A step that judges a lease stale. -/
def FileOp.Judges (env : Env) (fs : Files) : FileOp → Prop
  | .heartbeatOld path age => (FileOp.eval (.heartbeatOld path age) env fs).1 = .ok true
  | .modifiedOld path age => (FileOp.eval (.modifiedOld path age) env fs).1 = .ok true
  | _ => False

/-- What the other processes may do. -/
structure Spares (pins : Pins) (process : Nat) (fs t : Files) : Prop where
  held : ∀ ns key, Holds process ns key fs → Holds process ns key t
  entries : ∀ ns key, Holds process ns key fs → SameEntries ns key fs t
  pinned : ∀ ns key, pins ns key ≠ none → fs.names.get? (entryPath ns key) ≠ none →
    SameEntries ns key fs t
  leases : ∀ ns key inode, t.names.get? (leasePath ns key) = some inode →
    fs.names.get? (leasePath ns key) = some inode ∨ fs.next ≤ inode
  next : fs.next ≤ t.next

/-- What a process does. -/
structure Respects (pins : Pins) (process : Nat) (fs t : Files) : Prop where
  held : ∀ other ns key, other ≠ process → Holds other ns key fs → Holds other ns key t
  entries : ∀ ns key, Holds process ns key fs ∨ SameEntries ns key fs t
  pinned : ∀ ns key, pins ns key ≠ none → fs.names.get? (entryPath ns key) ≠ none →
    SameEntries ns key fs t
  leases : ∀ ns key inode, t.names.get? (leasePath ns key) = some inode →
    fs.names.get? (leasePath ns key) = some inode ∨ fs.next ≤ inode
  next : fs.next ≤ t.next

/-- A pinned key has an entry that lookups find, or none, and no other directories. -/
def Files.Pinned (pins : Pins) (sha256 : List UInt8 → ContentDigest) (fs : Files) : Prop :=
  ∀ ns key compatibility, pins ns key = some compatibility → ∀ path inode, Serves ns key path →
    fs.names.get? path = some inode → path = entryPath ns key ∧
      ∃ e bytes, (fs.dirs inode).Complete sha256 ns key compatibility e bytes

section Relations
variable {pins : Pins} {process other : Nat} {ns : CacheNamespace} {key : CacheKey}
  {fs t u : Files}

theorem SameEntries.refl : SameEntries ns key fs fs := ⟨fun _ _ => rfl, fun _ _ _ _ => rfl⟩

theorem SameEntries.trans (h : SameEntries ns key fs t) (h' : SameEntries ns key t u) :
    SameEntries ns key fs u := by
  refine ⟨fun path hp => (h'.names path hp).trans (h.names path hp), fun path inode hp hn => ?_⟩
  rw [← h.dirs path inode hp hn]
  exact h'.dirs path inode hp ((h.names path hp).trans hn)

theorem Holds.unique (h : Holds process ns key fs) (h' : Holds other ns key fs) : process = other := by
  obtain ⟨inode, hn, rfl⟩ := h
  obtain ⟨inode', hn', rfl⟩ := h'
  rw [Option.some.inj (hn.symm.trans hn')]

theorem serves_entryPath : Serves ns key (entryPath ns key) := ⟨rfl, rfl, rfl⟩

theorem Spares.refl (pins : Pins) (process : Nat) (fs : Files) : Spares pins process fs fs :=
  ⟨fun _ _ h => h, fun _ _ _ => .refl, fun _ _ _ _ => .refl, fun _ _ _ h => .inl h, Nat.le_refl _⟩

theorem Spares.trans (h : Spares pins process fs t) (h' : Spares pins process t u) :
    Spares pins process fs u where
  held ns key hh := h'.held ns key (h.held ns key hh)
  entries ns key hh := (h.entries ns key hh).trans (h'.entries ns key (h.held ns key hh))
  pinned ns key hp hn := by
    have hsame := h.pinned ns key hp hn
    refine hsame.trans (h'.pinned ns key hp ?_)
    rwa [hsame.names _ serves_entryPath]
  leases ns key inode hn := by
    rcases h'.leases ns key inode hn with hold | hnew
    · exact h.leases ns key inode hold
    · exact .inr (Nat.le_trans h.next hnew)
  next := Nat.le_trans h.next h'.next

/-- What one process does, the others may rely on. -/
theorem Respects.spares (h : Respects pins process fs t) (hne : other ≠ process) :
    Spares pins other fs t where
  held ns key := h.held other ns key hne
  entries ns key hh := (h.entries ns key).resolve_left fun hp => hne (hh.unique hp)
  pinned := h.pinned
  leases := h.leases
  next := h.next

/-- A step that changes neither names nor data. -/
theorem respects_same (hnames : t.names = fs.names) (hdirs : t.dirs = fs.dirs)
    (hnext : fs.next ≤ t.next) : Respects pins process fs t where
  held other ns key _ h := by
    obtain ⟨inode, hn, hc⟩ := h
    exact ⟨inode, by rw [hnames, hn], by rw [hdirs, hc]⟩
  entries _ _ := .inr ⟨fun _ _ => by rw [hnames], fun _ _ _ _ => by rw [hdirs]⟩
  pinned _ _ _ _ := ⟨fun _ _ => by rw [hnames], fun _ _ _ _ => by rw [hdirs]⟩
  leases _ _ inode hn := .inl (by rwa [hnames] at hn)
  next := hnext

theorem Respects.refl : Respects pins process fs fs := respects_same rfl rfl (Nat.le_refl _)

end Relations

/-- The protocol of one process: the others spare what it holds, and it respects what they
hold. No step judges a lease stale. -/
def leaseProtocol (pins : Pins) (sha256 : List UInt8 → ContentDigest) (process : Nat) :
    CacheProtocol where
  admits o env fs := ¬o.Judges env fs
  inv := Files.Pinned pins sha256
  rely := Spares pins process
  guarantee := Respects pins process
  refl := Spares.refl pins process
  trans h h' := h.trans h'

/-- A process among others. -/
structure Contender where
  pins : Pins
  sha256 : List UInt8 → ContentDigest
  Good : CacheEnvelope → List UInt8 → Prop
  process : Nat
  others : Nat → Prop
  apart : ¬others process

/-- What a process that keeps directories sound has to show for the leases. -/
def Contender.protocol (x : Contender) : CacheProtocol :=
  (leaseProtocol x.pins x.sha256 x.process).over FileOp.eval (soundProtocol x.Good x.process x.others)

/-! ## Steps -/

section Steps
variable {pins : Pins} {sha256 : List UInt8 → ContentDigest} {process : Nat} {ns : CacheNamespace}
  {key : CacheKey} {fs t : Files} {path source destination : Path} {inode : Nat}

/-- The process may write into a directory: it is no entry, or one under its lease. -/
def Writable (pins : Pins) (process inode : Nat) (fs : Files) : Prop :=
  ∀ path, fs.names.get? path = some inode → path.name.kind = .entry →
    Holds process path.ns path.name.key fs ∧ pins path.ns path.name.key = none

theorem Writable.entry (h : Writable pins process inode fs) (hpath : Serves ns key path)
    (hn : fs.names.get? path = some inode) : Holds process ns key fs ∧ pins ns key = none := by
  obtain ⟨rfl, rfl, hkind⟩ := hpath
  exact h path hn hkind

/-- The directory at a path that is no entry. -/
theorem Files.Valid.writable (h : fs.Valid) (hn : fs.names.get? path = some inode)
    (hk : path.name.kind ≠ .entry) : Writable pins process inode fs := by
  intro q hq hkind
  obtain rfl := h.unique q path inode hq hn
  exact absurd hkind hk

theorem Writable.setDir (h : Writable pins process inode fs) {d : Directory}
    (hcreator : d.creator = (fs.dirs inode).creator) :
    Respects pins process fs (fs.setDir inode d) := by
  have hdirs : ∀ i, i ≠ inode → (fs.setDir inode d).dirs i = fs.dirs i := fun i hi => if_neg hi
  have hcreators : ∀ i, ((fs.setDir inode d).dirs i).creator = (fs.dirs i).creator := by
    intro i
    by_cases hi : i = inode
    · subst hi
      exact (congrArg Directory.creator (if_pos rfl)).trans hcreator
    · rw [hdirs i hi]
  have hsame : ∀ ns key, ¬(Holds process ns key fs ∧ pins ns key = none) →
      SameEntries ns key fs (fs.setDir inode d) := fun ns key hnot =>
    ⟨fun _ _ => rfl, fun path i hpath hn => hdirs i fun hi => hnot (h.entry hpath (hi ▸ hn))⟩
  refine ⟨fun other ns key _ hh => ?_, fun ns key => ?_, fun ns key hp _ => ?_,
    fun _ _ _ hn => .inl hn, Nat.le_refl _⟩
  · obtain ⟨i, hn, hc⟩ := hh
    exact ⟨i, hn, (hcreators i).trans hc⟩
  · by_cases hh : Holds process ns key fs
    · exact .inl hh
    · exact .inr (hsame ns key fun hboth => hh hboth.1)
  · exact hsame ns key fun hboth => hp hboth.2

theorem Files.Pinned.setDir (h : fs.Pinned pins sha256) (hw : Writable pins process inode fs)
    (d : Directory) : (fs.setDir inode d).Pinned pins sha256 := by
  intro ns key compatibility hpin path i hpath hn
  obtain ⟨he, e, bytes, hcomplete⟩ := h ns key compatibility hpin path i hpath hn
  have hi : i ≠ inode := by
    rintro rfl
    have hnone := (hw.entry hpath hn).2
    rw [hpin] at hnone
    cases hnone
  exact ⟨he, e, bytes, by rwa [show (fs.setDir inode d).dirs i = fs.dirs i from if_neg hi]⟩

/-- A new directory that is no entry. -/
theorem respects_createDir (hvalid : fs.Valid) (hk : path.name.kind ≠ .entry) (creator now : Nat) :
    Respects pins process fs (fs.createDir creator now path).2 ∧
      (fs.Pinned pins sha256 → (fs.createDir creator now path).2.Pinned pins sha256) := by
  rw [Files.createDir]
  split
  · exact ⟨.refl, id⟩
  · split
    · exact ⟨.refl, id⟩
    · next hnone =>
      have hget : ∀ q, (fs.names.insert path fs.next).get? q =
          if q = path then some fs.next else fs.names.get? q :=
        fun q => OrderedMap.get?_insert fs.names path q fs.next
      have hdirs : ∀ {q i}, fs.names.get? q = some i →
          (fs.setDir fs.next (Files.newDirectory creator now)).dirs i = fs.dirs i :=
        fun hn => if_neg (Nat.ne_of_lt (hvalid.fresh _ _ hn))
      have hserves : ∀ {ns key q}, Serves ns key q →
          (fs.names.insert path fs.next).get? q = fs.names.get? q := by
        intro ns key q hq
        rw [hget, if_neg]
        rintro rfl
        exact hk hq.kind
      refine ⟨⟨fun other ns key _ hh => ?_, fun ns key => .inr ⟨fun _ hq => hserves hq,
        fun _ _ _ hn => hdirs hn⟩, fun ns key _ _ => ⟨fun _ hq => hserves hq,
        fun _ _ _ hn => hdirs hn⟩, fun ns key i hn => ?_, Nat.le_succ _⟩,
        fun h ns key compatibility hpin q i hq hn => ?_⟩
      · obtain ⟨i, hn, hc⟩ := hh
        refine ⟨i, ?_, (congrArg Directory.creator (hdirs hn)).trans hc⟩
        refine (hget _).trans (Eq.trans (if_neg ?_) hn)
        rintro rfl
        rw [hn] at hnone
        exact hnone rfl
      · change (fs.names.insert path fs.next).get? _ = _ at hn
        rw [hget] at hn
        split at hn
        · exact .inr (Nat.le_of_eq (Option.some.inj hn))
        · exact .inl hn
      · change (fs.names.insert path fs.next).get? q = _ at hn
        rw [hserves hq] at hn
        obtain ⟨he, e, bytes, hcomplete⟩ := h ns key compatibility hpin q i hq hn
        refine ⟨he, e, bytes, ?_⟩
        show Directory.Complete _ _ _ _ _ _ ((fs.setDir fs.next _).dirs i)
        rwa [hdirs hn]

/-- A path that the process may take a directory away from. -/
inductive Takes (pins : Pins) (process : Nat) (fs : Files) (path : Path) : Prop where
  | staging : path.name.kind = .staging → Takes pins process fs path
  | reap : path.name.kind = .lease → (∀ ns key, path ≠ leasePath ns key) →
      Takes pins process fs path
  | lease (ns : CacheNamespace) (key : CacheKey) : path = leasePath ns key →
      Holds process ns key fs → Takes pins process fs path
  | entry : path.name.kind = .entry → Holds process path.ns path.name.key fs →
      pins path.ns path.name.key = none → Takes pins process fs path

theorem Takes.entry_cases (h : Takes pins process fs path) (hpath : Serves ns key path) :
    Holds process ns key fs ∧ pins ns key = none := by
  obtain ⟨rfl, rfl, hkind⟩ := hpath
  cases h with
  | staging hk | reap hk _ => rw [hkind] at hk; cases hk
  | lease ns key he _ => rw [he] at hkind; cases hkind
  | entry _ hh hp => exact ⟨hh, hp⟩

theorem Takes.lease_cases (h : Takes pins process fs (leasePath ns key)) :
    Holds process ns key fs := by
  cases h with
  | staging hk | entry hk _ _ => cases hk
  | reap _ hne => exact absurd rfl (hne ns key)
  | lease ns' key' he hh =>
    obtain ⟨rfl, hname⟩ := Path.mk.inj he
    obtain rfl := Name.lease.inj hname
    exact hh

/-- A name is taken away. -/
theorem Takes.removeDir (h : Takes pins process fs path) :
    Respects pins process fs (fs.removeDir path).2 ∧
      (fs.Pinned pins sha256 → (fs.removeDir path).2.Pinned pins sha256) := by
  rw [Files.removeDir]
  split
  · exact ⟨.refl, id⟩
  · split
    · exact ⟨.refl, id⟩
    · have hget : ∀ q, (fs.names.erase path).get? q = if q = path then none else fs.names.get? q :=
        fun q => OrderedMap.get?_erase fs.names path q
      have hold : ∀ {q i}, (fs.names.erase path).get? q = some i → fs.names.get? q = some i := by
        intro q i hq
        rw [hget] at hq
        split at hq
        · cases hq
        · exact hq
      have hserves : ∀ {ns key}, ¬(Holds process ns key fs ∧ pins ns key = none) →
          SameEntries ns key fs { fs with names := fs.names.erase path } := by
        intro ns key hnot
        refine ⟨fun q hq => (hget q).trans (if_neg ?_), fun _ _ _ _ => rfl⟩
        rintro rfl
        exact hnot (h.entry_cases hq)
      refine ⟨⟨fun other ns key hne hh => ?_, fun ns key => ?_, fun ns key hp _ => ?_,
        fun _ _ _ hn => .inl (hold hn), Nat.le_refl _⟩, fun hpinned ns key compatibility hpin q i hq hn =>
          hpinned ns key compatibility hpin q i hq (hold hn)⟩
      · obtain ⟨i, hn, hc⟩ := hh
        refine ⟨i, (hget _).trans (Eq.trans (if_neg ?_) hn), hc⟩
        rintro rfl
        exact hne (Holds.unique ⟨i, hn, hc⟩ h.lease_cases)
      · by_cases hh : Holds process ns key fs
        · exact .inl hh
        · exact .inr (hserves fun hboth => hh hboth.1)
      · exact hserves fun hboth => hp hboth.2

/-- A path that the process may put a directory at. -/
inductive Gives (pins : Pins) (sha256 : List UInt8 → ContentDigest) (process : Nat) (fs : Files)
    (source path : Path) : Prop where
  | reap : path.name.kind = .lease → (∀ ns key, path ≠ leasePath ns key) →
      Gives pins sha256 process fs source path
  | entry : path.name.kind = .entry → Holds process path.ns path.name.key fs →
      (∀ compatibility, pins path.ns path.name.key = some compatibility →
        fs.names.get? path = none ∧ path = entryPath path.ns path.name.key ∧
        ∀ inode, fs.names.get? source = some inode → ∃ e bytes,
          (fs.dirs inode).Complete sha256 path.ns path.name.key compatibility e bytes) →
      Gives pins sha256 process fs source path

theorem respects_rename (hs : Takes pins process fs source)
    (hd : Gives pins sha256 process fs source destination) :
    Respects pins process fs (fs.rename source destination).2 ∧
      (fs.Pinned pins sha256 → (fs.rename source destination).2.Pinned pins sha256) := by
  have hmoved : ∀ inode, fs.names.get? source = some inode →
      Respects pins process fs
          { fs with names := (fs.names.erase source).insert destination inode } ∧
        (fs.Pinned pins sha256 → Files.Pinned pins sha256
          { fs with names := (fs.names.erase source).insert destination inode }) := by
    intro inode hi
    have hget : ∀ q, ((fs.names.erase source).insert destination inode).get? q =
        if q = destination then some inode else if q = source then none else fs.names.get? q := by
      intro q
      rw [OrderedMap.get?_insert, OrderedMap.get?_erase]
    have hother : ∀ {q}, q ≠ destination → q ≠ source →
        ((fs.names.erase source).insert destination inode).get? q = fs.names.get? q := by
      intro q hqd hqs
      rw [hget, if_neg hqd, if_neg hqs]
    have hold : ∀ {q i}, ((fs.names.erase source).insert destination inode).get? q = some i →
        q = destination ∧ i = inode ∨ fs.names.get? q = some i := by
      intro q i hq
      rw [hget] at hq
      split at hq
      · next he => exact .inl ⟨he, (Option.some.inj hq).symm⟩
      · split at hq
        · cases hq
        · exact .inr hq
    have hlease : ∀ ns key, leasePath ns key ≠ destination := by
      rintro ns key rfl
      cases hd with
      | reap _ hne => exact hne ns key rfl
      | entry hk _ _ => cases hk
    refine ⟨⟨fun other ns key hne hh => ?_, fun ns key => ?_, fun ns key hp hn => ?_,
      fun ns key i hn => ?_, Nat.le_refl _⟩, fun hpinned ns key compatibility hpin q i hq hn => ?_⟩
    · obtain ⟨i, hn, hc⟩ := hh
      refine ⟨i, (hother (hlease ns key) ?_).trans hn, hc⟩
      rintro rfl
      exact hne (Holds.unique ⟨i, hn, hc⟩ hs.lease_cases)
    · by_cases hh : Holds process ns key fs
      · exact .inl hh
      · refine .inr ⟨fun q hq => hother ?_ ?_, fun _ _ _ _ => rfl⟩
        · rintro rfl
          obtain ⟨rfl, rfl, hkind⟩ := hq
          cases hd with
          | reap hk _ => rw [hkind] at hk; cases hk
          | entry _ hh' _ => exact hh hh'
        · rintro rfl
          exact hh (hs.entry_cases hq).1
    · refine ⟨fun q hq => hother ?_ ?_, fun _ _ _ _ => rfl⟩
      · rintro rfl
        obtain ⟨rfl, rfl, hkind⟩ := hq
        cases hd with
        | reap hk _ => rw [hkind] at hk; cases hk
        | entry _ _ hvacant =>
          obtain ⟨compatibility, hc⟩ := Option.ne_none_iff_exists'.mp hp
          obtain ⟨hnone, hpath, _⟩ := hvacant compatibility hc
          rw [hpath] at hnone
          exact hn hnone
      · rintro rfl
        exact hp (hs.entry_cases hq).2
    · rcases hold hn with ⟨he, _⟩ | hn
      · exact absurd he (hlease ns key)
      · exact .inl hn
    · rcases hold hn with ⟨rfl, rfl⟩ | hn
      · obtain ⟨rfl, rfl, hkind⟩ := hq
        cases hd with
        | reap hk _ => rw [hkind] at hk; cases hk
        | entry _ _ hvacant =>
          obtain ⟨_, hpath, hcomplete⟩ := hvacant compatibility hpin
          exact ⟨hpath, hcomplete i hi⟩
      · exact hpinned ns key compatibility hpin q i hq hn
  rw [Files.rename]
  split
  · exact ⟨.refl, id⟩
  · next inode hi =>
    split
    · split
      · exact ⟨.refl, id⟩
      · exact hmoved inode hi
    · split
      · exact ⟨.refl, id⟩
      · split
        · exact ⟨.refl, id⟩
        · exact hmoved inode hi

end Steps

end ModelWeights.Cache
