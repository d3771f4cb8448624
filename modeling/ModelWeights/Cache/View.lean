import ModelWeights.Cache.Service

/-! # What is at every path

Between the steps of one process a store is a function from paths to directories.
Every operation is specified by what it does to that function. -/
namespace ModelWeights.Cache
open Program

abbrev View := Path → Option Directory

/-- Every name lies in a shard that exists, and no directory has two names. -/
structure Files.Valid (fs : Files) : Prop where
  nodup : fs.shards.Nodup
  shard : ∀ path inode, fs.names.get? path = some inode → fs.hasShard path = true
  fresh : ∀ path inode, fs.names.get? path = some inode → inode < fs.next
  unique : ∀ p q inode, fs.names.get? p = some inode → fs.names.get? q = some inode → p = q

structure Shows (fs : Files) (v : View) : Prop where
  valid : fs.Valid
  view : ∀ path, fs.at? path = v path

section Files
variable {fs : Files} {v : View} {path : Path} {d : Directory}

theorem Shows.none_iff (h : Shows fs v) : v path = none ↔ fs.names.get? path = none := by
  rw [← h.view, Files.at?, Option.map_eq_none_iff]

theorem Shows.inode (h : Shows fs v) (hd : v path = some d) :
    ∃ inode, fs.names.get? path = some inode ∧ fs.dirs inode = d := by
  rw [← h.view] at hd
  exact Option.map_eq_some_iff.mp hd

theorem Shows.hasShard (h : Shows fs v) (hd : v path = some d) : fs.hasShard path = true := by
  obtain ⟨inode, hi, _⟩ := h.inode hd
  exact h.valid.shard path inode hi

/-- A shard holds all names of its keys. -/
theorem hasShard_congr {p q : Path} (hns : p.ns = q.ns) (hkey : p.name.key = q.name.key)
    (h : fs.hasShard p = true) : fs.hasShard q = true := by
  rw [Files.hasShard] at h ⊢
  rwa [← hns, ← hkey]

/-- A new content for the directory at a path. -/
theorem Shows.setDir (h : Shows fs v) {inode : Nat} (hi : fs.names.get? path = some inode)
    (d : Directory) : Shows (fs.setDir inode d) (Function.update v path (some d)) := by
  refine ⟨⟨h.valid.nodup, h.valid.shard, h.valid.fresh, h.valid.unique⟩, fun q => ?_⟩
  have hview := h.view q
  rw [Files.at?] at hview ⊢
  by_cases hq : q = path
  · subst hq
    rw [Function.update_self]
    show (fs.names.get? q).map _ = _
    rw [hi]
    simp [Files.setDir]
  · rw [Function.update_of_ne hq, ← hview]
    show (fs.names.get? q).map (fs.setDir inode d).dirs = _
    refine Option.map_congr fun i hq' => ?_
    have hne : i ≠ inode := fun he => hq (h.valid.unique q path inode (he ▸ hq') hi)
    exact if_neg hne

/-- A directory under a new name. -/
theorem Shows.insert (h : Shows fs v) (hshard : fs.hasShard path = true) (d : Directory) :
    Shows { fs.setDir fs.next d with
      names := fs.names.insert path fs.next
      next := fs.next + 1 } (Function.update v path (some d)) := by
  have hget : ∀ q, (fs.names.insert path fs.next).get? q =
      if q = path then some fs.next else fs.names.get? q :=
    fun q => OrderedMap.get?_insert fs.names path q fs.next
  refine ⟨⟨h.valid.nodup, fun q inode hq => ?_, fun q inode hq => ?_,
    fun p q inode hp hq => ?_⟩, fun q => ?_⟩
  · rw [hget] at hq
    split at hq
    · next he => exact he ▸ hshard
    · exact h.valid.shard q inode hq
  · rw [hget] at hq
    split at hq
    · rw [← Option.some.inj hq]
      exact Nat.lt_succ_self _
    · exact Nat.lt_succ_of_lt (h.valid.fresh q inode hq)
  · rw [hget] at hp hq
    split at hp <;> split at hq
    · next he he' => rw [he, he']
    · exact absurd (h.valid.fresh q inode hq) (by rw [← Option.some.inj hp]; exact Nat.lt_irrefl _)
    · exact absurd (h.valid.fresh p inode hp) (by rw [← Option.some.inj hq]; exact Nat.lt_irrefl _)
    · exact h.valid.unique p q inode hp hq
  · rw [Files.at?]
    show ((fs.names.insert path fs.next).get? q).map (fs.setDir fs.next d).dirs = _
    rw [hget]
    by_cases hq : q = path
    · rw [if_pos hq, hq, Function.update_self]
      simp [Files.setDir]
    · rw [if_neg hq, Function.update_of_ne hq, ← h.view, Files.at?]
      refine Option.map_congr fun i hi => ?_
      exact if_neg (Nat.ne_of_lt (h.valid.fresh q i hi))

/-- A directory that lost its name. -/
theorem Shows.erase (h : Shows fs v) (path : Path) :
    Shows { fs with names := fs.names.erase path } (Function.update v path none) := by
  have hget : ∀ {q inode}, (fs.names.erase path).get? q = some inode →
      q ≠ path ∧ fs.names.get? q = some inode := by
    intro q inode hq
    rw [OrderedMap.get?_erase] at hq
    split at hq
    · cases hq
    · next hne => exact ⟨hne, hq⟩
  refine ⟨⟨h.valid.nodup, fun q inode hq => h.valid.shard q inode (hget hq).2,
    fun q inode hq => h.valid.fresh q inode (hget hq).2,
    fun p q inode hp hq => h.valid.unique p q inode (hget hp).2 (hget hq).2⟩, fun q => ?_⟩
  rw [Files.at?]
  show ((fs.names.erase path).get? q).map fs.dirs = _
  rw [OrderedMap.get?_erase]
  by_cases hq : q = path
  · rw [if_pos hq, hq, Function.update_self]
    rfl
  · rw [if_neg hq, Function.update_of_ne hq, ← h.view, Files.at?]

/-- A directory under another name. -/
theorem Shows.move (h : Shows fs v) {source destination : Path} {inode : Nat}
    (hs : fs.names.get? source = some inode) (hshard : fs.hasShard destination = true) :
    Shows { fs with names := (fs.names.erase source).insert destination inode }
      (Function.update (Function.update v source none) destination (some (fs.dirs inode))) := by
  have hget : ∀ q, ((fs.names.erase source).insert destination inode).get? q =
      if q = destination then some inode else if q = source then none else fs.names.get? q := by
    intro q
    rw [OrderedMap.get?_insert, OrderedMap.get?_erase]
  have hold : ∀ {q i}, ((fs.names.erase source).insert destination inode).get? q = some i →
      q = destination ∧ i = inode ∨ q ≠ destination ∧ q ≠ source ∧ fs.names.get? q = some i := by
    intro q i hq
    rw [hget] at hq
    split at hq
    · next he => exact .inl ⟨he, (Option.some.inj hq).symm⟩
    · next hne =>
      split at hq
      · cases hq
      · next hne' => exact .inr ⟨hne, hne', hq⟩
  refine ⟨⟨h.valid.nodup, fun q i hq => ?_, fun q i hq => ?_, fun p q i hp hq => ?_⟩,
    fun q => ?_⟩
  · rcases hold hq with ⟨rfl, _⟩ | ⟨_, _, hq⟩
    · exact hshard
    · exact h.valid.shard q i hq
  · rcases hold hq with ⟨_, rfl⟩ | ⟨_, _, hq⟩
    · exact h.valid.fresh source i hs
    · exact h.valid.fresh q i hq
  · rcases hold hp with ⟨hpd, rfl⟩ | ⟨_, hp', hpi⟩
    · rcases hold hq with ⟨hqd, _⟩ | ⟨_, hq', hqi⟩
      · rw [hpd, hqd]
      · exact absurd (h.valid.unique q source i hqi hs) hq'
    · rcases hold hq with ⟨_, rfl⟩ | ⟨_, _, hqi⟩
      · exact absurd (h.valid.unique p source i hpi hs) hp'
      · exact h.valid.unique p q i hpi hqi
  · rw [Files.at?]
    show (((fs.names.erase source).insert destination inode).get? q).map fs.dirs = _
    rw [hget]
    by_cases hq : q = destination
    · rw [if_pos hq, hq, Function.update_self]
      rfl
    · rw [if_neg hq, Function.update_of_ne hq]
      by_cases hq' : q = source
      · rw [if_pos hq', hq', Function.update_self]
        rfl
      · rw [if_neg hq', Function.update_of_ne hq', ← h.view, Files.at?]

end Files

/-! ## Changes -/

/-- A valid store that differs from another one at some paths only. -/
structure Changes (paths : List Path) (fs t : Files) : Prop where
  valid : t.Valid
  same : ∀ q ∉ paths, t.at? q = fs.at? q

section Changes
variable {fs t u : Files} {paths paths' : List Path} {path : Path}

theorem Files.Valid.changes (h : fs.Valid) : Changes [] fs fs := ⟨h, fun _ _ => rfl⟩

theorem Changes.mono (h : Changes paths fs t) (hsub : ∀ q ∈ paths, q ∈ paths') :
    Changes paths' fs t := ⟨h.valid, fun q hq => h.same q fun hm => hq (hsub q hm)⟩

theorem Changes.trans (h : Changes paths fs t) (h' : Changes paths t u) : Changes paths fs u :=
  ⟨h'.valid, fun q hq => (h'.same q hq).trans (h.same q hq)⟩

theorem Files.Valid.shows (h : fs.Valid) : Shows fs fs.at? := ⟨h, fun _ => rfl⟩

/-- A view that was updated at one path. -/
theorem Shows.changes {o : Option Directory} (h : Shows t (Function.update fs.at? path o)) :
    Changes [path] fs t ∧ t.at? path = o := by
  refine ⟨⟨h.valid, fun q hq => ?_⟩, ?_⟩
  · rw [h.view, Function.update_of_ne fun he => hq (List.mem_singleton.mpr he)]
  · rw [h.view, Function.update_self]

/-- A path that is as it was before did not change. -/
theorem Changes.restore (h : Changes (path :: paths) fs t) (hsame : t.at? path = fs.at? path) :
    Changes paths fs t := by
  refine ⟨h.valid, fun q hq => ?_⟩
  by_cases hp : q = path
  · rw [hp, hsame]
  · refine h.same q fun hm => ?_
    rcases List.mem_cons.mp hm with he | hm
    · exact hp he
    · exact hq hm

theorem at?_eq {inode : Nat} (hi : fs.names.get? path = some inode) :
    fs.at? path = some (fs.dirs inode) := by
  rw [Files.at?, hi]
  rfl

theorem inode_of_at? {d : Directory} (hd : fs.at? path = some d) :
    ∃ inode, fs.names.get? path = some inode ∧ fs.dirs inode = d :=
  Option.map_eq_some_iff.mp hd

theorem Files.Valid.setDir (h : fs.Valid) {inode : Nat} (hi : fs.names.get? path = some inode)
    (d : Directory) : Changes [path] fs (fs.setDir inode d) ∧
      (fs.setDir inode d).at? path = some d :=
  (h.shows.setDir hi d).changes

/-- The directory at a path is changed in place. -/
theorem Files.Valid.change {α : Type} (h : fs.Valid) {d d' : Directory} {a : Nat → α}
    {f : Nat → Directory → IoResult (α × Directory)} (hd : fs.at? path = some d)
    (hf : ∀ inode, f inode d = .ok (a inode, d')) :
    ∃ inode, (fs.change path f).1 = .ok (a inode) ∧ fs.names.get? path = some inode ∧
      Changes [path] fs (fs.change path f).2 ∧ (fs.change path f).2.names = fs.names ∧
      (fs.change path f).2.at? path = some d' := by
  obtain ⟨inode, hi, hdir⟩ := inode_of_at? hd
  have heq : fs.change path f = (.ok (a inode), fs.setDir inode d') := by
    rw [Files.change, hi]
    simp only [hdir, hf]
  rw [heq]
  exact ⟨inode, rfl, hi, (h.setDir hi d').1, rfl, (h.setDir hi d').2⟩

theorem Files.Valid.createShard (h : fs.Valid) (env : Env) (ns : CacheNamespace) (shard : UInt8) :
    Changes [] fs (FileOp.effect env fs (.createShard ns shard)).2 ∧
      (ns, shard) ∈ (FileOp.effect env fs (.createShard ns shard)).2.shards := by
  show Changes [] fs (if (ns, shard) ∈ fs.shards then fs else _) ∧ _ ∈ Files.shards (if _ then _ else _)
  by_cases hm : (ns, shard) ∈ fs.shards
  · rw [if_pos hm]
    exact ⟨h.changes, hm⟩
  · rw [if_neg hm]
    refine ⟨⟨⟨List.nodup_cons.mpr ⟨hm, h.nodup⟩, fun q inode hq => ?_, h.fresh, h.unique⟩,
      fun _ _ => rfl⟩, List.mem_cons_self ..⟩
    have hold := h.shard q inode hq
    rw [Files.hasShard, List.contains_iff_mem] at hold ⊢
    exact List.mem_cons_of_mem _ hold

theorem Files.Valid.createDir (h : fs.Valid) (hshard : fs.hasShard path = true)
    (hnone : fs.at? path = none) (process now : Nat) :
    (fs.createDir process now path).1 = .ok () ∧
      Changes [path] fs (fs.createDir process now path).2 ∧
      (fs.createDir process now path).2.at? path = some (Files.newDirectory process now) := by
  have hget := h.shows.none_iff.mp hnone
  have heq : fs.createDir process now path =
      (.ok (), { fs.setDir fs.next (Files.newDirectory process now) with
        names := fs.names.insert path fs.next
        next := fs.next + 1 }) := by
    rw [Files.createDir, if_neg (not_not.mpr hshard), hget, if_neg (by simp)]
  rw [heq]
  exact ⟨rfl, (h.shows.insert hshard (Files.newDirectory process now)).changes⟩

theorem Files.Valid.rename (h : fs.Valid) {source destination : Path} {d : Directory}
    (hs : fs.at? source = some d) (hd : fs.at? destination = none)
    (hshard : fs.hasShard destination = true) :
    (fs.rename source destination).1 = .ok () ∧
      Changes [source, destination] fs (fs.rename source destination).2 ∧
      (fs.rename source destination).2.at? source = none ∧
      (fs.rename source destination).2.at? destination = some d := by
  obtain ⟨inode, hi, hdir⟩ := inode_of_at? hs
  have hne : source ≠ destination := by
    rintro rfl
    rw [hs] at hd
    cases hd
  have heq : fs.rename source destination =
      (.ok (), { fs with names := (fs.names.erase source).insert destination inode }) := by
    rw [Files.rename, hi, h.shows.none_iff.mp hd]
    simp [hshard]
  rw [heq]
  have hshows := h.shows.move hi hshard
  refine ⟨rfl, ⟨hshows.valid, fun q hq => ?_⟩, ?_, ?_⟩
  · rw [List.mem_pair, not_or] at hq
    rw [hshows.view, Function.update_of_ne hq.2, Function.update_of_ne hq.1]
  · rw [hshows.view, Function.update_of_ne hne, Function.update_self]
  · rw [hshows.view, Function.update_self, hdir]

theorem Files.rename_none {source destination : Path} (hs : fs.at? source = none) :
    fs.rename source destination = (.error .notFound, fs) := by
  rw [Files.rename, show fs.names.get? source = none from Option.map_eq_none_iff.mp hs]

theorem Files.Valid.removeDir (h : fs.Valid) {d : Directory} (hd : fs.at? path = some d)
    (hempty : d.files = []) :
    (fs.removeDir path).1 = .ok () ∧ Changes [path] fs (fs.removeDir path).2 ∧
      (fs.removeDir path).2.at? path = none := by
  obtain ⟨inode, hi, hdir⟩ := inode_of_at? hd
  have heq : fs.removeDir path = (.ok (), { fs with names := fs.names.erase path }) := by
    rw [Files.removeDir, hi]
    simp [hdir, hempty]
  rw [heq]
  exact ⟨rfl, (h.shows.erase path).changes⟩

/-! An operation that fails changes nothing. -/

theorem Files.change_cases {α : Type} (fs : Files) (path : Path)
    (f : Nat → Directory → IoResult (α × Directory)) :
    (∃ e, fs.change path f = (.error e, fs)) ∨ ∃ inode a d, fs.names.get? path = some inode ∧
      f inode (fs.dirs inode) = .ok (a, d) ∧ fs.change path f = (.ok a, fs.setDir inode d) := by
  unfold Files.change
  cases hi : fs.names.get? path with
  | none => exact .inl ⟨_, rfl⟩
  | some inode =>
    cases hf : f inode (fs.dirs inode) with
    | error e => exact .inl ⟨e, by simp only [hf]⟩
    | ok r => exact .inr ⟨inode, r.1, r.2, rfl, hf, by simp only [hf]⟩

theorem Files.Valid.createDir_cases (h : fs.Valid) (process now : Nat) (path : Path) :
    (∃ e, fs.createDir process now path = (.error e, fs)) ∨ fs.at? path = none ∧
      (fs.createDir process now path).1 = .ok () ∧
      Changes [path] fs (fs.createDir process now path).2 ∧
      (fs.createDir process now path).2.at? path = some (Files.newDirectory process now) := by
  by_cases hshard : fs.hasShard path = true
  · cases hd : fs.at? path with
    | none => exact .inr ⟨rfl, h.createDir hshard hd process now⟩
    | some d =>
      obtain ⟨inode, hi, _⟩ := inode_of_at? hd
      refine .inl ⟨.alreadyExists, ?_⟩
      rw [Files.createDir, if_neg (not_not.mpr hshard), if_pos (by rw [hi]; rfl)]
  · refine .inl ⟨.notFound, ?_⟩
    rw [Files.createDir, if_pos hshard]

theorem Files.rename_cases (fs : Files) (source destination : Path) :
    (∃ e, fs.rename source destination = (.error e, fs)) ∨
      (fs.rename source destination).1 = .ok () := by
  unfold Files.rename
  cases hi : fs.names.get? source with
  | none => exact .inl ⟨_, rfl⟩
  | some inode =>
    cases hd : fs.names.get? destination with
    | none =>
      dsimp only
      split
      · exact .inl ⟨_, rfl⟩
      · exact .inr rfl
    | some other =>
      dsimp only
      split
      · exact .inr rfl
      · split
        · exact .inl ⟨_, rfl⟩
        · exact .inr rfl

theorem Files.rename_dirs (fs : Files) (source destination : Path) :
    (fs.rename source destination).2.dirs = fs.dirs := by
  unfold Files.rename
  cases fs.names.get? source with
  | none => rfl
  | some inode =>
    cases fs.names.get? destination with
    | none => dsimp only; split <;> rfl
    | some other => dsimp only; split <;> [rfl; split <;> rfl]

theorem Files.rename_get? {source destination : Path} {q : Path} (hs : q ≠ source)
    (hd : q ≠ destination) :
    (fs.rename source destination).2.names.get? q = fs.names.get? q := by
  have hmoved : ∀ inode, ((fs.names.erase source).insert destination inode).get? q =
      fs.names.get? q := fun inode => by
    rw [OrderedMap.get?_insert, if_neg hd, OrderedMap.get?_erase, if_neg hs]
  unfold Files.rename
  cases fs.names.get? source with
  | none => rfl
  | some inode =>
    cases fs.names.get? destination with
    | none =>
      dsimp only
      split
      · rfl
      · exact hmoved inode
    | some other =>
      dsimp only
      split
      · rfl
      · split
        · rfl
        · exact hmoved inode

theorem Files.Valid.hasShard {d : Directory} (h : fs.Valid) (hd : fs.at? path = some d) {q : Path}
    (hns : path.ns = q.ns) (hkey : path.name.key = q.name.key) : fs.hasShard q = true :=
  hasShard_congr hns hkey (h.shows.hasShard hd)

end Changes

/-! ## Files of a directory -/

theorem Directory.mem_files {d : Directory} {file : File} : file ∈ d.files ↔ match file with
    | .owner => d.owner.isSome
    | .heartbeat => d.heartbeat.isSome
    | .payload => d.payload.isSome
    | .metadata => d.metadata.isSome := by
  cases file <;> simp [Directory.files]

theorem Directory.mem_files_unlink {d : Directory} {file g : File} :
    g ∈ (d.unlink file).files ↔ g ∈ d.files ∧ g ≠ file := by
  cases file <;> cases g <;> simp [Directory.mem_files, Directory.unlink]

end ModelWeights.Cache
