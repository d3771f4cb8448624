import ModelWeights.Cache.Discipline
import ModelWeights.Cache.Sequential
import ModelWeights.Cache.Sound

/-! # Publication keeps directories sound

A publisher writes in a staging directory of its own, and moves it away only when its
metadata describes its payload. All other operations of the service are calm: they leave
staging directories and data alone. -/
namespace ModelWeights.Cache
open Program Interference

variable {Good : CacheEnvelope → List UInt8 → Prop} {process : Nat} {others p : Nat → Prop}
  {fs t : Files} {path : Path} {inode : Nat} {A : Files → Prop}

/-! ## Calm operations -/

/-- Operations that change no staging directory and write no data. -/
def FileOp.Calm : FileOp → Prop
  | .createShard _ _ | .createDir _ => True
  | .rename source destination =>
    source.Beside destination ∧ source.name.kind ≠ .staging
  | .writeOwner path _ | .writeHeartbeat path | .refreshHeartbeat path | .removeDir path =>
    path.name.kind ≠ .staging
  | .createPayload _ | .appendPayload _ _ | .createMetadata _ | .writeMetadata _ _ _
  | .unlink _ _ => False
  | _ => True

theorem Reading.calm {o : FileOp} (h : o.Reading) : o.Calm := by
  cases o <;> trivial

theorem FileOp.Calm.eval {o : FileOp} (ho : o.Calm) (h : fs.Sound Good) (env : Env) :
    (o.eval env fs).2.Sound Good ∧ Keeps p fs (o.eval env fs).2 := by
  have hbelow : ∀ {d d' : Directory}, d'.creator = d.creator → d'.payload = d.payload →
      d'.metadata = d.metadata → d'.Below d := fun hc hp hm =>
    ⟨hc, fun _ h => hp ▸ h, fun _ _ h => hm ▸ h⟩
  by_cases hread : o.Reading
  · rw [hread.eval env fs]
    exact ⟨h, .refl p fs⟩
  have heffect : (o.effect env fs).2.Sound Good ∧ Keeps p fs (o.effect env fs).2 := by
    cases o with
    | createShard ns shard => exact h.createShard env ns shard
    | createDir path => exact h.createDir env.process env.now path
    | rename source destination => exact h.rename fun _ _ => .inl ho
    | removeDir path => exact h.removeDir fun hk => absurd hk ho
    | writeOwner path owner =>
      refine h.change ho fun i d a d' hd => ?_
      obtain ⟨_, rfl⟩ := Prod.mk.inj (Except.ok.inj hd)
      exact hbelow rfl rfl rfl
    | writeHeartbeat path =>
      refine h.change ho fun i d a d' hd => ?_
      obtain ⟨_, rfl⟩ := Prod.mk.inj (Except.ok.inj hd)
      exact hbelow rfl rfl rfl
    | refreshHeartbeat path =>
      refine h.change ho fun i d a d' hd => ?_
      split at hd
      · cases hd
      · obtain ⟨_, rfl⟩ := Prod.mk.inj (Except.ok.inj hd)
        exact hbelow rfl rfl rfl
    | createPayload | appendPayload | createMetadata | writeMetadata | unlink => cases ho
    | cancelled | exhausted | now | token | readShards | readShard | modified | modifiedOld |
      newestOld | heartbeatOld | size | totalSize | readOwner | readMetadata | openPayload |
      readOpen | openDir | sync => exact absurd trivial hread
  rw [FileOp.eval]
  split
  · exact ⟨h, .refl p fs⟩
  · exact heffect

/-! ## Removal -/

theorem Keeps.free {q : Nat → Prop} (h : Keeps q fs t) (hi : inode < fs.next)
    (hfree : Free p inode fs) : Free p inode t := by
  intro path hk hn
  rw [h.creator inode hi]
  rcases h.origin path inode hn with hnew | ⟨q', hq', hkind⟩
  · exact absurd hi (Nat.not_lt.mpr hnew)
  · rcases hkind with hkind | ⟨_, hentry⟩
    · exact hfree q' (hkind.trans hk) hq'
    · rw [hk] at hentry
      cases hentry

/-- A path whose directory a process may remove: no staging path, or its own one. -/
def Clear (p : Nat → Prop) (process : Nat) (path : Path) (fs : Files) : Prop :=
  path.name.kind ≠ .staging ∨ (∀ n, ¬p n) ∨
    ¬p process ∧ ∃ inode, fs.names.get? path = some inode ∧ (fs.dirs inode).creator = process

theorem Clear.creator (h : Clear p process path fs) (hk : path.name.kind = .staging)
    (hn : fs.names.get? path = some inode) : ¬p (fs.dirs inode).creator := by
  rcases h with h | h | ⟨hp, i, hi, hc⟩
  · exact absurd hk h
  · exact h _
  · rw [hi] at hn
    rw [← Option.some.inj hn, hc]
    exact hp

theorem Clear.free (h : Clear p process path fs) (hvalid : fs.Valid)
    (hn : fs.names.get? path = some inode) : Free p inode fs := by
  intro q hq hqn
  obtain rfl := hvalid.unique q path inode hqn hn
  exact h.creator hq hn

theorem Clear.later (h : Clear p process path fs) (hkeeps : Keeps (· = process) fs t) :
    Clear p process path t := by
  rcases h with h | h | ⟨hp, i, hi, hc⟩
  · exact .inl h
  · exact .inr (.inl h)
  · by_cases hk : path.name.kind = .staging
    · obtain ⟨hi', hd⟩ := hkeeps.kept path i hk hi hc
      exact .inr (.inr ⟨hp, i, hi', by rw [hd, hc]⟩)
    · exact .inl hk

theorem Clear.names {q : Nat → Prop} (h : Clear p process path fs) (hvalid : fs.Valid)
    (hkeeps : Keeps q fs t) (hnames : t.names = fs.names) : Clear p process path t := by
  rcases h with h | h | ⟨hp, i, hi, hc⟩
  · exact .inl h
  · exact .inr (.inl h)
  · refine .inr (.inr ⟨hp, i, by rw [hnames, hi], ?_⟩)
    rw [hkeeps.creator i (hvalid.fresh path i hi), hc]

theorem Files.Sound.removed (h : fs.Sound Good) (hclear : Clear p process path fs) (env : Env) :
    (FileOp.eval (.removeDir path) env fs).2.Sound Good ∧
      Keeps p fs (FileOp.eval (.removeDir path) env fs).2 := by
  rw [FileOp.eval]
  split
  · exact ⟨h, .refl p fs⟩
  · exact h.removeDir fun hk inode hn => hclear.creator hk hn

/-- What a process knows between the steps of a removal. -/
structure Removing (p : Nat → Prop) (process : Nat) (path : Path) (inode : Nat)
    (A : Files → Prop) (fs : Files) : Prop where
  asserted : A fs
  clear : Clear p process path fs
  old : inode < fs.next
  free : Free p inode fs

/-- An assertion that depends on the staging directories of a process only, and only if
they are kept. -/
def Kept (p : Nat → Prop) (process : Nat) (A : Files → Prop) : Prop :=
  ∀ fs t, A fs → Keeps (fun n => n = process ∧ p n) fs t → A t

theorem Kept.later (hA : Kept p process A) (h : A fs) (hkeeps : Keeps (· = process) fs t) : A t :=
  hA fs t h (hkeeps.mono fun _ hn => hn.1)

theorem Kept.stable (hA : Kept p process A) : (soundProtocol Good process others).Stable A :=
  fun _ _ h hkeeps _ => hA.later h hkeeps

theorem Kept.step (hA : Kept p process A) (h : A fs) (hkeeps : Keeps p fs t) : A t :=
  hA fs t h (hkeeps.mono fun _ hn => hn.2)

theorem removing_stable (hA : Kept p process A) :
    (soundProtocol Good process others).Stable (Removing p process path inode A) :=
  fun _ _ h hkeeps _ => ⟨hA.later h.asserted hkeeps, h.clear.later hkeeps, Nat.lt_of_lt_of_le h.old hkeeps.next, hkeeps.free h.old h.free⟩

theorem only_unlinkAll : ∀ {files : List File},
    (unlinkAll inode files).Only fun o => ∃ file, o = .unlink inode file
  | [] => trivial
  | file :: rest => by
    refine only_bind ⟨⟨file, rfl⟩, fun _ => trivial⟩ fun r => ?_
    match r with
    | .ok () => exact only_unlinkAll
    | .error .notFound => exact only_unlinkAll
    | .error .alreadyExists | .error .notEmpty | .error .other => trivial

/-- What holds when a directory was opened to remove its files. -/
def Opened (p : Nat → Prop) (process : Nat) (path : Path) (A : Files → Prop) :
    IoResult (Nat × List File) → Files → Prop
  | .error _, t => A t
  | .ok (inode, _), t => Removing p process path inode A t

theorem does_removeDirAll (hp : ∀ n, others n → p n) (hA : Kept p process A)
    (hclear : Clear p process path fs) (h : A fs) :
    (soundProtocol Good process others).Does (removeDirAll path) (fun _ => A) fs := by
  have hstart : (soundProtocol Good process others).Stable
      fun t => A t ∧ Clear p process path t := fun _ _ h hkeeps _ =>
    ⟨hA.later h.1 hkeeps, h.2.later hkeeps⟩
  have hopen : (soundProtocol Good process others).Does (step (.openDir path))
      (Opened p process path A) fs := by
    refine does_step (fun t ht hi env _ => ?_) fun r => ?_
    · have hsame := FileOp.Reading.eval (o := .openDir path) trivial env t
      have hnow := hstart fs t ⟨h, hclear⟩ ht hi
      refine ⟨by rw [hsame]; exact hi, by rw [hsame]; exact .refl _ t, ?_⟩
      rw [hsame, FileOp.eval]
      cases henv : env.fault with
      | true => exact hnow.1
      | false =>
        show Opened p process path A (FileOp.effect env t (.openDir path)).1 t
        rw [FileOp.effect]
        cases hn : t.names.get? path with
        | none => exact hnow.1
        | some inode =>
          exact ⟨hnow.1, hnow.2, hi.valid.fresh path inode hn, hnow.2.free hi.valid hn⟩
    · cases r with
      | error e => exact hA.stable
      | ok opened => exact removing_stable hA
  refine does_bind hopen fun r t hi hr => ?_
  cases r with
  | error e => exact does_pure hA.stable hr
  | ok opened =>
    obtain ⟨inode, files⟩ := opened
    have hunlink : (soundProtocol Good process others).Does (unlinkAll inode files)
        (fun _ => Removing p process path inode A) t := by
      refine Only.guards (fun o env s ho _ hs hrem => ?_) (removing_stable hA) only_unlinkAll hr
      obtain ⟨file, rfl⟩ := ho
      obtain ⟨hsound, hkeeps⟩ := Files.Sound.unlink hs hrem.free env file
      refine ⟨hsound, hkeeps.mono hp, hA.step hrem.asserted hkeeps, ?_,
        Nat.lt_of_lt_of_le hrem.old hkeeps.next, hkeeps.free hrem.old hrem.free⟩
      exact hrem.clear.names hs.valid hkeeps (unlink_names env file)
    refine does_bind hunlink fun r t hi hrem => ?_
    cases r with
    | error e => exact does_pure hA.stable hrem.asserted
    | ok u =>
      refine does_step (fun t' ht hi env _ => ?_) fun _ => hA.stable
      have hnow := removing_stable hA t t' hrem ht hi
      obtain ⟨hsound, hkeeps⟩ := hi.removed hnow.clear env
      exact ⟨hsound, hkeeps.mono hp, hA.step hnow.asserted hkeeps⟩

/-! ## Calm tasks -/

/-- Calm operations and removals of what is no staging directory keep any assertion
about staging directories. -/
def soundDiscipline (Good : CacheEnvelope → List UInt8 → Prop) (hp : ∀ n, others n → p n)
    (hA : Kept p process A) : Discipline where
  holds x := ∀ fs, A fs → (soundProtocol Good process others).Does x (fun _ => A) fs
  ok := FileOp.Calm
  removable path := path.name.kind ≠ .staging ∨ ∀ n, ¬p n
  ret _ _ h := does_pure hA.stable h
  bind hx hf fs h := does_bind (hx fs h) fun a t _ ht => hf a t ht
  step ho fs h := by
    refine does_step (fun t ht hi env _ => ?_) fun _ => hA.stable
    obtain ⟨hsound, hkeeps⟩ := ho.eval hi env
    exact ⟨hsound, hkeeps.mono hp, hA.step (hA.later h ht) hkeeps⟩
  reading := Reading.calm
  removal hpath fs h := does_removeDirAll hp hA (hpath.imp_right .inl) h

section Discipline
variable {hp : ∀ n, others n → p n} {hA : Kept p process A} {ns : CacheNamespace} {key : CacheKey}

theorem sound_leasing : (soundDiscipline Good hp hA).Leasing ns key where
  create := trivial
  owner _ := by simp [soundDiscipline, FileOp.Calm, leasePath, Name.kind]
  heartbeat := by simp [soundDiscipline, FileOp.Calm, leasePath, Name.kind]
  refresh := by simp [soundDiscipline, FileOp.Calm, leasePath, Name.kind]
  reap _ := ⟨⟨rfl, rfl, rfl⟩, by simp [leasePath, Name.kind]⟩
  removable _ := .inl (by simp [Name.kind])

theorem sound_evicting : (soundDiscipline Good hp hA).Evicting ns key where
  leasing _ _ := sound_leasing
  createShard := trivial
  hide _ := ⟨⟨rfl, rfl, rfl⟩, by simp [entryPath, Name.kind]⟩
  removable _ := .inl (by simp [Name.kind])

end Discipline

/-- A calm action under an assertion. -/
theorem acts_calm {α : Type} {hp : ∀ n, others n → p n} {hA : Kept p process A} {x : Action α}
    (hx : (soundDiscipline Good hp hA).acts x) (h : A fs) :
    (soundProtocol Good process others).Acts x (fun _ => A) A fs :=
  Guards.mono (hx fs h) fun r t _ ht => by cases r <;> exact ht

/-! ## A staging directory of one's own -/

structure Own (process : Nat) (path : Path) (inode : Nat) (P : Directory → Prop) (fs : Files) :
    Prop where
  staging : path.name.kind = .staging
  named : fs.names.get? path = some inode
  creator : (fs.dirs inode).creator = process
  holds : P (fs.dirs inode)

section Own
variable {P P' : Directory → Prop}

theorem Own.mono (h : Own process path inode P fs) (hP : ∀ d, P d → P' d) :
    Own process path inode P' fs := ⟨h.staging, h.named, h.creator, hP _ h.holds⟩

theorem own_kept : Kept (fun _ => True) process (Own process path inode P) := by
  intro fs t h hkeeps
  obtain ⟨hnamed, hd⟩ := hkeeps.kept path inode h.staging h.named ⟨h.creator, trivial⟩
  exact ⟨h.staging, hnamed, by rw [hd, h.creator], by rw [hd]; exact h.holds⟩

theorem own_stable : (soundProtocol Good process others).Stable (Own process path inode P) :=
  own_kept.stable

theorem Own.clear (h : Own process path inode P fs) (hothers : ¬others process) :
    Clear others process path fs := .inr (.inr ⟨hothers, inode, h.named, h.creator⟩)

/-- A process writes in its own staging directory. -/
theorem Own.write (h : Own process path inode P fs) (hs : fs.Sound Good) (hothers : ¬others process)
    {d : Directory} (hd : d.Sound Good) (hcreator : d.creator = (fs.dirs inode).creator)
    (hP : P' d) : (fs.setDir inode d).Sound Good ∧ Keeps others fs (fs.setDir inode d) ∧
      Own process path inode P' (fs.setDir inode d) := by
  have hdir : (fs.setDir inode d).dirs inode = d := if_pos rfl
  refine ⟨hs.setDir hd fun q bytes hk hn => ?_, keeps_setDir hcreator ?_,
    ⟨h.staging, h.named, by rw [hdir, hcreator, h.creator], by rw [hdir]; exact hP⟩⟩
  · obtain rfl := hs.valid.unique q path inode hn h.named
    rw [h.staging] at hk
    cases hk
  · exact (h.clear hothers).free hs.valid h.named

/-- A step that writes in one's own staging directory, or fails. -/
theorem does_write {o : FileOp} {R : o.Resp → Files → Prop} (hothers : ¬others process)
    (h : Own process path inode P fs) (hR : ∀ r, (soundProtocol Good process others).Stable (R r))
    (hfail : ∀ r t, o.failure = some r → Own process path inode P t → R r t)
    (ho : ∀ env t, t.Sound Good → Own process path inode P t → ∃ r d, o.effect env t =
      (r, t.setDir inode d) ∧ d.Sound Good ∧ d.creator = (t.dirs inode).creator ∧
        ∀ u, Own process path inode (d = ·) u → R r u) :
    (soundProtocol Good process others).Does (step o) R fs := by
  refine does_step (fun t ht hi env _ => ?_) hR
  have hnow := own_kept.later h ht
  rw [FileOp.eval]
  split
  · next r hr =>
    cases hfault : env.fault with
    | true =>
      rw [hfault] at hr
      exact ⟨hi, .refl _ t, hfail r t hr hnow⟩
    | false =>
      rw [hfault] at hr
      cases hr
  · obtain ⟨r, d, heffect, hd, hcreator, hpost⟩ := ho env t hi hnow
    rw [heffect]
    obtain ⟨hs, hk, hown⟩ := hnow.write hi hothers hd hcreator (rfl : d = d)
    exact ⟨hs, hk, hpost _ hown⟩

end Own

end ModelWeights.Cache
