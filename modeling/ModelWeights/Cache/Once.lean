import ModelWeights.Cache.Contending
import ModelWeights.Cache.Shared

/-! # Users that contend for leases

Any number of users in any interleaving, with any failures, cancellations and crashes, as
long as no lease is judged stale. Leases exclude each other, and a key that is published for
one compatibility and never evicted is published once. -/
namespace ModelWeights.Cache
open Program Interference Transition

/-- What a user may do when some keys are pinned. -/
def Use.Allowed (pins : Pins) : Use → Prop
  | .publish ns key compatibility _ =>
    ∀ compatibility', pins ns key = some compatibility' → compatibility' = compatibility
  | .evict ns key _ => pins ns key = none
  | .evictTo _ _ => ∀ ns key, pins ns key = none
  | .lookup _ _ _ _ | .inspect => True

/-- A step of a user that takes part, which judges no lease stale. -/
def Patient (active : Nat → Prop) (a : Nat × Env)
    (s : Pool FileOp FileOp.Resp (Result Answer) Files) : Prop :=
  active a.1 ∧ ∀ o k, s.1 a.1 = .op o k → ¬o.Judges { a.2 with process := a.1 } s.2

/-- What a user knows of its answer. -/
def Granted (x : Contender) : Use → Answer → Files → Prop
  | .publish ns key _ _, .publication publication, t => Leaves x ns key publication t
  | .lookup ns key compatibility _, .found (.hit entry), t =>
    x.pins ns key = some compatibility → Stood x ns key compatibility entry t
  | _, _, _ => True

section Users
variable {users : Nat → User} {active : Nat → Prop} {pins : Pins}
  {sha256 : List UInt8 → ContentDigest} {i j : Nat}
  {s t : Pool FileOp FileOp.Resp (Result Answer) Files}

/-- A user among the others. -/
def contender (users : Nat → User) (active : Nat → Prop) (pins : Pins)
    (sha256 : List UInt8 → ContentDigest) (i : Nat) : Contender where
  pins := pins
  sha256 := sha256
  Good := Published users active
  process := i
  others := (· ≠ i)
  apart := fun h => h rfl

/-- What a user keeps to: directories stay sound, and leases are respected. -/
abbrev userProtocol (users : Nat → User) (active : Nat → Prop) (pins : Pins)
    (sha256 : List UInt8 → ContentDigest) (i : Nat) : CacheProtocol :=
  (soundProtocol (Published users active) i (· ≠ i)).both (leaseProtocol pins sha256 i)

theorem published_user {ns : CacheNamespace} {key : CacheKey} {compatibility : CacheCompatibility}
    {reader : Reader} (hi : active i) (huse : (users i).use = .publish ns key compatibility reader)
    (hends : Reader.Ends reader) (created : Nat) :
    Published users active (envelopeOf (users i).service ns key compatibility
      (Reader.content reader) created) (Reader.content reader) :=
  ⟨i, hi, ns, key, compatibility, reader, huse, ⟨hends, created, rfl⟩, rfl⟩

theorem sound_user (hi : active i) :
    (soundProtocol (Published users active) i (· ≠ i)).Yields (users i).action fun _ => True := by
  unfold User.action
  cases huse : (users i).use with
  | publish ns key compatibility reader =>
    exact yields_bind (yields_publishReader (fun h => h rfl) (published_user hi huse))
      fun _ _ => yields_pure trivial
  | lookup ns key compatibility validation =>
    exact yields_bind yields_lookup fun _ _ => yields_pure trivial
  | evict ns key reason =>
    exact yields_first (Discipline.acts_evict sound_evicting) fun _ => yields_pure trivial
  | evictTo maximumBytes reason =>
    exact yields_first (acts_evictTo fun _ _ => sound_evicting) fun _ => yields_pure trivial
  | inspect => exact yields_bind yields_inspect fun _ _ => yields_pure trivial

theorem stable_granted {x : Contender} {use : Use} {answer : Answer} :
    x.protocol.Stable (Granted x use answer) := by
  intro s t h ht hi
  match use, answer with
  | .publish ns key _ _, .publication publication =>
    exact (stable_leaves : x.protocol.Stable (Leaves x ns key publication)) s t h ht hi
  | .lookup ns key compatibility _, .found (.hit entry) =>
    exact fun hpin => stable_stood hpin s t (h hpin) ht hi
  | .lookup _ _ _ _, .found (.miss _) => trivial
  | .publish _ _ _ _, .found _ | .publish _ _ _ _, .evicted _ | .publish _ _ _ _, .capacity _
  | .publish _ _ _ _, .inspection _ => trivial
  | .lookup _ _ _ _, .publication _ | .lookup _ _ _ _, .evicted _ | .lookup _ _ _ _, .capacity _
  | .lookup _ _ _ _, .inspection _ => trivial
  | .evict _ _ _, _ | .evictTo _ _, _ | .inspect, _ => trivial

theorem granted_user (hsha : ∀ i, (users i).service.sha256 = sha256) (hi : active i)
    (hallowed : (users i).use.Allowed pins) {fs : Files} :
    (contender users active pins sha256 i).protocol.Acts (users i).action
      (Granted (contender users active pins sha256 i) (users i).use) (fun _ => True) fs := by
  let x := contender users active pins sha256 i
  unfold User.action
  cases huse : (users i).use with
  | publish ns key compatibility reader =>
    rw [huse] at hallowed
    exact acts_bind stable_always (exclusive_publishReader (published_user hi huse) (hsha i)
      hallowed) fun publication t _ h => acts_pure stable_granted h
  | lookup ns key compatibility validation =>
    have hlookup : x.protocol.Acts (lookup (users i).service ns key compatibility validation)
        (fun found t => Granted x (.lookup ns key compatibility validation) (.found found) t)
        (fun _ => True) fs := by
      by_cases hpin : x.pins ns key = some compatibility
      · refine Guards.mono (pinned_lookup hpin) fun r t _ hr => ?_
        match r with
        | .error _ => trivial
        | .ok (.miss _) => trivial
        | .ok (.hit entry) => exact fun _ => hr entry rfl
      · refine Guards.mono (acts_reading stable_always Discipline.acts_lookup trivial)
          fun r t _ _ => ?_
        match r with
        | .error _ => trivial
        | .ok (.miss _) => trivial
        | .ok (.hit entry) => exact fun hpin' => absurd hpin' hpin
    exact acts_bind stable_always hlookup fun found t _ h => acts_pure stable_granted h
  | evict ns key reason =>
    rw [huse] at hallowed
    exact acts_bind stable_always (exclusive_evict hallowed) fun _ t _ _ =>
      acts_pure stable_granted trivial
  | evictTo maximumBytes reason =>
    rw [huse] at hallowed
    have hevicts : x.protocol.Yields (evictTo (users i).service maximumBytes reason)
        fun _ => True := exclusive_evictTo hallowed
    exact acts_bind stable_always (hevicts fs) fun _ t _ _ =>
      acts_pure stable_granted trivial
  | inspect =>
    exact acts_bind stable_always (exclusive_reads Discipline.acts_inspect fs) fun _ t _ _ =>
      acts_pure stable_granted trivial

/-- What holds at the start and in every interleaving. -/
structure Contended (users : Nat → User) (active : Nat → Prop) (pins : Pins)
    (sha256 : List UInt8 → ContentDigest) (s : Pool FileOp FileOp.Resp (Result Answer) Files) :
    Prop where
  sound : Files.Sound (Published users active) s.2
  pinned : Files.Pinned pins sha256 s.2
  guards : ∀ i, active i → Guards FileOp.eval (userProtocol users active pins sha256 i) (s.1 i)
    (After (Granted (contender users active pins sha256 i) (users i).use) fun _ => True) s.2

/-- Users that keep to their protocols, in every interleaving without stale leases. -/
theorem pool_patient {Q : Nat → Result Answer → Files → Prop}
    (hs : Files.Sound (Published users active) s.2 ∧ Files.Pinned pins sha256 s.2)
    (hguards : ∀ i, active i → Guards FileOp.eval (userProtocol users active pins sha256 i) (s.1 i)
      (Q i) s.2) (hrun : ReachableUnder userAct (Patient active) s t) :
    (Files.Sound (Published users active) t.2 ∧ Files.Pinned pins sha256 t.2) ∧
      ∀ i, active i → Guards FileOp.eval (userProtocol users active pins sha256 i) (t.1 i) (Q i)
        t.2 := by
  have hactive : ∀ (i : Nat) (e : Env) (s : Pool FileOp FileOp.Resp (Result Answer) Files),
      Patient active (i, e) s → active i := fun _ _ _ h => h.1
  have hinv : ∀ (i : Nat) (s : Files), (userProtocol users active pins sha256 i).inv s ↔
      Files.Sound (Published users active) s ∧ Files.Pinned pins sha256 s := fun _ _ => Iff.rfl
  have hkeeps : ∀ (i j : Nat) (s u : Files), i ≠ j →
      (userProtocol users active pins sha256 i).guarantee s u →
      (userProtocol users active pins sha256 j).rely s u := by
    intro i j s u hij h
    refine ⟨Keeps.mono h.1 fun n hn => ?_, Respects.spares h.2 hij.symm⟩
    subst hn
    exact hij.symm
  have hadmits : ∀ (i : Nat) (e : Env) (s : Pool FileOp FileOp.Resp (Result Answer) Files)
      (o : FileOp) (k : o.Resp → Program FileOp FileOp.Resp (Result Answer)),
      Patient active (i, e) s → s.1 i = .op o k →
      (userProtocol users active pins sha256 i).admits o ({ e with process := i }) s.2 :=
    fun i e s o k h hop => ⟨rfl, h.2 o k hop⟩
  exact pool_sound_among (P := userProtocol users active pins sha256) hactive hinv hkeeps hadmits
    hs hguards hrun

theorem pinned_empty : Files.empty.Pinned pins sha256 := fun _ _ _ _ _ _ _ hn => by cases hn

theorem contended (hsha : ∀ i, (users i).service.sha256 = sha256)
    (hallowed : ∀ i, active i → (users i).use.Allowed pins)
    (hrun : ReachableUnder userAct (Patient active) (startUsers users) s) :
    Contended users active pins sha256 s := by
  have hstart : ∀ i, active i → Guards FileOp.eval (userProtocol users active pins sha256 i)
      ((startUsers users).1 i)
      (After (Granted (contender users active pins sha256 i) (users i).use) fun _ => True)
      (startUsers users).2 := by
    intro i hi
    refine Guards.mono ((sound_user hi .empty).both (granted_user hsha hi (hallowed i hi)))
      fun r t _ hr => ?_
    cases r with
    | error e => trivial
    | ok answer => exact hr.2
  obtain ⟨⟨hsound, hpinned⟩, hguards⟩ := pool_patient ⟨sound_empty, pinned_empty⟩ hstart hrun
  exact ⟨hsound, hpinned, hguards⟩

/-- **Leases exclude each other.** While no lease is judged stale: a step that changes the
entry of a key, a generation that it replaces or one that is evicted is taken by the process
that holds the lease of the key, and no step takes the lease of another process away. -/
theorem leases_exclude {users : Nat → User} {active : Nat → Prop}
    {sha256 : List UInt8 → ContentDigest} (hsha : ∀ i, (users i).service.sha256 = sha256)
    {s t : Pool FileOp FileOp.Resp (Result Answer) Files} {i : Nat} {env : Env}
    (hrun : ReachableUnder userAct (Patient active) (startUsers users) s)
    (hpatient : Patient active (i, env) s) (hstep : userAct (i, env) s = some t)
    (ns : CacheNamespace) (key : CacheKey) :
    (Holds i ns key s.2 ∨ SameEntries ns key s.2 t.2) ∧
      ∀ other, other ≠ i → Holds other ns key s.2 → Holds other ns key t.2 := by
  have hallowed : ∀ i, active i → (users i).use.Allowed fun _ _ => none := by
    intro i _
    cases (users i).use with
    | publish ns key compatibility reader => exact nofun
    | evict => rfl
    | evictTo => exact fun _ _ => rfl
    | lookup | inspect => trivial
  have hinv : Contended users active (fun _ _ => none) sha256 s := contended hsha hallowed hrun
  obtain ⟨o, k, hop, _, hstate⟩ := poolAct_cases hstep
  have hi := hinv.guards i hpatient.1
  rw [hop] at hi
  obtain ⟨_, hg, _⟩ := hi s.2 (Protocol.refl _ s.2) ⟨hinv.sound, hinv.pinned⟩ { env with process := i }
    ⟨rfl, hpatient.2 o k hop⟩
  rw [hstate]
  exact ⟨hg.2.entries ns key, fun other hne hh => hg.2.held other ns key hne hh⟩

/-! ## Pinned keys -/

variable {ns : CacheNamespace} {key : CacheKey} {compatibility : CacheCompatibility}
  {entry entry' : CacheEntry}

/-- The user `i` published the key and got `entry`. -/
def PublishedIt (users : Nat → User) (s : Pool FileOp FileOp.Resp (Result Answer) Files)
    (ns : CacheNamespace) (key : CacheKey) (compatibility : CacheCompatibility) (i : Nat)
    (entry : CacheEntry) : Prop :=
  (∃ reader, (users i).use = .publish ns key compatibility reader) ∧
    s.1 i = .ret (.ok (.publication (.published entry)))

/-- The user `i` got `entry` for the key: it published it, reused it or found it. -/
def GotIt (users : Nat → User) (s : Pool FileOp FileOp.Resp (Result Answer) Files)
    (ns : CacheNamespace) (key : CacheKey) (compatibility : CacheCompatibility) (i : Nat)
    (entry : CacheEntry) : Prop :=
  PublishedIt users s ns key compatibility i entry ∨
  ((∃ reader, (users i).use = .publish ns key compatibility reader) ∧
    s.1 i = .ret (.ok (.publication (.reused entry)))) ∨
  ∃ validation, (users i).use = .lookup ns key compatibility validation ∧
    s.1 i = .ret (.ok (.found (.hit entry)))

theorem Contended.granted (h : Contended users active pins sha256 s) (hi : active i)
    {answer : Answer} (hret : s.1 i = .ret (.ok answer)) :
    Granted (contender users active pins sha256 i) (users i).use answer s.2 := by
  have hreturned := h.guards i hi
  rw [hret] at hreturned
  exact hreturned.ret ⟨h.sound, h.pinned⟩

theorem Contended.published (h : Contended users active pins sha256 s) (hi : active i)
    (hpin : pins ns key = some compatibility)
    (hgot : PublishedIt users s ns key compatibility i entry) : ∃ inode,
      Standing (contender users active pins sha256 i) ns key compatibility entry inode s.2 ∧
      (s.2.dirs inode).creator = i := by
  obtain ⟨⟨reader, huse⟩, hret⟩ := hgot
  have hgranted := h.granted hi hret
  rw [huse] at hgranted
  exact hgranted compatibility hpin

theorem Contended.got (h : Contended users active pins sha256 s) (hi : active i)
    (hpin : pins ns key = some compatibility)
    (hgot : GotIt users s ns key compatibility i entry) :
    Stood (contender users active pins sha256 i) ns key compatibility entry s.2 := by
  rcases hgot with hgot | ⟨⟨reader, huse⟩, hret⟩ | ⟨validation, huse, hret⟩
  · obtain ⟨inode, hstanding, _⟩ := h.published hi hpin hgot
    exact ⟨inode, hstanding⟩
  · have hgranted := h.granted hi hret
    rw [huse] at hgranted
    exact hgranted compatibility hpin
  · have hgranted := h.granted hi hret
    rw [huse] at hgranted
    exact hgranted hpin

/-- A user that looks a key up after its entry stands finds the entry. -/
theorem Contended.finds (h : Contended users active pins sha256 s)
    (hsha : ∀ i, (users i).service.sha256 = sha256) (hpin : pins ns key = some compatibility)
    (hstood : Stood (contender users active pins sha256 i) ns key compatibility entry s.2)
    (hrun : ReachableUnder userAct (Patient active) s t) (hj : active j)
    {validation : CacheValidation} (huse : (users j).use = .lookup ns key compatibility validation)
    (hfresh : s.1 j = (startUsers users).1 j) {answer : Answer}
    (hret : t.1 j = .ret (.ok answer)) : answer = .found (.hit entry) := by
  obtain ⟨inode, hnamed, hcomplete⟩ := hstood
  have hlookup : Guards FileOp.eval (userProtocol users active pins sha256 j) (s.1 j)
      (After (fun answer _ => answer = .found (.hit entry)) fun _ => True) s.2 := by
    have hsound : (soundProtocol (Published users active) j (· ≠ j)).Acts (users j).action
        (fun _ _ => True) (fun _ => True) s.2 := sound_user hj s.2
    have haction : (users j).action = (do
        let found ← Cache.lookup (users j).service ns key compatibility validation
        pure (Answer.found found)) := by
      unfold User.action
      rw [huse]
    rw [hfresh]
    show Guards FileOp.eval _ (users j).action.run _ s.2
    rw [haction] at hsound ⊢
    have hfinds : (contender users active pins sha256 j).protocol.Acts (do
        let found ← Cache.lookup (users j).service ns key compatibility validation
        pure (Answer.found found)) (fun answer _ => answer = .found (.hit entry)) (fun _ => True)
        s.2 := by
      refine acts_bind stable_always (present_lookup hpin (hsha j) ⟨hnamed, hcomplete⟩)
        fun found u _ hfound => acts_pure stable_fact ?_
      rw [hfound.1]
    exact Guards.mono (Guards.both hsound hfinds) fun r _ _ hr => by
      cases r <;> [trivial; exact hr.2]
  have hguards : ∀ i, active i → Guards FileOp.eval (userProtocol users active pins sha256 i)
      (s.1 i) (fun r _ => i = j → ∀ answer, r = .ok answer → answer = .found (.hit entry))
      s.2 := by
    intro i hi
    by_cases hij : i = j
    · subst hij
      refine Guards.mono hlookup fun r _ _ hr _ answer he => ?_
      subst he
      exact hr
    · exact Guards.mono (h.guards i hi) fun _ _ _ _ he => absurd he hij
  obtain ⟨hinv, hguards⟩ := pool_patient ⟨h.sound, h.pinned⟩ hguards hrun
  have hreturned := hguards j hj
  rw [hret] at hreturned
  exact hreturned.ret hinv rfl answer rfl

/-- **A pinned key is published once.** While no lease is judged stale, of a key that is
published for one compatibility only and never evicted: one publication at most returns
`published`, all that is published, reused or found is one entry, and once somebody has it
every lookup that starts later and does not fail finds it. -/
theorem published_once {users : Nat → User} {active : Nat → Prop} {pins : Pins}
    {sha256 : List UInt8 → ContentDigest} (hsha : ∀ i, (users i).service.sha256 = sha256)
    (hallowed : ∀ i, active i → (users i).use.Allowed pins)
    {ns : CacheNamespace} {key : CacheKey} {compatibility : CacheCompatibility}
    (hpin : pins ns key = some compatibility)
    {s t : Pool FileOp FileOp.Resp (Result Answer) Files}
    (hrun : ReachableUnder userAct (Patient active) (startUsers users) s)
    (hmore : ReachableUnder userAct (Patient active) s t) {i : Nat} (hi : active i)
    {entry : CacheEntry} (hgot : GotIt users s ns key compatibility i entry) :
    (∀ j entry', active j → PublishedIt users s ns key compatibility i entry →
      PublishedIt users s ns key compatibility j entry' → i = j) ∧
    (∀ j entry', active j → GotIt users s ns key compatibility j entry' → entry = entry') ∧
    ∀ j validation answer, active j → (users j).use = .lookup ns key compatibility validation →
      s.1 j = (startUsers users).1 j → t.1 j = .ret (.ok answer) →
      answer = .found (.hit entry) := by
  have hinv := contended hsha hallowed hrun
  refine ⟨fun j entry' hj hpublished hpublished' => ?_, fun j entry' hj hgot' => ?_,
    fun j validation answer hj huse hfresh hret => ?_⟩
  · obtain ⟨inode, hstanding, hcreator⟩ := hinv.published hi hpin hpublished
    obtain ⟨inode', hstanding', hcreator'⟩ := hinv.published hj hpin hpublished'
    obtain rfl := (hstanding.unique ⟨hstanding'.named, hstanding'.complete⟩).2
    exact hcreator.symm.trans hcreator'
  · obtain ⟨inode, hstanding⟩ := hinv.got hi hpin hgot
    obtain ⟨inode', hstanding'⟩ := hinv.got hj hpin hgot'
    exact (hstanding.unique ⟨hstanding'.named, hstanding'.complete⟩).1
  · exact hinv.finds hsha hpin (hinv.got hi hpin hgot) hmore hj huse hfresh hret

end Users

/-! ## A publisher and a reader -/

namespace Sample

/-- A step that cannot judge a lease. -/
def unjudging : FileOp → Bool
  | .heartbeatOld _ _ | .modifiedOld _ _ => false
  | _ => true

theorem not_judges {o : FileOp} {env : Env} {fs : Files} (h : unjudging o = true) :
    ¬o.Judges env fs := by
  cases o with
  | heartbeatOld | modifiedOld => cases h
  | cancelled | exhausted | now | token | createShard | readShards | readShard | modified |
    newestOld | size | totalSize | createDir | rename | readOwner | writeOwner | writeHeartbeat |
    refreshHeartbeat | createPayload | appendPayload | createMetadata | writeMetadata |
    readMetadata | openPayload | readOpen | openDir | unlink | removeDir | sync => exact id

/-- The run of a user takes no step that judges a lease. -/
def patientUser (process n : Nat) (fs : Files) : Bool :=
  allFor FileOp.eval (fun n => { env n with process := process }) unjudging 100
    ((startUsers users).1 process) n fs

/-- A user runs alone for a while, without judging a lease. -/
theorem reachable_some {process budget n : Nat} {fs : Files}
    {pool : Nat → Program FileOp FileOp.Resp (Result Answer)}
    (hpool : pool process = (startUsers users).1 process)
    (hpatient : allFor FileOp.eval (fun n => { env n with process := process }) unjudging budget
      ((startUsers users).1 process) n fs = true) :
    ReachableUnder userAct (Patient fun _ => True) (pool, fs)
      (Function.update pool process
        (advance FileOp.eval (fun n => { env n with process := process }) budget
          ((startUsers users).1 process) n fs).1,
        (advance FileOp.eval (fun n => { env n with process := process }) budget
          ((startUsers users).1 process) n fs).2.2) := by
  refine @reachable_advance FileOp Env Files FileOp.Resp _ FileOp.eval
    (fun process env => { env with process := process }) _ process env unjudging
    (fun n o k u hop ho => ⟨trivial, fun o' k' hop' => ?_⟩) budget n _ pool fs hpool hpatient
  obtain rfl := (Program.op.inj (hop.symm.trans hop')).1
  exact not_judges ho

theorem reachable_patient {process n : Nat} {fs : Files} {r : Result Answer}
    {pool : Nat → Program FileOp FileOp.Resp (Result Answer)}
    (hpool : pool process = (startUsers users).1 process)
    (hpatient : patientUser process n fs = true)
    (h : (runProcess (startUsers users).1 process n fs).1 = some r) :
    ReachableUnder userAct (Patient fun _ => True) (pool, fs)
      (Function.update pool process (.ret r),
        (runProcess (startUsers users).1 process n fs).2.2) := by
  have hreach := reachable_some hpool hpatient
  rwa [advance_of_runFor h] at hreach

/-- User 1 has begun its lookup. -/
def begun : Program FileOp FileOp.Resp (Result Answer) × Nat × Files :=
  advance FileOp.eval (fun n => { env n with process := 1 }) 2 ((startUsers users).1 1) 0 .empty

/-- Beside it user 0 has staged its entry. -/
def staged : Program FileOp FileOp.Resp (Result Answer) × Nat × Files :=
  advance FileOp.eval (fun n => { env n with process := 0 }) 47 ((startUsers users).1 0) begun.2.1
    begun.2.2

/-- The rename that a program performs next. -/
def nextRename : Program FileOp FileOp.Resp (Result Answer) → Option (Path × Path)
  | .op (.rename source target) _ => some (source, target)
  | _ => none

/-- Both users are at work. -/
def stagedState : Pool FileOp FileOp.Resp (Result Answer) Files :=
  (Function.update (Function.update (startUsers users).1 1 begun.1) 0 staged.1, staged.2.2)

theorem staged_self : stagedState.1 0 = staged.1 := by
  show Function.update (Function.update (startUsers users).1 1 begun.1) 0 staged.1 0 = _
  exact Function.update_self ..

theorem begun_other : ∃ k, stagedState.1 1 = .op (.modified (entryPath .plan (digest 2))) k := by
  have hother : stagedState.1 1 = begun.1 := by
    show Function.update (Function.update (startUsers users).1 1 begun.1) 0 staged.1 1 = _
    rw [Function.update_of_ne Nat.one_ne_zero, Function.update_self]
  rw [hother]
  exact ⟨_, rfl⟩

theorem nextRename_eq {p : Program FileOp FileOp.Resp (Result Answer)} {source target : Path}
    (h : nextRename p = some (source, target)) : ∃ k, p = .op (.rename source target) k := by
  unfold nextRename at h
  split at h
  · next k =>
    obtain ⟨rfl, rfl⟩ := Prod.mk.inj (Option.some.inj h)
    exact ⟨k, rfl⟩
  · cases h

theorem reachable_staged :
    ReachableUnder userAct (Patient fun _ => True) (startUsers users) stagedState := by
  refine Relation.ReflTransGen.trans (@reachable_some 1 2 0 _ _ rfl (by decide +kernel)) ?_
  exact reachable_some (Function.update_of_ne Nat.zero_ne_one _ _) (by decide +kernel)

def publishedBytes : Option (Result Answer) → Option (List UInt8)
  | some (.ok (.publication (.published entry))) => some entry.payload
  | _ => none

theorem publishedBytes_some {r : Option (Result Answer)} {bytes : List UInt8}
    (h : publishedBytes r = some bytes) :
    ∃ entry, r = some (.ok (.publication (.published entry))) ∧ entry.payload = bytes := by
  unfold publishedBytes at h
  split at h
  · next entry => exact ⟨entry, rfl, Option.some.inj h⟩
  · cases h

/-- The state after the publication. -/
def publishedState (r : Result Answer) : Pool FileOp FileOp.Resp (Result Answer) Files :=
  (Function.update (startUsers users).1 0 (.ret r), publication.2.2)

theorem reachable_published {r : Result Answer} (h : publication.1 = some r) :
    ReachableUnder userAct (Patient fun _ => True) (startUsers users) (publishedState r) :=
  reachable_patient rfl (by decide +kernel) h

theorem published_self (r : Result Answer) : (publishedState r).1 0 = .ret r := by
  show Function.update (startUsers users).1 0 (.ret r) 0 = _
  exact Function.update_self ..

theorem published_other (r : Result Answer) : (publishedState r).1 1 = (startUsers users).1 1 := by
  show Function.update (startUsers users).1 0 (.ret r) 1 = _
  exact Function.update_of_ne Nat.one_ne_zero _ _

/-- The state after the lookup. -/
def readState (r r' : Result Answer) : Pool FileOp FileOp.Resp (Result Answer) Files :=
  (Function.update (publishedState r).1 1 (.ret r'), reading.2.2)

theorem read_self (r r' : Result Answer) : (readState r r').1 1 = .ret r' := by
  show Function.update (publishedState r).1 1 (.ret r') 1 = _
  exact Function.update_self ..

theorem reachable_read {r r' : Result Answer} (h : reading.1 = some r') :
    ReachableUnder userAct (Patient fun _ => True) (publishedState r) (readState r r') :=
  reachable_patient (published_other r) (by decide +kernel) h

theorem users_sha256 : ∀ i, (users i).service.sha256 = service.sha256 := by
  intro i
  cases i <;> rfl

theorem users_allowed (i : Nat) : (users i).use.Allowed fun _ _ => some compatibility := by
  cases i with
  | zero => exact fun _ h => (Option.some.inj h).symm
  | succ i => trivial

end Sample

/-- The rename that publishes the entry of user 0, while user 1 looks it up. -/
theorem leases_exclude_rename : ∃ s t,
    ReachableUnder userAct (Patient fun _ => True) (startUsers Sample.users) s ∧
    (∃ k, s.1 1 = .op (.modified (entryPath .plan (Sample.digest 2))) k) ∧
    userAct (0, Sample.env 0) s = some t ∧
    s.2.names.get? (entryPath .plan (Sample.digest 2)) = none ∧
    (t.2.names.get? (entryPath .plan (Sample.digest 2))).isSome = true ∧
    Holds 0 .plan (Sample.digest 2) s.2 := by
  have hrun := Sample.reachable_staged
  have hrename : Sample.nextRename Sample.staged.1 = some
      (⟨.plan, .staging (Sample.digest 2) "0-0-0"⟩, entryPath .plan (Sample.digest 2)) := by
    decide +kernel
  obtain ⟨k, hk⟩ := Sample.nextRename_eq hrename
  have hop : Sample.stagedState.1 0 = _ := Sample.staged_self.trans hk
  have hpatient : Patient (fun _ => True) (0, Sample.env 0) Sample.stagedState := by
    refine ⟨trivial, fun o k' hop' => ?_⟩
    obtain rfl := (Program.op.inj (hop.symm.trans hop')).1
    exact id
  obtain ⟨t, hstep, hentry⟩ : ∃ t, userAct (0, Sample.env 0) Sample.stagedState = some t ∧
      (t.2.names.get? (entryPath .plan (Sample.digest 2))).isSome = true := by
    have hentry : ((FileOp.eval (.rename ⟨.plan, .staging (Sample.digest 2) "0-0-0"⟩
        (entryPath .plan (Sample.digest 2))) { Sample.env 0 with process := 0 }
        Sample.stagedState.2).2.names.get? (entryPath .plan (Sample.digest 2))).isSome = true := by
      decide +kernel
    simp only [userAct, poolAct, hop]
    exact ⟨_, rfl, hentry⟩
  have hnone : Sample.stagedState.2.names.get? (entryPath .plan (Sample.digest 2)) = none := by
    decide +kernel
  have hholds := (leases_exclude Sample.users_sha256 hrun hpatient hstep .plan
    (Sample.digest 2)).1.resolve_right fun hsame => by
      rw [hsame.names _ serves_entryPath, hnone] at hentry
      cases hentry
  exact ⟨_, t, hrun, Sample.begun_other, hstep, hnone, hentry, hholds⟩

theorem published_once_sample : ∃ s t entry,
    ReachableUnder userAct (Patient fun _ => True) (startUsers Sample.users) s ∧
    ReachableUnder userAct (Patient fun _ => True) s t ∧
    PublishedIt Sample.users s .plan (Sample.digest 2) Sample.compatibility 0 entry ∧
    entry.payload = Sample.abc ∧ t.1 1 = .ret (.ok (.found (.hit entry))) := by
  have hfirst : Sample.publishedBytes Sample.publication.1 = some Sample.abc := by decide +kernel
  have hsecond : Sample.foundBytes Sample.reading.1 = some Sample.abc := by decide +kernel
  obtain ⟨entry, hentry, hbytes⟩ := Sample.publishedBytes_some hfirst
  obtain ⟨found, hfound, _⟩ := Sample.foundBytes_some hsecond
  have hrun := Sample.reachable_published hentry
  have hmore := @Sample.reachable_read (.ok (.publication (.published entry))) _ hfound
  have hpublished : PublishedIt Sample.users
      (Sample.publishedState (.ok (.publication (.published entry)))) .plan (Sample.digest 2)
      Sample.compatibility 0 entry := ⟨⟨_, rfl⟩, Sample.published_self _⟩
  have hret := Sample.read_self (.ok (.publication (.published entry))) (.ok (.found (.hit found)))
  have hsame := (published_once Sample.users_sha256 (fun i _ => Sample.users_allowed i) rfl hrun
    hmore trivial (.inl hpublished)).2.2 1 .full _ trivial rfl
      (Sample.published_other _) hret
  refine ⟨_, _, entry, hrun, hmore, hpublished, hbytes, ?_⟩
  rw [← hsame]
  exact hret

end ModelWeights.Cache
