import ModelWeights.Cache.Publication
import ModelWeights.Cache.Refinement

/-! # A shared cache

Any number of users of a cache, each with one call, in any interleaving of their steps,
with any failures and stopped anywhere. What a user gets comes from publications of the
key that it asked for. -/
namespace ModelWeights.Cache
open Program Interference Transition

inductive Use where
  | publish (ns : CacheNamespace) (key : CacheKey) (compatibility : CacheCompatibility)
    (reader : Reader)
  | lookup (ns : CacheNamespace) (key : CacheKey) (compatibility : CacheCompatibility)
    (validation : CacheValidation)
  | evict (ns : CacheNamespace) (key : CacheKey) (reason : EvictionReason)
  | evictTo (maximumBytes : Nat) (reason : EvictionReason)
  | inspect

structure User where
  service : CacheService
  use : Use

inductive Answer where
  | publication (publication : CachePublication)
  | found (found : CacheLookup)
  | evicted (record : Option EvictionRecord)
  | capacity (report : EvictionReport)
  | inspection (inspection : CacheInspection)

def User.action (user : User) : Action Answer :=
  match user.use with
  | .publish ns key compatibility reader => do
    let publication ← publishReader user.service ns key compatibility reader
    pure (.publication publication)
  | .lookup ns key compatibility validation => do
    let found ← Cache.lookup user.service ns key compatibility validation
    pure (.found found)
  | .evict ns key reason => do
    let record ← Cache.evict user.service ns key reason
    pure (.evicted record)
  | .evictTo maximumBytes reason => do
    let report ← Cache.evictTo user.service maximumBytes reason
    pure (.capacity report)
  | .inspect => do
    let inspection ← Cache.inspect
    pure (.inspection inspection)

/-- The steps of the users, each a process of its own. -/
abbrev userAct : Nat × Env → Pool FileOp FileOp.Resp (Result Answer) Files →
    Option (Pool FileOp FileOp.Resp (Result Answer) Files) :=
  poolAct FileOp.eval fun process env => { env with process := process }

def startUsers (users : Nat → User) : Pool FileOp FileOp.Resp (Result Answer) Files :=
  (fun i => (users i).action.run, .empty)

theorem sound_empty {Good : CacheEnvelope → List UInt8 → Prop} : Files.empty.Sound Good :=
  ⟨⟨List.nodup_nil, fun _ _ h => (by cases h), fun _ _ h => (by cases h),
      fun _ _ _ h => (by cases h)⟩,
    fun _ => ⟨fun _ _ h => (by cases h), fun _ _ _ h => (by cases h)⟩,
    fun _ _ _ _ h => (by cases h)⟩

/-- The user `j` publishes `bytes` under the envelope `e`. -/
def PublishedBy (users : Nat → User) (j : Nat) (ns : CacheNamespace) (key : CacheKey)
    (compatibility : CacheCompatibility) (e : CacheEnvelope) (bytes : List UInt8) : Prop :=
  ∃ reader, (users j).use = .publish ns key compatibility reader ∧
    Sealed (users j).service ns key compatibility reader e ∧ bytes = Reader.content reader

section Answers
variable (users : Nat → User) (active : Nat → Prop)

/-- Some user that takes part publishes `bytes` under the envelope `e`. -/
def Published (e : CacheEnvelope) (bytes : List UInt8) : Prop :=
  ∃ j, active j ∧ ∃ ns key compatibility, PublishedBy users j ns key compatibility e bytes

/-- The entry of one publication. -/
def Whole (ns : CacheNamespace) (key : CacheKey) (compatibility : CacheCompatibility)
    (entry : CacheEntry) : Prop :=
  ∃ j, active j ∧ ∃ e path, PublishedBy users j ns key compatibility e entry.payload ∧
    entry.info = infoFromEnvelope e path

/-- An entry with the info of one publication and the payload of a publication of the same
key, which is as long as the info says. -/
def Paired (ns : CacheNamespace) (key : CacheKey) (compatibility : CacheCompatibility)
    (entry : CacheEntry) : Prop :=
  (∃ j, active j ∧ ∃ e path bytes, PublishedBy users j ns key compatibility e bytes ∧
    entry.info = infoFromEnvelope e path) ∧
  (∃ j, active j ∧ ∃ e compatibility',
    PublishedBy users j ns key compatibility' e entry.payload) ∧
  entry.payload.length = entry.info.payloadLen

/-- What a user may get: the entry of one publication of the key with the compatibility,
unless its payload is not hashed, and a list of what was published. -/
def Genuine : Use → Answer → Prop
  | .publish ns key compatibility _, .publication (.reused entry) =>
    Whole users active ns key compatibility entry
  | .publish ns key compatibility _, .publication (.published entry) =>
    Paired users active ns key compatibility entry
  | .lookup ns key compatibility .full, .found (.hit entry) =>
    Whole users active ns key compatibility entry
  | .lookup ns key compatibility .trustedMetadata, .found (.hit entry) =>
    Paired users active ns key compatibility entry
  | .inspect, .inspection inspection =>
    ∀ info ∈ inspection.entries, Inventoried (Published users active) info
  | _, _ => True

end Answers

section Users
variable {users : Nat → User} {ns : CacheNamespace} {key : CacheKey}
  {compatibility : CacheCompatibility} {validation : CacheValidation} {entry : CacheEntry}
  {e : CacheEnvelope} {bytes : List UInt8} {i j : Nat} {c : CacheService} {active : Nat → Prop}

theorem envelopeMiss_none (h : envelopeMiss ns key compatibility e = none) :
    e.ns = ns ∧ e.key = key ∧ e.compatibility = compatibility := by
  unfold envelopeMiss at h
  split at h
  · cases h
  · split at h
    · cases h
    · next hns =>
      split at h
      · cases h
      · next hkey =>
        split at h
        · cases h
        · next hcompatibility =>
          exact ⟨not_not.mp hns, not_not.mp hkey, not_not.mp hcompatibility⟩

theorem PublishedBy.envelope (h : PublishedBy users j ns key compatibility e bytes) :
    e.ns = ns ∧ e.key = key ∧ e.compatibility = compatibility ∧
      e.payloadDigest = (users j).service.sha256 bytes := by
  obtain ⟨reader, _, ⟨_, created, rfl⟩, rfl⟩ := h
  exact ⟨rfl, rfl, rfl, rfl⟩

theorem Published.by (h : Published users active e bytes) (hns : e.ns = ns) (hkey : e.key = key) :
    ∃ j, active j ∧ ∃ compatibility', PublishedBy users j ns key compatibility' e bytes := by
  obtain ⟨j, hj, ns', key', compatibility', hby⟩ := h
  obtain ⟨rfl, rfl, _⟩ := hby.envelope
  subst hns hkey
  exact ⟨j, hj, compatibility', hby⟩

theorem paired_of_found
    (h : Found (Published users active) c ns key compatibility validation entry) :
    Paired users active ns key compatibility entry := by
  refine ⟨?_, ?_, h.length⟩
  · obtain ⟨e, path, bytes, hinfo, hpublished, hmiss⟩ := h.info
    obtain ⟨hns, hkey, hcompatibility⟩ := envelopeMiss_none hmiss
    obtain ⟨j, hj, compatibility', hby⟩ := hpublished.by hns hkey
    obtain rfl := hby.envelope.2.2.1.symm.trans hcompatibility
    exact ⟨j, hj, e, path, bytes, hby, hinfo⟩
  · obtain ⟨e, hpublished, hns, hkey⟩ := h.payload
    obtain ⟨j, hj, compatibility', hby⟩ := hpublished.by hns hkey
    exact ⟨j, hj, e, compatibility', hby⟩

/-- A hash that tells the published payloads apart ties the payload to its info. -/
theorem whole_of_found {sha256 : List UInt8 → ContentDigest}
    (hsha : ∀ i, (users i).service.sha256 = sha256)
    (hinj : Set.InjOn sha256 {bytes | ∃ e, Published users active e bytes})
    (hc : c.sha256 = sha256)
    (h : Found (Published users active) c ns key compatibility .full entry) :
    Whole users active ns key compatibility entry := by
  obtain ⟨e, path, bytes, hinfo, hpublished, hmiss⟩ := h.info
  obtain ⟨hns, hkey, hcompatibility⟩ := envelopeMiss_none hmiss
  obtain ⟨j, hj, compatibility', hby⟩ := hpublished.by hns hkey
  obtain ⟨_, _, hsame, hdigest⟩ := hby.envelope
  obtain rfl := hsame.symm.trans hcompatibility
  obtain ⟨e', hpublished', _⟩ := h.payload
  have hpayload : entry.payload = bytes := by
    refine hinj ⟨e', hpublished'⟩ ⟨e, hpublished⟩ ?_
    calc sha256 entry.payload
      _ = entry.info.payloadDigest := by rw [← hc]; exact h.digest rfl
      _ = e.payloadDigest := by rw [hinfo]; rfl
      _ = sha256 bytes := by rw [hdigest, hsha]
  exact ⟨j, hj, e, path, hpayload ▸ hby, hinfo⟩

/-! ## Calls -/

variable {process : Nat} {others : Nat → Prop}

theorem acts_evictCandidates {D : Discipline} {maximumBytes : Nat} {reason : EvictionReason}
    (h : ∀ ns key, D.Evicting ns key) : ∀ {candidates : List CacheCandidate} {estimated : Nat},
    D.acts (evictCandidates c maximumBytes reason candidates estimated)
  | [], _ => Discipline.acts_pure _
  | candidate :: rest, estimated => by
    unfold evictCandidates
    split
    · exact Discipline.acts_pure _
    · refine Discipline.acts_bind Discipline.acts_checkCancelled fun _ =>
        Discipline.acts_bind (Discipline.acts_evict (h _ _)) fun record => ?_
      cases record with
      | none => exact acts_evictCandidates h
      | some record =>
        exact Discipline.acts_bind (acts_evictCandidates h) fun _ => Discipline.acts_pure _

theorem acts_evictTo {D : Discipline} {maximumBytes : Nat} {reason : EvictionReason}
    (h : ∀ ns key, D.Evicting ns key) : D.acts (evictTo c maximumBytes reason) := by
  have hsize : D.acts versionSize :=
    Discipline.acts_bind Discipline.acts_checkCancelled fun _ =>
      Discipline.acts_bind Discipline.acts_visitEntries fun _ =>
        Discipline.acts_attempt (D.step (D.reading trivial))
  exact Discipline.acts_bind hsize fun _ => Discipline.acts_bind Discipline.acts_checkCancelled
    fun _ => Discipline.acts_bind Discipline.acts_scanCandidates fun _ =>
      Discipline.acts_bind (acts_evictCandidates h) fun _ => Discipline.acts_bind hsize fun _ =>
        Discipline.acts_pure _

theorem yields_user {sha256 : List UInt8 → ContentDigest}
    (hsha : ∀ i, (users i).service.sha256 = sha256)
    (hinj : Set.InjOn sha256 {bytes | ∃ e, Published users active e bytes})
    (hothers : ¬others process) (hi : active i) :
    (soundProtocol (Published users active) process others).Yields (users i).action
      (Genuine users active (users i).use) := by
  have hpublishes : ∀ {ns key compatibility reader},
      (users i).use = .publish ns key compatibility reader → Reader.Ends reader → ∀ created,
        Published users active (envelopeOf (users i).service ns key compatibility
          (Reader.content reader) created) (Reader.content reader) := by
    intro ns key compatibility reader huse hends created
    exact ⟨i, hi, ns, key, compatibility, reader, huse, ⟨hends, created, rfl⟩, rfl⟩
  unfold User.action
  cases huse : (users i).use with
  | publish ns key compatibility reader =>
    refine yields_bind (yields_publishReader hothers (hpublishes huse)) fun publication h => ?_
    refine yields_pure ?_
    cases publication with
    | reused entry => exact whole_of_found hsha hinj (hsha i) h
    | published entry =>
      obtain ⟨⟨e, hsealed, hinfo⟩, ⟨e', hpublished, hns, hkey⟩, hlength⟩ := h
      obtain ⟨j, hj, compatibility', hby⟩ := hpublished.by hns hkey
      exact ⟨⟨i, hi, e, _, _, ⟨reader, huse, hsealed, rfl⟩, hinfo⟩,
        ⟨j, hj, e', compatibility', hby⟩, hlength⟩
  | lookup ns key compatibility validation =>
    refine yields_bind yields_lookup fun found h => yields_pure ?_
    cases found with
    | miss reason => cases validation <;> trivial
    | hit entry =>
      cases validation with
      | full => exact whole_of_found hsha hinj (hsha i) (h entry rfl)
      | trustedMetadata => exact paired_of_found (h entry rfl)
  | evict ns key reason =>
    exact yields_first (Discipline.acts_evict sound_evicting) fun _ => yields_pure trivial
  | evictTo maximumBytes reason =>
    exact yields_first (acts_evictTo fun _ _ => sound_evicting) fun _ => yields_pure trivial
  | inspect => exact yields_bind yields_inspect fun inspection h => yields_pure h

/-- **Answers are genuine.** Whatever users share a cache, in whatever order they take their
steps, whatever fails and wherever they stop: an entry that a lookup under full validation
finds, or that a publication reuses, is the entry of one publication of the key with the
compatibility by a user that took part, with all of its bytes. -/
theorem answers_genuine {users : Nat → User} {sha256 : List UInt8 → ContentDigest}
    (hsha : ∀ i, (users i).service.sha256 = sha256) {active : Nat → Prop}
    (hinj : Set.InjOn sha256 {bytes | ∃ e, Published users active e bytes})
    {t : Pool FileOp FileOp.Resp (Result Answer) Files}
    (hrun : ReachableUnder userAct (fun a _ => active a.1) (startUsers users) t) {i : Nat}
    (hi : active i) {answer : Answer} (hret : t.1 i = .ret (.ok answer)) :
    Genuine users active (users i).use answer := by
  have hstart : ∀ i, active i →
      Guards FileOp.eval (soundProtocol (Published users active) i (· ≠ i))
        ((startUsers users).1 i)
        (After (fun answer _ => Genuine users active (users i).use answer) fun _ => True)
        (startUsers users).2 :=
    fun i hi => yields_user hsha hinj (fun h => h rfl) hi .empty
  have hkeeps : ∀ (i j : Nat) (s u : Files), i ≠ j →
      (soundProtocol (Published users active) i (· ≠ i)).guarantee s u →
      (soundProtocol (Published users active) j (· ≠ j)).rely s u := by
    intro i j s u hij h
    refine Keeps.mono h fun n hn => ?_
    subst hn
    exact hij.symm
  have hadmits : ∀ (i : Nat) (e : Env) (s : Pool FileOp FileOp.Resp (Result Answer) Files)
      (o : FileOp) (k : o.Resp → Program FileOp FileOp.Resp (Result Answer)), active i →
      s.1 i = .op o k → (soundProtocol (Published users active) i (· ≠ i)).admits o
        ({ e with process := i }) s.2 := fun i e s o k _ _ => rfl
  have hinv : ∀ (i : Nat) (s : Files), (soundProtocol (Published users active) i (· ≠ i)).inv s ↔
      Files.Sound (Published users active) s := fun _ _ => Iff.rfl
  have hactive : ∀ (i : Nat) (e : Env) (s : Pool FileOp FileOp.Resp (Result Answer) Files),
      active (i, e).1 → active i := fun _ _ _ h => h
  obtain ⟨hsound, hguards⟩ := pool_sound_among (P := fun i =>
    soundProtocol (Published users active) i (· ≠ i)) hactive hinv hkeeps hadmits sound_empty hstart
    hrun
  have hreturned := hguards i hi
  rw [hret] at hreturned
  exact hreturned.ret hsound

end Users

/-! ## Two processes in turn -/

namespace Sample

section Turns
variable {α : Type}

/-- The run of one process, alone. -/
def runProcess (start : Nat → Program FileOp FileOp.Resp α) (process n : Nat) (fs : Files) :
    Option α × Nat × Files :=
  runFor FileOp.eval (fun n => { env n with process := process }) 100 (start process) n fs

/-- Process 0 runs to its end, and then process 1. -/
theorem reachable_inTurn {start : Nat → Program FileOp FileOp.Resp α} {fs : Files} {n n' : Nat}
    {r r' : α} (h : (runProcess start 0 n fs).1 = some r)
    (h' : (runProcess start 1 n' (runProcess start 0 n fs).2.2).1 = some r') :
    ReachableUnder (poolAct FileOp.eval fun process env => { env with process := process })
      (fun _ _ => True) (start, fs) (Function.update (Function.update start 0 (.ret r)) 1 (.ret r'),
        (runProcess start 1 n' (runProcess start 0 n fs).2.2).2.2) := by
  have hpool : Function.update start 0 (.ret r) 1 = start 1 :=
    Function.update_of_ne Nat.one_ne_zero _ _
  exact Relation.ReflTransGen.trans
    (@reachable_runFor FileOp Env Files FileOp.Resp _ FileOp.eval
      (fun process env => { env with process := process }) 0 env 100 n _ r start fs rfl h)
    (@reachable_runFor FileOp Env Files FileOp.Resp _ FileOp.eval
      (fun process env => { env with process := process }) 1 env 100 n' _ r' _ _ hpool h')

end Turns

/-! ## A publisher and a reader -/

/-- User 0 publishes a payload and the others look it up. -/
def users : Nat → User
  | 0 => ⟨service, .publish .plan (digest 2) compatibility [.ok abc]⟩
  | _ => ⟨service, .lookup .plan (digest 2) compatibility .full⟩

/-- The publication, alone. -/
def publication : Option (Result Answer) × Nat × Files :=
  runProcess (startUsers users).1 0 0 .empty

/-- The lookup, after the publication. -/
def reading : Option (Result Answer) × Nat × Files :=
  runProcess (startUsers users).1 1 publication.2.1 publication.2.2

def foundBytes : Option (Result Answer) → Option (List UInt8)
  | some (.ok (.found (.hit entry))) => some entry.payload
  | _ => none

theorem foundBytes_some {r : Option (Result Answer)} {bytes : List UInt8}
    (h : foundBytes r = some bytes) :
    ∃ entry, r = some (.ok (.found (.hit entry))) ∧ entry.payload = bytes := by
  unfold foundBytes at h
  split at h
  · next entry => exact ⟨entry, rfl, Option.some.inj h⟩
  · cases h

theorem published_users {active : Nat → Prop} {e : CacheEnvelope} {bytes : List UInt8}
    (h : Published users active e bytes) : bytes = abc := by
  obtain ⟨j, _, ns, key, compatibility, reader, huse, _, rfl⟩ := h
  cases j with
  | zero =>
    obtain ⟨_, _, _, rfl⟩ := Use.publish.inj huse
    rfl
  | succ j => cases huse

end Sample

theorem answers_genuine_sample : ∃ t entry,
    ReachableUnder userAct (fun _ _ => True) (startUsers Sample.users) t ∧
    t.1 1 = .ret (.ok (.found (.hit entry))) ∧ entry.payload = Sample.abc ∧
    Whole Sample.users (fun _ => True) .plan (Sample.digest 2) Sample.compatibility entry := by
  have hfirst : Sample.publication.1.isSome = true := by decide +kernel
  have hsecond : Sample.foundBytes Sample.reading.1 = some Sample.abc := by decide +kernel
  obtain ⟨r, hr⟩ := Option.isSome_iff_exists.mp hfirst
  obtain ⟨entry, hentry, hbytes⟩ := Sample.foundBytes_some hsecond
  have hrun := Sample.reachable_inTurn hr hentry
  have hsha : ∀ i, (Sample.users i).service.sha256 = Sample.service.sha256 := by
    intro i
    cases i <;> rfl
  have hinj : Set.InjOn Sample.service.sha256
      {bytes | ∃ e, Published Sample.users (fun _ => True) e bytes} := by
    rintro bytes ⟨_, hb⟩ bytes' ⟨_, hb'⟩ _
    rw [Sample.published_users hb, Sample.published_users hb']
  have hret : (Function.update (Function.update (startUsers Sample.users).1 0 (.ret r)) 1
      (.ret (.ok (.found (.hit entry))))) 1 = .ret (.ok (.found (.hit entry))) :=
    Function.update_self ..
  exact ⟨_, entry, hrun, hret, hbytes, @answers_genuine _ _ hsha (fun _ => True) hinj _ hrun 1 trivial
    _ hret⟩

end ModelWeights.Cache
