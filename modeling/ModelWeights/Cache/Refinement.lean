import ModelWeights.Cache.Inventory

/-! # The cache as a map

What the cache is for: a finite map from namespaces and keys to payloads. A sequence of
calls on the file system answers as the map does. -/
namespace ModelWeights.Cache
open Program

/-! ## The map -/

/-- What the map holds under a namespace and a key. -/
structure Stored where
  compatibility : CacheCompatibility
  payload : List UInt8
  deriving DecidableEq

abbrev Place := CacheNamespace ×ₗ CacheKey

abbrev Store := OrderedMap Place Stored

inductive Call where
  | publish (ns : CacheNamespace) (key : CacheKey) (compatibility : CacheCompatibility)
    (payload : List UInt8) (fits : InMemory payload)
  | lookup (ns : CacheNamespace) (key : CacheKey) (compatibility : CacheCompatibility)
    (validation : CacheValidation)
  | evict (ns : CacheNamespace) (key : CacheKey) (reason : EvictionReason)
  | inspect
  | recoverStale

/-- An entry as it is reported: all of its info but the creation time. -/
structure Summary where
  ns : CacheNamespace
  key : CacheKey
  compatibility : CacheCompatibility
  payloadLen : Nat
  payloadDigest : ContentDigest
  payloadPath : Path
  deriving DecidableEq

/-- What a caller learns from a call. The creation times and the sizes of metadata
files are left out, which the map does not hold. -/
inductive Reply where
  | published (summary : Summary) (payload : List UInt8)
  | reused (summary : Summary) (payload : List UInt8)
  | hit (summary : Summary) (payload : List UInt8)
  | miss (reason : CacheMissReason)
  | evicted (place : Option (CacheNamespace × CacheKey × EvictionReason))
  | inspection (entries : List Summary) (invalidEntries payloadBytes : Nat)
  | recovery (report : RecoveryReport)
  | failed (error : Error)
  deriving DecidableEq

section Map
variable (sha256 : List UInt8 → ContentDigest)

def Stored.summary (ns : CacheNamespace) (key : CacheKey) (x : Stored) : Summary where
  ns := ns
  key := key
  compatibility := x.compatibility
  payloadLen := x.payload.length
  payloadDigest := sha256 x.payload
  payloadPath := entryPath ns key

/-- What the map answers to a call, and the map after it. -/
def Call.answer (m : Store) : Call → Reply × Store
  | .publish ns key compatibility payload _ =>
    match (m.get? (toLex (ns, key))).filter fun x => x.compatibility = compatibility with
    | some x => (.reused (x.summary sha256 ns key) x.payload, m)
    | none => (.published (Stored.summary sha256 ns key ⟨compatibility, payload⟩) payload,
      m.insert (toLex (ns, key)) ⟨compatibility, payload⟩)
  | .lookup ns key compatibility _ =>
    match m.get? (toLex (ns, key)) with
    | none => (.miss .notFound, m)
    | some x =>
      if x.compatibility = compatibility then (.hit (x.summary sha256 ns key) x.payload, m)
      else (.miss (.compatibilityMismatch x.compatibility), m)
  | .evict ns key reason =>
    (.evicted ((m.get? (toLex (ns, key))).map fun _ => (ns, key, reason)),
      m.erase (toLex (ns, key)))
  | .inspect =>
    (.inspection (m.entries.map fun e => e.2.summary sha256 (ofLex e.1).1 (ofLex e.1).2) 0
      (min (m.entries.map fun e => e.2.payload.length).sum (u64Size - 1)), m)
  | .recoverStale => (.recovery ⟨0, 0, 0⟩, m)

/-- The answers to a sequence of calls, each with the map after it. -/
def answers : List Call → Store → List (Reply × Store)
  | [], _ => []
  | call :: rest, m => call.answer sha256 m :: answers rest (call.answer sha256 m).2

end Map

/-! ## The calls on files -/

def CacheEntryInfo.summary (info : CacheEntryInfo) : Summary where
  ns := info.ns
  key := info.key
  compatibility := info.compatibility
  payloadLen := info.payloadLen
  payloadDigest := info.payloadDigest
  payloadPath := info.payloadPath

def Reply.ofPublication : CachePublication → Reply
  | .published entry => .published entry.info.summary entry.payload
  | .reused entry => .reused entry.info.summary entry.payload

def Reply.ofLookup : CacheLookup → Reply
  | .hit entry => .hit entry.info.summary entry.payload
  | .miss reason => .miss reason

def Reply.ofEviction (record : Option EvictionRecord) : Reply :=
  .evicted (record.map fun r => (r.ns, r.key, r.reason))

def Reply.ofInspection (i : CacheInspection) : Reply :=
  .inspection (i.entries.map CacheEntryInfo.summary) i.invalidEntries i.payloadBytes

/-- What a caller learns from the result of an action. -/
def replying {α : Type} (reply : α → Reply) (action : Action α) : Task Reply := do
  match ← action.run with
  | .ok a => pure (reply a)
  | .error e => pure (.failed e)

def Call.task (c : CacheService) : Call → Task Reply
  | .publish ns key compatibility payload _ =>
    replying .ofPublication (publishBytes c ns key compatibility payload)
  | .lookup ns key compatibility validation =>
    replying .ofLookup (Cache.lookup c ns key compatibility validation)
  | .evict ns key reason => replying .ofEviction (Cache.evict c ns key reason)
  | .inspect => replying .ofInspection Cache.inspect
  | .recoverStale => replying .recovery (Cache.recoverStale c)

/-- A call in a run. -/
structure Event where
  call : Call
  before : Files
  reply : Reply
  after : Files

/-- A sequence of calls, one after another. -/
def runCalls (c : CacheService) (env : Nat → Env) : List Call → Nat → Files → List Event
  | [], _, _ => []
  | call :: rest, n, fs =>
    let (reply, n, t) := Program.run FileOp.eval env (call.task c) n fs
    ⟨call, fs, reply, t⟩ :: runCalls c env rest n t

/-- A cache that was just opened in a new directory. -/
def Files.empty : Files := ⟨[], .empty, fun _ => Files.newDirectory 0 0, 0⟩

/-- The key that a call is about. -/
def Call.place? : Call → Option (CacheNamespace × CacheKey)
  | .publish ns key _ _ _ | .lookup ns key _ _ | .evict ns key _ => some (ns, key)
  | .inspect | .recoverStale => none

/-! ## Representation -/

def Content.stored (x : Content) : Stored := ⟨x.compatibility, x.payload⟩

/-- The files hold the entries of a map, at some creation times. -/
def Represents (c : CacheService) (m : Store) (fs : Files) : Prop :=
  ∃ contents, Settled c contents fs ∧
    ∀ ns key, (contents ns key).map Content.stored = m.get? (toLex (ns, key))

/-- No staging, replacement, evicted or lease directory is there. -/
def OnlyEntries (fs : Files) : Prop := ∀ path, (fs.at? path).isSome → path.name.isFinal = true

theorem Represents.onlyEntries {c : CacheService} {m : Store} {fs : Files}
    (h : Represents c m fs) : OnlyEntries fs := by
  obtain ⟨contents, hsettled, _⟩ := h
  intro path hsome
  cases hfinal : path.name.isFinal with
  | true => rfl
  | false =>
    rw [hsettled.bare path.ns path.name.key path.name rfl hfinal] at hsome
    cases hsome

theorem represents_empty (c : CacheService) : Represents c .empty .empty := by
  refine ⟨fun _ _ => none, ⟨⟨List.nodup_nil, ?_, ?_, ?_⟩, fun _ _ => rfl, fun _ _ _ _ _ => rfl⟩,
    fun _ _ => rfl⟩
  · exact fun path inode h => by cases h
  · exact fun path inode h => by cases h
  · exact fun p q inode h => by cases h

/-! ## One call -/

section Step
variable {c : CacheService} {m : Store} {fs : Files} {ns : CacheNamespace} {key : CacheKey}

/-- What one call does: the reply of the map, the files of the map after it, and every
other entry as it was. -/
def Refines (c : CacheService) (m : Store) (call : Call) (fs : Files) (reply : Reply) (t : Files) :
    Prop :=
  reply = (call.answer c.sha256 m).1 ∧ Represents c (call.answer c.sha256 m).2 t ∧
    ∀ ns key, call.place? ≠ some (ns, key) →
      t.at? (entryPath ns key) = fs.at? (entryPath ns key)

theorem ensures_replying {α : Type} {reply : α → Reply} {action : Action α}
    {P : α → Files → Prop} (h : Meets action (fun r t => ∃ a, r = .ok a ∧ P a t) fs) :
    Ensures (replying reply action) (fun x t => ∃ a, x = reply a ∧ P a t) fs := by
  unfold replying
  refine ensures_bind.mpr (Ensures.mono h fun r t hr => ?_)
  obtain ⟨a, rfl, ha⟩ := hr
  exact ⟨a, rfl, ha⟩

theorem ensures_replying_reads {α : Type} {reply : α → Reply} {action : Action α} {a : α}
    (h : Reads action fs (.ok a)) :
    Ensures (replying reply action) (fun x t => x = reply a ∧ t = fs) fs := by
  refine (ensures_replying (P := fun b t => b = a ∧ t = fs) (Meets.mono h fun r t hr =>
    ⟨a, hr.1, rfl, hr.2⟩)).mono fun x t hx => ?_
  obtain ⟨_, rfl, rfl, rfl⟩ := hx
  exact ⟨rfl, rfl⟩

/-- The entry of one key was replaced or removed. -/
theorem Represents.changes {contents : Contents} {m' : Store} {t : Files} {e : Option Content}
    (h : Settled c contents fs)
    (hm : ∀ ns key, (contents ns key).map Content.stored = m.get? (toLex (ns, key)))
    (hchanges : Changes [entryPath ns key] fs t) (hholds : HoldsAt c t ns key e)
    (hself : m'.get? (toLex (ns, key)) = e.map Content.stored)
    (hother : ∀ p, p ≠ toLex (ns, key) → m'.get? p = m.get? p) : Represents c m' t := by
  refine ⟨_, h.changes hchanges hholds, fun ns' key' => ?_⟩
  by_cases hp : ns' = ns ∧ key' = key
  · obtain ⟨rfl, rfl⟩ := hp
    rw [if_pos ⟨rfl, rfl⟩, hself]
  · have hne : (toLex (ns', key') : Place) ≠ toLex (ns, key) := fun he =>
      hp (Prod.mk.inj (toLex.injective he))
    rw [if_neg hp, hother _ hne, hm]

theorem Changes.frame {t : Files} (h : Changes [entryPath ns key] fs t) {ns' : CacheNamespace}
    {key' : CacheKey} (hne : some (ns, key) ≠ some (ns', key')) :
    t.at? (entryPath ns' key') = fs.at? (entryPath ns' key') := by
  refine h.same _ fun hm => hne ?_
  obtain ⟨rfl, hname⟩ := Path.mk.inj (List.mem_singleton.mp hm)
  rw [Name.final.inj hname]

theorem filter_stored {e : Option Content} {compatibility : CacheCompatibility} :
    (e.map Content.stored).filter (fun x => x.compatibility = compatibility) =
      (reusable e compatibility).map Content.stored := by
  cases e with
  | none => rfl
  | some x =>
    rw [Option.map_some, reusable, Option.filter_some, Option.filter_some]
    show (if decide (x.compatibility = compatibility) = true then some x.stored else none) = _
    split <;> rfl

theorem refines_publish (h : Represents c m fs) (hpolls : 0 < c.polls) (hfits : c.Fits)
    {compatibility : CacheCompatibility} {payload : List UInt8} (hpayload : InMemory payload) :
    Ensures (Call.task c (.publish ns key compatibility payload hpayload))
      (Refines c m (.publish ns key compatibility payload hpayload) fs) fs := by
  obtain ⟨contents, hsettled, hm⟩ := h
  refine (ensures_replying (meets_publishBytes hsettled.valid hpolls hfits hpayload
    (hsettled.bare ns key) (hsettled.holds ns key))).mono fun reply t ht => ?_
  obtain ⟨a, rfl, ⟨created, ha, hholds⟩, hchanges⟩ := ht
  have hfilter : (m.get? (toLex (ns, key))).filter (fun x => x.compatibility = compatibility) =
      (reusable (contents ns key) compatibility).map Content.stored := by
    rw [← hm, filter_stored]
  simp only [Refines, Call.answer, hfilter]
  cases hreuse : reusable (contents ns key) compatibility with
  | some x =>
    have hx : contents ns key = some x := (Option.filter_eq_some_iff.mp hreuse).1
    rw [publication, hreuse] at ha hholds
    refine ⟨by rw [ha]; rfl, ?_, fun _ _ hne => hchanges.frame hne⟩
    exact Represents.changes hsettled hm hchanges hholds ((hm ns key).symm.trans (by rw [hx])) fun _ _ => rfl
  | none =>
    rw [publication, hreuse] at ha hholds
    refine ⟨by rw [ha]; rfl, ?_, fun _ _ hne => hchanges.frame hne⟩
    refine Represents.changes hsettled hm hchanges hholds ?_ fun p hp => ?_
    · exact (OrderedMap.get?_insert m _ _ _).trans (if_pos rfl)
    · exact (OrderedMap.get?_insert m _ _ _).trans (if_neg hp)

theorem refines_lookup (h : Represents c m fs) {compatibility : CacheCompatibility}
    {validation : CacheValidation} :
    Ensures (Call.task c (.lookup ns key compatibility validation))
      (Refines c m (.lookup ns key compatibility validation) fs) fs := by
  have hrep := h
  obtain ⟨contents, hsettled, hm⟩ := h
  have hreads := @reads_lookup c fs ns key compatibility validation (contents ns key)
    (hsettled.holds ns key) fun token => hsettled.bare ns key _ rfl rfl
  refine (ensures_replying_reads hreads).mono fun reply t ht => ?_
  obtain ⟨rfl, rfl⟩ := ht
  have hanswer : (Reply.ofLookup (lookupResult c ns key compatibility (contents ns key)), m) =
      (Call.lookup ns key compatibility validation).answer c.sha256 m := by
    rw [Call.answer, ← hm]
    cases contents ns key with
    | none => rfl
    | some x =>
      simp only [Option.map_some, lookupResult, Content.found, Content.stored]
      by_cases hcompat : x.compatibility = compatibility
      · rw [if_pos hcompat, if_pos hcompat]
        rfl
      · rw [if_neg hcompat, if_neg hcompat]
        rfl
  rw [Refines, ← hanswer]
  exact ⟨rfl, hrep, fun _ _ _ => rfl⟩

theorem refines_evict (h : Represents c m fs) (hpolls : 0 < c.polls) {reason : EvictionReason} :
    Ensures (Call.task c (.evict ns key reason)) (Refines c m (.evict ns key reason) fs) fs := by
  obtain ⟨contents, hsettled, hm⟩ := h
  refine (ensures_replying (meets_evict hsettled.valid hpolls (hsettled.bare ns key)
    (hsettled.holds ns key))).mono fun reply t ht => ?_
  obtain ⟨a, rfl, ha, hholds, hchanges⟩ := ht
  refine ⟨?_, ?_, fun _ _ hne => hchanges.frame hne⟩
  · rw [ha, Reply.ofEviction, Call.answer, ← hm, Option.map_map, Option.map_map]
    have hheld := (hsettled.holds ns key).map_const (b := (ns, key, reason))
    exact congrArg Reply.evicted hheld
  · refine Represents.changes hsettled hm hchanges hholds ?_ fun p hp => ?_
    · exact (OrderedMap.get?_erase m _ _).trans (if_pos rfl)
    · exact (OrderedMap.get?_erase m _ _).trans (if_neg hp)

/-- Both lists are in the order of places, and have the same members. -/
theorem Lists.summaries {contents : Contents} {inspection : CacheInspection}
    (h : Lists c contents inspection)
    (hm : ∀ ns key, (contents ns key).map Content.stored = m.get? (toLex (ns, key))) :
    inspection.entries.map CacheEntryInfo.summary =
      m.entries.map fun e => e.2.summary c.sha256 (ofLex e.1).1 (ofLex e.1).2 := by
  have heq : inspection.entries.map (fun info => (info.place, info.summary)) =
      m.entries.map fun e => (e.1, e.2.summary c.sha256 (ofLex e.1).1 (ofLex e.1).2) := by
    refine OrderedMap.entries_eq (List.pairwise_map.mpr h.sorted)
      (List.pairwise_map.mpr m.sorted) fun e => ?_
    rw [List.mem_map, List.mem_map]
    constructor
    · rintro ⟨info, hinfo, rfl⟩
      obtain ⟨ns, key, x, hx, rfl⟩ := (h.mem info).mp hinfo
      have hget : m.get? (toLex (ns, key)) = some x.stored := by
        rw [← hm, hx]
        rfl
      exact ⟨(toLex (ns, key), x.stored), OrderedMap.get?_eq_some.mp hget, rfl⟩
    · rintro ⟨⟨p, y⟩, hmem, rfl⟩
      have hget := (hm (ofLex p).1 (ofLex p).2).trans (OrderedMap.get?_eq_some.mpr hmem)
      obtain ⟨x, hx, rfl⟩ := Option.map_eq_some_iff.mp hget
      exact ⟨_, (h.mem _).mpr ⟨_, _, x, hx, rfl⟩, rfl⟩
  have hsnd := congrArg (List.map Prod.snd) heq
  rwa [List.map_map, List.map_map] at hsnd

theorem refines_inspect (h : Represents c m fs) :
    Ensures (Call.task c .inspect) (Refines c m .inspect fs) fs := by
  have hrep := h
  obtain ⟨contents, hsettled, hm⟩ := h
  obtain ⟨inspection, hreads, hlists⟩ := reads_inspect hsettled
  refine (ensures_replying_reads hreads).mono fun reply t ht => ?_
  obtain ⟨rfl, rfl⟩ := ht
  have hsummaries := hlists.summaries hm
  have hbytes : inspection.entries.map CacheEntryInfo.payloadLen =
      m.entries.map fun e => e.2.payload.length := by
    have hlen := congrArg (List.map Summary.payloadLen) hsummaries
    rwa [List.map_map, List.map_map] at hlen
  refine ⟨?_, hrep, fun _ _ _ => rfl⟩
  rw [Reply.ofInspection, hsummaries, hlists.invalid, hlists.payload, hbytes]
  rfl

theorem refines_recoverStale (h : Represents c m fs) :
    Ensures (Call.task c .recoverStale) (Refines c m .recoverStale fs) fs := by
  have hrep := h
  obtain ⟨contents, hsettled, _⟩ := h
  refine (ensures_replying_reads (reads_recoverStale hsettled)).mono fun reply t ht => ?_
  obtain ⟨rfl, rfl⟩ := ht
  exact ⟨rfl, hrep, fun _ _ _ => rfl⟩

theorem refines_call (h : Represents c m fs) (hpolls : 0 < c.polls) (hfits : c.Fits) (call : Call) :
    Ensures (call.task c) (Refines c m call fs) fs := by
  cases call with
  | publish ns key compatibility payload hpayload => exact refines_publish h hpolls hfits hpayload
  | lookup ns key compatibility validation => exact refines_lookup h
  | evict ns key reason => exact refines_evict h hpolls
  | inspect => exact refines_inspect h
  | recoverStale => exact refines_recoverStale h

end Step

/-! ## Sequences of calls -/

/-- An event of a run beside the answer of the map. -/
structure Event.Agrees (c : CacheService) (event : Event) (answer : Reply × Store) : Prop where
  reply : event.reply = answer.1
  represents : Represents c answer.2 event.after
  onlyEntries : OnlyEntries event.after
  frame : ∀ ns key, event.call.place? ≠ some (ns, key) →
    event.after.at? (entryPath ns key) = event.before.at? (entryPath ns key)

theorem runCalls_agrees {c : CacheService} {env : Nat → Env} (henv : ∀ n, (env n).Quiet)
    (hpolls : 0 < c.polls) (hfits : c.Fits) : ∀ {calls : List Call} {n : Nat} {fs : Files}
    {m : Store}, Represents c m fs →
    List.Forall₂ (Event.Agrees c) (runCalls c env calls n fs) (answers c.sha256 calls m)
  | [], _, _, _, _ => .nil
  | call :: rest, n, fs, m, h => by
    obtain ⟨hreply, hrep, hframe⟩ := @run_of_wp _ _ _ _ _ _ _ env henv (call.task c) _ n fs
      (refines_call h hpolls hfits call)
    exact .cons ⟨hreply, hrep, hrep.onlyEntries, hframe⟩ (runCalls_agrees henv hpolls hfits hrep)

/-- **The cache is a map.** Every call of a sequence on a new cache answers what the
map answers. After every call the files hold the entries of the map and no other
directory, and the entries of the other keys are untouched. -/
theorem calls_refine_map (c : CacheService) (hpolls : 0 < c.polls) (hfits : c.Fits)
    (env : Nat → Env) (henv : ∀ n, (env n).Quiet) (calls : List Call) :
    List.Forall₂ (Event.Agrees c) (runCalls c env calls 0 .empty)
      (answers c.sha256 calls .empty) :=
  runCalls_agrees henv hpolls hfits (represents_empty c)

namespace Sample

def digest (b : UInt8) : ContentDigest := ⟨List.replicate 32 b, by simp⟩

/-- SHA-256 of the text `abc`. -/
def abcDigest : ContentDigest where
  bytes := [186, 120, 22, 191, 143, 1, 207, 234, 65, 65, 64, 222, 93, 174, 34, 35, 176, 3, 97, 163,
    150, 23, 122, 156, 180, 16, 255, 97, 242, 0, 21, 173]
  length_eq := rfl

def abc : List UInt8 := [97, 98, 99]

theorem inMemory_abc : InMemory abc := by decide

/-- The JSON of the sample's envelope has 373 bytes. -/
def service : CacheService where
  options := ⟨1000, 1000⟩
  sha256 := fun bytes => if bytes = abc then abcDigest else digest 0
  envelopeLength := fun _ => 373
  polls := 1

def env : Nat → Env := fun _ => ⟨0, 0, "0-0-0", false, false, false, false⟩

def compatibility : CacheCompatibility := ⟨1, digest 1, none⟩

def calls : List Call :=
  [.publish .plan (digest 2) compatibility abc inMemory_abc,
    .lookup .plan (digest 2) compatibility .full, .inspect,
    .evict .plan (digest 2) .explicit, .lookup .plan (digest 2) compatibility .full]

def summary : Summary :=
  Stored.summary service.sha256 .plan (digest 2) ⟨compatibility, abc⟩

end Sample

theorem calls_refine_map_sample :
    List.Forall₂ (Event.Agrees Sample.service)
      (runCalls Sample.service Sample.env Sample.calls 0 .empty)
      (answers Sample.service.sha256 Sample.calls .empty) ∧
    (answers Sample.service.sha256 Sample.calls .empty).map Prod.fst =
      [.published Sample.summary Sample.abc, .hit Sample.summary Sample.abc,
        .inspection [Sample.summary] 0 3, .evicted (some (.plan, Sample.digest 2, .explicit)),
        .miss .notFound] :=
  ⟨calls_refine_map Sample.service (by decide) (fun _ _ _ => show 373 ≤ 65536 by decide) Sample.env
    (fun _ => ⟨rfl, rfl, rfl⟩) Sample.calls, by decide +kernel⟩

end ModelWeights.Cache
