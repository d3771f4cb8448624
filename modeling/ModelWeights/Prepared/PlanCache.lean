import ModelWeights.Cache.Refinement
import ModelWeights.Prepared.HostBytes

/-! # Plans in the cache

`publish_binding_plan` and `lookup_binding_plan` of `materialize.rs`. The plan cache is a
store of plans under their ids: the first plan that was published under an id is the one
that is found. What is found is parsed and planned again, so that nothing is taken on
trust from the files. -/
namespace ModelWeights.Prepared
open Plan Cache Parsing Program
open ModelWeights.Graph (ByteView)

/-! ## Addresses -/

structure PlanCacheAddress where
  key : CacheKey
  compatibility : CacheCompatibility

/-- `PlanCacheAddress::new`. -/
def PlanCacheAddress.new (sha256 : List UInt8 → ContentDigest) (planId : PlanId) :
    PlanCacheAddress :=
  let transform := ContentDigest.hash sha256 "binding-plan-cache-schema-v2"
    [leBytes 4 planSchemaVersion]
  let compatibility := CacheCompatibility.plan (UInt32.ofNat planSchemaVersion) transform
  ⟨CacheKey.derive sha256 .plan compatibility [planId.bytes], compatibility⟩

/-- The key of an id. -/
def planKey (c : CacheService) (planId : PlanId) : CacheKey :=
  (PlanCacheAddress.new c.sha256 planId).key

/-- The bytes behind the key of an id. -/
def planPreimage (c : CacheService) (planId : PlanId) : List UInt8 :=
  keyPreimage .plan (PlanCacheAddress.new c.sha256 planId).compatibility [planId.bytes]

theorem planPreimage_injective (c : CacheService) : Function.Injective (planPreimage c) := by
  intro planId planId' h
  have hmemory : ∀ id : PlanId, ∀ part ∈ [id.bytes], InMemory part := fun id part hpart =>
    List.mem_singleton.mp hpart ▸ inMemory_digest id
  obtain ⟨_, _, hids⟩ := keyPreimage_injective (hmemory planId) (hmemory planId') h
  exact bytes_injective (List.cons.inj hids).1

/-- Keys tell ids apart where SHA-256 tells the bytes behind them apart. -/
theorem planKey_injOn {c : CacheService} {ids : Set PlanId}
    (h : Set.InjOn c.sha256 (planPreimage c '' ids)) : Set.InjOn (planKey c) ids := by
  intro planId hid planId' hid' hkey
  exact planPreimage_injective c (h ⟨planId, hid, rfl⟩ ⟨planId', hid', rfl⟩ hkey)

/-! ## Publication and lookup -/

def maxCachedPlanBytes : Nat := 64 * 1024 * 1024

inductive BindingPlanCacheLookup where
  | hit (plan : BindingPlan)
  | miss (reason : CacheMissReason)

section Calls
variable (c : CacheService) (planner : Planner) (json : PlanJson)

def publishBindingPlan (plan : BindingPlan) : Action CachePublication := do
  let address := PlanCacheAddress.new c.sha256 plan.id
  let bytes := plan.toCanonicalJson json
  if bytes.length > maxCachedPlanBytes then
    throw (.limit "binding plan exceeds the defensive cache byte limit")
  else publishBytes c .plan address.key address.compatibility bytes

def lookupBindingPlan (planId : PlanId) (validation : CacheValidation) :
    Action BindingPlanCacheLookup := do
  let address := PlanCacheAddress.new c.sha256 planId
  match ← lookup c .plan address.key address.compatibility .trustedMetadata with
  | .miss reason => pure (.miss reason)
  | .hit entry =>
    if entry.info.payloadLen > maxCachedPlanBytes then
      throw (.limit "cached binding plan exceeds the defensive byte limit")
    else do
      let bytes ← readCacheEntry c.sha256 entry validation
      let plan ← pureAction (BindingPlan.fromCanonicalJson planner json bytes.bytes)
      if plan.id ≠ planId then
        throw (.integrity
          "cached binding plan identity differs from the requested cache address")
      else pure (.hit plan)

end Calls

/-! ## The store of plans -/

inductive PlanCall where
  | publish (plan : BindingPlan)
  | lookup (planId : PlanId) (validation : CacheValidation)

/-- The id that a call is about. -/
def PlanCall.planId : PlanCall → PlanId
  | .publish plan => plan.id
  | .lookup planId _ => planId

/-- What a caller learns from a call: of a publication, the bytes of the entry. -/
inductive PlanReply where
  | published (bytes : List UInt8)
  | reused (bytes : List UInt8)
  | hit (plan : BindingPlan)
  | miss (reason : CacheMissReason)
  deriving DecidableEq

/-- The plan of an id: the first that was published under it. -/
def heldPlan (plans : List BindingPlan) (planId : PlanId) : Option BindingPlan :=
  plans.find? fun plan => plan.id = planId

/-- What the store answers to a call, and the plans in it after the call. -/
def PlanCall.answer (json : PlanJson) (plans : List BindingPlan) :
    PlanCall → Result PlanReply × List BindingPlan
  | .publish plan =>
    if (plan.toCanonicalJson json).length > maxCachedPlanBytes then
      (.error (.limit "binding plan exceeds the defensive cache byte limit"), plans)
    else match heldPlan plans plan.id with
      | some held => (.ok (.reused (held.toCanonicalJson json)), plans)
      | none => (.ok (.published (plan.toCanonicalJson json)), plans ++ [plan])
  | .lookup planId _ => match heldPlan plans planId with
    | some held => (.ok (.hit held), plans)
    | none => (.ok (.miss .notFound), plans)

/-- The answers to a sequence of calls. -/
def planAnswers (json : PlanJson) : List PlanCall → List BindingPlan → List (Result PlanReply)
  | [], _ => []
  | call :: rest, plans =>
    (call.answer json plans).1 :: planAnswers json rest (call.answer json plans).2

theorem heldPlan_snoc {plans : List BindingPlan} {plan : BindingPlan} {planId : PlanId}
    (h : heldPlan plans plan.id = none) :
    heldPlan (plans ++ [plan]) planId =
      if plan.id = planId then some plan else heldPlan plans planId := by
  rw [heldPlan, List.find?_append]
  by_cases hid : plan.id = planId
  · subst hid
    rw [if_pos rfl, show plans.find? _ = none from h, Option.none_or]
    exact List.find?_cons_of_pos (decide_eq_true rfl)
  · rw [if_neg hid, List.find?_cons_of_neg (by simpa using hid), List.find?_nil, Option.or_none]
    rfl

/-! ## The calls on files -/

def PlanReply.ofPublication : CachePublication → PlanReply
  | .published entry => .published entry.payload
  | .reused entry => .reused entry.payload

def PlanReply.ofLookup : BindingPlanCacheLookup → PlanReply
  | .hit plan => .hit plan
  | .miss reason => .miss reason

section Runs
variable (c : CacheService) (planner : Planner) (json : PlanJson)

def PlanCall.action : PlanCall → Action PlanReply
  | .publish plan => do
    let publication ← publishBindingPlan c json plan
    pure (.ofPublication publication)
  | .lookup planId validation => do
    let found ← lookupBindingPlan c planner json planId validation
    pure (.ofLookup found)

/-- The replies to a sequence of calls, one after another. -/
def runPlanCalls (env : Nat → Env) : List PlanCall → Nat → Files → List (Result PlanReply)
  | [], _, _ => []
  | call :: rest, n, fs =>
    let (reply, n, t) := Program.run FileOp.eval env (call.action c planner json).run n fs
    reply :: runPlanCalls env rest n t

end Runs

/-! ## Reading an entry alone -/

section Reading
variable {fs : Files}

theorem reads_readOpen {message : String} :
    Reads (attempt message (step .readOpen)) fs (.ok ()) := by
  unfold Reads attempt
  rw [meets_step]
  intro env _
  exact ⟨rfl, rfl⟩

/-- Without failures the copy loop comes to the end of the payload. -/
theorem reads_readBlocks {payload : List UInt8} : ∀ {fuel n : Nat}, n ≤ payload.length →
    payload.length ≤ n + fuel →
    Reads (readBlocks payload payload.length fuel (payload.take n)) fs (.ok payload)
  | 0, n, hle, hfuel => by
    obtain rfl : n = payload.length := by omega
    rw [List.take_length]
    exact ⟨rfl, rfl⟩
  | fuel + 1, n, hle, hfuel => by
    have hlength : (payload.take n).length = n := List.length_take_of_le hle
    unfold Reads readBlocks
    rw [hlength]
    by_cases hlt : n < payload.length
    · rw [if_pos hlt]
      refine reads_checkCancelled.bind (reads_readOpen.bind ?_)
      have hblock : 0 < min payload.length cacheReadBlockBytes :=
        Nat.lt_min.mpr ⟨by omega, by decide⟩
      generalize hk : min (payload.length - n) (min payload.length cacheReadBlockBytes) = k
      have hpos : 0 < k := hk ▸ Nat.lt_min.mpr ⟨by omega, hblock⟩
      have hkle : k ≤ payload.length - n := hk ▸ Nat.min_le_left _ _
      have hchunk : ((payload.drop n).take k).isEmpty = false := by
        rw [List.isEmpty_eq_false_iff, ← List.length_pos_iff, List.length_take, List.length_drop]
        omega
      dsimp only
      rw [hchunk, ← List.take_add]
      exact reads_readBlocks (by omega) (by omega)
    · rw [if_neg hlt, List.take_of_length_le (Nat.not_lt.mp hlt)]
      exact ⟨rfl, rfl⟩

/-- Without failures an entry is read whole, and the digest of its envelope is the one of
its payload. -/
theorem reads_readCacheEntry {c : CacheService} {content : Content} {ns : CacheNamespace}
    {key : CacheKey} {validation : CacheValidation} :
    Reads (readCacheEntry c.sha256 (content.entry c ns key) validation) fs
      (.ok (.fromBoxed content.payload)) := by
  unfold Reads readCacheEntry
  refine reads_checkCancelled.bind (Reads.bind (@reads_readBlocks fs content.payload
    content.payload.length 0 (Nat.zero_le _) (Nat.le_add_left _ _))
    (reads_checkCancelled.bind (reads_readOpen.bind ?_)))
  have hlength : ¬(content.entry c ns key).payload.length ≠
      (content.entry c ns key).info.payloadLen := not_not.mpr rfl
  have hdigest : ¬(validation = .full ∧ c.sha256 content.payload ≠
      (content.entry c ns key).info.payloadDigest) := fun h => h.2 rfl
  rw [if_neg hlength, if_neg hdigest]
  exact ⟨rfl, rfl⟩

/-- What an action alone reads is a value that it can return. -/
theorem produces_of_reads {α : Type} {x : Action α} {a : α} (h : Reads x fs (.ok a)) :
    Produces x a := by
  have hquiet : ∀ n, (Cache.Sample.env n).Quiet := fun _ => ⟨rfl, rfl, rfl⟩
  have hrun := (@run_of_wp _ _ _ _ _ _ _ Cache.Sample.env hquiet x.run _ 0 fs h).1
  have hreturns : Returns x.run (Program.run FileOp.eval Cache.Sample.env x.run 0 fs).1 :=
    returns_run
  rwa [hrun] at hreturns

theorem reads_pureAction {α : Type} {a : α} : Reads (pureAction (.ok a)) fs (.ok a) := ⟨rfl, rfl⟩

end Reading

/-! ## The files hold the store -/

/-- A plan that the cache can give back: it was built, its JSON text is read as it was
written, and the text is not too long. -/
structure Cacheable (planner : Planner) (json : PlanJson) (plan : BindingPlan) : Prop where
  built : Built planner plan
  faithful : json.parse (json.print plan.document) = some plan.document
  fits : (plan.toCanonicalJson json).length ≤ maxCachedPlanBytes

/-- What the entry of a plan holds. -/
def storedPlan (c : CacheService) (json : PlanJson) (plan : BindingPlan) : Stored where
  compatibility := (PlanCacheAddress.new c.sha256 plan.id).compatibility
  payload := plan.toCanonicalJson json

/-- The entries of the plan cache under some ids are the plans of the store. -/
structure HoldsPlans (c : CacheService) (planner : Planner) (json : PlanJson) (ids : Set PlanId)
    (plans : List BindingPlan) (contents : Contents) (fs : Files) : Prop where
  settled : Settled c contents fs
  entries : ∀ planId ∈ ids, (contents .plan (planKey c planId)).map Content.stored =
    (heldPlan plans planId).map (storedPlan c json)
  cacheable : ∀ plan ∈ plans, Cacheable planner json plan

section Step
variable {c : CacheService} {planner : Planner} {json : PlanJson} {ids : Set PlanId}
  {plans : List BindingPlan} {contents : Contents} {fs : Files} {planId : PlanId}
  {plan held : BindingPlan}

theorem heldPlan_mem (h : heldPlan plans planId = some held) : held ∈ plans ∧ held.id = planId := by
  have hid := List.find?_some (show plans.find? _ = some held from h)
  exact ⟨List.mem_of_find?_eq_some h, of_decide_eq_true hid⟩

/-- The entry of a plan that is held. -/
theorem HoldsPlans.content (h : HoldsPlans c planner json ids plans contents fs)
    (hid : planId ∈ ids) (hheld : heldPlan plans planId = some held) :
    ∃ content, contents .plan (planKey c planId) = some content ∧
      content.stored = storedPlan c json held := by
  have hentry := h.entries planId hid
  rw [hheld] at hentry
  exact Option.map_eq_some_iff.mp hentry

theorem HoldsPlans.no_content (h : HoldsPlans c planner json ids plans contents fs)
    (hid : planId ∈ ids) (hheld : heldPlan plans planId = none) :
    contents .plan (planKey c planId) = none := by
  have hentry := h.entries planId hid
  rw [hheld] at hentry
  exact Option.map_eq_none_iff.mp hentry

/-- **A lookup finds the plan of its id.** -/
theorem reads_lookupBindingPlan (h : HoldsPlans c planner json ids plans contents fs)
    (hid : planId ∈ ids) {validation : CacheValidation} :
    Reads (lookupBindingPlan c planner json planId validation) fs
      (.ok (match heldPlan plans planId with
        | some held => .hit held
        | none => .miss .notFound)) := by
  have hlookup := @reads_lookup c fs .plan (planKey c planId)
    (PlanCacheAddress.new c.sha256 planId).compatibility .trustedMetadata _
    (h.settled.holds .plan (planKey c planId)) fun token => h.settled.bare _ _ _ rfl rfl
  unfold Reads lookupBindingPlan
  refine hlookup.bind ?_
  cases hheld : heldPlan plans planId with
  | none =>
    rw [h.no_content hid hheld]
    exact ⟨rfl, rfl⟩
  | some held =>
    obtain ⟨content, hcontent, hstored⟩ := h.content hid hheld
    have hcompat : content.compatibility =
        (PlanCacheAddress.new c.sha256 planId).compatibility :=
      congrArg Stored.compatibility hstored
    have hpayload : content.payload = held.toCanonicalJson json := congrArg Stored.payload hstored
    obtain ⟨hmem, hheldId⟩ := heldPlan_mem hheld
    have hcacheable := h.cacheable held hmem
    rw [hcontent, show lookupResult c .plan (planKey c planId) _ (some content) =
      .hit (content.entry c .plan (planKey c planId)) from if_pos hcompat]
    have hfits : ¬(content.entry c .plan (planKey c planId)).info.payloadLen >
        maxCachedPlanBytes := by
      show ¬content.payload.length > maxCachedPlanBytes
      rw [hpayload]
      exact Nat.not_lt.mpr hcacheable.fits
    show Meets (if _ then _ else _) _ _
    rw [if_neg hfits]
    refine Reads.bind reads_readCacheEntry ?_
    have hparse : BindingPlan.fromCanonicalJson planner json
        (ByteView.fromBoxed content.payload).bytes = .ok held := by
      show BindingPlan.fromCanonicalJson planner json content.payload = _
      rw [hpayload]
      exact fromCanonicalJson_built hcacheable.faithful hcacheable.built
    rw [hparse]
    refine Reads.bind reads_pureAction ?_
    rw [if_neg (not_not.mpr hheldId)]
    exact ⟨rfl, rfl⟩

/-- A plan that is held can be found. -/
theorem produces_lookupBindingPlan (h : HoldsPlans c planner json ids plans contents fs)
    (hid : planId ∈ ids) (hheld : heldPlan plans planId = some held)
    {validation : CacheValidation} :
    Produces (lookupBindingPlan c planner json planId validation) (.hit held) := by
  have hreads := @reads_lookupBindingPlan c planner json ids plans contents fs planId h hid
    validation
  rw [hheld] at hreads
  exact produces_of_reads hreads

/-- The entry of one id was written: it is the plan of the store after it. -/
theorem HoldsPlans.changes {plans' : List BindingPlan} {content : Content} {t : Files}
    (h : HoldsPlans c planner json ids plans contents fs) (hid : planId ∈ ids)
    (hkeys : Set.InjOn (planKey c) ids)
    (hchanges : Changes [entryPath .plan (planKey c planId)] fs t)
    (hholds : HoldsAt c t .plan (planKey c planId) (some content))
    (hself : heldPlan plans' planId = some held) (hstored : content.stored = storedPlan c json held)
    (hother : ∀ id', planId ≠ id' → heldPlan plans' id' = heldPlan plans id')
    (hcacheable : ∀ plan ∈ plans', Cacheable planner json plan) :
    ∃ contents', HoldsPlans c planner json ids plans' contents' t := by
  refine ⟨_, h.settled.changes hchanges hholds, fun id' hid' => ?_, hcacheable⟩
  by_cases hsame : planId = id'
  · subst hsame
    rw [if_pos ⟨rfl, rfl⟩, hself, Option.map_some, hstored]
    rfl
  · have hkey : planKey c id' ≠ planKey c planId := fun he => hsame (hkeys hid hid' he.symm)
    rw [if_neg fun he => hkey he.2, hother id' hsame]
    exact h.entries id' hid'

/-- **A publication adds its plan**, unless one of the same id is there. -/
theorem meets_publishBindingPlan (h : HoldsPlans c planner json ids plans contents fs)
    (hpolls : 0 < c.polls) (hfits : c.Fits) (hid : plan.id ∈ ids)
    (hkeys : Set.InjOn (planKey c) ids) (hcacheable : Cacheable planner json plan) :
    Meets (publishBindingPlan c json plan) (fun r t => ∃ a, r = .ok a ∧
      (PlanCall.answer json plans (.publish plan)).1 = .ok (.ofPublication a) ∧
      ∃ contents', HoldsPlans c planner json ids
        (PlanCall.answer json plans (.publish plan)).2 contents' t) fs := by
  have hsize : ¬(plan.toCanonicalJson json).length > maxCachedPlanBytes :=
    Nat.not_lt.mpr hcacheable.fits
  have hmemory : InMemory (plan.toCanonicalJson json) :=
    Nat.lt_of_le_of_lt hcacheable.fits (by decide)
  have hpublish := @meets_publishBytes c fs .plan (planKey c plan.id) _ _
    (PlanCacheAddress.new c.sha256 plan.id).compatibility h.settled.valid hpolls hfits hmemory
    (h.settled.bare _ _) (h.settled.holds _ _)
  unfold publishBindingPlan
  show Meets (if _ then _ else _) _ _
  rw [if_neg hsize]
  refine hpublish.mono fun r t hr => ?_
  obtain ⟨a, rfl, ⟨created, ha, hholds⟩, hchanges⟩ := hr
  refine ⟨a, rfl, ?_⟩
  simp only [PlanCall.answer, if_neg hsize]
  cases hheld : heldPlan plans plan.id with
  | some held =>
    obtain ⟨content, hcontent, hstored⟩ := h.content hid hheld
    have hcompat : content.compatibility =
        (PlanCacheAddress.new c.sha256 plan.id).compatibility :=
      congrArg Stored.compatibility hstored
    have hreuse : reusable (contents .plan (planKey c plan.id))
        (PlanCacheAddress.new c.sha256 plan.id).compatibility = some content := by
      rw [hcontent]
      exact Option.filter_eq_some_iff.mpr ⟨rfl, decide_eq_true hcompat⟩
    rw [publication, hreuse] at ha hholds
    subst ha
    have hpayload : held.toCanonicalJson json = content.payload :=
      (congrArg Stored.payload hstored).symm
    exact ⟨congrArg (fun bytes => Except.ok (PlanReply.reused bytes)) hpayload,
      h.changes hid hkeys hchanges hholds hheld hstored (fun _ _ => rfl) h.cacheable⟩
  | none =>
    have hreuse : reusable (contents .plan (planKey c plan.id))
        (PlanCacheAddress.new c.sha256 plan.id).compatibility = none := by
      rw [h.no_content hid hheld]
      rfl
    rw [publication, hreuse] at ha hholds
    subst ha
    refine ⟨rfl, h.changes hid hkeys hchanges hholds ((heldPlan_snoc hheld).trans (if_pos rfl)) rfl
      (fun id' hne => (heldPlan_snoc hheld).trans (if_neg hne)) fun p hp => ?_⟩
    rcases List.mem_append.mp hp with hp | hp
    · exact h.cacheable p hp
    · exact List.mem_singleton.mp hp ▸ hcacheable

end Step

/-! ## Sequences of calls -/

/-- A call publishes only a plan that was built, and whose JSON text is read back as it
was written. -/
def PlanCall.Proper (planner : Planner) (json : PlanJson) : PlanCall → Prop
  | .publish plan =>
    Built planner plan ∧ json.parse (json.print plan.document) = some plan.document
  | .lookup _ _ => True

section Calls
variable {c : CacheService} {planner : Planner} {json : PlanJson} {ids : Set PlanId}

/-- One call answers as the store does, and leaves the store of the answer. -/
theorem meets_planCall (hpolls : 0 < c.polls) (hfits : c.Fits) (hkeys : Set.InjOn (planKey c) ids)
    {plans : List BindingPlan} {contents : Contents} {fs : Files} {call : PlanCall}
    (h : HoldsPlans c planner json ids plans contents fs) (hid : call.planId ∈ ids)
    (hproper : call.Proper planner json) :
    Meets (call.action c planner json) (fun r t => r = (call.answer json plans).1 ∧
      ∃ contents', HoldsPlans c planner json ids (call.answer json plans).2 contents' t) fs := by
  cases call with
  | publish plan =>
    by_cases hsize : (plan.toCanonicalJson json).length > maxCachedPlanBytes
    · simp only [PlanCall.action, PlanCall.answer, if_pos hsize]
      unfold publishBindingPlan
      simp only [if_pos hsize]
      exact ⟨rfl, contents, h⟩
    · have hcacheable : Cacheable planner json plan :=
        ⟨hproper.1, hproper.2, Nat.not_lt.mp hsize⟩
      refine Meets.bind (meets_publishBindingPlan h hpolls hfits hid hkeys hcacheable)
        fun a t ha => ?_
      exact ⟨ha.1.symm, ha.2⟩
  | lookup planId validation =>
    have hid : planId ∈ ids := hid
    have hreads := @reads_lookupBindingPlan c planner json ids plans contents fs planId h hid
      validation
    simp only [PlanCall.answer]
    cases hheld : heldPlan plans planId with
    | some held =>
      rw [hheld] at hreads
      exact Reads.bind hreads ⟨rfl, contents, h⟩
    | none =>
      rw [hheld] at hreads
      exact Reads.bind hreads ⟨rfl, contents, h⟩

theorem runPlanCalls_answers {env : Nat → Env} (henv : ∀ n, (env n).Quiet) (hpolls : 0 < c.polls)
    (hfits : c.Fits) (hkeys : Set.InjOn (planKey c) ids) : ∀ {calls : List PlanCall} {n : Nat}
    {plans : List BindingPlan} {contents : Contents} {fs : Files},
    (∀ call ∈ calls, call.planId ∈ ids ∧ call.Proper planner json) →
    HoldsPlans c planner json ids plans contents fs →
    runPlanCalls c planner json env calls n fs = planAnswers json calls plans
  | [], _, _, _, _, _, _ => rfl
  | call :: rest, n, plans, contents, fs, hcalls, h => by
    obtain ⟨hid, hproper⟩ := hcalls call List.mem_cons_self
    obtain ⟨hreply, contents', hrest⟩ := @run_of_wp _ _ _ _ _ _ _ env henv
      (call.action c planner json).run _ n fs (meets_planCall hpolls hfits hkeys h hid hproper)
    have hanswers := runPlanCalls_answers henv hpolls hfits hkeys
      (n := (Program.run FileOp.eval env (call.action c planner json).run n fs).2.1)
      (fun call hcall => hcalls call (List.mem_cons_of_mem _ hcall)) hrest
    show _ :: _ = _ :: _
    rw [hreply, hanswers]

theorem holdsPlans_empty : ∃ contents, HoldsPlans c planner json ids [] contents .empty := by
  obtain ⟨contents, hsettled, hnone⟩ := represents_empty c
  exact ⟨contents, hsettled, fun planId _ => hnone .plan (planKey c planId), fun _ h => by cases h⟩

end Calls

/-- **The plan cache is a store of plans.** Every call of a sequence on a new cache answers
what the store answers: a lookup finds the first plan that was published under its id, as
it was published, and a publication under an id that is there changes nothing. -/
theorem planCalls_refine_store (c : CacheService) (hpolls : 0 < c.polls) (hfits : c.Fits)
    (env : Nat → Env) (henv : ∀ n, (env n).Quiet) (planner : Planner) (json : PlanJson)
    (calls : List PlanCall) (hcalls : ∀ call ∈ calls, call.Proper planner json)
    (hkeys : Set.InjOn c.sha256 (planPreimage c '' {id | ∃ call ∈ calls, call.planId = id})) :
    runPlanCalls c planner json env calls 0 .empty = planAnswers json calls [] := by
  obtain ⟨contents, hempty⟩ := holdsPlans_empty
  exact runPlanCalls_answers henv hpolls hfits (planKey_injOn hkeys)
    (fun call hcall => ⟨⟨call, hcall, rfl⟩, hcalls call hcall⟩) hempty

/-! ## A plan of two floats -/

namespace CachedPlan

/-- SHA-256 of the schema version, in its domain. -/
def schemaDigest : ContentDigest where
  bytes := [85, 24, 114, 165, 202, 190, 169, 239, 106, 227, 49, 135, 53, 243, 124, 6, 237, 18, 109,
    191, 13, 125, 24, 167, 177, 125, 205, 176, 83, 245, 47, 55]
  length_eq := rfl

/-- SHA-256 of the key of the plan. -/
def key : ContentDigest where
  bytes := [249, 184, 101, 216, 91, 229, 102, 42, 227, 56, 185, 180, 167, 115, 221, 207, 87, 1, 173,
    33, 127, 154, 87, 204, 141, 158, 58, 84, 6, 79, 200, 95]
  length_eq := rfl

/-- SHA-256 of the key of an id without a plan. -/
def absentKey : ContentDigest where
  bytes := [170, 63, 122, 214, 16, 146, 62, 139, 111, 193, 132, 34, 98, 36, 204, 47, 99, 80, 206,
    49, 237, 236, 173, 205, 162, 132, 166, 107, 125, 30, 210, 113]
  length_eq := rfl

/-- SHA-256 of the JSON text of the plan. -/
def payloadDigest : ContentDigest where
  bytes := [28, 177, 96, 124, 74, 212, 150, 108, 120, 227, 244, 188, 122, 20, 178, 200, 19, 245, 76,
    17, 62, 242, 144, 74, 192, 72, 89, 143, 13, 108, 8, 242]
  length_eq := rfl

def compatibility : CacheCompatibility := .plan 2 schemaDigest

/-- SHA-256 on what the calls hash. The JSON text of the envelope has 376 bytes. -/
def service : CacheService where
  options := ⟨1000, 1000⟩
  sha256 := fun bytes =>
    if bytes = keyPreimage .plan compatibility [Plan.Sample.plan.id.bytes] then key
    else if bytes = keyPreimage .plan compatibility [(Plan.Sample.digest 9).bytes] then absentKey
    else if bytes = Plan.Sample.planJson then payloadDigest
    else schemaDigest
  envelopeLength := fun _ => 376
  polls := 1

def calls : List PlanCall :=
  [.lookup Plan.Sample.plan.id .full, .publish Plan.Sample.plan, .publish Plan.Sample.plan,
    .lookup Plan.Sample.plan.id .full, .lookup (Plan.Sample.digest 9) .full]

theorem plan_built : Built Plan.Sample.planner Plan.Sample.plan :=
  ⟨Plan.Sample.builder, Plan.Sample.source_made, Plan.Sample.target_made, Plan.Sample.builder_build⟩

theorem calls_proper : ∀ call ∈ calls, call.Proper Plan.Sample.planner Plan.Sample.json := by
  intro call hcall
  cases call with
  | publish plan =>
    have hplan : plan = Plan.Sample.plan := by simpa [calls] using hcall
    rw [hplan]
    exact ⟨plan_built, Plan.Sample.json_faithful⟩
  | lookup planId validation => trivial

theorem sha256_injOn : Set.InjOn service.sha256
    (planPreimage service '' {Plan.Sample.plan.id, Plan.Sample.digest 9}) := by
  have hne : service.sha256 (planPreimage service Plan.Sample.plan.id) ≠
      service.sha256 (planPreimage service (Plan.Sample.digest 9)) := by
    decide +kernel
  rintro _ ⟨_, rfl | rfl, rfl⟩ _ ⟨_, rfl | rfl, rfl⟩ h
  · rfl
  · exact absurd h hne
  · exact absurd h.symm hne
  · rfl

theorem calls_planId : ∀ call ∈ calls,
    call.planId ∈ ({Plan.Sample.plan.id, Plan.Sample.digest 9} : Set PlanId) := by
  intro call hcall
  simp only [calls, List.mem_cons, List.not_mem_nil, or_false] at hcall
  rcases hcall with rfl | rfl | rfl | rfl | rfl
  · exact Or.inl rfl
  · exact Or.inl rfl
  · exact Or.inl rfl
  · exact Or.inl rfl
  · exact Or.inr rfl

end CachedPlan

theorem planCalls_refine_store_floats :
    runPlanCalls CachedPlan.service Plan.Sample.planner Plan.Sample.json Cache.Sample.env
        CachedPlan.calls 0 .empty =
      [.ok (.miss .notFound), .ok (.published Plan.Sample.planJson),
        .ok (.reused Plan.Sample.planJson), .ok (.hit Plan.Sample.plan),
        .ok (.miss .notFound)] := by
  have hanswers := planCalls_refine_store CachedPlan.service (by decide)
    (fun _ _ _ => show 376 ≤ 65536 by decide) Cache.Sample.env (fun _ => ⟨rfl, rfl, rfl⟩)
    Plan.Sample.planner Plan.Sample.json CachedPlan.calls CachedPlan.calls_proper
    (CachedPlan.sha256_injOn.mono (Set.image_mono fun planId hid => by
      obtain ⟨call, hcall, rfl⟩ := hid
      exact CachedPlan.calls_planId call hcall))
  rw [hanswers]
  decide +kernel

/-! ## Lookups under interference -/

/-- The id of a plan is the digest of what it says. -/
theorem built_id {planner : Planner} {plan : BindingPlan} (h : Built planner plan) :
    plan.id = planner.computePlanId plan.toPlanIdentityPayload := by
  obtain ⟨b, _, _, hbuild⟩ := h
  obtain ⟨_, h⟩ := unless_error_ok hbuild
  obtain ⟨bindings, _, h⟩ := bind_ok h
  obtain rfl := Except.ok.inj h
  rfl

/-- Plans of one id are one plan, where the digest tells them apart. -/
theorem built_unique {planner : Planner} {plan plan' : BindingPlan} (h : Built planner plan)
    (h' : Built planner plan') (hid : plan.id = plan'.id)
    (hdigest : Set.InjOn planner.computePlanId
      {plan.toPlanIdentityPayload, plan'.toPlanIdentityPayload}) : plan = plan' := by
  have hcompute : planner.computePlanId plan.toPlanIdentityPayload =
      planner.computePlanId plan'.toPlanIdentityPayload := by
    rw [← built_id h, ← built_id h', hid]
  have hpayload := hdigest (Or.inl rfl) (Or.inr rfl) hcompute
  obtain ⟨payload, id⟩ := plan
  obtain ⟨payload', id'⟩ := plan'
  obtain rfl : payload = payload' := hpayload
  obtain rfl : id = id' := hid
  rfl

/-- **A plan that is found was built, has the id that was asked for, and is the plan that
was published under it**, whatever the files hold and other processes do. -/
theorem lookupBindingPlan_built (c : CacheService) (planner : Planner) (json : PlanJson)
    (planId : PlanId) (validation : CacheValidation) (plan : BindingPlan)
    (h : Produces (lookupBindingPlan c planner json planId validation) (.hit plan)) :
    Built planner plan ∧ plan.id = planId ∧
      ∀ published, Built planner published → published.id = planId →
        Set.InjOn planner.computePlanId
          {plan.toPlanIdentityPayload, published.toPlanIdentityPayload} →
        plan = published := by
  obtain ⟨found, _, h⟩ := produces_bind.mp h
  cases found with
  | miss reason => cases produces_pure.mp h
  | hit entry =>
    dsimp only at h
    split at h
    · exact absurd h not_produces_throw
    · obtain ⟨view, _, h⟩ := produces_bind.mp h
      obtain ⟨parsed, hparsed, h⟩ := produces_bind.mp h
      split at h
      · exact absurd h not_produces_throw
      · next hid =>
        obtain rfl := BindingPlanCacheLookup.hit.inj (produces_pure.mp h)
        have hbuilt := (built_of_fromCanonicalJson (produces_pureAction.mp hparsed)).1
        exact ⟨hbuilt, not_not.mp hid, fun published hpublished hpublishedId hdigest =>
          built_unique hbuilt hpublished ((not_not.mp hid).trans hpublishedId.symm) hdigest⟩

/-- Every plan that the cache can give back is found in some cache. -/
theorem produces_published {c : CacheService} {planner : Planner} {json : PlanJson}
    {plan : BindingPlan} {validation : CacheValidation} (hpolls : 0 < c.polls) (hfits : c.Fits)
    (hcacheable : Cacheable planner json plan) :
    Produces (lookupBindingPlan c planner json plan.id validation) (.hit plan) := by
  have hquiet : ∀ n, (Cache.Sample.env n).Quiet := fun _ => ⟨rfl, rfl, rfl⟩
  have hid : plan.id ∈ ({plan.id} : Set PlanId) := rfl
  have hsize : ¬(plan.toCanonicalJson json).length > maxCachedPlanBytes :=
    Nat.not_lt.mpr hcacheable.fits
  obtain ⟨contents, hempty⟩ := @holdsPlans_empty c planner json {plan.id}
  have hpublish := meets_publishBindingPlan hempty hpolls hfits hid (Set.injOn_singleton _ _)
    hcacheable
  obtain ⟨_, _, _, contents', hheld⟩ :=
    @run_of_wp _ _ _ _ _ _ _ Cache.Sample.env hquiet _ _ 0 _ hpublish
  refine produces_lookupBindingPlan hheld hid ?_
  rw [PlanCall.answer, if_neg hsize]
  exact (heldPlan_snoc rfl).trans (if_pos rfl)

theorem lookupBindingPlan_built_floats :
    Produces (lookupBindingPlan CachedPlan.service Plan.Sample.planner Plan.Sample.json
        Plan.Sample.plan.id .full) (.hit Plan.Sample.plan) ∧
      Built Plan.Sample.planner Plan.Sample.plan := by
  have hfound : Produces (lookupBindingPlan CachedPlan.service Plan.Sample.planner
      Plan.Sample.json Plan.Sample.plan.id .full) (.hit Plan.Sample.plan) :=
    produces_published (by decide) (fun _ _ _ => show 376 ≤ 65536 by decide)
      ⟨CachedPlan.plan_built, Plan.Sample.json_faithful, by decide +kernel⟩
  exact ⟨hfound, (lookupBindingPlan_built _ _ _ _ _ _ hfound).1⟩

end ModelWeights.Prepared
