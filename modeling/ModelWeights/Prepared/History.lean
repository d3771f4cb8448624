import ModelWeights.Cache.Shared
import ModelWeights.Prepared.Deliveries

/-! # Histories of a shared cache

Any number of deliveries, publications and evictions, of any materializers and any other
users of a cache, in any order of their steps and stopped anywhere. -/
namespace ModelWeights.Prepared
open ModelWeights.Graph Plan Cache Pipeline Program Interference Transition

/-- A call of a user of the cache. -/
inductive Job where
  | deliver (m : Materializer) (name : TensorName)
  | publishPrepared (m : Materializer) (name : TensorName) (bytes : List UInt8)
  | publish (c : CacheService) (ns : CacheNamespace) (key : CacheKey)
    (compatibility : CacheCompatibility) (reader : Reader)
  | evict (c : CacheService) (ns : CacheNamespace) (key : CacheKey) (reason : EvictionReason)

def Job.action (a : Addressing) : Job → Action (Option WeightDelivery)
  | .deliver m name => do
    let delivery ← m.materialize a name
    pure (some delivery)
  | .publishPrepared m name bytes => do
    let _ ← m.publishPreparedBytes a name bytes
    pure none
  | .publish c ns key compatibility reader => do
    let _ ← publishReader c ns key compatibility reader
    pure none
  | .evict c ns key reason => do
    let _ ← Cache.evict c ns key reason
    pure none

/-- No overlay has operations for a binding. -/
def NoOverlay (m : Materializer) (binding : Binding) : Prop :=
  ∀ cancellation, m.overlay binding cancellation = .ok none ∨
    ∃ e, m.overlay binding cancellation = .error e

/-- Only the routes of materializers publish what the host makes: bytes of a provider are
published for bindings that the host does not make or that have an overlay, and others
publish under other keys. -/
def Job.Allowed (a : Addressing) (W : Set Materializer) : Job → Prop
  | .deliver m _ => m ∈ W
  | .publishPrepared m name _ => m ∈ W ∧ ∀ binding, m.bindingNamed name = .ok binding →
    HostBinding binding → ∀ cancellation, m.overlay binding cancellation ≠ .ok none
  | .publish _ ns key _ _ => ns = .prepared → ∀ m ∈ W, ∀ binding address, HostBinding binding →
    Address a m binding none address → address.key ≠ key
  | .evict _ _ _ _ => True

section History
variable {a : Addressing} {F : PrepareFunction} {contents : ContentDigest → Bytes}
  {W : Set Materializer} {m : Materializer} {binding : Binding} {process : Nat}
  {others : Nat → Prop}

theorem publishes_rightIn (hm : m ∈ W) : Publishes (RightIn a W) a m binding :=
  fun x _ hx hmade _ _ hkey _ _ _ _ _ _ _ _ =>
    ⟨m, hm, binding, x, hx, hkey.symm, hmade⟩

/-- A weight from the cache is what the host makes of its binding. -/
theorem Trust.delivers (trust : Trust a F contents W) (hm : m ∈ W) (hhost : HostBinding binding)
    {delivery : WeightDelivery} (h : Sourced (RightIn a W) a m binding delivery)
    {weight : PreparedWeight} (hweight : delivery = .prepared weight)
    (horigin : weight.origin = .cache) :
    hostBytes F contents m.plan.inputs binding = some weight.bytes.bytes := by
  obtain ⟨x, hx, e, hright, hns, hkey⟩ := h weight hweight horigin
  obtain ⟨m', hm', binding', x', hx', hkey', hmade⟩ :=
    hright hns m hm binding x hhost hx hkey.symm
  obtain ⟨sources, hsources, hsources', htarget, _⟩ := trust.separates hm hm' (.inl rfl)
    (.inl rfl) hx hx' (hkey.symm.trans hkey'.symm)
  have hsame := @hostBytes_congr ⟨m.plan, binding, none⟩ ⟨m'.plan, binding', none⟩ sources F
    contents hsources hsources' htarget
  exact hsame.trans (hmade.bytes (trust.reads m' hm') (trust.providers m' hm'))

theorem yields_publishPreparedBytes (trust : Trust a F contents W) {name : TensorName}
    {bytes : List UInt8} (hothers : ¬others process)
    (h : (Job.publishPrepared m name bytes).Allowed a W) :
    (soundProtocol (RightIn a W) process others).Yields (m.publishPreparedBytes a name bytes)
      fun _ => True := by
  refine yields_checked <| yields_bind yields_pureAction fun binding hbinding => ?_
  split
  · exact yields_throw
  · cases m.cache with
    | none => exact yields_throw
    | some c =>
      refine yields_checked <| yields_bind yields_sampled fun overlay hoverlay =>
        yields_bind yields_addressOf fun address haddress => ?_
      cases address with
      | none => exact yields_throw
      | some x =>
        refine yields_checked <| yields_publishBytes hothers fun e _ hkey => ?_
        intro _ m' hm' binding' x' hhost hx' hkey'
        obtain ⟨cancellation, hoverlay⟩ := hoverlay
        have hoverlaid : Overlaid m binding (overlay.map Prod.snd) := by
          cases overlay with
          | none => exact .inl rfl
          | some found => exact .inr ⟨cancellation, found.1, found.2, hoverlay, rfl⟩
        obtain ⟨_, _, _, htarget, hdigest⟩ := trust.separates hm' h.1 (.inl rfl) hoverlaid hx'
          (haddress x rfl) (hkey'.trans hkey)
        have hhost' : HostBinding binding := by
          unfold HostBinding at hhost ⊢
          rwa [← htarget]
        have hnone := Option.map_eq_none_iff.mp hdigest.symm
        rw [hnone] at hoverlay
        exact absurd hoverlay (h.2 binding hbinding hhost' cancellation)

/-- What a job that is allowed may return. -/
def Job.Returned (F : PrepareFunction) (contents : ContentDigest → Bytes) :
    Job → Option WeightDelivery → Prop
  | .deliver m name, some (.prepared weight) => ∀ binding, m.bindingNamed name = .ok binding →
    HostBinding binding → NoOverlay m binding → weight.origin = .cache →
      hostBytes F contents m.plan.inputs binding = some weight.bytes.bytes
  | _, _ => True

theorem yields_job (trust : Trust a F contents W) (hothers : ¬others process) {job : Job}
    (h : job.Allowed a W) :
    (soundProtocol (RightIn a W) process others).Yields (job.action a)
      (job.Returned F contents) := by
  cases job with
  | deliver m name =>
    refine yields_bind (yields_bind yields_pureAction fun binding hbinding =>
      (yields_materializeBinding hothers (publishes_rightIn h)).mono fun delivery hdelivery =>
        (⟨binding, hbinding, hdelivery⟩ : ∃ binding, m.bindingNamed name = .ok binding ∧
          (NoOverlay m binding → Sourced (RightIn a W) a m binding delivery)))
      fun delivery hdelivery => yields_pure ?_
    obtain ⟨binding, hbinding, hsourced⟩ := hdelivery
    cases delivery with
    | prepared weight =>
      intro binding' hbinding' hhost hnone horigin
      obtain rfl := Except.ok.inj (hbinding.symm.trans hbinding')
      exact trust.delivers h hhost (hsourced hnone) rfl horigin
    | conversion handoff => trivial
    | operation handoff => trivial
    | quantized handoff => trivial
    | overlay base index digest resident => trivial
  | publishPrepared m name bytes =>
    exact yields_bind (yields_publishPreparedBytes trust hothers h) fun _ _ => yields_pure trivial
  | publish c ns key compatibility reader =>
    have hpublish : (soundProtocol (RightIn a W) process others).Yields
        (publishReader c ns key compatibility reader) fun _ => True := by
      refine (yields_publishReader hothers fun _ created hns m hm binding x hhost hx hkey =>
        ?_).mono fun _ _ => trivial
      exact absurd hkey (h hns m hm binding x hhost hx)
    exact yields_bind hpublish fun _ _ => yields_pure trivial
  | evict c ns key reason =>
    exact yields_bind (yields_calm (Discipline.acts_evict sound_evicting)) fun _ _ =>
      yields_pure trivial

/-! ## Cold deliveries -/

theorem cold_cached {address : Option PreparedCacheAddress} {cached : Option WeightDelivery}
    (h : Produces (m.cold.tryCachedPrepared binding address) cached) : cached = none :=
  produces_pure.mp h

/-- A weight that is delivered without a cache was made by the host. -/
theorem cold_made (hnone : NoOverlay m binding) {weight : PreparedWeight}
    (h : Produces (m.cold.materializeBinding a binding) (.prepared weight)) :
    HostMade m.cold binding weight.bytes.bytes := by
  obtain ⟨_, _, h⟩ := produces_bind.mp h
  obtain ⟨overlay, hoverlay, h⟩ := produces_bind.mp h
  have hbase : Produces (m.cold.materializeBaseBinding a binding) (.prepared weight) := by
    cases overlay with
    | none => exact h
    | some found =>
      obtain ⟨cancellation, hoverlay⟩ := produces_sampled hoverlay
      rcases hnone cancellation with hc | ⟨e, hc⟩
      · cases hoverlay.symm.trans hc
      · cases hoverlay.symm.trans hc
  unfold Materializer.materializeBaseBinding at hbase
  cases hgraph : binding.target.operationGraph with
  | some graph =>
    rw [hgraph] at hbase
    obtain ⟨address, _, h⟩ := produces_bind.mp hbase
    obtain ⟨cached, hcached, h⟩ := produces_bind.mp h
    obtain rfl := cold_cached hcached
    obtain ⟨_, _, h⟩ := produces_bind.mp h
    obtain ⟨inputs, hinputs, h⟩ := produces_bind.mp h
    obtain ⟨_, _, h⟩ := produces_bind.mp h
    obtain ⟨bytes, hbytes, h⟩ := produces_bind.mp h
    obtain ⟨_, _, h⟩ := produces_bind.mp h
    obtain rfl := WeightDelivery.prepared.inj (produces_pure.mp h)
    exact .graph graph inputs bytes hgraph hinputs hbytes rfl
  | none =>
    rw [hgraph] at hbase
    cases hsource : binding.sources.head? with
    | none =>
      rw [hsource] at hbase
      exact absurd hbase not_produces_throw
    | some source =>
      rw [hsource] at hbase
      cases hstorage : source.storage with
      | quantized storage =>
        simp only [hstorage] at hbase
        obtain ⟨_, _, h⟩ := produces_bind.mp hbase
        obtain ⟨address, _, h⟩ := produces_bind.mp h
        obtain ⟨cached, hcached, h⟩ := produces_bind.mp h
        obtain rfl := cold_cached hcached
        obtain ⟨_, _, h⟩ := produces_bind.mp h
        obtain ⟨_, _, h⟩ := produces_bind.mp h
        obtain ⟨_, _, h⟩ := produces_bind.mp h
        obtain ⟨_, _, h⟩ := produces_bind.mp h
        obtain ⟨_, _, h⟩ := produces_bind.mp h
        cases produces_pure.mp h
      | plain dtype span =>
        simp only [hstorage] at hbase
        cases hrecipe : binding.target.conversionRecipe with
        | some recipe =>
          rw [hrecipe] at hbase
          obtain ⟨address, _, h⟩ := produces_bind.mp hbase
          obtain ⟨cached, hcached, h⟩ := produces_bind.mp h
          obtain rfl := cold_cached hcached
          obtain ⟨_, _, h⟩ := produces_bind.mp h
          obtain ⟨_, _, h⟩ := produces_bind.mp h
          obtain ⟨_, _, h⟩ := produces_bind.mp h
          cases produces_pure.mp h
        | none =>
          rw [hrecipe] at hbase
          obtain ⟨address, _, h⟩ := produces_bind.mp hbase
          obtain ⟨cached, hcached, h⟩ := produces_bind.mp h
          obtain rfl := cold_cached hcached
          obtain ⟨_, _, h⟩ := produces_bind.mp h
          obtain ⟨view, hview, h⟩ := produces_bind.mp h
          obtain ⟨_, _, h⟩ := produces_bind.mp h
          obtain ⟨prepared, hprepared, h⟩ := produces_bind.mp h
          obtain ⟨_, _, h⟩ := produces_bind.mp h
          obtain rfl := WeightDelivery.prepared.inj (produces_pure.mp h)
          exact .transforms dtype span source view prepared hgraph hsource hstorage hview
            hprepared rfl

end History

/-! ## Agreement -/

/-- The steps of the jobs of a cache, each by a process of its own. -/
abbrev jobAct : Nat × Env → Pool FileOp FileOp.Resp (Result (Option WeightDelivery)) Files →
    Option (Pool FileOp FileOp.Resp (Result (Option WeightDelivery)) Files) :=
  poolAct FileOp.eval fun process env => { env with process := process }

def startJobs (a : Addressing) (jobs : Nat → Job) :
    Pool FileOp FileOp.Resp (Result (Option WeightDelivery)) Files :=
  (fun i => ((jobs i).action a).run, .empty)

/-- **Warm and cold deliveries agree.** Whatever other jobs share the cache, in whatever
order they take their steps and wherever they stop: a weight that comes from the cache,
for a binding with a transform chain or an operation graph and no overlay operation, has
the bytes that the host makes of the binding, and that every host execution without a
cache delivers. -/
theorem deliveries_agree {a : Addressing} {F : PrepareFunction} {contents : ContentDigest → Bytes}
    {W : Set Materializer} (trust : Trust a F contents W) {jobs : Nat → Job}
    (hjobs : ∀ i, (jobs i).Allowed a W)
    {t : Pool FileOp FileOp.Resp (Result (Option WeightDelivery)) Files}
    (hrun : ReachableUnder jobAct (fun _ _ => True) (startJobs a jobs) t) {i : Nat}
    {m : Materializer} {name : TensorName} (hjob : jobs i = .deliver m name)
    {weight : PreparedWeight} (hret : t.1 i = .ret (.ok (some (.prepared weight))))
    (horigin : weight.origin = .cache) {binding : Binding}
    (hbinding : m.bindingNamed name = .ok binding) (hhost : HostBinding binding)
    (hnone : NoOverlay m binding) :
    hostBytes F contents m.plan.inputs binding = some weight.bytes.bytes ∧
    ∀ cold, Produces (m.cold.materialize a name) (.prepared cold) →
      cold.bytes.bytes = weight.bytes.bytes := by
  have hstart : ∀ i, Guards FileOp.eval (soundProtocol (RightIn a W) i (· ≠ i))
      ((startJobs a jobs).1 i) (After (fun r _ => (jobs i).Returned F contents r) fun _ => True)
      (startJobs a jobs).2 :=
    fun i => yields_job trust (fun h => h rfl) (hjobs i) .empty
  have hadmits : ∀ (i : Nat) (e : Env)
      (s : Pool FileOp FileOp.Resp (Result (Option WeightDelivery)) Files) (o : FileOp)
      (k : o.Resp → Program FileOp FileOp.Resp (Result (Option WeightDelivery))), True →
      s.1 i = .op o k → (soundProtocol (RightIn a W) i (· ≠ i)).admits o
        ({ e with process := i }) s.2 := fun i e s o k _ _ => rfl
  have hkeeps : ∀ (i j : Nat) (s u : Files), i ≠ j →
      (soundProtocol (RightIn a W) i (· ≠ i)).guarantee s u →
      (soundProtocol (RightIn a W) j (· ≠ j)).rely s u := by
    intro i j s u hij h
    refine Keeps.mono h fun n hn => ?_
    subst hn
    exact hij.symm
  have hinv : ∀ (i : Nat) (s : Files), (soundProtocol (RightIn a W) i (· ≠ i)).inv s ↔
      Files.Sound (RightIn a W) s := fun _ _ => Iff.rfl
  have hsound := pool_sound (P := fun i => soundProtocol (RightIn a W) i (· ≠ i)) hinv hkeeps
    hadmits sound_empty hstart hrun
  have hreturned := pool_ret hinv hsound hret
  rw [hjob] at hreturned
  have hbytes := hreturned binding hbinding hhost hnone horigin
  refine ⟨hbytes, fun cold hcold => ?_⟩
  have hm : m ∈ W := by
    have hallowed := hjobs i
    rwa [hjob] at hallowed
  obtain ⟨binding', hbinding', hcold⟩ := produces_bind.mp hcold
  obtain rfl := Except.ok.inj ((produces_pureAction.mp hbinding').symm.trans hbinding)
  have hreads : Identifies contents m.cold := trust.reads m hm
  have hmade := (cold_made hnone hcold).bytes hreads (trust.providers m hm)
  exact Option.some.inj (hmade.symm.trans hbytes)

/-! ## Two deliveries of a cast -/

namespace Cast

/-- The numbers 1 and 2. -/
def file : Bytes := [0, 0, 128, 63, 0, 0, 0, 64]

/-- The cast of the file. -/
def cast : PrepareFunction := fun _ _ source => if source = file then [0, 60, 0, 64] else []

/-- The SHA-256 of the cast. -/
def payloadDigest : ContentDigest :=
  ⟨[107, 96, 173, 168, 17, 103, 155, 123, 138, 238, 229, 9, 175, 205, 216, 159, 222, 82, 30, 239, 140,
    54, 134, 99, 158, 184, 201, 35, 209, 9, 198, 57], rfl⟩

/-- The JSON of the envelope of the cast has 439 bytes. -/
def service : CacheService :=
  { Cache.Sample.service with sha256 := fun _ => payloadDigest, envelopeLength := fun _ => 439 }

def materializer : Materializer where
  plan := plan
  host := ⟨idealEngine cast, false⟩
  read span _ := if span.file = 0 then .ok ⟨spanOf file span, false⟩
    else .error (.integrity "source file ordinal is not part of this checkpoint")
  mapped _ := .ok false
  cache := some service
  cacheValidation := .full
  overlay _ _ := .ok none
  operationExecution := .host
  withResources _ := .ok ()

/-- Every process delivers `w`. -/
def jobs : Nat → Job := fun _ => .deliver materializer ⟨"w"⟩

/-- The run of process 0, alone. -/
def first : Option (Result (Option WeightDelivery)) × Nat × Files :=
  Cache.Sample.runProcess (startJobs addressing jobs).1 0 0 .empty

/-- The run of process 1, after that of process 0. -/
def second : Option (Result (Option WeightDelivery)) × Nat × Files :=
  Cache.Sample.runProcess (startJobs addressing jobs).1 1 first.2.1 first.2.2

def cachedBytes : Option (Result (Option WeightDelivery)) → Option Bytes
  | some (.ok (some (.prepared weight))) =>
    if weight.origin = .cache then some weight.bytes.bytes else none
  | _ => none

theorem cachedBytes_some {r : Option (Result (Option WeightDelivery))} {bytes : Bytes}
    (h : cachedBytes r = some bytes) : ∃ weight, r = some (.ok (some (.prepared weight))) ∧
      weight.origin = .cache ∧ weight.bytes.bytes = bytes := by
  unfold cachedBytes at h
  split at h
  · next weight =>
    obtain ⟨horigin, hbytes⟩ := Option.ite_none_right_eq_some.mp h
    exact ⟨weight, rfl, horigin, Option.some.inj hbytes⟩
  · cases h

theorem identifies : Identifies (fun _ => file) materializer := by
  intro span cancellation view h
  by_cases hfile : span.file = 0
  · have hview : Except.ok ⟨spanOf file span, false⟩ = (.ok view : Result ByteView) :=
      (if_pos hfile).symm.trans h
    rw [← Except.ok.inj hview, hfile]
    exact ⟨_, rfl, rfl⟩
  · cases (if_neg hfile).symm.trans h

theorem onlyBinding {b : Binding} {sources : List OrderedSourceIdentity}
    (h : orderedSources plan b = .ok sources) : b = binding 0 ∧ sources = identity 0 := by
  have hfound := not_not.mp (unless_error_ok h).1
  have hb : b = binding 0 := by
    have hmem := List.mem_of_find?_eq_some hfound
    exact List.mem_singleton.mp hmem
  subst hb
  have hsources : orderedSources plan (binding 0) = .ok (identity 0) := by decide +kernel
  exact ⟨rfl, Except.ok.inj (h.symm.trans hsources)⟩

theorem noOverlay {b : Binding} {digest : Option ContentDigest}
    (h : Overlaid materializer b digest) : digest = none := by
  rcases h with h | ⟨_, _, _, h, _⟩
  · exact h
  · cases h

theorem onlyParts {b : Binding} {digest : Option ContentDigest} {cancellation : CancellationToken}
    {p : CacheCompatibility × List (List UInt8)} (hdigest : Overlaid materializer b digest)
    (h : addressParts addressing ⟨plan, b, digest⟩ cancellation = .ok (some p)) :
    p = (compatibility, identities 0) := by
  obtain ⟨sources, hsources, hc, hids⟩ := @addressParts_ok _ _ _ p.1 p.2 h
  obtain ⟨rfl, rfl⟩ := onlyBinding hsources
  obtain rfl := noOverlay hdigest
  have hparts : addressParts addressing request ⟨false⟩ =
      .ok (some (compatibility, identities 0)) := by decide +kernel
  obtain ⟨sources', hsources', hc', hids'⟩ := addressParts_ok hparts
  obtain ⟨_, rfl⟩ := onlyBinding hsources'
  exact Prod.ext (hc.trans hc'.symm) (hids.trans hids'.symm)

theorem trust : Trust addressing cast (fun _ => file) {materializer} where
  reads := by
    rintro m rfl
    exact identifies
  providers := by
    rintro m rfl
    exact computes_idealEngine cast
  trusted := by
    rintro m rfl m' rfl b b' digest digest' sources sources' hd hd' hsources hsources'
    obtain ⟨rfl, rfl⟩ := onlyBinding hsources
    obtain ⟨rfl, rfl⟩ := onlyBinding hsources'
    obtain rfl := noOverlay hd
    obtain rfl := noOverlay hd'
    exact trusted plan plan
  keys := by
    rintro m rfl m' rfl b b' digest digest' cancellation cancellation' p p' hd hd' hp hp'
    rw [onlyParts hd hp, onlyParts hd' hp']
    exact injOn_pair _ _

end Cast

/-- The second delivery of the cast comes from the cache. -/
theorem deliveries_agree_cast : ∃ t weight, ReachableUnder jobAct (fun _ _ => True)
      (startJobs Cast.addressing Cast.jobs) t ∧ t.1 1 = .ret (.ok (some (.prepared weight))) ∧
    weight.origin = .cache ∧ weight.bytes.bytes = [0, 60, 0, 64] ∧
    hostBytes Cast.cast (fun _ => Cast.file) Cast.plan.inputs (Cast.binding 0) =
      some weight.bytes.bytes := by
  have hfirst : Cast.first.1.isSome = true := by decide +kernel
  have hsecond : Cast.cachedBytes Cast.second.1 = some [0, 60, 0, 64] := by decide +kernel
  obtain ⟨r, hr⟩ := Option.isSome_iff_exists.mp hfirst
  obtain ⟨weight, hweight, horigin, hbytes⟩ := Cast.cachedBytes_some hsecond
  unfold Cast.second Cast.first at hweight
  unfold Cast.first at hr
  have hrun := Cache.Sample.reachable_inTurn hr hweight
  have hret : (Function.update (Function.update (startJobs Cast.addressing Cast.jobs).1 0 (.ret r)) 1
      (.ret (.ok (some (.prepared weight))))) 1 = .ret (.ok (some (.prepared weight))) :=
    Function.update_self ..
  have hagree := @deliveries_agree Cast.addressing Cast.cast (fun _ => Cast.file)
    {Cast.materializer} Cast.trust Cast.jobs (fun _ => Set.mem_singleton _) _ hrun 1 Cast.materializer
    ⟨"w"⟩ rfl weight hret horigin (Cast.binding 0) rfl (.inr (List.cons_ne_nil _ _)) fun _ => .inl rfl
  exact ⟨_, weight, hrun, hret, horigin, hbytes, hagree.1⟩

end ModelWeights.Prepared
