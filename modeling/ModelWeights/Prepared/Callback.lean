import ModelWeights.Pipeline.Outcome
import ModelWeights.Prepared.Warm

/-! # The callback of a materializer

`materialize_binding` as the pipeline sees it: the reservations it asks for. What its
other actions come to is given, one outcome for each place in it, and any outcomes that
the actions can have are possible. -/
namespace ModelWeights.Prepared
open ModelWeights.Graph Plan Cache Pipeline Program

/-! ## Outcomes -/

/-- An outcome of every action, at every place of a callback. -/
structure Outcomes where
  outcome : Nat → {α : Type} → Action α → Result α
  possible : ∀ place {α : Type} (x : Action α), Returns x.run (outcome place x)

section Returns
variable {α β : Type} {x : Action α} {f : α → Action β}

theorem returns_ok {a : α} {r : Result β} (hx : Returns x.run (.ok a))
    (hf : Returns (f a).run r) : Returns (x >>= f).run r :=
  returns_bind.mpr ⟨.ok a, hx, hf⟩

theorem returns_error {e : Error} (hx : Returns x.run (.error e)) :
    Returns (x >>= f).run (.error e) :=
  returns_bind.mpr ⟨.error e, hx, returns_pure.mpr rfl⟩

theorem returns_assoc {γ : Type} {g : β → Action γ} {r : Result γ}
    (h : Returns ((x >>= f) >>= g).run r) : Returns (x >>= fun a => f a >>= g).run r := by
  obtain ⟨rf, hf, hg⟩ := returns_bind.mp h
  obtain ⟨rx, hx, hf⟩ := returns_bind.mp hf
  refine returns_bind.mpr ⟨rx, hx, ?_⟩
  cases rx with
  | ok a => exact returns_bind.mpr ⟨rf, hf, hg⟩
  | error e =>
    obtain rfl := returns_pure.mp hf
    exact hg

theorem returns_pureAction {r : Result α} : Returns (pureAction r).run r := .ret r

/-- Goes on with the outcome of an action. -/
theorem returns_outcome {f : Result α → Action β} {r : Result α} {r' : Result β}
    (hx : Returns x.run r) (hf : Returns (f r).run r') : Returns (outcome x >>= f).run r' :=
  returns_ok (returns_bind.mpr ⟨r, hx, .ret _⟩) hf

theorem Outcomes.returns (o : Outcomes) {place : Nat} {r : Result α}
    (h : o.outcome place x = r) : Returns x.run r := h ▸ o.possible place x

end Returns

/-- What a callback returns if its requests are answered by `grant`. -/
def outcomeUnder {α : Type} (grant : ResourceWeights → Result Unit) :
    Preparation α → Result (PreparedItem α)
  | .done result => result
  | .withResources required operation next =>
    match grant required with
    | .ok () => outcomeUnder grant (next (outcomeUnder grant operation))
    | .error e => outcomeUnder grant (next (.error e))

/-! ## The requests -/

variable (a : Addressing) (m : Materializer)

namespace Materializer

/-- A delivery with what the pipeline counts. -/
def item (delivery : WeightDelivery) : PreparedItem WeightDelivery :=
  ⟨delivery, delivery.residentBytes⟩

variable (o : Outcomes) (place : Nat) (binding : Binding)

/-- `evict` of an entry that is corrupt, and on without it. -/
def discardScript (c : CacheService) (address : PreparedCacheAddress)
    (next : Result (Option WeightDelivery) → Preparation WeightDelivery) :
    Preparation WeightDelivery :=
  match o.outcome (place + 2) (evict c .prepared address.key .corrupt) with
  | .ok _ => next (.ok none)
  | .error e => next (.error e)

/-- `try_cached_prepared`. -/
def tryCachedScript (address : Option PreparedCacheAddress)
    (next : Result (Option WeightDelivery) → Preparation WeightDelivery) :
    Preparation WeightDelivery :=
  match m.cache, address with
  | some c, some address =>
    match o.outcome place (lookup c .prepared address.key address.compatibility
      .trustedMetadata) with
    | .error e => next (.error e)
    | .ok (.miss _) => next (.ok none)
    | .ok (.hit entry) =>
      if entry.info.payloadLen ≠ binding.target.outputSize then
        discardScript o place c address next
      else
        .withResources ⟨0, 0, binding.target.outputSize⟩
          (.done ((o.outcome (place + 1) (readCacheEntry c.sha256 entry m.cacheValidation)).map
            fun bytes => item (preparedDelivery binding bytes .cache)))
          fun read =>
            match read with
            | .ok read => next (.ok (some read.value))
            | .error e =>
              if e.category = .integrity then discardScript o place c address next
              else next (.error e)
  | _, _ => next (.ok none)

/-- A route: the total requirement of the binding is requested after a miss. -/
def routedScript (afterMiss : Option PreparedCacheAddress → Action WeightDelivery)
    (next : Result WeightDelivery → Preparation WeightDelivery) : Preparation WeightDelivery :=
  match o.outcome place (m.addressOf a binding none) with
  | .error e => next (.error e)
  | .ok address =>
    m.tryCachedScript o (place + 1) binding address fun cached =>
      match cached with
      | .error e => next (.error e)
      | .ok (some delivery) => next (.ok delivery)
      | .ok none =>
        match m.resourceWeights binding with
        | .error e => next (.error e)
        | .ok required =>
          .withResources required (.done ((o.outcome (place + 4) (afterMiss address)).map item))
            fun delivered => next (delivered.map PreparedItem.value)

/-- `materialize_base_binding`. -/
def baseScript (next : Result WeightDelivery → Preparation WeightDelivery) :
    Preparation WeightDelivery :=
  match binding.target.operationGraph with
  | some graph =>
    m.routedScript a o place binding (m.operationGraphAfterCacheMiss binding graph) next
  | none =>
    match binding.sources.head? with
    | none => next (.error (.integrity "binding has no source"))
    | some source =>
      match source.storage with
      | .plain _ span =>
        match binding.target.conversionRecipe with
        | some recipe =>
          m.routedScript a o place binding (m.conversionAfterCacheMiss binding source span recipe)
            next
        | none => m.routedScript a o place binding (m.plainAfterCacheMiss binding span) next
      | .quantized storage =>
        match binding.target.quantizedRoute with
        | none => next (.error
          (.unsupported "quantized binding has no selected route capability"))
        | some capability =>
          m.routedScript a o place binding
            (m.quantizedAfterCacheMiss binding source storage capability) next

/-- The callback of `execute`. -/
def callback : Preparation WeightDelivery :=
  match o.outcome 0 (do checkCancelled; sampled (m.overlay binding)) with
  | .error e => .done (.error e)
  | .ok none => m.baseScript a o 1 binding fun delivered => .done (delivered.map item)
  | .ok (some (bindingIndex, targetDigest)) =>
    match o.outcome 1 (m.addressOf a binding (some targetDigest)) with
    | .error e => .done (.error e)
    | .ok address =>
      m.tryCachedScript o 2 binding address fun cached =>
        match cached with
        | .error e => .done (.error e)
        | .ok (some delivery) => .done (.ok (item delivery))
        | .ok none =>
          m.baseScript a o 5 binding fun delivered =>
            .done (delivered.map fun base =>
              item (.overlay base bindingIndex targetDigest base.residentBytes))

end Materializer

/-! ## The callback is the materializer -/

section Agreement
variable {a m} {o : Outcomes} {place : Nat} {binding : Binding}

/-- The part of a callback for an action has an outcome of the action. -/
def Plays {α : Type} (m : Materializer) (x : Action α)
    (script : (Result α → Preparation WeightDelivery) → Preparation WeightDelivery) : Prop :=
  ∃ r, Returns x.run r ∧ ∀ next, outcomeUnder m.withResources (script next) =
    outcomeUnder m.withResources (next r)

/-- A request for resources and an action under it. -/
theorem request_plays {α : Type} {required : ResourceWeights} {x : Action α}
    {f : α → PreparedItem WeightDelivery} :
    ∃ r, Returns (pureAction (m.withResources required) >>= fun _ => x).run r ∧
      ∀ next, outcomeUnder m.withResources
        (.withResources required (.done ((o.outcome place x).map f)) next) =
          outcomeUnder m.withResources (next (r.map f)) := by
  cases hgrant : m.withResources required with
  | error e =>
    refine ⟨.error e, returns_error returns_pureAction, fun next => ?_⟩
    simp only [outcomeUnder, hgrant]
    rfl
  | ok granted =>
    refine ⟨_, returns_ok returns_pureAction (o.possible place x), fun next => ?_⟩
    simp only [outcomeUnder, hgrant]

theorem discardScript_plays {c : CacheService} {address : PreparedCacheAddress} :
    Plays m (do let _ ← evict c .prepared address.key .corrupt; pure none)
      (Materializer.discardScript o place c address) := by
  unfold Materializer.discardScript
  cases h : o.outcome (place + 2) (evict c .prepared address.key .corrupt) with
  | ok record => exact ⟨.ok none, returns_ok (o.returns h) (.ret _), fun _ => rfl⟩
  | error e => exact ⟨.error e, returns_error (o.returns h), fun _ => rfl⟩

theorem tryCachedScript_plays {address : Option PreparedCacheAddress} :
    Plays m (m.tryCachedPrepared binding address) (m.tryCachedScript o place binding address) := by
  unfold Materializer.tryCachedPrepared Materializer.tryCachedScript
  cases m.cache with
  | none => exact ⟨.ok none, .ret _, fun _ => rfl⟩
  | some c =>
    cases address with
    | none => exact ⟨.ok none, .ret _, fun _ => rfl⟩
    | some address =>
      dsimp only
      cases hlookup : o.outcome place (lookup c .prepared address.key address.compatibility
        .trustedMetadata) with
      | error e => exact ⟨.error e, returns_error (o.returns hlookup), fun _ => rfl⟩
      | ok found =>
        cases found with
        | miss reason =>
          exact ⟨.ok none, returns_ok (o.returns hlookup) (.ret _), fun _ => rfl⟩
        | hit entry =>
          obtain ⟨r, hr, hdiscard⟩ := @discardScript_plays m o place c address
          by_cases hlength : entry.info.payloadLen ≠ binding.target.outputSize
          · simp only [if_pos hlength]
            refine ⟨r, returns_ok (o.returns hlookup) ?_, hdiscard⟩
            simp only [if_pos hlength]
            exact hr
          · simp only [if_neg hlength]
            have hfail : ∀ e : Error, Plays m (if e.category = .integrity then do
                let _ ← evict c .prepared address.key .corrupt
                pure none else throw e) fun next => if e.category = .integrity then
                  Materializer.discardScript o place c address next else next (.error e) := by
              intro e
              by_cases hcategory : e.category = .integrity
              · simp only [if_pos hcategory]
                exact ⟨r, hr, hdiscard⟩
              · simp only [if_neg hcategory]
                exact ⟨.error e, .ret _, fun _ => rfl⟩
            obtain ⟨read, hread, hrequest⟩ := @request_plays m o (place + 1) ByteView
              ⟨0, 0, binding.target.outputSize⟩ (readCacheEntry c.sha256 entry m.cacheValidation)
              fun bytes => Materializer.item (preparedDelivery binding bytes .cache)
            cases read with
            | ok bytes =>
              refine ⟨.ok (some (preparedDelivery binding bytes .cache)),
                returns_ok (o.returns hlookup) ?_, fun next => hrequest _⟩
              simp only [if_neg hlength]
              exact returns_outcome hread (.ret _)
            | error e =>
              obtain ⟨r', hr', hnext⟩ := hfail e
              refine ⟨r', returns_ok (o.returns hlookup) ?_,
                fun next => (hrequest _).trans (hnext next)⟩
              simp only [if_neg hlength]
              exact returns_outcome hread hr'

theorem routedScript_plays {afterMiss : Option PreparedCacheAddress → Action WeightDelivery} :
    Plays m (m.routed a binding afterMiss) (m.routedScript a o place binding afterMiss) := by
  unfold Materializer.routedScript
  cases haddress : o.outcome place (m.addressOf a binding none) with
  | error e => exact ⟨.error e, returns_error (o.returns haddress), fun _ => rfl⟩
  | ok address =>
    obtain ⟨cached, hcached, hnext⟩ := @tryCachedScript_plays m o (place + 1) binding address
    cases cached with
    | error e =>
      exact ⟨.error e, returns_ok (o.returns haddress) (returns_error hcached), fun next => hnext _⟩
    | ok cached =>
      cases cached with
      | some delivery =>
        exact ⟨.ok delivery, returns_ok (o.returns haddress) (returns_ok hcached (.ret _)),
          fun next => hnext _⟩
      | none =>
        cases hrequired : m.resourceWeights binding with
        | error e =>
          have hadmitted : Returns (m.admitted binding).run (.error e) := by
            refine returns_error ?_
            rw [hrequired]
            exact returns_pureAction
          refine ⟨.error e, returns_ok (o.returns haddress)
            (returns_ok hcached (returns_error hadmitted)), fun next => ?_⟩
          rw [hnext]
        | ok required =>
          obtain ⟨r, hr, hrequest⟩ := @request_plays m o (place + 4) WeightDelivery required
            (afterMiss address) Materializer.item
          refine ⟨r, returns_ok (o.returns haddress) (returns_ok hcached ?_), fun next => ?_⟩
          · obtain ⟨granted, hgranted, hr⟩ := returns_bind.mp hr
            refine returns_bind.mpr ⟨granted, returns_ok ?_ hgranted, hr⟩
            rw [hrequired]
            exact returns_pureAction
          · rw [hnext]
            refine (hrequest _).trans ?_
            cases r <;> rfl

theorem baseScript_plays :
    Plays m (m.materializeBaseBinding a binding) (m.baseScript a o place binding) := by
  unfold Materializer.materializeBaseBinding Materializer.baseScript
  cases binding.target.operationGraph with
  | some graph => exact routedScript_plays
  | none =>
    dsimp only
    cases binding.sources.head? with
    | none => exact ⟨_, .ret _, fun _ => rfl⟩
    | some source =>
      dsimp only
      cases source.storage with
      | plain dtype span =>
        dsimp only
        cases binding.target.conversionRecipe with
        | some recipe => exact routedScript_plays
        | none => exact routedScript_plays
      | quantized storage =>
        dsimp only
        unfold Materializer.materializeQuantized
        cases binding.target.quantizedRoute with
        | none => exact ⟨_, returns_error returns_pureAction, fun _ => rfl⟩
        | some capability =>
          obtain ⟨r, hr, hnext⟩ := @routedScript_plays a m o place binding
            (m.quantizedAfterCacheMiss binding source storage capability)
          exact ⟨r, returns_ok returns_pureAction hr, hnext⟩

/-- **The callback returns what the materializer returns**, if its requests are answered
the same way. -/
theorem callback_plays : ∃ r, Returns (m.materializeBinding a binding).run r ∧
    outcomeUnder m.withResources (m.callback a o binding) = r.map Materializer.item := by
  unfold Materializer.callback
  cases hoverlay : o.outcome 0 (do checkCancelled; sampled (m.overlay binding)) with
  | error e => exact ⟨.error e, returns_assoc (returns_error (o.returns hoverlay)), rfl⟩
  | ok overlay =>
    have hstart := o.returns hoverlay
    cases overlay with
    | none =>
      obtain ⟨r, hr, hnext⟩ := @baseScript_plays a m o 1 binding
      exact ⟨r, returns_assoc (returns_ok hstart hr), hnext _⟩
    | some found =>
      obtain ⟨index, digest⟩ := found
      dsimp only
      cases haddress : o.outcome 1 (m.addressOf a binding (some digest)) with
      | error e =>
        exact ⟨.error e, returns_assoc (returns_ok hstart (returns_error (o.returns haddress))), rfl⟩
      | ok address =>
        obtain ⟨cached, hcached, hnext⟩ := @tryCachedScript_plays m o 2 binding address
        have hlooked : ∀ {r : Result WeightDelivery}, Returns (m.tryCachedPrepared binding address >>=
            fun cached => cached.elim (m.materializeBaseBinding a binding >>= fun base =>
              pure (.overlay base index digest base.residentBytes)) pure).run r →
            Returns (m.materializeBinding a binding).run r := by
          intro r h
          refine returns_assoc (returns_ok hstart (returns_ok (o.returns haddress) ?_))
          obtain ⟨cached, hcached, h⟩ := returns_bind.mp h
          refine returns_bind.mpr ⟨cached, hcached, ?_⟩
          cases cached with
          | error e => exact h
          | ok cached => cases cached <;> exact h
        cases cached with
        | error e => exact ⟨.error e, hlooked (returns_error hcached), hnext _⟩
        | ok cached =>
          cases cached with
          | some delivery =>
            exact ⟨.ok delivery, hlooked (returns_ok hcached (.ret _)), hnext _⟩
          | none =>
            obtain ⟨r, hr, hbase⟩ := @baseScript_plays a m o 5 binding
            cases r with
            | error e =>
              exact ⟨.error e, hlooked (returns_ok hcached (returns_error hr)),
                (hnext _).trans (hbase _)⟩
            | ok base =>
              exact ⟨.ok (.overlay base index digest base.residentBytes),
                hlooked (returns_ok hcached (returns_ok hr (.ret _))), (hnext _).trans (hbase _)⟩

end Agreement

end ModelWeights.Prepared
