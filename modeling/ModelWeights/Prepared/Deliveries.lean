import ModelWeights.Prepared.Warm

/-! # Deliveries from a shared cache

What the routes of a materializer take from the cache and put into it, whatever the
other users of the cache do meanwhile. -/
namespace ModelWeights.Prepared
open ModelWeights.Graph Plan Cache Pipeline Program Interference

section Routes
variable {Good : CacheEnvelope → List UInt8 → Prop} {process : Nat} {others : Nat → Prop}
  {a : Addressing} {m : Materializer} {binding : Binding}

section Actions
variable {α β : Type} {S : β → Prop}

theorem yields_pureAction {r : Result α} :
    (soundProtocol Good process others).Yields (pureAction r) fun a => r = .ok a := by
  cases r with
  | ok a => exact yields_pure rfl
  | error e => exact yields_throw

theorem yields_sampled {f : CancellationToken → Result α} :
    (soundProtocol Good process others).Yields (sampled f) fun a =>
      ∃ cancellation, f cancellation = .ok a :=
  yields_asking trivial fun cancelled => yields_pureAction.mono fun _ h => ⟨⟨cancelled⟩, h⟩

theorem yields_checked {f : Unit → Action β}
    (hf : (soundProtocol Good process others).Yields (f ()) S) :
    (soundProtocol Good process others).Yields (checkCancelled >>= f) S :=
  yields_first Discipline.acts_checkCancelled fun _ => hf

end Actions

/-! ## The cache -/

/-- A weight that was read from the entry of a key. -/
structure ReadFrom (Good : CacheEnvelope → List UInt8 → Prop) (key : CacheKey)
    (weight : PreparedWeight) : Prop where
  entry : ∃ e, Good e weight.bytes.bytes ∧ e.ns = .prepared ∧ e.key = key

theorem yields_addressOf {digest : Option ContentDigest} :
    (soundProtocol Good process others).Yields (m.addressOf a binding digest) fun address =>
      ∀ x, address = some x → Address a m binding digest x := by
  refine yields_sampled.mono fun address h => ?_
  obtain ⟨cancellation, h⟩ := h
  exact fun x hx => ⟨cancellation, hx ▸ h⟩

theorem yields_tryCachedPrepared {address : Option PreparedCacheAddress} :
    (soundProtocol Good process others).Yields (m.tryCachedPrepared binding address) fun cached =>
      ∀ delivery, cached = some delivery → ∃ x weight, address = some x ∧
        delivery = .prepared weight ∧ ReadFrom Good x.key weight := by
  have hnone : (soundProtocol Good process others).Yields (pure none) fun cached =>
      ∀ delivery, cached = some delivery → ∃ x weight, address = some x ∧
        delivery = WeightDelivery.prepared weight ∧ ReadFrom Good x.key weight :=
    yields_pure fun _ h => by cases h
  unfold Materializer.tryCachedPrepared
  cases m.cache with
  | none => exact hnone
  | some c =>
    cases address with
    | none => exact hnone
    | some x =>
      dsimp only
      refine yields_bind yields_lookup fun found hfound => ?_
      cases found with
      | miss reason => exact hnone
      | hit entry =>
        have hevict : (soundProtocol Good process others).Yields (do
            let _ ← evict c .prepared x.key .corrupt
            pure none) fun cached => ∀ delivery, cached = some delivery →
              ∃ y weight, some x = some y ∧ delivery = WeightDelivery.prepared weight ∧
                ReadFrom Good y.key weight :=
          yields_first (Discipline.acts_evict sound_evicting) fun _ => hnone
        dsimp only
        split
        · exact hevict
        · refine yields_outcome (yields_bind yields_pureAction fun _ _ =>
            (yields_calm acts_readCacheEntry).produces) fun r hr => ?_
          cases r with
          | error e =>
            dsimp only
            split
            · exact hevict
            · exact yields_throw
          | ok view =>
            refine yields_pure fun delivery h => ?_
            obtain rfl := Option.some.inj h
            obtain ⟨e, hgood, hns, hkey⟩ := (hfound entry rfl).payload
            refine ⟨x, _, rfl, rfl, ⟨e, ?_, hns, hkey⟩⟩
            show Good e view.bytes
            rw [(readCacheEntry_bytes (hr view rfl).2).1]
            exact hgood

/-- Bytes that may be published under an address. -/
def Publishable (Good : CacheEnvelope → List UInt8 → Prop) (address : PreparedCacheAddress)
    (bytes : List UInt8) : Prop :=
  ∀ e : CacheEnvelope, e.ns = .prepared → e.key = address.key → Good e bytes

theorem yields_publishBytes {c : CacheService} {x : PreparedCacheAddress} {bytes : List UInt8}
    (hothers : ¬others process) (h : Publishable Good x bytes) :
    (soundProtocol Good process others).Yields
      (publishBytes c .prepared x.key x.compatibility bytes) fun _ => True := by
  refine (yields_publishReader hothers fun _ created => ?_).mono fun _ _ => trivial
  rw [content_cursor (by decide) (Nat.le_refl _)]
  exact h _ rfl rfl

theorem yields_publish {address : Option PreparedCacheAddress} {bytes : ByteView}
    (hothers : ¬others process) (h : ∀ x, address = some x → Publishable Good x bytes.bytes) :
    (soundProtocol Good process others).Yields (m.publish address bytes) fun _ => True := by
  unfold Materializer.publish
  cases m.cache with
  | none => exact yields_pure trivial
  | some c =>
    cases address with
    | none => exact yields_pure trivial
    | some x =>
      exact yields_bind (yields_publishBytes hothers (h x rfl)) fun _ _ => yields_pure trivial

/-! ## Steps that only read -/

section Reads
variable {D : Discipline} {α β : Type}

theorem acts_pureAction {r : Result α} : D.acts (pureAction r) := D.ret r

theorem acts_sampled {f : CancellationToken → Result α} : D.acts (sampled f) :=
  Discipline.acts_read trivial fun _ => acts_pureAction

theorem acts_admitted : D.acts (m.admitted binding) :=
  Discipline.acts_bind acts_pureAction fun _ => acts_pureAction

theorem acts_readSource {span : SourceSpan} : D.acts (m.readSource span) := acts_sampled

theorem acts_readInputs {sources : List SourceTensor} :
    ∀ {views : List (SourceSpan × ByteView)}, D.acts (m.readInputs views sources) := by
  induction sources with
  | nil => exact Discipline.acts_pure _
  | cons source rest ih =>
    intro views
    refine Discipline.acts_bind Discipline.acts_checkCancelled fun _ =>
      Discipline.acts_bind acts_pureAction fun span => ?_
    cases views.lookup span with
    | some bytes => exact Discipline.acts_bind ih fun _ => Discipline.acts_pure _
    | none =>
      exact Discipline.acts_bind acts_readSource fun _ =>
        Discipline.acts_bind ih fun _ => Discipline.acts_pure _

theorem acts_readOperationInputs : D.acts (m.readOperationInputs binding) :=
  Discipline.acts_bind acts_readInputs fun _ =>
    Discipline.acts_bind Discipline.acts_checkCancelled fun _ => Discipline.acts_pure _

theorem acts_executeGraph {graph : OperationGraph} {inputs : List ByteView} :
    D.acts (m.executeGraph binding graph inputs) := by
  refine Discipline.acts_bind acts_sampled fun _ => Discipline.acts_bind acts_pureAction fun _ => ?_
  split
  · exact Discipline.acts_throw _
  · exact Discipline.acts_pure _

theorem acts_executeTransforms {source : ByteView} :
    D.acts (m.executeTransforms binding source) := by
  have hchecked : ∀ p : ByteView × PreparedOrigin, D.acts (if p.1.bytes.length ≠
      binding.target.outputSize then throw (.integrity
        "materialized host bytes differ from the planned output size") else pure p :
      Action (ByteView × PreparedOrigin)) := by
    intro p
    split
    · exact Discipline.acts_throw _
    · exact Discipline.acts_pure _
  unfold Materializer.executeTransforms
  split
  · exact Discipline.acts_bind (Discipline.acts_pure _) hchecked
  · exact Discipline.acts_bind acts_sampled fun _ =>
      Discipline.acts_bind (Discipline.acts_pure _) hchecked

theorem acts_readCompanions {companions : List (StableName × CompanionTensor)} :
    ∀ {views : List (SourceSpan × ByteView)}, D.acts (m.readCompanions views companions) := by
  induction companions with
  | nil => exact Discipline.acts_pure _
  | cons companion rest ih =>
    obtain ⟨role, companion⟩ := companion
    intro views
    refine Discipline.acts_bind Discipline.acts_checkCancelled fun _ => ?_
    cases views.lookup companion.span with
    | some bytes => exact Discipline.acts_bind ih fun _ => Discipline.acts_pure _
    | none =>
      exact Discipline.acts_bind acts_readSource fun _ =>
        Discipline.acts_bind ih fun _ => Discipline.acts_pure _

end Reads

theorem executeTransforms_origin {source : ByteView} {prepared : ByteView × PreparedOrigin}
    (h : Produces (m.executeTransforms binding source) prepared) : prepared.2 ≠ .cache := by
  unfold Materializer.executeTransforms at h
  split at h
  · obtain ⟨p, hp, h⟩ := produces_bind.mp h
    rw [(produces_unless h).2, produces_pure.mp hp]
    exact PreparedOrigin.noConfusion
  · obtain ⟨view, _, h⟩ := produces_bind.mp h
    obtain ⟨p, hp, h⟩ := produces_bind.mp h
    rw [(produces_unless h).2, produces_pure.mp hp]
    exact PreparedOrigin.noConfusion

/-! ## Routes -/

/-- A weight from the cache was read from the entry of its binding. -/
def Sourced (Good : CacheEnvelope → List UInt8 → Prop) (a : Addressing) (m : Materializer)
    (binding : Binding) (delivery : WeightDelivery) : Prop :=
  ∀ weight, delivery = .prepared weight → weight.origin = .cache →
    ∃ x, Address a m binding none x ∧ ReadFrom Good x.key weight

/-- What the host makes of a binding may be published under its addresses. -/
def Publishes (Good : CacheEnvelope → List UInt8 → Prop) (a : Addressing) (m : Materializer)
    (binding : Binding) : Prop :=
  ∀ x bytes, Address a m binding none x → HostMade m binding bytes → Publishable Good x bytes

/-- A delivery that is no weight from the cache. -/
theorem sourced_fresh {bytes : ByteView} {origin : PreparedOrigin} (h : origin ≠ .cache) :
    Sourced Good a m binding (preparedDelivery binding bytes origin) := by
  intro weight hweight horigin
  obtain rfl := WeightDelivery.prepared.inj hweight
  exact absurd horigin h

/-- A delivery that was found under the address of its binding. -/
theorem sourced_cached {address : Option PreparedCacheAddress} {delivery : WeightDelivery}
    (haddress : ∀ x, address = some x → Address a m binding none x)
    (h : ∃ x weight, address = some x ∧ delivery = .prepared weight ∧
      ReadFrom Good x.key weight) : Sourced Good a m binding delivery := by
  obtain ⟨x, weight, hx, rfl, hread⟩ := h
  intro weight' hweight _
  obtain rfl := WeightDelivery.prepared.inj hweight
  exact ⟨x, haddress x hx, hread⟩

/-- A route yields what is read from the cache, or what follows a miss. -/
theorem yields_routed {afterMiss : Option PreparedCacheAddress → Action WeightDelivery}
    (hmiss : ∀ address, (∀ x, address = some x → Address a m binding none x) →
      (soundProtocol Good process others).Yields (afterMiss address) (Sourced Good a m binding)) :
    (soundProtocol Good process others).Yields (m.routed a binding afterMiss)
      (Sourced Good a m binding) := by
  refine yields_bind yields_addressOf fun address haddress =>
    yields_bind yields_tryCachedPrepared fun cached hcached => ?_
  cases cached with
  | some delivery => exact yields_pure (sourced_cached haddress (hcached delivery rfl))
  | none => exact yields_first acts_admitted fun _ => hmiss address haddress

theorem yields_materializeOperationGraph {graph : OperationGraph} (hothers : ¬others process)
    (hgraph : binding.target.operationGraph = some graph) (h : Publishes Good a m binding) :
    (soundProtocol Good process others).Yields (m.materializeOperationGraph a binding graph)
      (Sourced Good a m binding) := by
  refine yields_routed fun address haddress =>
    yields_bind (yields_calm acts_readOperationInputs).produces fun inputs hinputs =>
    yields_checked ?_
  cases m.operationExecution with
  | delegate =>
    exact yields_bind yields_pureAction fun _ _ => yields_pure fun _ hw => by cases hw
  | host =>
    refine yields_bind (yields_calm acts_executeGraph).produces fun bytes hbytes =>
      yields_bind (yields_publish hothers fun x hx => ?_) fun _ _ =>
      yields_pure (sourced_fresh (by decide))
    exact h x _ (haddress x hx) (.graph graph inputs bytes hgraph hinputs.2 hbytes.2 rfl)

theorem yields_materializePlain {source : SourceTensor} {dtype : DType} {span : SourceSpan}
    (hothers : ¬others process) (hgraph : binding.target.operationGraph = none)
    (hsource : binding.sources.head? = some source) (hplain : source.storage = .plain dtype span)
    (h : Publishes Good a m binding) :
    (soundProtocol Good process others).Yields (m.materializePlain a binding span)
      (Sourced Good a m binding) := by
  refine yields_routed fun address haddress =>
    yields_bind (yields_calm acts_readSource).produces fun view hview => yields_checked <|
    yields_bind (yields_calm acts_executeTransforms).produces fun prepared hprepared => ?_
  refine yields_bind (yields_publish hothers fun x hx => ?_) fun _ _ =>
    yields_pure (sourced_fresh (executeTransforms_origin hprepared.2))
  exact h x _ (haddress x hx)
    (.transforms dtype span source view prepared hgraph hsource hplain hview.2 hprepared.2 rfl)

theorem yields_materializeConversion {source : SourceTensor} {span : SourceSpan}
    {recipe : ConversionRecipe} :
    (soundProtocol Good process others).Yields
      (m.materializeConversion a binding source span recipe) (Sourced Good a m binding) :=
  yields_routed fun _ _ => yields_first acts_readSource fun _ =>
    yields_checked <| yields_pure fun _ hw => by cases hw

theorem yields_materializeQuantized {source : SourceTensor} {storage : QuantizedStorage} :
    (soundProtocol Good process others).Yields
      (m.materializeQuantized a binding source storage) (Sourced Good a m binding) :=
  yields_bind yields_pureAction fun _ _ => yields_routed fun _ _ =>
    yields_bind yields_pureAction fun _ _ => yields_first acts_readSource fun _ =>
    yields_first acts_readCompanions fun _ => yields_checked <| yields_pure fun _ hw => by cases hw

theorem yields_materializeBaseBinding (hothers : ¬others process)
    (h : Publishes Good a m binding) :
    (soundProtocol Good process others).Yields (m.materializeBaseBinding a binding)
      (Sourced Good a m binding) := by
  unfold Materializer.materializeBaseBinding
  cases hgraph : binding.target.operationGraph with
  | some graph => exact yields_materializeOperationGraph hothers hgraph h
  | none =>
    dsimp only
    cases hsource : binding.sources.head? with
    | none => exact yields_throw
    | some source =>
      dsimp only
      cases hstorage : source.storage with
      | quantized storage => exact yields_materializeQuantized
      | plain dtype span =>
        dsimp only
        cases binding.target.conversionRecipe with
        | some recipe => exact yields_materializeConversion
        | none => exact yields_materializePlain hothers hgraph hsource hstorage h

/-- **What a binding without an overlay takes from the cache** was read from the entry of
the binding. -/
theorem yields_materializeBinding (hothers : ¬others process) (h : Publishes Good a m binding) :
    (soundProtocol Good process others).Yields (m.materializeBinding a binding) fun delivery =>
      (∀ cancellation, m.overlay binding cancellation = .ok none ∨
        ∃ e, m.overlay binding cancellation = .error e) → Sourced Good a m binding delivery := by
  refine yields_checked <| yields_bind yields_sampled fun overlay hoverlay => ?_
  obtain ⟨cancellation, hoverlay⟩ := hoverlay
  cases overlay with
  | none => exact (yields_materializeBaseBinding hothers h).mono fun _ hs _ => hs
  | some found =>
    have hplain : (∀ cancellation, m.overlay binding cancellation = .ok none ∨
        ∃ e, m.overlay binding cancellation = .error e) → False := by
      intro hnone
      rcases hnone cancellation with hnone | ⟨e, hnone⟩
      · rw [hoverlay] at hnone
        cases hnone
      · rw [hoverlay] at hnone
        cases hnone
    refine yields_bind yields_addressOf fun address _ =>
      yields_bind yields_tryCachedPrepared fun cached _ => ?_
    cases cached with
    | some delivery => exact yields_pure fun hnone => (hplain hnone).elim
    | none =>
      exact yields_bind (yields_materializeBaseBinding hothers h) fun base _ =>
        yields_pure fun hnone => (hplain hnone).elim

end Routes

end ModelWeights.Prepared
