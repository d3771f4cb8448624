import ModelWeights.Cache.Guarded
import ModelWeights.Graph.Uniform
import ModelWeights.Prepared.Materialize
import ModelWeights.Prepared.Separation

/-! # The bytes of a host execution

Where digests identify the contents of files and providers compute functions, the bytes
that the host makes for a binding depend on the target, the sources and the digests of
their files only. -/
namespace ModelWeights.Prepared
open ModelWeights.Graph Plan Cache Pipeline Program

/-- The bytes of a span of a file. -/
def spanOf (file : Bytes) (span : SourceSpan) : Bytes := (file.drop span.offset).take span.length

/-- A file with a given digest has one content, and a materializer reads it. -/
def Identifies (contents : ContentDigest → Bytes) (m : Materializer) : Prop :=
  ∀ span cancellation view, m.read span cancellation = .ok view →
    ∃ digest, m.plan.inputs.sourceDigests[span.file]? = some digest ∧
      view.bytes = spanOf (contents digest) span

/-- The bytes of a plain source. -/
def sourceBytes (contents : ContentDigest → Bytes) (inputs : PlanInputs) (source : SourceTensor) :
    Option Bytes :=
  match source.storage with
  | .plain _ span => (inputs.sourceDigests[span.file]?).map fun d => spanOf (contents d) span
  | .quantized _ => none

def chainBytes (F : PrepareFunction) (shape : List Nat) (transforms : List PlannedTransform)
    (source : Bytes) : Bytes :=
  transforms.foldl (fun bytes planned => F planned.transform shape bytes) source

/-- What the host makes of a binding: its graph on its sources, or its transforms on its
source. -/
def hostBytes (F : PrepareFunction) (contents : ContentDigest → Bytes) (inputs : PlanInputs)
    (binding : Binding) : Option Bytes :=
  match binding.target.operationGraph with
  | some graph => (binding.sources.mapM (sourceBytes contents inputs)).bind (graph.idealOutput F)
  | none => (binding.sources.head?.bind (sourceBytes contents inputs)).map
      (chainBytes F binding.target.shape binding.target.transforms)

/-- A host execution of a binding can end with these bytes. -/
inductive HostMade (m : Materializer) (binding : Binding) (bytes : Bytes) : Prop where
  | graph (graph : OperationGraph) (inputs : List ByteView) (view : ByteView)
    (hgraph : binding.target.operationGraph = some graph)
    (hread : Produces (m.readOperationInputs binding) inputs)
    (hexecute : Produces (m.executeGraph binding graph inputs) view)
    (hbytes : view.bytes = bytes)
  | transforms (dtype : DType) (span : SourceSpan) (source : SourceTensor)
    (view : ByteView) (prepared : ByteView × PreparedOrigin)
    (hgraph : binding.target.operationGraph = none)
    (hsource : binding.sources.head? = some source)
    (hplain : source.storage = .plain dtype span)
    (hread : Produces (m.readSource span) view)
    (hexecute : Produces (m.executeTransforms binding view) prepared)
    (hbytes : prepared.1.bytes = bytes)

section Actions
variable {α β : Type}

theorem produces_pureAction {r : Result α} {a : α} : Produces (pureAction r) a ↔ r = .ok a :=
  returns_pure.trans eq_comm

theorem produces_sampled {f : CancellationToken → Result α} {a : α}
    (h : Produces (sampled f) a) : ∃ cancellation, f cancellation = .ok a := by
  obtain ⟨cancelled, _, h⟩ := produces_bind.mp h
  exact ⟨⟨cancelled⟩, produces_pureAction.mp h⟩

/-- A computation with a token ends as it does for one. -/
theorem returns_sampled {f : CancellationToken → Result α} {r : Result α}
    (h : Returns (sampled f).run r) : ∃ cancellation, r = f cancellation := by
  obtain ⟨_, hsampled, h⟩ := returns_bind.mp h
  obtain ⟨cancelled, _, hsampled⟩ := returns_bind.mp hsampled
  obtain rfl := returns_pure.mp hsampled
  exact ⟨⟨cancelled⟩, returns_pure.mp h⟩

/-- A value that was checked before it is returned. -/
theorem produces_unless {c : Prop} [Decidable c] {e : Error} {a b : α}
    (h : Produces (if c then throw e else pure b : Action α) a) : ¬c ∧ a = b := by
  split at h
  · exact absurd h not_produces_throw
  · next hc => exact ⟨hc, produces_pure.mp h⟩

end Actions

section Determinism
variable {F : PrepareFunction} {contents : ContentDigest → Bytes} {m : Materializer}
  {binding : Binding}

theorem readSource_bytes (hm : Identifies contents m) {span : SourceSpan} {view : ByteView}
    (h : Produces (m.readSource span) view) :
    ∃ digest, m.plan.inputs.sourceDigests[span.file]? = some digest ∧
      view.bytes = spanOf (contents digest) span := by
  obtain ⟨cancellation, h⟩ := produces_sampled h
  exact hm span cancellation view h

/-- Views that were read before. -/
def Remembers (contents : ContentDigest → Bytes) (m : Materializer)
    (views : List (SourceSpan × ByteView)) : Prop :=
  ∀ span view, views.lookup span = some view →
    ∃ digest, m.plan.inputs.sourceDigests[span.file]? = some digest ∧
      view.bytes = spanOf (contents digest) span

theorem Remembers.cons {views : List (SourceSpan × ByteView)} {span : SourceSpan} {view : ByteView}
    (h : Remembers contents m views)
    (hview : ∃ digest, m.plan.inputs.sourceDigests[span.file]? = some digest ∧
      view.bytes = spanOf (contents digest) span) : Remembers contents m ((span, view) :: views) := by
  intro span' view' hlookup
  rw [List.lookup_cons] at hlookup
  split at hlookup
  · next heq =>
    obtain rfl := Option.some.inj hlookup
    rwa [eq_of_beq heq]
  · exact h span' view' hlookup

theorem readInputs_bytes (hm : Identifies contents m) : ∀ {sources : List SourceTensor}
    {views : List (SourceSpan × ByteView)} {inputs : List ByteView}, Remembers contents m views →
    Produces (m.readInputs views sources) inputs →
    sources.mapM (sourceBytes contents m.plan.inputs) = some (inputs.map ByteView.bytes)
  | [], _, _, _, h => by
    obtain rfl := produces_pure.mp h
    rfl
  | source :: rest, views, inputs, hviews, h => by
    obtain ⟨_, _, h⟩ := produces_bind.mp h
    obtain ⟨span, hspan, h⟩ := produces_bind.mp h
    have hplain : ∃ dtype, source.storage = .plain dtype span := by
      have hspan := produces_pureAction.mp hspan
      rw [plainSpan] at hspan
      cases hs : source.storage with
      | plain dtype span' =>
        rw [hs] at hspan
        exact ⟨dtype, by rw [Except.ok.inj hspan]⟩
      | quantized q =>
        rw [hs] at hspan
        cases hspan
    obtain ⟨dtype, hplain⟩ := hplain
    have hcons : ∀ {view : ByteView} {more : List ByteView},
        (∃ digest, m.plan.inputs.sourceDigests[span.file]? = some digest ∧
          view.bytes = spanOf (contents digest) span) →
        rest.mapM (sourceBytes contents m.plan.inputs) = some (more.map ByteView.bytes) →
        (source :: rest).mapM (sourceBytes contents m.plan.inputs) =
          some ((view :: more).map ByteView.bytes) := by
      rintro view more ⟨digest, hdigest, hbytes⟩ hmore
      have hsource : sourceBytes contents m.plan.inputs source = some view.bytes := by
        rw [sourceBytes, hplain]
        simp only [hdigest, Option.map_some, hbytes]
      rw [List.mapM_cons, hsource, hmore]
      rfl
    cases hlookup : views.lookup span with
    | some view =>
      simp only [hlookup] at h
      obtain ⟨more, hmore, h⟩ := produces_bind.mp h
      obtain rfl := produces_pure.mp h
      exact hcons (hviews span view hlookup) (readInputs_bytes hm hviews hmore)
    | none =>
      simp only [hlookup] at h
      obtain ⟨view, hview, h⟩ := produces_bind.mp h
      obtain ⟨more, hmore, h⟩ := produces_bind.mp h
      obtain rfl := produces_pure.mp h
      have hview := readSource_bytes hm hview
      exact hcons hview (readInputs_bytes hm (hviews.cons hview) hmore)

theorem readOperationInputs_bytes (hm : Identifies contents m) {inputs : List ByteView}
    (h : Produces (m.readOperationInputs binding) inputs) :
    binding.sources.mapM (sourceBytes contents m.plan.inputs) =
      some (inputs.map ByteView.bytes) := by
  obtain ⟨views, hviews, h⟩ := produces_bind.mp h
  obtain ⟨_, _, h⟩ := produces_bind.mp h
  obtain rfl := produces_pure.mp h
  exact readInputs_bytes hm (fun _ _ hlookup => by cases hlookup) hviews

theorem executeGraph_bytes (hF : Computes F m.host.preparation) {graph : OperationGraph}
    {inputs : List ByteView} {view : ByteView}
    (h : Produces (m.executeGraph binding graph inputs) view) :
    graph.idealOutput F (inputs.map ByteView.bytes) = some view.bytes := by
  obtain ⟨execution, hexecution, h⟩ := produces_bind.mp h
  obtain ⟨_, _, h⟩ := produces_bind.mp h
  obtain ⟨cancellation, hexecution⟩ := produces_sampled hexecution
  rw [(produces_unless h).2]
  cases hhost : graph.executeHost m.host inputs cancellation with
  | error e =>
    rw [hhost] at hexecution
    cases hexecution
  | ok r =>
    rw [hhost] at hexecution
    obtain rfl := Except.ok.inj hexecution
    exact executeHost_ideal hF hhost

theorem prepareChain_bytes {preparation : PreparationEngine} (hF : Computes F preparation)
    {shape : List Nat} {cancellation : CancellationToken} : ∀ {transforms : List PlannedTransform}
    {source view : ByteView},
    Materializer.prepareChain preparation shape cancellation transforms source = .ok view →
    view.bytes = chainBytes F shape transforms source.bytes
  | [], _, _, h => by
    obtain ⟨_, _, h⟩ := bind_ok h
    rw [← Except.ok.inj h]
    rfl
  | planned :: rest, source, view, h => by
    obtain ⟨_, _, h⟩ := bind_ok h
    obtain ⟨prepared, hprepared, h⟩ := bind_ok h
    have hstep := hF _ _ _ source rfl hprepared
    rw [prepareChain_bytes hF h, hstep]
    rfl

theorem executeTransforms_bytes (hF : Computes F m.host.preparation) {source : ByteView}
    {prepared : ByteView × PreparedOrigin}
    (h : Produces (m.executeTransforms binding source) prepared) :
    prepared.1.bytes = chainBytes F binding.target.shape binding.target.transforms source.bytes := by
  unfold Materializer.executeTransforms at h
  split at h
  · next hempty =>
    obtain ⟨p, hp, h⟩ := produces_bind.mp h
    rw [(produces_unless h).2, produces_pure.mp hp, List.isEmpty_iff.mp hempty]
    rfl
  · obtain ⟨view, hview, h⟩ := produces_bind.mp h
    obtain ⟨p, hp, h⟩ := produces_bind.mp h
    obtain ⟨cancellation, hview⟩ := produces_sampled hview
    rw [(produces_unless h).2, produces_pure.mp hp]
    exact prepareChain_bytes hF hview

/-- **What a host execution makes is determined**: by the target, the sources and the
digests of their files. -/
theorem HostMade.bytes (hm : Identifies contents m) (hF : Computes F m.host.preparation)
    {bytes : Bytes} (h : HostMade m binding bytes) :
    hostBytes F contents m.plan.inputs binding = some bytes := by
  cases h with
  | graph graph inputs view hgraph hread hexecute hbytes =>
    rw [hostBytes, hgraph]
    show (binding.sources.mapM (sourceBytes contents m.plan.inputs)).bind _ = _
    rw [readOperationInputs_bytes hm hread, Option.bind_some, executeGraph_bytes hF hexecute, hbytes]
  | transforms dtype span source view prepared hgraph hsource hplain hread hexecute hbytes =>
    obtain ⟨digest, hdigest, hview⟩ := readSource_bytes hm hread
    rw [hostBytes, hgraph]
    show (binding.sources.head?.bind (sourceBytes contents m.plan.inputs)).map _ = _
    rw [hsource, Option.bind_some, sourceBytes, hplain]
    simp only [hdigest, Option.map_some]
    rw [← hbytes, executeTransforms_bytes hF hexecute, hview]

end Determinism

/-! ## Equal addresses -/

theorem digests_of_identity {inputs : PlanInputs} {source : SourceTensor}
    {identity : OrderedSourceIdentity} (h : sourceIdentity inputs source = .ok identity)
    {dtype : DType} {span : SourceSpan} (hplain : source.storage = .plain dtype span) :
    ∃ digest, inputs.sourceDigests[span.file]? = some digest ∧
      identity = ⟨source, [(span.file, digest)]⟩ := by
  obtain ⟨digests, hdigests, h⟩ := bind_ok h
  obtain rfl := Except.ok.inj h
  rw [hplain] at hdigests
  have hone : collectFileOrdinals (.plain dtype span) = [span.file] := rfl
  rw [hone, List.mapM_cons] at hdigests
  obtain ⟨d, hd, hdigests⟩ := bind_ok hdigests
  obtain ⟨digest, hdigest, hd⟩ := bind_ok hd
  obtain rfl := Except.ok.inj hd
  obtain ⟨rest, hrest, hdigests⟩ := bind_ok hdigests
  obtain rfl := Except.ok.inj hrest
  obtain rfl := Except.ok.inj hdigests
  exact ⟨digest, okOr_eq_ok.mp hdigest, rfl⟩

/-- Plain sources with equal identities have equal bytes. -/
theorem sourceBytes_congr {inputs inputs' : PlanInputs} {source source' : SourceTensor}
    {identity : OrderedSourceIdentity} (contents : ContentDigest → Bytes)
    (h : sourceIdentity inputs source = .ok identity)
    (h' : sourceIdentity inputs' source' = .ok identity) :
    sourceBytes contents inputs source = sourceBytes contents inputs' source' := by
  have hsource : source = source' := by
    obtain ⟨_, _, h⟩ := bind_ok h
    obtain ⟨_, _, h'⟩ := bind_ok h'
    rw [← Except.ok.inj h] at h'
    exact (OrderedSourceIdentity.mk.inj (Except.ok.inj h')).1.symm
  subst hsource
  unfold sourceBytes
  cases hs : source.storage with
  | quantized q => rfl
  | plain dtype span =>
    obtain ⟨digest, hdigest, rfl⟩ := digests_of_identity h hs
    obtain ⟨digest', hdigest', he⟩ := digests_of_identity h' hs
    have hsame := (OrderedSourceIdentity.mk.inj he).2
    rw [(Prod.mk.inj (List.cons.inj hsame).1).2] at hdigest
    simp only [hdigest, hdigest']

theorem sourcesBytes_congr {inputs inputs' : PlanInputs} (contents : ContentDigest → Bytes) :
    ∀ {sources sources' : List SourceTensor} {identities : List OrderedSourceIdentity},
    sources.mapM (sourceIdentity inputs) = .ok identities →
    sources'.mapM (sourceIdentity inputs') = .ok identities →
    sources.map (sourceBytes contents inputs) = sources'.map (sourceBytes contents inputs')
  | [], [], _, _, _ => rfl
  | [], s' :: rest', _, h, h' => by
    obtain rfl := Except.ok.inj h
    rw [List.mapM_cons] at h'
    obtain ⟨x, _, h'⟩ := bind_ok h'
    obtain ⟨more, _, h'⟩ := bind_ok h'
    cases Except.ok.inj h'
  | s :: rest, [], _, h, h' => by
    obtain rfl := Except.ok.inj h'
    rw [List.mapM_cons] at h
    obtain ⟨x, _, h⟩ := bind_ok h
    obtain ⟨more, _, h⟩ := bind_ok h
    cases Except.ok.inj h
  | s :: rest, s' :: rest', _, h, h' => by
    rw [List.mapM_cons] at h h'
    obtain ⟨x, hx, h⟩ := bind_ok h
    obtain ⟨more, hmore, h⟩ := bind_ok h
    obtain rfl := Except.ok.inj h
    obtain ⟨x', hx', h'⟩ := bind_ok h'
    obtain ⟨more', hmore', h'⟩ := bind_ok h'
    obtain ⟨rfl, rfl⟩ := List.cons.inj (Except.ok.inj h')
    rw [List.map_cons, List.map_cons, sourceBytes_congr contents hx hx',
      sourcesBytes_congr contents hmore hmore']

/-- Requests with equal targets and equal source identities have equal host bytes. -/
theorem hostBytes_congr {r r' : Request} {sources : List OrderedSourceIdentity}
    (F : PrepareFunction) (contents : ContentDigest → Bytes)
    (h : orderedSources r.plan r.binding = .ok sources)
    (h' : orderedSources r'.plan r'.binding = .ok sources)
    (htarget : r.binding.target = r'.binding.target) :
    hostBytes F contents r.plan.inputs r.binding =
      hostBytes F contents r'.plan.inputs r'.binding := by
  have hmap := sourcesBytes_congr contents (unless_error_ok h).2 (unless_error_ok h').2
  have hmapM : ∀ (inputs : PlanInputs) (l : List SourceTensor),
      l.mapM (sourceBytes contents inputs) = (l.map (sourceBytes contents inputs)).mapM id := by
    intro inputs l
    rw [List.mapM_map]
    rfl
  unfold hostBytes
  rw [htarget]
  cases r'.binding.target.operationGraph with
  | some graph =>
    dsimp only
    rw [hmapM, hmapM, hmap]
  | none =>
    have hhead : ∀ (inputs : PlanInputs) (l : List SourceTensor),
        l.head?.bind (sourceBytes contents inputs) =
          (l.map (sourceBytes contents inputs)).head?.join := by
      intro inputs l
      cases l <;> rfl
    dsimp only
    rw [hhead, hhead, hmap]

end ModelWeights.Prepared
