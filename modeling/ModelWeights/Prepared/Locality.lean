import ModelWeights.Inventory.Open
import ModelWeights.Overlay.Digest
import ModelWeights.Prepared.Separation

/-! # Addresses depend on file ordinals

`CheckpointBuilder::open` numbers the files of a checkpoint in the order of their
paths. A source descriptor holds the numbers of its files, so an unrelated shard that
sorts before them changes the address of a binding. -/
namespace ModelWeights.Prepared
open ModelWeights.Graph ModelWeights.Overlay Plan Cache Canonical Parsing

/-! ## Checkpoints -/

/-- The files of a checkpoint in the order in which `CheckpointBuilder::open` numbers them,
each by its path. -/
def openShards (limits : CheckpointLimits) (shards : List SourceDescriptor) :
    Result (List RepoPath) := do
  let shards ← sortSources limits ⟨false⟩ .auto shards
  .ok (shards.map SourceDescriptor.logicalPath)

/-- The files that are opened have these numbers. -/
theorem paths_of_open {parseHeaderJson : HeaderParser} {limits : CheckpointLimits}
    {index : Option ShardIndex} {shards : List SourceDescriptor} {inner : CheckpointInner}
    (h : openWithCancellation parseHeaderJson limits ⟨false⟩ index .auto shards = .ok inner) :
    openShards limits shards = .ok (inner.inventory.files.map FileRecord.path) := by
  obtain ⟨gathered, hgather, hnew, _⟩ := openWithCancellation_ok h
  have hpaths := (gatherSources_ok hgather).paths
  obtain ⟨sorted, hsort, _⟩ := bind_ok hgather
  rw [openShards, hsort]
  rw [List.take_length, ← sortSources_ok hsort, ← (Inventory.new_ok hnew).1] at hpaths
  rw [hpaths]
  rfl

/-! ## Sources up to the number of their files -/

def SameSpan (s s' : SourceSpan) : Prop := s.offset = s'.offset ∧ s.length = s'.length

def SameCompanion (e e' : StableName × CompanionTensor) : Prop :=
  e.1 = e'.1 ∧ { e.2 with span := e'.2.span } = e'.2 ∧ SameSpan e.2.span e'.2.span

/-- Equal but for the file ordinals. -/
def SameStorage : Storage → Storage → Prop
  | .plain dtype span, .plain dtype' span' => dtype = dtype' ∧ SameSpan span span'
  | .quantized q, .quantized q' =>
    { q with payload := q'.payload, companions := q'.companions } = q' ∧
      SameSpan q.payload q'.payload ∧
      List.Forall₂ SameCompanion q.companions.entries q'.companions.entries
  | _, _ => False

/-- The digests of the files of a storage, in the order of `fileOrdinals`. -/
def fileDigests (inputs : PlanInputs) (storage : Storage) : List (Option ContentDigest) :=
  (fileOrdinals storage).map fun ordinal => inputs.sourceDigests[ordinal]?

/-- The same tensor in files with the same content. -/
structure SameSource (inputs inputs' : PlanInputs) (s s' : SourceTensor) : Prop where
  name : s.name = s'.name
  shape : s.shape = s'.shape
  storage : SameStorage s.storage s'.storage
  digests : fileDigests inputs s.storage = fileDigests inputs' s'.storage

/-- Overlays that make the same of a target: the same digest, or two overlay plans in which
the bases, the modes, the policies and the operations on the target are the same. -/
inductive SameOverlay : Option ContentDigest → Option ContentDigest → Prop
  | same (digest : Option ContentDigest) : SameOverlay digest digest
  | composed {h : OverlayHashing} {plan plan' : OverlayPlan} {base base' : BaseTensor}
      {target target' : TensorName} {digest digest' : ContentDigest} (built : plan.Built h)
      (built' : plan'.Built h) (base_mem : base ∈ plan.bases) (base_mem' : base' ∈ plan'.bases)
      (resolved : plan.aliases.resolve target = base.name)
      (resolved' : plan'.aliases.resolve target' = base'.name)
      (content : plan.content base = plan'.content base')
      (hashed : plan.targetDigest h target ⟨false⟩ = .ok digest)
      (hashed' : plan'.targetDigest h target' ⟨false⟩ = .ok digest') :
      SameOverlay (some digest) (some digest')

/-- The same prepared output, whatever else is in the two checkpoints and plans. -/
structure SameLocally (r r' : Request) : Prop where
  target : r.binding.target = r'.binding.target
  backend : r.plan.inputs.backend = r'.plan.inputs.backend
  overlay : SameOverlay r.overlayDigest r'.overlayDigest
  sources : List.Forall₂ (SameSource r.plan.inputs r'.plan.inputs) r.binding.sources
    r'.binding.sources

/-- The file ordinals of the sources of a binding. -/
def Request.files (r : Request) : List (List Nat) :=
  r.binding.sources.map fun source => fileOrdinals source.storage

section Same

theorem SameOverlay.eq {digest digest' : Option ContentDigest} (h : SameOverlay digest digest') :
    digest = digest' := by
  cases h with
  | same => rfl
  | composed hbuilt hbuilt' hbase hbase' htarget htarget' hcontent hdigest hdigest' =>
    have hsame := targetDigest_congr hbuilt hbuilt' hbase hbase' htarget htarget' hcontent
    rw [hdigest, hdigest'] at hsame
    rw [Except.ok.inj hsame]

theorem SameSpan.eq {s s' : SourceSpan} (h : SameSpan s s') (hfile : s.file = s'.file) : s = s' := by
  obtain ⟨file, offset, length⟩ := s
  obtain ⟨file', offset', length'⟩ := s'
  obtain ⟨rfl, rfl⟩ := h
  obtain rfl : file = file' := hfile
  rfl

theorem SameCompanion.eq {e e' : StableName × CompanionTensor} (h : SameCompanion e e')
    (hfile : e.2.span.file = e'.2.span.file) : e = e' := by
  obtain ⟨hname, hrest, hspan⟩ := h
  have hcompanion : e.2 = e'.2 := by
    rw [← hrest, ← hspan.eq hfile]
  exact Prod.ext hname hcompanion

theorem companions_eq : ∀ {l l' : List (StableName × CompanionTensor)},
    List.Forall₂ SameCompanion l l' →
    (l.map fun e => e.2.span.file) = (l'.map fun e => e.2.span.file) → l = l'
  | [], [], _, _ => rfl
  | e :: l, e' :: l', .cons h hl, hfiles => by
    obtain ⟨hfile, hfiles⟩ := List.cons.inj hfiles
    rw [h.eq hfile, companions_eq hl hfiles]

/-- With the same file ordinals nothing is left to differ. -/
theorem SameStorage.eq {st st' : Storage} (h : SameStorage st st')
    (hfiles : fileOrdinals st = fileOrdinals st') : st = st' := by
  cases st with
  | plain dtype span =>
    cases st' with
    | plain dtype' span' =>
      obtain ⟨rfl, hspan⟩ := h
      rw [hspan.eq (List.cons.inj hfiles).1]
    | quantized q' => exact h.elim
  | quantized q =>
    cases st' with
    | plain dtype' span' => exact h.elim
    | quantized q' =>
      obtain ⟨hrest, hspan, hcompanions⟩ := h
      obtain ⟨hfile, hfiles⟩ := List.cons.inj hfiles
      have hentries := OrderedMap.ext_entries (companions_eq hcompanions hfiles)
      rw [← hrest, ← hspan.eq hfile, ← hentries]

theorem SameSource.eq {inputs inputs' : PlanInputs} {s s' : SourceTensor}
    (h : SameSource inputs inputs' s s')
    (hfiles : fileOrdinals s.storage = fileOrdinals s'.storage) : s = s' := by
  obtain ⟨name, shape, storage⟩ := s
  obtain ⟨name', shape', storage'⟩ := s'
  obtain rfl : name = name' := h.name
  obtain rfl : shape = shape' := h.shape
  obtain rfl : storage = storage' := h.storage.eq hfiles
  rfl

theorem sources_eq {inputs inputs' : PlanInputs} : ∀ {l l' : List SourceTensor},
    List.Forall₂ (SameSource inputs inputs') l l' →
    (l.map fun s => fileOrdinals s.storage) = (l'.map fun s => fileOrdinals s.storage) → l = l'
  | [], [], _, _ => rfl
  | s :: l, s' :: l', .cons h hl, hfiles => by
    obtain ⟨hfile, hfiles⟩ := List.cons.inj hfiles
    rw [h.eq hfile, sources_eq hl hfiles]

/-- The identity of a source depends on the digests of its files only. -/
theorem sourceIdentity_congr {inputs inputs' : PlanInputs} {s : SourceTensor}
    (h : fileDigests inputs s.storage = fileDigests inputs' s.storage) :
    sourceIdentity inputs s = sourceIdentity inputs' s := by
  have hdigest : ∀ ordinal ∈ collectFileOrdinals s.storage,
      digestOf inputs ordinal = digestOf inputs' ordinal := by
    intro ordinal hmem
    rw [collectFileOrdinals, mem_sortDedup] at hmem
    rw [digestOf, digestOf, List.map_inj_left.mp h ordinal hmem]
  rw [sourceIdentity, sourceIdentity, mapM_congr_mem hdigest]

theorem identities_congr {inputs inputs' : PlanInputs} {l : List SourceTensor}
    (h : List.Forall₂ (SameSource inputs inputs') l l) :
    l.mapM (sourceIdentity inputs) = l.mapM (sourceIdentity inputs') :=
  mapM_congr_mem fun s hs => sourceIdentity_congr (List.forall₂_same.mp h s hs).digests

end Same

section Locality
variable {a : Addressing} {r r' : Request} {cancellation : CancellationToken}
  {sources sources' : List OrderedSourceIdentity}

/-- The ordinals of a binding can be read off its identities. -/
theorem files_of_identities (h : orderedSources r.plan r.binding = .ok sources) :
    r.files = sources.map fun identity => fileOrdinals identity.source.storage := by
  rw [Request.files, ← orderedSources_sources h, List.map_map]
  rfl

theorem content_eq (hrun : cancellation.cancelled = false)
    (h : orderedSources r.plan r.binding = .ok sources) :
    bindingSourceContent a r.plan r.binding cancellation =
      .ok (a.sha256 (sourcePreimage a sources)) := by
  rw [bindingSourceContent, CancellationToken.check, hrun, h]
  rfl

/-- With the same file ordinals the two bindings and their identities are the same. -/
theorem SameLocally.eq (h : SameLocally r r') (hfiles : r.files = r'.files)
    (hs : orderedSources r.plan r.binding = .ok sources)
    (hs' : orderedSources r'.plan r'.binding = .ok sources') :
    r.binding = r'.binding ∧ sources = sources' := by
  have hsources := sources_eq h.sources hfiles
  have hbinding : r.binding = r'.binding := by
    obtain ⟨_, ⟨_, _⟩, _⟩ := r
    obtain ⟨_, ⟨_, _⟩, _⟩ := r'
    obtain rfl := hsources
    obtain rfl := h.target
    rfl
  refine ⟨hbinding, ?_⟩
  have hsame := h.sources
  rw [← hsources] at hsame
  have h₁ := (unless_error_ok hs).2
  have h₂ := (unless_error_ok hs').2
  rw [← hbinding, ← identities_congr hsame, h₁] at h₂
  exact Except.ok.inj h₂

/-- **Addresses are local exactly up to file ordinals.** For the same prepared output
in two checkpoints, the base content and the cache address are equal if and only if
its files have the same ordinals in both. -/
theorem address_local_iff (hrun : cancellation.cancelled = false)
    (hs : orderedSources r.plan r.binding = .ok sources)
    (hs' : orderedSources r'.plan r'.binding = .ok sources') (hsame : SameLocally r r')
    (ht : Trusted a r r' sources sources') :
    (bindingSourceContent a r.plan r.binding cancellation =
        bindingSourceContent a r'.plan r'.binding cancellation ∧
      cacheAddressForBinding a r cancellation = cacheAddressForBinding a r' cancellation) ↔
      r.files = r'.files := by
  constructor
  · rintro ⟨hcontent, _⟩
    rw [content_eq hrun hs, content_eq hrun hs'] at hcontent
    have hpreimage := ht.sourceDigest (Or.inl rfl) (Or.inr rfl) (Except.ok.inj hcontent)
    have hjson := sourcePreimage_injective (ht.sourcesInMemory _ (by simp))
      (ht.sourcesInMemory _ (by simp)) hpreimage
    rw [files_of_identities hs, files_of_identities hs',
      ht.sourcesJson (Or.inl rfl) (Or.inr rfl) hjson]
  · intro hfiles
    obtain ⟨hbinding, rfl⟩ := hsame.eq hfiles hs hs'
    have hcontent : bindingSourceContent a r.plan r.binding cancellation =
        bindingSourceContent a r'.plan r'.binding cancellation := by
      rw [content_eq hrun hs, content_eq hrun hs']
    refine ⟨hcontent, ?_⟩
    unfold cacheAddressForBinding addressParts
    rw [hcontent, hbinding, hsame.overlay.eq, hsame.backend]

end Locality

/-! ## An unrelated shard -/

namespace Cast

theorem shardPath_safe : safeRepoPath "model-00002.safetensors" = true := by decide +kernel

theorem otherPath_safe : safeRepoPath "model-00001.safetensors" = true := by decide +kernel

def shardPath : RepoPath := ⟨_, shardPath_safe⟩

def otherPath : RepoPath := ⟨_, otherPath_safe⟩

def shard : SourceDescriptor := shardSource shardPath biasFile

/-- A shard with other tensors that sorts before it. -/
def otherShard : SourceDescriptor := shardSource otherPath gateFile

/-- The plan of the same contract with both shards. -/
def shardedPlan : BindingPlan :=
  { plan with
    inputs := inputs [Plan.Sample.digest 6, Plan.Sample.digest 5]
    sources := [source "w" 1 0, source "x" 0 0]
    bindings := [binding 1]
    unusedSources := [⟨"x"⟩]
    id := ⟨[10, 104, 241, 244, 111, 207, 55, 115, 40, 224, 226, 198, 5, 181, 9, 26, 211, 134, 187, 61,
      0, 102, 115, 204, 26, 137, 131, 170, 95, 192, 203, 127], rfl⟩ }

def shardedRequest : Request := ⟨shardedPlan, binding 1, none⟩

theorem sameLocally : SameLocally request shardedRequest where
  target := rfl
  backend := rfl
  overlay := .same _
  sources := .cons ⟨rfl, rfl, ⟨rfl, rfl, rfl⟩, by decide +kernel⟩ .nil

/-- A planner that computes the given identity. -/
def planner (id : PlanId) : Planner := { Sample.planner with sha256 := fun _ => id }

def builder (p : BindingPlan) : PlanBuilder := ⟨p.inputs, p.sources, p.targets, p.extraSourcePolicy⟩

end Cast

/-- The unrelated shard changes the base content and the address of `w`. -/
theorem address_not_local :
    openShards ⟨⟨64, 4, 4, 16⟩, 16⟩ [Cast.shard] = .ok [Cast.shardPath] ∧
    openShards ⟨⟨64, 4, 4, 16⟩, 16⟩ [Cast.shard, Cast.otherShard] =
      .ok [Cast.otherPath, Cast.shardPath] ∧
    (Cast.builder Cast.plan).build (Cast.planner Cast.plan.id) = .ok Cast.plan ∧
    (Cast.builder Cast.shardedPlan).build (Cast.planner Cast.shardedPlan.id) = .ok Cast.shardedPlan ∧
    SameLocally Cast.request Cast.shardedRequest ∧
    bindingSourceContent Cast.addressing Cast.plan (Cast.binding 0) ⟨false⟩ ≠
      bindingSourceContent Cast.addressing Cast.shardedPlan (Cast.binding 1) ⟨false⟩ ∧
    cacheAddressForBinding Cast.addressing Cast.request ⟨false⟩ ≠
      cacheAddressForBinding Cast.addressing Cast.shardedRequest ⟨false⟩ := by
  refine ⟨by decide +kernel, by decide +kernel, by decide +kernel, by decide +kernel,
    Cast.sameLocally, by decide +kernel, by decide +kernel⟩

theorem address_local_iff_cast :
    bindingSourceContent Cast.addressing Cast.plan (Cast.binding 0) ⟨false⟩ =
        bindingSourceContent Cast.addressing Cast.widerPlan (Cast.binding 0) ⟨false⟩ ∧
      cacheAddressForBinding Cast.addressing Cast.request ⟨false⟩ =
        cacheAddressForBinding Cast.addressing Cast.widerRequest ⟨false⟩ :=
  (@address_local_iff Cast.addressing Cast.request Cast.widerRequest ⟨false⟩ (Cast.identity 0)
    (Cast.identity 0) rfl (by decide +kernel) (by decide +kernel)
    ⟨rfl, rfl, .same _, .cons ⟨rfl, rfl, ⟨rfl, rfl, rfl⟩, by decide +kernel⟩ .nil⟩
    (Cast.trusted _ _)).mpr rfl

end ModelWeights.Prepared
