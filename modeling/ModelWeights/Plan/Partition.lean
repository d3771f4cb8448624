import ModelWeights.Plan.Agreement

/-! # Plans are partitions

What a built plan says about the sources and targets it was built from. -/
namespace ModelWeights.Plan
open ModelWeights.Graph Canonical

/-! ## What a target requires of its sources -/

/-- Every file that a storage refers to has an ordered digest. -/
structure Covered (inputs : PlanInputs) (storage : Storage) : Prop where
  payload : storage.span.file < inputs.sourceDigests.length
  companions : ∀ quantized, storage = .quantized quantized →
    ∀ entry ∈ quantized.companions.entries, entry.2.span.file < inputs.sourceDigests.length

/-- Plain bytes enter the transforms of the target, or are its output already. -/
structure PlainFits (dtype : DType) (span : SourceSpan) (target : TargetTensor) : Prop where
  unrouted : target.quantizedRoute = none
  entry : target.conversionRecipe = none → ∀ first, target.transforms.head? = some first →
    first.transform.source = .contiguous dtype
  identity : target.conversionRecipe = none → target.transforms = [] →
    target.representation = .contiguous dtype ∧ target.outputSize = span.length

/-- Packed bytes follow the pinned capability of the target. -/
structure PackedFits (inputs : PlanInputs) (storage : QuantizedStorage) (target : TargetTensor)
    (capability : RouteCapability) : Prop where
  pinned : target.quantizedRoute = some capability
  untransformed : target.transforms = []
  encoding : capability.sourceEncoding = storage.encoding
  backend : ∀ backend, capability.backend = some backend → backend = inputs.backend
  layout : layoutMatches target.representation.layout capability.targetLayout = true
  dequant : ∀ dtype, capability.route = .hostDequant dtype ∨
    capability.route = .deviceDequantToScratch dtype → dtype = target.representation.dtype
  packed : capability.route = .packedDirect → target.outputSize = storage.payload.length

/-- A source with the shape, the digests and the storage that its target requires. -/
structure NamedFits (inputs : PlanInputs) (source : SourceTensor) (target : TargetTensor) :
    Prop where
  shape : source.shape = target.sourceShape
  covered : Covered inputs source.storage
  recipe : ∀ recipe, target.conversionRecipe = some recipe → recipe.inputs = [source.name] ∧
    recipe.outputs.contains target.name = true
  plain : ∀ dtype span, source.storage = .plain dtype span → PlainFits dtype span target
  packed : ∀ storage, source.storage = .quantized storage →
    ∃ capability, PackedFits inputs storage target capability

/-- A plain source with exactly the facts of a graph input. -/
structure InputFits (inputs : PlanInputs) (input : OperationInput) (source : SourceTensor) :
    Prop where
  name : source.name = input.name
  covered : Covered inputs source.storage
  storage : ∃ dtype span, source.storage = .plain dtype span ∧
    TensorFacts.contiguous source.shape (.contiguous dtype) = .ok input.facts ∧
    span.length = input.facts.byteLen

section Fits
variable {inputs : PlanInputs} {source : SourceTensor} {target : TargetTensor}

theorem covered_of_no_missing
    (h : ¬(firstMissingDigestOrdinal source.storage inputs.sourceDigests.length).isSome = true) :
    Covered inputs source.storage := by
  unfold firstMissingDigestOrdinal at h
  split at h
  · exact absurd rfl h
  · next hlt =>
    refine ⟨Nat.not_le.mp hlt, fun quantized hq entry he => ?_⟩
    rw [hq] at h
    simp only [List.find?_isSome, List.mem_map, not_exists, not_and] at h
    exact Nat.not_le.mp fun hge => h _ ⟨entry, he, rfl⟩ (by simpa using hge)

theorem plainFits_of_valid {dtype : DType} {span : SourceSpan}
    (h : validatePlainBinding dtype span target = .ok ()) : PlainFits dtype span target := by
  obtain ⟨hroute, h⟩ := unless_error_ok h
  have hroute : target.quantizedRoute = none := by simpa using hroute
  split at h
  · next hrecipe =>
    have hsome : ∀ p : Prop, target.conversionRecipe = none → p := by
      intro p hnone
      rw [hnone] at hrecipe
      cases hrecipe
    exact ⟨hroute, fun hnone => hsome _ hnone, fun hnone => hsome _ hnone⟩
  · obtain ⟨_, hentry, h⟩ := bind_ok h
    obtain ⟨hsize, _⟩ := unless_error_ok h
    unfold validateEntry at hentry
    refine ⟨hroute, fun _ first hfirst => ?_, fun _ hnil => ?_⟩
    · cases ht : target.transforms with
      | nil => rw [ht] at hfirst; cases hfirst
      | cons a rest =>
        rw [ht] at hfirst hentry
        obtain rfl := Option.some.inj hfirst
        exact not_not.mp (unless_error_ok hentry).1
    · rw [hnil] at hentry
      refine ⟨not_not.mp (unless_error_ok hentry).1, ?_⟩
      by_contra hne
      exact hsize ⟨hnil, hne⟩

theorem packedFits_of_valid {storage : QuantizedStorage}
    (h : validateQuantizedBinding inputs storage target = .ok ()) :
    ∃ capability, PackedFits inputs storage target capability := by
  obtain ⟨htransforms, h⟩ := unless_error_ok h
  obtain ⟨capability, hcap, h⟩ := bind_ok h
  obtain ⟨hencoding, h⟩ := unless_error_ok h
  obtain ⟨hbackend, h⟩ := unless_error_ok h
  obtain ⟨hlayout, h⟩ := unless_error_ok h
  refine ⟨capability, okOr_eq_ok.mp hcap, not_not.mp htransforms, not_not.mp hencoding,
    fun backend hb => ?_, not_not.mp hlayout, fun dtype hroute => ?_, fun hroute => ?_⟩
  · rw [hb] at hbackend
    by_contra hne
    exact hbackend (by simpa using hne)
  · unfold validateRoute at h
    rcases hroute with hr | hr <;> rw [hr] at h <;> exact not_not.mp (unless_error_ok h).1
  · unfold validateRoute at h
    rw [hroute] at h
    exact not_not.mp (unless_error_ok h).1

theorem namedFits_of_valid (h : validateBinding inputs source target = .ok ()) :
    NamedFits inputs source target := by
  obtain ⟨hshape, h⟩ := unless_error_ok h
  obtain ⟨hdigest, h⟩ := unless_error_ok h
  obtain ⟨_, hrecipe, h⟩ := bind_ok h
  refine ⟨not_not.mp hshape, covered_of_no_missing hdigest, fun recipe hr => ?_,
    fun dtype span hs => ?_, fun storage hs => ?_⟩
  · unfold validateConversionBinding at hrecipe
    rw [hr] at hrecipe
    obtain ⟨_, hrecipe⟩ := unless_error_ok hrecipe
    obtain ⟨hin, hrecipe⟩ := unless_error_ok hrecipe
    obtain ⟨hout, _⟩ := unless_error_ok hrecipe
    rw [not_or, not_not, not_not] at hin
    refine ⟨?_, not_not.mp hout⟩
    obtain ⟨name, hname⟩ := List.length_eq_one_iff.mp hin.1
    rw [hname] at hin ⊢
    rw [Option.some.inj hin.2]
  · rw [hs] at h
    exact plainFits_of_valid h
  · rw [hs] at h
    exact packedFits_of_valid h

theorem inputFits_of_valid {input : OperationInput}
    (h : validateGraphInput inputs input source = .ok ()) : InputFits inputs input source := by
  obtain ⟨hname, h⟩ := unless_error_ok h
  obtain ⟨hdigest, h⟩ := unless_error_ok h
  refine ⟨(not_not.mp hname).symm, covered_of_no_missing hdigest, ?_⟩
  cases hs : source.storage with
  | quantized storage => rw [hs] at h; cases h
  | plain dtype span =>
    rw [hs] at h
    obtain ⟨actual, hactual, h⟩ := bind_ok h
    obtain ⟨hfacts, _⟩ := unless_error_ok h
    rw [not_or, not_not, not_not] at hfacts
    exact ⟨dtype, span, rfl, hfacts.1 ▸ hactual, hfacts.2.symm⟩

theorem inputsFit_of_valid : ∀ {graphInputs : List OperationInput} {sources : List SourceTensor},
    graphInputs.length = sources.length → validateGraphInputs inputs graphInputs sources = .ok () →
    List.Forall₂ (InputFits inputs) graphInputs sources
  | [], [], _, _ => .nil
  | input :: rest, source :: sources, hlen, h => by
    obtain ⟨_, hinput, h⟩ := bind_ok h
    exact .cons (inputFits_of_valid hinput) (inputsFit_of_valid (by simpa using hlen) h)

end Fits

/-! ## Partition -/

/-- The bindings of a plan with a given target. -/
def BindingPlan.bindingsOf (plan : BindingPlan) (target : TargetTensor) : List Binding :=
  plan.bindings.filter fun binding => binding.target = target

/-- What a plan makes of the sources and targets of its builder. -/
structure Partition (b : PlanBuilder) (plan : BindingPlan) : Prop where
  bindings : ∀ binding ∈ plan.bindings, binding.target ∈ b.targets ∧
    ∀ source ∈ binding.sources, source ∈ b.sources
  required : ∀ target ∈ b.targets, target.requirement = .required →
    (plan.bindingsOf target).length = 1
  optional : ∀ target ∈ b.targets, target.requirement = .optional →
    (plan.bindingsOf target).length = 1 ∧ target.name ∉ plan.missingOptional ∨
      plan.bindingsOf target = [] ∧ target.name ∈ plan.missingOptional
  sources : ∀ source ∈ b.sources,
    (∃ binding ∈ plan.bindings, source ∈ binding.sources) ∧ source.name ∉ plan.unusedSources ∨
      (¬∃ binding ∈ plan.bindings, source ∈ binding.sources) ∧ source.name ∈ plan.unusedSources
  reject : b.extraSourcePolicy = .reject → plan.unusedSources = []
  shared : ∀ source, ∀ first ∈ plan.bindings, ∀ second ∈ plan.bindings,
    source ∈ first.sources → source ∈ second.sources → first.target ≠ second.target →
    ∃ group, ∀ binding ∈ plan.bindings, source ∈ binding.sources →
      binding.target.sharedSourceGroup = some group
  named : ∀ binding ∈ plan.bindings, binding.target.operationGraph = none →
    ∃ source, binding.sources = [source] ∧
      (b.sources.filter fun s => s.name ∈ binding.target.name :: binding.target.aliases) =
        [source] ∧
      NamedFits b.inputs source binding.target
  graph : ∀ binding ∈ plan.bindings, ∀ graph, binding.target.operationGraph = some graph →
    List.Forall₂ (fun (input : OperationInput) source =>
      (b.sources.filter fun s => s.name = input.name) = [source] ∧
        InputFits b.inputs input source) graph.inputs binding.sources

section Partition
variable {planner : Planner} {b : PlanBuilder} {plan : BindingPlan}

/-- What is known about a builder that made a plan. -/
structure Made (planner : Planner) (b : PlanBuilder) (plan : BindingPlan) : Prop where
  noError : ∀ d, Diagnosed b.inputs b.sources b.targets b.extraSourcePolicy d →
    d.severity ≠ .error
  bindings : ∀ binding, binding ∈ plan.bindings ↔
    Binds b.inputs b.sources b.targets binding.target binding.sources
  names : (b.sources.map SourceTensor.name).Nodup ∧ (b.targets.map TargetTensor.name).Nodup
  missing : ∀ name, name ∈ plan.missingOptional ↔ ∃ target ∈ b.targets,
    target.requirement = .optional ∧ (¬∃ binding ∈ plan.bindings,
      binding.target.name = target.name) ∧ target.name = name
  unused : ∀ name, name ∈ plan.unusedSources ↔ ∃ source ∈ b.sources,
    (∀ target, ¬UsedBy b.inputs b.sources b.targets source target) ∧ source.name = name
  distinct : (plan.bindings.map fun binding => binding.target.name).Nodup

theorem made_of_build (h : b.build planner = .ok plan) : Made planner b plan := by
  have hs := planner.sort.perm SourceTensor.name b.sources
  have ht := planner.sort.perm TargetTensor.name b.targets
  obtain ⟨hno, h⟩ := unless_error_ok h
  obtain ⟨bindings, hb, h⟩ := bind_ok h
  obtain rfl := Except.ok.inj h
  obtain ⟨bindings', hb', hmem⟩ := @makeBindings_ok b.inputs
    (planner.sort.sort SourceTensor.name b.sources)
    (planner.sort.sort TargetTensor.name b.targets) b.extraSourcePolicy planner
  obtain rfl : bindings = bindings' := Except.ok.inj (hb.symm.trans hb')
  obtain ⟨hns, hnt⟩ := nodup_of_no_error hno
  have hnames := (hs.map SourceTensor.name).nodup_iff.mp hns
  have hnamet := (ht.map TargetTensor.name).nodup_iff.mp hnt
  refine ⟨fun d hd he => ?_, fun binding => ?_, ⟨hnames, hnamet⟩, fun name => ?_, fun name => ?_,
    ?_⟩
  · refine hno (List.any_eq_true.mpr ⟨d, mem_diagnostics.mpr (hd.perm hs.symm ht.symm), ?_⟩)
    simpa [PlanDiagnostic.isError] using he
  · exact (hmem binding).trans ⟨Binds.perm hs ht, Binds.perm hs.symm ht.symm⟩
  · show name ∈ PlanBuilder.missingOptional _ bindings ↔ _
    simp only [PlanBuilder.missingOptional, mem_sortDedup, List.mem_map, List.mem_filter,
      KeySort.mem, decide_eq_true_eq, List.any_eq_true, and_assoc]
  · show name ∈ sortDedup (namesAt _ _) ↔ _
    rw [mem_sortDedup, namesAt]
    simp only [List.mem_map, List.mem_filterMap, mem_unusedSources]
    constructor
    · rintro ⟨source, ⟨j, ⟨source', hj', hnone⟩, hj⟩, rfl⟩
      obtain rfl : source = source' := Option.some.inj (hj.symm.trans hj')
      exact ⟨source, KeySort.mem.mp (List.mem_of_getElem? hj), fun target hu =>
        hnone target ((usedBy_perm hs ht).mpr hu), rfl⟩
    · rintro ⟨source, hmem, hnone, rfl⟩
      obtain ⟨j, hj⟩ := List.mem_iff_getElem?.mp
        ((KeySort.mem (s := planner.sort)).mpr hmem)
      exact ⟨source, ⟨j, ⟨source, hj, fun target hu =>
        hnone target ((usedBy_perm hs ht).mp hu)⟩, hj⟩, rfl⟩
  · show (bindings.map fun binding => binding.target.name).Nodup
    obtain ⟨made, hmade, hsort⟩ := bind_ok hb
    obtain rfl := Except.ok.inj hsort
    rw [((planner.sort.perm _ made).map _).nodup_iff, mapM_bindings_target hmade, List.map_map]
    exact nodup_matched_names hnt _

theorem mem_of_filter_eq_singleton {α : Type} {p : α → Bool} {l : List α} {a : α}
    (h : l.filter p = [a]) : a ∈ l :=
  (List.mem_filter.mp (h ▸ List.mem_singleton.mpr rfl)).1

/-- What is selected comes from the inventory. -/
theorem mem_of_selected {inputs : PlanInputs} {sources selected : List SourceTensor}
    {target : TargetTensor} (h : (select inputs sources target).matched = some selected)
    {source : SourceTensor} (hmem : source ∈ selected) : source ∈ sources := by
  unfold select at h
  cases hg : target.operationGraph with
  | none =>
    rw [hg] at h
    obtain ⟨only, rfl, hf, _⟩ := selectNamed_matched h
    exact mem_of_filter_eq_singleton (List.mem_singleton.mp hmem ▸ hf)
  | some graph =>
    rw [hg] at h
    obtain ⟨i, hi⟩ := List.mem_iff_getElem.mp hmem
    have hall := (selectGraph_matched h).1
    obtain ⟨hlt, rfl⟩ := hi
    exact mem_of_filter_eq_singleton (hall.get (hall.length_eq ▸ hlt) hlt)

/-- A target for which nothing is selected is reported. -/
theorem exists_diagnostic_of_unmatched {inputs : PlanInputs} {sources : List SourceTensor}
    {target : TargetTensor} (h : (select inputs sources target).matched = none)
    (hreq : target.requirement = .required) :
    ∃ d ∈ (select inputs sources target).diagnostics, d.severity = .error := by
  have hmissing : ∀ related m m', (missingDiagnostic target related m m').severity = .error := by
    intro related m m'
    unfold missingDiagnostic
    rw [hreq]
    rfl
  unfold select at h ⊢
  cases hg : target.operationGraph with
  | none =>
    rw [hg] at h
    simp only [selectNamed] at h ⊢
    split at h
    · exact ⟨_, List.mem_singleton.mpr rfl, hmissing _ _ _⟩
    · cases h
    · exact ⟨_, List.mem_singleton.mpr rfl, rfl⟩
  | some graph =>
    rw [hg] at h
    simp only [selectGraph] at h ⊢
    split at h
    · next ha =>
      rw [if_pos ha]
      exact ⟨_, List.mem_singleton.mpr rfl, rfl⟩
    · next ha =>
      split at h
      · next hm =>
        rw [if_neg ha, if_pos hm]
        exact ⟨_, List.mem_singleton.mpr rfl, hmissing _ _ _⟩
      · cases h

theorem eq_of_name {l : List TargetTensor} (hn : (l.map TargetTensor.name).Nodup)
    {a b : TargetTensor} (ha : a ∈ l) (hb : b ∈ l) (h : a.name = b.name) : a = b :=
  List.inj_on_of_nodup_map hn ha hb h

theorem Made.unrepeated (hm : Made planner b plan) {target : TargetTensor} :
    Unrepeated b.targets target := by
  have hcount := List.nodup_iff_count_le_one.mp hm.names.2 target.name
  rw [List.count_eq_length_filter, List.filter_map, List.length_map] at hcount
  exact hcount

theorem Made.length_bindingsOf (hm : Made planner b plan) {binding : Binding}
    (hb : binding ∈ plan.bindings) : (plan.bindingsOf binding.target).length = 1 := by
  have hmem : binding ∈ plan.bindingsOf binding.target :=
    List.mem_filter.mpr ⟨hb, by simp⟩
  have hnodup : ((plan.bindingsOf binding.target).map fun x => x.target.name).Nodup :=
    (List.filter_sublist.map _).nodup hm.distinct
  match hl : plan.bindingsOf binding.target with
  | [] => rw [hl] at hmem; cases hmem
  | [_] => rfl
  | x :: y :: rest =>
    have htarget : ∀ z ∈ plan.bindingsOf binding.target, z.target = binding.target := fun z hz => by
      simpa using (List.mem_filter.mp hz).2
    rw [hl] at hnodup htarget
    rw [List.map_cons, List.nodup_cons] at hnodup
    refine absurd (List.mem_map.mpr ⟨y, List.mem_cons_self .., ?_⟩) hnodup.1
    rw [htarget x (by simp), htarget y (by simp)]

theorem Made.usedBy_iff (hm : Made planner b plan) {source : SourceTensor}
    {target : TargetTensor} : UsedBy b.inputs b.sources b.targets source target ↔
      ∃ binding ∈ plan.bindings, binding.target = target ∧ source ∈ binding.sources := by
  constructor
  · rintro ⟨selected, hbinds, hmem⟩
    exact ⟨⟨selected, target⟩, (hm.bindings _).mpr hbinds, rfl, hmem⟩
  · rintro ⟨binding, hb, rfl, hmem⟩
    exact ⟨binding.sources, (hm.bindings _).mp hb, hmem⟩

/-- Two targets of one source have a common group. -/
theorem Made.shared (hm : Made planner b plan) {source : SourceTensor} {target other : TargetTensor}
    (ht : UsedBy b.inputs b.sources b.targets source target)
    (ho : UsedBy b.inputs b.sources b.targets source other) (hne : target ≠ other) :
    ∃ group, ∀ user, UsedBy b.inputs b.sources b.targets source user →
      user.sharedSourceGroup = some group := by
  classical
  by_contra hnone
  obtain ⟨selected, hbinds, hmem⟩ := ht
  refine hm.noError _ (.conflict source _ (mem_of_selected hbinds.2.2 hmem) ⟨target, other,
    ⟨selected, hbinds, hmem⟩, ho, hne, hnone, (b.targets.filter fun user =>
      UsedBy b.inputs b.sources b.targets source user).map TargetTensor.name, fun n => ?_, rfl⟩) rfl
  simp only [List.mem_map, List.mem_filter, decide_eq_true_eq]
  constructor
  · rintro ⟨user, ⟨_, hu⟩, rfl⟩
    exact ⟨user, hu, rfl⟩
  · rintro ⟨user, hu, rfl⟩
    obtain ⟨_, hbinds, _⟩ := id hu
    exact ⟨user, ⟨hbinds.1, hu⟩, rfl⟩

theorem Made.named (hm : Made planner b plan) {binding : Binding} (hb : binding ∈ plan.bindings)
    (hg : binding.target.operationGraph = none) : ∃ source, binding.sources = [source] ∧
      b.sources.filter binding.target.accepts = [source] ∧
      NamedFits b.inputs source binding.target := by
  obtain ⟨hmem, hu, hsel⟩ := (hm.bindings binding).mp hb
  have hselect : select b.inputs b.sources binding.target =
      selectNamed b.inputs b.sources binding.target := by
    rw [select, hg]
  rw [hselect] at hsel
  obtain ⟨source, hs, hf, hdiag⟩ := selectNamed_matched hsel
  refine ⟨source, hs, hf, ?_⟩
  cases hv : validateBinding b.inputs source binding.target with
  | ok u => exact namedFits_of_valid hv
  | error e =>
    obtain ⟨d, hd, he⟩ : ∃ d ∈ pairDiagnostics b.inputs source binding.target,
        d.severity = .error := by
      rw [pairDiagnostics, hv]
      exact ⟨_, List.mem_append_right _ (List.mem_singleton.mpr rfl), rfl⟩
    rw [← hdiag, ← hselect] at hd
    exact absurd he (hm.noError d (.target binding.target d hmem hu hd))

theorem Made.graph (hm : Made planner b plan) {binding : Binding} (hb : binding ∈ plan.bindings)
    {graph : OperationGraph} (hg : binding.target.operationGraph = some graph) :
    List.Forall₂ (fun (input : OperationInput) source =>
      (b.sources.filter fun s => s.name = input.name) = [source] ∧
        InputFits b.inputs input source) graph.inputs binding.sources := by
  obtain ⟨hmem, hu, hsel⟩ := (hm.bindings binding).mp hb
  have hselect : select b.inputs b.sources binding.target =
      selectGraph b.inputs b.sources binding.target graph := by
    rw [select, hg]
  rw [hselect] at hsel
  obtain ⟨hsole, hdiag⟩ := selectGraph_matched hsel
  cases hv : validateOperationBinding b.inputs binding.sources binding.target with
  | error e =>
    exact absurd rfl (hm.noError _ (.target binding.target _ hmem hu (hselect ▸ hdiag e hv)))
  | ok u =>
    obtain ⟨graph', hgraph, hv⟩ := bind_ok hv
    obtain rfl : graph = graph' := Option.some.inj (hg.symm.trans (okOr_eq_ok.mp hgraph))
    obtain ⟨hlen, hv⟩ := unless_error_ok hv
    have hfits := inputsFit_of_valid (not_not.mp hlen) hv
    rw [List.forall₂_iff_get] at hsole hfits ⊢
    exact ⟨hsole.1, fun i h₁ h₂ => ⟨hsole.2 i h₁ h₂, hfits.2 i h₁ h₂⟩⟩

/-- **A plan is a partition** of the targets into bound and missing ones and of
the sources into bound and unused ones, and binds every target to the only sources
that its names select and that meet its requirements. -/
theorem build_partition (h : b.build planner = .ok plan) : Partition b plan := by
  have hm := made_of_build h
  have hbound : ∀ {source : SourceTensor}, (∃ binding ∈ plan.bindings, source ∈ binding.sources) ↔
      ∃ target, UsedBy b.inputs b.sources b.targets source target := by
    intro source
    simp only [hm.usedBy_iff]
    exact ⟨fun ⟨binding, hb, hs⟩ => ⟨binding.target, binding, hb, rfl, hs⟩,
      fun ⟨_, binding, hb, _, hs⟩ => ⟨binding, hb, hs⟩⟩
  refine ⟨fun binding hb => ?_, fun target ht hreq => ?_, fun target ht hopt => ?_,
    fun source hs => ?_, fun hpolicy => ?_, ?_, fun binding hb hg => hm.named hb hg,
    fun binding hb graph hg => hm.graph hb hg⟩
  · obtain ⟨hmem, _, hsel⟩ := (hm.bindings binding).mp hb
    exact ⟨hmem, fun source hs => mem_of_selected hsel hs⟩
  · cases hsel : (select b.inputs b.sources target).matched with
    | none =>
      obtain ⟨d, hd, he⟩ := exists_diagnostic_of_unmatched hsel hreq
      exact absurd he (hm.noError d (.target target d ht hm.unrepeated hd))
    | some selected =>
      exact hm.length_bindingsOf ((hm.bindings ⟨selected, target⟩).mpr ⟨ht, hm.unrepeated, hsel⟩)
  · by_cases hb : ∃ binding ∈ plan.bindings, binding.target = target
    · left
      obtain ⟨binding, hb, rfl⟩ := hb
      refine ⟨hm.length_bindingsOf hb, fun hmiss => ?_⟩
      obtain ⟨other, _, _, hnone, hname⟩ := (hm.missing _).mp hmiss
      exact hnone ⟨binding, hb, hname.symm⟩
    · right
      refine ⟨List.filter_eq_nil_iff.mpr fun binding hmem he => hb ⟨binding, hmem, by simpa using he⟩,
        (hm.missing _).mpr ⟨target, ht, hopt, ?_, rfl⟩⟩
      rintro ⟨binding, hmem, hname⟩
      have hmem' := ((hm.bindings binding).mp hmem).1
      exact hb ⟨binding, hmem, eq_of_name hm.names.2 hmem' ht hname⟩
  · by_cases hused : ∃ target, UsedBy b.inputs b.sources b.targets source target
    · left
      refine ⟨hbound.mpr hused, fun hunused => ?_⟩
      obtain ⟨other, ho, hnone, hname⟩ := (hm.unused _).mp hunused
      obtain rfl := List.inj_on_of_nodup_map hm.names.1 ho hs hname
      obtain ⟨target, hu⟩ := hused
      exact hnone target hu
    · right
      refine ⟨fun hb => hused (hbound.mp hb), (hm.unused _).mpr ⟨source, hs, ?_, rfl⟩⟩
      exact fun target hu => hused ⟨target, hu⟩
  · refine List.eq_nil_iff_forall_not_mem.mpr fun name hname => ?_
    obtain ⟨source, hs, hnone, _⟩ := (hm.unused name).mp hname
    refine hm.noError _ (.extra source hs hnone) ?_
    rw [hpolicy]
    rfl
  · intro source first hf second hsec hs₁ hs₂ hne
    have h₁ := hm.usedBy_iff.mpr ⟨first, hf, rfl, hs₁⟩
    have h₂ := hm.usedBy_iff.mpr ⟨second, hsec, rfl, hs₂⟩
    obtain ⟨group, hgroup⟩ := hm.shared h₁ h₂ hne
    exact ⟨group, fun binding hb hs => hgroup _ (hm.usedBy_iff.mpr ⟨binding, hb, rfl, hs⟩)⟩

end Partition

theorem build_partition_sample : Sample.builder.build Sample.planner = .ok Sample.plan ∧
    Partition Sample.builder Sample.plan :=
  ⟨Sample.builder_build, build_partition Sample.builder_build⟩

end ModelWeights.Plan
