import ModelWeights.Plan.Diagnosed

/-! # Plans do not depend on order

Neither the order in which sources and targets are added nor the unstable sorts
have an influence on the diagnostics, the error or the plan. -/
namespace ModelWeights.Plan
open ModelWeights.Graph Canonical

/-! ## Diagnostics -/

section Diagnosed
variable {inputs : PlanInputs} {sources sources' : List SourceTensor}
  {targets targets' : List TargetTensor} {policy : ExtraSourcePolicy}

theorem Unrepeated.perm (ht : targets.Perm targets') {target : TargetTensor}
    (h : Unrepeated targets target) : Unrepeated targets' target := by
  rw [Unrepeated] at h ⊢
  rwa [← (ht.filter _).length_eq]

theorem Binds.perm (hs : sources.Perm sources') (ht : targets.Perm targets')
    {target : TargetTensor} {selected : List SourceTensor}
    (h : Binds inputs sources targets target selected) :
    Binds inputs sources' targets' target selected :=
  ⟨ht.mem_iff.mp h.1, h.2.1.perm ht, select_perm hs target ▸ h.2.2⟩

theorem usedBy_perm (hs : sources.Perm sources') (ht : targets.Perm targets')
    {source : SourceTensor} {target : TargetTensor} :
    UsedBy inputs sources targets source target ↔ UsedBy inputs sources' targets' source target := by
  constructor
  · rintro ⟨selected, h, hmem⟩
    exact ⟨selected, h.perm hs ht, hmem⟩
  · rintro ⟨selected, h, hmem⟩
    exact ⟨selected, h.perm hs.symm ht.symm, hmem⟩

theorem Conflict.perm (hs : sources.Perm sources') (ht : targets.Perm targets')
    {source : SourceTensor} {d : PlanDiagnostic} (h : Conflict inputs sources targets source d) :
    Conflict inputs sources' targets' source d := by
  unfold Conflict at h ⊢
  simpa only [usedBy_perm hs ht] using h

theorem Diagnosed.perm (hs : sources.Perm sources') (ht : targets.Perm targets')
    {d : PlanDiagnostic} (h : Diagnosed inputs sources targets policy d) :
    Diagnosed inputs sources' targets' policy d := by
  cases h with
  | duplicateSource name h => exact .duplicateSource name (by rwa [← (hs.filter _).length_eq])
  | duplicateTarget name h => exact .duplicateTarget name (by rwa [← (ht.filter _).length_eq])
  | target target d hmem hu h =>
    exact .target target d (ht.mem_iff.mp hmem) (hu.perm ht) (select_perm hs target ▸ h)
  | conflict source d hmem h => exact .conflict source d (hs.mem_iff.mp hmem) (h.perm hs ht)
  | extra source hmem h =>
    exact .extra source (hs.mem_iff.mp hmem) fun target => by
      rw [← usedBy_perm hs ht]
      exact h target

theorem pairwise_diagnostics {sort : KeySort TensorName} :
    (resolveBindings inputs sources sort targets policy).diagnostics.Pairwise (· < ·) :=
  pairwise_sortDedup _

/-- The diagnostics of a resolution do not depend on order. -/
theorem diagnostics_perm (sort sort' : KeySort TensorName) (hs : sources.Perm sources')
    (ht : targets.Perm targets') :
    (resolveBindings inputs sources sort targets policy).diagnostics =
      (resolveBindings inputs sources' sort' targets' policy).diagnostics := by
  refine eq_of_pairwise_lt pairwise_diagnostics pairwise_diagnostics fun d => ?_
  rw [mem_diagnostics, mem_diagnostics]
  exact ⟨Diagnosed.perm hs ht, Diagnosed.perm hs.symm ht.symm⟩

end Diagnosed

/-! ## Plans -/

section Build
variable {inputs : PlanInputs} {sources : List SourceTensor} {targets : List TargetTensor}
  {policy : ExtraSourcePolicy}

theorem nodup_of_filter_length {α : Type} {f : α → TensorName} {l : List α}
    (h : ∀ n, ¬1 < (l.filter fun a => f a = n).length) : (l.map f).Nodup := by
  rw [List.nodup_iff_count_le_one]
  intro n
  rw [List.count_eq_length_filter, List.filter_map, List.length_map]
  have := h n
  have hfun : ((fun x => x == n) ∘ f) = fun a => decide (f a = n) := by
    funext a
    rfl
  rw [hfun]
  omega

/-- Without errors all names are distinct. -/
theorem nodup_of_no_error {sort : KeySort TensorName}
    (h : ¬(resolveBindings inputs sources sort targets policy).diagnostics.any
      PlanDiagnostic.isError = true) :
    (sources.map SourceTensor.name).Nodup ∧ (targets.map TargetTensor.name).Nodup := by
  have hno : ∀ d, Diagnosed inputs sources targets policy d → d.isError = false := by
    intro d hd
    by_contra he
    exact h (List.any_eq_true.mpr ⟨d, mem_diagnostics.mpr hd, by simpa using he⟩)
  constructor
  · exact nodup_of_filter_length fun n hn => by cases hno _ (.duplicateSource n hn)
  · exact nodup_of_filter_length fun n hn => by cases hno _ (.duplicateTarget n hn)

/-- The matches do not depend on the sort. -/
theorem matched_sort (sort sort' : KeySort TensorName) :
    (resolveBindings inputs sources sort targets policy).matched =
      (resolveBindings inputs sources sort' targets policy).matched := by
  refine OrderedMap.ext_get? fun i => Option.ext fun indices => ?_
  rw [get?_matched, get?_matched]

theorem unusedSources_sort (sort sort' : KeySort TensorName) :
    (resolveBindings inputs sources sort targets policy).unusedSources =
      (resolveBindings inputs sources sort' targets policy).unusedSources := by
  have h := @matched_sort inputs sources targets policy sort sort'
  show (List.range sources.length).filter _ = (List.range sources.length).filter _
  exact congrArg (fun m : OrderedMap Nat (List Nat) => (List.range sources.length).filter
    fun index => index ∉ m.entries.flatMap Prod.snd) h

theorem mapM_bindings_target {sources : List SourceTensor} :
    ∀ {l : List (TargetTensor × List Nat)} {bindings : List Binding},
      l.mapM (fun e => Binding.new (e.2.filterMap fun index => sources[index]?) e.1) =
        .ok bindings →
      bindings = l.map fun e => ⟨e.2.filterMap fun index => sources[index]?, e.1⟩
  | [], bindings, h => by simpa [pure, Except.pure] using h.symm
  | e :: l, bindings, h => by
    rw [List.mapM_cons] at h
    obtain ⟨binding, hb, h⟩ := bind_ok h
    obtain ⟨rest, hrest, h⟩ := bind_ok h
    obtain rfl : binding :: rest = bindings := by simpa [pure, Except.pure] using h
    obtain ⟨_, hb⟩ := unless_error_ok hb
    obtain rfl := Except.ok.inj hb
    rw [List.map_cons, ← mapM_bindings_target hrest]

/-- The target names of the bindings are distinct. -/
theorem nodup_matched_names {targets : List TargetTensor}
    (hn : (targets.map TargetTensor.name).Nodup) (m : OrderedMap Nat (List Nat)) :
    ((m.entries.filterMap fun e => targets[e.1]?.map fun target => (target, e.2)).map
      fun e => e.1.name).Nodup := by
  have hkeys := m.nodup_keys
  rw [List.nodup_iff_pairwise_ne, List.pairwise_map] at hkeys ⊢
  rw [List.pairwise_filterMap]
  refine hkeys.imp fun {a b} hne x hx y hy he => hne ?_
  obtain ⟨s, hs, rfl⟩ := Option.map_eq_some_iff.mp hx
  obtain ⟨t, ht, rfl⟩ := Option.map_eq_some_iff.mp hy
  have ha : (targets.map TargetTensor.name)[a.1]? = some s.name := by
    rw [List.getElem?_map, hs]
    rfl
  have hb : (targets.map TargetTensor.name)[b.1]? = some s.name := by
    rw [List.getElem?_map, ht]
    exact congrArg some he.symm
  exact (List.getElem?_inj (List.getElem?_eq_some_iff.mp ha).1 hn).mp (ha.trans hb.symm)

theorem makeBindings_sort (planner planner' : Planner)
    (hn : (targets.map TargetTensor.name).Nodup) (m : OrderedMap Nat (List Nat)) :
    PlanBuilder.makeBindings planner sources targets m =
      PlanBuilder.makeBindings planner' sources targets m := by
  unfold PlanBuilder.makeBindings
  have hnames := nodup_matched_names hn m
  generalize (m.entries.filterMap fun e => targets[e.1]?.map fun target => (target, e.2)) = l
    at hnames
  cases hb : l.mapM (fun e => Binding.new (e.2.filterMap fun index => sources[index]?) e.1) with
  | error e => rfl
  | ok bindings =>
    have hmap := mapM_bindings_target hb
    show Except.ok _ = Except.ok _
    rw [KeySort.eq_of_perm planner.sort planner'.sort (List.Perm.refl bindings)]
    rw [hmap, List.map_map]
    exact hnames

end Build

/-- The builder does not depend on the order of its sources and targets. -/
theorem build_perm {b b' : PlanBuilder} (hinputs : b.inputs = b'.inputs)
    (hpolicy : b.extraSourcePolicy = b'.extraSourcePolicy) (hs : b.sources.Perm b'.sources)
    (ht : b.targets.Perm b'.targets) (planner : Planner) (sort' : KeySort TensorName) :
    b.build planner = b'.build { planner with sort := sort' } := by
  obtain ⟨inputs, sources, targets, policy⟩ := b
  obtain ⟨inputs', sources', targets', policy'⟩ := b'
  obtain rfl : inputs = inputs' := hinputs
  obtain rfl : policy = policy' := hpolicy
  have hs : sources.Perm sources' := hs
  have ht : targets.Perm targets' := ht
  have hdiag := @diagnostics_perm inputs _ _ _ _ policy planner.sort sort'
    (((planner.sort.perm SourceTensor.name sources).trans hs).trans
      (sort'.perm SourceTensor.name sources').symm)
    (((planner.sort.perm TargetTensor.name targets).trans ht).trans
      (sort'.perm TargetTensor.name targets').symm)
  unfold PlanBuilder.build
  simp only
  rw [hdiag]
  split
  · rfl
  · next hno =>
    -- distinct names have only one sorted order
    obtain ⟨hns, hnt⟩ := nodup_of_no_error hno
    rw [((sort'.perm SourceTensor.name sources').map _).nodup_iff, ← (hs.map _).nodup_iff] at hns
    rw [((sort'.perm TargetTensor.name targets').map _).nodup_iff, ← (ht.map _).nodup_iff] at hnt
    rw [← KeySort.eq_of_perm planner.sort sort' hs hns,
      ← KeySort.eq_of_perm planner.sort sort' ht hnt]
    rw [← ((planner.sort.perm TargetTensor.name targets).map _).nodup_iff] at hnt
    rw [matched_sort planner.sort sort', unusedSources_sort planner.sort sort',
      makeBindings_sort planner { planner with sort := sort' } hnt]
    rfl

/-- **Planning is order independent.** Permuted sources and targets give the same
diagnostics and the same plan or error, whatever the unstable sorts do. -/
theorem plan_perm {b b' : PlanBuilder} (hinputs : b.inputs = b'.inputs)
    (hpolicy : b.extraSourcePolicy = b'.extraSourcePolicy) (hs : b.sources.Perm b'.sources)
    (ht : b.targets.Perm b'.targets) (planner : Planner) (sort' : KeySort TensorName) :
    b.analyze planner = b'.analyze { planner with sort := sort' } ∧
      b.build planner = b'.build { planner with sort := sort' } := by
  refine ⟨?_, build_perm hinputs hpolicy hs ht planner sort'⟩
  rw [PlanBuilder.analyze, PlanBuilder.analyze, hinputs, hpolicy]
  exact diagnostics_perm _ _ hs ht

/-! ## A small contract

Two sources and two targets: `w` is bound, the optional `b` is missing and `extra`
is unused. -/

namespace Sample

def source (name : String) (offset : Nat) : SourceTensor :=
  ⟨⟨name⟩, [2], .plain .f32 ⟨0, offset, 8⟩⟩

def target (name : String) (requirement : Requirement) : TargetTensor where
  name := ⟨name⟩
  aliases := []
  requirement := requirement
  sourceShape := [2]
  shape := [2]
  storageShape := [2]
  logicalStrides := [1]
  storageStrides := [1]
  representation := .contiguous .f32
  transforms := []
  operationGraph := none
  quantizedRoute := none
  conversionRecipe := none
  outputSize := 8
  sharedSourceGroup := none

theorem length_digest (byte : UInt8) : (List.replicate 32 byte).length = 32 :=
  List.length_replicate

def digest (byte : UInt8) : ContentDigest := ⟨List.replicate 32 byte, length_digest byte⟩

def inputs : PlanInputs := ⟨digest 1, digest 2, digest 3, digest 4, [digest 5]⟩

def builder : PlanBuilder :=
  ⟨inputs, [source "w" 0, source "extra" 8], [target "w" .required, target "b" .optional], .allow⟩

/-- The same contract in the other order. -/
def reordered : PlanBuilder :=
  ⟨inputs, [source "extra" 8, source "w" 0], [target "b" .optional, target "w" .required], .allow⟩

def sourceText (name offset : String) : String :=
  "\x7b\"name\":\"" ++ name ++ "\",\"shape\":[2],\"storage\":\x7b\"Plain\":\x7b\"dtype\":\"F32\"," ++
    "\"span\":\x7b\"file\":0,\"offset\":" ++ offset ++ ",\"length\":8\x7d\x7d\x7d\x7d"

def targetText (name requirement : String) : String :=
  "\x7b\"name\":\"" ++ name ++ "\",\"aliases\":[],\"requirement\":\"" ++ requirement ++
    "\",\"source_shape\":[2],\"shape\":[2],\"storage_shape\":[2],\"logical_strides\":[1]," ++
    "\"storage_strides\":[1],\"representation\":\x7b\"dtype\":\"F32\",\"layout\":" ++
    "\x7b\"kind\":\"contiguous\"\x7d\x7d,\"transforms\":[],\"operation_graph\":null," ++
    "\"quantized_route\":null,\"conversion_recipe\":null,\"output_size\":8," ++
    "\"shared_source_group\":null\x7d"

def digestText (byte : String) : String := "\"" ++ String.join (List.replicate 32 byte) ++ "\""

/-- The JSON of the plan from its `inputs` on. -/
def planText : String :=
  "\"inputs\":\x7b\"manifest\":" ++ digestText "01" ++ ",\"selection\":" ++ digestText "02" ++
    ",\"contract\":" ++ digestText "03" ++ ",\"backend\":" ++ digestText "04" ++
    ",\"source_digests\":[" ++ digestText "05" ++ "]\x7d,\"sources\":[" ++ sourceText "extra" "8" ++
    "," ++ sourceText "w" "0" ++ "],\"targets\":[" ++ targetText "b" "Optional" ++ "," ++
    targetText "w" "Required" ++ "],\"extra_source_policy\":\"Allow\",\"bindings\":[" ++
    "\x7b\"sources\":[" ++ sourceText "w" "0" ++ "],\"target\":" ++ targetText "w" "Required" ++
    "\x7d],\"missing_optional\":[\"b\"],\"unused_sources\":[\"extra\"]\x7d"

/-- The SHA-256 of the identity payload of the plan. -/
def planId : PlanId :=
  ⟨[2, 183, 155, 53, 80, 159, 58, 24, 119, 236, 104, 4, 211, 106, 244, 132, 112, 77, 73, 149, 82,
    206, 30, 176, 213, 118, 100, 129, 211, 27, 214, 248], rfl⟩

def planner : Planner where
  sort := insertionKeySort
  sha256 _ := planId
  payloadJson _ := Parsing.utf8 ("\x7b\"schema_version\":2," ++ planText)

def plan : BindingPlan where
  schemaVersion := 2
  inputs := inputs
  sources := [source "extra" 8, source "w" 0]
  targets := [target "b" .optional, target "w" .required]
  extraSourcePolicy := .allow
  bindings := [⟨[source "w" 0], target "w" .required⟩]
  missingOptional := [⟨"b"⟩]
  unusedSources := [⟨"extra"⟩]
  id := planId

theorem builder_build : builder.build planner = .ok plan := by decide +kernel

end Sample

theorem plan_perm_sample :
    Sample.reordered.analyze Sample.planner = Sample.builder.analyze Sample.planner ∧
      Sample.reordered.build Sample.planner = Sample.builder.build Sample.planner :=
  @plan_perm Sample.reordered Sample.builder rfl rfl (List.Perm.swap ..) (List.Perm.swap ..)
    Sample.planner insertionKeySort

end ModelWeights.Plan
