import ModelWeights.Plan.Determinism

/-! # Building and analysing agree

A builder fails exactly when its analysis has an error, with the errors of the
analysis. What could fail after the resolution cannot: every binding has a source,
because every graph has an input. -/
namespace ModelWeights.Plan
open ModelWeights.Graph Canonical

/-! ## Graphs have inputs -/

theorem inferOutputs_nil (operation : Operation) (outputs : List TensorFacts) :
    inferOutputs operation [] ≠ .ok outputs := by
  cases operation <;> exact fun h => by cases h

/-- The first node of a graph without inputs would have no facts to start from. -/
theorem graphInputs_ne_nil (graph : OperationGraph) : graph.inputs ≠ [] := by
  intro hnil
  have havailable := graph.outputAvailable
  have hinferred := graph.inferred
  rw [hnil] at havailable hinferred
  cases hnodes : graph.nodes with
  | nil =>
    rw [hnodes] at havailable
    cases hout : graph.output <;> rw [hout] at havailable <;> cases havailable
  | cons node rest =>
    rw [hnodes] at hinferred
    obtain ⟨facts, hfacts, houtputs⟩ := hinferred 0 node rfl
    cases hin : node.inputs with
    | nil =>
      rw [hin] at hfacts
      obtain rfl : [] = facts := by simpa [inputFacts, pure, Except.pure] using hfacts
      exact inferOutputs_nil _ _ houtputs
    | cons value values =>
      rw [hin, inputFacts, List.mapM_cons] at hfacts
      obtain ⟨f, hf, _⟩ := bind_ok hfacts
      have hf := okOr_eq_ok.mp hf
      cases value <;> cases hf

section Selected
variable {inputs : PlanInputs} {sources : List SourceTensor}

/-- Inputs that are neither missing nor ambiguous are selected in order. -/
theorem selectInputs_ok : ∀ {graphInputs : List OperationInput},
    (selectInputs sources graphInputs).missing = [] →
    (selectInputs sources graphInputs).ambiguous = [] →
    List.Forall₂ (fun (input : OperationInput) source =>
      sources.filter (fun s => s.name = input.name) = [source])
      graphInputs (selectInputs sources graphInputs).sources
  | [], _, _ => .nil
  | input :: rest, hm, ha => by
    simp only [selectInputs] at hm ha ⊢
    cases hf : sources.filter (fun s => s.name = input.name) with
    | nil => rw [hf] at hm; cases hm
    | cons source more =>
      rw [hf] at hm ha
      cases more with
      | nil => exact .cons hf (selectInputs_ok hm ha)
      | cons other more => simp at ha

/-- A selection of a named target is its only candidate. -/
theorem selectNamed_matched {target : TargetTensor} {selected : List SourceTensor}
    (h : (selectNamed inputs sources target).matched = some selected) :
    ∃ source, selected = [source] ∧ sources.filter target.accepts = [source] ∧
      (selectNamed inputs sources target).diagnostics = pairDiagnostics inputs source target := by
  unfold selectNamed at h ⊢
  cases hf : sources.filter target.accepts with
  | nil => rw [hf] at h; cases h
  | cons source more =>
    cases more with
    | nil =>
      rw [hf] at h
      exact ⟨source, (Option.some.inj h).symm, rfl, rfl⟩
    | cons other more => rw [hf] at h; cases h

/-- A selection of a graph target has one source for every input. -/
theorem selectGraph_matched {target : TargetTensor} {graph : OperationGraph}
    {selected : List SourceTensor}
    (h : (selectGraph inputs sources target graph).matched = some selected) :
    List.Forall₂ (fun (input : OperationInput) source =>
      sources.filter (fun s => s.name = input.name) = [source]) graph.inputs selected ∧
      ∀ e, validateOperationBinding inputs selected target = .error e →
        PlanDiagnostic.new .error .unsupportedTransform target.name
          (selected.map SourceTensor.name) e.message ∈
            (selectGraph inputs sources target graph).diagnostics := by
  unfold selectGraph at h ⊢
  simp only at h ⊢
  split at h
  · cases h
  · next ha =>
    split at h
    · cases h
    · next hm =>
      obtain rfl := Option.some.inj h
      rw [not_not] at ha hm
      refine ⟨selectInputs_ok hm ha, fun e he => ?_⟩
      rw [if_neg (by simp [ha]), if_neg (by simp [hm]), he]
      exact List.mem_singleton.mpr rfl

theorem select_ne_nil {target : TargetTensor} {selected : List SourceTensor}
    (h : (select inputs sources target).matched = some selected) : selected ≠ [] := by
  unfold select at h
  cases hg : target.operationGraph with
  | none =>
    rw [hg] at h
    obtain ⟨source, rfl, _⟩ := selectNamed_matched h
    exact List.cons_ne_nil _ _
  | some graph =>
    rw [hg] at h
    rintro rfl
    have hlen := (selectGraph_matched h).1.length_eq
    exact graphInputs_ne_nil graph (List.length_eq_zero_iff.mp hlen)

end Selected

/-! ## Building -/

section Build
variable {inputs : PlanInputs} {sources : List SourceTensor} {targets : List TargetTensor}
  {policy : ExtraSourcePolicy}

theorem mapM_bindings_ok : ∀ {l : List (TargetTensor × List Nat)},
    (∀ e ∈ l, (e.2.filterMap fun index => sources[index]?) ≠ []) →
    l.mapM (fun e => Binding.new (e.2.filterMap fun index => sources[index]?) e.1) =
      .ok (l.map fun e => ⟨e.2.filterMap fun index => sources[index]?, e.1⟩)
  | [], _ => rfl
  | e :: l, h => by
    have he : Binding.new (e.2.filterMap fun index => sources[index]?) e.1 =
        .ok ⟨e.2.filterMap fun index => sources[index]?, e.1⟩ := by
      unfold Binding.new
      rw [if_neg]
      rw [List.isEmpty_iff]
      exact h e (List.mem_cons_self ..)
    rw [List.mapM_cons, he, mapM_bindings_ok fun x hx => h x (List.mem_cons_of_mem _ hx)]
    rfl

/-- The matched positions as targets with their sources. -/
theorem mem_matched_entries {sort : KeySort TensorName} {e : TargetTensor × List Nat} :
    e ∈ ((resolveBindings inputs sources sort targets policy).matched.entries.filterMap fun e =>
      targets[e.1]?.map fun target => (target, e.2)) ↔
      ∃ i, targets[i]? = some e.1 ∧
        (resolveBindings inputs sources sort targets policy).matched.get? i = some e.2 := by
  obtain ⟨target, indices⟩ := e
  rw [List.mem_filterMap]
  constructor
  · rintro ⟨⟨i, js⟩, hmem, h⟩
    obtain ⟨t, ht, he⟩ := Option.map_eq_some_iff.mp h
    obtain ⟨rfl, rfl⟩ := Prod.mk.inj he
    exact ⟨i, ht, OrderedMap.get?_eq_some.mpr hmem⟩
  · rintro ⟨i, ht, hget⟩
    exact ⟨(i, indices), OrderedMap.get?_eq_some.mp hget, by rw [ht]; rfl⟩

/-- The bindings of a resolution can be made, and are the selections. -/
theorem makeBindings_ok (planner : Planner) : ∃ bindings,
    PlanBuilder.makeBindings planner sources targets
      (resolveBindings inputs sources planner.sort targets policy).matched = .ok bindings ∧
    ∀ binding, binding ∈ bindings ↔
      Binds inputs sources targets binding.target binding.sources := by
  have hselected : ∀ (target : TargetTensor) (selected : List SourceTensor),
      (∃ e ∈ ((resolveBindings inputs sources planner.sort targets
        policy).matched.entries.filterMap fun e => targets[e.1]?.map fun t => (t, e.2)),
          e.1 = target ∧ (e.2.filterMap fun index => sources[index]?) = selected) ↔
      Binds inputs sources targets target selected := by
    intro target selected
    have hagrees := @resolveTarget_agrees inputs sources target
    constructor
    · rintro ⟨⟨t, indices⟩, he, rfl, rfl⟩
      obtain ⟨i, ht, hget⟩ := mem_matched_entries.mp he
      obtain ⟨t', ht', hu, ho⟩ := get?_matched.mp hget
      obtain rfl : t = t' := Option.some.inj (ht.symm.trans ht')
      refine ⟨List.mem_of_getElem? ht, hu, ?_⟩
      rw [hagrees.matched, ho]
      rfl
    · rintro ⟨hmem, hu, hsel⟩
      obtain ⟨i, hi⟩ := List.mem_iff_getElem?.mp hmem
      rw [hagrees.matched] at hsel
      obtain ⟨indices, ho, rfl⟩ := Option.map_eq_some_iff.mp hsel
      exact ⟨(target, indices), mem_matched_entries.mpr
        ⟨i, hi, get?_matched.mpr ⟨target, hi, hu, ho⟩⟩, rfl, rfl⟩
  unfold PlanBuilder.makeBindings
  generalize ((resolveBindings inputs sources planner.sort targets
    policy).matched.entries.filterMap fun e => targets[e.1]?.map fun t => (t, e.2)) = l
    at hselected
  have hne : ∀ e ∈ l, (e.2.filterMap fun index => sources[index]?) ≠ [] := by
    intro e he
    obtain ⟨_, _, hsel⟩ := (hselected e.1 _).mp ⟨e, he, rfl, rfl⟩
    exact select_ne_nil hsel
  rw [mapM_bindings_ok hne]
  refine ⟨_, rfl, fun binding => ?_⟩
  rw [KeySort.mem, List.mem_map, ← hselected]
  constructor
  · rintro ⟨e, he, rfl⟩
    exact ⟨e, he, rfl, rfl⟩
  · rintro ⟨e, he, ht, hs⟩
    refine ⟨e, he, ?_⟩
    rw [ht, hs]

end Build

section Agreement
variable (planner : Planner) (b : PlanBuilder)

/-- The resolution of the sorted lists reports what the analysis does. -/
theorem analyze_eq : b.analyze planner = (resolveBindings b.inputs
    (planner.sort.sort SourceTensor.name b.sources) planner.sort
    (planner.sort.sort TargetTensor.name b.targets) b.extraSourcePolicy).diagnostics :=
  diagnostics_perm _ _ (planner.sort.perm _ _).symm (planner.sort.perm _ _).symm

theorem any_isError_iff {diagnostics : List PlanDiagnostic} :
    diagnostics.any PlanDiagnostic.isError = true ↔ ¬∀ d ∈ diagnostics, d.severity ≠ .error := by
  simp [PlanDiagnostic.isError]

/-- **Building and analysing agree.** A plan is built exactly when the analysis has
no error, and a failure lists the errors of the analysis in order. -/
theorem build_agrees :
    ((∃ plan, b.build planner = .ok plan) ↔ ∀ d ∈ b.analyze planner, d.severity ≠ .error) ∧
    ∀ e, b.build planner = .error e → e = .binding ("binding plan rejected: " ++
      "; ".intercalate (((b.analyze planner).filter PlanDiagnostic.isError).map
        PlanDiagnostic.display)) := by
  obtain ⟨bindings, hb, _⟩ := @makeBindings_ok b.inputs
    (planner.sort.sort SourceTensor.name b.sources)
    (planner.sort.sort TargetTensor.name b.targets) b.extraSourcePolicy planner
  unfold PlanBuilder.build
  simp only
  rw [← analyze_eq, hb]
  by_cases herror : (b.analyze planner).any PlanDiagnostic.isError = true
  · rw [if_pos herror]
    rw [any_isError_iff] at herror
    refine ⟨⟨?_, fun h => absurd h herror⟩, fun e h => (Except.error.inj h).symm⟩
    rintro ⟨_, h⟩
    cases h
  · rw [if_neg herror]
    rw [any_isError_iff, not_not] at herror
    exact ⟨⟨fun _ => herror, fun _ => ⟨_, rfl⟩⟩, fun e h => by cases h⟩

end Agreement

end ModelWeights.Plan
