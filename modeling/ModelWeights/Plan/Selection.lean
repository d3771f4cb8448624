import ModelWeights.Plan.Resolve

/-! # Selection without positions

The resolver works with positions in the lists of a builder. Here is what it
selects for one target in terms of the sources themselves, and that positions and
sources say the same. Selection only depends on the sources up to order. -/
namespace ModelWeights.Plan
open ModelWeights.Graph Canonical

/-! ## Positions -/

section Positions
variable {α : Type}

/-- Where the elements with a property are. -/
def positions (p : α → Bool) (l : List α) : List Nat :=
  (l.zipIdx.filter fun e => p e.1).map Prod.snd

theorem mem_positions {p : α → Bool} {l : List α} {i : Nat} :
    i ∈ positions p l ↔ ∃ a, l[i]? = some a ∧ p a = true := by
  simp only [positions, List.mem_map, List.mem_filter, Prod.exists, exists_eq_right,
    List.mem_zipIdx_iff_getElem?]

theorem pairwise_positions (p : α → Bool) (l : List α) :
    (positions p l).Pairwise (· < ·) := by
  have hsub : (positions p l).Sublist (l.zipIdx.map Prod.snd) :=
    (List.filter_sublist).map Prod.snd
  rw [List.zipIdx_map_snd] at hsub
  exact (List.pairwise_lt_range' 1).sublist hsub

/-- The elements at the positions. -/
theorem filterMap_positions (p : α → Bool) (l : List α) :
    (positions p l).filterMap (fun i => l[i]?) = l.filter p := by
  rw [positions, List.filterMap_map]
  have hget : ∀ e ∈ l.zipIdx.filter fun e => p e.1, ((fun i => l[i]?) ∘ Prod.snd) e =
      (some ∘ Prod.fst) e := by
    intro e he
    exact List.mem_zipIdx_iff_getElem?.mp (List.mem_filter.mp he).1
  rw [List.filterMap_congr hget, List.filterMap_eq_map]
  have : l.zipIdx.filter (fun e => p e.1) = l.zipIdx.filter (p ∘ Prod.fst) := rfl
  rw [this, ← List.filter_map, List.zipIdx_map_fst]

theorem length_positions (p : α → Bool) (l : List α) :
    (positions p l).length = (l.filter p).length := by
  rw [positions, List.length_map, ← List.zipIdx_map_fst 0 l, List.filter_map, List.length_map,
    List.zipIdx_map_fst]
  rfl

end Positions

/-! ## Names by position -/

theorem get?_pushEntry {κ : Type} [LinearOrder κ] (m : OrderedMap κ (List Nat)) (k k' : κ)
    (i : Nat) : ((pushEntry m k i).get? k').getD [] =
      (m.get? k').getD [] ++ if k' = k then [i] else [] := by
  rw [pushEntry, OrderedMap.get?_insert]
  split
  · next h => rw [h, Option.getD_some]
  · rw [List.append_nil]

/-- The positions of a name. -/
theorem indicesOf_groupNames (names : List TensorName) (n : TensorName) :
    indicesOf (groupNames names) n = positions (fun a => a = n) names := by
  have hfold : ∀ (l : List (TensorName × Nat)) (m : OrderedMap TensorName (List Nat)),
      indicesOf (l.foldl (fun m e => pushEntry m e.1 e.2) m) n =
        indicesOf m n ++ (l.filter fun e => e.1 = n).map Prod.snd := by
    intro l
    induction l with
    | nil => intro m; simp
    | cons e l ih =>
      intro m
      rw [List.foldl_cons, ih]
      unfold indicesOf
      rw [get?_pushEntry, List.filter_cons, List.append_assoc]
      by_cases h : e.1 = n
      · rw [if_pos h.symm, if_pos (by simpa using h), List.map_cons, List.singleton_append]
      · rw [if_neg (Ne.symm h), if_neg (by simpa using h), List.nil_append]
  exact (hfold names.zipIdx .empty).trans (List.nil_append _)

section Sources
variable {sources : List SourceTensor}

theorem positions_map {α β : Type} (f : α → β) (p : β → Bool) (l : List α) :
    positions p (l.map f) = positions (fun a => p (f a)) l := by
  rw [positions, List.zipIdx_map, List.filter_map, List.map_map]
  rfl

/-- The sources a name refers to. -/
theorem indicesOf_sources (n : TensorName) :
    indicesOf (groupNames (sources.map SourceTensor.name)) n =
      positions (fun s => s.name = n) sources := by
  rw [indicesOf_groupNames, positions_map]

theorem namesAt_positions (p : SourceTensor → Bool) :
    namesAt sources (positions p sources) = (sources.filter p).map SourceTensor.name := by
  rw [namesAt, filterMap_positions]

end Sources

/-! ## Selection -/

/-- What planning does for one target, in terms of sources. -/
structure Selected where
  matched : Option (List SourceTensor)
  diagnostics : List PlanDiagnostic

section Select
variable (inputs : PlanInputs) (sources : List SourceTensor)

def TargetTensor.accepts (target : TargetTensor) (source : SourceTensor) : Bool :=
  source.name ∈ target.name :: target.aliases

def selectNamed (target : TargetTensor) : Selected :=
  match sources.filter target.accepts with
  | [] => ⟨none, [missingDiagnostic target target.aliases
      "no inventory tensor matched the required target or its aliases"
      "no inventory tensor matched the optional target or its aliases"]⟩
  | [source] => ⟨some [source], pairDiagnostics inputs source target⟩
  | candidates => ⟨none, [.new .error .ambiguousBinding target.name
      (candidates.map SourceTensor.name)
      "more than one inventory tensor matched the target name or aliases"]⟩

structure GraphSelection where
  sources : List SourceTensor
  missing : List TensorName
  ambiguous : List TensorName

def selectInputs : List OperationInput → GraphSelection
  | [] => ⟨[], [], []⟩
  | input :: rest =>
    let found := selectInputs rest
    match sources.filter fun source => source.name = input.name with
    | [] => { found with missing := input.name :: found.missing }
    | [source] => { found with sources := source :: found.sources }
    | several => { found with ambiguous := several.map SourceTensor.name ++ found.ambiguous }

def selectGraph (target : TargetTensor) (graph : OperationGraph) : Selected :=
  let found := selectInputs sources graph.inputs
  if found.ambiguous ≠ [] then
    ⟨none, [.new .error .ambiguousBinding target.name found.ambiguous
      "an operation-graph input matched more than one inventory tensor"]⟩
  else if found.missing ≠ [] then
    ⟨none, [missingDiagnostic target found.missing
      "one or more required operation-graph inputs are absent"
      "one or more optional operation-graph inputs are absent"]⟩
  else
    ⟨some found.sources, match validateOperationBinding inputs found.sources target with
      | .ok () => []
      | .error e => [.new .error .unsupportedTransform target.name
          (found.sources.map SourceTensor.name) e.message]⟩

def select (target : TargetTensor) : Selected :=
  match target.operationGraph with
  | some graph => selectGraph inputs sources target graph
  | none => selectNamed inputs sources target

end Select

/-! ## Positions and sources agree -/

/-- The source at a position is the only one with its name. -/
def SoleAt (sources : List SourceTensor) (i : Nat) : Prop :=
  ∃ source, sources[i]? = some source ∧ positions (fun s => s.name = source.name) sources = [i]

/-- An outcome by position and a selection of sources. -/
structure Agrees (sources : List SourceTensor) (o : Outcome) (s : Selected) : Prop where
  diagnostics : o.diagnostics = s.diagnostics
  matched : s.matched = o.matched.map fun indices =>
    indices.filterMap fun index => sources[index]?
  sole : ∀ indices, o.matched = some indices → ∀ i ∈ indices, SoleAt sources i

section Agreement
variable {inputs : PlanInputs} {sources : List SourceTensor}

theorem candidates_eq (target : TargetTensor) :
    sortDedup ((target.name :: target.aliases).flatMap
      (indicesOf (groupNames (sources.map SourceTensor.name)))) =
      positions target.accepts sources := by
  refine eq_of_pairwise_lt (pairwise_sortDedup _) (pairwise_positions _ _) fun i => ?_
  rw [mem_sortDedup, List.mem_flatMap, mem_positions]
  simp only [indicesOf_sources, mem_positions, TargetTensor.accepts, decide_eq_true_eq]
  constructor
  · rintro ⟨n, hn, source, hs, rfl⟩
    exact ⟨source, hs, hn⟩
  · rintro ⟨source, hs, hn⟩
    exact ⟨source.name, hn, source, hs, rfl⟩

/-- One position among those with a property that its name has. -/
theorem soleAt_of_positions {p : SourceTensor → Bool} {i : Nat} {source : SourceTensor}
    (hp : positions p sources = [i]) (hs : sources[i]? = some source)
    (hname : ∀ s : SourceTensor, s.name = source.name → p s = true) : SoleAt sources i := by
  refine ⟨source, hs, eq_of_pairwise_lt (pairwise_positions _ _) (List.pairwise_singleton _ _)
    fun j => ?_⟩
  rw [List.mem_singleton, mem_positions]
  constructor
  · rintro ⟨s, hj, hn⟩
    have : j ∈ positions p sources := mem_positions.mpr ⟨s, hj, hname s (by simpa using hn)⟩
    rw [hp] at this
    exact List.mem_singleton.mp this
  · rintro rfl
    exact ⟨source, hs, by simp⟩

theorem exists_source_of_positions {p : SourceTensor → Bool} {i : Nat}
    (hp : positions p sources = [i]) :
    ∃ source, sources[i]? = some source ∧ p source = true ∧ sources.filter p = [source] := by
  have hi : i ∈ positions p sources := hp ▸ List.mem_singleton.mpr rfl
  obtain ⟨source, hs, hpt⟩ := mem_positions.mp hi
  refine ⟨source, hs, hpt, ?_⟩
  rw [← filterMap_positions, hp, List.filterMap_cons, hs]
  rfl

theorem resolveNamed_agrees {target : TargetTensor} : Agrees sources
    (resolveNamed inputs sources (groupNames (sources.map SourceTensor.name)) target)
    (selectNamed inputs sources target) := by
  unfold resolveNamed selectNamed
  rw [candidates_eq, ← filterMap_positions]
  cases hp : positions target.accepts sources with
  | nil => exact ⟨rfl, rfl, by simp⟩
  | cons i rest =>
    cases rest with
    | nil =>
      obtain ⟨source, hs, haccepts, _⟩ := exists_source_of_positions hp
      simp only [List.filterMap_cons, List.filterMap_nil, hs]
      refine ⟨rfl, by simp [hs], fun indices h j hj => ?_⟩
      obtain rfl := Option.some.inj h
      obtain rfl := List.mem_singleton.mp hj
      refine soleAt_of_positions hp hs fun s hn => ?_
      rw [TargetTensor.accepts] at haccepts ⊢
      rwa [hn]
    | cons j rest =>
      have hlen := congrArg List.length (filterMap_positions target.accepts sources)
      rw [← length_positions, hp] at hlen
      simp only
      split
      · next h => rw [h] at hlen; simp at hlen
      · next h => rw [h] at hlen; simp at hlen
      · next candidates _ _ => exact ⟨rfl, rfl, by simp⟩

/-- The positions of the inputs of a graph. -/
theorem collectGraphSources_eq (graphInputs : List OperationInput) :
    let found := collectGraphSources sources (groupNames (sources.map SourceTensor.name)) graphInputs
    let selection := selectInputs sources graphInputs
    selection.missing = found.missing ∧ selection.ambiguous = found.ambiguous ∧
      selection.sources = (found.indices.filterMap fun index => sources[index]?) ∧
      ∀ i ∈ found.indices, SoleAt sources i := by
  induction graphInputs with
  | nil => exact ⟨rfl, rfl, rfl, by simp [collectGraphSources]⟩
  | cons input rest ih =>
    obtain ⟨hm, ha, hs, hsole⟩ := ih
    simp only [collectGraphSources, selectInputs, indicesOf_sources]
    cases hp : positions (fun s : SourceTensor => s.name = input.name) sources with
    | nil =>
      have hf : sources.filter (fun s => s.name = input.name) = [] := by
        rw [← filterMap_positions, hp, List.filterMap_nil]
      simp only [hf]
      exact ⟨by rw [hm], ha, hs, hsole⟩
    | cons i more =>
      cases more with
      | nil =>
        obtain ⟨source, hi, hn, hf⟩ := exists_source_of_positions hp
        simp only [hf]
        refine ⟨hm, ha, by simp [hi, hs], fun j hj => ?_⟩
        rcases List.mem_cons.mp hj with rfl | hj
        · refine soleAt_of_positions hp hi fun s h => ?_
          rw [h]
          exact hn
        · exact hsole j hj
      | cons j more =>
        have hlen := length_positions (fun s : SourceTensor => s.name = input.name) sources
        have hnames := @namesAt_positions sources fun s => s.name = input.name
        rw [hp] at hlen hnames
        cases hf : sources.filter (fun s => s.name = input.name) with
        | nil => rw [hf] at hlen; cases hlen
        | cons a as =>
          cases as with
          | nil => rw [hf] at hlen; cases hlen
          | cons b bs =>
            rw [hf] at hnames
            exact ⟨hm, by simp only; rw [ha, hnames], hs, hsole⟩

theorem resolveTarget_agrees (target : TargetTensor) : Agrees sources
    (resolveTarget inputs sources (groupNames (sources.map SourceTensor.name)) target)
    (select inputs sources target) := by
  unfold resolveTarget select
  cases target.operationGraph with
  | none => exact resolveNamed_agrees
  | some graph =>
    obtain ⟨hm, ha, hs, hsole⟩ := @collectGraphSources_eq sources graph.inputs
    unfold resolveOperationGraphBinding selectGraph
    simp only [hm, ha, hs]
    split
    · exact ⟨rfl, rfl, by simp⟩
    · split
      · exact ⟨rfl, rfl, by simp⟩
      · refine ⟨rfl, rfl, fun indices h => ?_⟩
        obtain rfl := Option.some.inj h
        exact hsole

/-- A matched position and the source at it. -/
theorem Agrees.mem_iff {o : Outcome} {s : Selected} (h : Agrees sources o s)
    {indices : List Nat} (ho : o.matched = some indices) {i : Nat} {source : SourceTensor}
    (hi : sources[i]? = some source) :
    i ∈ indices ↔ ∃ selected, s.matched = some selected ∧ source ∈ selected := by
  rw [h.matched, ho]
  constructor
  · intro hmem
    exact ⟨_, rfl, List.mem_filterMap.mpr ⟨i, hmem, hi⟩⟩
  · rintro ⟨selected, hsel, hmem⟩
    obtain rfl := Option.some.inj hsel
    obtain ⟨j, hj, hjs⟩ := List.mem_filterMap.mp hmem
    -- both positions hold the only source of that name
    obtain ⟨source', hs', hsole⟩ := h.sole indices ho j hj
    obtain rfl : source = source' := Option.some.inj (hjs.symm.trans hs')
    have : i ∈ positions (fun s => s.name = source.name) sources :=
      mem_positions.mpr ⟨source, hi, by simp⟩
    rw [hsole] at this
    rwa [List.mem_singleton.mp this]

end Agreement

/-! ## Order does not matter -/

section Order
variable {inputs : PlanInputs} {sources sources' : List SourceTensor}

theorem PlanDiagnostic.new_congr {severity : DiagnosticSeverity} {code : DiagnosticCode}
    {subject : TensorName} {related related' : List TensorName} {message : String}
    (h : ∀ n, n ∈ related ↔ n ∈ related') :
    PlanDiagnostic.new severity code subject related message =
      .new severity code subject related' message := by
  rw [PlanDiagnostic.new, PlanDiagnostic.new, sortDedup_congr h]

theorem selectNamed_perm (h : sources.Perm sources') (target : TargetTensor) :
    selectNamed inputs sources target = selectNamed inputs sources' target := by
  have hperm := h.filter target.accepts
  unfold selectNamed
  generalize sources.filter target.accepts = l at hperm
  generalize sources'.filter target.accepts = l' at hperm
  cases l with
  | nil => rw [List.nil_perm.mp hperm]
  | cons a l =>
    cases l with
    | nil => rw [List.singleton_perm.mp hperm]
    | cons b l =>
      have hlen := hperm.length_eq
      match l', hperm, hlen with
      | a' :: b' :: l', hperm, _ =>
        simp only
        congr 2
        exact PlanDiagnostic.new_congr fun n => (hperm.map SourceTensor.name).mem_iff

/-- The sources of one name all have that name. -/
theorem map_name_filter (l : List SourceTensor) (n : TensorName) :
    (l.filter fun s => s.name = n).map SourceTensor.name =
      List.replicate (l.filter fun s => s.name = n).length n := by
  refine List.eq_replicate_iff.mpr ⟨List.length_map _, fun m hm => ?_⟩
  obtain ⟨s, hs, rfl⟩ := List.mem_map.mp hm
  simpa using (List.mem_filter.mp hs).2

theorem selectInputs_perm (h : sources.Perm sources') (graphInputs : List OperationInput) :
    selectInputs sources graphInputs = selectInputs sources' graphInputs := by
  induction graphInputs with
  | nil => rfl
  | cons input rest ih =>
    have hperm := h.filter fun s => s.name = input.name
    have hn := map_name_filter sources input.name
    have hn' := map_name_filter sources' input.name
    simp only [selectInputs, ih]
    generalize sources.filter (fun s => s.name = input.name) = l at hperm hn
    generalize sources'.filter (fun s => s.name = input.name) = l' at hperm hn'
    have hnames : l.map SourceTensor.name = l'.map SourceTensor.name := by
      rw [hn, hn', hperm.length_eq]
    cases l with
    | nil => rw [List.nil_perm.mp hperm]
    | cons a l =>
      cases l with
      | nil => rw [List.singleton_perm.mp hperm]
      | cons b l =>
        have hlen := hperm.length_eq
        match l', hperm, hlen, hnames with
        | a' :: b' :: l', _, _, hnames =>
          simp only
          rw [hnames]

/-- Selection only depends on the sources up to order. -/
theorem select_perm (h : sources.Perm sources') (target : TargetTensor) :
    select inputs sources target = select inputs sources' target := by
  unfold select
  cases target.operationGraph with
  | none => exact selectNamed_perm h target
  | some graph => simp only [selectGraph, selectInputs_perm h]

end Order

end ModelWeights.Plan
