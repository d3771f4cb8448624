import ModelWeights.Overlay.Plan

/-! # What a plan composes

The operations of all layers form one sequence, the stack. A plan that was built
files each of them under the base that its target stands for, in stack order. -/
namespace ModelWeights.Overlay
open ModelWeights.Graph Plan Canonical Groups

/-! ## The stack -/

/-- One operation of a stack, with its layer and its position there. -/
structure StackEntry where
  layer : OverlayLayer
  index : Nat
  operation : OverlayOperation

def StackEntry.reference (entry : StackEntry) : OverlayOperationRef :=
  ⟨entry.layer.id, entry.index⟩

/-- Operations of a layer, counted from `index` on. -/
def entriesFrom (layer : OverlayLayer) (index : Nat) (operations : List OverlayOperation) :
    List StackEntry :=
  (operations.zipIdx index).map fun entry => ⟨layer, entry.2, entry.1⟩

def layerEntries (layer : OverlayLayer) : List StackEntry := entriesFrom layer 0 layer.operations

/-- Every operation of every layer, in the order of composition. -/
def stack (layers : List OverlayLayer) : List StackEntry := layers.flatMap layerEntries

/-- The name of the base that an operation addresses. -/
def addressed (aliases : AliasTable) (entry : StackEntry) : TensorName :=
  aliases.resolve entry.operation.target

/-- The operations on one base, in the order of composition. -/
def composition (aliases : AliasTable) (layers : List OverlayLayer) (base : TensorName) :
    List StackEntry :=
  group (addressed aliases) base (stack layers)

theorem entriesFrom_cons (layer : OverlayLayer) (index : Nat) (operation : OverlayOperation)
    (rest : List OverlayOperation) : entriesFrom layer index (operation :: rest) =
      [⟨layer, index, operation⟩] ++ entriesFrom layer (index + 1) rest := by
  rw [entriesFrom, List.zipIdx_cons]
  rfl

theorem stack_cons (layer : OverlayLayer) (layers : List OverlayLayer) :
    stack (layer :: layers) = layerEntries layer ++ stack layers :=
  List.flatMap_cons ..

theorem mem_layerEntries {layer : OverlayLayer} {entry : StackEntry}
    (h : entry ∈ layerEntries layer) :
    entry.layer = layer ∧ layer.operations[entry.index]? = some entry.operation := by
  obtain ⟨⟨operation, index⟩, hm, rfl⟩ := List.mem_map.mp h
  exact ⟨rfl, List.mem_zipIdx_iff_getElem?.mp hm⟩

theorem mem_stack {layers : List OverlayLayer} {entry : StackEntry} (h : entry ∈ stack layers) :
    entry.layer ∈ layers ∧ entry.layer.operations[entry.index]? = some entry.operation := by
  obtain ⟨layer, hlayer, hentry⟩ := List.mem_flatMap.mp h
  obtain ⟨rfl, hop⟩ := mem_layerEntries hentry
  exact ⟨hlayer, hop⟩

section Filing
variable {aliases : AliasTable} {bases : List BaseTensor} {policy : ConflictPolicy}

theorem get?_baseIndices (hn : (bases.map BaseTensor.name).Nodup) {name : TensorName}
    {index : Fin bases.length} :
    (baseIndices bases).get? name = some index ↔ (bases.get index).name = name := by
  have hkeys : (((List.finRange bases.length).map fun index =>
      (bases[index].name, index)).map Prod.fst) = bases.map BaseTensor.name := by
    rw [List.map_map]
    refine List.ext_getElem (by simp) fun k _ _ => ?_
    simp
  rw [← hkeys] at hn
  rw [baseIndices, OrderedMap.get?_ofList hn]
  constructor
  · intro h
    obtain ⟨i, _, heq⟩ := List.mem_map.mp (OrderedMap.mem_of_find h)
    obtain ⟨hname, rfl⟩ := Prod.mk.inj heq
    exact hname
  · rintro rfl
    exact OrderedMap.find_of_mem hn (List.mem_map.mpr ⟨index, List.mem_finRange index, rfl⟩)

/-! ## What filing does -/

/-- An operation that a plan takes up: it addresses a base of its shape. -/
structure Admitted (aliases : AliasTable) (bases : List BaseTensor) (entry : StackEntry) :
    Prop where
  base : ∃ base ∈ bases, base.name = addressed aliases entry ∧
    validateOperationShape entry.operation base = .ok ()
  indexed : entry.index < 2 ^ 32

/-- The references of `refs'` are those of `refs` and, after them, the given entries, each
under its base. -/
def Filed (aliases : AliasTable) (bases : List BaseTensor) (entries : List StackEntry)
    (refs refs' : OperationRefs bases) : Prop :=
  ∀ index : Fin bases.length, refs' index = refs index ++
    (group (addressed aliases) (bases.get index).name entries).map StackEntry.reference

/-- No base has more than one operation, if the policy rejects conflicts. -/
def Exclusive (policy : ConflictPolicy) (bases : List BaseTensor) (refs : OperationRefs bases) :
    Prop :=
  policy = .reject → ∀ index, (refs index).length ≤ 1

theorem Filed.refl (refs : OperationRefs bases) : Filed aliases bases [] refs refs := by
  intro index
  rw [group_nil, List.map_nil, List.append_nil]

theorem Filed.trans {entries entries' : List StackEntry} {refs refs' refs'' : OperationRefs bases}
    (h : Filed aliases bases entries refs refs') (h' : Filed aliases bases entries' refs' refs'') :
    Filed aliases bases (entries ++ entries') refs refs'' := by
  intro index
  rw [h' index, h index, group_append, List.map_append, List.append_assoc]

section Ok
variable (hn : (bases.map BaseTensor.name).Nodup) {layer : OverlayLayer}
  {refs refs' : OperationRefs bases}
include hn

/-- What filing one operation does. -/
theorem addOperation_ok {index : Nat} {operation : OverlayOperation}
    (h : addOperation aliases bases policy layer.id index refs operation = .ok refs') :
    Admitted aliases bases ⟨layer, index, operation⟩ ∧
      Filed aliases bases [⟨layer, index, operation⟩] refs refs' ∧
      (Exclusive policy bases refs → Exclusive policy bases refs') := by
  unfold addOperation at h
  obtain ⟨base, hbase, h⟩ := bind_ok h
  obtain ⟨_, hshape, h⟩ := bind_ok h
  obtain ⟨hfree, h⟩ := unless_error_ok h
  obtain ⟨hindex, h⟩ := unless_error_ok h
  obtain rfl := Except.ok.inj h
  have hbase := okOr_eq_ok.mp hbase
  have hname : (bases.get base).name = addressed aliases ⟨layer, index, operation⟩ :=
    (get?_baseIndices hn).mp hbase
  refine ⟨⟨⟨bases[base], List.getElem_mem _, hname, hshape⟩, Nat.not_le.mp hindex⟩, ?_, ?_⟩
  · intro i
    rw [group_singleton]
    by_cases hi : i = base
    · subst hi
      rw [Function.update_self, if_pos hname.symm]
      rfl
    · have hne : ¬addressed aliases ⟨layer, index, operation⟩ = (bases.get i).name := by
        intro heq
        have hi' := (get?_baseIndices hn).mpr heq.symm
        exact hi (Option.some.inj (hi'.symm.trans hbase))
      rw [Function.update_of_ne hi, if_neg hne, List.map_nil, List.append_nil]
  · intro hex hpolicy i
    by_cases hi : i = base
    · subst hi
      have hnil : refs i = [] := by
        by_contra hne
        exact hfree ⟨hpolicy, hne⟩
      rw [Function.update_self, hnil]
      exact Nat.le_refl 1
    · rw [Function.update_of_ne hi]
      exact hex hpolicy i

theorem addOperations_ok {operations : List OverlayOperation} {index : Nat}
    (h : addOperations aliases bases policy layer.id index operations refs = .ok refs') :
    (∀ entry ∈ entriesFrom layer index operations, Admitted aliases bases entry) ∧
      Filed aliases bases (entriesFrom layer index operations) refs refs' ∧
      (Exclusive policy bases refs → Exclusive policy bases refs') := by
  induction operations generalizing index refs with
  | nil =>
    obtain rfl := Except.ok.inj h
    exact ⟨fun entry hm => absurd hm List.not_mem_nil, Filed.refl refs, id⟩
  | cons operation rest ih =>
    obtain ⟨refs₁, hfirst, h⟩ := bind_ok h
    obtain ⟨hadm, hfiled, hex⟩ := addOperation_ok hn hfirst
    obtain ⟨hadms, hfileds, hexs⟩ := ih h
    rw [entriesFrom_cons]
    refine ⟨fun entry hm => ?_, hfiled.trans hfileds, hexs ∘ hex⟩
    rcases List.mem_append.mp hm with hm | hm
    · rw [List.mem_singleton.mp hm]
      exact hadm
    · exact hadms entry hm

/-- Filing the operations of all layers files the stack. -/
theorem addLayers_ok {layers : List OverlayLayer} {layerIds : List OverlayId}
    (h : addLayers aliases bases policy layerIds layers refs = .ok refs') :
    (layers.map OverlayLayer.id).Nodup ∧ (∀ layer ∈ layers, layer.id ∉ layerIds) ∧
      (∀ entry ∈ stack layers, Admitted aliases bases entry) ∧
      Filed aliases bases (stack layers) refs refs' ∧
      (Exclusive policy bases refs → Exclusive policy bases refs') := by
  induction layers generalizing layerIds refs with
  | nil =>
    obtain rfl := Except.ok.inj h
    exact ⟨List.nodup_nil, fun layer hm => absurd hm List.not_mem_nil,
      fun entry hm => absurd hm List.not_mem_nil, Filed.refl refs, id⟩
  | cons layer layers ih =>
    rw [addLayers] at h
    obtain ⟨hnew, h⟩ := unless_error_ok h
    obtain ⟨refs₁, hfirst, h⟩ := bind_ok h
    obtain ⟨hadm, hfiled, hex⟩ := addOperations_ok hn hfirst
    obtain ⟨hnodup, hfresh, hadms, hfileds, hexs⟩ := ih h
    refine ⟨?_, ?_, ?_, ?_, hexs ∘ hex⟩
    · rw [List.map_cons, List.nodup_cons]
      refine ⟨fun hm => ?_, hnodup⟩
      obtain ⟨later, hlater, hid⟩ := List.mem_map.mp hm
      exact hfresh later hlater (List.mem_cons.mpr (.inl hid))
    · intro l hm
      cases hm with
      | head => exact hnew
      | tail _ hm => exact fun hin => hfresh l hm (List.mem_cons_of_mem _ hin)
    · intro entry hm
      rw [stack_cons] at hm
      rcases List.mem_append.mp hm with hm | hm
      · exact hadm entry hm
      · exact hadms entry hm
    · rw [stack_cons]
      exact hfiled.trans hfileds

end Ok

end Filing

/-! ## Plans that were built -/

/-- A plan whose bindings and digest are those of its other fields. -/
structure OverlayPlan.Composed (h : OverlayHashing) (plan : OverlayPlan) : Prop where
  version : plan.schemaVersion = overlaySchemaVersion
  sorted : plan.bases.Pairwise fun a b => a.name < b.name
  layerIds : (plan.layers.map OverlayLayer.id).Nodup
  admitted : ∀ entry ∈ stack plan.layers, Admitted plan.aliases plan.bases entry
  bindings : plan.bindings = plan.bases.map fun base =>
    ⟨base, (composition plan.aliases plan.layers base.name).map StackEntry.reference⟩
  exclusive : plan.conflictPolicy = .reject → ∀ base ∈ plan.bases,
    (composition plan.aliases plan.layers base.name).length ≤ 1
  digest : plan.digest = plan.toOverlayPlanIdentity.digest h

section Built
variable {h : OverlayHashing} {sort : KeySort TensorName} {bases : List BaseTensor}
  {aliases : AliasTable} {layers : List OverlayLayer} {policy : ConflictPolicy}
  {mode : CompositionMode} {plan : OverlayPlan}

theorem pairwise_names (hn : (bases.map BaseTensor.name).Nodup) :
    (sort.sort BaseTensor.name bases).Pairwise fun a b => a.name < b.name := by
  have hsorted := sort.sorted BaseTensor.name bases
  have hnodup := ((sort.perm BaseTensor.name bases).map BaseTensor.name).nodup_iff.mpr hn
  rw [List.nodup_iff_pairwise_ne, List.pairwise_map] at hnodup
  exact hsorted.imp₂ (fun _ _ hle hne => lt_of_le_of_ne hle hne) hnodup

theorem hasAdjacentDuplicate_sorted :
    hasAdjacentDuplicate ((sort.sort BaseTensor.name bases).map BaseTensor.name) = false ↔
      (bases.map BaseTensor.name).Nodup := by
  have hsorted := sort.sorted BaseTensor.name bases
  rw [hasAdjacentDuplicate_eq_false (List.pairwise_map.mpr hsorted),
    ((sort.perm BaseTensor.name bases).map BaseTensor.name).nodup_iff]

/-- What `OverlayPlan::build` makes of its arguments. -/
theorem build_ok
    (hb : OverlayPlan.build h sort bases aliases layers policy mode = .ok plan) :
    plan.Composed h ∧ (bases.map BaseTensor.name).Nodup ∧
      plan.bases = sort.sort BaseTensor.name bases ∧ plan.aliases = aliases ∧
      plan.layers = layers ∧ plan.conflictPolicy = policy ∧ plan.mode = mode := by
  unfold OverlayPlan.build buildSorted at hb
  obtain ⟨hdup, hb⟩ := unless_error_ok hb
  obtain ⟨_, _, hb⟩ := bind_ok hb
  obtain ⟨refs, hrefs, hb⟩ := bind_ok hb
  obtain rfl := Except.ok.inj hb
  have hn := hasAdjacentDuplicate_sorted.mp (Bool.eq_false_iff.mpr hdup)
  have hn' := ((sort.perm BaseTensor.name bases).map BaseTensor.name).nodup_iff.mpr hn
  obtain ⟨hids, _, hadm, hfiled, hex⟩ := addLayers_ok hn' hrefs
  have hex := hex fun _ _ => Nat.zero_le 1
  refine ⟨⟨rfl, pairwise_names hn, hids, hadm, ?_, ?_, rfl⟩, hn, rfl, rfl, rfl, rfl, rfl⟩
  · refine List.ext_getElem (by simp [planIdentity]) fun k hk _ => ?_
    simp only [planIdentity, List.getElem_ofFn, List.getElem_map, OverlayBinding.mk.injEq]
    exact ⟨rfl, hfiled _⟩
  · intro hpolicy base hm
    obtain ⟨k, hk, rfl⟩ := List.getElem_of_mem hm
    have hle := hex hpolicy ⟨k, hk⟩
    rw [hfiled ⟨k, hk⟩, List.nil_append, List.length_map] at hle
    exact hle

end Built

end ModelWeights.Overlay
