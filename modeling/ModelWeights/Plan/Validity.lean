import ModelWeights.Plan.Contract

/-! # Values that constructors make

The fields of a descriptor are private in the source: a value exists only if its
constructor accepted it. `valid` says so of the descriptors whose constructor
keeps the fields as they are, and `Made` of those whose constructor computes. -/
namespace ModelWeights

/-! ## Names and layouts -/

def StableName.valid (n : StableName) : Bool := (StableName.parse n.text).isOk

def TensorName.valid (n : TensorName) : Bool := (TensorName.parse n.text).isOk

def ImplementationId.valid (i : ImplementationId) : Bool := i.provider.valid && i.operation.valid

def Layout.valid : Layout → Bool
  | .contiguous => true
  | .custom name _ _ => name.valid

def Representation.valid (r : Representation) : Bool := r.layout.valid

def TransformSpec.valid (t : TransformSpec) : Bool :=
  t.implementation.valid && t.source.valid && t.target.valid

def PlannedTransform.valid (t : PlannedTransform) : Bool := t.transform.valid

/-! ## Storage -/

def SourceSpan.valid (s : SourceSpan) : Bool := (SourceSpan.new s.file s.offset s.length).isOk

def Packing.valid : Packing → Bool
  | .blocks b => (BlockPacking.new b.valuesPerBlock b.bytesPerBlock b.order).isOk
  | .opaquePayload => true

def Grouping.valid (g : Grouping) : Bool := (Grouping.new g.axis g.valuesPerGroup).isOk

def CompanionTensor.valid (c : CompanionTensor) : Bool :=
  c.span.valid && (CompanionTensor.new c.tensor c.dtype c.shape c.span).isOk

/-- The first key of an object is above `previous`. -/
def ProviderFields.follows (previous : Option StableName) : ProviderFields → Bool
  | .nil => true
  | .cons name _ _ => previous.all fun p => p < name

mutual

def ProviderValue.valid : ProviderValue → Bool
  | .sequence values => values.valid
  | .object fields => fields.valid
  | _ => true

def ProviderValues.valid : ProviderValues → Bool
  | .nil => true
  | .cons value rest => value.valid && rest.valid

/-- Valid keys in increasing order. -/
def ProviderFields.valid : ProviderFields → Bool
  | .nil => true
  | .cons name value rest =>
    name.valid && value.valid && rest.follows (some name) && rest.valid

end

/-- The parts that the builder of a packed descriptor is given. -/
def QuantizedStorage.partsValid (q : QuantizedStorage) : Bool :=
  q.encoding.valid && q.payload.valid && q.packing.valid && q.grouping.all Grouping.valid &&
    q.requiredCompanions.all StableName.valid &&
    (q.companions.entries.all fun e => e.1.valid && e.2.valid) &&
    (q.metadata.entries.all fun e => e.1.valid && e.2.valid)

/-- A descriptor that the builder made from valid parts. -/
def QuantizedStorage.Made (q : QuantizedStorage) : Prop :=
  q.partsValid = true ∧ ∃ required companions,
    build q.encoding q.logicalShape q.payload q.packing q.grouping required companions
      q.metadata = .ok q

/-- Deserialization of a packed descriptor. -/
def QuantizedStorage.decode (q : QuantizedStorage) : Option QuantizedStorage :=
  if q.partsValid ∧ q.schemaVersion = quantizedStorageSchemaVersion then
    (build q.encoding q.logicalShape q.payload q.packing q.grouping q.requiredCompanions
      q.companions.entries q.metadata).toOption
  else none

section Quantized

theorem collectCompanions_ok : ∀ {l : List (StableName × CompanionTensor)}
    {acc : OrderedMap StableName CompanionTensor}, (l.map Prod.fst).Nodup →
    (∀ e ∈ l, acc.get? e.1 = none) →
    collectCompanions l acc = .ok (l.foldl (fun m e => m.insert e.1 e.2) acc)
  | [], _, _, _ => rfl
  | (role, tensor) :: rest, acc, hn, hnew => by
    rw [List.map_cons, List.nodup_cons] at hn
    have hrole := hnew (role, tensor) (List.mem_cons_self ..)
    rw [collectCompanions, if_neg (by simp [OrderedMap.contains, hrole])]
    refine collectCompanions_ok hn.2 fun e he => ?_
    rw [OrderedMap.get?_insert, if_neg, hnew e (List.mem_cons_of_mem _ he)]
    intro heq
    exact hn.1 (List.mem_map.mpr ⟨e, he, heq⟩)

/-- Inserting the entries of a map in order gives the map. -/
theorem ofList_entries {κ ν : Type} [LinearOrder κ] (m : OrderedMap κ ν) :
    m.entries.foldl (fun m e => m.insert e.1 e.2) .empty = m := by
  refine OrderedMap.ext_get? fun k => ?_
  exact OrderedMap.get?_ofList m.nodup_keys k

/-- A packed descriptor is read back as it is. -/
theorem QuantizedStorage.decode_of_made {q : QuantizedStorage} (h : q.Made) :
    q.decode = some q := by
  obtain ⟨hparts, required, companions, hb⟩ := h
  obtain ⟨_, hshape, hb⟩ := bind_ok hb
  obtain ⟨_, hgroup, hb⟩ := bind_ok hb
  obtain ⟨hdup, hb⟩ := unless_error_ok hb
  obtain ⟨collected, hc, hb⟩ := bind_ok hb
  obtain ⟨hmissing, hb⟩ := unless_error_ok hb
  have hb := Except.ok.inj hb
  have hversion : q.schemaVersion = quantizedStorageSchemaVersion := by rw [← hb]
  have hreq : q.requiredCompanions = required.insertionSort (· ≤ ·) := by rw [← hb]
  have hcomp : q.companions = collected := by rw [← hb]
  have hcollect : collectCompanions q.companions.entries .empty = .ok q.companions := by
    rw [collectCompanions_ok q.companions.nodup_keys fun _ _ => rfl, ofList_entries]
  have hsorted : q.requiredCompanions.insertionSort (· ≤ ·) = q.requiredCompanions := by
    rw [hreq]
    exact (List.pairwise_insertionSort _ required).insertionSort_eq
  have hbuild : build q.encoding q.logicalShape q.payload q.packing q.grouping
      q.requiredCompanions q.companions.entries q.metadata = .ok q := by
    unfold build
    rw [hshape, hgroup]
    show (if hasAdjacentDuplicate (q.requiredCompanions.insertionSort (· ≤ ·)) = true then _
      else _) = _
    rw [hsorted, if_neg (by rw [hreq]; exact hdup), hcollect]
    show (if (q.requiredCompanions.any fun role => !q.companions.contains role) = true then _
      else _) = _
    rw [if_neg (by rw [hreq, hcomp]; exact hmissing), ← hversion]
  rw [decode, if_pos ⟨hparts, hversion⟩, hbuild]
  rfl

theorem QuantizedStorage.made_of_decode {q q' : QuantizedStorage} (h : q.decode = some q') :
    q'.Made := by
  unfold decode at h
  split at h
  · next hvalid =>
    obtain ⟨hparts, _⟩ := hvalid
    have hb := toOption_eq_some h
    obtain ⟨_, hshape, hb'⟩ := bind_ok hb
    obtain ⟨_, hgroup, hb'⟩ := bind_ok hb'
    obtain ⟨_, hb'⟩ := unless_error_ok hb'
    obtain ⟨collected, hc, hb'⟩ := bind_ok hb'
    obtain ⟨_, hb'⟩ := unless_error_ok hb'
    have hcollect : collectCompanions q.companions.entries .empty = .ok q.companions := by
      rw [collectCompanions_ok q.companions.nodup_keys fun _ _ => rfl, ofList_entries]
    obtain rfl : q.companions = collected := Except.ok.inj (hcollect.symm.trans hc)
    obtain rfl := Except.ok.inj hb'
    refine ⟨?_, q.requiredCompanions, q.companions.entries, hb⟩
    simp only [partsValid, Bool.and_eq_true, List.all_eq_true, List.mem_insertionSort] at hparts ⊢
    exact hparts
  · cases h

end Quantized

/-! ### Storage -/

def Storage.Made : Storage → Prop
  | .plain _ span => span.valid = true
  | .quantized q => q.Made

def Storage.decode : Storage → Option Storage
  | .plain dtype span => if span.valid then some (.plain dtype span) else none
  | .quantized q => q.decode.map .quantized

theorem Storage.decode_of_made {st : Storage} (h : st.Made) : st.decode = some st := by
  cases st with
  | plain dtype span => exact if_pos h
  | quantized q => rw [decode, q.decode_of_made h]; rfl

theorem Storage.made_of_decode {st st' : Storage} (h : st.decode = some st') : st'.Made := by
  cases st with
  | plain dtype span =>
    rw [decode] at h
    split at h
    · next hv =>
      obtain rfl := Option.some.inj h
      exact hv
    · cases h
  | quantized q =>
    obtain ⟨q', hq, rfl⟩ := Option.map_eq_some_iff.mp h
    exact QuantizedStorage.made_of_decode hq

namespace Plan
open ModelWeights.Graph

/-! ## Sources -/

def SourceTensor.Made (s : SourceTensor) : Prop :=
  s.name.valid = true ∧ s.storage.Made ∧ SourceTensor.new s.name s.shape s.storage = .ok s

def SourceTensor.decode (s : SourceTensor) : Option SourceTensor := do
  let storage ← s.storage.decode
  if s.name.valid then (SourceTensor.new s.name s.shape storage).toOption else none

/-- The constructor keeps its arguments. -/
theorem SourceTensor.new_eq {name : TensorName} {shape : List Nat} {storage : Storage}
    {s : SourceTensor} (h : SourceTensor.new name shape storage = .ok s) :
    s = ⟨name, shape, storage⟩ := by
  cases storage with
  | plain dtype span =>
    obtain ⟨_, _, h⟩ := bind_ok h
    obtain ⟨_, h⟩ := unless_error_ok h
    exact (Except.ok.inj h).symm
  | quantized q =>
    obtain ⟨_, h⟩ := unless_error_ok h
    exact (Except.ok.inj h).symm

theorem SourceTensor.decode_of_made {s : SourceTensor} (h : s.Made) : s.decode = some s := by
  obtain ⟨hname, hstorage, hnew⟩ := h
  rw [decode, s.storage.decode_of_made hstorage]
  show (if s.name.valid = true then (SourceTensor.new s.name s.shape s.storage).toOption
    else none) = _
  rw [if_pos hname, hnew]
  rfl

theorem SourceTensor.made_of_decode {s s' : SourceTensor} (h : s.decode = some s') : s'.Made := by
  obtain ⟨storage, hstorage, h⟩ := Option.bind_eq_some_iff.mp h
  split at h
  · next hname =>
    have hnew := toOption_eq_some h
    obtain rfl := SourceTensor.new_eq hnew
    exact ⟨hname, Storage.made_of_decode hstorage, hnew⟩
  · cases h

/-! ## Recipes and routes -/

def RecipeInput.valid : RecipeInput → Bool
  | .external name => name.valid
  | .step name => name.valid

def RecipeStep.valid (s : RecipeStep) : Bool :=
  s.output.valid && s.operation.valid && s.inputs.all RecipeInput.valid &&
    s.parameters.entries.all fun e => e.1.valid && e.2.valid

def ConversionRecipe.valid (r : ConversionRecipe) : Bool :=
  r.implementation.valid && r.inputs.all TensorName.valid && r.steps.all RecipeStep.valid &&
    (r.outputs.entries.all fun e => e.1.valid && e.2.valid) &&
    (ConversionRecipe.new r.schemaVersion r.implementation r.inputs r.steps r.outputs).isOk

def QuantizedRoute.valid : QuantizedRoute → Bool
  | .repack targetEncoding => targetEncoding.valid
  | _ => true

def RouteCapability.valid (c : RouteCapability) : Bool :=
  c.sourceEncoding.valid && c.route.valid && c.implementation.valid &&
    (c.targetLayout.all fun l => l.name.valid) &&
    (RouteCapability.new c.sourceEncoding c.route c.implementation c.backend c.targetLayout).isOk

end Plan

end ModelWeights
