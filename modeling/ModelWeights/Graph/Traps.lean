import ModelWeights.Graph.KernelLayout
import ModelWeights.Graph.Builder
import ModelWeights.Lib.Trap

/-! # Inference with its partial steps

The functions a graph passes through while it is read, with every index, store
and unchecked subtraction of the source as a step that can trap. `Permute`,
`Pad`, `Slice` and `Split` arrive here without their constructors, so each
function settles as its total form only because its own checks come first. -/
namespace ModelWeights.Graph.Traps
open Trap

/-! ## Facts -/

/-- `strides[axis] = stride`, then the stride of the next axis. -/
def stridesStep (state : List Nat × Nat) (x : Nat × Nat) : Run Error (List Nat × Nat) := do
  let strides ← store state.1 x.2 state.2
  let stride ← settle (okOr (checkedMul state.2 x.1)
    (.limit "contiguous tensor stride overflows u64"))
  pure (strides, stride)

def contiguousStrides (shape : List Nat) : Run Error (List Nat) := do
  settle (validateRank shape.length)
  let state ← shape.zipIdx.reverse.foldlM stridesStep (List.replicate shape.length 0, 1)
  pure state.1

def validateContiguousStorage (logicalShape storageShape storageStrides : List Nat)
    (representation : Representation) : Run Error Unit :=
  if representation.layout.isContiguous then do
    let expectedStorageStrides ← contiguousStrides logicalShape
    if storageShape ≠ logicalShape ∨ storageStrides ≠ expectedStorageStrides then
      settle (.error (.invalid
        "contiguous representation requires logical-order physical storage"))
    else pure ()
  else pure ()

def validateFacts (logicalShape storageShape logicalStrides storageStrides : List Nat)
    (representation : Representation) (byteLen : Nat) : Run Error Unit := do
  settle (validateRank logicalShape.length)
  settle (validateRank storageShape.length)
  if logicalShape.length ≠ storageShape.length then
    settle (.error (.invalid "logical and storage tensor ranks must be equal"))
  else if logicalShape.length ≠ logicalStrides.length then
    settle (.error (.invalid "logical shape and element-stride ranks must be equal"))
  else if logicalShape.length ≠ storageStrides.length then
    settle (.error (.invalid "logical shape and storage-stride ranks must be equal"))
  else do
    let logicalElements ← settle (checkedElementCount logicalShape)
    let storageElements ← settle (checkedElementCount storageShape)
    settle (validateDenseStrides logicalShape logicalStrides logicalElements)
    settle (validateStorageStrides logicalShape storageStrides logicalElements storageElements)
    validateContiguousStorage logicalShape storageShape storageStrides representation
    let expectedBytes ← settle (representation.dtype.byteLen storageShape)
    if byteLen ≠ expectedBytes then
      settle (.error (.invalid s!"tensor facts record {byteLen} bytes, but {debugDType representation.dtype} storage requires {expectedBytes}"))
    else pure ()

/-- The record is made from the total checks, after the same checks have run. -/
def newFacts (logicalShape storageShape logicalStrides storageStrides : List Nat)
    (representation : Representation) (byteLen : Nat) : Run Error TensorFacts := do
  validateFacts logicalShape storageShape logicalStrides storageStrides representation byteLen
  settle (TensorFacts.new logicalShape storageShape logicalStrides storageStrides representation
    byteLen)

def contiguousFacts (shape : List Nat) (representation : Representation) :
    Run Error TensorFacts :=
  if representation.layout.isContiguous = false then
    settle (.error (.invalid "contiguous tensor facts require a contiguous representation"))
  else do
    let strides ← contiguousStrides shape
    let byteLen ← settle (representation.dtype.byteLen shape)
    newFacts shape shape strides strides representation byteLen

def isCanonicalContiguous (facts : TensorFacts) : Run Error Bool :=
  if facts.representation.layout.isContiguous && (facts.logicalShape == facts.storageShape) then do
    let strides ← attempt (contiguousStrides facts.logicalShape)
    match strides with
    | .ok strides => pure (strides == facts.logicalStrides && strides == facts.storageStrides)
    | .error _ => pure false
  else pure false

section Facts

theorem set_take_succ {α : Type} {l : List α} {k : Nat} (a : α) (rest : List α)
    (h : k < l.length) : (l.take (k + 1) ++ rest).set k a = l.take k ++ a :: rest := by
  have hlen : (l.take k).length = k := by rw [List.length_take]; omega
  rw [List.take_succ_eq_append_getElem h, List.append_assoc, List.set_append_right _ _ (by omega),
    hlen, Nat.sub_self]
  rfl

/-- The fold over the axes from the last one, started inside a longer list. -/
theorem stridesStep_settles : ∀ (shape : List Nat) (k : Nat) (strides : List Nat),
    k + shape.length ≤ strides.length →
    Settles ((shape.zipIdx k).reverse.foldlM stridesStep (strides, 1))
      ((contiguousStridesLoop shape).map fun x =>
        (strides.take k ++ (x.1 ++ strides.drop (k + shape.length)), x.2))
  | [], k, strides, _ => by
    show some (Except.ok (strides, 1)) = some (Except.ok _)
    simp
  | d :: ds, k, strides, h => by
    rw [List.length_cons] at h
    rw [List.zipIdx_cons, List.reverse_cons, List.foldlM_append, contiguousStridesLoop]
    have ih := stridesStep_settles ds (k + 1) strides (by omega)
    cases hloop : contiguousStridesLoop ds with
    | error e =>
      rw [hloop] at ih
      exact Settles.bind_error ih
    | ok x =>
      obtain ⟨ss, stride⟩ := x
      rw [hloop] at ih
      refine Settles.bind_value ih ?_
      have hk : k < (strides.take (k + 1) ++ (ss ++ strides.drop (k + 1 + ds.length))).length := by
        rw [List.length_append, List.length_take]
        omega
      rw [List.foldlM_cons]
      have hstep : Settles (stridesStep
          (strides.take (k + 1) ++ (ss ++ strides.drop (k + 1 + ds.length)), stride) (d, k))
          ((okOr (checkedMul stride d) (.limit "contiguous tensor stride overflows u64")).map
            fun next => (strides.take k ++ (stride :: ss ++ strides.drop (k + (ds.length + 1))),
              next)) := by
        refine Settles.bind_value (Settles.of_store stride hk) ?_
        rw [set_take_succ _ _ (by omega), show k + 1 + ds.length = k + (ds.length + 1) by omega]
        exact Settles.bind (Settles.of_settle _) fun next _ => Settles.of_pure _
      show Settles (stridesStep _ (d, k) >>= pure) (Except.map _ (okOr _ _ >>= fun next => _))
      cases hnext : okOr (checkedMul stride d) (.limit "contiguous tensor stride overflows u64") with
      | error e =>
        rw [hnext] at hstep
        exact Settles.bind_error hstep
      | ok next =>
        rw [hnext] at hstep
        exact Settles.bind_value hstep (Settles.of_pure _)

theorem contiguousStrides_settles (shape : List Nat) :
    Settles (contiguousStrides shape) (Graph.contiguousStrides shape) := by
  refine Settles.bind (Settles.of_settle _) fun _ _ => ?_
  refine Settles.bind_map (stridesStep_settles shape 0 _ (by simp)) fun x _ => ?_
  have hdrop : (List.replicate shape.length 0).drop (0 + shape.length) = [] := by simp
  rw [hdrop, List.append_nil, List.take_zero, List.nil_append]
  exact Settles.of_pure _

theorem validateContiguousStorage_settles (ls ss sst : List Nat) (r : Representation) :
    Settles (validateContiguousStorage ls ss sst r) (Graph.validateContiguousStorage ls ss sst r) := by
  refine Settles.of_ite (fun _ => ?_) fun _ => Settles.of_pure _
  refine Settles.bind (contiguousStrides_settles ls) fun strides _ => ?_
  exact Settles.of_ite (fun _ => Settles.of_settle _) fun _ => Settles.of_pure _

theorem validateFacts_settles (ls ss lst sst : List Nat) (r : Representation) (n : Nat) :
    Settles (validateFacts ls ss lst sst r n) (Graph.validateFacts ls ss lst sst r n) := by
  refine Settles.bind (Settles.of_settle _) fun _ _ => ?_
  refine Settles.bind (Settles.of_settle _) fun _ _ => ?_
  refine Settles.of_ite (fun _ => Settles.of_settle _) fun _ => ?_
  refine Settles.of_ite (fun _ => Settles.of_settle _) fun _ => ?_
  refine Settles.of_ite (fun _ => Settles.of_settle _) fun _ => ?_
  refine Settles.bind (Settles.of_settle _) fun _ _ => ?_
  refine Settles.bind (Settles.of_settle _) fun _ _ => ?_
  refine Settles.bind (Settles.of_settle _) fun _ _ => ?_
  refine Settles.bind (Settles.of_settle _) fun _ _ => ?_
  refine Settles.bind (validateContiguousStorage_settles ls ss sst r) fun _ _ => ?_
  refine Settles.bind (Settles.of_settle _) fun _ _ => ?_
  exact Settles.of_ite (fun _ => Settles.of_settle _) fun _ => Settles.of_pure _

theorem newFacts_settles (ls ss lst sst : List Nat) (r : Representation) (n : Nat) :
    Settles (newFacts ls ss lst sst r n) (TensorFacts.new ls ss lst sst r n) := by
  have hchecks := validateFacts_settles ls ss lst sst r n
  cases hvalid : Graph.validateFacts ls ss lst sst r n with
  | error e =>
    rw [hvalid] at hchecks
    have hnew : TensorFacts.new ls ss lst sst r n = .error e := by
      unfold TensorFacts.new
      split
      · next h => rw [hvalid] at h; cases h
      · next h => rw [hvalid] at h; rw [Except.error.inj h]
    rw [hnew]
    exact Settles.bind_error hchecks
  | ok u =>
    rw [hvalid] at hchecks
    exact Settles.bind_value hchecks (Settles.of_settle _)

theorem contiguousFacts_settles (shape : List Nat) (r : Representation) :
    Settles (contiguousFacts shape r) (TensorFacts.contiguous shape r) := by
  refine Settles.of_ite (fun _ => Settles.of_settle _) fun _ => ?_
  refine Settles.bind (contiguousStrides_settles shape) fun strides _ => ?_
  refine Settles.bind (Settles.of_settle _) fun n _ => ?_
  exact newFacts_settles shape shape strides strides r n

theorem isCanonicalContiguous_settles (f : TensorFacts) :
    Settles (isCanonicalContiguous f) (.ok f.isCanonicalContiguous) := by
  unfold isCanonicalContiguous TensorFacts.isCanonicalContiguous
  split
  · next h =>
    refine Settles.bind_value (Settles.of_attempt (contiguousStrides_settles f.logicalShape)) ?_
    rw [h, Bool.true_and]
    cases Graph.contiguousStrides f.logicalShape with
    | ok strides => exact Settles.of_pure _
    | error e => exact Settles.of_pure _
  · next h =>
    rw [Bool.eq_false_iff.mpr h, Bool.false_and]
    exact Settles.of_pure _

end Facts

/-! ## Permutations -/

/-- The shape seen through a permutation of its axes. -/
def permuteShape (order shape : List Nat) : Run Error (List Nat) := order.mapM (index shape)

/-- `storage_strides[logical_axis] = physical_strides[physical_axis]`. -/
def scatterStep (physicalStrides strides : List Nat) (x : Nat × Nat) : Run Error (List Nat) := do
  let stride ← index physicalStrides x.2
  store strides x.1 stride

def scatterStrides (order physicalStrides : List Nat) : Run Error (List Nat) :=
  order.zipIdx.foldlM (scatterStep physicalStrides) (List.replicate order.length 0)

def inferPermute (permute : Permute) (input : TensorFacts) : Run Error (List TensorFacts) := do
  settle (validatePermutation permute.order)
  if permute.order.length ≠ input.logicalShape.length then
    settle (.error (.binding "permutation rank must equal the input logical rank"))
  else do
    let order ← settle (permutationIndices permute.order)
    let dtype := input.representation.dtype
    match permute.mode with
    | .logical => do
      let shape ← permuteShape order input.logicalShape
      let output ← contiguousFacts shape (.contiguous dtype)
      pure [output]
    | .storage targetLayout =>
      if targetLayout.isContiguous = true ∧ order.zipIdx.any (fun x => x.2 ≠ x.1) then
        settle (.error (.binding
          "a non-identity storage permutation requires a non-contiguous target layout"))
      else do
        let storageShape ← permuteShape order input.logicalShape
        let physicalAxisStrides ← contiguousStrides storageShape
        let storageStrides ← scatterStrides order physicalAxisStrides
        let byteLen ← settle (dtype.byteLen storageShape)
        let output ← newFacts input.logicalShape storageShape input.logicalStrides
          storageStrides ⟨dtype, targetLayout⟩ byteLen
        pure [output]

/-- One axis of the loop of `infer_pad`; the flag says whether an axis was enlarged. -/
def paddingStep (logicalShape storageShape : List Nat) (hasPadding : Bool) (x : Nat × Nat) :
    Run Error Bool := do
  let logical ← index logicalShape x.1
  let physical ← index storageShape x.2
  if physical < logical then
    settle (.error (.binding "padded physical dimension is smaller than its logical dimension"))
  else pure (hasPadding || decide (logical < physical))

def inferPad (pad : Pad) (input : TensorFacts) : Run Error (List TensorFacts) := do
  settle (validatePermutation pad.order)
  let rank := input.logicalShape.length
  if pad.order.length ≠ rank ∨ pad.storageShape.length ≠ rank then
    settle (.error (.binding "padding rank must equal the input logical rank"))
  else if pad.targetLayout.isContiguous then
    settle (.error (.binding
      "zero-padded physical storage requires a non-contiguous target layout"))
  else do
    let order ← settle (permutationIndices pad.order)
    let hasPadding ← order.zipIdx.foldlM (paddingStep input.logicalShape pad.storageShape) false
    if hasPadding = false then
      settle (.error (.binding "padding operation must enlarge at least one physical dimension"))
    else do
      let physicalStrides ← contiguousStrides pad.storageShape
      let storageStrides ← scatterStrides order physicalStrides
      let dtype := input.representation.dtype
      let byteLen ← settle (dtype.byteLen pad.storageShape)
      let output ← newFacts input.logicalShape pad.storageShape input.logicalStrides
        storageStrides ⟨dtype, pad.targetLayout⟩ byteLen
      pure [output]

section Permutations

/-- Every axis of a complete permutation lies inside the rank. -/
theorem axis_lt {order : List Nat} (h : validatePermutation order = .ok ()) :
    ∀ axis ∈ order, axis < order.length := by
  intro axis ha
  exact List.mem_range.mp ((validatePermutation_ok h).2.mem_iff.mp ha)

theorem permuteShape_settles {order : List Nat} (shape : List Nat)
    (h : ∀ axis ∈ order, axis < shape.length) :
    Settles (permuteShape order shape) (.ok (Graph.permuteShape order shape)) :=
  Settles.of_mapM_value fun axis ha => Settles.of_index_getD 0 (h axis ha)

theorem scatterStep_settles {physical : List Nat} : ∀ {order : List Nat} {k : Nat}
    {strides : List Nat}, (∀ axis ∈ order, axis < strides.length) →
    k + order.length = physical.length →
    Settles ((order.zipIdx k).foldlM (scatterStep physical) strides)
      (.ok ((order.zip (physical.drop k)).foldl (fun strides x => strides.set x.1 x.2) strides))
  | [], k, strides, _, _ => Settles.of_pure strides
  | axis :: order, k, strides, h, hlen => by
    rw [List.length_cons] at hlen
    have hk : k < physical.length := by omega
    rw [List.zipIdx_cons, List.foldlM_cons, List.drop_eq_getElem_cons hk]
    refine Settles.bind_value (Settles.bind_value
      (Settles.of_index (List.getElem?_eq_getElem hk))
      (Settles.of_store _ (h axis (List.mem_cons_self ..)))) ?_
    refine scatterStep_settles (fun a ha => ?_) (by omega)
    rw [List.length_set]
    exact h a (List.mem_cons_of_mem _ ha)

theorem scatterStrides_settles {order physical : List Nat} (h : ∀ axis ∈ order, axis < order.length)
    (hlen : order.length = physical.length) :
    Settles (scatterStrides order physical) (.ok (Graph.scatterStrides order physical)) := by
  refine scatterStep_settles (fun axis ha => ?_) (by omega)
  rw [List.length_replicate]
  exact h axis ha

theorem contiguousStrides_length {shape strides : List Nat}
    (h : Graph.contiguousStrides shape = .ok strides) : strides.length = shape.length := by
  rw [contiguousStrides_ok h, Strided.length_rowMajor]

theorem inferPermute_settles (permute : Permute) (input : TensorFacts) :
    Settles (inferPermute permute input) (Graph.inferPermute permute input) := by
  refine Settles.bind (Settles.of_settle _) fun _ hvalid => ?_
  refine Settles.of_ite (fun _ => Settles.of_settle _) fun hrank => ?_
  rw [not_not] at hrank
  refine Settles.bind_value (Settles.of_settle _) ?_
  have haxes := axis_lt hvalid
  have hshape := permuteShape_settles input.logicalShape fun axis ha => by
    rw [← hrank]
    exact haxes axis ha
  cases permute.mode with
  | logical =>
    refine Settles.bind_value hshape ?_
    exact Settles.bind (contiguousFacts_settles _ _) fun _ _ => Settles.of_pure _
  | storage targetLayout =>
    refine Settles.of_ite (fun _ => Settles.of_settle _) fun _ => ?_
    refine Settles.bind_value hshape ?_
    refine Settles.bind (contiguousStrides_settles _) fun physical hphysical => ?_
    have hlen : permute.order.length = physical.length := by
      rw [contiguousStrides_length hphysical, Graph.permuteShape, List.length_map]
    refine Settles.bind_value (scatterStrides_settles haxes hlen) ?_
    refine Settles.bind (Settles.of_settle _) fun _ _ => ?_
    exact Settles.bind (newFacts_settles _ _ _ _ _ _) fun _ _ => Settles.of_pure _

/-- The loop stops at the first axis that shrinks. -/
theorem paddingStep_settles {logical storage : List Nat} : ∀ {order : List Nat} {k : Nat}
    {hasPadding : Bool}, (∀ axis ∈ order, axis < logical.length) →
    k + order.length = storage.length →
    Settles ((order.zipIdx k).foldlM (paddingStep logical storage) hasPadding)
      (if ((Graph.permuteShape order logical).zip (storage.drop k)).any (fun x => x.2 < x.1) then
        .error (.binding "padded physical dimension is smaller than its logical dimension")
      else .ok (hasPadding ||
        ((Graph.permuteShape order logical).zip (storage.drop k)).any fun x => x.1 < x.2))
  | [], k, hasPadding, _, _ => by
    rw [Graph.permuteShape, List.map_nil, List.zip_nil_left, List.any_nil, List.any_nil,
      Bool.or_false]
    exact Settles.of_pure hasPadding
  | axis :: order, k, hasPadding, h, hlen => by
    rw [List.length_cons] at hlen
    have hk : k < storage.length := by omega
    have haxis := h axis (List.mem_cons_self ..)
    rw [List.zipIdx_cons, List.foldlM_cons, List.drop_eq_getElem_cons hk, Graph.permuteShape,
      List.map_cons, List.zip_cons_cons, List.any_cons, List.any_cons]
    have hstep : Settles (paddingStep logical storage hasPadding (axis, k))
        (if storage[k] < logical.getD axis 0 then
          .error (.binding "padded physical dimension is smaller than its logical dimension")
        else .ok (hasPadding || decide (logical.getD axis 0 < storage[k]))) := by
      refine Settles.bind_value (Settles.of_index_getD 0 haxis) ?_
      refine Settles.bind_value (Settles.of_index (List.getElem?_eq_getElem hk)) ?_
      exact Settles.of_ite (fun _ => Settles.of_settle _) fun _ => Settles.of_pure _
    by_cases hlt : storage[k] < logical.getD axis 0
    · rw [if_pos hlt] at hstep
      rw [decide_eq_true hlt, Bool.true_or, if_pos rfl]
      exact Settles.bind_error hstep
    · rw [if_neg hlt] at hstep
      rw [decide_eq_false hlt, Bool.false_or, ← Bool.or_assoc]
      exact Settles.bind_value hstep
        (paddingStep_settles (fun a ha => h a (List.mem_cons_of_mem _ ha)) (by omega))

theorem inferPad_settles (pad : Pad) (input : TensorFacts) :
    Settles (inferPad pad input) (Graph.inferPad pad input) := by
  refine Settles.bind (Settles.of_settle _) fun _ hvalid => ?_
  refine Settles.of_ite (fun _ => Settles.of_settle _) fun hrank => ?_
  rw [not_or, not_not, not_not] at hrank
  refine Settles.of_ite (fun _ => Settles.of_settle _) fun _ => ?_
  refine Settles.bind (Settles.of_settle _) fun order horder => ?_
  obtain rfl := Except.ok.inj horder
  dsimp only
  have haxes := axis_lt hvalid
  have hloop := @paddingStep_settles input.logicalShape pad.storageShape pad.order 0 false
    (fun axis ha => by rw [← hrank.1]; exact haxes axis ha) (by omega)
  rw [List.drop_zero, Bool.false_or] at hloop
  by_cases hsmall : ((Graph.permuteShape pad.order input.logicalShape).zip pad.storageShape).any
      (fun x => x.2 < x.1) = true
  · rw [if_pos hsmall] at hloop ⊢
    exact Settles.bind_error hloop
  · rw [if_neg hsmall] at hloop ⊢
    refine Settles.bind_value hloop ?_
    refine Settles.of_ite (fun _ => Settles.of_settle _) fun _ => ?_
    refine Settles.bind (contiguousStrides_settles _) fun physical hphysical => ?_
    have hlen : pad.order.length = physical.length := by
      rw [contiguousStrides_length hphysical, hrank.1, hrank.2]
    refine Settles.bind_value (scatterStrides_settles haxes hlen) ?_
    refine Settles.bind (Settles.of_settle _) fun _ _ => ?_
    exact Settles.bind (newFacts_settles _ _ _ _ _ _) fun _ _ => Settles.of_pure _

end Permutations

/-! ## Ranges -/

/-- The unchecked length of a range. -/
def rangeLen (r : AxisRange) : Run Error Nat := subtract r.stop r.start

def sliceStep (outputShape : List Nat) (x : AxisRange × Nat) : Run Error (List Nat) := do
  settle (validateRange x.1 x.2)
  let len ← rangeLen x.1
  pure (outputShape ++ [len])

def inferSlice (ranges : List AxisRange) (input : TensorFacts) : Run Error (List TensorFacts) :=
  if ranges.length ≠ input.logicalShape.length then
    settle (.error (.binding "slice must contain one range per logical input axis"))
  else do
    let outputShape ← (ranges.zip input.logicalShape).foldlM sliceStep []
    let output ← contiguousFacts outputShape (.contiguous input.representation.dtype)
    pure [output]

/-- One range of the loop of `infer_split`, with the end of the range before it. -/
def splitStep (input : TensorFacts) (axis : Nat) (state : Option Nat × List TensorFacts)
    (range : AxisRange) : Run Error (Option Nat × List TensorFacts) :=
  if range.isEmpty then settle (.error (.binding "split ranges must not be empty"))
  else do
    let dimension ← index input.logicalShape axis
    settle (validateRange range dimension)
    if state.1.any (range.start < ·) then
      settle (.error (.binding "split ranges must be ordered and non-overlapping"))
    else do
      let len ← rangeLen range
      let shape ← store input.logicalShape axis len
      let output ← contiguousFacts shape (.contiguous input.representation.dtype)
      pure (some range.stop, state.2 ++ [output])

def splitOutputs (input : TensorFacts) (axis : Nat) (ranges : List AxisRange) :
    Run Error (List TensorFacts) := do
  let state ← ranges.foldlM (splitStep input axis) (none, [])
  pure state.2

def inferSplit (split : Split) (input : TensorFacts) : Run Error (List TensorFacts) := do
  let axis ← settle (validateAxis split.axis input.logicalShape.length)
  let outputs ← splitOutputs input axis split.ranges
  if outputs = [] then
    settle (.error (.binding "split must contain at least one output range"))
  else pure outputs

section Ranges

theorem rangeLen_settles {r : AxisRange} {dimension : Nat}
    (h : validateRange r dimension = .ok ()) : Settles (rangeLen r) (.ok r.len) := by
  obtain ⟨hle, _⟩ := unless_error_ok h
  rw [not_or, Nat.not_lt] at hle
  exact Settles.of_subtract hle.1

theorem sliceStep_settles : ∀ {ranges : List AxisRange} {shape : List Nat} (out : List Nat),
    ranges.length = shape.length →
    Settles ((ranges.zip shape).foldlM sliceStep out)
      ((sliceLoop ranges shape).map fun rest => out ++ rest)
  | [], [], out, _ => by
    show some (Except.ok out) = some (Except.ok (out ++ []))
    rw [List.append_nil]
  | r :: ranges, d :: shape, out, h => by
    rw [List.zip_cons_cons, List.foldlM_cons, sliceLoop]
    cases hrange : validateRange r d with
    | error e =>
      have hstep : Settles (sliceStep out (r, d)) (.error e) := by
        refine Settles.bind_error ?_
        rw [← hrange]
        exact Settles.of_settle _
      exact Settles.bind_error hstep
    | ok u =>
      have hstep : Settles (sliceStep out (r, d)) (.ok (out ++ [r.len])) := by
        refine Settles.bind_value (a := ()) ?_ ?_
        · rw [← hrange]
          exact Settles.of_settle _
        · exact Settles.bind_value (rangeLen_settles hrange) (Settles.of_pure _)
      refine Settles.bind_value hstep ?_
      have ih := @sliceStep_settles ranges shape (out ++ [r.len]) (Nat.succ.inj h)
      show Settles _ (Except.map _ (sliceLoop ranges shape >>= fun rest => .ok (r.len :: rest)))
      cases hrest : sliceLoop ranges shape with
      | error e =>
        rw [hrest] at ih
        exact ih
      | ok rest =>
        rw [hrest] at ih
        have happend : out ++ [r.len] ++ rest = out ++ r.len :: rest := by
          rw [List.append_assoc]
          rfl
        rw [Except.map, happend] at ih
        exact ih

theorem inferSlice_settles (ranges : List AxisRange) (input : TensorFacts) :
    Settles (inferSlice ranges input) (Graph.inferSlice ranges input) := by
  refine Settles.of_ite (fun _ => Settles.of_settle _) fun hlen => ?_
  refine Settles.bind_map (sliceStep_settles [] (not_not.mp hlen)) fun shape _ => ?_
  exact Settles.bind (contiguousFacts_settles _ _) fun _ _ => Settles.of_pure _

/-- One output of `inferSplitLoop`. -/
def splitOutput (input : TensorFacts) (axis : Nat) (previousEnd : Option Nat)
    (range : AxisRange) : Result TensorFacts :=
  if range.isEmpty then .error (.binding "split ranges must not be empty")
  else do
    validateRange range (input.logicalShape.getD axis 0)
    if previousEnd.any (range.start < ·) then
      .error (.binding "split ranges must be ordered and non-overlapping")
    else
      TensorFacts.contiguous (input.logicalShape.set axis range.len)
        (.contiguous input.representation.dtype)

theorem inferSplitLoop_cons (input : TensorFacts) (axis : Nat) (previousEnd : Option Nat)
    (range : AxisRange) (ranges : List AxisRange) :
    inferSplitLoop input axis previousEnd (range :: ranges) =
      splitOutput input axis previousEnd range >>= fun output =>
        inferSplitLoop input axis (some range.stop) ranges >>= fun outputs =>
          .ok (output :: outputs) := by
  rw [inferSplitLoop, splitOutput]
  split
  · rfl
  · cases validateRange range (input.logicalShape.getD axis 0) with
    | error e => rfl
    | ok u =>
      show (if _ then _ else _) = ((if _ then _ else _) >>= _)
      split
      · rfl
      · rfl

theorem splitStep_settles {input : TensorFacts} {axis : Nat}
    (haxis : axis < input.logicalShape.length) (previousEnd : Option Nat)
    (outputs : List TensorFacts) (range : AxisRange) :
    Settles (splitStep input axis (previousEnd, outputs) range)
      ((splitOutput input axis previousEnd range).map fun output =>
        (some range.stop, outputs ++ [output])) := by
  have hindex := Settles.of_index_getD (ε := Error) 0 haxis
  unfold splitStep splitOutput
  split
  · exact Settles.of_settle _
  · refine Settles.bind_value hindex ?_
    cases hrange : validateRange range (input.logicalShape.getD axis 0) with
    | error e => exact Settles.bind_error (Settles.of_settle _)
    | ok u =>
      refine Settles.bind_value (Settles.of_settle _) ?_
      show Settles (if _ then _ else _) (Except.map _ (if _ then _ else _))
      split
      · exact Settles.of_settle _
      · refine Settles.bind_value (rangeLen_settles hrange) ?_
        refine Settles.bind_value (Settles.of_store _ haxis) ?_
        have hfacts := contiguousFacts_settles (input.logicalShape.set axis range.len)
          (.contiguous input.representation.dtype)
        cases houtput : TensorFacts.contiguous (input.logicalShape.set axis range.len)
            (.contiguous input.representation.dtype) with
        | error e =>
          rw [houtput] at hfacts
          exact Settles.bind_error hfacts
        | ok output =>
          rw [houtput] at hfacts
          exact Settles.bind_value hfacts (Settles.of_pure _)

theorem splitLoop_settles {input : TensorFacts} {axis : Nat}
    (haxis : axis < input.logicalShape.length) : ∀ {ranges : List AxisRange}
    {previousEnd : Option Nat} {outputs : List TensorFacts},
    Settles (ranges.foldlM (splitStep input axis) (previousEnd, outputs) >>= fun s => pure s.2)
      ((inferSplitLoop input axis previousEnd ranges).map fun rest => outputs ++ rest)
  | [], previousEnd, outputs => by
    show some (Except.ok outputs) = some (Except.ok (outputs ++ []))
    rw [List.append_nil]
  | range :: ranges, previousEnd, outputs => by
    rw [List.foldlM_cons, bind_assoc, inferSplitLoop_cons]
    have hstep := splitStep_settles haxis previousEnd outputs range
    cases houtput : splitOutput input axis previousEnd range with
    | error e =>
      rw [houtput] at hstep
      exact Settles.bind_error hstep
    | ok output =>
      rw [houtput] at hstep
      refine Settles.bind_value hstep ?_
      have ih := @splitLoop_settles input axis haxis ranges (some range.stop) (outputs ++ [output])
      show Settles _ (Except.map _ (inferSplitLoop _ _ _ _ >>= fun rest => .ok (output :: rest)))
      cases hrest : inferSplitLoop input axis (some range.stop) ranges with
      | error e =>
        rw [hrest] at ih
        exact ih
      | ok rest =>
        have happend : outputs ++ [output] ++ rest = outputs ++ output :: rest := by
          rw [List.append_assoc]
          rfl
        rw [hrest, Except.map, happend] at ih
        exact ih

theorem inferSplit_settles (split : Split) (input : TensorFacts) :
    Settles (inferSplit split input) (Graph.inferSplit split input) := by
  refine Settles.bind (Settles.of_settle _) fun axis haxis => ?_
  obtain ⟨hlt, haxis⟩ := unless_error_ok haxis
  obtain rfl := Except.ok.inj haxis
  have hloop := @splitLoop_settles input split.axis (Nat.not_le.mp hlt) split.ranges none []
  refine Settles.bind_map hloop fun outputs _ => ?_
  rw [List.nil_append]
  exact Settles.of_ite (fun _ => Settles.of_settle _) fun _ => Settles.of_pure _

end Ranges

/-! ## Concatenation -/

/-- One input of the loop of `infer_concat`, which keeps the whole output shape. -/
def concatStep (first : TensorFacts) (axis : Nat) (outputShape : List Nat) (input : TensorFacts) :
    Run Error (List Nat) :=
  if input.logicalShape.length ≠ first.logicalShape.length then
    settle (.error (.binding "concatenation inputs must have equal ranks"))
  else if input.representation.dtype ≠ first.representation.dtype then
    settle (.error (.binding "concatenation inputs must have equal scalar dtypes"))
  else if (input.logicalShape.zip first.logicalShape).zipIdx.any
      (fun x => x.2 ≠ axis ∧ x.1.1 ≠ x.1.2) then
    settle (.error (.binding "concatenation input dimensions disagree outside the selected axis"))
  else do
    let length ← index outputShape axis
    let dimension ← index input.logicalShape axis
    let next ← settle (okOr (checkedAdd length dimension)
      (.limit "concatenated axis length overflows u64"))
    store outputShape axis next

def inferConcat (axis : Nat) (inputs : List TensorFacts) : Run Error (List TensorFacts) :=
  if inputs.length < 2 then
    settle (.error (.binding "concatenation requires at least two ordered inputs"))
  else do
    let first ← index inputs 0
    let axis ← settle (validateAxis axis first.logicalShape.length)
    let outputShape ← store first.logicalShape axis 0
    let outputShape ← inputs.foldlM (concatStep first axis) outputShape
    let output ← contiguousFacts outputShape (.contiguous first.representation.dtype)
    pure [output]

section Concatenation

theorem concatStep_settles {first : TensorFacts} {axis : Nat}
    (haxis : axis < first.logicalShape.length) : ∀ {inputs : List TensorFacts} {length : Nat},
    Settles (inputs.foldlM (concatStep first axis) (first.logicalShape.set axis length))
      ((concatLoop first axis length inputs).map (first.logicalShape.set axis))
  | [], length => Settles.of_pure _
  | input :: inputs, length => by
    rw [List.foldlM_cons, concatLoop, concatStep]
    split
    · exact Settles.bind_error (Settles.of_settle _)
    · next hrank =>
      rw [not_not] at hrank
      split
      · exact Settles.bind_error (Settles.of_settle _)
      · split
        · exact Settles.bind_error (Settles.of_settle _)
        · have hset : axis < (first.logicalShape.set axis length).length := by
            rwa [List.length_set]
          have hlength : (first.logicalShape.set axis length)[axis]? = some length :=
            List.getElem?_set_self haxis
          rw [bind_assoc]
          refine Settles.bind_value (Settles.of_index hlength) ?_
          rw [bind_assoc]
          refine Settles.bind_value (Settles.of_index_getD 0 (by rwa [hrank])) ?_
          rw [bind_assoc]
          cases okOr (checkedAdd length (input.logicalShape.getD axis 0))
              (.limit "concatenated axis length overflows u64") with
          | error e => exact Settles.bind_error (Settles.of_settle _)
          | ok next =>
            refine Settles.bind_value (Settles.of_settle _) ?_
            refine Settles.bind_value (Settles.of_store _ hset) ?_
            rw [List.set_set]
            exact concatStep_settles haxis

theorem inferConcat_settles (axis : Nat) (inputs : List TensorFacts) :
    Settles (inferConcat axis inputs) (Graph.inferConcat axis inputs) := by
  match inputs with
  | [] => exact Settles.of_settle _
  | [_] => exact Settles.of_settle _
  | first :: second :: rest =>
    refine Settles.bind_value (Settles.of_index (a := first) rfl) ?_
    refine Settles.bind (Settles.of_settle _) fun axis' haxis => ?_
    obtain ⟨hlt, haxis⟩ := unless_error_ok haxis
    obtain rfl := Except.ok.inj haxis
    rw [Nat.not_le] at hlt
    refine Settles.bind_value (Settles.of_store 0 hlt) ?_
    refine Settles.bind_map (concatStep_settles hlt) fun length _ => ?_
    exact Settles.bind (contiguousFacts_settles _ _) fun _ _ => Settles.of_pure _

end Concatenation

/-! ## The remaining operations -/

def inferReshape (shape : List Nat) (input : TensorFacts) : Run Error (List TensorFacts) := do
  let canonical ← isCanonicalContiguous input
  if canonical = false then
    settle (.error (.binding
      "metadata-only reshape requires canonical contiguous input storage"))
  else do
    settle (validateRank shape.length)
    let outputElements ← settle (checkedElementCount shape)
    if outputElements ≠ input.elementCount then
      settle (.error (.binding "reshape input and output element counts must be equal"))
    else do
      let output ← contiguousFacts shape input.representation
      pure [output]

def inferPrepare (transform : PlannedTransform) (input : TensorFacts) :
    Run Error (List TensorFacts) := do
  let canonical ← isCanonicalContiguous input
  if canonical = false then
    settle (.error (.binding
      "provider preparation requires canonical contiguous logical storage"))
  else if transform.transform.source ≠ input.representation then
    settle (.error (.binding
      "provider preparation source representation does not match its input"))
  else if transform.transform.source.layout.isContiguous = false ∨
      transform.transform.target.layout.isContiguous = false then
    settle (.error (.binding
      "graph preparation currently requires contiguous source and target layouts"))
  else do
    let expected ← settle (transform.transform.target.dtype.byteLen input.logicalShape)
    if transform.outputSize ≠ expected then
      settle (.error (.binding s!"provider preparation records {transform.outputSize} output bytes, but inferred facts require {expected}"))
    else do
      let _ ← settle (validateHostLen transform.outputSize)
      let _ ← settle (validateHostLen transform.scratchBytes)
      let output ← contiguousFacts input.logicalShape transform.transform.target
      pure [output]

def inferOutputs (operation : Operation) (inputs : List TensorFacts) :
    Run Error (List TensorFacts) :=
  match operation with
  | .concat axis => inferConcat axis inputs
  | .permute permute => do inferPermute permute (← settle (oneInput inputs))
  | .pad pad => do inferPad pad (← settle (oneInput inputs))
  | .slice ranges => do inferSlice ranges (← settle (oneInput inputs))
  | .split split => do inferSplit split (← settle (oneInput inputs))
  | .reshape shape => do inferReshape shape (← settle (oneInput inputs))
  | .prepare transform => do inferPrepare transform (← settle (oneInput inputs))

section Operations

theorem inferReshape_settles (shape : List Nat) (input : TensorFacts) :
    Settles (inferReshape shape input) (Graph.inferReshape shape input) := by
  refine Settles.bind_value (isCanonicalContiguous_settles input) ?_
  refine Settles.of_ite (fun _ => Settles.of_settle _) fun _ => ?_
  refine Settles.bind (Settles.of_settle _) fun _ _ => ?_
  refine Settles.bind (Settles.of_settle _) fun _ _ => ?_
  refine Settles.of_ite (fun _ => Settles.of_settle _) fun _ => ?_
  exact Settles.bind (contiguousFacts_settles _ _) fun _ _ => Settles.of_pure _

theorem inferPrepare_settles (transform : PlannedTransform) (input : TensorFacts) :
    Settles (inferPrepare transform input) (Graph.inferPrepare transform input) := by
  refine Settles.bind_value (isCanonicalContiguous_settles input) ?_
  refine Settles.of_ite (fun _ => Settles.of_settle _) fun _ => ?_
  refine Settles.of_ite (fun _ => Settles.of_settle _) fun _ => ?_
  refine Settles.of_ite (fun _ => Settles.of_settle _) fun _ => ?_
  refine Settles.bind (Settles.of_settle _) fun _ _ => ?_
  refine Settles.of_ite (fun _ => Settles.of_settle _) fun _ => ?_
  refine Settles.bind (Settles.of_settle _) fun _ _ => ?_
  refine Settles.bind (Settles.of_settle _) fun _ _ => ?_
  exact Settles.bind (contiguousFacts_settles _ _) fun _ _ => Settles.of_pure _

/-- Inference never traps, whatever the parameters on the wire are. -/
theorem inferOutputs_settles (operation : Operation) (inputs : List TensorFacts) :
    Settles (inferOutputs operation inputs) (Graph.inferOutputs operation inputs) := by
  cases operation with
  | concat axis => exact inferConcat_settles axis inputs
  | permute permute =>
    exact Settles.bind (Settles.of_settle _) fun input _ => inferPermute_settles permute input
  | pad pad => exact Settles.bind (Settles.of_settle _) fun input _ => inferPad_settles pad input
  | slice ranges =>
    exact Settles.bind (Settles.of_settle _) fun input _ => inferSlice_settles ranges input
  | split split =>
    exact Settles.bind (Settles.of_settle _) fun input _ => inferSplit_settles split input
  | reshape shape =>
    exact Settles.bind (Settles.of_settle _) fun input _ => inferReshape_settles shape input
  | prepare transform =>
    exact Settles.bind (Settles.of_settle _) fun input _ => inferPrepare_settles transform input

end Operations

/-! ## Graphs -/

/-- The node is added with the outputs that inference has found. -/
def addOperation (b : OperationGraphBuilder) (implementation : ImplementationId)
    (operation : Operation) (inputs : List ValueRef) :
    Run Error (OperationGraphBuilder × List ValueRef) := do
  let facts ← settle (inputFacts b.inputs b.nodes inputs)
  let _ ← inferOutputs operation facts
  settle (b.addOperation implementation operation inputs)

def tryFrom (wire : OperationGraphWire) : Run Error OperationGraph :=
  if wire.schemaVersion ≠ operationGraphSchemaVersion then
    settle (.error (.binding
      s!"unsupported operation graph schema version {wire.schemaVersion}"))
  else do
    let builder ← wire.inputs.foldlM (fun (b : OperationGraphBuilder) input => do
      let (b, _) ← settle (b.addInput input.name input.facts)
      pure b) .new
    let builder ← wire.nodes.foldlM (fun (b : OperationGraphBuilder) node => do
      let (b, _) ← addOperation b node.implementation node.operation node.inputs
      pure b) builder
    settle (builder.build wire.output)

section Graphs

theorem addOperation_settles (b : OperationGraphBuilder) (implementation : ImplementationId)
    (operation : Operation) (inputs : List ValueRef) :
    Settles (addOperation b implementation operation inputs)
      (b.addOperation implementation operation inputs) := by
  unfold addOperation
  cases hfacts : inputFacts b.inputs b.nodes inputs with
  | error e =>
    have hadd : b.addOperation implementation operation inputs = .error e := by
      unfold OperationGraphBuilder.addOperation
      split
      · next h => rw [hfacts] at h; rw [Except.error.inj h]
      · next h => rw [hfacts] at h; cases h
    rw [hadd]
    exact Settles.bind_error (Settles.of_settle _)
  | ok facts =>
    refine Settles.bind_value (Settles.of_settle _) ?_
    have hinfer := inferOutputs_settles operation facts
    cases houtputs : Graph.inferOutputs operation facts with
    | error e =>
      rw [houtputs] at hinfer
      have hadd : b.addOperation implementation operation inputs = .error e := by
        unfold OperationGraphBuilder.addOperation
        split
        · next h => rw [hfacts] at h; cases h
        · next h =>
          obtain rfl := Except.ok.inj (hfacts.symm.trans h)
          split
          · next h => rw [houtputs] at h; rw [Except.error.inj h]
          · next h => rw [houtputs] at h; cases h
      rw [hadd]
      exact Settles.bind_error hinfer
    | ok outputs =>
      rw [houtputs] at hinfer
      exact Settles.bind_value hinfer (Settles.of_settle _)

/-- Replaying a graph from the wire never traps. -/
theorem tryFrom_settles (wire : OperationGraphWire) :
    Settles (tryFrom wire) (OperationGraph.tryFrom wire) := by
  refine Settles.of_ite (fun _ => Settles.of_settle _) fun _ => ?_
  refine Settles.bind (Settles.of_foldlM fun b input _ => ?_) fun _ _ => ?_
  · exact Settles.bind (Settles.of_settle _) fun _ _ => Settles.of_pure _
  · refine Settles.bind (Settles.of_foldlM fun b node _ => ?_) fun _ _ => Settles.of_settle _
    exact Settles.bind (addOperation_settles _ _ _ _) fun _ _ => Settles.of_pure _

end Graphs

end ModelWeights.Graph.Traps
