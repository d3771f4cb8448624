import ModelWeights.Graph.ConcatLayout
import ModelWeights.Graph.ChannelLayout
import ModelWeights.Graph.Execute

/-! # What inference establishes

For each operation, what a successful `infer_*` says about its output facts, in
the terms the kernels' layout theorems ask for. -/
namespace ModelWeights.Graph
open Strided

theorem width_eq_of_dtype {f g : TensorFacts}
    (h : f.representation.dtype = g.representation.dtype) : f.width = g.width := by
  rw [TensorFacts.width, TensorFacts.width, h]

/-- Facts without padding. -/
def TensorFacts.Dense (f : TensorFacts) : Prop := f.storageShape.prod = f.logicalShape.prod

theorem TensorFacts.contiguous_dense {shape : List Nat} {r : Representation} {f : TensorFacts}
    (h : TensorFacts.contiguous shape r = .ok f) : f.Dense := by
  obtain ⟨hl, hs, _⟩ := TensorFacts.contiguous_ok h
  rw [TensorFacts.Dense, hl, hs]

/-! ## Concatenation -/

theorem concatLoop_ok {first : TensorFacts} {axis : Nat} :
    ∀ {inputs : List TensorFacts} {n r : Nat}, concatLoop first axis n inputs = .ok r →
      r = n + (inputs.map fun f => f.logicalShape.getD axis 0).sum ∧
      ∀ f ∈ inputs, f.logicalShape.length = first.logicalShape.length ∧
        f.representation.dtype = first.representation.dtype ∧
        ∀ i, i ≠ axis → f.logicalShape[i]? = first.logicalShape[i]?
  | [], n, r, h => by
    rw [← Except.ok.inj h]; simp
  | f :: rest, n, r, h => by
    rw [concatLoop] at h
    obtain ⟨hrank, h⟩ := unless_error_ok h
    obtain ⟨hdtype, h⟩ := unless_error_ok h
    obtain ⟨hdims, h⟩ := unless_error_ok h
    obtain ⟨next, hnext, h⟩ := bind_ok h
    have hnext := (checkedAdd_eq_some.mp (okOr_eq_ok.mp hnext)).2
    obtain ⟨hr, hall⟩ := concatLoop_ok h
    have hrank : f.logicalShape.length = first.logicalShape.length := by simpa using hrank
    refine ⟨by rw [hr, hnext, List.map_cons, List.sum_cons, Nat.add_assoc], ?_⟩
    intro g hg
    rcases List.mem_cons.mp hg with rfl | hg
    · refine ⟨hrank, by simpa using hdtype, fun i hi => ?_⟩
      rcases Nat.lt_or_ge i g.logicalShape.length with hlt | hge
      · have hlt' : i < first.logicalShape.length := by omega
        -- the check of `infer_concat` at position `i`
        by_contra hne
        apply hdims
        rw [List.any_eq_true]
        refine ⟨((g.logicalShape[i], first.logicalShape[i]), i), ?_, ?_⟩
        · rw [List.mk_mem_zipIdx_iff_getElem?]
          simp [hlt, hlt']
        · simpa [List.getElem?_eq_getElem hlt, List.getElem?_eq_getElem hlt', hi] using hne
      · rw [List.getElem?_eq_none hge, List.getElem?_eq_none (by omega)]
    · exact hall g hg

theorem inferConcat_ok {axis : Nat} {inputs outs : List TensorFacts}
    (h : inferConcat axis inputs = .ok outs) :
    ∃ o, outs = [o] ∧ Concatenated axis inputs o ∧ o.Dense := by
  unfold inferConcat at h
  split at h
  · next first second rest =>
    obtain ⟨axis', haxis, h⟩ := bind_ok h
    obtain ⟨hax, haxis⟩ := unless_error_ok haxis
    obtain rfl : axis = axis' := Except.ok.inj haxis
    obtain ⟨len, hlen, h⟩ := bind_ok h
    obtain ⟨o, ho, h⟩ := bind_ok h
    obtain ⟨hsum, hall⟩ := concatLoop_ok hlen
    obtain ⟨hl, _, _, _, hrep, _⟩ := TensorFacts.contiguous_ok ho
    refine ⟨o, (Except.ok.inj h).symm, ⟨?_, ?_, ?_, ?_, ?_⟩, TensorFacts.contiguous_dense ho⟩
    · rw [hl, List.length_set]; omega
    · intro f hf
      rw [hl, List.length_set, (hall f hf).1]
    · intro f hf i hi
      rw [hl, List.getElem?_set_ne (Ne.symm hi), (hall f hf).2.2 i hi]
    · intro f hf
      apply width_eq_of_dtype
      rw [hrep, (hall f hf).2.1]
      rfl
    · rw [hl, List.getElem?_set_self (by omega), hsum, Nat.zero_add]
  · cases h

/-! ## Unary operations -/

section Unary
variable {f : TensorFacts} {outs : List TensorFacts}

theorem isIdentityOrder_eq {order : List Nat} (h : isIdentityOrder order = true) :
    order = List.range order.length := by
  apply List.ext_getElem?
  intro i
  rcases Nat.lt_or_ge i order.length with hi | hi
  · rw [isIdentityOrder, List.all_eq_true] at h
    have := h (order[i], i) (by
      rw [List.mk_mem_zipIdx_iff_getElem?]; exact List.getElem?_eq_getElem hi)
    rw [List.getElem?_range hi, List.getElem?_eq_getElem hi]
    simpa using this
  · rw [List.getElem?_eq_none hi, List.getElem?_eq_none (by simpa using hi)]

/-- The facts of a permuted output. -/
structure Permuted (permute : Permute) (f o : TensorFacts) : Prop where
  valid : validatePermutation permute.order = .ok ()
  rank : permute.order.length = f.logicalShape.length
  width : f.width = o.width
  dense : o.Dense
  logical : permute.mode = .logical →
    o.logicalShape = permuteShape permute.order f.logicalShape
  storage : permute.mode.isStorage = true → o.logicalShape = f.logicalShape ∧
    o.storageShape = permuteShape permute.order f.logicalShape ∧
    o.storageStrides = scatterStrides permute.order (rowMajor o.storageShape)

theorem permuteShape_prod {order shape : List Nat}
    (hp : order.Perm (List.range order.length)) (hlen : order.length = shape.length) :
    (permuteShape order shape).prod = shape.prod := by
  have hshape : shape = (List.range order.length).map fun axis => shape.getD axis 0 := by
    apply List.ext_getElem?
    intro i
    rcases Nat.lt_or_ge i shape.length with hi | hi
    · simp [List.getElem?_range (show i < order.length by omega), List.getElem?_eq_getElem hi]
    · rw [List.getElem?_eq_none hi, List.getElem?_eq_none (by simpa [hlen] using hi)]
  conv_rhs => rw [hshape]
  exact (hp.map _).prod_eq

theorem inferPermute_ok {permute : Permute} (h : inferPermute permute f = .ok outs) :
    ∃ o, outs = [o] ∧ Permuted permute f o := by
  obtain ⟨⟨⟩, hvalid, h⟩ := bind_ok h
  obtain ⟨hrank, h⟩ := unless_error_ok h
  have hrank : permute.order.length = f.logicalShape.length := by simpa using hrank
  obtain ⟨order, horder, h⟩ := bind_ok h
  obtain rfl := Except.ok.inj horder
  cases hm : permute.mode with
  | logical =>
    rw [hm] at h
    obtain ⟨o, ho, h⟩ := bind_ok h
    obtain ⟨hl, _, _, _, hrep, _⟩ := TensorFacts.contiguous_ok ho
    refine ⟨o, (Except.ok.inj h).symm, hvalid, hrank, ?_, TensorFacts.contiguous_dense ho,
      fun _ => hl, fun hs => by rw [hm] at hs; cases hs⟩
    apply width_eq_of_dtype
    rw [hrep]
    rfl
  | storage layout =>
    rw [hm] at h
    obtain ⟨_, h⟩ := unless_error_ok h
    obtain ⟨physical, hphys, h⟩ := bind_ok h
    obtain ⟨_, _, h⟩ := bind_ok h
    obtain ⟨o, ho, h⟩ := bind_ok h
    obtain ⟨hl, hs, _, hst, hrep, _⟩ := TensorFacts.new_ok ho
    have hphys := contiguousStrides_ok hphys
    refine ⟨o, (Except.ok.inj h).symm, hvalid, hrank, ?_, ?_,
      fun hlog => absurd (hm.symm.trans hlog) (by simp),
      fun _ => ⟨hl, hs, by rw [hst, hphys, hs]⟩⟩
    · apply width_eq_of_dtype
      rw [hrep]
    · rw [TensorFacts.Dense, hl, hs,
        permuteShape_prod (validatePermutation_ok hvalid).2 hrank]

theorem inferPad_ok {pad : Pad} (h : inferPad pad f = .ok outs) :
    ∃ o, outs = [o] ∧ o.logicalShape = f.logicalShape ∧ f.width = o.width := by
  obtain ⟨_, _, h⟩ := bind_ok h
  obtain ⟨_, h⟩ := unless_error_ok h
  obtain ⟨_, h⟩ := unless_error_ok h
  obtain ⟨order, _, h⟩ := bind_ok h
  obtain ⟨_, h⟩ := unless_error_ok h
  obtain ⟨_, h⟩ := unless_error_ok h
  obtain ⟨_, _, h⟩ := bind_ok h
  obtain ⟨_, _, h⟩ := bind_ok h
  obtain ⟨o, ho, h⟩ := bind_ok h
  obtain ⟨hl, _, _, _, hrep, _⟩ := TensorFacts.new_ok ho
  refine ⟨o, (Except.ok.inj h).symm, hl, width_eq_of_dtype ?_⟩
  rw [hrep]

theorem sliceLoop_ok : ∀ {ranges : List AxisRange} {shape out : List Nat},
    ranges.length = shape.length → sliceLoop ranges shape = .ok out → Sliced ranges shape out
  | [], [], out, _, h => by
    rw [← Except.ok.inj h]
    exact ⟨rfl, rfl, fun i r hr => by simp at hr⟩
  | range :: ranges, d :: shape, out, hl, h => by
    rw [sliceLoop] at h
    obtain ⟨_, hrange, h⟩ := bind_ok h
    obtain ⟨rest, hrest, h⟩ := bind_ok h
    obtain ⟨hin, _⟩ := unless_error_ok hrange
    have ih := sliceLoop_ok (by simpa using hl) hrest
    rw [← Except.ok.inj h]
    refine ⟨hl, by rw [ih.outShape]; rfl, ?_⟩
    intro i r hi
    cases i with
    | zero =>
      obtain rfl : range = r := by simpa using hi
      refine ⟨by omega, fun x hx => ?_⟩
      obtain rfl : d = x := by simpa using hx
      omega
    | succ i => exact ih.inside i r (by simpa using hi)

theorem inferSlice_ok {ranges : List AxisRange} (h : inferSlice ranges f = .ok outs) :
    ∃ o, outs = [o] ∧ Sliced ranges f.logicalShape o.logicalShape ∧ f.width = o.width := by
  unfold inferSlice at h
  obtain ⟨hlen, h⟩ := unless_error_ok h
  obtain ⟨shape, hshape, h⟩ := bind_ok h
  obtain ⟨o, ho, h⟩ := bind_ok h
  obtain ⟨hl, _, _, _, hrep, _⟩ := TensorFacts.contiguous_ok ho
  refine ⟨o, (Except.ok.inj h).symm, ?_, width_eq_of_dtype (by rw [hrep]; rfl)⟩
  rw [hl]
  exact sliceLoop_ok (by simpa using hlen) hshape

/-- The facts of one split output. -/
structure SplitOutput (axis : Nat) (f : TensorFacts) (range : AxisRange) (o : TensorFacts) :
    Prop where
  start : range.start ≤ range.stop
  stop : range.stop ≤ f.logicalShape.getD axis 0
  shape : o.logicalShape = f.logicalShape.set axis range.len
  width : f.width = o.width

theorem inferSplitLoop_ok {axis : Nat} : ∀ {ranges : List AxisRange} {previous : Option Nat}
    {outs : List TensorFacts}, inferSplitLoop f axis previous ranges = .ok outs →
      List.Forall₂ (SplitOutput axis f) ranges outs
  | [], _, outs, h => by rw [← Except.ok.inj h]; exact .nil
  | range :: rest, previous, outs, h => by
    rw [inferSplitLoop] at h
    obtain ⟨_, h⟩ := unless_error_ok h
    obtain ⟨_, hrange, h⟩ := bind_ok h
    obtain ⟨_, h⟩ := unless_error_ok h
    obtain ⟨o, ho, h⟩ := bind_ok h
    obtain ⟨more, hmore, h⟩ := bind_ok h
    obtain ⟨hin, _⟩ := unless_error_ok hrange
    obtain ⟨hl, _, _, _, hrep, _⟩ := TensorFacts.contiguous_ok ho
    rw [← Except.ok.inj h]
    refine .cons ⟨by omega, by omega, hl, width_eq_of_dtype (by rw [hrep]; rfl)⟩
      (inferSplitLoop_ok hmore)

theorem inferSplit_ok {split : Split} (h : inferSplit split f = .ok outs) :
    split.axis < f.logicalShape.length ∧
      List.Forall₂ (SplitOutput split.axis f) split.ranges outs := by
  obtain ⟨axis, haxis, h⟩ := bind_ok h
  obtain ⟨hlt, haxis⟩ := unless_error_ok haxis
  obtain rfl : split.axis = axis := Except.ok.inj haxis
  obtain ⟨o, ho, h⟩ := bind_ok h
  obtain ⟨_, h⟩ := unless_error_ok h
  rw [← Except.ok.inj h]
  exact ⟨by omega, inferSplitLoop_ok ho⟩

theorem SplitOutput.sliced {axis : Nat} {range : AxisRange} {o : TensorFacts}
    (h : SplitOutput axis f range o) (hax : axis < f.logicalShape.length) :
    Sliced (splitRanges axis range f.logicalShape) f.logicalShape o.logicalShape := by
  unfold splitRanges
  refine ⟨by simp, ?_, ?_⟩
  · rw [h.shape]
    apply List.ext_getElem?
    intro i
    by_cases hi : axis = i
    · subst hi; simp [hax]
    · simp [List.getElem?_set_ne hi, AxisRange.len, Function.comp_def]
  · intro i r hi
    by_cases he : axis = i
    · subst he
      obtain rfl : range = r := by simpa [hax] using hi
      refine ⟨h.start, fun d hd => ?_⟩
      have := h.stop
      simpa [hd] using this
    · rw [List.getElem?_set_ne he, List.getElem?_map, Option.map_eq_some_iff] at hi
      obtain ⟨d, hd, rfl⟩ := hi
      refine ⟨Nat.zero_le _, fun x hx => ?_⟩
      rw [hd] at hx
      exact Nat.le_of_eq (Option.some.inj hx)

theorem inferReshape_ok {shape : List Nat} (h : inferReshape shape f = .ok outs) :
    f.isCanonicalContiguous = true ∧ ∃ o, outs = [o] ∧ o.logicalShape = shape ∧ o.Dense ∧
      o.storageStrides = rowMajor shape ∧ shape.prod = f.logicalShape.prod ∧
      f.width = o.width := by
  unfold inferReshape at h
  obtain ⟨hcont, h⟩ := unless_error_ok h
  obtain ⟨_, _, h⟩ := bind_ok h
  obtain ⟨count, hcount, h⟩ := bind_ok h
  obtain ⟨heq, h⟩ := unless_error_ok h
  obtain ⟨o, ho, h⟩ := bind_ok h
  obtain ⟨hl, _, _, hst, hrep, _⟩ := TensorFacts.contiguous_ok ho
  have hcount := elementProduct_ok hcount
  have heq : count = f.elementCount := by simpa using heq
  refine ⟨by simpa using hcont, o, (Except.ok.inj h).symm, hl, TensorFacts.contiguous_dense ho,
    hst, ?_, width_eq_of_dtype (by rw [hrep])⟩
  rw [← hcount, heq, f.elementCount_eq]

theorem inferPrepare_ok {transform : PlannedTransform} (h : inferPrepare transform f = .ok outs) :
    f.isCanonicalContiguous = true ∧ ∃ o, outs = [o] ∧ o.Dense ∧
      o.logicalShape = f.logicalShape := by
  unfold inferPrepare at h
  obtain ⟨hcont, h⟩ := unless_error_ok h
  obtain ⟨_, h⟩ := unless_error_ok h
  obtain ⟨_, h⟩ := unless_error_ok h
  obtain ⟨_, _, h⟩ := bind_ok h
  obtain ⟨_, h⟩ := unless_error_ok h
  obtain ⟨_, _, h⟩ := bind_ok h
  obtain ⟨_, _, h⟩ := bind_ok h
  obtain ⟨o, ho, h⟩ := bind_ok h
  exact ⟨by simpa using hcont, o, (Except.ok.inj h).symm, TensorFacts.contiguous_dense ho,
    (TensorFacts.contiguous_ok ho).1⟩

end Unary

end ModelWeights.Graph
