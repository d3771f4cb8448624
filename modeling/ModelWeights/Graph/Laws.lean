import ModelWeights.Graph.DenseStrides
import ModelWeights.Graph.Correct
import ModelWeights.Graph.HostProgress
import ModelWeights.Plan.Replay

/-! # Laws of the structural operations

Splitting a tensor along an axis and concatenating the parts, and permuting its
axes forth and back, do not change its contents. The graph of each law takes any
admitted layout of a non-empty tensor to its row-major form. -/
namespace ModelWeights.Graph
open Strided Buffer

/-! ## Contents -/

/-- The ranges follow each other without a gap, and none is empty. -/
def Consecutive : Nat → Nat → List AxisRange → Prop
  | start, stop, [] => start = stop
  | start, stop, range :: rest =>
    range.start = start ∧ range.start < range.stop ∧ Consecutive range.stop stop rest

theorem Consecutive.le : ∀ {ranges : List AxisRange} {start stop : Nat},
    Consecutive start stop ranges → start ≤ stop
  | [], _, _, h => Nat.le_of_eq h
  | _ :: _, _, _, h => h.1 ▸ Nat.le_trans (Nat.le_of_lt h.2.1) h.2.2.le

/-- The axes back in the order they had before they were permuted by `order`. -/
def inverseOrder (order : List Nat) : List Nat := (List.range order.length).map order.idxOf

section Contents
variable {f : TensorFacts} {e : Elements} {axis : Nat}

/-- The facts that inference gives the part of a split. -/
def SplitPart (axis : Nat) (f : TensorFacts) (range : AxisRange) (o : TensorFacts) : Prop :=
  TensorFacts.contiguous (f.logicalShape.set axis range.len)
    (.contiguous f.representation.dtype) = .ok o

theorem SplitPart.axisLength {range : AxisRange} {o : TensorFacts} (h : SplitPart axis f range o)
    (haxis : axis < f.logicalShape.length) : o.logicalShape.getD axis 0 = range.len := by
  rw [(TensorFacts.contiguous_ok h).1, List.getD_eq_getElem?_getD, List.getElem?_set_self haxis,
    Option.getD_some]

/-- Parts in order are the contents from their start on. -/
theorem concatElements_split (haxis : axis < f.logicalShape.length) {ranges : List AxisRange}
    {outs : List TensorFacts} {start stop : Nat}
    (hparts : List.Forall₂ (SplitPart axis f) ranges outs) (h : Consecutive start stop ranges)
    {coord : List Nat} (hcoord : axis < coord.length) (hlt : start + coord.getD axis 0 < stop) :
    concatElements axis (outs.zip (ranges.map fun range => splitElements axis range e)) coord =
      e (coord.set axis (start + coord.getD axis 0)) := by
  induction hparts generalizing start coord with
  | nil =>
    have h : start = stop := h
    omega
  | @cons range o ranges outs hpart hparts ih =>
    obtain ⟨rfl, hrange, hrest⟩ := h
    have hlen : range.len = range.stop - range.start := rfl
    rw [List.map_cons, List.zip_cons_cons, concatElements, hpart.axisLength haxis]
    split
    · rfl
    · next hge =>
      have hget : (coord.set axis (coord.getD axis 0 - range.len)).getD axis 0 =
          coord.getD axis 0 - range.len := by
        rw [List.getD_eq_getElem?_getD, List.getElem?_set_self hcoord, Option.getD_some]
      have hsum : range.stop + (coord.getD axis 0 - range.len) =
          range.start + coord.getD axis 0 := by omega
      rw [ih hrest (by rwa [List.length_set]) (by rw [hget, hsum]; exact hlt), hget, hsum,
        List.set_set]

theorem set_getD_self {coord : List Nat} (h : axis < coord.length) :
    coord.set axis (coord.getD axis 0) = coord := by
  rw [List.getD_eq_getElem?_getD, List.getElem?_eq_getElem h, Option.getD_some,
    List.set_getElem_self]

theorem length_inverseOrder (order : List Nat) : (inverseOrder order).length = order.length := by
  rw [inverseOrder, List.length_map, List.length_range]

theorem inverseOrder_nodup {order : List Nat} (hp : order.Perm (List.range order.length)) :
    (inverseOrder order).Nodup := by
  refine (List.nodup_map_iff_inj_on List.nodup_range).mpr fun a ha b _ he => ?_
  exact (List.idxOf_inj (hp.mem_iff.mpr ha)).mp he

theorem inverseOrder_perm {order : List Nat} (hp : order.Perm (List.range order.length)) :
    (inverseOrder order).Perm (List.range (inverseOrder order).length) := by
  refine ((inverseOrder_nodup hp).subperm fun a ha => ?_).perm_of_length_le (by simp)
  obtain ⟨axis, haxis, rfl⟩ := List.mem_map.mp ha
  rw [length_inverseOrder, List.mem_range]
  exact List.idxOf_lt_length_of_mem (hp.mem_iff.mpr haxis)

/-- `inverseOrder` takes the axes back. -/
theorem permuteShape_inverse {order shape : List Nat}
    (hp : order.Perm (List.range order.length)) (hlen : order.length = shape.length) :
    permuteShape (inverseOrder order) (permuteShape order shape) = shape := by
  unfold permuteShape inverseOrder
  rw [List.map_map]
  apply List.ext_getElem?
  intro i
  rcases Nat.lt_or_ge i shape.length with hi | hi
  · have hmem : i ∈ order := hp.mem_iff.mpr (List.mem_range.mpr (hlen ▸ hi))
    have hidx := List.idxOf_lt_length_of_mem hmem
    rw [List.getElem?_map, List.getElem?_range (hlen ▸ hi), Option.map_some, Function.comp_apply,
      List.getD_eq_getElem?_getD, List.getElem?_map, List.getElem?_eq_getElem hidx,
      List.getElem_idxOf hidx, Option.map_some, Option.getD_some, List.getElem?_eq_getElem hi,
      List.getD_eq_getElem?_getD, List.getElem?_eq_getElem hi, Option.getD_some]
  · rw [List.getElem?_eq_none (by simpa [hlen] using hi), List.getElem?_eq_none hi]

theorem permuteElements_inverse {order coord : List Nat}
    (hp : order.Perm (List.range order.length)) (hlen : order.length = coord.length) :
    permuteElements (inverseOrder order) (permuteElements order e) coord = e coord := by
  unfold permuteElements
  rw [length_inverseOrder]
  congr 1
  apply List.ext_getElem?
  intro i
  rcases Nat.lt_or_ge i coord.length with hi | hi
  · have hmem : i ∈ order := hp.mem_iff.mpr (List.mem_range.mpr (hlen ▸ hi))
    have hidx := List.idxOf_lt_length_of_mem hmem
    have hinv : i < (inverseOrder order).length := by rw [length_inverseOrder, hlen]; exact hi
    have hget : (inverseOrder order)[i] = order.idxOf i := by
      simp only [inverseOrder, List.getElem_map, List.getElem_range]
    have hback : (inverseOrder order).idxOf (order.idxOf i) = i := by
      rw [← hget, (inverseOrder_nodup hp).idxOf_getElem]
    rw [List.getElem?_map, List.getElem?_range (hlen ▸ hi), Option.map_some,
      List.getD_eq_getElem?_getD, List.getElem?_map, List.getElem?_range hidx, Option.map_some,
      Option.getD_some, hback, List.getD_eq_getElem?_getD, List.getElem?_eq_getElem hi,
      Option.getD_some]
  · rw [List.getElem?_eq_none (by simpa [hlen] using hi), List.getElem?_eq_none hi]

end Contents

/-! ## Inference -/

section Inference
variable {f : TensorFacts} {axis : Nat} {shape : List Nat}

/-- A tensor has no more elements than its storage. -/
theorem TensorFacts.prod_le_storage (f : TensorFacts) :
    f.logicalShape.prod ≤ f.storageShape.prod := by
  have hsub : (coords f.logicalShape).map f.offset ⊆ List.range f.storageShape.prod := by
    intro p hp
    obtain ⟨c, hc, rfl⟩ := List.mem_map.mp hp
    exact List.mem_range.mpr (f.offset_lt (mem_coords.mp hc))
  have hle := (f.nodup_offsets.subperm hsub).length_le
  rwa [List.length_map, length_coords, List.length_range] at hle

/-- A part of a tensor has contiguous facts. -/
theorem part_contiguous (hrank : shape.length = f.logicalShape.length) (hne : shape.prod ≠ 0)
    (hle : shape.prod ≤ f.logicalShape.prod) :
    ∃ o, TensorFacts.contiguous shape (.contiguous f.representation.dtype) = .ok o := by
  refine TensorFacts.contiguous_succeeds (by rw [hrank]; exact f.rank_lt) hne ?_
  have hlen := f.byteLen_lt
  rw [f.spec.byteLen] at hlen
  exact Nat.lt_of_le_of_lt (Nat.mul_le_mul_right _ (Nat.le_trans hle f.prod_le_storage)) hlen

theorem prod_set_bounds {n : Nat} (haxis : axis < shape.length)
    (hne : shape.prod ≠ 0) (hn : n ≠ 0) (hle : n ≤ shape.getD axis 0) :
    (shape.set axis n).prod ≠ 0 ∧ (shape.set axis n).prod ≤ shape.prod := by
  have hself := List.prod_set shape axis (shape.getD axis 0)
  rw [set_getD_self haxis, if_pos haxis] at hself
  rw [List.prod_set, if_pos haxis]
  rw [hself] at hne ⊢
  exact ⟨Nat.mul_ne_zero (Nat.mul_ne_zero (Nat.ne_zero_of_mul_ne_zero_left
      (Nat.ne_zero_of_mul_ne_zero_left hne)) hn) (Nat.ne_zero_of_mul_ne_zero_right hne),
    Nat.mul_le_mul_right _ (Nat.mul_le_mul_left _ hle)⟩

theorem inferSplitLoop_consecutive (haxis : axis < f.logicalShape.length)
    (hne : f.logicalShape.prod ≠ 0) : ∀ {ranges : List AxisRange} (previous : Option Nat)
      {start stop : Nat}, Consecutive start stop ranges → (∀ p ∈ previous, p ≤ start) →
      stop ≤ f.logicalShape.getD axis 0 →
      ∃ outs, inferSplitLoop f axis previous ranges = .ok outs ∧
        List.Forall₂ (SplitPart axis f) ranges outs
  | [], _, _, _, _, _, _ => ⟨[], rfl, .nil⟩
  | range :: ranges, previous, start, stop, h, hprevious, hstop => by
    obtain ⟨rfl, hlt, hrest⟩ := h
    have hle := Nat.le_trans hrest.le hstop
    obtain ⟨outs, houts, hparts⟩ := inferSplitLoop_consecutive haxis hne (some range.stop) hrest
      (by simp) hstop
    have hlen : range.len = range.stop - range.start := rfl
    obtain ⟨hpart, hsmaller⟩ := prod_set_bounds haxis hne (n := range.len) (by omega) (by omega)
    obtain ⟨o, ho⟩ := part_contiguous (f := f) (by rw [List.length_set]) hpart hsmaller
    have hempty : range.isEmpty ≠ true := by
      rw [AxisRange.isEmpty, ne_eq, beq_iff_eq]
      exact Nat.ne_of_lt hlt
    have hvalid : validateRange range (f.logicalShape.getD axis 0) = .ok () :=
      if_neg (by omega)
    have hordered : ¬ previous.any (range.start < ·) = true := by
      cases previous with
      | none => exact nofun
      | some p =>
        have := hprevious p rfl
        simpa using this
    refine ⟨o :: outs, ?_, .cons ho hparts⟩
    rw [inferSplitLoop, if_neg hempty, hvalid]
    show (if _ then _ else _) = _
    rw [if_neg hordered, ho]
    show (inferSplitLoop f axis (some range.stop) ranges >>= fun _ => _) = _
    rw [houts]
    rfl

theorem concatLoop_split {first : TensorFacts} (haxis : axis < f.logicalShape.length)
    (hdtype : first.representation.dtype = f.representation.dtype) {n : Nat}
    (hfirst : first.logicalShape = f.logicalShape.set axis n) {ranges : List AxisRange}
    {outs : List TensorFacts} {start stop : Nat}
    (hparts : List.Forall₂ (SplitPart axis f) ranges outs) (h : Consecutive start stop ranges)
    (hfit : stop < u64Size) : concatLoop first axis start outs = .ok stop := by
  induction hparts generalizing start with
  | nil => exact congrArg Except.ok h
  | @cons range o ranges outs hpart hparts ih =>
    obtain ⟨rfl, hlt, hrest⟩ := h
    obtain ⟨hshape, _, _, _, hrep, _⟩ := TensorFacts.contiguous_ok hpart
    have hlen : range.len = range.stop - range.start := rfl
    have hle := hrest.le
    have hdims : ¬ (o.logicalShape.zip first.logicalShape).zipIdx.any
        (fun x => x.2 ≠ axis ∧ x.1.1 ≠ x.1.2) = true := by
      rw [List.any_eq_true]
      rintro ⟨⟨⟨a, b⟩, i⟩, hmem, hne⟩
      rw [List.mk_mem_zipIdx_iff_getElem?, List.getElem?_zip_eq_some, hshape, hfirst] at hmem
      simp only [decide_eq_true_eq] at hne
      rw [List.getElem?_set_ne (Ne.symm hne.1), List.getElem?_set_ne (Ne.symm hne.1)] at hmem
      exact hne.2 (Option.some.inj (hmem.1.symm.trans hmem.2))
    rw [concatLoop, if_neg (not_not.mpr (by rw [hshape, hfirst, List.length_set, List.length_set])),
      if_neg (not_not.mpr (by rw [hrep, hdtype]; rfl)), if_neg hdims, hpart.axisLength haxis,
      okOr_add _ (by omega), hlen, Nat.add_sub_cancel' (Nat.le_of_lt hlt)]
    exact ih hrest

theorem permutationLoop_succeeds : ∀ {order : List Nat} {seen : List Bool}, order.Nodup →
    (∀ axis ∈ order, seen[axis]? = some false) → permutationLoop order seen = .ok ()
  | [], _, _, _ => rfl
  | axis :: rest, seen, hn, hseen => by
    obtain ⟨hhead, hrest⟩ := List.nodup_cons.mp hn
    rw [permutationLoop, hseen axis (List.mem_cons_self ..)]
    refine permutationLoop_succeeds hrest fun b hb => ?_
    have hne : axis ≠ b := fun he => hhead (he ▸ hb)
    rw [List.getElem?_set_ne hne]
    exact hseen b (List.mem_cons_of_mem _ hb)

theorem validatePermutation_succeeds {order : List Nat} (hrank : order.length < 2 ^ 32)
    (hp : order.Perm (List.range order.length)) : validatePermutation order = .ok () := by
  have hok : validateRank order.length = .ok () := if_pos hrank
  unfold validatePermutation
  rw [hok]
  refine permutationLoop_succeeds (hp.nodup_iff.mpr List.nodup_range) fun axis ha => ?_
  rw [List.getElem?_replicate_of_lt (List.mem_range.mp (hp.mem_iff.mp ha))]

/-- Every permutation of the axes of a non-empty tensor is accepted. -/
theorem inferPermute_succeeds {order : List Nat} (hp : order.Perm (List.range order.length))
    (hrank : order.length = f.logicalShape.length) (hne : f.logicalShape.prod ≠ 0) :
    ∃ o, inferPermute ⟨order, .logical⟩ f = .ok [o] ∧
      TensorFacts.contiguous (permuteShape order f.logicalShape)
        (.contiguous f.representation.dtype) = .ok o := by
  have hprod := permuteShape_prod hp hrank
  have hlength : (permuteShape order f.logicalShape).length = f.logicalShape.length := by
    rw [permuteShape, List.length_map, hrank]
  obtain ⟨o, ho⟩ := part_contiguous hlength (hprod ▸ hne) (Nat.le_of_eq hprod)
  refine ⟨o, ?_, ho⟩
  unfold inferPermute
  rw [validatePermutation_succeeds (by rw [hrank]; exact f.rank_lt) hp]
  show (if _ then _ else _) = _
  rw [if_neg (not_not.mpr hrank)]
  show (TensorFacts.contiguous _ _ >>= fun _ => _) = _
  rw [ho]
  rfl

end Inference

/-! ## Graphs of two operations -/

/-- A graph that applies an operation to one tensor and another one to its outputs. -/
def chainWire (f : TensorFacts) (parts : Nat) (first second : ImplementationId × Operation) :
    OperationGraphWire where
  schemaVersion := operationGraphSchemaVersion
  inputs := [⟨⟨"tensor"⟩, f⟩]
  nodes := [⟨first.1, [.input 0], first.2⟩,
    ⟨second.1, (List.range parts).map (.nodeOutput 0), second.2⟩]
  output := .nodeOutput 1 0

/-- The nodes that inference makes of `chainWire`. -/
def chainNodes (outs : List TensorFacts) (o : TensorFacts)
    (first second : ImplementationId × Operation) : List OperationNode :=
  [⟨first.1, [.input 0], first.2, outs⟩,
    ⟨second.1, (List.range outs.length).map (.nodeOutput 0), second.2, [o]⟩]

theorem addOperation_succeeds {b : OperationGraphBuilder} (implementation : ImplementationId)
    {operation : Operation} {inputs : List ValueRef} {facts outputs : List TensorFacts}
    (hfacts : inputFacts b.inputs b.nodes inputs = .ok facts)
    (houtputs : inferOutputs operation facts = .ok outputs) (hnodes : b.nodes.length < 2 ^ 32)
    (hcount : outputs.length < 2 ^ 32) :
    ∃ x, b.addOperation implementation operation inputs = .ok x ∧ x.1.inputs = b.inputs ∧
      x.1.nodes = b.nodes ++ [⟨implementation, inputs, operation, outputs⟩] := by
  unfold OperationGraphBuilder.addOperation
  split
  · next h => rw [hfacts] at h; cases h
  · next facts' h =>
    obtain rfl := Except.ok.inj (hfacts.symm.trans h)
    split
    · next h => rw [houtputs] at h; cases h
    · next outputs' h =>
      obtain rfl := Except.ok.inj (houtputs.symm.trans h)
      rw [if_neg (Nat.not_le.mpr hnodes), if_neg (Nat.not_le.mpr hcount)]
      exact ⟨_, rfl, rfl, rfl⟩

theorem inputFacts_outputs {inputs : List OperationInput} {nodes : List OperationNode}
    {node : OperationNode} {k : Nat} (hk : nodes[k]? = some node) :
    inputFacts inputs nodes ((List.range node.outputs.length).map (.nodeOutput k)) =
      .ok node.outputs := by
  have hrun : Succeeds (inputFacts inputs nodes
      ((List.range node.outputs.length).map (.nodeOutput k))) (List.Forall₂
        (fun v f => factsOf inputs nodes v = some f)
        ((List.range node.outputs.length).map (.nodeOutput k))) := by
    refine Succeeds.mapM fun v hv => ?_
    obtain ⟨j, hj, rfl⟩ := List.mem_map.mp hv
    have hj := List.mem_range.mp hj
    have hfacts : factsOf inputs nodes (.nodeOutput k j) = some node.outputs[j] := by
      rw [factsOf, hk, Option.bind_some, List.getElem?_eq_getElem hj]
    exact Succeeds.of_eq (okOr_eq_ok.mpr hfacts) hfacts
  obtain ⟨fs, hfs, hall⟩ := hrun
  rw [hfs]
  congr 1
  have hlen := hall.length_eq
  rw [List.length_map, List.length_range] at hlen
  apply List.ext_getElem hlen.symm
  intro j hj hj'
  have := hall.get (by simpa using hj') hj
  rw [List.get_eq_getElem, List.get_eq_getElem, List.getElem_map, List.getElem_range, factsOf, hk,
    Option.bind_some, List.getElem?_eq_getElem hj'] at this
  exact (Option.some.inj this).symm

section Chain
variable {f o : TensorFacts} {outs : List TensorFacts}
  {first second : ImplementationId × Operation}

theorem chain_tryFrom (hfirst : inferOutputs first.2 [f] = .ok outs)
    (hcount : outs.length < 2 ^ 32) (hsecond : inferOutputs second.2 outs = .ok [o]) :
    ∃ graph, OperationGraph.tryFrom (chainWire f outs.length first second) = .ok graph ∧
      graph.inputs = [⟨⟨"tensor"⟩, f⟩] ∧ graph.nodes = chainNodes outs o first second ∧
      graph.output = .nodeOutput 1 0 := by
  obtain ⟨x₀, h₀, hi₀, hn₀⟩ : ∃ x, OperationGraphBuilder.new.addInput ⟨"tensor"⟩ f = .ok x ∧
      x.1.inputs = [⟨⟨"tensor"⟩, f⟩] ∧ x.1.nodes = [] := ⟨_, rfl, rfl, rfl⟩
  have hinput : inputFacts x₀.1.inputs x₀.1.nodes [.input 0] = .ok [f] := by
    rw [hi₀, hn₀]
    rfl
  obtain ⟨x₁, h₁, hi₁, hn₁⟩ := addOperation_succeeds first.1 hinput hfirst
    (by rw [hn₀, List.length_nil]; decide) hcount
  rw [hn₀, List.nil_append] at hn₁
  have hk : x₁.1.nodes[0]? = some ⟨first.1, [.input 0], first.2, outs⟩ := by rw [hn₁]; rfl
  obtain ⟨x₂, h₂, hi₂, hn₂⟩ := addOperation_succeeds second.1
    (inputFacts_outputs hk) hsecond (by rw [hn₁, List.length_singleton]; decide)
    (by rw [List.length_singleton]; decide)
  rw [hn₁] at hn₂
  have hfacts : (x₂.1.facts (.nodeOutput 1 0)).isSome = true := by
    rw [OperationGraphBuilder.facts, factsOf, hn₂]
    rfl
  refine ⟨⟨operationGraphSchemaVersion, x₂.1.inputs, x₂.1.nodes, .nodeOutput 1 0, x₂.1.namesNodup,
    x₂.1.inferred, hfacts⟩, ?_, hi₂.trans (hi₁.trans hi₀), hn₂, rfl⟩
  unfold OperationGraph.tryFrom chainWire
  rw [if_neg (not_not.mpr rfl)]
  simp only [List.foldlM_cons, List.foldlM_nil, h₀, bind_assoc]
  show (x₀.1.addOperation first.1 first.2 [.input 0] >>= fun _ => _) = _
  rw [h₁]
  show (x₁.1.addOperation second.1 second.2 _ >>= fun _ => _) = _
  rw [h₂]
  show x₂.1.build (.nodeOutput 1 0) = _
  unfold OperationGraphBuilder.build
  rw [dif_pos hfacts]

/-- The second operation takes the outputs of the first one back to the contents
they were made from. -/
structure TakesBack (f o : TensorFacts) (outs : List TensorFacts) (first second : Operation) :
    Prop where
  firstOutputs : inferOutputs first [f] = .ok outs
  secondOutputs : inferOutputs second outs = .ok [o]
  contiguous : TensorFacts.contiguous f.logicalShape (.contiguous f.representation.dtype) = .ok o
  contents : ∀ engine cancellation e, ∃ es back, es.length = outs.length ∧
    denoteOperation engine cancellation first [(f, e)] outs = es ∧
    denoteOperation engine cancellation second (outs.zip es) [o] = [back] ∧
    ∀ coord, InBounds f.logicalShape coord → back coord = e coord

theorem filterMap_range_zip {α β : Type} {d : β} : ∀ {as : List α} {bs : List β},
    bs.length = as.length →
    (List.range as.length).filterMap (fun j => (as[j]?).map fun a => (a, bs.getD j d)) = as.zip bs
  | [], _, _ => rfl
  | a :: as, b :: bs, h => by
    rw [List.length_cons, List.range_succ_eq_map, List.zip_cons_cons,
      ← filterMap_range_zip (d := d) (Nat.succ.inj h)]
    simp [List.filterMap_map]
  | _ :: _, [], h => by simp at h

/-- The meaning of the output of a chain. -/
theorem chain_denotes {graph : OperationGraph} {engine : PreparationEngine}
    {cancellation : CancellationToken} {view : ByteView}
    (hinputs : graph.inputs = [⟨⟨"tensor"⟩, f⟩])
    (hnodes : graph.nodes = chainNodes outs o first second)
    (h : TakesBack f o outs first.2 second.2) {coord : List Nat}
    (hcoord : InBounds f.logicalShape coord) :
    graph.denote engine cancellation [view] (.nodeOutput 1 0) coord =
      f.element view.bytes coord := by
  obtain ⟨es, back, hlen, hes, hback, hcontents⟩ :=
    h.contents engine cancellation (f.element view.bytes)
  have hinput : inputMeaning graph [view] (.input 0) = f.element view.bytes := by
    rw [inputMeaning, hinputs]
    rfl
  have hfirst : nodeInputs graph (inputMeaning graph [view])
      ⟨first.1, [.input 0], first.2, outs⟩ = [(f, f.element view.bytes)] := by
    have hfacts : graph.facts (.input 0) = some f := by
      rw [OperationGraph.facts, factsOf, hinputs]
      rfl
    rw [nodeInputs, List.filterMap_cons_some (by rw [hfacts]; rfl), hinput]
    rfl
  have hsecond : nodeInputs graph ((inputMeaning graph [view]).bindOutputs 0 es)
      ⟨second.1, (List.range outs.length).map (.nodeOutput 0), second.2, [o]⟩ = outs.zip es := by
    rw [nodeInputs, List.filterMap_map, ← filterMap_range_zip (d := fun _ => []) hlen]
    refine List.filterMap_congr fun j _ => ?_
    rw [Function.comp_apply, OperationGraph.facts, factsOf, hnodes]
    rfl
  unfold OperationGraph.denote
  rw [hnodes, chainNodes, denoteNodes, hfirst, hes, denoteNodes, hsecond, hback]
  exact hcontents coord hcoord

end Chain

/-! ## Yielding the row-major form -/

/-- The elements in the order of their coordinates. -/
def TensorFacts.rowMajorForm (f : TensorFacts) (bytes : Bytes) : Bytes :=
  (coords f.logicalShape).flatMap (f.element bytes)

/-- The graph is accepted and its output is contiguous. It returns when allocations
succeed, and whenever it returns, with the row-major form of its input. -/
structure YieldsRowMajor (wire : OperationGraphWire) (f : TensorFacts) (host : Host)
    (view : ByteView) (graph : OperationGraph) : Prop where
  accepted : OperationGraph.tryFrom wire = .ok graph
  facts : ∃ o, graph.facts graph.output = some o ∧
    TensorFacts.contiguous f.logicalShape (.contiguous f.representation.dtype) = .ok o
  returns : Resident graph host [view] → ∃ r, graph.executeHost host [view] ⟨false⟩ = .ok r
  output : ∀ cancellation r, graph.executeHost host [view] cancellation = .ok r →
    r.output.bytes = f.rowMajorForm view.bytes

section Yields
variable {f o : TensorFacts} {outs : List TensorFacts} {host : Host} {view : ByteView}
  {first second : ImplementationId × Operation}

/-- The tensor bounds the products that the kernels of both nodes form. -/
theorem chain_fits {graph : OperationGraph} (hinputs : graph.inputs = [⟨⟨"tensor"⟩, f⟩])
    (hnodes : graph.nodes = chainNodes outs o first second)
    (h : TakesBack f o outs first.2 second.2) (hne : f.logicalShape.prod ≠ 0) :
    ∀ node ∈ graph.nodes, KernelFits host node (graph.nodeFacts node) := by
  have hfit : ∀ (node : OperationNode) (facts : List TensorFacts),
      inferOutputs node.operation facts = .ok node.outputs →
      (∃ t ∈ facts ++ node.outputs, t.logicalShape.prod ≠ 0) → KernelFits host node facts := by
    intro node facts hinfer hnonempty
    let ins : List (TensorFacts × Elements) := facts.map fun t => (t, fun _ => [])
    have hfst : ins.map Prod.fst = facts := by
      rw [List.map_map]
      exact List.map_id facts
    rw [← hfst]
    exact kernelFits_of_nonempty (by rwa [hfst]) (by rwa [hfst])
  intro node hn
  obtain ⟨k, hk⟩ := List.getElem?_of_mem hn
  obtain ⟨facts, hfacts, hinfer⟩ := graph_inputFacts hk
  rw [OperationGraph.nodeFacts, filterMap_orFault hfacts]
  refine hfit node facts hinfer ?_
  rw [hnodes] at hn
  simp only [chainNodes, List.mem_cons, List.not_mem_nil, or_false] at hn
  rcases hn with rfl | rfl
  · have hinput : graph.facts (.input 0) = some f := by
      rw [OperationGraph.facts, factsOf, hinputs]
      rfl
    have hlist := filterMap_orFault hfacts
    rw [List.filterMap_cons_some hinput] at hlist
    exact ⟨f, List.mem_append_left _ (hlist ▸ List.mem_cons_self ..), hne⟩
  · refine ⟨o, List.mem_append_right _ (List.mem_cons_self ..), ?_⟩
    rwa [(TensorFacts.contiguous_ok h.contiguous).1]

variable (first second) in
theorem chain_yields (h : TakesBack f o outs first.2 second.2)
    (hbuiltin : ∀ x ∈ [first, second], x.2.isStructural = true ∧
      x.2.builtinImplementation = .ok x.1)
    (hcount : outs.length < 2 ^ 32) (hne : f.logicalShape.prod ≠ 0)
    (hview : view.bytes.length = f.byteLen) :
    ∃ graph, YieldsRowMajor (chainWire f outs.length first second) f host view graph := by
  obtain ⟨graph, htry, hinputs, hnodes, houtput⟩ :=
    chain_tryFrom h.firstOutputs hcount h.secondOutputs
  have hall : ∀ node ∈ graph.nodes, node.operation.isStructural = true ∧
      node.operation.builtinImplementation = .ok node.implementation := by
    intro node hn
    rw [hnodes] at hn
    simp only [chainNodes, List.mem_cons, List.not_mem_nil, or_false] at hn
    rcases hn with rfl | rfl
    · exact hbuiltin first (by simp)
    · exact hbuiltin second (by simp)
  have hfacts : graph.facts graph.output = some o := by
    rw [OperationGraph.facts, houtput, factsOf, hnodes]
    rfl
  obtain ⟨hl, hs, _, hst, hrep, _⟩ := TensorFacts.contiguous_ok h.contiguous
  refine ⟨graph, htry, ⟨o, hfacts, h.contiguous⟩, fun hresident => ?_, fun cancellation r hr => ?_⟩
  · have hret : ∃ bv, graph.executeRetaining host [view] ⟨false⟩ = .ok bv :=
      (executeRetaining_iff (fun n hn => (hall n hn).1) (fun n hn => (hall n hn).2)
        (by rw [hinputs]; exact .cons hview .nil)).mpr (chain_fits hinputs hnodes h hne)
    obtain ⟨bv, hbv⟩ := hret
    exact executeHost_succeeds (fun n hn => (hall n hn).1) hresident hbv
  · obtain ⟨bv, hret, rfl⟩ := executeHost_refines.ok hr
    obtain ⟨final, hrep', hout⟩ := executeRetaining_denotes hret
    rw [houtput] at hout hfacts
    have hlays := hrep'.output 1 0 _ o hout hfacts
    have hwidth : f.width = o.width := width_eq_of_dtype (by rw [hrep]; rfl)
    have hback :
        o.layout (graph.denote host.preparation cancellation [view] (.nodeOutput 1 0)) =
          o.layout (f.element view.bytes) :=
      layout_congr fun coord hc => chain_denotes hinputs hnodes h (hl ▸ hc)
    rw [hlays.layout, hback, layout_eq_flatMap, hl, TensorFacts.rowMajorForm]
    · exact hs.trans hl.symm
    · rw [hst, hl]
    · intro coord hc
      rw [hl] at hc
      rw [(holds_element hview).element_length hc, hwidth]

end Yields

/-! ## The laws -/

def builtin (operation : String) : ImplementationId := ⟨⟨"model-weights"⟩, ⟨operation⟩, 1⟩

theorem builtin_eq (operation : String) (h : StableName.parse operation = .ok ⟨operation⟩) :
    (do
      let provider ← StableName.parse "model-weights"
      let operation ← StableName.parse operation
      .ok ⟨provider, operation, 1⟩ : Result ImplementationId) = .ok (builtin operation) := by
  have hprovider : StableName.parse "model-weights" = .ok ⟨"model-weights"⟩ := by decide
  rw [hprovider, h]
  rfl

/-- Split a tensor along an axis and concatenate the parts. -/
def splitConcatWire (f : TensorFacts) (axis : Nat) (ranges : List AxisRange) :
    OperationGraphWire :=
  chainWire f ranges.length (builtin "split", .split ⟨axis, ranges⟩)
    (builtin "concat", .concat axis)

/-- Permute the axes of a tensor and permute them back. -/
def permuteTwiceWire (f : TensorFacts) (order : List Nat) : OperationGraphWire :=
  chainWire f 1 (builtin "permute", .permute ⟨order, .logical⟩)
    (builtin "permute", .permute ⟨inverseOrder order, .logical⟩)

section Laws
variable {f : TensorFacts}

theorem inferSplit_consecutive {axis : Nat} {ranges : List AxisRange}
    (haxis : axis < f.logicalShape.length) (hne : f.logicalShape.prod ≠ 0)
    (hranges : ranges ≠ []) (h : Consecutive 0 (f.logicalShape.getD axis 0) ranges) :
    ∃ outs, inferSplit ⟨axis, ranges⟩ f = .ok outs ∧
      List.Forall₂ (SplitPart axis f) ranges outs := by
  obtain ⟨outs, houts, hparts⟩ := inferSplitLoop_consecutive haxis hne none h nofun
    (Nat.le_refl _)
  have hsome : outs ≠ [] := by
    rintro rfl
    exact hranges (List.length_eq_zero_iff.mp hparts.length_eq)
  have hvalid : validateAxis axis f.logicalShape.length = .ok axis := if_neg (Nat.not_le.mpr haxis)
  refine ⟨outs, ?_, hparts⟩
  unfold inferSplit
  rw [hvalid]
  show (inferSplitLoop f axis none ranges >>= fun _ => _) = _
  rw [houts]
  exact if_neg hsome

/-- The parts of a split concatenate to the shape they were cut from. -/
theorem inferConcat_split {axis : Nat} {ranges : List AxisRange} {outs : List TensorFacts}
    (haxis : axis < f.logicalShape.length) (hne : f.logicalShape.prod ≠ 0)
    (hcount : 2 ≤ outs.length) (hparts : List.Forall₂ (SplitPart axis f) ranges outs)
    (h : Consecutive 0 (f.logicalShape.getD axis 0) ranges) :
    ∃ o, inferConcat axis outs = .ok [o] ∧ TensorFacts.contiguous f.logicalShape
      (.contiguous f.representation.dtype) = .ok o := by
  obtain ⟨o, ho⟩ := part_contiguous (f := f) rfl hne (Nat.le_refl _)
  refine ⟨o, ?_, ho⟩
  match outs, hparts, hcount with
  | first :: second :: rest, hall@(.cons hpart _), _ =>
    obtain ⟨hshape, _, _, _, hrep, _⟩ := TensorFacts.contiguous_ok hpart
    have hdtype : first.representation.dtype = f.representation.dtype := by rw [hrep]; rfl
    have hfit : f.logicalShape.getD axis 0 < u64Size := by
      rw [List.getD_eq_getElem?_getD, List.getElem?_eq_getElem haxis]
      exact Nat.lt_of_le_of_lt (le_prod_of_mem (Nat.pos_of_ne_zero hne) (List.getElem_mem haxis))
        f.prod_lt
    have hvalid : validateAxis axis first.logicalShape.length = .ok axis := by
      rw [hshape, List.length_set]
      exact if_neg (Nat.not_le.mpr haxis)
    unfold inferConcat
    dsimp only
    rw [hvalid]
    show (concatLoop first axis 0 _ >>= fun _ => _) = _
    rw [concatLoop_split haxis hdtype hshape hall h hfit]
    show (TensorFacts.contiguous _ _ >>= fun _ => _) = _
    rw [hshape, List.set_set, set_getD_self haxis, hdtype, ho]
    rfl

theorem split_takesBack {axis : Nat} {ranges : List AxisRange}
    (haxis : axis < f.logicalShape.length) (hne : f.logicalShape.prod ≠ 0)
    (hcount : 2 ≤ ranges.length) (h : Consecutive 0 (f.logicalShape.getD axis 0) ranges) :
    ∃ o outs, outs.length = ranges.length ∧
      TakesBack f o outs (.split ⟨axis, ranges⟩) (.concat axis) := by
  obtain ⟨outs, hsplit, hparts⟩ := inferSplit_consecutive haxis hne
    (List.ne_nil_of_length_pos (by omega)) h
  have hlen := hparts.length_eq
  obtain ⟨o, hconcat, ho⟩ := inferConcat_split haxis hne (by omega) hparts h
  refine ⟨o, outs, hlen.symm, hsplit, hconcat, ho, fun engine cancellation e => ?_⟩
  refine ⟨ranges.map fun range => splitElements axis range e, _, by rw [List.length_map, hlen], rfl,
    rfl, fun coord hc => ?_⟩
  have hcoord : axis < coord.length := hc.length_eq ▸ haxis
  have hlt : coord.getD axis 0 < f.logicalShape.getD axis 0 := by
    have := (inBounds_iff.mp hc).2 axis _ (List.getElem?_eq_getElem haxis)
    rwa [show f.logicalShape.getD axis 0 = f.logicalShape[axis] by
      rw [List.getD_eq_getElem?_getD, List.getElem?_eq_getElem haxis, Option.getD_some]]
  rw [concatElements_split haxis hparts h hcoord (by rwa [Nat.zero_add]), Nat.zero_add,
    set_getD_self hcoord]

theorem permute_takesBack {order : List Nat} (hp : order.Perm (List.range f.logicalShape.length))
    (hne : f.logicalShape.prod ≠ 0) : ∃ o middle,
      TakesBack f o [middle] (.permute ⟨order, .logical⟩)
        (.permute ⟨inverseOrder order, .logical⟩) := by
  have hrank : order.length = f.logicalShape.length := by
    rw [hp.length_eq, List.length_range]
  have hp : order.Perm (List.range order.length) := hrank ▸ hp
  obtain ⟨middle, hfirst, hm⟩ := inferPermute_succeeds hp hrank hne
  obtain ⟨hl, _, _, _, hrep, _⟩ := TensorFacts.contiguous_ok hm
  obtain ⟨o, hsecond, ho⟩ := inferPermute_succeeds (f := middle) (inverseOrder_perm hp)
    (by rw [length_inverseOrder, hl, permuteShape, List.length_map])
    (by rw [hl, permuteShape_prod hp hrank]; exact hne)
  rw [hl, permuteShape_inverse hp hrank, hrep] at ho
  refine ⟨o, middle, hfirst, hsecond, ho, fun engine cancellation e => ?_⟩
  refine ⟨[permuteElements order e], _, rfl, rfl, rfl, fun coord hc => ?_⟩
  exact permuteElements_inverse hp (hrank.trans hc.length_eq.symm)

end Laws

/-- **Split and concatenation, permutation and inverse.** On a non-empty tensor in any
admitted layout, splitting an axis into consecutive parts that cover it and
concatenating them, and permuting the axes and permuting them back, yield the
row-major form of the tensor. The builder bounds the number of parts. -/
theorem inverse_laws {f : TensorFacts} (hne : f.logicalShape.prod ≠ 0) (host : Host)
    (view : ByteView) (hview : view.bytes.length = f.byteLen) :
    (∀ axis ranges, axis < f.logicalShape.length → 2 ≤ ranges.length → ranges.length < 2 ^ 32 →
      Consecutive 0 (f.logicalShape.getD axis 0) ranges →
      ∃ graph, YieldsRowMajor (splitConcatWire f axis ranges) f host view graph) ∧
    ∀ order, order.Perm (List.range f.logicalShape.length) →
      ∃ graph, YieldsRowMajor (permuteTwiceWire f order) f host view graph := by
  constructor
  · intro axis ranges haxis htwo hcount h
    obtain ⟨o, outs, hlen, hback⟩ := split_takesBack haxis hne htwo h
    rw [splitConcatWire, ← hlen]
    refine chain_yields (builtin "split", _) (builtin "concat", _) hback (fun x hx => ?_)
      (by omega) hne hview
    simp only [List.mem_cons, List.not_mem_nil, or_false] at hx
    rcases hx with rfl | rfl
    · exact ⟨rfl, builtin_eq "split" (by decide)⟩
    · exact ⟨rfl, builtin_eq "concat" (by decide)⟩
  · intro order hp
    obtain ⟨o, middle, hback⟩ := permute_takesBack hp hne
    refine chain_yields (builtin "permute", _) (builtin "permute", _) hback (fun x hx => ?_)
      (by rw [List.length_singleton]; decide) hne hview
    simp only [List.mem_cons, List.not_mem_nil, or_false] at hx
    rcases hx with rfl | rfl
    · exact ⟨rfl, builtin_eq "permute" (by decide)⟩
    · exact ⟨rfl, builtin_eq "permute" (by decide)⟩

/-- A 2 by 3 matrix that is stored column by column. -/
def columnsFacts : TensorFacts :=
  ⟨[2, 3], [3, 2], [3, 1], [1, 2], ⟨.u8, .custom ⟨"columns"⟩ 1 []⟩, 6, rfl⟩

theorem inverse_laws_columns :
    columnsFacts.rowMajorForm [1, 4, 2, 5, 3, 6] = [1, 2, 3, 4, 5, 6] ∧
    (∃ graph, YieldsRowMajor (splitConcatWire columnsFacts 1 [⟨0, 1⟩, ⟨1, 3⟩]) columnsFacts bareHost
      ⟨[1, 4, 2, 5, 3, 6], false⟩ graph) ∧
    ∃ graph, YieldsRowMajor (permuteTwiceWire columnsFacts [1, 0]) columnsFacts bareHost
      ⟨[1, 4, 2, 5, 3, 6], false⟩ graph := by
  obtain ⟨hsplit, hpermute⟩ := inverse_laws (f := columnsFacts) (by decide) bareHost
    ⟨[1, 4, 2, 5, 3, 6], false⟩ rfl
  have hranges : Consecutive 0 3 [⟨0, 1⟩, ⟨1, 3⟩] := ⟨rfl, by decide, rfl, by decide, rfl⟩
  exact ⟨by decide, hsplit 1 _ (by decide) (by decide) (by decide) hranges,
    hpermute [1, 0] (by decide)⟩

end ModelWeights.Graph
