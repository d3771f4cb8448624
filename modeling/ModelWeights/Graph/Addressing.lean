import ModelWeights.Graph.NodeProgress
import Mathlib.Algebra.Order.BigOperators.Group.List

/-! # Addressing

What the checks of `TensorFacts::new` give the kernels: the storage ranges of the
elements are disjoint and inside the allocation, and no offset that is formed on
the way overflows. A strided kernel then writes every element once, and on a
non-empty tensor no kernel fails. -/
namespace ModelWeights.Graph
open Strided Buffer

/-! ## The map to byte ranges -/

/-- The storage bytes of the element at a logical coordinate. -/
def TensorFacts.byteRange (f : TensorFacts) (coord : List Nat) : Nat × Nat :=
  (f.offset coord * f.width, f.offset coord * f.width + f.width)

/-- Distinct elements have disjoint ranges inside the allocation, and every term,
partial sum and product of their offsets fits 64 bits. -/
structure SafeAddressing (f : TensorFacts) : Prop where
  disjoint : ∀ c c', InBounds f.logicalShape c → InBounds f.logicalShape c' → c ≠ c' →
    (f.byteRange c).2 ≤ (f.byteRange c').1 ∨ (f.byteRange c').2 ≤ (f.byteRange c).1
  inside : ∀ c, InBounds f.logicalShape c → (f.byteRange c).2 ≤ f.byteLen
  length : f.byteLen < u64Size
  terms : ∀ c, InBounds f.logicalShape c → ∀ axis < f.logicalShape.length,
    c.getD axis 0 * f.storageStrides.getD axis 0 < u64Size
  sums : ∀ c, InBounds f.logicalShape c → ∀ k ≤ f.logicalShape.length,
    ((List.range k).map fun i => c.getD i 0 * f.storageStrides.getD i 0).sum < u64Size
  products : ∀ c, InBounds f.logicalShape c → f.offset c * f.width < u64Size

theorem ranges_disjoint {a b width : Nat} (h : a ≠ b) :
    a * width + width ≤ b * width ∨ b * width + width ≤ a * width := by
  rcases Nat.lt_or_gt_of_ne h with h | h
  · exact .inl (by rw [← Nat.succ_mul]; exact Nat.mul_le_mul_right _ h)
  · exact .inr (by rw [← Nat.succ_mul]; exact Nat.mul_le_mul_right _ h)

/-- The partial sums of an offset stay below the offset. -/
theorem TensorFacts.partial_sum_le (f : TensorFacts) {c : List Nat}
    (hc : InBounds f.logicalShape c) {k : Nat} (hk : k ≤ f.logicalShape.length) :
    ((List.range k).map fun i => c.getD i 0 * f.storageStrides.getD i 0).sum ≤ f.offset c := by
  rw [f.offset_eq_sum hc.length_eq]
  exact sum_range_le _ hk

theorem TensorFacts.safeAddressing (f : TensorFacts) : SafeAddressing f where
  disjoint := by
    intro c c' hc hc' hne
    exact ranges_disjoint fun he => hne (f.offset_injective hc hc' he)
  inside := fun c hc => f.element_fits hc
  length := f.byteLen_lt
  terms := by
    intro c hc axis haxis
    have hlt := f.offset_lt_u64 hc
    have hsum := f.partial_sum_le hc (Nat.succ_le_of_lt haxis)
    rw [List.range_succ, List.map_append, List.sum_append, List.map_singleton,
      List.sum_singleton] at hsum
    omega
  sums := by
    intro c hc k hk
    exact Nat.lt_of_le_of_lt (f.partial_sum_le hc hk) (f.offset_lt_u64 hc)
  products := by
    intro c hc
    have hfit := f.element_fits hc
    have hlen := f.byteLen_lt
    omega

/-! ## The accesses of a strided kernel -/

/-- The copy loop of a strided kernel: the output and the address of each position. -/
structure CopyLoop where
  facts : TensorFacts
  address : Nat → Result (Bytes × Nat × Nat)

/-- What the loop accesses, in order: the buffer and the element it reads, and the
element it writes. -/
def CopyLoop.accesses (loop : CopyLoop) : Result (List (Bytes × Nat × Nat)) :=
  (List.range loop.facts.elementCount).mapM loop.address

/-- Every address is formed, no element is written twice, and every access lies
inside its buffer. -/
def CopyLoop.Safe (loop : CopyLoop) : Prop :=
  Succeeds loop.accesses fun accesses =>
    (accesses.map fun access => access.2.2).Nodup ∧
      ∀ access ∈ accesses,
        access.2.1 * loop.facts.width + loop.facts.width ≤ access.1.length ∧
        access.2.2 * loop.facts.width + loop.facts.width ≤ loop.facts.byteLen

/-- The loop visits the coordinates of the output in row-major order. -/
theorem Addresses.safe {f : TensorFacts} {address : Nat → Result (Bytes × Nat × Nat)}
    (h : Addresses f address) : CopyLoop.Safe ⟨f, address⟩ := by
  let R := fun (i : Nat) (access : Bytes × Nat × Nat) =>
    f.offset (unravel f.logicalShape i) = access.2.2 ∧
      access.2.1 * f.width + f.width ≤ access.1.length ∧
      access.2.2 * f.width + f.width ≤ f.byteLen
  have hrun : Succeeds (CopyLoop.accesses ⟨f, address⟩)
      (List.Forall₂ R (List.range f.elementCount)) := by
    refine Succeeds.mapM fun i hi => ?_
    rw [List.mem_range, f.elementCount_eq] at hi
    obtain ⟨source, s, haddress, hread, _⟩ := h i hi
    exact Succeeds.of_eq haddress ⟨rfl, hread, f.element_fits (unravel_inBounds hi)⟩
  refine hrun.mono fun accesses haccesses => ⟨?_, fun access haccess => ?_⟩
  · have hwritten : (coords f.logicalShape).map f.offset =
        accesses.map fun access => access.2.2 := by
      rw [coords_eq_unravel, List.map_map, ← f.elementCount_eq, ← List.forall₂_eq_eq_eq,
        List.forall₂_map_left_iff, List.forall₂_map_right_iff]
      exact haccesses.imp fun _ _ hR => hR.1
    rw [← hwritten]
    exact f.nodup_offsets
  · obtain ⟨i, _, hR⟩ := forall₂_mem_right haccesses haccess
    exact hR.2

/-! ### The loops are the kernels' -/

section Kernels
variable {inF outF : TensorFacts} {input output out : Bytes} {cancellation : CancellationToken}

theorem executeStorageCopy_loop
    (h : executeStorageCopy inF outF input output cancellation = .ok out) :
    copyElements outF.elementCount inF.width (storageCopyAddress inF outF input) output
      cancellation = .ok out := by
  obtain ⟨_, _, h⟩ := bind_ok h
  obtain ⟨_, h⟩ := unless_error_ok h
  obtain ⟨width, hwidth, h⟩ := bind_ok h
  obtain ⟨strides, hstrides, h⟩ := bind_ok h
  rw [dtypeWidth_eq] at hwidth
  rw [← Except.ok.inj hwidth, contiguousStrides_ok hstrides] at h
  exact h

theorem executeSliceBytes_loop {ranges : List AxisRange}
    (h : executeSliceBytes ranges inF input outF output cancellation = .ok out) :
    copyElements outF.elementCount inF.width (sliceAddress ranges inF outF input) output
      cancellation = .ok out := by
  obtain ⟨_, _, h⟩ := bind_ok h
  obtain ⟨_, h⟩ := unless_error_ok h
  obtain ⟨width, hwidth, h⟩ := bind_ok h
  obtain ⟨strides, hstrides, h⟩ := bind_ok h
  rw [dtypeWidth_eq] at hwidth
  rw [← Except.ok.inj hwidth, contiguousStrides_ok hstrides] at h
  exact h

theorem executePermuteBytes_loop {permute : Permute} (hmode : permute.mode = .logical)
    (h : executePermuteBytes permute inF outF input output cancellation = .ok out) :
    copyElements outF.elementCount inF.width (permuteAddress permute.order inF outF input) output
      cancellation = .ok out := by
  obtain ⟨_, _, h⟩ := bind_ok h
  rw [hmode] at h
  obtain ⟨width, hwidth, h⟩ := bind_ok h
  obtain ⟨strides, hstrides, h⟩ := bind_ok h
  obtain ⟨order, horder, h⟩ := bind_ok h
  rw [dtypeWidth_eq] at hwidth
  rw [← Except.ok.inj hwidth, contiguousStrides_ok hstrides, ← Except.ok.inj horder] at h
  exact h

theorem executeConcatBytes_loop {axis : Nat} {facts : List TensorFacts} {views : List Bytes}
    (h : executeConcatBytes axis facts outF views output cancellation = .ok out) :
    ∃ starts, concatStarts axis 0 facts = .ok starts ∧
      copyElements outF.elementCount outF.width (concatAddress axis facts outF views starts) output
        cancellation = .ok out := by
  obtain ⟨_, h⟩ := unless_error_ok h
  obtain ⟨_, _, h⟩ := bind_ok h
  obtain ⟨axis', haxis, h⟩ := bind_ok h
  obtain rfl : axis = axis' := Except.ok.inj (unless_error_ok haxis).2
  obtain ⟨width, hwidth, h⟩ := bind_ok h
  obtain ⟨strides, hstrides, h⟩ := bind_ok h
  obtain ⟨starts, hstarts, h⟩ := bind_ok h
  rw [dtypeWidth_eq] at hwidth
  rw [← Except.ok.inj hwidth, contiguousStrides_ok hstrides] at h
  exact ⟨starts, hstarts, h⟩

end Kernels

/-- A unary node with one output. -/
def unaryLoop (facts : List TensorFacts) (views : List Bytes) (outputs : List TensorFacts)
    (loop : TensorFacts → TensorFacts → Bytes → CopyLoop) : List CopyLoop :=
  match facts, views, outputs with
  | [f], [view], [o] => [loop f o view]
  | _, _, _ => []

/-- The copy loops of the strided kernels of a node. A contiguous concatenation and
a channel-last permutation have kernels of their own, which append. -/
def OperationNode.loops (node : OperationNode) (facts : List TensorFacts) (views : List Bytes) :
    List CopyLoop :=
  match node.operation with
  | .concat axis =>
    match concatStarts axis 0 facts with
    | .ok starts => node.outputs.map fun o => ⟨o, concatAddress axis facts o views starts⟩
    | .error _ => []
  | .permute permute =>
    match permute.mode with
    | .logical => unaryLoop facts views node.outputs fun f o view =>
        ⟨o, permuteAddress permute.order f o view⟩
    | .storage _ => unaryLoop facts views node.outputs fun f o view =>
        ⟨o, storageCopyAddress f o view⟩
  | .pad _ => unaryLoop facts views node.outputs fun f o view => ⟨o, storageCopyAddress f o view⟩
  | .slice ranges => unaryLoop facts views node.outputs fun f o view =>
      ⟨o, sliceAddress ranges f o view⟩
  | .split split =>
    match facts, views with
    | [f], [view] => (split.ranges.zip node.outputs).map fun x =>
        ⟨x.2, sliceAddress (splitRanges split.axis x.1 f.logicalShape) f x.2 view⟩
    | _, _ => []
  | .reshape _ => []
  | .prepare _ => []

section Node
variable {host : Host} {node : OperationNode} {ins : List (TensorFacts × Elements)}
  {inputs : List ByteView}

theorem loops_safe (hinfer : inferOutputs node.operation (ins.map Prod.fst) = .ok node.outputs)
    (hin : HoldsAll ins (inputs.map ByteView.bytes)) :
    ∀ loop ∈ node.loops (ins.map Prod.fst) (inputs.map ByteView.bytes), loop.Safe := by
  intro loop hloop
  unfold OperationNode.loops at hloop
  cases hop : node.operation with
  | concat axis =>
    rw [hop] at hinfer hloop
    obtain ⟨o, ho, hc, _⟩ := inferConcat_ok hinfer
    have hsum := (inferConcat_fits hinfer ho).1
    obtain ⟨starts, hstarts, _⟩ := concatStarts_succeeds (n := 0) (by rwa [Nat.zero_add])
    dsimp only at hloop
    rw [hstarts, ho] at hloop
    obtain rfl := List.mem_singleton.mp hloop
    exact (concatAddress_addresses hc hin hstarts hsum).safe
  | permute permute =>
    rw [hop] at hinfer hloop
    obtain ⟨f, e, input, rfl, rfl, hh, hg⟩ := hin.unary hinfer
    obtain ⟨o, ho, hp⟩ := inferPermute_ok hg
    dsimp only at hloop
    rw [ho] at hloop
    cases hm : permute.mode with
    | logical =>
      rw [hm] at hloop
      obtain rfl := List.mem_singleton.mp hloop
      exact (permuteAddress_addresses hh hp.valid hp.rank (hp.logical hm) hp.width).safe
    | storage layout =>
      rw [hm] at hloop
      obtain rfl := List.mem_singleton.mp hloop
      have hshape := (hp.storage (by rw [hm]; rfl)).1
      exact (storageCopyAddress_addresses hh hshape.symm hp.width).safe
  | pad pad =>
    rw [hop] at hinfer hloop
    obtain ⟨f, e, input, rfl, rfl, hh, hg⟩ := hin.unary hinfer
    obtain ⟨o, ho, hshape, hwidth⟩ := inferPad_ok hg
    dsimp only at hloop
    rw [ho] at hloop
    obtain rfl := List.mem_singleton.mp hloop
    exact (storageCopyAddress_addresses hh hshape.symm hwidth).safe
  | slice ranges =>
    rw [hop] at hinfer hloop
    obtain ⟨f, e, input, rfl, rfl, hh, hg⟩ := hin.unary hinfer
    obtain ⟨o, ho, hs, hwidth⟩ := inferSlice_ok hg
    dsimp only at hloop
    rw [ho] at hloop
    obtain rfl := List.mem_singleton.mp hloop
    exact (sliceAddress_addresses hh hs hwidth).safe
  | split split =>
    rw [hop] at hinfer hloop
    obtain ⟨f, e, input, rfl, rfl, hh, hg⟩ := hin.unary hinfer
    obtain ⟨hax, hs⟩ := inferSplit_ok hg
    obtain ⟨x, hx, rfl⟩ := List.mem_map.mp hloop
    have ho : SplitOutput split.axis f x.1 x.2 := List.forall₂_zip hs hx
    exact (sliceAddress_addresses hh (ho.sliced hax) ho.width).safe
  | reshape shape =>
    rw [hop] at hloop
    cases hloop
  | prepare transform =>
    rw [hop] at hloop
    cases hloop

/-! ## Non-empty tensors -/

/-- A part of the axes of a non-empty tensor has no more elements than the tensor. -/
theorem prod_sublist_le {part shape : List Nat} (h : part.Sublist shape) (hne : shape.prod ≠ 0) :
    part.prod ≤ shape.prod := by
  refine h.prod_le_prod' fun d hd => Nat.one_le_iff_ne_zero.mpr ?_
  rintro rfl
  exact hne (List.prod_eq_zero_iff_exists_zero_nat.mpr ⟨0, hd, rfl⟩)

theorem TensorFacts.trailingFit (f : TensorFacts) (hne : f.logicalShape.prod ≠ 0) :
    TrailingFit f.logicalShape := fun n =>
  Nat.lt_of_le_of_lt (prod_sublist_le (List.drop_sublist n _) hne) f.prod_lt

theorem TensorFacts.innerFit (f : TensorFacts) (hdense : f.Dense) (hne : f.logicalShape.prod ≠ 0)
    (axis : Nat) : InnerFit axis f := by
  refine ⟨fun n => ?_, ?_⟩
  · have hsub := (List.take_sublist n _).trans (List.drop_sublist (axis + 1) f.logicalShape)
    exact Nat.lt_of_le_of_lt (prod_sublist_le hsub hne) f.prod_lt
  · have hle := prod_sublist_le (List.drop_sublist (axis + 1) f.logicalShape) hne
    have hlen := f.byteLen_lt
    rw [f.spec.byteLen, hdense] at hlen
    exact Nat.lt_of_le_of_lt (Nat.mul_le_mul_right _ hle) hlen

theorem TensorFacts.channelFits (f : TensorFacts) (hdense : f.Dense)
    (hne : f.logicalShape.prod ≠ 0) {m n height breadth : Nat}
    (hshape : f.logicalShape = [m, n, height, breadth]) : ChannelFits host f := by
  intro _ hdtype hnine
  rw [hshape] at hne hnine ⊢
  have hwidth : f.width = 2 := by
    unfold TensorFacts.width
    rcases hdtype with h | h
    · rw [h]; rfl
    · rw [h]; rfl
  have hlen := f.byteLen_lt
  rw [f.spec.byteLen, hdense, hshape, hwidth] at hlen
  have hspatial : height * breadth = 9 := hnine
  have hprod : [m, n, height, breadth].prod = m * (n * 9) := by
    rw [List.prod_cons, List.prod_cons, List.prod_cons, List.prod_singleton, hspatial]
  rw [hprod] at hlen hne
  have hm : 0 < m := Nat.pos_of_ne_zero fun h => hne (by rw [h, Nat.zero_mul])
  have hle := Nat.le_mul_of_pos_left (n * 9) hm
  show n * Simd.sourceChannelBytes < u64Size
  rw [show Simd.sourceChannelBytes = 18 from rfl]
  omega

/-- A node that touches a non-empty tensor forms no product that overflows. -/
theorem kernelFits_of_nonempty
    (hinfer : inferOutputs node.operation (ins.map Prod.fst) = .ok node.outputs)
    (hne : ∃ f ∈ ins.map Prod.fst ++ node.outputs, f.logicalShape.prod ≠ 0) :
    KernelFits host node (ins.map Prod.fst) := by
  obtain ⟨t, ht, hne⟩ := hne
  unfold KernelFits
  cases hop : node.operation with
  | concat axis =>
    rw [hop] at hinfer
    obtain ⟨o, ho, hc, hdense⟩ := inferConcat_ok hinfer
    intro hall first hfirst
    have hinner : InnerFit axis t ∧ t.width = o.width ∧
        t.logicalShape.drop (axis + 1) = o.logicalShape.drop (axis + 1) := by
      rcases List.mem_append.mp ht with ht | ht
      · have hdense : t.Dense := by
          rw [TensorFacts.Dense, (TensorFacts.isCanonicalContiguous_iff (hall t ht)).1]
        exact ⟨t.innerFit hdense hne axis, hc.width t ht, (hc.split_eq ht).2⟩
      · rw [ho] at ht
        obtain rfl := List.mem_singleton.mp ht
        exact ⟨t.innerFit hdense hne axis, rfl, rfl⟩
    have hmem := List.mem_of_getElem? hfirst
    obtain ⟨hfit, hwidth, hdrop⟩ := hinner
    unfold InnerFit at hfit ⊢
    rw [(hc.split_eq hmem).2, hc.width first hmem, ← hdrop, ← hwidth]
    exact hfit
  | permute permute =>
    rw [hop] at hinfer
    intro f o hf ho hmode hid
    rw [hf] at hinfer ht
    obtain ⟨o', ho', hp⟩ := inferPermute_ok hinfer
    obtain ⟨rfl, _⟩ := List.cons.inj (ho.symm.trans ho')
    have hshape := (hp.storage hmode).1
    have hne : f.logicalShape.prod ≠ 0 := by
      rw [ho] at ht
      simp only [List.cons_append, List.nil_append, List.mem_cons, List.not_mem_nil,
        or_false] at ht
      rcases ht with rfl | rfl
      · exact hne
      · rwa [← hshape]
    split
    · next hsel =>
      obtain ⟨m, n, height, breadth, hdims⟩ := channelLast_shape hp hsel.1
      have hdense : f.Dense := by
        rw [TensorFacts.Dense, (TensorFacts.isCanonicalContiguous_iff hsel.2).1]
      exact f.channelFits hdense hne hdims
    · exact f.trailingFit hne
  | pad pad =>
    rw [hop] at hinfer
    intro f hf
    obtain ⟨g, hg, hinfer⟩ := oneInput_ok hinfer
    rw [hg] at hf ht
    obtain rfl := List.mem_singleton.mp hf
    obtain ⟨o, ho, hshape, _⟩ := inferPad_ok hinfer
    rw [ho] at ht
    simp only [List.cons_append, List.nil_append, List.mem_cons, List.not_mem_nil,
      or_false] at ht
    rcases ht with rfl | rfl
    · exact t.trailingFit hne
    · exact f.trailingFit (by rwa [← hshape])
  | slice ranges => exact trivial
  | split split => exact trivial
  | reshape shape => exact trivial
  | prepare transform => exact trivial

end Node

/-! ## Safety of the kernels -/

/-- Buffers of the declared lengths hold some contents. -/
theorem exists_holdsAll {facts : List TensorFacts} {views : List Bytes}
    (h : List.Forall₂ (fun f view => view.length = f.byteLen) facts views) :
    ∃ ins : List (TensorFacts × Elements), ins.map Prod.fst = facts ∧ HoldsAll ins views := by
  induction h with
  | nil => exact ⟨[], rfl, .nil⟩
  | @cons f view facts views hlen _ ih =>
    obtain ⟨ins, rfl, hin⟩ := ih
    exact ⟨(f, f.element view) :: ins, rfl, .cons (holds_element hlen) hin⟩

/-- **Admitted facts address safely.** Every admitted layout, and so every inferred
one, maps its coordinates to disjoint byte ranges inside the allocation without an
overflow. The strided loops of a node write no element twice and stay inside their
buffers, and a node with a non-empty input or output runs to its end: none of the
bounds checks and none of the checked products of its kernel fails. -/
theorem addressing_safe :
    (∀ f : TensorFacts, SafeAddressing f) ∧
    (∀ operation facts outputs, inferOutputs operation facts = .ok outputs →
      ∀ o ∈ outputs, SafeAddressing o) ∧
    ∀ (host : Host) (node : OperationNode) (facts : List TensorFacts) (inputs : List ByteView),
      inferOutputs node.operation facts = .ok node.outputs →
      List.Forall₂ (fun f view => view.length = f.byteLen) facts (inputs.map ByteView.bytes) →
      (∀ loop ∈ node.loops facts (inputs.map ByteView.bytes), loop.Safe) ∧
        (node.operation.isStructural = true →
          (∃ f ∈ facts ++ node.outputs, f.logicalShape.prod ≠ 0) →
          Succeeds (executeNode host node inputs facts ⟨false⟩) fun _ => True) := by
  refine ⟨fun f => f.safeAddressing, fun _ _ _ _ o _ => o.safeAddressing, ?_⟩
  intro host node facts inputs hinfer hlen
  obtain ⟨ins, rfl, hin⟩ := exists_holdsAll hlen
  refine ⟨loops_safe hinfer hin, fun hs hne => ?_⟩
  exact executeNode_succeeds hs hinfer hin (kernelFits_of_nonempty hinfer hne)

/-- The transposition of a 2 by 3 matrix. -/
def transposeNode : OperationNode where
  implementation := ⟨⟨"model-weights"⟩, ⟨"permute"⟩, 1⟩
  inputs := [.input 0]
  operation := .permute ⟨[1, 0], .logical⟩
  outputs := [⟨[3, 2], [3, 2], [2, 1], [2, 1], .contiguous .u8, 6, rfl⟩]

theorem addressing_safe_transpose :
    SafeAddressing matrixFacts ∧
    (∀ loop ∈ transposeNode.loops [matrixFacts] [[1, 2, 3, 4, 5, 6]], loop.Safe) ∧
    Succeeds (executeNode ⟨⟨fun _ => none⟩, false⟩ transposeNode [⟨[1, 2, 3, 4, 5, 6], false⟩]
      [matrixFacts] ⟨false⟩) fun _ => True := by
  obtain ⟨hfacts, _, hnode⟩ := addressing_safe
  obtain ⟨hloops, hrun⟩ := hnode ⟨⟨fun _ => none⟩, false⟩ transposeNode [matrixFacts]
    [⟨[1, 2, 3, 4, 5, 6], false⟩] rfl (.cons rfl .nil)
  exact ⟨hfacts matrixFacts, hloops, hrun rfl ⟨matrixFacts, List.mem_cons_self .., by decide⟩⟩

end ModelWeights.Graph
