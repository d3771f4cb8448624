import ModelWeights.Graph.ChannelProgress

/-! # Nodes that return

Which node of an admitted graph its host kernel can execute. Inference bounds
every product of most kernels. Three of them form products of their own: the
contiguous concatenation, the copy of a padded or permuted storage and the
half-precision channel-last kernel (`KernelFits`). On the facts of a node these
are all the ways to fail. -/
namespace ModelWeights.Graph
open Strided Buffer

/-! ## What a kernel needs beyond admission -/

/-- One output channel of the half-precision kernel fits 64 bits. -/
def ChannelFits (host : Host) (f : TensorFacts) : Prop :=
  host.avx2Available = true → f.representation.dtype = .f16 ∨ f.representation.dtype = .bf16 →
    f.logicalShape.getD 2 0 * f.logicalShape.getD 3 0 = 9 →
    f.logicalShape.getD 1 0 * Simd.sourceChannelBytes < u64Size

/-- A storage permutation is a plain copy unless it is the identity or channel-last. -/
def PermuteFits (host : Host) (permute : Permute) (f o : TensorFacts) : Prop :=
  permute.mode.isStorage = true → isIdentityPermutation permute f o = false →
    if permute.order = [0, 2, 3, 1] ∧ f.isCanonicalContiguous = true then ChannelFits host f
    else TrailingFit f.logicalShape

/-- The products that the kernel of a node forms and that admission has not formed. -/
def KernelFits (host : Host) (node : OperationNode) (facts : List TensorFacts) : Prop :=
  match node.operation with
  | .concat axis => (∀ f ∈ facts, f.isCanonicalContiguous = true) →
      ∀ first, facts[0]? = some first → InnerFit axis first
  | .permute permute => ∀ f o, facts = [f] → node.outputs = [o] → PermuteFits host permute f o
  | .pad _ => ∀ f ∈ facts, TrailingFit f.logicalShape
  | _ => True

/-! ## Facts of inferred outputs -/

theorem contiguous_isCanonical {shape : List Nat} {r : Representation} {f : TensorFacts}
    (h : TensorFacts.contiguous shape r = .ok f) : f.isCanonicalContiguous = true := by
  have hfit := trailingFit_of_contiguous h
  obtain ⟨hl, hs, hlst, hsst, hr, hc⟩ := TensorFacts.contiguous_ok h
  have hstrides := (contiguousStrides_iff f.rank_lt).mpr (by rw [hl]; exact hfit)
  unfold TensorFacts.isCanonicalContiguous
  rw [hstrides, hr, hc, hl, hs, hlst, hsst]
  simp

theorem concatLoop_lt {first : TensorFacts} {axis : Nat} :
    ∀ {inputs : List TensorFacts} {n r : Nat}, n < u64Size →
      concatLoop first axis n inputs = .ok r → r < u64Size
  | [], n, r, hn, h => by rwa [← Except.ok.inj h]
  | f :: rest, n, r, hn, h => by
    rw [concatLoop] at h
    obtain ⟨_, h⟩ := unless_error_ok h
    obtain ⟨_, h⟩ := unless_error_ok h
    obtain ⟨_, h⟩ := unless_error_ok h
    obtain ⟨next, hnext, h⟩ := bind_ok h
    obtain ⟨hlt, rfl⟩ := checkedAdd_eq_some.mp (okOr_eq_ok.mp hnext)
    exact concatLoop_lt hlt h

/-- The concatenated axis fits 64 bits and the output is canonical. -/
theorem inferConcat_fits {axis : Nat} {inputs outs : List TensorFacts} {o : TensorFacts}
    (h : inferConcat axis inputs = .ok outs) (ho : outs = [o]) :
    (inputs.map fun f => f.logicalShape.getD axis 0).sum < u64Size ∧
      o.isCanonicalContiguous = true := by
  subst ho
  unfold inferConcat at h
  split at h
  · next first second rest =>
    obtain ⟨axis', haxis, h⟩ := bind_ok h
    obtain ⟨_, haxis⟩ := unless_error_ok haxis
    obtain rfl : axis = axis' := Except.ok.inj haxis
    obtain ⟨len, hlen, h⟩ := bind_ok h
    obtain ⟨o', ho, h⟩ := bind_ok h
    have hlt := concatLoop_lt (by decide) hlen
    rw [(concatLoop_ok hlen).1, Nat.zero_add] at hlt
    obtain ⟨rfl, _⟩ := List.cons.inj (Except.ok.inj h)
    exact ⟨hlt, contiguous_isCanonical ho⟩
  · cases h

section Unary
variable {f o : TensorFacts}

theorem inferPermute_logical {permute : Permute} (hm : permute.mode = .logical)
    (h : inferPermute permute f = .ok [o]) : TrailingFit o.logicalShape := by
  obtain ⟨_, _, h⟩ := bind_ok h
  obtain ⟨_, h⟩ := unless_error_ok h
  obtain ⟨order, horder, h⟩ := bind_ok h
  rw [hm] at h
  obtain ⟨o', ho, h⟩ := bind_ok h
  obtain ⟨rfl, _⟩ := List.cons.inj (Except.ok.inj h)
  exact trailingFit_of_canonical (contiguous_isCanonical ho)

theorem inferSlice_fits {ranges : List AxisRange} (h : inferSlice ranges f = .ok [o]) :
    TrailingFit o.logicalShape := by
  obtain ⟨_, h⟩ := unless_error_ok h
  obtain ⟨_, _, h⟩ := bind_ok h
  obtain ⟨o', ho, h⟩ := bind_ok h
  obtain ⟨rfl, _⟩ := List.cons.inj (Except.ok.inj h)
  exact trailingFit_of_canonical (contiguous_isCanonical ho)

theorem inferSplitLoop_fits {axis : Nat} : ∀ {ranges : List AxisRange} {previous : Option Nat}
    {outs : List TensorFacts}, inferSplitLoop f axis previous ranges = .ok outs →
      ∀ o ∈ outs, TrailingFit o.logicalShape
  | [], _, outs, h => by
    rw [← Except.ok.inj h]
    exact fun o ho => (List.not_mem_nil ho).elim
  | range :: rest, previous, outs, h => by
    rw [inferSplitLoop] at h
    obtain ⟨_, h⟩ := unless_error_ok h
    obtain ⟨_, _, h⟩ := bind_ok h
    obtain ⟨_, h⟩ := unless_error_ok h
    obtain ⟨o, ho, h⟩ := bind_ok h
    obtain ⟨more, hmore, h⟩ := bind_ok h
    rw [← Except.ok.inj h]
    intro o' ho'
    rcases List.mem_cons.mp ho' with rfl | ho'
    · exact trailingFit_of_canonical (contiguous_isCanonical ho)
    · exact inferSplitLoop_fits hmore o' ho'

theorem inferSplit_fits {split : Split} {outs : List TensorFacts}
    (h : inferSplit split f = .ok outs) : ∀ o ∈ outs, TrailingFit o.logicalShape := by
  obtain ⟨_, _, h⟩ := bind_ok h
  obtain ⟨outs', hloop, h⟩ := bind_ok h
  obtain ⟨_, h⟩ := unless_error_ok h
  rw [← Except.ok.inj h]
  exact inferSplitLoop_fits hloop

end Unary

/-! ## Kernels of nodes -/

theorem allocateTensor_eq (f : TensorFacts) :
    allocateTensor f ⟨false⟩ = .ok (List.replicate f.byteLen 0) := rfl

section Concat
variable {axis : Nat} {ins : List (TensorFacts × Elements)} {inputs : List ByteView}
  {o : TensorFacts}

theorem concatNode_succeeds (hinfer : inferConcat axis (ins.map Prod.fst) = .ok [o])
    (hin : HoldsAll ins (inputs.map ByteView.bytes))
    (hfit : (∀ f ∈ ins.map Prod.fst, f.isCanonicalContiguous = true) →
      ∀ first, (ins.map Prod.fst)[0]? = some first → InnerFit axis first) :
    Succeeds (executeConcatNode axis [o] inputs (ins.map Prod.fst) ⟨false⟩) fun _ => True := by
  obtain ⟨o', ho, hc, _⟩ := inferConcat_ok hinfer
  obtain ⟨rfl, _⟩ := List.cons.inj ho
  obtain ⟨hsum, hcanonical⟩ := inferConcat_fits hinfer rfl
  refine Succeeds.step (x := onlyOutput [o]) rfl ?_
  dsimp only
  split
  · next hall =>
    rw [Bool.and_eq_true, List.all_eq_true] at hall
    cases hfirst : (ins.map Prod.fst)[0]? with
    | none =>
      rw [List.getElem?_eq_none_iff, Nat.le_zero, List.length_eq_zero_iff] at hfirst
      rw [hfirst] at hinfer
      cases hinfer
    | some first =>
      exact (buildContiguousConcat_succeeds hc hin hall.1 hcanonical hfirst
        (hfit hall.1 first hfirst)).bind fun _ _ => Succeeds.of_ok trivial
  · refine Succeeds.step (allocateTensor_eq o) ?_
    exact (executeConcatBytes_succeeds hc hin (trailingFit_of_canonical hcanonical) hsum).bind
      fun _ _ => Succeeds.of_ok trivial

/-- A contiguous concatenation that returned has formed its inner products. -/
theorem concatNode_fits {ex : NodeExecution} (hinfer : inferConcat axis (ins.map Prod.fst) = .ok [o])
    (h : executeConcatNode axis [o] inputs (ins.map Prod.fst) ⟨false⟩ = .ok ex)
    (hall : ∀ f ∈ ins.map Prod.fst, f.isCanonicalContiguous = true) {first : TensorFacts}
    (hfirst : (ins.map Prod.fst)[0]? = some first) : InnerFit axis first := by
  obtain ⟨_, hparts, h⟩ := bind_ok h
  obtain rfl := Except.ok.inj hparts
  dsimp only at h
  rw [if_pos (by rw [Bool.and_eq_true, List.all_eq_true]
                 exact ⟨hall, (inferConcat_fits hinfer rfl).2⟩)] at h
  obtain ⟨out, hout, _⟩ := bind_ok h
  exact innerFit_of_ok hfirst hout

end Concat

section Unary
variable {host : Host} {f o : TensorFacts} {e : Elements} {input : ByteView}
  {permute : Permute} {ex : NodeExecution}

theorem unaryParts_eq : unaryExecutionParts [o] [input] [f] = .ok (input, f, o) := rfl

theorem oihwKernel_succeeds {m n spatial elements : Nat}
    (helements : elements = m * (n * spatial))
    (hin : input.bytes.length = m * (n * spatial) * f.width)
    (hout : o.byteLen = m * (n * spatial) * f.width) (hwidth : 0 < f.width)
    (hfit : host.avx2Available = true →
      f.representation.dtype = .f16 ∨ f.representation.dtype = .bf16 → spatial = 9 →
      n * 18 < u64Size) :
    Succeeds (oihwKernel host f o input.bytes m n spatial elements f.width ⟨false⟩)
      fun _ => True := by
  subst helements
  have hsize := o.byteLen_lt
  rw [hout, ← hin] at hsize
  dsimp only [oihwKernel]
  split
  · next hsimd =>
    obtain ⟨hw, hs, hd, havx⟩ := hsimd
    have hlen : m * (n * spatial) * f.width = m * (n * 18) := by
      rw [hw, hs, Nat.mul_assoc, Nat.mul_assoc]
    refine Succeeds.step (allocateTensor_eq o) ?_
    exact (Simd.permuteOihwToOhwi3x3U16_succeeds (hin.trans hlen)
      (by rw [List.length_replicate, hout, hlen]) hsize (hfit havx hd hs)).bind fun _ _ =>
        Succeeds.of_ok trivial
  · split
    · exact (buildOihwToOhwiElements_succeeds hwidth hin hsize).bind fun _ _ =>
        Succeeds.of_ok trivial
    · exact Succeeds.of_ok trivial

/-- The dimensions of a channel-last permutation. -/
theorem channelLast_shape (hp : Permuted permute f o) (horder : permute.order = [0, 2, 3, 1]) :
    ∃ m n height breadth, f.logicalShape = [m, n, height, breadth] := by
  have hrank := hp.rank
  rw [horder] at hrank
  match hshape : f.logicalShape, hrank with
  | [m, n, height, breadth], _ => exact ⟨m, n, height, breadth, rfl⟩

theorem buildOihwToOhwiIfSupported_succeeds (hp : Permuted permute f o)
    (hin : Holds f input.bytes e)
    (hfit : permute.mode.isStorage = true → permute.order = [0, 2, 3, 1] →
      f.isCanonicalContiguous = true → ChannelFits host f) :
    Succeeds (buildOihwToOhwiIfSupported host permute f o input.bytes ⟨false⟩)
      fun _ => True := by
  unfold buildOihwToOhwiIfSupported
  split
  · exact Succeeds.of_ok trivial
  next hsel =>
  simp only [not_or, Bool.not_eq_false, not_not] at hsel
  obtain ⟨hmode, horder, hcont⟩ := hsel
  obtain ⟨m, n, height, breadth, hshape⟩ := channelLast_shape hp horder
  have htrailing := trailingFit_of_canonical hcont
  rw [hshape] at htrailing
  obtain ⟨hstorage, _, _⟩ := TensorFacts.isCanonicalContiguous_iff hcont
  -- every trailing product of a canonical input was formed at admission
  have hspatial : height * breadth < u64Size := by simpa using htrailing 2
  have hchannel : n * (height * breadth) < u64Size := by simpa using htrailing 1
  have helements : m * (n * (height * breadth)) < u64Size := by simpa using htrailing 0
  have hbytes : f.byteLen = m * (n * (height * breadth)) * f.width := by
    rw [f.spec.byteLen, hstorage, hshape]
    simp
  have hobytes : o.byteLen = f.byteLen := by
    rw [o.spec.byteLen, hp.dense, (hp.storage hmode).1, f.spec.byteLen, hstorage, hp.width]
  have hfits := f.byteLen_lt
  rw [hbytes] at hfits
  refine Succeeds.step rfl ?_
  rw [hshape]
  refine Succeeds.step (okOr_mul _ hspatial) ?_
  refine Succeeds.step (okOr_mul _ hchannel) ?_
  refine Succeeds.step (okOr_mul _ helements) ?_
  refine Succeeds.step (dtypeWidth_eq _) ?_
  refine Succeeds.step (okOr_mul _ hfits) ?_
  refine Succeeds.step (x := validateHostLen o.byteLen) rfl ?_
  refine Succeeds.guard ?_ ?_
  · rw [not_or, not_not, not_not, hin.length, hobytes, hbytes]
    exact ⟨rfl, rfl⟩
  · refine oihwKernel_succeeds rfl (hin.length.trans hbytes) (hobytes.trans hbytes) f.width_pos ?_
    intro havx hd hs
    have hchannel := hfit hmode horder hcont havx hd
    rw [hshape] at hchannel
    exact hchannel hs

theorem permuteNode_succeeds (hinfer : inferPermute permute f = .ok [o])
    (hin : Holds f input.bytes e) (hfit : PermuteFits host permute f o) :
    Succeeds (executePermuteNode host permute [o] [input] [f] ⟨false⟩) fun _ => True := by
  obtain ⟨o', ho, hp⟩ := inferPermute_ok hinfer
  obtain ⟨rfl, _⟩ := List.cons.inj ho
  refine Succeeds.step unaryParts_eq ?_
  refine Succeeds.step (validateViewLen_eq _ hin.length) ?_
  split
  · exact Succeeds.step rfl (Succeeds.of_ok trivial)
  next hid =>
  have hid : isIdentityPermutation permute f o = false := by simpa using hid
  refine (buildOihwToOhwiIfSupported_succeeds hp hin ?_).bind fun fast _ => ?_
  · intro hmode horder hcont
    have := hfit hmode hid
    rwa [if_pos ⟨horder, hcont⟩] at this
  cases fast with
  | some out => exact Succeeds.of_ok trivial
  | none =>
    refine Succeeds.step (allocateTensor_eq o) ?_
    cases hm : permute.mode with
    | logical =>
      exact (executePermuteBytes_succeeds hin hp.valid hp.rank hm (hp.logical hm) hp.width
        (inferPermute_logical hm hinfer)).bind fun _ _ => Succeeds.of_ok trivial
    | storage layout =>
      have hmode : permute.mode.isStorage = true := by rw [hm]; rfl
      have hshape := (hp.storage hmode).1
      have htrailing : TrailingFit o.logicalShape := by
        have := hfit hmode hid
        rw [hshape]
        split at this
        · next hfast => exact trailingFit_of_canonical hfast.2
        · exact this
      rw [executePermuteBytes, hm]
      rw [bind_assoc]
      refine Succeeds.step (validateViewLen_eq _ hin.length) ?_
      exact (executeStorageCopy_succeeds hin hshape.symm hp.width htrailing).bind fun _ _ =>
        Succeeds.of_ok trivial

theorem executeStorageCopy_fits {out : Bytes}
    (h : executeStorageCopy f o input.bytes (List.replicate o.byteLen 0) ⟨false⟩ = .ok out) :
    TrailingFit o.logicalShape := by
  obtain ⟨_, _, h⟩ := bind_ok h
  obtain ⟨_, h⟩ := unless_error_ok h
  obtain ⟨_, _, h⟩ := bind_ok h
  obtain ⟨strides, hs, _⟩ := bind_ok h
  obtain ⟨_, _, hs⟩ := bind_ok hs
  obtain ⟨⟨_, _⟩, hloop, _⟩ := bind_ok hs
  exact trailingFit_of_loop hloop

/-- A storage permutation that returned has formed the products of its kernel. -/
theorem permuteNode_fits (hinfer : inferPermute permute f = .ok [o])
    (h : executePermuteNode host permute [o] [input] [f] ⟨false⟩ = .ok ex) :
    PermuteFits host permute f o := by
  obtain ⟨o', ho, hp⟩ := inferPermute_ok hinfer
  obtain ⟨rfl, _⟩ := List.cons.inj ho
  intro hmode hid
  obtain ⟨hshape, _, _⟩ := hp.storage hmode
  obtain ⟨_, hparts, h⟩ := bind_ok h
  obtain rfl := Except.ok.inj hparts
  obtain ⟨_, _, h⟩ := bind_ok h
  rw [if_neg (by rw [hid]; exact Bool.false_ne_true)] at h
  obtain ⟨fast, hfast, h⟩ := bind_ok h
  split
  · next hsel =>
    obtain ⟨horder, hcont⟩ := hsel
    obtain ⟨m, n, height, breadth, hdims⟩ := channelLast_shape hp horder
    intro havx hd hnine
    rw [hdims] at hnine ⊢
    unfold buildOihwToOhwiIfSupported at hfast
    rw [if_neg (by simp [hmode, horder, hcont]), hdims] at hfast
    obtain ⟨_, _, hfast⟩ := bind_ok hfast
    obtain ⟨spatial, hspatial, hfast⟩ := bind_ok hfast
    obtain ⟨_, _, hfast⟩ := bind_ok hfast
    obtain ⟨_, _, hfast⟩ := bind_ok hfast
    obtain ⟨width, hwidth, hfast⟩ := bind_ok hfast
    obtain ⟨_, _, hfast⟩ := bind_ok hfast
    obtain ⟨_, _, hfast⟩ := bind_ok hfast
    obtain ⟨_, hfast⟩ := unless_error_ok hfast
    have hspatial := (checkedMul_eq_some.mp (okOr_eq_ok.mp hspatial)).2
    rw [dtypeWidth_eq] at hwidth
    have hwidth : width = 2 := by
      rw [← Except.ok.inj hwidth]
      rcases hd with hd | hd
      · rw [hd]; rfl
      · rw [hd]; rfl
    rw [oihwKernel, if_pos ⟨hwidth, by rw [hspatial]; exact hnine, hd, havx⟩] at hfast
    obtain ⟨_, _, hfast⟩ := bind_ok hfast
    obtain ⟨_, hkernel, _⟩ := bind_ok hfast
    exact Simd.channelBytes_of_ok hkernel
  · next hsel =>
    rw [not_and_or, Bool.not_eq_true] at hsel
    have hnone : fast = none := by
      unfold buildOihwToOhwiIfSupported at hfast
      rw [if_pos (.inr hsel)] at hfast
      exact (Except.ok.inj hfast).symm
    rw [hnone] at h
    obtain ⟨zeroed, hz, h⟩ := bind_ok h
    obtain ⟨out, hout, _⟩ := bind_ok h
    rw [allocateTensor_ok hz, executePermuteBytes] at hout
    obtain ⟨_, _, hout⟩ := bind_ok hout
    cases hm : permute.mode with
    | logical => rw [hm] at hmode; cases hmode
    | storage layout =>
      rw [hm] at hout
      rw [← hshape]
      exact executeStorageCopy_fits hout

theorem padNode_succeeds {pad : Pad} (hinfer : inferPad pad f = .ok [o])
    (hin : Holds f input.bytes e) (hfit : TrailingFit f.logicalShape) :
    Succeeds (executePadNode [o] [input] [f] ⟨false⟩) fun _ => True := by
  obtain ⟨o', ho, hshape, hwidth⟩ := inferPad_ok hinfer
  obtain ⟨rfl, _⟩ := List.cons.inj ho
  refine Succeeds.step unaryParts_eq ?_
  refine Succeeds.step (validateViewLen_eq _ hin.length) ?_
  refine Succeeds.step (allocateTensor_eq o) ?_
  exact (executeStorageCopy_succeeds hin hshape.symm hwidth (by rw [hshape]; exact hfit)).bind
    fun _ _ => Succeeds.of_ok trivial

theorem padNode_fits {pad : Pad} (hinfer : inferPad pad f = .ok [o])
    (h : executePadNode [o] [input] [f] ⟨false⟩ = .ok ex) : TrailingFit f.logicalShape := by
  obtain ⟨o', ho, hshape, _⟩ := inferPad_ok hinfer
  obtain ⟨rfl, _⟩ := List.cons.inj ho
  obtain ⟨_, hparts, h⟩ := bind_ok h
  obtain rfl := Except.ok.inj hparts
  obtain ⟨_, _, h⟩ := bind_ok h
  obtain ⟨zeroed, hz, h⟩ := bind_ok h
  obtain ⟨out, hout, _⟩ := bind_ok h
  rw [allocateTensor_ok hz] at hout
  rw [← hshape]
  exact executeStorageCopy_fits hout

theorem sliceNode_succeeds {ranges : List AxisRange} (hinfer : inferSlice ranges f = .ok [o])
    (hin : Holds f input.bytes e) :
    Succeeds (executeSliceNode ranges [o] [input] [f] ⟨false⟩) fun _ => True := by
  obtain ⟨o', ho, hs, hwidth⟩ := inferSlice_ok hinfer
  obtain ⟨rfl, _⟩ := List.cons.inj ho
  refine Succeeds.step unaryParts_eq ?_
  refine Succeeds.step (allocateTensor_eq o) ?_
  exact (executeSliceBytes_succeeds hin hs hwidth (inferSlice_fits hinfer)).bind
    fun _ _ => Succeeds.of_ok trivial

theorem splitNode_succeeds {split : Split} {outs : List TensorFacts}
    (hinfer : inferSplit split f = .ok outs) (hin : Holds f input.bytes e) :
    Succeeds (executeSplitNode split outs [input] [f] ⟨false⟩) fun _ => True := by
  obtain ⟨hax, hs⟩ := inferSplit_ok hinfer
  refine Succeeds.step (x := okOr [input].head? _) rfl ?_
  refine Succeeds.step (x := okOr [f].head? _) rfl ?_
  refine (Succeeds.mapM (R := fun _ _ => True) fun x hx => ?_).bind fun _ _ =>
    Succeeds.of_ok trivial
  obtain ⟨range, o⟩ := x
  have ho : SplitOutput split.axis f range o := (List.forall₂_iff_zip.mp hs).2 hx
  refine Succeeds.step rfl ?_
  refine Succeeds.step (allocateTensor_eq o) ?_
  exact (executeSliceBytes_succeeds hin (ho.sliced hax) ho.width
    (inferSplit_fits hinfer o (List.of_mem_zip hx).2)).bind fun _ _ => Succeeds.of_ok trivial

end Unary

/-! ## All operations -/

section Node
variable {host : Host} {node : OperationNode} {ins : List (TensorFacts × Elements)}
  {inputs : List ByteView}

/-- **Success of one node.** -/
theorem executeNode_succeeds (hs : node.operation.isStructural = true)
    (hinfer : inferOutputs node.operation (ins.map Prod.fst) = .ok node.outputs)
    (hin : HoldsAll ins (inputs.map ByteView.bytes))
    (hfit : KernelFits host node (ins.map Prod.fst)) :
    Succeeds (executeNode host node inputs (ins.map Prod.fst) ⟨false⟩) fun _ => True := by
  have hlen : (ins.map Prod.fst).length = inputs.length := by
    rw [hin.length, List.length_map]
  refine Succeeds.guard (not_not.mpr hlen) ?_
  unfold KernelFits at hfit
  cases hop : node.operation with
  | concat axis =>
    rw [hop] at hinfer hfit
    obtain ⟨o, ho, _⟩ := inferConcat_ok hinfer
    rw [ho] at hinfer
    dsimp only
    rw [ho]
    exact concatNode_succeeds hinfer hin hfit
  | permute permute =>
    rw [hop] at hinfer hfit
    obtain ⟨f, e, input, rfl, rfl, hh, hg⟩ := hin.unary hinfer
    obtain ⟨o, ho, _⟩ := inferPermute_ok hg
    rw [ho] at hg
    dsimp only
    rw [ho]
    exact permuteNode_succeeds hg hh (hfit f o rfl ho)
  | pad pad =>
    rw [hop] at hinfer hfit
    obtain ⟨f, e, input, rfl, rfl, hh, hg⟩ := hin.unary hinfer
    obtain ⟨o, ho, _⟩ := inferPad_ok hg
    rw [ho] at hg
    dsimp only
    rw [ho]
    exact padNode_succeeds hg hh (hfit f (List.mem_singleton.mpr rfl))
  | slice ranges =>
    rw [hop] at hinfer
    obtain ⟨f, e, input, rfl, rfl, hh, hg⟩ := hin.unary hinfer
    obtain ⟨o, ho, _⟩ := inferSlice_ok hg
    rw [ho] at hg
    dsimp only
    rw [ho]
    exact sliceNode_succeeds hg hh
  | split split =>
    rw [hop] at hinfer
    obtain ⟨f, e, input, rfl, rfl, hh, hg⟩ := hin.unary hinfer
    exact splitNode_succeeds hg hh
  | reshape shape =>
    rw [hop] at hinfer
    obtain ⟨f, e, input, rfl, rfl, hh, hg⟩ := hin.unary hinfer
    exact Succeeds.of_ok trivial
  | prepare transform =>
    rw [hop] at hs
    cases hs

/-- A node that returned has formed the products of its kernel. -/
theorem executeNode_fits {ex : NodeExecution}
    (hinfer : inferOutputs node.operation (ins.map Prod.fst) = .ok node.outputs)
    (hin : HoldsAll ins (inputs.map ByteView.bytes))
    (h : executeNode host node inputs (ins.map Prod.fst) ⟨false⟩ = .ok ex) :
    KernelFits host node (ins.map Prod.fst) := by
  obtain ⟨_, h⟩ := unless_error_ok h
  unfold KernelFits
  cases hop : node.operation with
  | concat axis =>
    rw [hop] at hinfer h
    obtain ⟨o, ho, _⟩ := inferConcat_ok hinfer
    dsimp only at h
    rw [ho] at hinfer h
    exact fun hall first hfirst => concatNode_fits hinfer h hall hfirst
  | permute permute =>
    rw [hop] at hinfer h
    obtain ⟨f, e, input, rfl, rfl, hh, hg⟩ := hin.unary hinfer
    intro f' o hf ho
    obtain ⟨rfl, _⟩ := List.cons.inj hf
    dsimp only at h
    rw [ho] at hg h
    exact permuteNode_fits hg h
  | pad pad =>
    rw [hop] at hinfer h
    obtain ⟨f, e, input, rfl, rfl, hh, hg⟩ := hin.unary hinfer
    obtain ⟨o, ho, _⟩ := inferPad_ok hg
    dsimp only at h
    rw [ho] at hg h
    intro f' hf
    obtain rfl := List.mem_singleton.mp hf
    exact padNode_fits hg h
  | slice ranges => exact trivial
  | split split => exact trivial
  | reshape shape => exact trivial
  | prepare transform => exact trivial

end Node

end ModelWeights.Graph
