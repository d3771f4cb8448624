import ModelWeights.Graph.InferSpec
import ModelWeights.Graph.Liveness

/-! # The meaning of a graph

A value denotes its contents. Every node gives its outputs the meaning of its
operation on the contents of its inputs; a `Prepare` node applies the byte
function of its provider to the storage of its input. `executeNode_lays` is the
correctness of one node, by cases on the operation, and `retainNodes_denotes`
the induction over the nodes of a graph. -/
namespace ModelWeights.Graph
open Strided Buffer

/-! ## Denotation -/

/-- The byte function of a provider, at one request: the source where it chooses
to reuse it, else the bytes it prepares. -/
def PreparationProvider.byteFunction (provider : PreparationProvider) (request : PrepareRequest)
    (cancellation : CancellationToken) : Bytes :=
  match provider.validate request cancellation with
  | .ok .reuseSource => request.source
  | .ok (.allocate outputBytes scratchBytes) =>
    match provider.prepareAllocated request outputBytes scratchBytes cancellation with
    | .ok output => output
    | .error _ => []
  | .error _ => []

def PreparationEngine.byteFunction (engine : PreparationEngine) (request : PrepareRequest)
    (cancellation : CancellationToken) : Bytes :=
  match engine.providers request.transform.implementation with
  | some provider => provider.byteFunction request cancellation
  | none => []

/-- The contents of the outputs of an operation. -/
def denoteOperation (engine : PreparationEngine) (cancellation : CancellationToken)
    (operation : Operation) (inputs : List (TensorFacts × Elements))
    (outputs : List TensorFacts) : List Elements :=
  match operation, inputs with
  | .concat axis, inputs => [concatElements axis inputs]
  | .permute permute, [(_, e)] =>
    match permute.mode with
    | .logical => [permuteElements permute.order e]
    | .storage _ => [e]
  | .pad _, [(_, e)] => [e]
  | .slice ranges, [(_, e)] => [sliceElements ranges e]
  | .split split, [(_, e)] => split.ranges.map fun range => splitElements split.axis range e
  | .reshape shape, [(f, e)] => [reshapeElements f.logicalShape shape e]
  | .prepare transform, [(f, e)] =>
    outputs.map fun o =>
      o.element (engine.byteFunction (prepareRequest transform f (f.layout e)) cancellation)
  | _, _ => []

/-- Contents of all values. -/
abbrev Meaning := ValueRef → Elements

def Meaning.bindOutputs (m : Meaning) (nodeIndex : Nat) (outputs : List Elements) : Meaning
  | .nodeOutput n o => if n = nodeIndex then outputs.getD o (fun _ => []) else m (.nodeOutput n o)
  | .input i => m (.input i)

section Denotation
variable (graph : OperationGraph) (engine : PreparationEngine) (cancellation : CancellationToken)

def inputMeaning (inputs : List ByteView) : Meaning
  | .input i => match graph.inputs[i]?, inputs[i]? with
    | some descriptor, some view => descriptor.facts.element view.bytes
    | _, _ => fun _ => []
  | .nodeOutput _ _ => fun _ => []

/-- The inputs of a node with their facts. -/
def nodeInputs (m : Meaning) (node : OperationNode) : List (TensorFacts × Elements) :=
  node.inputs.filterMap fun value => (graph.facts value).map fun f => (f, m value)

def denoteNodes : Nat → List OperationNode → Meaning → Meaning
  | _, [], m => m
  | nodeIndex, node :: rest, m =>
    denoteNodes (nodeIndex + 1) rest (m.bindOutputs nodeIndex
      (denoteOperation engine cancellation node.operation (nodeInputs graph m node) node.outputs))

/-- The contents of every value of the graph on the given inputs. -/
def OperationGraph.denote (inputs : List ByteView) : Meaning :=
  denoteNodes graph engine cancellation 0 graph.nodes (inputMeaning graph inputs)

end Denotation

/-! ## One node -/

/-- `bytes` is the storage of contents of the right element width. -/
structure Lays (f : TensorFacts) (e : Elements) (bytes : Bytes) : Prop where
  layout : bytes = f.layout e
  width : ∀ coord, InBounds f.logicalShape coord → (e coord).length = f.width

theorem Lays.holds {f : TensorFacts} {e : Elements} {bytes : Bytes} (h : Lays f e bytes) :
    Holds f bytes e := h.layout ▸ holds_layout h.width

/-- Bytes that read back as the contents are their storage when there is no
padding. -/
theorem Holds.lays {f : TensorFacts} {e : Elements} {bytes : Bytes} (h : Holds f bytes e)
    (hdense : f.Dense) : Lays f e bytes :=
  ⟨h.eq_layout hdense, fun _ hc => h.element_length hc⟩

section Node
variable {host : Host} {cancellation : CancellationToken} {f o : TensorFacts} {e : Elements}
  {input : ByteView} {ex : NodeExecution}

theorem padNode_lays (hin : Holds f input.bytes e) (hw : f.width = o.width)
    (hshape : o.logicalShape = f.logicalShape)
    (h : executePadNode [o] [input] [f] cancellation = .ok ex) :
    ∃ p, ex.outputs = [p] ∧ Lays o e p.bytes.bytes := by
  obtain ⟨_, hparts, h⟩ := bind_ok h
  obtain rfl := Except.ok.inj hparts
  obtain ⟨_, _, h⟩ := bind_ok h
  obtain ⟨zeroed, hz, h⟩ := bind_ok h
  obtain ⟨out, hout, h⟩ := bind_ok h
  rw [allocateTensor_ok hz] at hout
  refine ⟨_, by rw [← Except.ok.inj h]; rfl, executeStorageCopy_layout hin hw hout, ?_⟩
  intro coord hc
  rw [hin.element_length (hshape ▸ hc), hw]

theorem sliceNode_lays {ranges : List AxisRange} (hin : Holds f input.bytes e)
    (hs : Sliced ranges f.logicalShape o.logicalShape) (hw : f.width = o.width)
    (h : executeSliceNode ranges [o] [input] [f] cancellation = .ok ex) :
    ∃ p, ex.outputs = [p] ∧ Lays o (sliceElements ranges e) p.bytes.bytes := by
  obtain ⟨_, hparts, h⟩ := bind_ok h
  obtain rfl := Except.ok.inj hparts
  obtain ⟨zeroed, hz, h⟩ := bind_ok h
  obtain ⟨out, hout, h⟩ := bind_ok h
  rw [allocateTensor_ok hz] at hout
  refine ⟨_, by rw [← Except.ok.inj h]; rfl, executeSliceBytes_layout hin hs hw hout, ?_⟩
  intro coord hc
  rw [sliceElements, hin.element_length
    (sliced_inBounds ⟨hs.length, rfl, hs.inside⟩ (hs.outShape ▸ hc)), hw]

theorem reshapeNode_lays {shape : List Nat} (hin : Holds f input.bytes e)
    (hf : f.isCanonicalContiguous = true) (hl : o.logicalShape = shape) (hd : o.Dense)
    (hst : o.storageStrides = rowMajor shape) (hprod : shape.prod = f.logicalShape.prod)
    (hw : f.width = o.width) (h : executeReshapeNode [input] = .ok ex) :
    ∃ p, ex.outputs = [p] ∧ Lays o (reshapeElements f.logicalShape shape e) p.bytes.bytes := by
  obtain ⟨_, hi, h⟩ := bind_ok h
  obtain rfl := Option.some.inj (okOr_eq_ok.mp hi)
  obtain ⟨hshape, _, hrow⟩ := TensorFacts.isCanonicalContiguous_iff hf
  refine ⟨_, by rw [← Except.ok.inj h], Holds.lays ⟨?_, ?_⟩ hd⟩
  · rw [hin.length, f.spec.byteLen, o.spec.byteLen, hd, hl, hprod, hshape, hw]
  · intro coord hc
    rw [hl] at hc
    -- both sides read the element with the row-major number of `coord`
    obtain ⟨i, hi, rfl⟩ := hc.exists_unravel
    have hi' : i < f.logicalShape.prod := hprod ▸ hi
    rw [reshapeElements, dot_unravel hi, ← hin.read _ (unravel_inBounds hi')]
    simp only [TensorFacts.element, TensorFacts.offset, hst, hrow, dot_unravel hi,
      dot_unravel hi', hw]

theorem splitElements_eq {axis : Nat} {range : AxisRange} {shape coord : List Nat}
    (hlen : coord.length = shape.length) :
    sliceElements (splitRanges axis range shape) e coord = splitElements axis range e coord := by
  unfold sliceElements splitElements splitRanges
  congr 1
  apply List.ext_getElem?
  intro i
  rw [List.getElem?_zipWith]
  rcases Nat.lt_or_ge i coord.length with hlt | hge
  · by_cases hi : axis = i
    · subst hi
      simp [hlt, show axis < shape.length by omega]
    · rw [List.getElem?_set_ne hi, List.getElem?_set_ne hi, List.getElem?_map]
      simp [List.getElem?_eq_getElem hlt,
        List.getElem?_eq_getElem (show i < shape.length by omega)]
  · have hset : (coord.set axis (range.start + coord.getD axis 0)).length ≤ i := by
      simpa using hge
    rw [List.getElem?_eq_none hset, List.getElem?_eq_none hge]
    split <;> simp_all

/-- The step of the split loop for one range. -/
def splitOutput (split : Split) (f : TensorFacts) (input : ByteView)
    (cancellation : CancellationToken) (x : AxisRange × TensorFacts) : Result ProducedValue := do
  cancellation.check
  let output ← allocateTensor x.2 cancellation
  let output ← executeSliceBytes (splitRanges split.axis x.1 f.logicalShape) f input.bytes x.2
    output cancellation
  .ok ⟨.fromBoxed output, .fresh⟩

theorem splitOutput_lays {split : Split} {range : AxisRange} {p : ProducedValue}
    (hin : Holds f input.bytes e) (hax : split.axis < f.logicalShape.length)
    (ho : SplitOutput split.axis f range o)
    (h : splitOutput split f input cancellation (range, o) = .ok p) :
    Lays o (splitElements split.axis range e) p.bytes.bytes := by
  obtain ⟨_, _, h⟩ := bind_ok h
  obtain ⟨zeroed, hz, h⟩ := bind_ok h
  obtain ⟨out, hout, h⟩ := bind_ok h
  rw [allocateTensor_ok hz] at hout
  have hsl := ho.sliced hax
  have hlen : o.logicalShape.length = f.logicalShape.length := by rw [ho.shape]; simp
  rw [← Except.ok.inj h]
  refine ⟨(executeSliceBytes_layout hin hsl ho.width hout).trans (layout_congr ?_), ?_⟩
  · intro coord hc
    exact splitElements_eq (hc.length_eq.trans hlen)
  · intro coord hc
    rw [← splitElements_eq (hc.length_eq.trans hlen), sliceElements, hin.element_length
      (sliced_inBounds ⟨hsl.length, rfl, hsl.inside⟩ (hsl.outShape ▸ hc)), ho.width]

theorem splitOutputs_lays {split : Split} (hin : Holds f input.bytes e)
    (hax : split.axis < f.logicalShape.length) {ranges : List AxisRange}
    {outs : List TensorFacts} (hs : List.Forall₂ (SplitOutput split.axis f) ranges outs) :
    ∀ {produced : List ProducedValue},
      (ranges.zip outs).mapM (splitOutput split f input cancellation) = .ok produced →
      List.Forall₂ (fun (x : TensorFacts × Elements) p => Lays x.1 x.2 p.bytes.bytes)
        (outs.zip (ranges.map fun range => splitElements split.axis range e)) produced := by
  induction hs with
  | nil =>
    intro produced hp
    obtain rfl : [] = produced := by simpa [pure, Except.pure] using hp
    exact .nil
  | @cons range o ranges outs ho _ ih =>
    intro produced hp
    rw [List.zip_cons_cons, List.mapM_cons] at hp
    obtain ⟨p, hp1, hp⟩ := bind_ok hp
    obtain ⟨more, hmore, hp⟩ := bind_ok hp
    obtain rfl : p :: more = produced := by simpa [pure, Except.pure] using hp
    exact .cons (splitOutput_lays hin hax ho hp1) (ih hmore)

theorem splitNode_lays {split : Split} {outs : List TensorFacts} (hin : Holds f input.bytes e)
    (hax : split.axis < f.logicalShape.length)
    (hs : List.Forall₂ (SplitOutput split.axis f) split.ranges outs)
    (h : executeSplitNode split outs [input] [f] cancellation = .ok ex) :
    List.Forall₂ (fun (x : TensorFacts × Elements) p => Lays x.1 x.2 p.bytes.bytes)
      (outs.zip (split.ranges.map fun range => splitElements split.axis range e)) ex.outputs := by
  obtain ⟨_, hi, h⟩ := bind_ok h
  obtain rfl := Option.some.inj (okOr_eq_ok.mp hi)
  obtain ⟨_, hf, h⟩ := bind_ok h
  obtain rfl := Option.some.inj (okOr_eq_ok.mp hf)
  obtain ⟨produced, hp, h⟩ := bind_ok h
  rw [← Except.ok.inj h]
  exact splitOutputs_lays hin hax hs hp

/-! ### Permutations -/

/-- The contents of a permuted value. -/
def permutedElements (permute : Permute) (e : Elements) : Elements :=
  match permute.mode with
  | .logical => permuteElements permute.order e
  | .storage _ => e

theorem permutedElements_logical {permute : Permute} (hm : permute.mode = .logical) :
    permutedElements permute e = permuteElements permute.order e := by
  rw [permutedElements, hm]

theorem permutedElements_storage {permute : Permute} (hm : permute.mode.isStorage = true) :
    permutedElements permute e = e := by
  rw [permutedElements]
  split
  · next h => rw [h] at hm; cases hm
  · rfl

theorem permuteElements_range {coord : List Nat} :
    permuteElements (List.range coord.length) e coord = e coord := by
  rw [permuteElements, List.length_range]
  congr 1
  apply List.ext_getElem?
  intro i
  rcases Nat.lt_or_ge i coord.length with hi | hi
  · have hidx : (List.range coord.length).idxOf i = i := by
      have := List.nodup_range.idxOf_getElem i (by simpa using hi)
      simpa using this
    simp [List.getElem?_range hi, hidx, List.getElem?_eq_getElem hi]
  · rw [List.getElem?_eq_none (by simpa using hi), List.getElem?_eq_none hi]

/-- A permutation that keeps all facts keeps the contents. -/
theorem identity_holds {permute : Permute} (hp : Permuted permute f f)
    (hid : isIdentityOrder permute.order = true) (hin : Holds f input.bytes e) :
    Holds f input.bytes (permutedElements permute e) := by
  refine ⟨hin.length, fun coord hc => ?_⟩
  rw [hin.read coord hc]
  cases hm : permute.mode with
  | logical =>
    rw [permutedElements_logical hm, isIdentityOrder_eq hid, hp.rank, ← hc.length_eq,
      permuteElements_range]
  | storage layout => rw [permutedElements_storage (by rw [hm]; rfl)]

theorem permutedElements_length {permute : Permute} (hp : Permuted permute f o)
    (hin : Holds f input.bytes e) {coord : List Nat} (hc : InBounds o.logicalShape coord) :
    (permutedElements permute e coord).length = o.width := by
  rw [← hp.width]
  cases hm : permute.mode with
  | logical =>
    rw [permutedElements_logical hm]
    exact hin.element_length (permute_inBounds (validatePermutation_ok hp.valid).2 hp.rank
      (hp.logical hm ▸ hc))
  | storage layout =>
    have hs : permute.mode.isStorage = true := by rw [hm]; rfl
    rw [permutedElements_storage hs]
    exact hin.element_length ((hp.storage hs).1 ▸ hc)

theorem scatterStrides_channelLast (m h w n : Nat) :
    scatterStrides [0, 2, 3, 1] (rowMajor [m, h, w, n]) = [h * (w * n), 1, w * n, n] := by
  simp [scatterStrides, rowMajor, List.replicate]

/-- The fast path, when it is taken, lays out the unchanged contents. -/
theorem oihw_layout {permute : Permute} {out : Bytes} (hp : Permuted permute f o)
    (hin : Holds f input.bytes e)
    (h : buildOihwToOhwiIfSupported host permute f o input.bytes cancellation = .ok (some out)) :
    permute.mode.isStorage = true ∧ out = o.layout e := by
  unfold buildOihwToOhwiIfSupported at h
  split at h
  · cases h
  next hsel =>
  simp only [not_or, Bool.not_eq_false, not_not] at hsel
  obtain ⟨hmode, horder, hcont⟩ := hsel
  refine ⟨hmode, ?_⟩
  obtain ⟨hshape, hstorage, hstrides⟩ := hp.storage hmode
  obtain ⟨_, _, h⟩ := bind_ok h
  split at h
  · next m n height breadth hdims =>
    obtain ⟨spatial, hsp, h⟩ := bind_ok h
    obtain ⟨channel, hch, h⟩ := bind_ok h
    obtain ⟨elements, hel, h⟩ := bind_ok h
    obtain ⟨width, hwidth, h⟩ := bind_ok h
    obtain ⟨_, _, h⟩ := bind_ok h
    obtain ⟨_, _, h⟩ := bind_ok h
    obtain ⟨_, h⟩ := unless_error_ok h
    have hsp := (checkedMul_eq_some.mp (okOr_eq_ok.mp hsp)).2
    have hch := (checkedMul_eq_some.mp (okOr_eq_ok.mp hch)).2
    have hel := (checkedMul_eq_some.mp (okOr_eq_ok.mp hel)).2
    have hwidth : f.width = width := by
      rw [dtypeWidth_eq] at hwidth
      exact Except.ok.inj hwidth
    have hstorage : o.storageShape = [m, height, breadth, n] := by
      rw [hstorage, horder, hdims]; rfl
    have hc : ChannelLast f o m n height breadth :=
      ⟨hdims, hcont, hshape.trans hdims, hstorage,
        by rw [hstrides, hstorage, horder, scatterStrides_channelLast], hp.width⟩
    rw [← ohwiOrder_layout hc hin, ← hsp, hwidth]
    dsimp only [oihwKernel] at h
    split at h
    · next hsimd =>
      obtain ⟨_, _, h⟩ := bind_ok h
      obtain ⟨result, hr, h⟩ := bind_ok h
      rw [← Option.some.inj (Except.ok.inj h), Simd.permuteOihwToOhwi3x3U16_ok hr, hsimd.1,
        hsimd.2.1]
    · split at h
      · obtain ⟨result, hr, h⟩ := bind_ok h
        rw [← Option.some.inj (Except.ok.inj h),
          buildOihwToOhwiElements_ok (by rw [hel, hch]) hr]
      · cases h
  · cases h

theorem permuteNode_lays {permute : Permute} (hp : Permuted permute f o)
    (hin : Holds f input.bytes e)
    (h : executePermuteNode host permute [o] [input] [f] cancellation = .ok ex) :
    ∃ p, ex.outputs = [p] ∧ Lays o (permutedElements permute e) p.bytes.bytes := by
  obtain ⟨_, hparts, h⟩ := bind_ok h
  obtain rfl := Except.ok.inj hparts
  obtain ⟨_, _, h⟩ := bind_ok h
  split at h
  · next hid =>
    simp only [isIdentityPermutation, Bool.and_eq_true, decide_eq_true_eq] at hid
    obtain ⟨_, _, h⟩ := bind_ok h
    have hex := Except.ok.inj h
    obtain ⟨hid, rfl⟩ := hid
    exact ⟨_, by rw [← hex], (identity_holds hp hid hin).lays hp.dense⟩
  obtain ⟨fast, hfast, h⟩ := bind_ok h
  cases fast with
  | some out =>
    obtain ⟨hmode, hout⟩ := oihw_layout hp hin hfast
    refine ⟨_, by rw [← Except.ok.inj h]; rfl, ?_,
      fun coord hc => permutedElements_length hp hin hc⟩
    rw [permutedElements_storage hmode]
    exact hout
  | none =>
    obtain ⟨zeroed, hz, h⟩ := bind_ok h
    obtain ⟨out, hout, h⟩ := bind_ok h
    rw [allocateTensor_ok hz] at hout
    refine ⟨_, by rw [← Except.ok.inj h]; rfl, ?_,
      fun coord hc => permutedElements_length hp hin hc⟩
    cases hm : permute.mode with
    | logical =>
      rw [permutedElements_logical hm]
      exact executePermuteBytes_layout hin hp.valid hp.rank hm (hp.logical hm) hp.width hout
    | storage layout =>
      rw [executePermuteBytes, hm] at hout
      obtain ⟨_, _, hout⟩ := bind_ok hout
      rw [permutedElements_storage (by rw [hm]; rfl)]
      exact executeStorageCopy_layout hin hp.width hout

/-! ### Concatenation and preparation -/

theorem concatNode_lays {axis : Nat} {ins : List (TensorFacts × Elements)}
    {inputs : List ByteView} (hc : Concatenated axis (ins.map Prod.fst) o)
    (hin : HoldsAll ins (inputs.map ByteView.bytes))
    (h : executeConcatNode axis [o] inputs (ins.map Prod.fst) cancellation = .ok ex) :
    ∃ p, ex.outputs = [p] ∧ Lays o (concatElements axis ins) p.bytes.bytes := by
  obtain ⟨_, hparts, h⟩ := bind_ok h
  obtain rfl := Except.ok.inj hparts
  dsimp only at h
  split at h
  · next hcont =>
    rw [Bool.and_eq_true, List.all_eq_true] at hcont
    obtain ⟨out, hout, h⟩ := bind_ok h
    exact ⟨_, by rw [← Except.ok.inj h]; rfl,
      buildContiguousConcat_layout hc hin hcont.1 hcont.2 hout,
      fun coord hb => concatElements_length hc hin hb⟩
  · obtain ⟨zeroed, hz, h⟩ := bind_ok h
    obtain ⟨out, hout, h⟩ := bind_ok h
    rw [allocateTensor_ok hz] at hout
    exact ⟨_, by rw [← Except.ok.inj h]; rfl, executeConcatBytes_layout hc hin hout,
      fun coord hb => concatElements_length hc hin hb⟩

theorem prepareWithCancellation_bytes {engine : PreparationEngine} {request : PrepareRequest}
    {r : Prepared} {view : ByteView} (hview : view.bytes = request.source)
    (h : engine.prepareWithCancellation request cancellation = .ok r) :
    (r.view view).bytes = engine.byteFunction request cancellation := by
  obtain ⟨_, _, h⟩ := bind_ok h
  obtain ⟨provider, hprovider, h⟩ := bind_ok h
  obtain ⟨strategy, hstrategy, h⟩ := bind_ok h
  obtain ⟨_, _, h⟩ := bind_ok h
  have hprovider := okOr_eq_ok.mp hprovider
  rw [PreparationEngine.byteFunction, hprovider]
  simp only [PreparationProvider.byteFunction, hstrategy]
  cases strategy with
  | reuseSource =>
    obtain ⟨_, _, h⟩ := bind_ok h
    obtain ⟨_, _, h⟩ := bind_ok h
    rw [← Except.ok.inj h]
    exact hview
  | allocate outputBytes scratchBytes =>
    obtain ⟨⟨ol, sl⟩, hlen, h⟩ := bind_ok h
    obtain ⟨_, _, h⟩ := bind_ok h
    obtain ⟨out, hout, h⟩ := bind_ok h
    obtain ⟨_, _, h⟩ := bind_ok h
    obtain ⟨_, _, h⟩ := bind_ok h
    have hlen := Except.ok.inj (unless_error_ok (unless_error_ok hlen).2).2
    simp only [Prod.mk.injEq] at hlen
    rw [← hlen.1, ← hlen.2] at hout
    rw [← Except.ok.inj h]
    simp only [hout]
    rfl

theorem prepareNode_lays {transform : PlannedTransform} (hin : Holds f input.bytes e)
    (hf : f.isCanonicalContiguous = true) (hd : o.Dense)
    (hlen : ∀ p ∈ ex.outputs, p.bytes.bytes.length = o.byteLen)
    (h : executePrepareNode host transform [input] [f] cancellation = .ok ex) :
    ∃ p, ex.outputs = [p] ∧ Lays o (o.element (host.preparation.byteFunction
      (prepareRequest transform f (f.layout e)) cancellation)) p.bytes.bytes := by
  obtain ⟨_, hi, h⟩ := bind_ok h
  obtain rfl := Option.some.inj (okOr_eq_ok.mp hi)
  obtain ⟨_, hf', h⟩ := bind_ok h
  obtain rfl := Option.some.inj (okOr_eq_ok.mp hf')
  obtain ⟨prepared, hprep, h⟩ := bind_ok h
  obtain rfl := Except.ok.inj h
  have hbytes := prepareWithCancellation_bytes (show input.bytes = _ from rfl) hprep
  have hdense : f.Dense := by
    rw [TensorFacts.Dense, (TensorFacts.isCanonicalContiguous_iff hf).1]
  refine ⟨_, rfl, ?_⟩
  rw [← hin.eq_layout hdense, ← hbytes]
  exact (holds_element (hlen _ (List.mem_singleton.mpr rfl))).lays hd

/-! ### All operations -/

theorem oneInput_ok {fs : List TensorFacts} {r : List TensorFacts}
    {g : TensorFacts → Result (List TensorFacts)} (h : (oneInput fs >>= g) = .ok r) :
    ∃ f, fs = [f] ∧ g f = .ok r := by
  obtain ⟨f, hf, h⟩ := bind_ok h
  unfold oneInput at hf
  split at hf
  · next f' =>
    obtain rfl := Except.ok.inj hf
    exact ⟨f', rfl, h⟩
  · cases hf

theorem forall₂_singleton {α β : Type} {R : α → β → Prop} {a : α} {b : β} {l : List β}
    (hl : l = [b]) (h : R a b) : List.Forall₂ R [a] l := by
  subst hl
  exact .cons h .nil

/-- A unary operation has one input, with its facts, contents and bytes. -/
theorem HoldsAll.unary {ins : List (TensorFacts × Elements)} {inputs : List ByteView}
    {outputs : List TensorFacts} {g : TensorFacts → Result (List TensorFacts)}
    (hin : HoldsAll ins (inputs.map ByteView.bytes))
    (hg : (oneInput (ins.map Prod.fst) >>= g) = .ok outputs) :
    ∃ f e input, ins = [(f, e)] ∧ inputs = [input] ∧ Holds f input.bytes e ∧
      g f = .ok outputs := by
  obtain ⟨f, hf, hg⟩ := oneInput_ok hg
  obtain ⟨x, rfl, rfl⟩ := List.map_eq_singleton_iff.mp hf
  obtain ⟨b, hx, hb⟩ : ∃ b, Holds x.1 b x.2 ∧ inputs.map ByteView.bytes = [b] := by
    generalize inputs.map ByteView.bytes = views at hin
    cases hin with
    | cons hx hrest => cases hrest with | nil => exact ⟨_, hx, rfl⟩
  obtain ⟨input, rfl, rfl⟩ := List.map_eq_singleton_iff.mp hb
  exact ⟨x.1, x.2, input, rfl, rfl, hx, hg⟩

/-- The structural operations. -/
theorem structuralNode_lays {node : OperationNode} {ins : List (TensorFacts × Elements)}
    {inputs : List ByteView} (hs : node.operation.isStructural = true)
    (hinfer : inferOutputs node.operation (ins.map Prod.fst) = .ok node.outputs)
    (hin : HoldsAll ins (inputs.map ByteView.bytes))
    (h : executeNode host node inputs (ins.map Prod.fst) cancellation = .ok ex) :
    List.Forall₂ (fun (x : TensorFacts × Elements) p => Lays x.1 x.2 p.bytes.bytes)
      (node.outputs.zip (denoteOperation host.preparation cancellation node.operation ins
        node.outputs)) ex.outputs := by
  obtain ⟨_, h⟩ := unless_error_ok h
  cases hop : node.operation with
  | concat axis =>
    rw [hop] at hinfer h
    obtain ⟨o, ho, hc, _⟩ := inferConcat_ok hinfer
    dsimp only at h
    rw [ho] at h ⊢
    obtain ⟨p, hp, hl⟩ := concatNode_lays hc hin h
    exact forall₂_singleton hp hl
  | permute permute =>
    rw [hop] at hinfer h
    obtain ⟨f, e, input, rfl, rfl, hh, hg⟩ := hin.unary hinfer
    obtain ⟨o, ho, hp⟩ := inferPermute_ok hg
    dsimp only at h
    rw [ho] at h ⊢
    obtain ⟨p, hpe, hl⟩ := permuteNode_lays hp hh h
    have hden : denoteOperation host.preparation cancellation (.permute permute) [(f, e)] [o] =
        [permutedElements permute e] := by
      cases hm : permute.mode <;> simp [denoteOperation, permutedElements, hm]
    rw [hden]
    exact forall₂_singleton hpe hl
  | pad pad =>
    rw [hop] at hinfer h
    obtain ⟨f, e, input, rfl, rfl, hh, hg⟩ := hin.unary hinfer
    obtain ⟨o, ho, hs, hw⟩ := inferPad_ok hg
    dsimp only at h
    rw [ho] at h ⊢
    obtain ⟨p, hpe, hl⟩ := padNode_lays hh hw hs h
    exact forall₂_singleton hpe hl
  | slice ranges =>
    rw [hop] at hinfer h
    obtain ⟨f, e, input, rfl, rfl, hh, hg⟩ := hin.unary hinfer
    obtain ⟨o, ho, hs, hw⟩ := inferSlice_ok hg
    dsimp only at h
    rw [ho] at h ⊢
    obtain ⟨p, hpe, hl⟩ := sliceNode_lays hh hs hw h
    exact forall₂_singleton hpe hl
  | split split =>
    rw [hop] at hinfer h
    obtain ⟨f, e, input, rfl, rfl, hh, hg⟩ := hin.unary hinfer
    obtain ⟨hax, hs⟩ := inferSplit_ok hg
    exact splitNode_lays hh hax hs h
  | reshape shape =>
    rw [hop] at hinfer h
    obtain ⟨f, e, input, rfl, rfl, hh, hg⟩ := hin.unary hinfer
    obtain ⟨hf, o, ho, hl, hd, hst, hprod, hw⟩ := inferReshape_ok hg
    rw [ho]
    obtain ⟨p, hpe, hl⟩ := reshapeNode_lays hh hf hl hd hst hprod hw h
    exact forall₂_singleton hpe hl
  | prepare transform =>
    rw [hop] at hs
    cases hs

/-- **Correctness of one node.** Its outputs are the storage of the meaning of
its operation on the contents its inputs hold. -/
theorem executeNode_lays {node : OperationNode} {ins : List (TensorFacts × Elements)}
    {inputs : List ByteView} (hinfer : inferOutputs node.operation (ins.map Prod.fst) =
      .ok node.outputs) (hin : HoldsAll ins (inputs.map ByteView.bytes))
    (hlen : List.Forall₂ (fun (o : TensorFacts) (p : ProducedValue) =>
      p.bytes.bytes.length = o.byteLen) node.outputs ex.outputs)
    (h : executeNode host node inputs (ins.map Prod.fst) cancellation = .ok ex) :
    List.Forall₂ (fun (x : TensorFacts × Elements) p => Lays x.1 x.2 p.bytes.bytes)
      (node.outputs.zip (denoteOperation host.preparation cancellation node.operation ins
        node.outputs)) ex.outputs := by
  cases hs : node.operation.isStructural with
  | true => exact structuralNode_lays hs hinfer hin h
  | false =>
    obtain ⟨transform, hop⟩ := Operation.prepare_of_not_structural hs
    obtain ⟨_, h⟩ := unless_error_ok h
    rw [hop] at hinfer h ⊢
    obtain ⟨f, e, input, rfl, rfl, hh, hg⟩ := hin.unary hinfer
    obtain ⟨hf, o, ho, hd, _⟩ := inferPrepare_ok hg
    rw [ho] at hlen ⊢
    have hall : ∀ p ∈ ex.outputs, p.bytes.bytes.length = o.byteLen := by
      intro p hp
      cases hex : ex.outputs with
      | nil => rw [hex] at hp; cases hp
      | cons q qs =>
        rw [hex] at hlen hp
        cases hlen with
        | cons hq hqs =>
          cases hqs
          rwa [List.mem_singleton.mp hp]
    obtain ⟨p, hpe, hl⟩ := prepareNode_lays hh hf hd hall h
    exact forall₂_singleton hpe hl

end Node

/-! ## The whole graph -/

section Graph
variable {graph : OperationGraph} {host : Host} {cancellation : CancellationToken}
  {inputs : List ByteView}

theorem orFault_eq_ok {α : Type} {x : Option α} {fault : LivenessFault} {a : α} :
    orFault x fault = .ok a ↔ x = some a := by
  cases x <;> simp [orFault]

theorem lift_eq_ok {α : Type} {x : Result α} {a : α} : lift x = .ok a ↔ x = .ok a := by
  cases x <;> simp [lift]

/-- Looking up facts in the finished graph gives what inference used. -/
theorem graph_inputFacts {k : Nat} {node : OperationNode} (hk : graph.nodes[k]? = some node) :
    ∃ fs, node.inputs.mapM (fun value => orFault (graph.facts value) .inputFactsUnavailable) =
      .ok fs ∧ inferOutputs node.operation fs = .ok node.outputs := by
  obtain ⟨fs, hfs, hinfer⟩ := graph.inferred k node hk
  refine ⟨fs, mapM_ok_congr (fun v f hv => ?_) hfs, hinfer⟩
  rw [orFault_eq_ok, OperationGraph.facts, ← List.take_append_drop k graph.nodes]
  simpa using factsOf_append [] (graph.nodes.drop k) (okOr_eq_ok.mp hv)

/-- `view` holds what `m` denotes: external inputs as they were given, outputs
of the first `k` nodes as the storage of their contents. -/
structure Represents (graph : OperationGraph) (inputs : List ByteView) (k : Nat)
    (view : ValueRef → Option ByteView) (m : Meaning) : Prop where
  earlier : ∀ n o bv, view (.nodeOutput n o) = some bv → n < k
  given : ∀ i, view (.input i) = inputs[i]?
  input : ∀ i bv f, view (.input i) = some bv → graph.facts (.input i) = some f →
    Holds f bv.bytes (m (.input i))
  output : ∀ n o bv f, view (.nodeOutput n o) = some bv →
    graph.facts (.nodeOutput n o) = some f → Lays f (m (.nodeOutput n o)) bv.bytes

theorem Represents.holds {k : Nat} {view : ValueRef → Option ByteView} {m : Meaning}
    (h : Represents graph inputs k view m) {v : ValueRef} {bv : ByteView} {f : TensorFacts}
    (hv : view v = some bv) (hf : graph.facts v = some f) : Holds f bv.bytes (m v) := by
  cases v with
  | input i => exact h.input i bv f hv hf
  | nodeOutput n o => exact (h.output n o bv f hv hf).holds

theorem Represents.nodeInputs_hold {k : Nat} {view : ValueRef → Option ByteView} {m : Meaning}
    (h : Represents graph inputs k view m) : ∀ {values : List ValueRef} {views : List ByteView}
    {fs : List TensorFacts},
      values.mapM (fun v => orFault (view v) .inputUnavailable) = .ok views →
      values.mapM (fun v => orFault (graph.facts v) .inputFactsUnavailable) = .ok fs →
      HoldsAll (values.filterMap fun v => (graph.facts v).map fun f => (f, m v))
          (views.map ByteView.bytes) ∧
        (values.filterMap fun v => (graph.facts v).map fun f => (f, m v)).map Prod.fst = fs
  | [], views, fs, hv, hf => by
    obtain rfl : [] = views := by simpa [pure, Except.pure] using hv
    obtain rfl : [] = fs := by simpa [pure, Except.pure] using hf
    exact ⟨.nil, rfl⟩
  | v :: values, views, fs, hv, hf => by
    rw [List.mapM_cons] at hv hf
    obtain ⟨bv, hbv, hv⟩ := bind_ok hv
    obtain ⟨bvs, hbvs, hv⟩ := bind_ok hv
    obtain ⟨f, hf1, hf⟩ := bind_ok hf
    obtain ⟨fs', hfs, hf⟩ := bind_ok hf
    obtain rfl : bv :: bvs = views := by simpa [pure, Except.pure] using hv
    obtain rfl : f :: fs' = fs := by simpa [pure, Except.pure] using hf
    have hbv := orFault_eq_ok.mp hbv
    have hf1 := orFault_eq_ok.mp hf1
    obtain ⟨hall, hfst⟩ := h.nodeInputs_hold hbvs hfs
    rw [List.filterMap_cons_some (by rw [hf1]; rfl)]
    exact ⟨.cons (h.holds hbv hf1) hall, by rw [List.map_cons, hfst]⟩

theorem validateOutputs_ok : ∀ {ps : List ProducedValue} {fs : List TensorFacts},
    ps.length = fs.length → validateOutputs ps fs = .ok () →
      List.Forall₂ (fun (o : TensorFacts) (p : ProducedValue) =>
        p.bytes.bytes.length = o.byteLen) fs ps
  | [], [], _, _ => .nil
  | p :: ps, f :: fs, hl, h => by
    rw [validateOutputs] at h
    obtain ⟨_, hp, h⟩ := bind_ok h
    have := (unless_error_ok hp).1
    exact .cons (by simpa using this) (validateOutputs_ok (by simpa using hl) h)

/-- The outputs of a node that ran. -/
theorem runNode_lays {k : Nat} {node : OperationNode} {view : ValueRef → Option ByteView}
    {m : Meaning} {ex : NodeExecution} (hk : graph.nodes[k]? = some node)
    (hr : Represents graph inputs k view m)
    (h : runNode graph host cancellation view node = .ok ex) :
    List.Forall₂ (fun (x : TensorFacts × Elements) p => Lays x.1 x.2 p.bytes.bytes)
      (node.outputs.zip (denoteOperation host.preparation cancellation node.operation
        (nodeInputs graph m node) node.outputs)) ex.outputs := by
  obtain ⟨_, _, h⟩ := bind_ok h
  obtain ⟨_, _, h⟩ := bind_ok h
  obtain ⟨views, hviews, h⟩ := bind_ok h
  obtain ⟨fs, hfs, h⟩ := bind_ok h
  obtain ⟨ex', hex, h⟩ := bind_ok h
  obtain ⟨hcount, h⟩ := unless_error_ok h
  obtain ⟨⟨⟩, hvalid, h⟩ := bind_ok h
  obtain rfl := Except.ok.inj h
  obtain ⟨fs', hfs', hinfer⟩ := graph_inputFacts hk
  obtain rfl : fs' = fs := Except.ok.inj (hfs'.symm.trans hfs)
  obtain ⟨hin, hfst⟩ := hr.nodeInputs_hold hviews hfs
  have hex := lift_eq_ok.mp hex
  rw [← hfst] at hinfer hex
  exact executeNode_lays hinfer hin
    (validateOutputs_ok (by simpa using hcount) (lift_eq_ok.mp hvalid)) hex

theorem retainOutputs_other {k : Nat} {v : ValueRef} (hv : ∀ o, v ≠ .nodeOutput k o) :
    ∀ {ps : List ProducedValue} {view : ValueRef → Option ByteView} {j : Nat},
      retainOutputs k view j ps v = view v
  | [], _, _ => rfl
  | p :: ps, view, j => by
    rw [retainOutputs, retainOutputs_other hv, Function.update_of_ne (hv j)]

theorem retainOutputs_node {k o : Nat} : ∀ {ps : List ProducedValue}
    {view : ValueRef → Option ByteView} {j : Nat},
      retainOutputs k view j ps (.nodeOutput k o) =
        if j ≤ o ∧ o < j + ps.length then (ps[o - j]?).map ProducedValue.bytes
        else view (.nodeOutput k o)
  | [], view, j => by rw [if_neg (by simp)]; rfl
  | p :: ps, view, j => by
    rw [retainOutputs, retainOutputs_node]
    rcases Nat.lt_trichotomy j o with hlt | rfl | hgt
    · simp only [List.length_cons, show o - j = (o - (j + 1)) + 1 by omega,
        List.getElem?_cons_succ]
      rw [Function.update_of_ne (by simp; omega)]
      grind
    · simp
    · rw [if_neg (by omega), if_neg (by omega), Function.update_of_ne (by simp; omega)]

theorem getElem?_forall₂ {α β : Type} {R : α → β → Prop} {as : List α} {bs : List β} {i : Nat}
    {a : α} {b : β} (h : List.Forall₂ R as bs) (ha : as[i]? = some a) (hb : bs[i]? = some b) :
    R a b := by
  obtain ⟨hi, rfl⟩ := List.getElem?_eq_some_iff.mp ha
  obtain ⟨hj, rfl⟩ := List.getElem?_eq_some_iff.mp hb
  exact List.Forall₂.get h hi hj

theorem Represents.step {k : Nat} {node : OperationNode} {view : ValueRef → Option ByteView}
    {m : Meaning} {ex : NodeExecution} (hk : graph.nodes[k]? = some node)
    (hr : Represents graph inputs k view m)
    (h : runNode graph host cancellation view node = .ok ex) :
    Represents graph inputs (k + 1) (retainOutputs k view 0 ex.outputs)
      (m.bindOutputs k (denoteOperation host.preparation cancellation node.operation
        (nodeInputs graph m node) node.outputs)) := by
  have hlays := runNode_lays hk hr h
  refine ⟨?_, ?_, ?_, ?_⟩
  · intro n o bv hv
    by_cases hn : n = k
    · omega
    · rw [retainOutputs_other (fun _ he => hn (by cases he; rfl))] at hv
      have := hr.earlier n o bv hv
      omega
  · intro i
    rw [retainOutputs_other (by simp)]
    exact hr.given i
  · intro i bv f hv hf
    rw [retainOutputs_other (by simp)] at hv
    exact hr.input i bv f hv hf
  · intro n o bv f hv hf
    by_cases hn : n = k
    · subst hn
      rw [retainOutputs_node] at hv
      split at hv
      · rw [Option.map_eq_some_iff] at hv
        obtain ⟨p, hp, rfl⟩ := hv
        have hf : node.outputs[o]? = some f := by
          simpa [OperationGraph.facts, factsOf, hk] using hf
        -- the meaning has an entry for every produced output
        have hlt := (List.getElem?_eq_some_iff.mp hp).1
        have hlen := hlays.length_eq
        rw [List.length_zip] at hlen
        obtain ⟨e, he⟩ : ∃ e, (denoteOperation host.preparation cancellation node.operation
            (nodeInputs graph m node) node.outputs)[o]? = some e :=
          ⟨_, List.getElem?_eq_getElem (by omega)⟩
        rw [Meaning.bindOutputs, if_pos rfl, List.getD_eq_getElem?_getD, he]
        exact getElem?_forall₂ hlays (i := o) (a := (f, e))
          (List.getElem?_zip_eq_some.mpr ⟨hf, he⟩) (by simpa using hp)
      · have := hr.earlier n o bv hv
        omega
    · rw [retainOutputs_other (fun _ he => hn (by cases he; rfl))] at hv
      rw [Meaning.bindOutputs, if_neg hn]
      exact hr.output n o bv f hv hf

theorem retainNodes_denotes : ∀ {nodes : List OperationNode} {k : Nat}
    {view final : ValueRef → Option ByteView} {m : Meaning},
      graph.nodes.drop k = nodes → Represents graph inputs k view m →
      retainNodes graph host cancellation k nodes view = .ok final →
      Represents graph inputs (k + nodes.length) final
        (denoteNodes graph host.preparation cancellation k nodes m)
  | [], k, view, final, m, _, hr, h => by
    obtain rfl := Except.ok.inj h
    exact hr
  | node :: rest, k, view, final, m, hd, hr, h => by
    rw [retainNodes] at h
    obtain ⟨ex, hex, h⟩ := bind_ok h
    have hk : graph.nodes[k]? = some node := by
      have := congrArg (fun l => l[0]?) hd
      simpa using this
    have hrest : graph.nodes.drop (k + 1) = rest := by
      rw [← List.drop_drop, hd]; rfl
    have := retainNodes_denotes hrest (hr.step hk hex) h
    rwa [Nat.add_assoc, Nat.add_comm 1] at this

theorem validateInputs_ok : ∀ {ds : List OperationInput} {views : List ByteView} {i : Nat}
    {d : OperationInput} {bv : ByteView}, validateInputs ds views = .ok () →
      ds[i]? = some d → views[i]? = some bv → bv.bytes.length = d.facts.byteLen
  | d' :: ds, bv' :: views, i, d, bv, h, hd, hb => by
    rw [validateInputs] at h
    obtain ⟨_, hp, h⟩ := bind_ok h
    cases i with
    | zero =>
      obtain rfl : d' = d := by simpa using hd
      obtain rfl : bv' = bv := by simpa using hb
      simpa using (unless_error_ok hp).1
    | succ i => exact validateInputs_ok h (by simpa using hd) (by simpa using hb)
  | [], _, _, _, _, _, hd, _ => by simp at hd
  | _ :: _, [], _, _, _, _, _, hb => by simp at hb

theorem represents_inputs (h : validateInputs graph.inputs inputs = .ok ()) :
    Represents graph inputs 0 (inputViews inputs) (inputMeaning graph inputs) := by
  refine ⟨?_, fun _ => rfl, ?_, ?_⟩
  · intro n o bv hv; cases hv
  · intro i bv f hv hf
    obtain ⟨d, hd, rfl⟩ := Option.map_eq_some_iff.mp hf
    have hv : inputs[i]? = some bv := hv
    have hm : inputMeaning graph inputs (.input i) = d.facts.element bv.bytes := by
      simp only [inputMeaning, hd, hv]
    rw [hm]
    exact holds_element (validateInputs_ok h hd hv)
  · intro n o bv f hv; cases hv

/-- The retaining execution returns the meaning of the output. -/
theorem executeRetaining_denotes {bv : ByteView}
    (h : graph.executeRetaining host inputs cancellation = .ok bv) :
    ∃ view, Represents graph inputs graph.nodes.length view
      (graph.denote host.preparation cancellation inputs) ∧ view graph.output = some bv := by
  obtain ⟨_, _, h⟩ := bind_ok h
  obtain ⟨_, _, h⟩ := bind_ok h
  obtain ⟨⟨⟩, hvalid, h⟩ := bind_ok h
  obtain ⟨view, hnodes, h⟩ := bind_ok h
  obtain ⟨_, _, h⟩ := bind_ok h
  have := retainNodes_denotes (by simp) (represents_inputs (lift_eq_ok.mp hvalid)) hnodes
  rw [Nat.zero_add] at this
  exact ⟨view, this, orFault_eq_ok.mp h⟩

end Graph

end ModelWeights.Graph
