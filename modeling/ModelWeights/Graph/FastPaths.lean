import ModelWeights.Graph.Addressing

/-! # Fast paths

The contiguous concatenation and the channel-last kernels replace a strided copy.
Whenever one of them returns, it returns the bytes of the copy it replaces. -/
namespace ModelWeights.Graph
open Strided Buffer

/-! ## Contiguous concatenation -/

theorem validateConcatInputs_ok : ∀ {facts : List TensorFacts} {views : List Bytes},
    facts.length = views.length → validateConcatInputs facts views = .ok () →
      List.Forall₂ (fun f view => view.length = f.byteLen) facts views
  | [], [], _, _ => .nil
  | f :: facts, view :: views, hlen, h => by
    obtain ⟨_, hview, h⟩ := bind_ok h
    have hview := not_not.mp (unless_error_ok hview).1
    exact .cons hview (validateConcatInputs_ok (by simpa using hlen) h)

/-- **The contiguous kernel is the generic concatenation.** Over canonical inputs,
with no restriction on their lengths along the axis, every buffer it returns is the
one the strided kernel fills, and it does return for every non-empty output. -/
theorem buildContiguousConcat_agrees {axis : Nat} {facts : List TensorFacts} {o : TensorFacts}
    {views : List Bytes} (hinfer : inferConcat axis facts = .ok [o])
    (hcont : ∀ f ∈ facts, f.isCanonicalContiguous = true) :
    (∀ cancellation out, buildContiguousConcat axis facts o views cancellation = .ok out →
      executeConcatBytes axis facts o views (List.replicate o.byteLen 0) ⟨false⟩ = .ok out) ∧
    (List.Forall₂ (fun f view => view.length = f.byteLen) facts views →
      o.logicalShape.prod ≠ 0 →
      Succeeds (buildContiguousConcat axis facts o views ⟨false⟩) fun _ => True) := by
  obtain ⟨o', ho, hc, hdense⟩ := inferConcat_ok hinfer
  obtain ⟨rfl, _⟩ := List.cons.inj ho
  obtain ⟨hsum, hcanonical⟩ := inferConcat_fits hinfer rfl
  constructor
  · intro cancellation out h
    have hviews : List.Forall₂ (fun f view => view.length = f.byteLen) facts views := by
      obtain ⟨_, _, hchecks⟩ := bind_ok h
      obtain ⟨hlen, hchecks⟩ := unless_error_ok hchecks
      obtain ⟨⟨⟩, hvalid, _⟩ := bind_ok hchecks
      exact validateConcatInputs_ok (not_not.mp hlen) hvalid
    obtain ⟨ins, rfl, hin⟩ := exists_holdsAll hviews
    obtain ⟨generic, hgeneric, _⟩ := executeConcatBytes_succeeds hc hin
      (trailingFit_of_canonical hcanonical) hsum
    rw [hgeneric, buildContiguousConcat_layout hc hin hcont hcanonical h,
      executeConcatBytes_layout hc hin hgeneric]
  · intro hviews hne
    obtain ⟨ins, rfl, hin⟩ := exists_holdsAll hviews
    cases hfirst : (ins.map Prod.fst)[0]? with
    | none =>
      rw [List.getElem?_eq_none_iff, Nat.le_zero, List.length_eq_zero_iff] at hfirst
      rw [hfirst] at hinfer
      cases hinfer
    | some first =>
      have hmem := List.mem_of_getElem? hfirst
      have hfit := o.innerFit hdense hne axis
      have hfirstFit : InnerFit axis first := by
        unfold InnerFit at hfit ⊢
        rw [(hc.split_eq hmem).2, hc.width first hmem]
        exact hfit
      exact buildContiguousConcat_succeeds hc hin hcont hcanonical hfirst hfirstFit

def rowFacts : TensorFacts := ⟨[1, 2], [1, 2], [2, 1], [2, 1], .contiguous .u8, 2, rfl⟩

def noRowFacts : TensorFacts := ⟨[0, 2], [0, 2], [2, 1], [2, 1], .contiguous .u8, 0, rfl⟩

/-- One row and an input without rows. -/
theorem buildContiguousConcat_agrees_empty_part : ∃ out,
    buildContiguousConcat 0 [rowFacts, noRowFacts] rowFacts [[7, 8], []] ⟨false⟩ = .ok out ∧
    executeConcatBytes 0 [rowFacts, noRowFacts] rowFacts [[7, 8], []] [0, 0] ⟨false⟩ =
      .ok out := by
  obtain ⟨hagree, hreturns⟩ := @buildContiguousConcat_agrees 0 [rowFacts, noRowFacts] rowFacts
    [[7, 8], []] rfl (by decide)
  obtain ⟨out, hout, _⟩ := hreturns (.cons rfl (.cons rfl .nil)) (by decide)
  exact ⟨out, hout, hagree _ _ hout⟩

/-! ## Channel-last permutation -/

/-- **The channel-last kernels are the generic copy.** For a canonical four-axis
tensor, the blocked kernel, the scalar and the AVX2 kernel of nine half-precision
positions and the dispatcher over them return the bytes of the strided copy. -/
theorem channelLast_agrees {permute : Permute} {f o : TensorFacts}
    {m n height breadth : Nat} {input : Bytes} (hinfer : inferPermute permute f = .ok [o])
    (hmode : permute.mode.isStorage = true) (horder : permute.order = [0, 2, 3, 1])
    (hcont : f.isCanonicalContiguous = true) (hshape : f.logicalShape = [m, n, height, breadth])
    (hlen : input.length = f.byteLen) :
    ∃ generic,
      executeStorageCopy f o input (List.replicate o.byteLen 0) ⟨false⟩ = .ok generic ∧
      (∀ cancellation out, buildOihwToOhwiElements f.width input m n (height * breadth)
        (m * (n * (height * breadth))) cancellation = .ok out → out = generic) ∧
      (∀ avx2 output cancellation out, f.width = 2 → height * breadth = 9 →
        Simd.permuteOihwToOhwi3x3U16 avx2 input output m n cancellation = .ok out →
          out = generic) ∧
      (∀ host cancellation out,
        buildOihwToOhwiIfSupported host permute f o input cancellation = .ok (some out) →
          out = generic) := by
  obtain ⟨o', ho, hp⟩ := inferPermute_ok hinfer
  obtain ⟨rfl, _⟩ := List.cons.inj ho
  have hin : Holds f input (f.element input) := holds_element hlen
  obtain ⟨hlogical, hstorage, hstrides⟩ := hp.storage hmode
  obtain ⟨generic, hgeneric, _⟩ := executeStorageCopy_succeeds hin hlogical.symm hp.width
    (by rw [hlogical]; exact trailingFit_of_canonical hcont)
  have hlayout := executeStorageCopy_layout hin hp.width hgeneric
  have hstorage : o.storageShape = [m, height, breadth, n] := by
    rw [hstorage, horder, hshape]
    rfl
  have hc : ChannelLast f o m n height breadth :=
    ⟨hshape, hcont, hlogical.trans hshape, hstorage,
      by rw [hstrides, hstorage, horder, scatterStrides_channelLast], hp.width⟩
  have hohwi := ohwiOrder_layout hc hin
  refine ⟨generic, hgeneric, ?_, ?_, ?_⟩
  · intro cancellation out h
    rw [buildOihwToOhwiElements_ok rfl h, hohwi, hlayout]
  · intro avx2 output cancellation out hwidth hnine h
    rw [hwidth, hnine] at hohwi
    rw [Simd.permuteOihwToOhwi3x3U16_ok h, hohwi, hlayout]
  · intro host cancellation out h
    rw [(@oihw_layout host cancellation f o _ ⟨input, false⟩ permute out hp hin h).2, hlayout]

/-- One output channel, two input channels and nine positions of two bytes each. -/
def kernelFacts : TensorFacts :=
  ⟨[1, 2, 3, 3], [1, 2, 3, 3], [18, 9, 3, 1], [18, 9, 3, 1], .contiguous .u16, 36, rfl⟩

def ohwiFacts : TensorFacts :=
  ⟨[1, 2, 3, 3], [1, 3, 3, 2], [18, 9, 3, 1], [18, 1, 6, 2], ⟨.u16, .custom ⟨"ohwi"⟩ 1 []⟩, 36, rfl⟩

def kernelBytes : Bytes := (List.range 36).map UInt8.ofNat

def ohwiBytes : Bytes :=
  [0, 1, 18, 19, 2, 3, 20, 21, 4, 5, 22, 23, 6, 7, 24, 25, 8, 9, 26, 27, 10, 11, 28, 29, 12, 13, 30,
    31, 14, 15, 32, 33, 16, 17, 34, 35]

def ohwiPermute : Permute := ⟨[0, 2, 3, 1], .storage (.custom ⟨"ohwi"⟩ 1 [])⟩

/-- All four paths return the same bytes. -/
theorem channelLast_agrees_kernel :
    executeStorageCopy kernelFacts ohwiFacts kernelBytes (List.replicate 36 0) ⟨false⟩ =
      .ok ohwiBytes ∧
    buildOihwToOhwiElements 2 kernelBytes 1 2 9 18 ⟨false⟩ = .ok ohwiBytes ∧
    (∀ avx2, Simd.permuteOihwToOhwi3x3U16 avx2 kernelBytes (List.replicate 36 0) 1 2 ⟨false⟩ =
      .ok ohwiBytes) ∧
    buildOihwToOhwiIfSupported ⟨⟨fun _ => none⟩, true⟩ ohwiPermute kernelFacts ohwiFacts kernelBytes
      ⟨false⟩ = .ok (some ohwiBytes) := by
  obtain ⟨generic, hgeneric, hblocked, hsimd, hsupported⟩ :=
    @channelLast_agrees ohwiPermute kernelFacts ohwiFacts 1 2 3 3 kernelBytes rfl rfl rfl rfl rfl
      rfl
  have hbytes : buildOihwToOhwiElements 2 kernelBytes 1 2 9 18 ⟨false⟩ = .ok ohwiBytes := by
    decide +kernel
  obtain rfl := hblocked _ _ hbytes
  refine ⟨hgeneric, hbytes, fun avx2 => ?_, ?_⟩
  · have hok : ∀ avx2, (Simd.permuteOihwToOhwi3x3U16 avx2 kernelBytes (List.replicate 36 0) 1 2
        ⟨false⟩).isOk = true := by
      decide +kernel
    cases h : Simd.permuteOihwToOhwi3x3U16 avx2 kernelBytes (List.replicate 36 0) 1 2 ⟨false⟩ with
    | ok out => rw [hsimd _ _ _ _ rfl rfl h]
    | error _ =>
      have hok := hok avx2
      rw [h] at hok
      cases hok
  · have hsome : (buildOihwToOhwiIfSupported ⟨⟨fun _ => none⟩, true⟩ ohwiPermute kernelFacts
        ohwiFacts kernelBytes ⟨false⟩).toOption.join.isSome = true := by
      decide +kernel
    cases h : buildOihwToOhwiIfSupported ⟨⟨fun _ => none⟩, true⟩ ohwiPermute kernelFacts ohwiFacts
      kernelBytes ⟨false⟩ with
    | ok out =>
      rw [h] at hsome
      obtain ⟨out, rfl⟩ := Option.isSome_iff_exists.mp hsome
      rw [hsupported _ _ _ h]
    | error _ =>
      rw [h] at hsome
      cases hsome

end ModelWeights.Graph
