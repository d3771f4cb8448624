import ModelWeights.Plan.Partition
import ModelWeights.Plan.Codec
import ModelWeights.Prepared.Contiguous
import ModelWeights.Prepared.History
import ModelWeights.Prepared.Locality

/-! # Planning guarantees execution sizes

The checks of a source, of a target, of its chain and of their binding together imply
every check that the preparation of a plain tensor makes while it runs. -/
namespace ModelWeights.Prepared
open ModelWeights.Graph Plan Cache Program Buffer
open Materializer (prepareChain)

/-! ## Chains -/

/-- A chain that starts from a representation: every transform takes what the one before
makes, and records its size for the shape. -/
def ChainFrom (shape : List Nat) : Representation → List PlannedTransform → Prop
  | _, [] => True
  | representation, planned :: rest => planned.transform.source = representation ∧
    planned.transform.target.dtype.byteLen shape = .ok planned.outputSize ∧
    ChainFrom shape planned.transform.target rest

/-- What a chain makes of one element. -/
def castChain (half : HalfConversions) : List PlannedTransform → Bytes → Bytes
  | [] => id
  | planned :: rest => castChain half rest ∘ castTransform half planned

/-- The size of what a chain makes of `length` bytes. -/
def chainSize (length : Nat) (transforms : List PlannedTransform) : Nat :=
  (transforms.getLast?.map PlannedTransform.outputSize).getD length

section Chain
variable {half : HalfConversions} {engine : PreparationEngine} {shape : List Nat}

theorem chainSize_cons (length : Nat) (planned : PlannedTransform)
    (rest : List PlannedTransform) :
    chainSize length (planned :: rest) = chainSize planned.outputSize rest := by
  unfold chainSize
  rw [List.getLast?_cons]
  cases rest.getLast? <;> rfl

/-- **A chain of casts succeeds** on a source of the size of its first representation, and
converts every element by one cast after the other. -/
theorem prepareChain_casts
    (hengine : engine.providers builtinContiguousImplementation = some (contiguousProvider half))
    {transforms : List PlannedTransform} :
    ∀ {representation : Representation} {current : ByteView},
    (∀ planned ∈ transforms, Builtin planned) → ChainFrom shape representation transforms →
    representation.dtype.byteLen shape = .ok current.bytes.length →
    Succeeds (prepareChain engine shape ⟨false⟩ transforms current) fun view =>
      view.bytes = mapChunks (width representation.dtype) (castChain half transforms)
        current.bytes ∧ view.bytes.length = chainSize current.bytes.length transforms := by
  induction transforms with
  | nil =>
    intro representation current _ _ hlength
    obtain ⟨hlength, _⟩ := byteLen_ok hlength
    refine .of_ok ⟨?_, rfl⟩
    exact (mapChunks_id ⟨shape.prod, hlength.trans (Nat.mul_comm ..)⟩).symm
  | cons planned rest ih =>
    intro representation current hbuiltin hchain hlength
    obtain ⟨rfl, htarget, hrest⟩ := hchain
    have hplanned := hbuiltin planned (List.mem_cons_self ..)
    refine .step rfl ((hplanned.prepare hengine hlength htarget).bind fun prepared hprepared => ?_)
    have hbytes := hprepared current rfl
    obtain ⟨hsource, _⟩ := byteLen_ok hlength
    obtain ⟨houtput, _⟩ := byteLen_ok htarget
    have helement : ∀ chunk : Bytes, chunk.length = width planned.transform.source.dtype →
        (castTransform half planned chunk).length = width planned.transform.target.dtype :=
      fun chunk hc => length_castElement hplanned.casts hc
    have hsize : (prepared.view current).bytes.length = planned.outputSize := by
      rw [hbytes, length_mapChunks helement, hsource, Nat.mul_div_cancel _ (width_pos _), houtput]
    refine (ih (fun p hp => hbuiltin p (List.mem_cons_of_mem _ hp)) hrest
      (hsize.symm ▸ htarget)).mono fun view hview => ?_
    obtain ⟨hview, hviewSize⟩ := hview
    refine ⟨?_, ?_⟩
    · rw [hview, hbytes, mapChunks_mapChunks (width_pos _) helement]
      rfl
    · rw [hviewSize, hsize, chainSize_cons]

/-- A chain sees the cancellation before it makes anything. -/
theorem prepareChain_cancelled {transforms : List PlannedTransform} {current : ByteView} :
    prepareChain engine shape ⟨true⟩ transforms current = .error .cancelled := by
  cases transforms <;> rfl

end Chain

/-! ## What planning checked -/

section Planned
variable {target : TargetTensor}

theorem chainFrom_of_valid {shape : List Nat} {elements : Nat}
    {transforms : List PlannedTransform} : ∀ {representation : Representation},
    (∀ planned ∈ transforms, Builtin planned) → chained transforms = true →
    validateTransformSteps shape elements transforms = .ok () →
    (∀ first, transforms.head? = some first → first.transform.source = representation) →
    ChainFrom shape representation transforms := by
  induction transforms with
  | nil => exact fun _ _ _ _ => trivial
  | cons planned rest ih =>
    intro representation hbuiltin hchained hsteps hfirst
    obtain ⟨_, hsteps⟩ := unless_error_ok hsteps
    rw [if_pos (hbuiltin planned (List.mem_cons_self ..)).target] at hsteps
    obtain ⟨length, hlength, hsteps⟩ := bind_ok hsteps
    obtain ⟨hsize, hsteps⟩ := unless_error_ok hsteps
    refine ⟨hfirst planned rfl, not_not.mp hsize ▸ hlength,
      ih (fun p hp => hbuiltin p (List.mem_cons_of_mem _ hp)) ?_ hsteps fun first hhead => ?_⟩
    · cases rest with
      | nil => rfl
      | cons second rest =>
        rw [chained, decide_eq_true_eq] at hchained
        exact hchained.2
    · cases rest with
      | nil => cases hhead
      | cons second rest =>
        obtain rfl := Option.some.inj hhead
        rw [chained, decide_eq_true_eq] at hchained
        exact hchained.1.symm

/-- What the target builder checked of a target of the plain route. -/
theorem target_checked (h : target.validate = .ok ()) (hgraph : target.operationGraph = none)
    (hrecipe : target.conversionRecipe = none) (hroute : target.quantizedRoute = none) :
    target.sourceShape = target.shape ∧ chained target.transforms = true ∧
      (∀ last, target.transforms.getLast? = some last → last.outputSize = target.outputSize) ∧
      ∃ elements, validateTransformSteps target.shape elements target.transforms = .ok () := by
  obtain ⟨_, h⟩ := unless_error_ok h
  obtain ⟨_, h⟩ := unless_error_ok h
  obtain ⟨_, h⟩ := unless_error_ok h
  obtain ⟨_, h⟩ := unless_error_ok h
  obtain ⟨_, h⟩ := unless_error_ok h
  obtain ⟨_, hchain, h⟩ := bind_ok h
  obtain ⟨hshape, _⟩ := unless_error_ok h
  obtain ⟨hchained, hchain⟩ := unless_error_ok hchain
  obtain ⟨hlast, hchain⟩ := unless_error_ok hchain
  obtain ⟨elements, _, hsteps⟩ := bind_ok hchain
  refine ⟨?_, not_not.mp hchained, fun last hl => ?_, elements, hsteps⟩
  · by_contra hne
    exact hshape ⟨hne, by rw [hrecipe]; rfl, by rw [hgraph]; rfl, by rw [hroute]; rfl⟩
  · by_contra hne
    rw [hl] at hlast
    exact hlast (by simp [hne])

end Planned

/-! ## The route of a plain tensor -/

/-- A chain that returns the planned bytes leaves no other end than them or a cancellation. -/
theorem executeTransforms_returns {m : Materializer} {binding : Binding} {source view : ByteView}
    (hchain : ∀ cancellation : CancellationToken, prepareChain m.host.preparation
      binding.target.shape cancellation binding.target.transforms source =
        (cancellation.check >>= fun _ => .ok view))
    (hsize : view.bytes.length = binding.target.outputSize) {r : Result (ByteView × PreparedOrigin)}
    (h : Returns (m.executeTransforms binding source).run r) :
    r = .error .cancelled ∨ ∃ origin, r = .ok (view, origin) := by
  have hchecked : ∀ {origin : PreparedOrigin}, Returns (if view.bytes.length ≠
      binding.target.outputSize then throw (.integrity
        "materialized host bytes differ from the planned output size")
      else pure (view, origin) : Action (ByteView × PreparedOrigin)).run r →
      r = .error .cancelled ∨ ∃ origin, r = .ok (view, origin) := by
    intro origin h
    rw [if_neg (not_not.mpr hsize)] at h
    exact .inr ⟨origin, returns_pure.mp h⟩
  unfold Materializer.executeTransforms at h
  split at h
  · next hnil =>
    obtain ⟨prepared, hprepared, h⟩ := returns_bind.mp h
    obtain rfl := returns_pure.mp hprepared
    have hsource := hchain ⟨false⟩
    rw [List.isEmpty_iff.mp hnil] at hsource
    obtain rfl : source = view := Except.ok.inj hsource
    exact hchecked h
  · obtain ⟨chained, hchained, h⟩ := returns_bind.mp h
    obtain ⟨cancellation, rfl⟩ := returns_sampled hchained
    rw [hchain] at h
    cases hcancelled : cancellation.cancelled with
    | true =>
      have hcheck : cancellation.check = .error .cancelled := if_pos hcancelled
      rw [hcheck] at h
      exact .inl (returns_pure.mp h)
    | false =>
      have hcheck : cancellation.check = .ok () := by
        unfold CancellationToken.check
        rw [hcancelled]
        rfl
      rw [hcheck] at h
      obtain ⟨_, hpair, h⟩ := returns_bind.mp h
      obtain rfl := returns_pure.mp hpair
      exact hchecked h

/-- A plain source has the bytes of its shape. -/
theorem byteLen_of_made {source : SourceTensor} (h : source.Made) {dtype : DType}
    {span : SourceSpan} (hplain : source.storage = .plain dtype span) :
    dtype.byteLen source.shape = .ok span.length := by
  obtain ⟨_, _, h⟩ := h
  rw [hplain] at h
  obtain ⟨length, hlength, h⟩ := bind_ok h
  obtain ⟨hspan, _⟩ := unless_error_ok h
  rw [hlength, not_not.mp hspan]

/-- **Planning guarantees execution sizes.** For a binding of an accepted plan that has a
plain source and no other route, and whose transforms are all pinned to the built-in casts:
from any bytes of its span, every engine that has the built-in provider makes exactly the
planned bytes, by converting every element by one cast after the other; and the plain route
ends with them or because it was cancelled. -/
theorem planned_sizes {planner : Planner} {b : PlanBuilder} {plan : BindingPlan}
    (hbuild : b.build planner = .ok plan) (hsources : ∀ source ∈ b.sources, source.Made)
    (htargets : ∀ target ∈ b.targets, target.Made) {binding : Binding}
    (hbinding : binding ∈ plan.bindings) (hgraph : binding.target.operationGraph = none)
    (hrecipe : binding.target.conversionRecipe = none) {source : SourceTensor}
    (hsource : source ∈ binding.sources) {dtype : DType} {span : SourceSpan}
    (hplain : source.storage = .plain dtype span)
    (hbuiltin : ∀ planned ∈ binding.target.transforms, Builtin planned) {half : HalfConversions}
    {engine : PreparationEngine}
    (hengine : engine.providers builtinContiguousImplementation = some (contiguousProvider half))
    {bytes : ByteView} (hlength : bytes.bytes.length = span.length) :
    ∃ view : ByteView, view.bytes.length = binding.target.outputSize ∧
      view.bytes = mapChunks (width dtype) (castChain half binding.target.transforms) bytes.bytes ∧
      (∀ cancellation : CancellationToken, prepareChain engine binding.target.shape cancellation
        binding.target.transforms bytes = (cancellation.check >>= fun _ => .ok view)) ∧
      ∀ (m : Materializer) (r : Result (ByteView × PreparedOrigin)), m.host.preparation = engine →
        Returns (m.executeTransforms binding bytes).run r →
        r = .error .cancelled ∨ ∃ origin, r = .ok (view, origin) := by
  have hm := made_of_build hbuild
  obtain ⟨htarget, _, hselected⟩ := (hm.bindings binding).mp hbinding
  obtain ⟨source', hsole, _, hfits⟩ := hm.named hbinding hgraph
  obtain rfl : source = source' := by
    rw [hsole] at hsource
    exact List.mem_singleton.mp hsource
  have hbytes := byteLen_of_made
    (hsources source (mem_of_selected hselected hsource)) hplain
  have hplainFits := hfits.plain dtype span hplain
  obtain ⟨builder, _, _, hmade⟩ := htargets _ htarget
  obtain ⟨hvalid, _⟩ := TargetTensorBuilder.build_ok hmade
  obtain ⟨hshape, hchained, hlast, elements, hsteps⟩ :=
    target_checked hvalid hgraph hrecipe hplainFits.unrouted
  rw [hfits.shape, hshape, ← hlength] at hbytes
  obtain ⟨view, hview, hvalue, hsize⟩ := prepareChain_casts hengine hbuiltin
    (chainFrom_of_valid hbuiltin hchained hsteps (hplainFits.entry hrecipe)) hbytes
  have houtput : view.bytes.length = binding.target.outputSize := by
    rw [hsize]
    unfold chainSize
    cases hl : binding.target.transforms.getLast? with
    | none =>
      obtain ⟨_, hidentity⟩ := hplainFits.identity hrecipe (List.getLast?_eq_none_iff.mp hl)
      rw [hidentity]
      exact hlength
    | some last => exact hlast last hl
  have hchain : ∀ cancellation : CancellationToken, prepareChain engine binding.target.shape
      cancellation binding.target.transforms bytes =
        (cancellation.check >>= fun _ => .ok view) := by
    intro cancellation
    cases cancellation with
    | mk cancelled =>
      cases cancelled with
      | true => exact prepareChain_cancelled
      | false => exact hview
  refine ⟨view, houtput, hvalue, hchain, fun m r hpreparation h => ?_⟩
  exact executeTransforms_returns (by rw [hpreparation]; exact hchain) houtput h

/-! ## A cast, and a recipe -/

namespace Cast

/-- The conversions of the numbers of the file. -/
def half : HalfConversions where
  f16FromF32 bits := if bits = 0x3F800000 then 0x3C00 else if bits = 0x40000000 then 0x4000 else 0
  bf16FromF32 bits := bits.extractLsb' 16 16
  f16ToF32 bits := if bits = 0x3C00 then 0x3F800000 else if bits = 0x4000 then 0x40000000 else 0
  bf16ToF32 bits := bits ++ 0#16

theorem source_made : (source "w" 0 0).Made := by
  have hspan : (SourceSpan.mk 0 0 8).valid = true := by decide
  exact ⟨by decide, hspan, by decide⟩

def targetBuilder (target : TargetTensor) : TargetTensorBuilder :=
  { target with
    storageShape := some target.storageShape
    logicalStrides := some target.logicalStrides
    storageStrides := some target.storageStrides }

theorem target_made : target.Made :=
  ⟨targetBuilder target, by decide, nofun, by decide⟩

/-- A recipe that makes `w` out of itself. -/
def recipe : ConversionRecipe where
  schemaVersion := 1
  implementation := implementation
  inputs := [⟨"w"⟩]
  steps := []
  outputs := .ofList [(⟨"w"⟩, .external ⟨"w"⟩)]

/-- A target of four elements that a recipe makes of two. -/
def recipeTarget : TargetTensor :=
  { target with
    shape := [4]
    storageShape := [4]
    representation := f32
    transforms := []
    conversionRecipe := some recipe
    outputSize := 16 }

def recipeBinding : Binding := ⟨[source "w" 0 0], recipeTarget⟩

def recipePlan : BindingPlan := { plan with targets := [recipeTarget], bindings := [recipeBinding] }

theorem recipeTarget_made : recipeTarget.Made :=
  ⟨targetBuilder recipeTarget, by decide, nofun, by decide⟩

end Cast

/-- The chain of the cast. -/
theorem planned_sizes_cast : ∃ view : ByteView, view.bytes = [0, 60, 0, 64] ∧
    view.bytes.length = Cast.target.outputSize ∧
    prepareChain (withBuiltins Cast.half) Cast.target.shape ⟨false⟩ Cast.target.transforms
      ⟨Cast.file, false⟩ = .ok view := by
  have hbuild : (Cast.builder Cast.plan).build (Cast.planner Cast.plan.id) = .ok Cast.plan := by
    decide +kernel
  have hbuiltin : ∀ planned ∈ Cast.target.transforms, Builtin planned := by
    intro planned hplanned
    obtain rfl := List.mem_singleton.mp hplanned
    exact ⟨rfl, rfl, rfl, rfl, .inr (.inl ⟨rfl, rfl⟩)⟩
  obtain ⟨view, hsize, hvalue, hchain, _⟩ := @planned_sizes (Cast.planner Cast.plan.id)
    (Cast.builder Cast.plan) Cast.plan hbuild
    (fun source hs => (List.mem_singleton.mp hs).symm ▸ Cast.source_made)
    (fun target ht => (List.mem_singleton.mp ht).symm ▸ Cast.target_made)
    (Cast.binding 0) (List.mem_singleton.mpr rfl) rfl rfl (Cast.source "w" 0 0)
    (List.mem_singleton.mpr rfl) .f32 ⟨0, 0, 8⟩ rfl hbuiltin Cast.half (withBuiltins Cast.half)
    (withBuiltins_contiguous _) ⟨Cast.file, false⟩ rfl
  exact ⟨view, hvalue.trans (by decide), hsize, hchain ⟨false⟩⟩

/-- A binding with a recipe has no transforms and a plain source, and the empty chain
returns the eight bytes of the source where the plan records sixteen. -/
theorem recipe_sizes : Cast.recipePlan.sources = [Cast.source "w" 0 0] ∧
    (Cast.source "w" 0 0).Made ∧ Cast.recipeTarget.Made ∧
    (Cast.builder Cast.recipePlan).build (Cast.planner Cast.plan.id) = .ok Cast.recipePlan ∧
    Cast.recipeBinding ∈ Cast.recipePlan.bindings ∧
    (Cast.source "w" 0 0).storage = .plain .f32 ⟨0, 0, 8⟩ ∧ Cast.file.length = 8 ∧
    (∀ planned ∈ Cast.recipeTarget.transforms, Builtin planned) ∧
    prepareChain (withBuiltins Cast.half) Cast.recipeTarget.shape ⟨false⟩
      Cast.recipeTarget.transforms ⟨Cast.file, false⟩ = .ok ⟨Cast.file, false⟩ ∧
    Cast.file.length ≠ Cast.recipeTarget.outputSize := by
  have hbuild : (Cast.builder Cast.recipePlan).build (Cast.planner Cast.plan.id) =
      .ok Cast.recipePlan := by decide +kernel
  have hbinding : Cast.recipeBinding ∈ Cast.recipePlan.bindings := List.mem_singleton.mpr rfl
  have hnil : Cast.recipeTarget.transforms = [] := rfl
  have hbuiltin : ∀ planned ∈ Cast.recipeTarget.transforms, Builtin planned := by
    rw [hnil]
    simp
  exact ⟨rfl, Cast.source_made, Cast.recipeTarget_made, hbuild, hbinding, rfl, rfl, hbuiltin, rfl,
    by decide⟩

end ModelWeights.Prepared
