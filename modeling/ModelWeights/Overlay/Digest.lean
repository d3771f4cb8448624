import ModelWeights.Overlay.Composition

/-! # Identities of overlaid targets

`OverlayPlan::target_digest` hashes one base with the operations on it. The hashed
bytes of two plans agree on a base exactly when the operations on that base do. -/
namespace ModelWeights.Overlay
open ModelWeights.Graph Plan Prepared Canonical Groups

/-! ## What is hashed -/

structure ReferencedSourceDigest where
  fileOrdinal : Nat
  content : ContentDigest
  deriving DecidableEq, Repr

def ReferencedSourceDigest.json (digest : ReferencedSourceDigest) : Json :=
  .fields [("file_ordinal", .nat digest.fileOrdinal), ("content", digestJson digest.content)]

/-- The files that the sources of an operation lie in. -/
def referencedOrdinals (operation : OverlayOperation) : List Nat :=
  sortDedup (operation.sources.flatMap fun source => fileOrdinals source.storage)

def referencedDigest (layer : OverlayLayer) (ordinal : Nat) : Result ReferencedSourceDigest := do
  let content ← okOr layer.sourceDigests[ordinal]?
    (.integrity "overlay operation references a missing source digest")
  .ok ⟨ordinal, content⟩

def referencedSourceDigests (layer : OverlayLayer) (operation : OverlayOperation)
    (cancellation : CancellationToken) : Result (List ReferencedSourceDigest) := do
  cancellation.check
  (referencedOrdinals operation).mapM (referencedDigest layer)

/-- The bytes behind the identity of one operation. -/
def operationPreimage (h : OverlayHashing) (operation : OverlayOperation)
    (sourceDigests : List ReferencedSourceDigest) : List UInt8 :=
  ContentDigest.preimage "overlay-target-operation-v1"
    [canonicalJson (.fields [("operation", h.operationJson operation),
      ("source_digests", .list (sourceDigests.map ReferencedSourceDigest.json))])]

def targetOperationDigest (h : OverlayHashing) (layer : OverlayLayer)
    (operation : OverlayOperation) (cancellation : CancellationToken) : Result ContentDigest := do
  let sourceDigests ← referencedSourceDigests layer operation cancellation
  .ok (h.sha256 (operationPreimage h operation sourceDigests))

/-- The layer that a map filled in layer order holds for an identity. -/
def layerOf (layers : List OverlayLayer) (id : OverlayId) : Option OverlayLayer :=
  layers.reverse.find? fun layer => layer.id = id

def referenceDigest (h : OverlayHashing) (plan : OverlayPlan) (cancellation : CancellationToken)
    (reference : OverlayOperationRef) : Result ContentDigest := do
  cancellation.check
  let layer ← okOr (layerOf plan.layers reference.layer)
    (.integrity "overlay binding references a missing layer")
  let operation ← okOr layer.operations[reference.operationIndex]?
    (.integrity "overlay binding operation index lies outside its layer")
  targetOperationDigest h layer operation cancellation

def targetOverlayJson (mode : CompositionMode) (conflictPolicy : ConflictPolicy)
    (base : BaseTensor) (operations : List ContentDigest) : Json :=
  .fields [("mode", mode.json), ("conflict_policy", conflictPolicy.json), ("base", base.json),
    ("operations", .list (operations.map digestJson))]

/-- The bytes that `target_digest` hashes. Bindings are in name order, without
repetitions, and the source searches them so. -/
def OverlayPlan.targetPreimage (h : OverlayHashing) (plan : OverlayPlan) (target : TensorName)
    (cancellation : CancellationToken) : Result (List UInt8) := do
  cancellation.check
  let canonical := plan.aliases.resolve target
  let binding ← okOr (plan.bindings.find? fun binding => binding.base.name = canonical)
    (.binding "overlay digest target does not resolve to a base")
  let operations ← binding.operations.mapM (referenceDigest h plan cancellation)
  .ok (ContentDigest.preimage "overlay-target-v2"
    [canonicalJson (targetOverlayJson plan.mode plan.conflictPolicy binding.base operations)])

def OverlayPlan.targetDigest (h : OverlayHashing) (plan : OverlayPlan) (target : TensorName)
    (cancellation : CancellationToken) : Result ContentDigest := do
  let preimage ← plan.targetPreimage h target cancellation
  .ok (h.sha256 preimage)

/-! ## What matters for a base -/

/-- One operation with the files it reads and their digests. -/
structure OperationContent where
  operation : OverlayOperation
  files : List (Nat × Option ContentDigest)
  deriving DecidableEq

def StackEntry.content (entry : StackEntry) : OperationContent where
  operation := entry.operation
  files := (referencedOrdinals entry.operation).map fun ordinal =>
    (ordinal, entry.layer.sourceDigests[ordinal]?)

/-- The composition of one base, without the layers and names it is reached by. -/
structure TargetContent where
  mode : CompositionMode
  conflictPolicy : ConflictPolicy
  base : BaseTensor
  operations : List OperationContent
  deriving DecidableEq

def OverlayPlan.content (plan : OverlayPlan) (base : BaseTensor) : TargetContent where
  mode := plan.mode
  conflictPolicy := plan.conflictPolicy
  base := base
  operations := (composition plan.aliases plan.layers base.name).map StackEntry.content

/-! ## Texts of payloads -/

theorem CompositionMode.json_inj {a b : CompositionMode} (h : a.json = b.json) : a = b := by
  cases a <;> cases b <;> first | rfl | exact absurd (Json.text.inj h) (by decide)

theorem ConflictPolicy.json_inj {a b : ConflictPolicy} (h : a.json = b.json) : a = b := by
  cases a <;> cases b <;> first | rfl | exact absurd (Json.text.inj h) (by decide)

theorem BaseTensor.json_inj {a b : BaseTensor} (h : a.json = b.json) : a = b := by
  simp only [BaseTensor.json, Json.fields_inj, List.cons.injEq, Prod.mk.injEq, true_and, and_true,
    nameJson_inj, Json.list_inj, digestJson_inj] at h
  obtain ⟨hname, hshape, hcontent⟩ := h
  have hshape := (List.map_injective_iff.mpr fun _ _ => Json.nat_inj.mp) hshape
  cases a
  cases b
  congr

theorem ReferencedSourceDigest.json_injective : Function.Injective ReferencedSourceDigest.json := by
  intro a b h
  simp only [json, Json.fields_inj, List.cons.injEq, Prod.mk.injEq, true_and, and_true,
    Json.nat_inj, digestJson_inj] at h
  obtain ⟨hordinal, hcontent⟩ := h
  cases a
  cases b
  congr

theorem targetOverlayJson_inj {mode mode' : CompositionMode} {policy policy' : ConflictPolicy}
    {base base' : BaseTensor} {operations operations' : List ContentDigest}
    (h : targetOverlayJson mode policy base operations =
      targetOverlayJson mode' policy' base' operations') :
    mode = mode' ∧ policy = policy' ∧ base = base' ∧ operations = operations' := by
  simp only [targetOverlayJson, Json.fields_inj, List.cons.injEq, Prod.mk.injEq, true_and,
    and_true, Json.list_inj] at h
  obtain ⟨hmode, hpolicy, hbase, hops⟩ := h
  exact ⟨CompositionMode.json_inj hmode, ConflictPolicy.json_inj hpolicy, BaseTensor.json_inj hbase,
    (List.map_injective_iff.mpr fun _ _ => digestJson_inj.mp) hops⟩

/-- A single hashed part can be read off, whatever its length. -/
theorem preimage_singleton_inj {domain : String} {a b : List UInt8}
    (h : ContentDigest.preimage domain [a] = ContentDigest.preimage domain [b]) : a = b := by
  rw [ContentDigest.preimage, ContentDigest.preimage, List.flatMap_singleton,
    List.flatMap_singleton] at h
  have hframed := List.append_cancel_left (List.append_cancel_left h)
  exact (List.append_inj hframed (by rw [Parsing.length_leBytes, Parsing.length_leBytes])).2

theorem operationPreimage_inj {h : OverlayHashing} {operation operation' : OverlayOperation}
    {digests digests' : List ReferencedSourceDigest}
    (heq : operationPreimage h operation digests = operationPreimage h operation' digests') :
    h.operationJson operation = h.operationJson operation' ∧ digests = digests' := by
  have hjsons := canonicalJson_injective (preimage_singleton_inj heq)
  simp only [Json.fields_inj, List.cons.injEq, Prod.mk.injEq, true_and, and_true,
    Json.list_inj] at hjsons
  exact ⟨hjsons.1,
    (List.map_injective_iff.mpr ReferencedSourceDigest.json_injective) hjsons.2⟩

/-! ## The hashed bytes of a plan that was built -/

/-- A plan that `OverlayPlan::build` made of layers which exist. -/
def OverlayPlan.Built (h : OverlayHashing) (plan : OverlayPlan) : Prop :=
  plan.Composed h ∧ ∀ layer ∈ plan.layers, layer.Made h

theorem OverlayPlan.built_of_build {h : OverlayHashing} {sort : KeySort TensorName}
    {bases : List BaseTensor} {aliases : AliasTable} {layers : List OverlayLayer}
    {policy : ConflictPolicy} {mode : CompositionMode} {plan : OverlayPlan}
    (hmade : ∀ layer ∈ layers, layer.Made h)
    (hb : OverlayPlan.build h sort bases aliases layers policy mode = .ok plan) : plan.Built h := by
  obtain ⟨hcomposed, _, _, _, hlayers, _, _⟩ := build_ok hb
  exact ⟨hcomposed, by rw [hlayers]; exact hmade⟩

section Evaluate
variable {h : OverlayHashing}

/-- The digests of the files of an entry. -/
def StackEntry.digests (entry : StackEntry) : List ReferencedSourceDigest :=
  entry.content.files.filterMap fun file => file.2.map (ReferencedSourceDigest.mk file.1)

def StackEntry.preimage (h : OverlayHashing) (entry : StackEntry) : List UInt8 :=
  operationPreimage h entry.operation entry.digests

def StackEntry.digest (h : OverlayHashing) (entry : StackEntry) : ContentDigest :=
  h.sha256 (entry.preimage h)

/-- An entry whose layer has the digests of all its files. -/
def Covered (entry : StackEntry) : Prop :=
  ∀ ordinal ∈ referencedOrdinals entry.operation,
    ordinal < entry.layer.sourceDigests.length

theorem covered_of_made {layers : List OverlayLayer} (hmade : ∀ layer ∈ layers, layer.Made h)
    {entry : StackEntry} (hm : entry ∈ stack layers) : Covered entry := by
  obtain ⟨hlayer, hop⟩ := mem_stack hm
  intro ordinal ho
  obtain ⟨source, hs, ho⟩ := List.mem_flatMap.mp (mem_sortDedup.mp ho)
  exact (hmade _ hlayer).covers (List.mem_of_getElem? hop) hs ho

theorem mapM_referencedDigest (layer : OverlayLayer) : ∀ {ordinals : List Nat},
    (∀ ordinal ∈ ordinals, ordinal < layer.sourceDigests.length) →
    ordinals.mapM (referencedDigest layer) = .ok
      ((ordinals.map fun ordinal => (ordinal, layer.sourceDigests[ordinal]?)).filterMap
        fun file => file.2.map (ReferencedSourceDigest.mk file.1))
  | [], _ => rfl
  | ordinal :: rest, hall => by
    have hlt := hall ordinal (List.mem_cons_self ..)
    have ih := mapM_referencedDigest layer fun o ho =>
      hall o (List.mem_cons_of_mem _ ho)
    rw [List.mapM_cons, ih, referencedDigest, List.getElem?_eq_getElem hlt, List.map_cons,
      List.filterMap_cons, List.getElem?_eq_getElem hlt]
    rfl

theorem targetOperationDigest_eq {entry : StackEntry} (hc : Covered entry) :
    targetOperationDigest h entry.layer entry.operation ⟨false⟩ = .ok (entry.digest h) := by
  have hrefs : referencedSourceDigests entry.layer entry.operation ⟨false⟩ = .ok entry.digests :=
    mapM_referencedDigest _ hc
  rw [targetOperationDigest, hrefs]
  rfl

/-- With distinct identities a layer is found by its own. -/
theorem layerOf_eq {layers : List OverlayLayer} (hn : (layers.map OverlayLayer.id).Nodup)
    {layer : OverlayLayer} (hm : layer ∈ layers) : layerOf layers layer.id = some layer := by
  have hrev : (layers.reverse.map OverlayLayer.id).Nodup := by
    rw [List.map_reverse, List.nodup_reverse]
    exact hn
  exact find?_key hrev (List.mem_reverse.mpr hm)

variable {plan : OverlayPlan} (hplan : plan.Built h)
include hplan

theorem referenceDigest_eq {entry : StackEntry} (hm : entry ∈ stack plan.layers) :
    referenceDigest h plan ⟨false⟩ entry.reference = .ok (entry.digest h) := by
  obtain ⟨hlayer, hop⟩ := mem_stack hm
  have hcovered := covered_of_made hplan.2 hm
  have hfound : layerOf plan.layers entry.reference.layer = some entry.layer :=
    layerOf_eq hplan.1.layerIds hlayer
  have hindexed : entry.layer.operations[entry.reference.operationIndex]? =
      some entry.operation := hop
  rw [referenceDigest, hfound]
  show okOr entry.layer.operations[entry.reference.operationIndex]? _ >>= _ = _
  rw [hindexed]
  exact targetOperationDigest_eq hcovered

theorem mapM_referenceDigest : ∀ {entries : List StackEntry},
    (∀ entry ∈ entries, entry ∈ stack plan.layers) →
    (entries.map StackEntry.reference).mapM (referenceDigest h plan ⟨false⟩) =
      .ok (entries.map (StackEntry.digest h))
  | [], _ => rfl
  | entry :: rest, hall => by
    have hfirst := referenceDigest_eq hplan (hall entry (List.mem_cons_self ..))
    have ih := mapM_referenceDigest fun e he => hall e (List.mem_cons_of_mem _ he)
    rw [List.map_cons, List.mapM_cons, hfirst, ih]
    rfl

/-- The bytes hashed for a base, under any name that resolves to it. -/
theorem targetPreimage_eq {base : BaseTensor} (hbase : base ∈ plan.bases) {target : TensorName}
    (htarget : plan.aliases.resolve target = base.name) :
    plan.targetPreimage h target ⟨false⟩ = .ok (ContentDigest.preimage "overlay-target-v2"
      [canonicalJson (targetOverlayJson plan.mode plan.conflictPolicy base
        ((composition plan.aliases plan.layers base.name).map (StackEntry.digest h)))]) := by
  have hnodup : (plan.bases.map BaseTensor.name).Nodup := by
    rw [List.nodup_iff_pairwise_ne, List.pairwise_map]
    exact hplan.1.sorted.imp ne_of_lt
  have hfind : (plan.bindings.find? fun binding => binding.base.name = base.name) =
      some ⟨base, (composition plan.aliases plan.layers base.name).map StackEntry.reference⟩ := by
    have hbases := find?_key hnodup hbase
    rw [hplan.1.bindings, List.find?_map]
    show (plan.bases.find? fun b => b.name = base.name).map _ = _
    rw [hbases]
    rfl
  have hall : ∀ e ∈ composition plan.aliases plan.layers base.name, e ∈ stack plan.layers :=
    fun e he => (mem_group.mp he).1
  have hops := mapM_referenceDigest hplan hall
  unfold OverlayPlan.targetPreimage
  show okOr (plan.bindings.find? fun binding =>
    binding.base.name = plan.aliases.resolve target) _ >>= _ = _
  rw [htarget, hfind]
  show (_ : Result (List ContentDigest)) >>= _ = _
  rw [hops]
  rfl

end Evaluate

/-! ## Noninterference -/

theorem map_of_filterMap_mk : ∀ {files : List (Nat × Option ContentDigest)},
    (∀ file ∈ files, file.2.isSome) →
    ((files.filterMap fun file => file.2.map (ReferencedSourceDigest.mk file.1)).map
      fun digest => (digest.fileOrdinal, some digest.content)) = files
  | [], _ => rfl
  | (ordinal, content) :: rest, hall => by
    obtain ⟨digest, rfl⟩ := Option.isSome_iff_exists.mp (hall _ (List.mem_cons_self ..))
    have ih := map_of_filterMap_mk fun file hm => hall file (List.mem_cons_of_mem _ hm)
    rw [List.filterMap_cons]
    show (ordinal, some digest) :: _ = _
    rw [ih]

/-- The digests of an entry tell the digests of its files. -/
theorem files_of_digests {entry : StackEntry} (hc : Covered entry) :
    (entry.digests.map fun digest => (digest.fileOrdinal, some digest.content)) =
      entry.content.files := by
  refine map_of_filterMap_mk fun file hm => ?_
  obtain ⟨ordinal, ho, rfl⟩ := List.mem_map.mp hm
  rw [List.getElem?_eq_getElem (hc ordinal ho)]
  rfl

theorem content_inj {entry entry' : StackEntry} (hc : Covered entry) (hc' : Covered entry')
    (hop : entry.operation = entry'.operation) (hdigests : entry.digests = entry'.digests) :
    entry.content = entry'.content := by
  have hfiles : entry.content.files = entry'.content.files := by
    rw [← files_of_digests hc, ← files_of_digests hc', hdigests]
  have hoperation : entry.content.operation = entry'.content.operation := hop
  cases he : entry.content
  cases he' : entry'.content
  rw [he, he'] at hfiles hoperation
  exact OperationContent.mk.injEq .. ▸ ⟨hoperation, hfiles⟩

theorem digest_congr (h : OverlayHashing) {entry entry' : StackEntry}
    (heq : entry.content = entry'.content) : entry.digest h = entry'.digest h := by
  have hop : entry.operation = entry'.operation := congrArg OperationContent.operation heq
  rw [StackEntry.digest, StackEntry.preimage, StackEntry.digest, StackEntry.preimage,
    StackEntry.digests, heq, hop]
  rfl

/-- Lists that one function makes equal are made equal by another, if it tells no more
of their elements. -/
theorem map_eq_of_map_eq {α β γ : Type} {f : α → β} {g : α → γ} : ∀ {l m : List α},
    (∀ a ∈ l, ∀ b ∈ m, f a = f b → g a = g b) → l.map f = m.map f → l.map g = m.map g
  | [], [], _, _ => rfl
  | [], _ :: _, _, h => by cases h
  | _ :: _, [], _, h => by cases h
  | a :: l, b :: m, hfg, h => by
    obtain ⟨hhead, htail⟩ := List.cons.inj h
    have hab := hfg a (List.mem_cons_self ..) b (List.mem_cons_self ..) hhead
    have ih := map_eq_of_map_eq (l := l) (m := m) (fun x hx y hy =>
      hfg x (List.mem_cons_of_mem _ hx) y (List.mem_cons_of_mem _ hy)) htail
    rw [List.map_cons, List.map_cons, hab, ih]

/-- On the operations that are hashed for two bases, SHA-256 is free of collisions and the
JSON of an operation tells the operation. -/
structure Separating (h : OverlayHashing) (entries entries' : List StackEntry) : Prop where
  digest : ∀ entry ∈ entries, ∀ entry' ∈ entries', entry.digest h = entry'.digest h →
    entry.preimage h = entry'.preimage h
  json : ∀ entry ∈ entries, ∀ entry' ∈ entries',
    h.operationJson entry.operation = h.operationJson entry'.operation →
    entry.operation = entry'.operation

section Congruence
variable {h : OverlayHashing} {plan plan' : OverlayPlan} {base base' : BaseTensor}
  {target target' : TensorName}

/-- Bases with the same content hash the same bytes. -/
theorem targetPreimage_congr (hplan : plan.Built h) (hplan' : plan'.Built h)
    (hbase : base ∈ plan.bases) (hbase' : base' ∈ plan'.bases)
    (htarget : plan.aliases.resolve target = base.name)
    (htarget' : plan'.aliases.resolve target' = base'.name)
    (hcontent : plan.content base = plan'.content base') :
    plan.targetPreimage h target ⟨false⟩ = plan'.targetPreimage h target' ⟨false⟩ := by
  obtain ⟨hmode, hpolicy, hb, hops⟩ := TargetContent.mk.inj hcontent
  have hdigests := map_eq_of_map_eq (fun _ _ _ _ he => digest_congr h he) hops
  rw [targetPreimage_eq hplan hbase htarget, targetPreimage_eq hplan' hbase' htarget', hmode,
    hpolicy, hdigests, hb]

theorem targetDigest_congr (hplan : plan.Built h) (hplan' : plan'.Built h)
    (hbase : base ∈ plan.bases) (hbase' : base' ∈ plan'.bases)
    (htarget : plan.aliases.resolve target = base.name)
    (htarget' : plan'.aliases.resolve target' = base'.name)
    (hcontent : plan.content base = plan'.content base') :
    plan.targetDigest h target ⟨false⟩ = plan'.targetDigest h target' ⟨false⟩ := by
  rw [OverlayPlan.targetDigest, OverlayPlan.targetDigest,
    targetPreimage_congr hplan hplan' hbase hbase' htarget htarget' hcontent]

end Congruence

/-- **The identity of a target depends on its own composition only, and on all of it.**
Two plans hash the same bytes for two bases, each queried under any name that resolves
to it, when the bases, the modes, the policies and the ordered operations on them with
the files they read are the same; and only then, if hashing separates operations. -/
theorem targetPreimage_noninterference {h : OverlayHashing} {plan plan' : OverlayPlan}
    (hplan : plan.Built h) (hplan' : plan'.Built h) {base base' : BaseTensor}
    (hbase : base ∈ plan.bases) (hbase' : base' ∈ plan'.bases) {target target' : TensorName}
    (htarget : plan.aliases.resolve target = base.name)
    (htarget' : plan'.aliases.resolve target' = base'.name) :
    ∃ preimage preimage', plan.targetPreimage h target ⟨false⟩ = .ok preimage ∧
      plan'.targetPreimage h target' ⟨false⟩ = .ok preimage' ∧
      plan.targetDigest h target ⟨false⟩ = .ok (h.sha256 preimage) ∧
      plan'.targetDigest h target' ⟨false⟩ = .ok (h.sha256 preimage') ∧
      (plan.content base = plan'.content base' → preimage = preimage') ∧
      (Separating h (composition plan.aliases plan.layers base.name)
          (composition plan'.aliases plan'.layers base'.name) →
        preimage = preimage' → plan.content base = plan'.content base') := by
  have hpre := targetPreimage_eq hplan hbase htarget
  have hpre' := targetPreimage_eq hplan' hbase' htarget'
  refine ⟨_, _, hpre, hpre', by rw [OverlayPlan.targetDigest, hpre]; rfl,
    by rw [OverlayPlan.targetDigest, hpre']; rfl, ?_, ?_⟩
  · intro hcontent
    have hsame := targetPreimage_congr hplan hplan' hbase hbase' htarget htarget' hcontent
    rw [hpre, hpre'] at hsame
    exact Except.ok.inj hsame
  · intro hseparating heq
    have hjsons := canonicalJson_injective (preimage_singleton_inj heq)
    obtain ⟨hmode, hpolicy, hb, hdigests⟩ := targetOverlayJson_inj hjsons
    have hops := map_eq_of_map_eq (g := StackEntry.content) (fun entry hm entry' hm' he => by
      have hcovered := covered_of_made hplan.2 (mem_group.mp hm).1
      have hcovered' := covered_of_made hplan'.2 (mem_group.mp hm').1
      obtain ⟨hjson, hfiles⟩ := operationPreimage_inj (hseparating.digest entry hm entry' hm' he)
      have hop := hseparating.json entry hm entry' hm' hjson
      exact content_inj hcovered hcovered' hop hfiles) hdigests
    rw [OverlayPlan.content, OverlayPlan.content, hmode, hpolicy, hops, hb]

namespace Sample

def digest (n : UInt8) : ContentDigest := ⟨List.replicate 32 n, rfl⟩

def blend : ImplementationId := ⟨⟨"adapters"⟩, ⟨"replace"⟩, 1⟩

def source : SourceTensor := ⟨⟨"delta"⟩, [2], .plain .f32 ⟨0, 0, 8⟩⟩

def operation (target : String) : OverlayOperation := .replace ⟨target⟩ source blend

def implementationJson (i : ImplementationId) : Json :=
  .fields [("provider", .text i.provider.text), ("operation", .text i.operation.text),
    ("version", .nat i.version)]

def spanJson (span : SourceSpan) : Json :=
  .fields [("file", .nat span.file), ("offset", .nat span.offset), ("length", .nat span.length)]

/-- The JSON of replacements by a plain `F32` tensor. -/
def operationJson : OverlayOperation → Json
  | .replace target ⟨name, shape, .plain _ span⟩ implementation =>
    .fields [("Replace", .fields [("target", nameJson target),
      ("value", .fields [("name", nameJson name), ("shape", .list (shape.map .nat)),
        ("storage", .fields [("Plain", .fields [("dtype", .text "F32"),
          ("span", spanJson span)])])]),
      ("implementation", implementationJson implementation)])]
  | _ => .null

/-- SHA-256 of the identity of a layer with the operation on `w` alone. -/
def wDigest : ContentDigest :=
  ⟨[115, 55, 97, 149, 217, 7, 241, 36, 90, 115, 104, 57, 99, 144, 110, 249, 43, 237, 215, 131, 50,
    199, 178, 247, 33, 251, 193, 142, 207, 132, 9, 250], rfl⟩

/-- SHA-256 on the byte strings that the two plans hash, told apart by their lengths. -/
def sha256 (bytes : List UInt8) : ContentDigest :=
  match bytes.length with
  | 401 => wDigest
  | 616 =>
    ⟨[106, 110, 43, 229, 205, 241, 185, 250, 185, 109, 103, 132, 25, 175, 138, 176, 16, 43, 112,
      28, 197, 164, 203, 143, 39, 216, 80, 176, 209, 31, 100, 234], rfl⟩
  | 929 =>
    ⟨[59, 184, 204, 75, 33, 27, 48, 229, 173, 9, 4, 118, 254, 9, 131, 147, 202, 43, 158, 72, 171,
      187, 215, 193, 84, 241, 83, 90, 236, 167, 90, 73], rfl⟩
  | 1459 =>
    ⟨[11, 92, 112, 78, 12, 229, 36, 249, 159, 178, 68, 248, 11, 181, 21, 219, 121, 158, 37, 241,
      109, 149, 235, 83, 233, 95, 136, 152, 168, 124, 149, 71], rfl⟩
  | 419 =>
    ⟨[128, 113, 58, 91, 219, 174, 241, 201, 14, 99, 58, 80, 27, 43, 65, 217, 12, 219, 190, 248,
      189, 202, 55, 133, 169, 52, 250, 137, 234, 28, 13, 3], rfl⟩
  | _ =>
    ⟨[125, 154, 140, 231, 203, 123, 115, 100, 164, 126, 95, 239, 155, 179, 70, 208, 39, 17, 200,
      30, 160, 121, 48, 100, 183, 159, 252, 117, 22, 210, 45, 107], rfl⟩

def hashing : OverlayHashing := ⟨sha256, operationJson⟩

def base (name : String) : BaseTensor := ⟨⟨name⟩, [2], digest 1, by decide⟩

def aliases : AliasTable := ⟨.ofList [(⟨"tied"⟩, ⟨"w"⟩)], by decide +kernel⟩

def layer (operations : List OverlayOperation) : OverlayLayer where
  schemaVersion := 1
  id := ContentDigest.hash sha256 "overlay-layer-v1"
    [canonicalJson (layerIdentityJson hashing [digest 2] operations)]
  sourceDigests := [digest 2]
  operations := operations

def build : Result OverlayPlan :=
  OverlayPlan.build hashing insertionKeySort [base "w"] aliases [layer [operation "w"]]
    .ordered .lazy

/-- One more base, with an operation on it, and no alias. -/
def widerBuild : Result OverlayPlan :=
  OverlayPlan.build hashing insertionKeySort [base "x", base "w"] .empty
    [layer [operation "w", operation "x"]] .ordered .lazy

/-- The operation on `w`, at the head of a layer. -/
def entry (rest : List OverlayOperation) : StackEntry :=
  ⟨layer (operation "w" :: rest), 0, operation "w"⟩

theorem content_entry (rest : List OverlayOperation) : (entry rest).content =
    ⟨operation "w", (referencedOrdinals (operation "w")).map fun ordinal =>
      (ordinal, [digest 2][ordinal]?)⟩ :=
  rfl

theorem made_layer : (layer [operation "w"]).Made hashing := rfl

theorem made_wider : (layer [operation "w", operation "x"]).Made hashing := rfl

theorem composition_w : composition aliases [layer [operation "w"]] ⟨"w"⟩ = [entry []] := by
  have hstack : stack [layer [operation "w"]] = [entry []] := rfl
  have hw : addressed aliases (entry []) = ⟨"w"⟩ := by decide +kernel
  rw [composition, group, hstack, List.filter_cons, hw]
  rfl

theorem composition_wider :
    composition .empty [layer [operation "w", operation "x"]] ⟨"w"⟩ = [entry [operation "x"]] := by
  have hstack : stack [layer [operation "w", operation "x"]] = [entry [operation "x"],
    ⟨layer [operation "w", operation "x"], 1, operation "x"⟩] := rfl
  have hw : addressed .empty (entry [operation "x"]) = ⟨"w"⟩ := by decide +kernel
  have hx : addressed .empty ⟨layer [operation "w", operation "x"], 1, operation "x"⟩ ≠ ⟨"w"⟩ := by
    decide +kernel
  rw [composition, group, hstack, List.filter_cons, hw, List.filter_cons, decide_eq_false hx]
  rfl

end Sample

theorem targetPreimage_noninterference_wider : ∃ plan plan' preimage,
    Sample.build = .ok plan ∧ Sample.widerBuild = .ok plan' ∧
      plan.targetPreimage Sample.hashing ⟨"tied"⟩ ⟨false⟩ = .ok preimage ∧
      plan'.targetPreimage Sample.hashing ⟨"w"⟩ ⟨false⟩ = .ok preimage := by
  obtain ⟨plan, hb⟩ : ∃ plan, Sample.build = .ok plan := ⟨_, rfl⟩
  obtain ⟨plan', hb'⟩ : ∃ plan, Sample.widerBuild = .ok plan := ⟨_, rfl⟩
  have hbuilt := OverlayPlan.built_of_build (List.forall_mem_singleton.mpr Sample.made_layer) hb
  have hbuilt' := OverlayPlan.built_of_build (List.forall_mem_singleton.mpr Sample.made_wider) hb'
  obtain ⟨_, _, hbases, haliases, hlayers, hpolicy, hmode⟩ := build_ok hb
  obtain ⟨_, _, hbases', haliases', hlayers', hpolicy', hmode'⟩ := build_ok hb'
  have hw : Sample.base "w" ∈ plan.bases := by
    rw [hbases, KeySort.mem]
    exact List.mem_singleton_self _
  have hw' : Sample.base "w" ∈ plan'.bases := by
    rw [hbases', KeySort.mem]
    exact List.mem_cons_of_mem _ (List.mem_singleton_self _)
  have hcontent : plan.content (Sample.base "w") = plan'.content (Sample.base "w") := by
    rw [OverlayPlan.content, OverlayPlan.content, haliases, haliases', hlayers, hlayers', hpolicy,
      hpolicy', hmode, hmode', Sample.base, Sample.composition_w, Sample.composition_wider,
      List.map_singleton, List.map_singleton, Sample.content_entry, Sample.content_entry]
  have htied : plan.aliases.resolve ⟨"tied"⟩ = (Sample.base "w").name := by
    rw [haliases]
    decide +kernel
  have hplain : plan'.aliases.resolve ⟨"w"⟩ = (Sample.base "w").name := by
    rw [haliases']
    decide +kernel
  obtain ⟨preimage, preimage', hpre, hpre', _, _, hsame, _⟩ :=
    targetPreimage_noninterference hbuilt hbuilt' hw hw' htied hplain
  obtain rfl := hsame hcontent
  exact ⟨plan, plan', preimage, hb, hb', hpre, hpre'⟩

end ModelWeights.Overlay
