import ModelWeights.Inventory.Reading
import ModelWeights.Plan.Codec

/-! # Constructing materializers

`Materializer::new` of `materialize.rs`. A plan is untrusted until it is compared with the
checkpoint that is opened: its digests, and its sources against the inventory. A plan that
passes was made from this inventory, and every span that its bindings read lies in a file. -/
namespace ModelWeights.Prepared
open BinarySearch Canonical
open ModelWeights.Graph (ByteView)
open Plan (SourceTensor Binding BindingPlan Planner)

/-! ## The checks -/

def validateInventorySource (inventory : Inventory) (source : SourceTensor) : Result Unit := do
  let record ← okOr (inventory.tensor source.name.text)
    (.binding "binding plan source is absent from the opened checkpoint")
  if record.shape ≠ source.shape ∨ record.storage ≠ source.storage then
    .error (.integrity
      "binding plan source descriptor differs from the opened checkpoint inventory")
  else .ok ()

def validateInventoryBinding (inventory : Inventory) (binding : Binding) : Result Unit :=
  binding.sources.forM (validateInventorySource inventory)

/-- One turn of the loop over the inventory in `validate_complete_plan_inventory`. -/
def validatePlanRecord (plan : BindingPlan) (record : TensorRecord) : Result Unit := do
  let source ← okOr (findBy (fun source => source.name.text) record.name plan.sources)
    (.integrity "binding plan source inventory differs from the opened checkpoint inventory")
  if source.shape ≠ record.shape ∨ source.storage ≠ record.storage then
    .error (.integrity
      "binding plan source inventory differs from the opened checkpoint inventory")
  else .ok ()

def validateCompletePlanInventory (inventory : Inventory) (plan : BindingPlan)
    (cancellation : CancellationToken) : Result Unit := do
  plan.sources.forM fun source => do
    cancellation.check
    validateInventorySource inventory source
  if plan.sources.length ≠ inventory.tensors.length then
    .error (.integrity "binding plan source inventory omits an opened checkpoint tensor")
  else
    inventory.tensors.forM fun record => do
      cancellation.check
      validatePlanRecord plan record
    cancellation.check

/-- The checks of `Materializer::new`, with the digests of the opened sources. -/
def validatePlan (inventory : Inventory) (digests : Result (List ContentDigest))
    (plan : BindingPlan) (cancellation : CancellationToken) : Result Unit := do
  let actualDigests ← digests
  if actualDigests ≠ plan.inputs.sourceDigests then
    .error (.integrity "binding plan source digests differ from the opened checkpoint")
  else
    validateCompletePlanInventory inventory plan cancellation
    plan.bindings.forM fun binding => do
      cancellation.check
      validateInventoryBinding inventory binding
    cancellation.check

/-! ## What passes -/

/-- The record of an inventory that a source of a plan describes. -/
def sourceRecord (source : SourceTensor) : TensorRecord :=
  ⟨source.name.text, source.shape, source.storage⟩

section Checks
variable {inventory : Inventory} {planner : Planner} {plan : BindingPlan}
  {cancellation : CancellationToken}

theorem validateInventorySource_eq_ok {source : SourceTensor} :
    validateInventorySource inventory source = .ok () ↔
      sourceRecord source ∈ inventory.tensors := by
  simp only [validateInventorySource, bind_eq_ok_iff, okOr_eq_ok, guard_eq_ok_iff,
    Inventory.tensor_eq_some, not_or, not_not, and_true]
  constructor
  · rintro ⟨⟨name, shape, storage⟩, ⟨hmem, rfl⟩, rfl, rfl⟩
    exact hmem
  · exact fun hmem => ⟨_, ⟨hmem, rfl⟩, rfl, rfl⟩

/-- The names of a built plan's sources are in strict order. -/
theorem sources_sorted (hbuilt : Plan.Built planner plan) :
    plan.sources.Pairwise fun a b => a.name.text < b.name.text := by
  obtain ⟨b, _, _, hbuild⟩ := hbuilt
  have hnames := ((Plan.assembled_of_build hbuild).sorted (Plan.made_of_build hbuild)).1
  exact (List.pairwise_map.mp hnames).imp fun hlt => hlt

theorem validatePlanRecord_eq_ok (hbuilt : Plan.Built planner plan) {record : TensorRecord} :
    validatePlanRecord plan record = .ok () ↔ record ∈ plan.sources.map sourceRecord := by
  have hfind := fun (source : SourceTensor) => findBy_eq_some (k := record.name)
    (sources_sorted hbuilt) (a := source)
  simp only [validatePlanRecord, bind_eq_ok_iff, okOr_eq_ok, guard_eq_ok_iff, hfind, not_or,
    not_not, and_true, List.mem_map]
  constructor
  · rintro ⟨source, ⟨hmem, hname⟩, hshape, hstorage⟩
    refine ⟨source, hmem, ?_⟩
    rw [sourceRecord, hname, hshape, hstorage]
  · rintro ⟨source, hmem, rfl⟩
    exact ⟨source, ⟨hmem, rfl⟩, rfl, rfl⟩

/-- The sources of a binding are among those of the plan. -/
theorem mem_sources (hbuilt : Plan.Built planner plan) {binding : Binding}
    (hbinding : binding ∈ plan.bindings) {source : SourceTensor}
    (hsource : source ∈ binding.sources) : source ∈ plan.sources := by
  obtain ⟨b, _, _, hbuild⟩ := hbuilt
  have hbinds := ((Plan.made_of_build hbuild).bindings binding).mp hbinding
  rw [(Plan.assembled_of_build hbuild).sources, KeySort.mem]
  exact Plan.mem_of_selected hbinds.2.2 hsource

/-- The two loops and the comparison of the sizes leave one list. -/
theorem validateCompletePlanInventory_eq_ok (hc : cancellation.cancelled = false)
    (hbuilt : Plan.Built planner plan) :
    validateCompletePlanInventory inventory plan cancellation = .ok () ↔
      plan.sources.map sourceRecord = inventory.tensors := by
  have hcheck : cancellation.check = .ok () := CancellationToken.check_eq_ok hc
  simp only [validateCompletePlanInventory, bind_unit_eq_ok_iff, guard_eq_ok_iff, forM_eq_ok,
    hcheck, true_and, and_true, validateInventorySource_eq_ok, validatePlanRecord_eq_ok hbuilt,
    not_not]
  constructor
  · rintro ⟨hsources, _, hrecords⟩
    have hsorted : (plan.sources.map sourceRecord).Pairwise fun a b => a.name < b.name :=
      List.pairwise_map.mpr (sources_sorted hbuilt)
    have hne : ∀ a b : TensorRecord, a.name < b.name → a ≠ b := by
      rintro a _ hlt rfl
      exact lt_irrefl _ hlt
    refine List.Perm.eq_of_pairwise (fun a b _ _ hab hba => absurd hba hab.asymm) hsorted
      inventory.names_sorted ?_
    rw [List.perm_ext_iff_of_nodup (hsorted.imp (hne _ _)) (inventory.names_sorted.imp (hne _ _))]
    refine fun record => ⟨fun hmem => ?_, hrecords record⟩
    obtain ⟨source, hsource, rfl⟩ := List.mem_map.mp hmem
    exact hsources source hsource
  · intro heq
    refine ⟨fun source hsource => ?_, ?_, fun record hrecord => ?_⟩
    · rw [← heq]
      exact List.mem_map_of_mem hsource
    · rw [← heq, List.length_map]
    · rwa [heq]

/-- A plan passes exactly when its digests are those of the checkpoint and its sources are
the records of the inventory. -/
theorem validatePlan_eq_ok (hc : cancellation.cancelled = false)
    (hbuilt : Plan.Built planner plan) {digests : Result (List ContentDigest)} :
    validatePlan inventory digests plan cancellation = .ok () ↔
      digests = .ok plan.inputs.sourceDigests ∧
        plan.sources.map sourceRecord = inventory.tensors := by
  have hcheck : cancellation.check = .ok () := CancellationToken.check_eq_ok hc
  have hbind : ∀ f : List ContentDigest → Result Unit, digests >>= f = .ok () ↔
      ∃ actual, digests = .ok actual ∧ f actual = .ok () := fun _ => bind_eq_ok_iff
  simp only [validatePlan, validateInventoryBinding, hbind, bind_unit_eq_ok_iff, guard_eq_ok_iff,
    forM_eq_ok, hcheck, true_and, and_true, validateInventorySource_eq_ok, not_not,
    validateCompletePlanInventory_eq_ok hc hbuilt]
  constructor
  · rintro ⟨_, hdigests, rfl, hsources, _⟩
    exact ⟨hdigests, hsources⟩
  · rintro ⟨hdigests, hsources⟩
    refine ⟨_, hdigests, rfl, hsources, fun binding hbinding source hsource => ?_⟩
    rw [← hsources]
    exact List.mem_map_of_mem (mem_sources hbuilt hbinding hsource)

/-! ## What a plan reads -/

/-- The spans of a stored tensor: its payload and those of its companions. -/
def storageSpans : Storage → List SourceSpan
  | .plain _ span => [span]
  | .quantized storage => storage.payload :: storage.companions.entries.map fun entry =>
      entry.2.span

/-- Every span of an inventory lies in one of its files. -/
theorem spans_within {record : TensorRecord} (hrecord : record ∈ inventory.tensors)
    {span : SourceSpan} (hspan : span ∈ storageSpans record.storage) :
    ∃ file, inventory.files[span.file]? = some file ∧ span.finish ≤ file.size := by
  have hvalid : validateInventorySpan inventory.files span = .ok () := by
    have hcheck := forM_eq_ok.mp inventory.checked_ok.2.2 record hrecord
    obtain ⟨_, hcheck⟩ := unless_error_ok hcheck
    unfold checkStorage at hcheck
    cases hstorage : record.storage with
    | plain dtype stored =>
      rw [hstorage] at hcheck hspan
      obtain rfl := List.mem_singleton.mp hspan
      obtain ⟨_, _, hcheck⟩ := bind_ok hcheck
      exact (unless_error_ok hcheck).2
    | quantized storage =>
      rw [hstorage] at hcheck hspan
      obtain ⟨_, hcheck⟩ := unless_error_ok hcheck
      obtain ⟨_, hpayload, hcompanions⟩ := bind_ok hcheck
      rcases List.mem_cons.mp hspan with rfl | hspan
      · exact hpayload
      · obtain ⟨entry, hentry, rfl⟩ := List.mem_map.mp hspan
        exact forM_eq_ok.mp hcompanions entry.2 (List.mem_map_of_mem hentry)
  obtain ⟨file, hfile, hfinish⟩ := bind_ok hvalid
  exact ⟨file, okOr_eq_ok.mp hfile, Nat.le_of_not_lt (unless_error_ok hfinish).1⟩

end Checks

section Opened
variable {parse : HeaderParser} {limits : CheckpointLimits}
  {cancellation opening : CancellationToken} {index : Option ShardIndex} {access : AccessMode}
  {sources : List SourceDescriptor} {inner : CheckpointInner} {answers : FileId → FileAnswers}
  {planner : Planner} {plan : BindingPlan}

/-- The file records of a checkpoint are those of its opened sources. -/
theorem file_of_open
    (hopen : openWithCancellation parse limits opening index access sources = .ok inner)
    {i : Nat} {record : FileRecord} (hrecord : inner.inventory.files[i]? = some record) :
    ∃ (source : SourceDescriptor) (file : OpenedFile), (inOrder sources)[i]? = some source ∧
      source.opened = .ok file ∧ inner.files[i]? = some ⟨source, i, file⟩ ∧
      record.size = file.bytes.length := by
  obtain ⟨hrecords, hlength, heach⟩ := files_of_open hopen
  rw [hrecords, List.getElem?_map, Option.map_eq_some_iff] at hrecord
  obtain ⟨held, hheld, rfl⟩ := hrecord
  obtain ⟨source, hsource⟩ : ∃ source, (inOrder sources)[i]? = some source := by
    have hlt := (List.getElem?_eq_some_iff.mp hheld).1
    rw [hlength, ← (insertionKeySort.perm SourceDescriptor.logicalPath sources).length_eq] at hlt
    exact ⟨_, List.getElem?_eq_getElem hlt⟩
  obtain ⟨file, hfile, hi⟩ := heach i source hsource
  obtain rfl := Option.some.inj (hheld.symm.trans hi)
  exact ⟨source, file, hsource, hfile, hheld, rfl⟩

/-- What a plan reads of a span: the bytes of a file that was opened, and it succeeds unless
the token is cancelled, the files fail or they may only be mapped. -/
def Readable (sources : List SourceDescriptor) (checkpoint : Checkpoint) (span : SourceSpan) :
    Prop :=
  ∃ (source : SourceDescriptor) (file : OpenedFile), (inOrder sources)[span.file]? = some source ∧
    source.opened = .ok file ∧ span.finish ≤ file.bytes.length ∧
    ∀ token : CancellationToken,
      (∀ view, checkpoint.readSpan span token = .ok view → view.bytes = spanOf file.bytes span) ∧
      (token.cancelled = false → checkpoint.access ≠ .mmap →
        (∀ file ∈ checkpoint.files, file.Answers) →
        ∃ view, checkpoint.readSpan span token = .ok view)

/-- **Plans of a checkpoint.** A materializer is made exactly if the digests of the plan are
those of the opened sources and its sources are the records of the inventory, one for one and
in their order. Then every span of every source of its bindings, companions included, lies
in an opened file, and reading it returns the bytes of that file. -/
theorem validatePlan_iff (hc : cancellation.cancelled = false) (hbuilt : Plan.Built planner plan)
    (hopen : openWithCancellation parse limits opening index access sources = .ok inner)
    (hfiles : inner.Backed answers) (digests : Result (List ContentDigest)) :
    (validatePlan inner.inventory digests plan cancellation = .ok () ↔
      digests = .ok plan.inputs.sourceDigests ∧
        plan.sources.map sourceRecord = inner.inventory.tensors) ∧
    (validatePlan inner.inventory digests plan cancellation = .ok () →
      ∀ binding ∈ plan.bindings, ∀ source ∈ binding.sources, ∀ span ∈ storageSpans source.storage,
        Readable sources (inner.checkpoint answers) span) := by
  refine ⟨validatePlan_eq_ok hc hbuilt, fun hvalid binding hbinding source hsource span hspan => ?_⟩
  have hsources := ((validatePlan_eq_ok hc hbuilt).mp hvalid).2
  have hrecord : sourceRecord source ∈ inner.inventory.tensors :=
    hsources ▸ List.mem_map_of_mem (mem_sources hbuilt hbinding hsource)
  obtain ⟨record, hfile, hfinish⟩ := spans_within hrecord hspan
  obtain ⟨descriptor, file, hi, hopened, hheld, hsize⟩ := file_of_open hopen hfile
  rw [hsize] at hfinish
  exact ⟨descriptor, file, hi, hopened, hfinish, fun token => hfiles.readSpan hheld rfl hfinish⟩

end Opened

/-! ## Two floats -/

namespace Floats

def header : List UInt8 :=
  Parsing.utf8 ("\x7b\"w\":\x7b\"dtype\":\"F32\",\"shape\":[2],\"data_offsets\":[0,8]\x7d\x7d")

def reader : Safetensors.JsonReader where
  document _ := .object [("w", .object [("dtype", .text "F32"), ("shape", .array [.natural 2] true),
    ("data_offsets", .array [.natural 0, .natural 8] true)] true)] true
  ended _ := true

def opened : OpenedFile where
  isFile := true
  bytes := Parsing.leBytes 8 header.length ++ (header ++ [0, 0, 128, 63, 0, 0, 0, 64])
  fits := by decide +kernel

def descriptor : SourceDescriptor where
  logicalPath := biasPath
  expectedSize := none
  digestPolicy := .computeOnDemand
  kind := .local
  ggufExtension := false
  opened := .ok opened

/-- The SHA-256 of the file. -/
def digest : ContentDigest :=
  ⟨[236, 124, 21, 141, 102, 71, 213, 12, 116, 149, 243, 57, 114, 242, 171, 98, 46, 40, 61, 52, 17,
    60, 162, 147, 166, 25, 147, 168, 44, 193, 100, 211], rfl⟩

/-- The SHA-256 of the identity payload of the plan. -/
def planId : ContentDigest :=
  ⟨[251, 47, 241, 94, 52, 39, 196, 53, 176, 148, 144, 231, 38, 39, 240, 167, 70, 107, 156, 52, 174,
    166, 134, 215, 15, 64, 226, 49, 125, 220, 240, 5], rfl⟩

def source : SourceTensor := ⟨⟨"w"⟩, [2], .plain .f32 ⟨0, 62, 8⟩⟩

def builder : Plan.PlanBuilder :=
  ⟨⟨Plan.Sample.digest 1, Plan.Sample.digest 2, Plan.Sample.digest 3, Plan.Sample.digest 4,
    [digest]⟩, [source], [Plan.Sample.target "w" .required], .allow⟩

def payloadText : String :=
  "\x7b\"schema_version\":2,\"inputs\":\x7b\"manifest\":" ++ Plan.Sample.digestText "01" ++
    ",\"selection\":" ++ Plan.Sample.digestText "02" ++ ",\"contract\":" ++
    Plan.Sample.digestText "03" ++ ",\"backend\":" ++ Plan.Sample.digestText "04" ++
    ",\"source_digests\":[\"ec7c158d6647d50c7495f33972f2ab622e283d34113ca293a61993a82cc164d3\"]" ++
    "\x7d,\"sources\":[" ++ Plan.Sample.sourceText "w" "62" ++ "],\"targets\":[" ++
    Plan.Sample.targetText "w" "Required" ++ "],\"extra_source_policy\":\"Allow\",\"bindings\":[" ++
    "\x7b\"sources\":[" ++ Plan.Sample.sourceText "w" "62" ++ "],\"target\":" ++
    Plan.Sample.targetText "w" "Required" ++ "\x7d],\"missing_optional\":[]," ++
    "\"unused_sources\":[]\x7d"

def planner : Planner where
  sort := insertionKeySort
  sha256 _ := planId
  payloadJson _ := Parsing.utf8 payloadText

def plan : BindingPlan where
  schemaVersion := 2
  inputs := builder.inputs
  sources := [source]
  targets := [Plan.Sample.target "w" .required]
  extraSourcePolicy := .allow
  bindings := [⟨[source], Plan.Sample.target "w" .required⟩]
  missingOptional := []
  unusedSources := []
  id := planId

theorem plan_built : Plan.Built planner plan := by
  refine ⟨builder, fun s hs => ?_, fun t ht => ?_, by decide +kernel⟩
  · rw [List.mem_singleton.mp hs]
    have hspan : SourceSpan.valid ⟨0, 62, 8⟩ = true := by decide +kernel
    exact ⟨by decide +kernel, hspan, by decide +kernel⟩
  · refine Plan.Sample.target_made t ?_
    rw [List.mem_singleton.mp ht]
    exact List.mem_cons_self ..

end Floats

theorem validatePlan_iff_floats :
    ∃ inner, openWithCancellation (Safetensors.parseHeaderJson Floats.reader 16)
        ⟨⟨128, 4, 4, 16⟩, 1⟩ ⟨false⟩ none .auto [Floats.descriptor] = .ok inner ∧
      validatePlan inner.inventory (.ok [Floats.digest]) Floats.plan ⟨false⟩ = .ok () ∧
      Readable [Floats.descriptor] (inner.checkpoint fun _ => byteAnswers Floats.opened.bytes)
        ⟨0, 62, 8⟩ := by
  have htensors : ((openWithCancellation (Safetensors.parseHeaderJson Floats.reader 16)
      ⟨⟨128, 4, 4, 16⟩, 1⟩ ⟨false⟩ none .auto [Floats.descriptor]).toOption.map fun inner =>
        inner.inventory.tensors) = some (Floats.plan.sources.map sourceRecord) := by
    decide +kernel
  cases hopen : openWithCancellation (Safetensors.parseHeaderJson Floats.reader 16)
      ⟨⟨128, 4, 4, 16⟩, 1⟩ ⟨false⟩ none .auto [Floats.descriptor] with
  | error e => rw [hopen] at htensors; cases htensors
  | ok inner =>
    rw [hopen] at htensors
    have hbacked : inner.Backed fun _ => byteAnswers Floats.opened.bytes := by
      intro file hfile
      rw [files_of_one hopen rfl] at hfile
      obtain rfl := List.mem_singleton.mp hfile
      exact byteAnswers_serves _
    obtain ⟨hvalid, hreads⟩ := @validatePlan_iff _ _ ⟨false⟩ _ _ _ _ _ _ _ _ rfl Floats.plan_built
      hopen hbacked (.ok [Floats.digest])
    have hok := hvalid.mpr ⟨rfl, (Option.some.inj htensors).symm⟩
    exact ⟨inner, rfl, hok, hreads hok _ (List.mem_singleton_self _) Floats.source
      (List.mem_singleton_self _) _ (List.mem_singleton_self _)⟩

end ModelWeights.Prepared
