import ModelWeights.Prepared.Address

/-! # Addresses separate

Equal bytes behind two keys come from equal sources, files, targets, backends and
overlays. -/
namespace ModelWeights.Prepared
open ModelWeights.Graph Plan Cache Canonical Parsing

/-! ## The tag behind the contract -/

/-- Text without raw control bytes. -/
def Printable (text : List UInt8) : Prop := ∀ byte ∈ text, 32 ≤ byte

instance (text : List UInt8) : Decidable (Printable text) :=
  inferInstanceAs (Decidable (∀ byte ∈ text, 32 ≤ byte))

/-- Printable text ends where the first control byte stands. -/
theorem Printable.append_inj : ∀ {s s' : List UInt8} {c c' : UInt8} {t t' : List UInt8},
    Printable s → Printable s' → c < 32 → c' < 32 → s ++ c :: t = s' ++ c' :: t' →
    s = s' ∧ c = c' ∧ t = t'
  | [], [], _, _, _, _, _, _, _, _, h => ⟨rfl, List.cons.inj h⟩
  | [], b :: s', c, _, _, _, _, hs', hc, _, h => by
    have hb := hs' b (List.mem_cons_self ..)
    rw [← (List.cons.inj h).1] at hb
    exact absurd hc (UInt8.not_lt.mpr hb)
  | a :: s, [], _, c', _, _, hs, _, _, hc', h => by
    have ha := hs a (List.mem_cons_self ..)
    rw [(List.cons.inj h).1] at ha
    exact absurd hc' (UInt8.not_lt.mpr ha)
  | a :: s, b :: s', _, _, _, _, hs, hs', hc, hc', h => by
    obtain ⟨rfl, htail⟩ := List.cons.inj h
    obtain ⟨rfl, hrest⟩ := append_inj (fun x hx => hs x (List.mem_cons_of_mem _ hx))
      (fun x hx => hs' x (List.mem_cons_of_mem _ hx)) hc hc' htail
    exact ⟨rfl, hrest⟩

theorem contractBytes_injective {json json' : List UInt8} {d d' : Option ContentDigest}
    (hj : Printable json) (hj' : Printable json')
    (h : contractBytes json d = contractBytes json' d') : json = json' ∧ d = d' := by
  cases d with
  | none =>
    cases d' with
    | none => exact ⟨(hj.append_inj hj' (by decide) (by decide) h).1, rfl⟩
    | some e' => exact absurd (hj.append_inj hj' (by decide) (by decide) h).2.1 (by decide)
  | some e =>
    cases d' with
    | none => exact absurd (hj.append_inj hj' (by decide) (by decide) h).2.1 (by decide)
    | some e' =>
      obtain ⟨rfl, _, he⟩ := hj.append_inj hj' (by decide) (by decide) h
      exact ⟨rfl, congrArg some (bytes_injective he)⟩

/-! ## Two addresses -/

/-- What is assumed of JSON and SHA-256 on the values that two requests hash: the
texts tell the values apart, are printable and fit in memory, and the inner
digests tell the texts apart. -/
structure Trusted (a : Addressing) (r r' : Request) (sources sources' : List OrderedSourceIdentity) :
    Prop where
  sourcesJson : Set.InjOn a.sourcesJson {sources, sources'}
  targetJson : Set.InjOn a.targetJson
    {targetDocument r.binding.target, targetDocument r'.binding.target}
  sourceDigest : Set.InjOn a.sha256 {sourcePreimage a sources, sourcePreimage a sources'}
  contractDigest : Set.InjOn a.sha256 {contractPreimage a r.binding.target r.overlayDigest,
    contractPreimage a r'.binding.target r'.overlayDigest}
  printable : ∀ x ∈ [r, r'], Printable (a.targetJson (targetDocument x.binding.target))
  inMemory : ∀ x ∈ [r, r'], InMemory (utf8 x.binding.target.name.text) ∧
    InMemory (contractBytes (a.targetJson (targetDocument x.binding.target)) x.overlayDigest)
  sourcesInMemory : ∀ x ∈ [sources, sources'], InMemory (a.sourcesJson x)

section Separation
variable {a : Addressing} {r r' : Request} {cancellation : CancellationToken}

/-- What an address is made of. -/
theorem addressParts_ok {c : CacheCompatibility} {ids : List (List UInt8)}
    (h : addressParts a r cancellation = .ok (some (c, ids))) :
    ∃ sources, orderedSources r.plan r.binding = .ok sources ∧
      c = .prepared preparedCacheFormatVersion
        (a.sha256 (contractPreimage a r.binding.target r.overlayDigest)) r.plan.inputs.backend ∧
      ids = [(a.sha256 (sourcePreimage a sources)).bytes, utf8 r.binding.target.name.text] := by
  obtain ⟨_, _, h⟩ := bind_ok h
  split at h
  · cases Except.ok.inj h
  · obtain ⟨content, hcontent, h⟩ := bind_ok h
    obtain ⟨_, _, hcontent⟩ := bind_ok hcontent
    obtain ⟨sources, hsources, hcontent⟩ := bind_ok hcontent
    obtain rfl := Except.ok.inj hcontent
    obtain ⟨rfl, rfl⟩ := Prod.mk.inj (Option.some.inj (Except.ok.inj h))
    exact ⟨sources, hsources, rfl, rfl⟩

theorem sourcePreimage_injective {s s' : List OrderedSourceIdentity}
    (hs : InMemory (a.sourcesJson s)) (hs' : InMemory (a.sourcesJson s'))
    (h : sourcePreimage a s = sourcePreimage a s') : a.sourcesJson s = a.sourcesJson s' := by
  have hdomain : InMemory (utf8 "ordered-binding-sources-v2") := by decide +kernel
  have hparts := (ContentDigest.preimage_injective (by simp [hdomain, hs]) (by simp [hdomain, hs'])
    h).2
  exact (List.cons.inj hparts).1

theorem contractPreimage_injective {t t' : TargetTensor} {d d' : Option ContentDigest}
    (ht : InMemory (contractBytes (a.targetJson (targetDocument t)) d))
    (ht' : InMemory (contractBytes (a.targetJson (targetDocument t')) d'))
    (h : contractPreimage a t d = contractPreimage a t' d') :
    contractBytes (a.targetJson (targetDocument t)) d =
      contractBytes (a.targetJson (targetDocument t')) d' := by
  have hdomain : InMemory (utf8 "prepared-binding-contract-v2") := by decide +kernel
  have hparts := (ContentDigest.preimage_injective (by simp [hdomain, ht]) (by simp [hdomain, ht'])
    h).2
  exact (List.cons.inj hparts).1

theorem sources_of_identities {inputs : PlanInputs} : ∀ {l : List SourceTensor}
    {identities : List OrderedSourceIdentity}, l.mapM (sourceIdentity inputs) = .ok identities →
    identities.map OrderedSourceIdentity.source = l
  | [], identities, h => by
    obtain rfl := Except.ok.inj h
    rfl
  | s :: l, identities, h => by
    rw [List.mapM_cons] at h
    obtain ⟨x, hx, h⟩ := bind_ok h
    obtain ⟨rest, hrest, h⟩ := bind_ok h
    obtain ⟨digests, _, hx⟩ := bind_ok hx
    obtain rfl := Except.ok.inj hx
    obtain rfl := Except.ok.inj h
    rw [List.map_cons, sources_of_identities hrest]

/-- The identities of a binding list its sources. -/
theorem orderedSources_sources {plan : BindingPlan} {binding : Binding}
    {identities : List OrderedSourceIdentity} (h : orderedSources plan binding = .ok identities) :
    identities.map OrderedSourceIdentity.source = binding.sources :=
  sources_of_identities (unless_error_ok h).2

/-- Requests with equal bytes behind their keys. -/
theorem parts_separate {cancellation' : CancellationToken}
    {sources sources' : List OrderedSourceIdentity} {c c' : CacheCompatibility}
    {ids ids' : List (List UInt8)} (hs : orderedSources r.plan r.binding = .ok sources)
    (hs' : orderedSources r'.plan r'.binding = .ok sources')
    (hparts : addressParts a r cancellation = .ok (some (c, ids)))
    (hparts' : addressParts a r' cancellation' = .ok (some (c', ids')))
    (ht : Trusted a r r' sources sources')
    (hkey : keyPreimage .prepared c ids = keyPreimage .prepared c' ids') :
    sources = sources' ∧ r.binding.target = r'.binding.target ∧
      r.plan.inputs.backend = r'.plan.inputs.backend ∧ r.overlayDigest = r'.overlayDigest := by
  obtain ⟨s, hs₁, rfl, rfl⟩ := addressParts_ok hparts
  obtain ⟨s', hs₁', rfl, rfl⟩ := addressParts_ok hparts'
  obtain rfl : sources = s := Except.ok.inj (hs.symm.trans hs₁)
  obtain rfl : sources' = s' := Except.ok.inj (hs'.symm.trans hs₁')
  obtain ⟨hname, hcontract⟩ := ht.inMemory r (by simp)
  obtain ⟨hname', hcontract'⟩ := ht.inMemory r' (by simp)
  obtain ⟨_, hcompat, hids⟩ := keyPreimage_injective (by simp [hname, inMemory_digest])
    (by simp [hname', inMemory_digest]) hkey
  obtain ⟨_, htransform, hbackend⟩ := CacheCompatibility.mk.inj hcompat
  have hsources : sources = sources' := by
    have hdigest := ht.sourceDigest (Or.inl rfl) (Or.inr rfl)
      (bytes_injective (List.cons.inj hids).1)
    refine ht.sourcesJson (Or.inl rfl) (Or.inr rfl) ?_
    exact sourcePreimage_injective (ht.sourcesInMemory _ (by simp)) (ht.sourcesInMemory _ (by simp))
      hdigest
  have hbytes := contractPreimage_injective hcontract hcontract'
    (ht.contractDigest (Or.inl rfl) (Or.inr rfl) htransform)
  obtain ⟨hjson, hoverlay⟩ := contractBytes_injective (ht.printable r (by simp))
    (ht.printable r' (by simp)) hbytes
  have htarget := targetDocument_injective (ht.targetJson (Or.inl rfl) (Or.inr rfl) hjson)
  exact ⟨hsources, htarget, Option.some.inj hbackend, hoverlay⟩

/-- **The prepared-cache address separates everything that matters.** Equal bytes
behind two keys come from equal sources with equal files, equal targets, equal
backends and equal overlays; and neither the framing of keys and digests nor the
tag behind the contract can be split in two ways. -/
theorem address_separates :
    (∀ (ns ns' : CacheNamespace) (c c' : CacheCompatibility) (ids ids' : List (List UInt8)),
      (∀ part ∈ ids, InMemory part) → (∀ part ∈ ids', InMemory part) →
      keyPreimage ns c ids = keyPreimage ns' c' ids' → ns = ns' ∧ c = c' ∧ ids = ids') ∧
    (∀ (domain domain' : String) (parts parts' : List (List UInt8)),
      (∀ part ∈ utf8 domain :: parts, InMemory part) →
      (∀ part ∈ utf8 domain' :: parts', InMemory part) →
      ContentDigest.preimage domain parts = ContentDigest.preimage domain' parts' →
      utf8 domain = utf8 domain' ∧ parts = parts') ∧
    (∀ (json json' : List UInt8) (d d' : Option ContentDigest), Printable json → Printable json' →
      contractBytes json d = contractBytes json' d' → json = json' ∧ d = d') ∧
    ∀ (a : Addressing) (r r' : Request) (cancellation : CancellationToken)
      (sources sources' : List OrderedSourceIdentity) (c c' : CacheCompatibility)
      (ids ids' : List (List UInt8)),
      orderedSources r.plan r.binding = .ok sources →
      orderedSources r'.plan r'.binding = .ok sources' →
      addressParts a r cancellation = .ok (some (c, ids)) →
      addressParts a r' cancellation = .ok (some (c', ids')) →
      Trusted a r r' sources sources' →
      keyPreimage .prepared c ids = keyPreimage .prepared c' ids' →
      r.binding.sources = r'.binding.sources ∧
        sources.map OrderedSourceIdentity.digests = sources'.map OrderedSourceIdentity.digests ∧
        r.binding.target = r'.binding.target ∧
        r.plan.inputs.backend = r'.plan.inputs.backend ∧ r.overlayDigest = r'.overlayDigest := by
  refine ⟨fun ns ns' c c' ids ids' h h' he => keyPreimage_injective h h' he,
    fun domain domain' parts parts' h h' he => ContentDigest.preimage_injective h h' he,
    fun json json' d d' h h' he => contractBytes_injective h h' he, ?_⟩
  intro a r r' cancellation sources sources' c c' ids ids' hs hs' hparts hparts' ht hkey
  obtain ⟨rfl, htarget, hbackend, hoverlay⟩ := parts_separate hs hs' hparts hparts' ht hkey
  refine ⟨?_, rfl, htarget, hbackend, hoverlay⟩
  rw [← orderedSources_sources hs, ← orderedSources_sources hs']

end Separation

/-! ## A cast of one tensor -/

namespace Cast

def f32 : Representation := .contiguous .f32

def f16 : Representation := .contiguous .f16

def implementation : ImplementationId := ⟨⟨"model-weights"⟩, ⟨"contiguous-cast"⟩, 1⟩

def source (name : String) (file offset : Nat) : SourceTensor :=
  ⟨⟨name⟩, [2], .plain .f32 ⟨file, offset, 8⟩⟩

def target : TargetTensor where
  name := ⟨"w"⟩
  aliases := []
  requirement := .required
  sourceShape := [2]
  shape := [2]
  storageShape := [2]
  logicalStrides := [1]
  storageStrides := [1]
  representation := f16
  transforms := [⟨⟨implementation, f32, f16⟩, 4, 0⟩]
  operationGraph := none
  quantizedRoute := none
  conversionRecipe := none
  outputSize := 4
  sharedSourceGroup := none

def binding (file : Nat) : Binding := ⟨[source "w" file 0], target⟩

def inputs (sourceDigests : List ContentDigest) : PlanInputs :=
  { Sample.inputs with sourceDigests := sourceDigests }

/-- A checkpoint of one shard with the one tensor `w`. -/
def plan : BindingPlan where
  schemaVersion := 2
  inputs := inputs [Plan.Sample.digest 5]
  sources := [source "w" 0 0]
  targets := [target]
  extraSourcePolicy := .allow
  bindings := [binding 0]
  missingOptional := []
  unusedSources := []
  id := ⟨[30, 26, 190, 17, 210, 234, 214, 10, 229, 186, 84, 65, 234, 149, 65, 56, 2, 192, 85, 183,
    23, 108, 120, 73, 199, 25, 21, 149, 204, 78, 53, 50], rfl⟩

/-- The shard has one more tensor, which no target selects. -/
def widerPlan : BindingPlan :=
  { plan with
    sources := [source "w" 0 0, source "x" 0 8]
    unusedSources := [⟨"x"⟩]
    id := ⟨[67, 34, 225, 245, 143, 12, 62, 124, 42, 77, 222, 137, 254, 174, 15, 65, 36, 247, 238, 81,
      175, 0, 78, 191, 241, 177, 166, 214, 190, 100, 154, 82], rfl⟩ }

def identity (file : Nat) : List OrderedSourceIdentity :=
  [⟨source "w" file 0, [(file, Plan.Sample.digest 5)]⟩]

def identityText (file : String) : String :=
  "[\x7b\"source\":\x7b\"name\":\"w\",\"shape\":[2],\"storage\":\x7b\"Plain\":\x7b\"dtype\":" ++
    "\"F32\",\"span\":\x7b\"file\":" ++ file ++ ",\"offset\":0,\"length\":8\x7d\x7d\x7d\x7d," ++
    "\"digests\":[[" ++ file ++ "," ++ Plan.Sample.digestText "05" ++ "]]\x7d]"

def representationText (dtype : String) : String :=
  "\x7b\"dtype\":\"" ++ dtype ++ "\",\"layout\":\x7b\"kind\":\"contiguous\"\x7d\x7d"

def targetText : String :=
  "\x7b\"name\":\"w\",\"aliases\":[],\"requirement\":\"Required\",\"source_shape\":[2]," ++
    "\"shape\":[2],\"storage_shape\":[2],\"logical_strides\":[1],\"storage_strides\":[1]," ++
    "\"representation\":" ++ representationText "F16" ++ ",\"transforms\":[\x7b\"transform\":" ++
    "\x7b\"implementation\":\x7b\"provider\":\"model-weights\",\"operation\":" ++
    "\"contiguous-cast\",\"version\":1\x7d,\"source\":" ++ representationText "F32" ++
    ",\"target\":" ++ representationText "F16" ++ "\x7d,\"output_size\":4,\"scratch_bytes\":0" ++
    "\x7d],\"operation_graph\":null,\"quantized_route\":null,\"conversion_recipe\":null," ++
    "\"output_size\":4,\"shared_source_group\":null\x7d"

/-- The SHA-256 of the source identity with `w` in the first or in the second file. -/
def content (file : Nat) : ContentDigest :=
  if file = 0 then
    ⟨[89, 164, 64, 62, 209, 94, 47, 15, 13, 14, 150, 229, 251, 223, 144, 153, 25, 214, 58, 46, 199,
      224, 246, 28, 71, 51, 29, 19, 29, 38, 195, 199], rfl⟩
  else
    ⟨[239, 142, 51, 153, 53, 5, 210, 79, 174, 180, 82, 222, 162, 144, 62, 70, 140, 163, 27, 133, 77,
      17, 232, 126, 162, 0, 104, 151, 50, 128, 254, 131], rfl⟩

/-- The SHA-256 of the contract. -/
def transform : ContentDigest :=
  ⟨[211, 4, 140, 93, 118, 57, 145, 160, 185, 219, 210, 101, 0, 235, 131, 106, 188, 136, 191, 198,
    178, 105, 248, 173, 55, 248, 96, 199, 160, 208, 120, 51], rfl⟩

def compatibility : CacheCompatibility := .prepared 2 transform (Plan.Sample.digest 4)

def identities (file : Nat) : List (List UInt8) := [(content file).bytes, utf8 "w"]

/-- The SHA-256 of the bytes behind the key. -/
def key (file : Nat) : CacheKey :=
  if file = 0 then
    ⟨[24, 214, 19, 92, 116, 180, 9, 235, 40, 198, 110, 93, 200, 241, 208, 187, 51, 70, 146, 137, 248,
      123, 77, 9, 163, 179, 50, 137, 251, 82, 161, 51], rfl⟩
  else
    ⟨[139, 183, 234, 31, 212, 247, 90, 109, 99, 97, 177, 53, 247, 93, 126, 105, 149, 126, 146, 133,
      244, 206, 109, 216, 1, 104, 156, 15, 93, 59, 126, 85], rfl⟩

/-- JSON and SHA-256 on the values that the two bindings hash. -/
def addressing : Addressing where
  sourcesJson sources := utf8 (if sources = identity 0 then identityText "0" else identityText "1")
  targetJson _ := utf8 targetText
  sha256 bytes :=
    if bytes = ContentDigest.preimage "ordered-binding-sources-v2" [utf8 (identityText "0")] then
      content 0
    else if bytes = ContentDigest.preimage "ordered-binding-sources-v2" [utf8 (identityText "1")] then
      content 1
    else if bytes = keyPreimage .prepared compatibility (identities 0) then key 0
    else if bytes = keyPreimage .prepared compatibility (identities 1) then key 1
    else transform

def request : Request := ⟨plan, binding 0, none⟩

def widerRequest : Request := ⟨widerPlan, binding 0, none⟩

theorem injOn_pair {α β : Type} (f : α → β) (x : α) : Set.InjOn f {x, x} := by
  rintro _ (rfl | rfl) _ (rfl | rfl) _ <;> rfl

theorem trusted (p p' : BindingPlan) : Trusted addressing ⟨p, binding 0, none⟩
    ⟨p', binding 0, none⟩ (identity 0) (identity 0) where
  sourcesJson := injOn_pair _ _
  targetJson := injOn_pair _ _
  sourceDigest := injOn_pair _ _
  contractDigest := injOn_pair _ _
  printable := by
    have h : Printable (utf8 targetText) := by decide +kernel
    intro x _
    exact h
  inMemory := by
    intro x hx
    have h : InMemory (utf8 "w") ∧ InMemory (contractBytes (utf8 targetText) none) := by
      decide +kernel
    rcases List.mem_pair.mp hx with rfl | rfl
    · exact h
    · exact h
  sourcesInMemory := by
    have h : InMemory (addressing.sourcesJson (identity 0)) := by decide +kernel
    intro x hx
    rcases List.mem_pair.mp hx with rfl | rfl
    · exact h
    · exact h

end Cast

theorem address_separates_cast :
    addressParts Cast.addressing Cast.request ⟨false⟩ =
      .ok (some (Cast.compatibility, Cast.identities 0)) ∧
    addressParts Cast.addressing Cast.widerRequest ⟨false⟩ =
      .ok (some (Cast.compatibility, Cast.identities 0)) ∧
    Cast.request.binding.target = Cast.widerRequest.binding.target := by
  have h : addressParts Cast.addressing Cast.request ⟨false⟩ =
      .ok (some (Cast.compatibility, Cast.identities 0)) := by decide +kernel
  have h' : addressParts Cast.addressing Cast.widerRequest ⟨false⟩ =
      .ok (some (Cast.compatibility, Cast.identities 0)) := by decide +kernel
  have hs : orderedSources Cast.plan (Cast.binding 0) = .ok (Cast.identity 0) := by decide +kernel
  have hs' : orderedSources Cast.widerPlan (Cast.binding 0) = .ok (Cast.identity 0) := by
    decide +kernel
  exact ⟨h, h', (address_separates.2.2.2 _ _ _ _ _ _ _ _ _ _ hs hs' h h' (Cast.trusted _ _) rfl).2.2.1⟩

end ModelWeights.Prepared
