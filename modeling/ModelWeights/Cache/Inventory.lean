import ModelWeights.Cache.Writing

/-! # Inspection and recovery of a settled cache

Between calls every directory is a complete entry under its final name. Inspection
lists them, and recovery finds nothing to do. -/
namespace ModelWeights.Cache
open Program

variable {c : CacheService} {fs : Files} {ns : CacheNamespace} {key : CacheKey}

/-- What is stored under every namespace and key. -/
abbrev Contents := CacheNamespace → CacheKey → Option Content

/-- Every directory is a final one and holds a complete entry. -/
structure Settled (c : CacheService) (contents : Contents) (fs : Files) : Prop where
  valid : fs.Valid
  holds : ∀ ns key, HoldsAt c fs ns key (contents ns key)
  bare : ∀ ns key, Bare fs ns key

variable {contents : Contents}

/-- A call that changes the final path of one key. -/
theorem Settled.changes {t : Files} {e : Option Content} (h : Settled c contents fs)
    (hchanges : Changes [entryPath ns key] fs t) (hholds : HoldsAt c t ns key e) :
    Settled c (fun ns' key' => if ns' = ns ∧ key' = key then e else contents ns' key') t := by
  refine ⟨hchanges.valid, fun ns' key' => ?_, fun ns' key' name hkey hfinal => ?_⟩
  · by_cases hp : ns' = ns ∧ key' = key
    · obtain ⟨rfl, rfl⟩ := hp
      rwa [if_pos ⟨rfl, rfl⟩]
    · rw [if_neg hp]
      exact (h.holds ns' key').of_same (hchanges.same _ (by simpa [entryPath] using hp))
  · rw [hchanges.same]
    · exact h.bare ns' key' name hkey hfinal
    · intro hm
      obtain rfl := (Path.mk.inj (List.mem_singleton.mp hm)).2
      cases hfinal

theorem Settled.final (h : Settled c contents fs) {shard : UInt8} {name : Name}
    (hname : name ∈ fs.namesIn ns shard) : ∃ key, name = .final key ∧ shardOf key = shard := by
  obtain ⟨hshard, hsome⟩ := mem_namesIn.mp hname
  cases name with
  | final key => exact ⟨key, rfl, hshard⟩
  | lease key => rw [h.bare ns key _ rfl rfl] at hsome; cases hsome
  | reap key token => rw [h.bare ns key _ rfl rfl] at hsome; cases hsome
  | staging key token => rw [h.bare ns key _ rfl rfl] at hsome; cases hsome
  | previous key token => rw [h.bare ns key _ rfl rfl] at hsome; cases hsome
  | evicted key token => rw [h.bare ns key _ rfl rfl] at hsome; cases hsome

/-! ## Listings -/

/-- The shards of a namespace in order. -/
def Files.shardList (fs : Files) (ns : CacheNamespace) : List UInt8 :=
  ((fs.shards.filter fun s => s.1 = ns).map Prod.snd).insertionSort (· ≤ ·)

/-- The names of a shard in the order of their texts. -/
def Files.nameList (fs : Files) (ns : CacheNamespace) (shard : UInt8) : List Name :=
  (fs.namesIn ns shard).insertionSort fun a b => a.text ≤ b.text

theorem mem_shardList {shard : UInt8} : shard ∈ fs.shardList ns ↔ (ns, shard) ∈ fs.shards := by
  simp only [Files.shardList, List.mem_insertionSort, List.mem_map, List.mem_filter,
    decide_eq_true_eq]
  constructor
  · rintro ⟨⟨_, _⟩, ⟨hm, rfl⟩, rfl⟩
    exact hm
  · exact fun hm => ⟨(ns, shard), ⟨hm, rfl⟩, rfl⟩

theorem mem_nameList {shard : UInt8} {name : Name} :
    name ∈ fs.nameList ns shard ↔ shardOf name.key = shard ∧ (fs.at? ⟨ns, name⟩).isSome := by
  rw [Files.nameList, List.mem_insertionSort, mem_namesIn]

theorem nodup_shardList (h : fs.Valid) : (fs.shardList ns).Nodup := by
  refine (List.perm_insertionSort (· ≤ ·) _).nodup_iff.mpr ?_
  refine (List.nodup_map_iff_inj_on (h.nodup.filter _)).mpr fun a ha b hb hab => ?_
  have hns : a.1 = b.1 := (of_decide_eq_true (List.mem_filter.mp ha).2).trans
    (of_decide_eq_true (List.mem_filter.mp hb).2).symm
  exact Prod.ext hns hab

theorem nodup_nameList {shard : UInt8} : (fs.nameList ns shard).Nodup := by
  refine (List.perm_insertionSort _ _).nodup_iff.mpr ?_
  have hentries : fs.names.entries.Nodup := List.Nodup.of_map Prod.fst fs.names.nodup_keys
  refine (List.nodup_map_iff_inj_on (hentries.filter _)).mpr fun a ha b hb hab => ?_
  obtain ⟨ha, hna⟩ := List.mem_filter.mp ha
  obtain ⟨hb, hnb⟩ := List.mem_filter.mp hb
  have hns : a.1.ns = b.1.ns := (of_decide_eq_true hna).1.trans (of_decide_eq_true hnb).1.symm
  have hpath : a.1 = b.1 := by
    obtain ⟨⟨_, _⟩, _⟩ := a
    obtain ⟨⟨_, _⟩, _⟩ := b
    obtain rfl := hns
    obtain rfl := hab
    rfl
  exact List.inj_on_of_nodup_map fs.names.nodup_keys ha hb hpath

theorem reads_readShardList : Reads (readShardList ns) fs (.ok (fs.shardList ns)) := by
  unfold Reads readShardList
  refine reads_checkCancelled.bind (meets_step.mpr fun env _ => ?_)
  exact reads_visitEntries.bind ⟨rfl, rfl⟩

theorem reads_readNames {shard : UInt8} (h : (ns, shard) ∈ fs.shards) :
    Reads (readNames ns shard) fs (.ok (fs.nameList ns shard)) := by
  unfold Reads readNames
  refine reads_checkCancelled.bind (meets_step.mpr fun env _ => ?_)
  rw [show FileOp.effect env fs (.readShard ns shard) = (.ok (fs.namesIn ns shard), fs) from
    if_pos h]
  exact reads_visitEntries.bind ⟨rfl, rfl⟩

/-! ## Candidates -/

/-- The candidates at the given places are those of the contents. -/
structure Scanned (c : CacheService) (contents : Contents)
    (places : List (CacheNamespace × CacheKey)) (candidates : List CacheCandidate) : Prop where
  places : candidates.map (fun k => (k.ns, k.key)) = places
  envelope : ∀ k ∈ candidates, ∃ x, contents k.ns k.key = some x ∧
    k.envelope = some (x.envelope c k.ns k.key)

theorem Scanned.append {places places' : List (CacheNamespace × CacheKey)}
    {candidates candidates' : List CacheCandidate} (h : Scanned c contents places candidates)
    (h' : Scanned c contents places' candidates') :
    Scanned c contents (places ++ places') (candidates ++ candidates') := by
  refine ⟨by rw [List.map_append, h.places, h'.places], fun k hk => ?_⟩
  rcases List.mem_append.mp hk with hk | hk
  · exact h.envelope k hk
  · exact h'.envelope k hk

/-- Candidates with the modification times of their directories. -/
structure Listed (c : CacheService) (contents : Contents) (fs : Files)
    (places : List (CacheNamespace × CacheKey)) (candidates : List CacheCandidate) : Prop
    extends Scanned c contents places candidates where
  modified : ∀ k ∈ candidates, ∃ d, fs.at? (entryPath k.ns k.key) = some d ∧
    k.modified = d.modified

theorem Listed.append {places places' : List (CacheNamespace × CacheKey)}
    {candidates candidates' : List CacheCandidate} (h : Listed c contents fs places candidates)
    (h' : Listed c contents fs places' candidates') :
    Listed c contents fs (places ++ places') (candidates ++ candidates') := by
  refine ⟨h.toScanned.append h'.toScanned, fun k hk => ?_⟩
  rcases List.mem_append.mp hk with hk | hk
  · exact h.modified k hk
  · exact h'.modified k hk

theorem listed_nil : Listed c contents fs [] [] :=
  ⟨⟨rfl, fun _ hk => absurd hk List.not_mem_nil⟩, fun _ hk => absurd hk List.not_mem_nil⟩

theorem Settled.content (h : Settled c contents fs) (hsome : (fs.at? (entryPath ns key)).isSome) :
    ∃ x, contents ns key = some x := by
  have hholds := h.holds ns key
  cases hc : contents ns key with
  | some x => exact ⟨x, rfl⟩
  | none =>
    rw [hc] at hholds
    rw [show fs.at? (entryPath ns key) = none from hholds] at hsome
    cases hsome

theorem reads_nameCandidates (h : Settled c contents fs) : ∀ {names : List Name},
    (∀ name ∈ names, ∃ key, name = .final key ∧ (contents ns key).isSome) →
    ∃ candidates, Reads (nameCandidates ns names) fs (.ok candidates) ∧
      Listed c contents fs (names.map fun name => (ns, name.key)) candidates
  | [], _ => ⟨[], ⟨rfl, rfl⟩, listed_nil⟩
  | name :: rest, hnames => by
    obtain ⟨candidates, hreads, hscanned⟩ := @reads_nameCandidates h rest
      fun n hn => hnames n (List.mem_cons_of_mem _ hn)
    obtain ⟨key, rfl, hsome⟩ := hnames name (List.mem_cons_self ..)
    obtain ⟨x, hx⟩ := Option.isSome_iff_exists.mp hsome
    have hholds := h.holds ns key
    rw [hx] at hholds
    obtain ⟨d, hd, hcomplete⟩ := hholds
    refine ⟨⟨ns, key, d.modified, some (x.envelope c ns key)⟩ :: candidates, ?_, ⟨?_, ?_⟩, ?_⟩
    · unfold Reads nameCandidates
      refine Meets.attempt (P := fun modified t => modified = d.modified ∧ t = fs)
        (ensures_step.mpr fun env _ => ?_) ?_
      · rw [show FileOp.effect env fs (.modified (entryPath ns key)) = (.ok d.modified, fs) from
          ask_some hd rfl]
        exact ⟨_, rfl, rfl, rfl⟩
      · rintro _ t ⟨rfl, rfl⟩
        refine (reads_readEnvelope hd hcomplete).bind ?_
        exact hreads.bind ⟨rfl, rfl⟩
    · rw [List.map_cons, List.map_cons, hscanned.places]
      rfl
    · intro k hk
      rcases List.mem_cons.mp hk with rfl | hk
      · exact ⟨x, hx, rfl⟩
      · exact hscanned.envelope k hk
    · intro k hk
      rcases List.mem_cons.mp hk with rfl | hk
      · exact ⟨d, hd, rfl⟩
      · exact hscanned.modified k hk

/-- The places of the entries in some shards of a namespace, in the order of the scan. -/
def Files.places (fs : Files) (ns : CacheNamespace) (shards : List UInt8) :
    List (CacheNamespace × CacheKey) :=
  shards.flatMap fun shard => (fs.nameList ns shard).map fun name => (ns, name.key)

theorem reads_shardCandidates (h : Settled c contents fs) : ∀ {shards : List UInt8},
    (∀ shard ∈ shards, (ns, shard) ∈ fs.shards) →
    ∃ candidates, Reads (shardCandidates ns shards) fs (.ok candidates) ∧
      Listed c contents fs (fs.places ns shards) candidates
  | [], _ => ⟨[], ⟨rfl, rfl⟩, listed_nil⟩
  | shard :: rest, hshards => by
    obtain ⟨more, hmore, hrest⟩ := @reads_shardCandidates h rest
      fun s hs => hshards s (List.mem_cons_of_mem _ hs)
    obtain ⟨candidates, hreads, hscanned⟩ := @reads_nameCandidates c fs ns contents h
      (fs.nameList ns shard) fun name hname => by
        obtain ⟨hkey, hsome⟩ := mem_nameList.mp hname
        obtain ⟨key, rfl, _⟩ := h.final (mem_namesIn.mpr ⟨hkey, hsome⟩)
        exact ⟨key, rfl, Option.isSome_iff_exists.mpr (h.content hsome)⟩
    refine ⟨candidates ++ more, ?_, hscanned.append hrest⟩
    unfold Reads shardCandidates
    refine (reads_readNames (hshards shard (List.mem_cons_self ..))).bind ?_
    exact hreads.bind (hmore.bind ⟨rfl, rfl⟩)

theorem reads_scanCandidates (h : Settled c contents fs) : ∀ {namespaces : List CacheNamespace},
    ∃ candidates, Reads (scanCandidates namespaces) fs (.ok candidates) ∧
      Listed c contents fs (namespaces.flatMap fun ns => fs.places ns (fs.shardList ns)) candidates
  | [] => ⟨[], ⟨rfl, rfl⟩, listed_nil⟩
  | ns :: rest => by
    obtain ⟨more, hmore, hrest⟩ := @reads_scanCandidates h rest
    obtain ⟨candidates, hreads, hscanned⟩ := @reads_shardCandidates c fs ns contents h
      (fs.shardList ns) fun shard hshard => mem_shardList.mp hshard
    refine ⟨candidates ++ more, ?_, hscanned.append hrest⟩
    unfold Reads scanCandidates
    refine reads_checkCancelled.bind (reads_readShardList.bind ?_)
    exact hreads.bind (hmore.bind ⟨rfl, rfl⟩)

/-! ## Inspection -/

/-- The info of a candidate with an envelope. -/
def CacheCandidate.info (candidate : CacheCandidate) : Option CacheEntryInfo :=
  candidate.envelope.map fun envelope =>
    infoFromEnvelope envelope (entryPath candidate.ns candidate.key)

theorem reads_inspectCandidates (h : Settled c contents fs) : ∀ {candidates : List CacheCandidate},
    (∀ k ∈ candidates, ∃ x, contents k.ns k.key = some x ∧
      k.envelope = some (x.envelope c k.ns k.key)) →
    Reads (inspectCandidates candidates) fs (.ok (candidates.filterMap CacheCandidate.info, 0))
  | [], _ => ⟨rfl, rfl⟩
  | k :: rest, hk => by
    obtain ⟨x, hx, henvelope⟩ := hk k (List.mem_cons_self ..)
    have hrest := reads_inspectCandidates h fun k' hk' => hk k' (List.mem_cons_of_mem _ hk')
    have hholds := h.holds k.ns k.key
    rw [hx] at hholds
    obtain ⟨d, hd, hcomplete⟩ := hholds
    unfold Reads inspectCandidates
    refine reads_checkCancelled.bind ?_
    have hinfo : k.info = some (infoFromEnvelope (x.envelope c k.ns k.key)
        (entryPath k.ns k.key)) := by
      rw [CacheCandidate.info, henvelope]
      rfl
    rw [List.filterMap_cons_some hinfo]
    simp only [henvelope]
    have hmatch : ¬((x.envelope c k.ns k.key).envelopeVersion ≠ cacheEnvelopeVersion ∨
        (x.envelope c k.ns k.key).ns ≠ k.ns ∨ (x.envelope c k.ns k.key).key ≠ k.key) := by
      simp [Content.envelope, envelopeOf]
    rw [if_neg hmatch]
    refine meets_step.mpr fun env _ => ?_
    rw [show FileOp.effect env fs (.openPayload (entryPath k.ns k.key)) = (.ok x.payload, fs) from
      ask_some hd hcomplete.payload]
    have hlength : ¬x.payload.length ≠ (x.envelope c k.ns k.key).payloadLen := not_not.mpr rfl
    show Meets (if x.payload.length ≠ (x.envelope c k.ns k.key).payloadLen then _ else _) _ _
    rw [if_neg hlength]
    refine Reads.bind (a := some (infoFromEnvelope (x.envelope c k.ns k.key)
      (entryPath k.ns k.key))) ⟨rfl, rfl⟩ ?_
    exact hrest.bind ⟨rfl, rfl⟩

/-- The infos of all entries, in the order of the scan. -/
theorem Scanned.mem_infos {places : List (CacheNamespace × CacheKey)}
    {candidates : List CacheCandidate} (h : Scanned c contents places candidates)
    {info : CacheEntryInfo} : info ∈ candidates.filterMap CacheCandidate.info ↔
      ∃ ns key x, (ns, key) ∈ places ∧ contents ns key = some x ∧
        info = infoFromEnvelope (x.envelope c ns key) (entryPath ns key) := by
  rw [List.mem_filterMap, ← h.places]
  constructor
  · rintro ⟨k, hk, hinfo⟩
    obtain ⟨x, hx, henvelope⟩ := h.envelope k hk
    rw [CacheCandidate.info, henvelope, Option.map_some] at hinfo
    exact ⟨k.ns, k.key, x, List.mem_map.mpr ⟨k, hk, rfl⟩, hx, (Option.some.inj hinfo).symm⟩
  · rintro ⟨ns, key, x, hplace, hx, rfl⟩
    obtain ⟨k, hk, hp⟩ := List.mem_map.mp hplace
    obtain ⟨rfl, rfl⟩ := Prod.mk.inj hp
    obtain ⟨y, hy, henvelope⟩ := h.envelope k hk
    obtain rfl := Option.some.inj (hx.symm.trans hy)
    refine ⟨k, hk, ?_⟩
    rw [CacheCandidate.info, henvelope]
    rfl

theorem Scanned.places_infos {places : List (CacheNamespace × CacheKey)} :
    ∀ {candidates : List CacheCandidate}, Scanned c contents places candidates →
      (candidates.filterMap CacheCandidate.info).map (fun info => (info.ns, info.key)) = places
  | [], h => h.places
  | k :: rest, h => by
    obtain ⟨x, _, henvelope⟩ := h.envelope k (List.mem_cons_self ..)
    have hinfo : k.info = some (infoFromEnvelope (x.envelope c k.ns k.key)
        (entryPath k.ns k.key)) := by
      rw [CacheCandidate.info, henvelope]
      rfl
    have hrest := @Scanned.places_infos (rest.map fun k => (k.ns, k.key)) rest
      ⟨rfl, fun k' hk' => h.envelope k' (List.mem_cons_of_mem _ hk')⟩
    rw [List.filterMap_cons_some hinfo, List.map_cons, hrest, ← h.places]
    rfl

theorem Settled.nodup_places (h : Settled c contents fs) :
    (namespaces.flatMap fun ns => fs.places ns (fs.shardList ns)).Nodup := by
  have hmem : ∀ {ns shards p}, p ∈ fs.places ns shards → p.1 = ns := by
    intro ns shards p hp
    obtain ⟨shard, _, hp⟩ := List.mem_flatMap.mp hp
    obtain ⟨name, _, rfl⟩ := List.mem_map.mp hp
    rfl
  refine List.nodup_flatMap.mpr ⟨fun ns _ => ?_, ?_⟩
  · refine List.nodup_flatMap.mpr ⟨fun shard _ => ?_, ?_⟩
    · refine (List.nodup_map_iff_inj_on nodup_nameList).mpr fun a ha b hb hab => ?_
      obtain ⟨ka, rfl, _⟩ := h.final (mem_namesIn.mpr (mem_nameList.mp ha))
      obtain ⟨kb, rfl, _⟩ := h.final (mem_namesIn.mpr (mem_nameList.mp hb))
      exact congrArg Name.final (Prod.mk.inj hab).2
    · refine (nodup_shardList h.valid).imp fun {s s'} hne => ?_
      intro p hp hp'
      obtain ⟨name, hname, rfl⟩ := List.mem_map.mp hp
      obtain ⟨name', hname', he⟩ := List.mem_map.mp hp'
      have hkey : name'.key = name.key := (Prod.mk.inj he).2
      exact hne ((mem_nameList.mp hname).1.symm.trans
        ((congrArg shardOf hkey.symm).trans (mem_nameList.mp hname').1))
  · refine (show namespaces.Nodup by decide).imp fun {ns ns'} hne => ?_
    intro p hp hp'
    exact hne ((hmem hp).symm.trans (hmem hp'))

theorem Settled.mem_places (h : Settled c contents fs) {x : Content}
    (hx : contents ns key = some x) :
    (ns, key) ∈ namespaces.flatMap fun ns => fs.places ns (fs.shardList ns) := by
  have hholds := h.holds ns key
  rw [hx] at hholds
  obtain ⟨d, hd, _⟩ := hholds
  have hshard : (ns, shardOf key) ∈ fs.shards :=
    List.contains_iff_mem.mp (h.valid.shows.hasShard hd)
  refine List.mem_flatMap.mpr ⟨ns, by cases ns <;> simp [namespaces], ?_⟩
  refine List.mem_flatMap.mpr ⟨shardOf key, mem_shardList.mpr hshard, ?_⟩
  refine List.mem_map.mpr ⟨.final key, mem_nameList.mpr ⟨rfl, ?_⟩, rfl⟩
  exact Option.isSome_iff_exists.mpr ⟨d, hd⟩

theorem foldl_saturatingAdd (infos : List CacheEntryInfo) : ∀ n < u64Size,
    infos.foldl (fun n info => saturatingAdd n info.payloadLen) n =
      min (n + (infos.map CacheEntryInfo.payloadLen).sum) (u64Size - 1) := by
  induction infos with
  | nil =>
    intro n hn
    simp only [List.foldl_nil, List.map_nil, List.sum_nil]
    omega
  | cons info rest ih =>
    intro n hn
    have hsize : 0 < u64Size := by decide
    have hsat : saturatingAdd n info.payloadLen < u64Size := by
      unfold saturatingAdd
      omega
    rw [List.foldl_cons, ih _ hsat, List.map_cons, List.sum_cons]
    unfold saturatingAdd
    omega

/-- An inspection that lists the contents, in the order of namespaces and keys. -/
structure Lists (c : CacheService) (contents : Contents) (inspection : CacheInspection) : Prop where
  sorted : inspection.entries.Pairwise fun a b => a.place < b.place
  mem : ∀ info, info ∈ inspection.entries ↔ ∃ ns key x, contents ns key = some x ∧
    info = infoFromEnvelope (x.envelope c ns key) (entryPath ns key)
  invalid : inspection.invalidEntries = 0
  payload : inspection.payloadBytes =
    min (inspection.entries.map CacheEntryInfo.payloadLen).sum (u64Size - 1)

/-- Sorting by distinct keys. -/
theorem pairwise_lt_insertionSort {α κ : Type} [LinearOrder κ] {f : α → κ} {l : List α}
    (h : (l.map f).Nodup) :
    (l.insertionSort fun a b => f a ≤ f b).Pairwise fun a b => f a < f b := by
  have htotal : Std.Total fun a b : α => f a ≤ f b := ⟨fun a b => le_total (f a) (f b)⟩
  have htrans : IsTrans α fun a b => f a ≤ f b := ⟨fun a b c hab hbc => le_trans hab hbc⟩
  have hperm := List.perm_insertionSort (fun a b : α => f a ≤ f b) l
  have hne : (l.insertionSort fun a b => f a ≤ f b).Pairwise fun a b => f a ≠ f b :=
    List.pairwise_map.mp ((hperm.map _).nodup_iff.mpr h)
  refine ((List.pairwise_insertionSort _ l).and hne).imp fun {a b} hab => ?_
  exact lt_of_le_of_ne hab.1 hab.2

/-- **Inspection** lists exactly the contents. -/
theorem reads_inspect (h : Settled c contents fs) :
    ∃ inspection, Reads inspect fs (.ok inspection) ∧ Lists c contents inspection := by
  obtain ⟨candidates, hreads, hscanned⟩ := @reads_scanCandidates c fs contents h namespaces
  have hinspected := reads_inspectCandidates h hscanned.envelope
  have hplaces := hscanned.toScanned.places_infos
  have hmem : ∀ info, info ∈ candidates.filterMap CacheCandidate.info ↔ _ :=
    fun info => hscanned.toScanned.mem_infos
  generalize candidates.filterMap CacheCandidate.info = infos at hinspected hplaces hmem
  have hperm := List.perm_insertionSort (fun a b : CacheEntryInfo => a.place ≤ b.place) infos
  refine ⟨{
    entries := infos.insertionSort fun a b => a.place ≤ b.place
    invalidEntries := 0
    payloadBytes := infos.foldl (fun n info => saturatingAdd n info.payloadLen) 0
    totalBytes := (fs.names.entries.map fun e => (fs.dirs e.2).size).sum }, ?_,
    pairwise_lt_insertionSort ?_, fun info => ?_, rfl, ?_⟩
  · unfold Reads inspect
    refine reads_checkCancelled.bind (hreads.bind (hinspected.bind (reads_visitEntries.bind ?_)))
    refine Meets.attempt (P := fun n t =>
      n = (fs.names.entries.map fun e => (fs.dirs e.2).size).sum ∧ t = fs) (ensures_step.mpr fun env _ => ⟨_, rfl, rfl, rfl⟩) ?_
    rintro _ t ⟨rfl, rfl⟩
    exact ⟨rfl, rfl⟩
  · have hnodup := (hplaces ▸ h.nodup_places).map toLex.injective
    rwa [List.map_map] at hnodup
  · rw [hperm.mem_iff, hmem]
    constructor
    · rintro ⟨ns, key, x, _, hx, rfl⟩
      exact ⟨ns, key, x, hx, rfl⟩
    · rintro ⟨ns, key, x, hx, rfl⟩
      exact ⟨ns, key, x, h.mem_places hx, hx, rfl⟩
  · rw [foldl_saturatingAdd _ 0 (by decide), Nat.zero_add, (hperm.map _).sum_nat]

/-! ## Recovery -/

theorem reads_recoverNames {report : RecoveryReport} : ∀ {names : List Name},
    (∀ name ∈ names, name.isFinal = true) → Reads (recoverNames c ns names report) fs (.ok report)
  | [], _ => ⟨rfl, rfl⟩
  | name :: rest, hnames => by
    have hname : Reads (recoverName c ns name report) fs (.ok report) := by
      unfold Reads recoverName
      refine reads_checkCancelled.bind ?_
      rw [if_pos (hnames name (List.mem_cons_self ..))]
      exact ⟨rfl, rfl⟩
    unfold Reads recoverNames
    refine hname.bind ?_
    exact reads_recoverNames fun n hn => hnames n (List.mem_cons_of_mem _ hn)

theorem reads_recoverShards (h : Settled c contents fs) {report : RecoveryReport} :
    ∀ {shards : List UInt8}, (∀ shard ∈ shards, (ns, shard) ∈ fs.shards) →
      Reads (recoverShards c ns shards report) fs (.ok report)
  | [], _ => ⟨rfl, rfl⟩
  | shard :: rest, hshards => by
    have hnames : ∀ name ∈ fs.nameList ns shard, name.isFinal = true := fun name hname => by
      obtain ⟨key, rfl, _⟩ := h.final (mem_namesIn.mpr (mem_nameList.mp hname))
      rfl
    unfold Reads recoverShards
    refine (reads_readNames (hshards shard (List.mem_cons_self ..))).bind ?_
    refine (reads_recoverNames hnames).bind ?_
    exact reads_recoverShards h fun s hs => hshards s (List.mem_cons_of_mem _ hs)

theorem reads_recoverNamespaces (h : Settled c contents fs) {report : RecoveryReport} :
    ∀ {namespaces : List CacheNamespace},
      Reads (recoverNamespaces c namespaces report) fs (.ok report)
  | [] => ⟨rfl, rfl⟩
  | ns :: rest => by
    unfold Reads recoverNamespaces
    refine reads_checkCancelled.bind (reads_readShardList.bind ?_)
    refine (reads_recoverShards h fun shard hshard => mem_shardList.mp hshard).bind ?_
    exact reads_recoverNamespaces h

/-- **Recovery** of a settled cache does nothing. -/
theorem reads_recoverStale (h : Settled c contents fs) :
    Reads (recoverStale c) fs (.ok ⟨0, 0, 0⟩) := reads_recoverNamespaces h

end ModelWeights.Cache
