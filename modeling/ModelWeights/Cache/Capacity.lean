import ModelWeights.Cache.Refinement

/-! # Eviction to a capacity

`evict_to` counts down from one measure of the store. In a settled store the count is
the size of the entries that are left after every eviction. -/
namespace ModelWeights.Cache
open Program

/-! ## Shortest prefixes -/

section Prefix
variable {α : Type} {size : α → Nat} {capacity total : Nat} {items evicted : List α} {a : α}

/-- The shortest prefix after whose removal at most `capacity` is left of `total`, or all
items if there is none. -/
structure ShortestPrefix (size : α → Nat) (capacity total : Nat) (items evicted : List α) :
    Prop where
  isPrefix : evicted <+: items
  enough : evicted = items ∨ total - (evicted.map size).sum ≤ capacity
  shortest : ∀ other, other <+: items → total - (other.map size).sum ≤ capacity →
    evicted.length ≤ other.length

theorem shortestPrefix_nil : ShortestPrefix size capacity total [] [] :=
  ⟨List.prefix_rfl, .inl rfl, fun _ _ _ => Nat.zero_le _⟩

theorem ShortestPrefix.stop (h : total ≤ capacity) :
    ShortestPrefix size capacity total items [] :=
  ⟨List.nil_prefix, .inr h, fun _ _ _ => Nat.zero_le _⟩

/-- One more item has to go. -/
theorem ShortestPrefix.cons (hover : capacity < total)
    (h : ShortestPrefix size capacity (total - size a) items evicted) :
    ShortestPrefix size capacity total (a :: items) (a :: evicted) := by
  have hsum : ∀ l : List α,
      total - ((a :: l).map size).sum = total - size a - (l.map size).sum := by
    intro l
    rw [List.map_cons, List.sum_cons, Nat.sub_sub]
  refine ⟨(List.prefix_cons_inj a).mpr h.isPrefix, ?_, fun other hprefix hfits => ?_⟩
  · rw [hsum]
    rcases h.enough with rfl | hle
    · exact .inl rfl
    · exact .inr hle
  · cases other with
    | nil => exact absurd hfits (Nat.not_le.mpr hover)
    | cons b rest =>
      obtain ⟨rfl, hrest⟩ := List.cons_prefix_cons.mp hprefix
      rw [hsum] at hfits
      exact Nat.succ_le_succ (h.shortest rest hrest hfits)

end Prefix

/-! ## Published entries -/

/-- A published entry: its place, its modification time and its bytes on disk. -/
structure PublishedEntry where
  ns : CacheNamespace
  key : CacheKey
  modified : Nat
  bytes : Nat
  deriving DecidableEq

def PublishedEntry.age (e : PublishedEntry) : Nat ×ₗ CacheNamespace ×ₗ CacheKey :=
  toLex (e.modified, toLex (e.ns, e.key))

def PublishedEntry.path (e : PublishedEntry) : Path := entryPath e.ns e.key

def PublishedEntry.record (reason : EvictionReason) (e : PublishedEntry) : EvictionRecord :=
  ⟨e.ns, e.key, reason, e.bytes⟩

/-- The published entry that a directory is under its name. -/
def publishedAt (path : Path) (d : Directory) : Option PublishedEntry :=
  match path.name with
  | .final key => some ⟨path.ns, key, d.modified, d.size⟩
  | _ => none

/-- The published entries in the order of modification times, namespaces and keys. -/
def Files.published (fs : Files) : List PublishedEntry :=
  (fs.names.entries.filterMap fun e => publishedAt e.1 (fs.dirs e.2)).insertionSort
    fun a b => a.age ≤ b.age

/-- The bytes of all directories, fewer than 2^64 on every disk. -/
def Files.totalBytes (fs : Files) : Nat := (fs.names.entries.map fun e => (fs.dirs e.2).size).sum

variable {c : CacheService} {fs : Files} {ns : CacheNamespace} {key : CacheKey}
  {contents : Contents} {e : PublishedEntry}

theorem publishedAt_eq_some {path : Path} {d : Directory} :
    publishedAt path d = some e ↔ path = e.path ∧ e.modified = d.modified ∧ e.bytes = d.size := by
  obtain ⟨ns, name⟩ := path
  obtain ⟨ns', key', modified, bytes⟩ := e
  cases name with
  | final key =>
    simp only [publishedAt, Option.some.injEq, PublishedEntry.mk.injEq, PublishedEntry.path,
      entryPath, Path.mk.injEq, Name.final.injEq]
    tauto
  | lease key => simp [publishedAt, PublishedEntry.path, entryPath]
  | reap key token => simp [publishedAt, PublishedEntry.path, entryPath]
  | staging key token => simp [publishedAt, PublishedEntry.path, entryPath]
  | previous key token => simp [publishedAt, PublishedEntry.path, entryPath]
  | evicted key token => simp [publishedAt, PublishedEntry.path, entryPath]

theorem mem_published : e ∈ fs.published ↔
    ∃ d, fs.at? e.path = some d ∧ e.modified = d.modified ∧ e.bytes = d.size := by
  rw [Files.published, List.mem_insertionSort, List.mem_filterMap]
  constructor
  · rintro ⟨⟨path, inode⟩, hm, he⟩
    obtain ⟨rfl, hmodified, hbytes⟩ := publishedAt_eq_some.mp he
    exact ⟨_, at?_eq (OrderedMap.get?_eq_some.mpr hm), hmodified, hbytes⟩
  · rintro ⟨d, hd, hmodified, hbytes⟩
    obtain ⟨inode, hi, rfl⟩ := inode_of_at? hd
    exact ⟨(e.path, inode), OrderedMap.get?_eq_some.mp hi,
      publishedAt_eq_some.mpr ⟨rfl, hmodified, hbytes⟩⟩

theorem path_of_age {a b : PublishedEntry} (h : a.age = b.age) : a.path = b.path := by
  obtain ⟨_, hplace⟩ := Prod.mk.inj (toLex.injective h)
  obtain ⟨hns, hkey⟩ := Prod.mk.inj (toLex.injective hplace)
  rw [PublishedEntry.path, PublishedEntry.path, hns, hkey]

/-- Every entry has its own age, which contains its place. -/
theorem pairwise_published : fs.published.Pairwise fun a b => a.age < b.age := by
  refine pairwise_lt_insertionSort (List.pairwise_map.mpr (List.pairwise_filterMap.mpr ?_))
  refine fs.names.sorted.imp fun {x y} hxy a ha b hb hab => ?_
  have hx := (publishedAt_eq_some.mp ha).1
  have hy := (publishedAt_eq_some.mp hb).1
  exact absurd (hx.trans ((path_of_age hab).trans hy.symm)) (ne_of_lt hxy)

/-- Two entries at one path are the same entry. -/
theorem eq_of_path {a b : PublishedEntry} (ha : a ∈ fs.published) (hb : b ∈ fs.published)
    (h : a.path = b.path) : a = b := by
  obtain ⟨d, hd, hmodified, hbytes⟩ := mem_published.mp ha
  obtain ⟨d', hd', hmodified', hbytes'⟩ := mem_published.mp hb
  obtain rfl := Option.some.inj (hd.symm.trans (h ▸ hd'))
  obtain ⟨hns, hname⟩ := Path.mk.inj h
  obtain ⟨ns, key, modified, bytes⟩ := a
  obtain ⟨ns', key', modified', bytes'⟩ := b
  obtain rfl : ns = ns' := hns
  obtain rfl : key = key' := Name.final.inj hname
  obtain rfl : modified = modified' := hmodified.trans hmodified'.symm
  obtain rfl : bytes = bytes' := hbytes.trans hbytes'.symm
  rfl

/-- The entries of a settled store are all its bytes. -/
theorem Settled.sum_published (h : Settled c contents fs) :
    (fs.published.map PublishedEntry.bytes).sum = fs.totalBytes := by
  have hall : ∀ l : List (Path × Nat), (∀ x ∈ l, x ∈ fs.names.entries) →
      ((l.filterMap fun x => publishedAt x.1 (fs.dirs x.2)).map PublishedEntry.bytes) =
        l.map fun x => (fs.dirs x.2).size := by
    intro l hl
    induction l with
    | nil => rfl
    | cons x rest ih =>
      have hsome : (fs.at? x.1).isSome := by
        rw [at?_eq (OrderedMap.get?_eq_some.mpr (hl x (List.mem_cons_self ..)))]
        rfl
      obtain ⟨key, hname, _⟩ := h.final (mem_namesIn.mpr ⟨rfl, hsome⟩)
      have hx : publishedAt x.1 (fs.dirs x.2) =
          some ⟨x.1.ns, key, (fs.dirs x.2).modified, (fs.dirs x.2).size⟩ := by
        rw [publishedAt, hname]
      have hcons := List.filterMap_cons_some (l := rest)
        (f := fun x : Path × Nat => publishedAt x.1 (fs.dirs x.2)) hx
      rw [hcons, List.map_cons, List.map_cons, ih fun y hy => hl y (List.mem_cons_of_mem _ hy)]
  rw [Files.published, ((List.perm_insertionSort _ _).map _).sum_nat, hall _ fun _ hx => hx]
  rfl

/-- An eviction of the oldest entry leaves the others. -/
theorem published_of_evicted {t : Files} {rest : List PublishedEntry}
    (hpublished : fs.published = e :: rest) (hnone : t.at? e.path = none)
    (hchanges : Changes [e.path] fs t) : t.published = rest := by
  have hsorted : (e :: rest).Pairwise fun a b => a.age < b.age := hpublished ▸ pairwise_published
  obtain ⟨holdest, hrest⟩ := List.pairwise_cons.mp hsorted
  refine OrderedMap.eq_of_increasing pairwise_published hrest fun x => ?_
  have hmem : x ∈ rest ↔ x ∈ fs.published ∧ x.path ≠ e.path := by
    have he : e ∈ fs.published := hpublished ▸ List.mem_cons_self ..
    constructor
    · refine fun hx => ⟨hpublished ▸ List.mem_cons_of_mem _ hx, fun hpath => ?_⟩
      have hxe := eq_of_path (hpublished ▸ List.mem_cons_of_mem _ hx) he hpath
      exact lt_irrefl _ (hxe ▸ holdest x hx)
    · rintro ⟨hx, hpath⟩
      rcases List.mem_cons.mp (hpublished ▸ hx) with rfl | hx
      · exact absurd rfl hpath
      · exact hx
  rw [hmem, mem_published, mem_published]
  by_cases hpath : x.path = e.path
  · rw [hpath, hnone]
    simp
  · rw [hchanges.same _ fun hm => hpath (List.mem_singleton.mp hm)]
    simp [hpath]

/-! ## The scan -/

/-- The sorted candidates are the published entries in their order. -/
theorem Listed.ages {candidates : List CacheCandidate}
    (hlisted : Listed c contents fs (namespaces.flatMap fun ns => fs.places ns (fs.shardList ns))
      candidates) (h : Settled c contents fs) :
    (candidates.insertionSort fun a b => a.age ≤ b.age).map CacheCandidate.age =
      fs.published.map PublishedEntry.age := by
  have hplaces : (candidates.map CacheCandidate.age).Nodup := by
    refine List.Nodup.of_map (fun a => (ofLex (ofLex a).2)) ?_
    rw [List.map_map]
    exact hlisted.places ▸ h.nodup_places
  refine OrderedMap.eq_of_increasing (f := id)
    (List.pairwise_map.mpr (pairwise_lt_insertionSort hplaces))
    (List.pairwise_map.mpr pairwise_published) fun a => ?_
  rw [List.mem_map, List.mem_map]
  constructor
  · rintro ⟨k, hk, rfl⟩
    obtain ⟨d, hd, hmodified⟩ := hlisted.modified k ((List.mem_insertionSort _).mp hk)
    refine ⟨⟨k.ns, k.key, d.modified, d.size⟩, mem_published.mpr ⟨d, hd, rfl, rfl⟩, ?_⟩
    rw [CacheCandidate.age, hmodified]
    rfl
  · rintro ⟨e, he, rfl⟩
    obtain ⟨d, hd, hmodified, _⟩ := mem_published.mp he
    obtain ⟨x, hx⟩ := h.content (Option.isSome_iff_exists.mpr ⟨d, hd⟩)
    obtain ⟨k, hk, hplace⟩ := List.mem_map.mp (hlisted.places ▸ h.mem_places hx)
    obtain ⟨d', hd', hmodified'⟩ := hlisted.modified k hk
    obtain ⟨hns, hkey⟩ := Prod.mk.inj hplace
    refine ⟨k, (List.mem_insertionSort _).mpr hk, ?_⟩
    rw [hns, hkey] at hd'
    obtain rfl := Option.some.inj (hd.symm.trans hd')
    rw [CacheCandidate.age, PublishedEntry.age, hns, hkey, hmodified, hmodified']

/-! ## The loop -/

/-- What is left after the oldest entries of a settled store are evicted. -/
structure Evicted (c : CacheService) (maximumBytes : Nat) (fs : Files)
    (evicted : List PublishedEntry) (t : Files) : Prop where
  settled : ∃ contents, Settled c contents t
  shortest : ShortestPrefix PublishedEntry.bytes maximumBytes fs.totalBytes fs.published evicted
  rest : fs.published = evicted ++ t.published
  changes : Changes (evicted.map PublishedEntry.path) fs t

theorem Settled.sum_rest {t : Files} {contents' : Contents} {evicted : List PublishedEntry}
    (h : Settled c contents fs) (h' : Settled c contents' t)
    (hrest : fs.published = evicted ++ t.published) :
    fs.totalBytes = (evicted.map PublishedEntry.bytes).sum + t.totalBytes := by
  rw [← h.sum_published, ← h'.sum_published, hrest, List.map_append, List.sum_append]

variable {maximumBytes : Nat} {reason : EvictionReason}

/-- The loop on the candidates of a settled store, from the size of the store. -/
theorem meets_evictCandidates (hpolls : 0 < c.polls) : ∀ {candidates : List CacheCandidate}
    {fs : Files} {contents : Contents}, Settled c contents fs →
    candidates.map CacheCandidate.age = fs.published.map PublishedEntry.age →
    Meets (evictCandidates c maximumBytes reason candidates fs.totalBytes) (fun r t =>
      ∃ records, r = .ok records ∧ ∃ evicted : List PublishedEntry,
        records = evicted.map (PublishedEntry.record reason) ∧
        Evicted c maximumBytes fs evicted t) fs := by
  intro candidates
  induction candidates with
  | nil =>
    intro fs contents h hages
    have hnil : fs.published = [] := List.map_eq_nil_iff.mp hages.symm
    refine ⟨[], rfl, [], rfl, ⟨contents, h⟩, ?_, rfl, h.valid.changes⟩
    rw [hnil]
    exact shortestPrefix_nil
  | cons candidate candidates ih =>
    intro fs contents h hages
    unfold evictCandidates
    by_cases hstop : fs.totalBytes ≤ maximumBytes
    · rw [if_pos hstop]
      exact ⟨[], rfl, [], rfl, ⟨contents, h⟩, .stop hstop, rfl, h.valid.changes⟩
    rw [if_neg hstop]
    obtain ⟨e, rest, hpublished, hage, hrest⟩ := List.map_eq_cons_iff.mp hages.symm
    obtain ⟨d, hd, _, hbytes⟩ := mem_published.mp (hpublished ▸ List.mem_cons_self ..)
    obtain ⟨_, hplace⟩ := Prod.mk.inj (toLex.injective hage)
    obtain ⟨hns, hkey⟩ := Prod.mk.inj (toLex.injective hplace)
    rw [← hns, ← hkey]
    refine reads_checkCancelled.bind ?_
    refine (meets_evict h.valid hpolls (h.bare e.ns e.key) (h.holds e.ns e.key)).bind ?_
    rintro _ t ⟨rfl, hnone, hchanges⟩
    rw [show fs.at? (entryPath e.ns e.key) = some d from hd, Option.map_some]
    have ht : Settled c _ t := h.changes hchanges hnone
    have hleft : t.published = rest := published_of_evicted hpublished hnone hchanges
    have htotal : fs.totalBytes = e.bytes + t.totalBytes := by
      have hrest : fs.published = [e] ++ t.published := by rw [hpublished, hleft]; rfl
      simpa using h.sum_rest ht hrest
    have hestimate : fs.totalBytes - d.size = t.totalBytes := by
      rw [htotal, hbytes, Nat.add_sub_cancel_left]
    show Meets (evictCandidates c maximumBytes reason candidates (fs.totalBytes - d.size) >>= _) _ t
    rw [hestimate]
    refine (ih ht (hrest.symm.trans (by rw [hleft]))).bind ?_
    rintro _ u ⟨evicted, rfl, hevicted⟩
    refine ⟨_, rfl, e :: evicted, ?_, hevicted.settled, ?_, ?_, ?_⟩
    · rw [List.map_cons, PublishedEntry.record, hbytes]
    · rw [hpublished, ← hleft]
      refine .cons (Nat.lt_of_not_le hstop) ?_
      rw [hbytes, hestimate]
      exact hevicted.shortest
    · rw [hpublished, ← hleft, hevicted.rest]
      rfl
    · refine (hchanges.mono fun q hq => ?_).trans (hevicted.changes.mono fun q hq => ?_)
      · exact List.mem_cons.mpr (.inl (List.mem_singleton.mp hq))
      · exact List.mem_cons_of_mem _ hq

theorem reads_versionSize : Reads versionSize fs (.ok fs.totalBytes) := by
  unfold Reads versionSize
  refine reads_checkCancelled.bind (reads_visitEntries.bind ?_)
  exact (meets_attempt (P := fun n t => n = fs.totalBytes ∧ t = fs)
    (ensures_step.mpr fun env _ => ⟨_, rfl, rfl, rfl⟩)).mono fun r t ⟨n, hr, hn, ht⟩ =>
      ⟨hn ▸ hr, ht⟩

/-- **Eviction to a capacity**, on a settled store. -/
theorem meets_evictTo (hpolls : 0 < c.polls) (h : Settled c contents fs) :
    Meets (evictTo c maximumBytes reason) (fun r t => ∃ evicted : List PublishedEntry,
      r = .ok ⟨fs.totalBytes, t.totalBytes, evicted.map (PublishedEntry.record reason)⟩ ∧
      Evicted c maximumBytes fs evicted t) fs := by
  obtain ⟨candidates, hreads, hlisted⟩ := @reads_scanCandidates c fs contents h namespaces
  unfold evictTo
  refine reads_versionSize.bind (reads_checkCancelled.bind (hreads.bind ?_))
  refine (meets_evictCandidates hpolls h (hlisted.ages h)).bind ?_
  rintro _ t ⟨evicted, rfl, hevicted⟩
  refine reads_versionSize.bind ?_
  exact ⟨evicted, rfl, hevicted⟩

/-- The evicted entries are gone, and every other path is as it was. -/
theorem Evicted.at? {t : Files} {evicted : List PublishedEntry}
    (h : Evicted c maximumBytes fs evicted t) (path : Path) :
    t.at? path = if path ∈ evicted.map PublishedEntry.path then none else fs.at? path := by
  by_cases hm : path ∈ evicted.map PublishedEntry.path
  · rw [if_pos hm]
    obtain ⟨e, he, rfl⟩ := List.mem_map.mp hm
    cases hd : t.at? e.path with
    | none => rfl
    | some d =>
      -- an entry that is still there would be listed twice before
      have hleft : (⟨e.ns, e.key, d.modified, d.size⟩ : PublishedEntry) ∈ t.published :=
        mem_published.mpr ⟨d, hd, rfl, rfl⟩
      have hall : ∀ {x}, x ∈ evicted ∨ x ∈ t.published → x ∈ fs.published := fun hx =>
        h.rest ▸ List.mem_append.mpr hx
      have hsame := eq_of_path (hall (.inl he)) (hall (.inr hleft)) rfl
      have hsorted := h.rest ▸ @pairwise_published fs
      exact absurd ((List.pairwise_append.mp hsorted).2.2 e he _ (hsame ▸ hleft)) (lt_irrefl _)
  · rw [if_neg hm]
    exact h.changes.same path hm

/-! ## After a sequence of calls -/

/-- The number of steps that a sequence of calls takes, and the files after it. -/
def afterCalls (c : CacheService) (env : Nat → Env) : List Call → Nat → Files → Nat × Files
  | [], n, fs => (n, fs)
  | call :: rest, n, fs =>
    let (_, n, t) := Program.run FileOp.eval env (call.task c) n fs
    afterCalls c env rest n t

theorem represents_afterCalls {env : Nat → Env} (henv : ∀ n, (env n).Quiet)
    (hpolls : 0 < c.polls) (hfits : c.Fits) {calls : List Call} : ∀ {n : Nat} {fs : Files}
    {m : Store}, Represents c m fs → ∃ m', Represents c m' (afterCalls c env calls n fs).2 := by
  induction calls with
  | nil => exact fun h => ⟨_, h⟩
  | cons call rest ih =>
    intro n fs m h
    obtain ⟨_, hrep, _⟩ := @run_of_wp _ _ _ _ _ _ _ env henv (call.task c) _ n fs
      (refines_call h hpolls hfits call)
    exact ih hrep

/-- **Eviction to a capacity.** After any calls on a new cache, `evict_to` evicts the shortest
prefix of the published entries, in the order of modification times, namespaces and keys,
that brings the store down to the capacity, and nothing else. It reports the bytes of every
evicted entry, and the bytes of the store before and after. -/
theorem evictTo_shortestPrefix (c : CacheService) (hpolls : 0 < c.polls) (hfits : c.Fits)
    (env : Nat → Env) (henv : ∀ n, (env n).Quiet) (calls : List Call) (maximumBytes : Nat)
    (reason : EvictionReason) :
    let start := afterCalls c env calls 0 .empty
    let final := Program.run FileOp.eval env (evictTo c maximumBytes reason).run start.1 start.2
    ∃ report evicted, final.1 = .ok report ∧
      ShortestPrefix PublishedEntry.bytes maximumBytes start.2.totalBytes start.2.published
        evicted ∧
      report.records = evicted.map (PublishedEntry.record reason) ∧
      (∀ path, final.2.2.at? path =
        if path ∈ evicted.map PublishedEntry.path then none else start.2.at? path) ∧
      report.beforeBytes = start.2.totalBytes ∧ report.afterBytes = final.2.2.totalBytes ∧
      report.afterBytes + (report.records.map EvictionRecord.bytes).sum = report.beforeBytes := by
  have hrun : ∃ m, Represents c m (afterCalls c env calls 0 .empty).2 :=
    represents_afterCalls henv hpolls hfits (represents_empty c)
  obtain ⟨m, contents, hsettled, _⟩ := hrun
  obtain ⟨evicted, hresult, h⟩ := @run_of_wp _ _ _ _ _ _ _ env henv
    (evictTo c maximumBytes reason).run _ (afterCalls c env calls 0 .empty).1 _
    (meets_evictTo hpolls hsettled)
  refine ⟨_, evicted, hresult, h.shortest, rfl, h.at?, rfl, rfl, ?_⟩
  obtain ⟨contents', hsettled'⟩ := h.settled
  rw [hsettled.sum_rest hsettled' h.rest, List.map_map, Nat.add_comm]
  rfl

namespace Sample

/-- A clock that advances with every step. -/
def ticking : Nat → Env := fun n => { env n with now := n }

/-- Two entries of 376 bytes each, the later one first in the order of namespaces. -/
def publications : List Call :=
  [.publish .prepared (digest 3) compatibility abc inMemory_abc,
    .publish .plan (digest 2) compatibility abc inMemory_abc]

end Sample

theorem evictTo_shortestPrefix_sample :
    let start := afterCalls Sample.service Sample.ticking Sample.publications 0 .empty
    let final := Program.run FileOp.eval Sample.ticking
      (evictTo Sample.service 400 .capacity).run start.1 start.2
    final.1 = .ok ⟨752, 376, [⟨.prepared, Sample.digest 3, .capacity, 376⟩]⟩ ∧
      ∃ evicted, ShortestPrefix PublishedEntry.bytes 400 start.2.totalBytes start.2.published
          evicted ∧
        evicted.map (PublishedEntry.record .capacity) =
          [⟨.prepared, Sample.digest 3, .capacity, 376⟩] := by
  have hfits : Sample.service.Fits := fun _ _ _ => show 373 ≤ 65536 by decide
  have h := evictTo_shortestPrefix Sample.service Nat.one_pos hfits Sample.ticking
    (fun _ => ⟨rfl, rfl, rfl⟩) Sample.publications 400 .capacity
  intro start final
  have heval : final.1 = .ok ⟨752, 376, [⟨.prepared, Sample.digest 3, .capacity, 376⟩]⟩ := by
    decide +kernel
  obtain ⟨report, evicted, hresult, hshortest, hrecords, _⟩ := h
  rw [show final.1 = .ok report from hresult] at heval ⊢
  obtain rfl := Except.ok.inj heval
  exact ⟨rfl, evicted, hshortest, hrecords.symm⟩

end ModelWeights.Cache
