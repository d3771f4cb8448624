import Mathlib.Data.Finset.Card
import Mathlib.Data.Finset.Image
import ModelWeights.Inventory.ShardIndex
import ModelWeights.Safetensors.Described

/-! # Texts of shard indexes

`ShardIndex::from_json_with_cancellation` of `inventory.rs` and the visitors it hands to
the JSON reader. An index is an object with one map of texts; whatever else it holds is
skipped. -/
namespace ModelWeights
open Json (Document)
open Parsing
open Safetensors (Visit Stop JsonReader checkVisit endOf headerString headerText textMembers)

/-! ## Visitors -/

/-- `ShardIndexParseControl` is the control of the header under another name. -/
abbrev indexCheck := checkVisit

abbrev indexEnd := endOf

/-- `IndexStringSeed` on a key. -/
def indexString := headerString

/-- `IndexStringSeed` on a value. -/
def indexText := headerText

def weightMapKey : String := "weight_map"

section Visitors
variable (limits : CheckpointLimits) (cancellation : CancellationToken)

mutual

/-- `CancellableIgnoredAnySeed`. -/
def ignoreAny : Document → Visit Unit
  | .array items closed => do
    indexCheck cancellation
    ignoreItems items
    indexCheck cancellation
    indexEnd closed
  | .object members closed => do
    indexCheck cancellation
    ignoreMembers members
    indexCheck cancellation
    indexEnd closed
  | .broken => do
    indexCheck cancellation
    .error .json
  | .text _ | .natural _ | .other => do
    indexCheck cancellation
    indexCheck cancellation

/-- `CancellableIgnoredAnyVisitor::visit_seq`, up to its last turn. -/
def ignoreItems : List Document → Visit Unit
  | [] => .ok ()
  | item :: rest => do
    indexCheck cancellation
    ignoreAny item
    ignoreItems rest

/-- `CancellableIgnoredAnyVisitor::visit_map`, up to its last turn. -/
def ignoreMembers : List (String × Document) → Visit Unit
  | [] => .ok ()
  | (_, value) :: rest => do
    indexCheck cancellation
    indexCheck cancellation
    indexCheck cancellation
    ignoreAny value
    ignoreMembers rest

end

/-- One turn of `WeightMapVisitor::visit_map`, with the shards seen so far. -/
def visitWeight (state : OrderedMap String RepoPath × Finset RepoPath)
    (member : String × Document) : Visit (OrderedMap String RepoPath × Finset RepoPath) := do
  indexCheck cancellation
  let name ← indexString cancellation limits.maxNameBytes true
    "safetensors index tensor name violates configured limits" member.1
  indexCheck cancellation
  if state.1.contains name then .error .json
  else if state.1.entries.length ≥ limits.maxTensors then
    .error (.limit "safetensors index exceeds the configured tensor count")
  else
    let rawPath ← indexText cancellation limits.maxNameBytes false
      "safetensors index shard path violates configured limits" member.2
    let path ← (RepoPath.parse rawPath).mapError Stop.aborted
    let shards := insert path state.2
    if shards.card > limits.maxShards then
      .error (.limit "safetensors index exceeds the configured shard count")
    else .ok (state.1.insert name path, shards)

/-- `WeightMapSeed`. -/
def readWeightMap : Document → Visit (OrderedMap String RepoPath)
  | .object members closed => do
    indexCheck cancellation
    let state ← members.foldlM (visitWeight limits cancellation) (.empty, ∅)
    indexCheck cancellation
    indexEnd closed
    .ok state.1
  | _ => do
    indexCheck cancellation
    .error .json

/-- One turn of `ShardIndexVisitor::visit_map`, with the keys seen so far. -/
def visitIndexMember (state : Finset String × Option (OrderedMap String RepoPath))
    (member : String × Document) :
    Visit (Finset String × Option (OrderedMap String RepoPath)) := do
  indexCheck cancellation
  indexCheck cancellation
  if member.1 ∈ state.1 then .error .json
  else
    let seen := insert member.1 state.1
    if member.1 = weightMapKey then
      let weightMap ← readWeightMap limits cancellation member.2
      .ok (seen, some weightMap)
    else
      ignoreAny cancellation member.2
      .ok (seen, state.2)

/-- `ShardIndexSeed`. -/
def readShardIndex : Document → Visit ShardIndex
  | .object members closed => do
    indexCheck cancellation
    let state ← members.foldlM (visitIndexMember limits cancellation) (∅, none)
    indexCheck cancellation
    indexEnd closed
    match state.2 with
    | some weightMap => .ok ⟨weightMap⟩
    | none => .error .json
  | _ => do
    indexCheck cancellation
    .error .json

end Visitors

section Text
variable (reader : JsonReader) (bytes : List UInt8) (limits : CheckpointLimits)
  (cancellation : CancellationToken)

def deserializeShardIndexJson : Result ShardIndex := do
  let index ← (readShardIndex limits cancellation (reader.document bytes)).classify cancellation
    "safetensors index JSON is invalid"
  cancellation.check
  (indexEnd (reader.ended bytes)).classify cancellation
    "safetensors index contains trailing data"
  cancellation.check
  .ok index

/-- `ShardIndex::from_json_with_cancellation`. -/
def ShardIndex.fromJson : Result ShardIndex := do
  cancellation.check
  if bytes.length > limits.maxHeaderBytes then
    .error (.limit "safetensors index exceeds the configured byte limit")
  else
    let index ← deserializeShardIndexJson reader bytes limits cancellation
    cancellation.check
    .ok index

end Text

/-! ## What the visitors look for -/

/-- The paths of a weight map. -/
def shardsOf (map : OrderedMap String RepoPath) : Finset RepoPath :=
  (map.entries.map Prod.snd).toFinset

/-- The document is an object of these names and paths, every name once. -/
structure WeightMapOf (limits : CheckpointLimits) (map : OrderedMap String RepoPath)
    (entries : List (String × String)) : Prop extends ShardIndex.Holds map entries where
  within : ∀ entry ∈ entries, entry.1 ≠ "" ∧ (utf8 entry.1).length ≤ limits.maxNameBytes ∧
    (utf8 entry.2).length ≤ limits.maxNameBytes
  tensors : map.entries.length ≤ limits.maxTensors
  shards : (shardsOf map).card ≤ limits.maxShards

/-- The document is an object with every key once, a weight map among them. -/
structure ShardIndex.DescribedBy (limits : CheckpointLimits) (index : ShardIndex)
    (document : Document) (entries : List (String × String)) : Prop where
  weights : WeightMapOf limits index.weightMap entries
  members : ∃ members, document = .object members true ∧ (members.map Prod.fst).Nodup ∧
    (weightMapKey, .object (textMembers entries) true) ∈ members ∧
    ∀ member ∈ members, member.1 ≠ weightMapKey → member.2.whole = true

section Exact
variable {limits : CheckpointLimits} {cancellation : CancellationToken}

/-! ## Values that are skipped -/

mutual

theorem ignoreAny_eq_ok (hc : cancellation.cancelled = false) : ∀ document : Document,
    ignoreAny cancellation document = .ok () ↔ document.whole = true
  | .array items closed => by
    simp only [ignoreAny, Document.whole, indexCheck, indexEnd, bind_eq_ok_iff,
      Safetensors.checkVisit_eq_ok, Safetensors.endOf_eq_ok, hc, exists_const, true_and,
      ignoreItems_eq_ok hc items, Bool.and_eq_true]
  | .object members closed => by
    simp only [ignoreAny, Document.whole, indexCheck, indexEnd, bind_eq_ok_iff,
      Safetensors.checkVisit_eq_ok, Safetensors.endOf_eq_ok, hc, exists_const, true_and,
      ignoreMembers_eq_ok hc members, Bool.and_eq_true]
  | .broken => by simp [ignoreAny, Document.whole, bind_eq_ok_iff]
  | .text _ | .natural _ | .other => by
    simp [ignoreAny, Document.whole, bind_eq_ok_iff, Safetensors.checkVisit_eq_ok, hc]

theorem ignoreItems_eq_ok (hc : cancellation.cancelled = false) : ∀ items : List Document,
    ignoreItems cancellation items = .ok () ↔ Document.wholeItems items = true
  | [] => by simp [ignoreItems, Document.wholeItems]
  | item :: rest => by
    simp only [ignoreItems, Document.wholeItems, bind_eq_ok_iff, indexCheck,
      Safetensors.checkVisit_eq_ok, hc, exists_const, true_and, ignoreAny_eq_ok hc item,
      ignoreItems_eq_ok hc rest, Bool.and_eq_true]

theorem ignoreMembers_eq_ok (hc : cancellation.cancelled = false) :
    ∀ members : List (String × Document),
      ignoreMembers cancellation members = .ok () ↔ Document.wholeMembers members = true
  | [] => by simp [ignoreMembers, Document.wholeMembers]
  | (_, value) :: rest => by
    simp only [ignoreMembers, Document.wholeMembers, bind_eq_ok_iff, indexCheck,
      Safetensors.checkVisit_eq_ok, hc, exists_const, true_and, ignoreAny_eq_ok hc value,
      ignoreMembers_eq_ok hc rest, Bool.and_eq_true]

end

/-! ## Weight maps -/

theorem mem_shardsOf {map : OrderedMap String RepoPath} {path : RepoPath} :
    path ∈ shardsOf map ↔ ∃ name, map.get? name = some path := by
  simp only [shardsOf, List.mem_toFinset, List.mem_map, Prod.exists, exists_eq_right,
    OrderedMap.get?_eq_some]

theorem shardsOf_insert {map : OrderedMap String RepoPath} {name : String} {path : RepoPath}
    (hnew : map.get? name = none) :
    shardsOf (map.insert name path) = insert path (shardsOf map) := by
  ext other
  simp only [Finset.mem_insert, mem_shardsOf, OrderedMap.get?_insert]
  constructor
  · rintro ⟨key, h⟩
    by_cases hkey : key = name
    · rw [if_pos hkey] at h
      exact .inl (Option.some.inj h).symm
    · rw [if_neg hkey] at h
      exact .inr ⟨key, h⟩
  · rintro (rfl | ⟨key, h⟩)
    · exact ⟨name, if_pos rfl⟩
    · refine ⟨key, ?_⟩
      rw [if_neg, h]
      rintro rfl
      rw [hnew] at h
      cases h

/-- One turn adds a name with its path. -/
theorem visitWeight_eq_ok (hc : cancellation.cancelled = false)
    {map map' : OrderedMap String RepoPath} {shards shards' : Finset RepoPath}
    {member : String × Document} :
    visitWeight limits cancellation (map, shards) member = .ok (map', shards') ↔
      ∃ path : RepoPath, member.2 = .text path.text ∧ member.1 ≠ "" ∧
        (utf8 member.1).length ≤ limits.maxNameBytes ∧
        (utf8 path.text).length ≤ limits.maxNameBytes ∧ map.get? member.1 = none ∧
        map.entries.length < limits.maxTensors ∧ (insert path shards).card ≤ limits.maxShards ∧
        map' = map.insert member.1 path ∧ shards' = insert path shards := by
  obtain ⟨name, value⟩ := member
  have hparse : ∀ {text : String} {path : RepoPath},
      (RepoPath.parse text).mapError Stop.aborted = .ok path ↔ path.text = text := by
    intro text path
    rw [← RepoPath.parse_eq_ok]
    cases RepoPath.parse text <;> simp [Except.mapError]
  simp only [visitWeight, indexCheck, indexString, indexText, bind_eq_ok_iff,
    Safetensors.checkVisit_eq_ok, hc, exists_const, true_and, Safetensors.headerString_eq_ok hc,
    Safetensors.headerText_eq_ok hc, guard_eq_ok_iff, OrderedMap.contains,
    Option.not_isSome_iff_eq_none, hparse, Except.ok.injEq, Prod.mk.injEq, ge_iff_le, gt_iff_lt,
    Nat.not_le, Nat.not_lt]
  constructor
  · rintro ⟨_, ⟨rfl, hname, hnonempty⟩, hnew, hcount, _, ⟨rfl, hpath, _⟩, path, rfl, hshards, rfl,
      rfl⟩
    exact ⟨path, rfl, hnonempty trivial, hname, hpath, hnew, hcount, hshards, rfl, rfl⟩
  · rintro ⟨path, rfl, hnonempty, hname, hpath, hnew, hcount, hshards, rfl, rfl⟩
    exact ⟨name, ⟨rfl, hname, fun _ => hnonempty⟩, hnew, hcount, path.text,
      ⟨rfl, hpath, fun h => absurd h Bool.false_ne_true⟩, path, rfl, hshards, rfl, rfl⟩

/-- What the visitor of the weight map has seen. -/
def WeightsSeen (limits : CheckpointLimits) (members : List (String × Document))
    (state : OrderedMap String RepoPath × Finset RepoPath) : Prop :=
  state.2 = shardsOf state.1 ∧
    ∃ entries, members = textMembers entries ∧ WeightMapOf limits state.1 entries

theorem WeightsSeen.snoc (hc : cancellation.cancelled = false)
    {members : List (String × Document)} {member : String × Document}
    {state state' : OrderedMap String RepoPath × Finset RepoPath}
    (h : WeightsSeen limits members state)
    (hvisit : visitWeight limits cancellation state member = .ok state') :
    WeightsSeen limits (members ++ [member]) state' := by
  obtain ⟨map, shards⟩ := state
  obtain ⟨map', shards'⟩ := state'
  obtain ⟨name, value⟩ := member
  obtain ⟨hseen, entries, rfl, hmap⟩ := h
  dsimp only at hseen hmap
  subst hseen
  obtain ⟨path, hvalue, hnonempty, hname, hpath, hnew, hcount, hshards, rfl, rfl⟩ :=
    (visitWeight_eq_ok hc).mp hvisit
  obtain rfl : value = .text path.text := hvalue
  refine ⟨(shardsOf_insert hnew).symm, entries ++ [(name, path.text)], ?_,
    hmap.toHolds.snoc path hnew, ?_, (OrderedMap.length_insertEntry_le ..).trans hcount, ?_⟩
  · rw [textMembers, textMembers, List.map_append, List.map_singleton]
  · intro entry he
    rcases List.mem_append.mp he with he | he
    · exact hmap.within entry he
    · rw [List.mem_singleton.mp he]
      exact ⟨hnonempty, hname, hpath⟩
  · rw [shardsOf_insert hnew]
    exact hshards

theorem ShardIndex.Holds.path_of_mem {map : OrderedMap String RepoPath}
    {entries : List (String × String)} (h : ShardIndex.Holds map entries)
    {entry : String × String} (he : entry ∈ entries) : ∃ path : RepoPath, path.text = entry.2 :=
  ⟨⟨entry.2, h.paths entry he⟩, rfl⟩

/-- The entries before the last one are the map without its name. -/
theorem ShardIndex.Holds.unsnoc {map : OrderedMap String RepoPath}
    {entries : List (String × String)} {name text : String}
    (h : ShardIndex.Holds map (entries ++ [(name, text)])) :
    ∃ path : RepoPath, path.text = text ∧ map.get? name = some path ∧
      ShardIndex.Holds (map.erase name) entries := by
  have hin : (name, text) ∈ entries ++ [(name, text)] :=
    List.mem_append_right _ (List.mem_singleton_self _)
  have hnames := h.names
  rw [List.map_append, List.map_singleton, List.nodup_middle, List.append_nil,
    List.nodup_cons] at hnames
  obtain ⟨path, rfl⟩ := h.path_of_mem hin
  refine ⟨path, rfl, (h.get name path).mpr hin, hnames.2,
    fun entry he => h.paths entry (List.mem_append_left _ he), fun key other => ?_⟩
  rw [OrderedMap.get?_erase]
  by_cases hkey : key = name
  · subst hkey
    rw [if_pos rfl]
    refine ⟨fun heq => (by cases heq), fun hmem => absurd ?_ hnames.1⟩
    exact List.mem_map.mpr ⟨_, hmem, rfl⟩
  · rw [if_neg hkey, h.get, List.mem_append, List.mem_singleton, or_iff_left]
    intro heq
    exact hkey (congrArg Prod.fst heq)

/-- The last member is taken off: the visitor read it after the others. -/
theorem WeightsSeen.unsnoc (hc : cancellation.cancelled = false)
    {members : List (String × Document)} {member : String × Document}
    {state' : OrderedMap String RepoPath × Finset RepoPath}
    (h : WeightsSeen limits (members ++ [member]) state') :
    ∃ state, WeightsSeen limits members state ∧
      visitWeight limits cancellation state member = .ok state' := by
  obtain ⟨map', shards'⟩ := state'
  obtain ⟨hseen, entries', hmembers, hmap⟩ := h
  dsimp only at hseen hmap
  subst hseen
  obtain ⟨entries, last, rfl, rfl, hlast⟩ := List.map_eq_append_iff.mp hmembers.symm
  obtain ⟨⟨name, text⟩, rfl, rfl⟩ := List.map_eq_singleton_iff.mp hlast
  obtain ⟨hnonempty, hname, htext⟩ := hmap.within (name, text)
    (List.mem_append_right _ (List.mem_singleton_self _))
  obtain ⟨path, rfl, hget, hholds⟩ := hmap.toHolds.unsnoc
  have hback := OrderedMap.insert_erase hget
  have hgone : (map'.erase name).get? name = none := by
    rw [OrderedMap.get?_erase, if_pos rfl]
  have hsub : shardsOf map' = insert path (shardsOf (map'.erase name)) := by
    rw [← shardsOf_insert hgone, hback]
  have hcount := OrderedMap.length_erase_lt hget
  have hcard := hmap.shards
  rw [hsub] at hcard
  refine ⟨(map'.erase name, shardsOf (map'.erase name)), ⟨rfl, entries, rfl, hholds, ?_, ?_, ?_⟩,
    ?_⟩
  · exact fun entry he => hmap.within entry (List.mem_append_left _ he)
  · exact hcount.le.trans hmap.tensors
  · exact (Finset.card_le_card (Finset.subset_insert _ _)).trans hcard
  · exact (visitWeight_eq_ok hc).mpr ⟨path, rfl, hnonempty, hname, htext, hgone,
      Nat.lt_of_lt_of_le hcount hmap.tensors, hcard, hback.symm, hsub⟩

theorem readWeightMap_eq_ok (hc : cancellation.cancelled = false) {document : Document}
    {map : OrderedMap String RepoPath} :
    readWeightMap limits cancellation document = .ok map ↔
      ∃ entries, document = .object (textMembers entries) true ∧
        WeightMapOf limits map entries := by
  cases document with
  | object members closed =>
    have hfold : ∀ state, members.foldlM (visitWeight limits cancellation) (.empty, ∅) =
        .ok state ↔ WeightsSeen limits members state := by
      intro state
      refine foldlM_eq_ok_iff (WeightsSeen limits) ?_ fun members member state' =>
        ⟨WeightsSeen.unsnoc hc, fun ⟨_, h, hvisit⟩ => h.snoc hc hvisit⟩
      rintro ⟨map, shards⟩
      constructor
      · rintro ⟨hshards, entries, hmembers, hmap⟩
        dsimp only at hshards hmap
        subst hshards
        obtain rfl := List.map_eq_nil_iff.mp hmembers.symm
        have hempty : map = .empty := by
          ext1 name
          refine Option.ext fun path => ?_
          rw [hmap.get]
          exact iff_of_false List.not_mem_nil nofun
        rw [hempty]
        rfl
      · rintro ⟨⟩
        refine ⟨rfl, [], rfl, ⟨List.nodup_nil, nofun, fun name path => ?_⟩, nofun, Nat.zero_le _,
          Nat.zero_le _⟩
        exact iff_of_false nofun List.not_mem_nil
    simp only [readWeightMap, indexCheck, indexEnd, bind_eq_ok_iff, Safetensors.checkVisit_eq_ok,
      hc, hfold, Safetensors.endOf_eq_ok, exists_const, true_and, Except.ok.injEq]
    constructor
    · rintro ⟨state, ⟨_, entries, rfl, hmap⟩, rfl, rfl⟩
      exact ⟨entries, rfl, hmap⟩
    · rintro ⟨entries, heq, hmap⟩
      cases heq
      exact ⟨(map, shardsOf map), ⟨rfl, entries, rfl, hmap⟩, rfl, rfl⟩
  | _ => simp [readWeightMap, bind_eq_ok_iff]

/-! ## Indexes -/

/-- One turn reads the weight map or skips a value. -/
theorem visitIndexMember_eq_ok (hc : cancellation.cancelled = false)
    {seen seen' : Finset String} {found found' : Option (OrderedMap String RepoPath)}
    {member : String × Document} :
    visitIndexMember limits cancellation (seen, found) member = .ok (seen', found') ↔
      member.1 ∉ seen ∧ seen' = insert member.1 seen ∧
        ((member.1 = weightMapKey ∧ ∃ map, readWeightMap limits cancellation member.2 = .ok map ∧
          found' = some map) ∨
        (member.1 ≠ weightMapKey ∧ member.2.whole = true ∧ found' = found)) := by
  unfold visitIndexMember
  simp only [indexCheck, bind_eq_ok_iff, Safetensors.checkVisit_eq_ok, hc, exists_const, true_and,
    guard_eq_ok_iff]
  refine and_congr_right fun _ => ?_
  by_cases hkey : member.1 = weightMapKey
  · rw [if_pos hkey]
    simp only [bind_eq_ok_iff, Except.ok.injEq, Prod.mk.injEq]
    constructor
    · rintro ⟨map, hread, rfl, rfl⟩
      exact ⟨rfl, .inl ⟨hkey, map, hread, rfl⟩⟩
    · rintro ⟨rfl, ⟨_, map, hread, rfl⟩ | ⟨hne, _⟩⟩
      · exact ⟨map, hread, rfl, rfl⟩
      · exact absurd hkey hne
  · rw [if_neg hkey]
    simp only [bind_eq_ok_iff, Except.ok.injEq, Prod.mk.injEq]
    constructor
    · rintro ⟨_, hskip, rfl, rfl⟩
      exact ⟨rfl, .inr ⟨hkey, (ignoreAny_eq_ok hc _).mp hskip, rfl⟩⟩
    · rintro ⟨rfl, ⟨heq, _⟩ | ⟨_, hwhole, rfl⟩⟩
      · exact absurd heq hkey
      · exact ⟨(), (ignoreAny_eq_ok hc _).mpr hwhole, rfl, rfl⟩

/-- What the visitor of the index has seen. -/
structure IndexSeen (limits : CheckpointLimits) (cancellation : CancellationToken)
    (members : List (String × Document))
    (state : Finset String × Option (OrderedMap String RepoPath)) : Prop where
  keys : state.1 = (members.map Prod.fst).toFinset
  nodup : (members.map Prod.fst).Nodup
  skipped : ∀ member ∈ members, member.1 ≠ weightMapKey → member.2.whole = true
  read : ∀ value, (weightMapKey, value) ∈ members →
    ∃ map, readWeightMap limits cancellation value = .ok map
  found : ∀ map, state.2 = some map ↔ ∃ value, (weightMapKey, value) ∈ members ∧
    readWeightMap limits cancellation value = .ok map

theorem mem_snoc_of_ne {members : List (String × Document)} {key other : String}
    {value value' : Document} (hne : key ≠ other) :
    (key, value) ∈ members ++ [(other, value')] ↔ (key, value) ∈ members := by
  rw [List.mem_append, List.mem_singleton, or_iff_left]
  exact fun heq => hne (congrArg Prod.fst heq)

theorem IndexSeen.snoc (hc : cancellation.cancelled = false)
    {members : List (String × Document)} {member : String × Document}
    {state state' : Finset String × Option (OrderedMap String RepoPath)}
    (h : IndexSeen limits cancellation members state)
    (hvisit : visitIndexMember limits cancellation state member = .ok state') :
    IndexSeen limits cancellation (members ++ [member]) state' := by
  obtain ⟨seen, found⟩ := state
  obtain ⟨seen', found'⟩ := state'
  obtain ⟨key, value⟩ := member
  obtain ⟨hnew, rfl, hcase⟩ := (visitIndexMember_eq_ok hc).mp hvisit
  have hkeys : seen = (members.map Prod.fst).toFinset := h.keys
  rw [hkeys, List.mem_toFinset] at hnew
  have hlast : (key, value) ∈ members ++ [(key, value)] :=
    List.mem_append_right _ (List.mem_singleton_self _)
  have hkeys' : insert key seen = ((members ++ [(key, value)]).map Prod.fst).toFinset := by
    rw [hkeys, List.map_append, List.toFinset_append, Finset.union_comm]
    rfl
  have hnodup := Safetensors.nodup_keys_snoc.mpr ⟨hnew, h.nodup⟩
  obtain ⟨hkey, map, hread, rfl⟩ | ⟨hkey, hwhole, rfl⟩ := hcase
  · subst hkey
    refine ⟨hkeys', hnodup, fun other hother hne => ?_, fun v hv => ?_, fun m => ⟨?_, ?_⟩⟩
    · exact h.skipped other ((mem_snoc_of_ne hne).mp hother) hne
    · rcases List.mem_append.mp hv with hv | hv
      · exact h.read v hv
      · cases List.mem_singleton.mp hv
        exact ⟨map, hread⟩
    · rintro ⟨⟩
      exact ⟨value, hlast, hread⟩
    · rintro ⟨v, hv, hm⟩
      rcases List.mem_append.mp hv with hv | hv
      · exact absurd (List.mem_map.mpr ⟨_, hv, rfl⟩) hnew
      · cases List.mem_singleton.mp hv
        exact congrArg some (Except.ok.inj (hread.symm.trans hm))
  · have hne : weightMapKey ≠ key := fun heq => hkey heq.symm
    refine ⟨hkeys', hnodup, fun other hother hother' => ?_, fun v hv => ?_, fun m => ?_⟩
    · rcases List.mem_append.mp hother with hother | hother
      · exact h.skipped other hother hother'
      · rw [List.mem_singleton.mp hother]
        exact hwhole
    · exact h.read v ((mem_snoc_of_ne hne).mp hv)
    · rw [h.found m]
      simp only [mem_snoc_of_ne hne]

theorem IndexSeen.unsnoc (hc : cancellation.cancelled = false)
    {members : List (String × Document)} {member : String × Document}
    {state' : Finset String × Option (OrderedMap String RepoPath)}
    (h : IndexSeen limits cancellation (members ++ [member]) state') :
    ∃ state, IndexSeen limits cancellation members state ∧
      visitIndexMember limits cancellation state member = .ok state' := by
  obtain ⟨seen', found'⟩ := state'
  obtain ⟨key, value⟩ := member
  obtain ⟨hnew, hnodup⟩ := Safetensors.nodup_keys_snoc.mp h.nodup
  have hlast : (key, value) ∈ members ++ [(key, value)] :=
    List.mem_append_right _ (List.mem_singleton_self _)
  have hleft : ∀ other ∈ members, other ∈ members ++ [(key, value)] := fun other hother =>
    List.mem_append_left _ hother
  have hkeys : seen' = insert key (members.map Prod.fst).toFinset := by
    have hall : seen' = ((members ++ [(key, value)]).map Prod.fst).toFinset := h.keys
    rw [hall, List.map_append, List.toFinset_append, Finset.union_comm]
    rfl
  have hskipped : ∀ other ∈ members, other.1 ≠ weightMapKey → other.2.whole = true :=
    fun other hother => h.skipped other (hleft other hother)
  have hread : ∀ v, (weightMapKey, v) ∈ members →
      ∃ map, readWeightMap limits cancellation v = .ok map := fun v hv => h.read v (hleft _ hv)
  by_cases hkey : key = weightMapKey
  · subst hkey
    obtain ⟨map, hmap⟩ := h.read value hlast
    refine ⟨((members.map Prod.fst).toFinset, none), ⟨rfl, hnodup, hskipped, hread, fun m => ?_⟩,
      (visitIndexMember_eq_ok hc).mpr ⟨?_, hkeys, .inl ⟨rfl, map, hmap, ?_⟩⟩⟩
    · refine iff_of_false nofun ?_
      rintro ⟨v, hv, _⟩
      exact hnew (List.mem_map.mpr ⟨_, hv, rfl⟩)
    · rw [List.mem_toFinset]
      exact hnew
    · exact (h.found map).mpr ⟨value, hlast, hmap⟩
  · have hne : weightMapKey ≠ key := fun heq => hkey heq.symm
    refine ⟨((members.map Prod.fst).toFinset, found'), ⟨rfl, hnodup, hskipped, hread, fun m => ?_⟩,
      (visitIndexMember_eq_ok hc).mpr ⟨?_, hkeys, .inr ⟨hkey, h.skipped _ hlast hkey, rfl⟩⟩⟩
    · rw [h.found m]
      simp only [mem_snoc_of_ne hne]
    · rw [List.mem_toFinset]
      exact hnew

theorem readShardIndex_eq_ok (hc : cancellation.cancelled = false) {document : Document}
    {index : ShardIndex} : readShardIndex limits cancellation document = .ok index ↔
      ∃ entries, index.DescribedBy limits document entries := by
  cases document with
  | object members closed =>
    have hfold : ∀ state, members.foldlM (visitIndexMember limits cancellation) (∅, none) =
        .ok state ↔ IndexSeen limits cancellation members state := by
      intro state
      refine foldlM_eq_ok_iff (IndexSeen limits cancellation) ?_ fun members member state' =>
        ⟨IndexSeen.unsnoc hc, fun ⟨_, h, hvisit⟩ => h.snoc hc hvisit⟩
      rintro ⟨seen, found⟩
      constructor
      · intro h
        have hseen : seen = ∅ := h.keys
        have hfound : found = none := Option.eq_none_iff_forall_ne_some.mpr fun map hm => by
          obtain ⟨_, hv, _⟩ := (h.found map).mp hm
          cases hv
        rw [hseen, hfound]
      · rintro ⟨⟩
        refine ⟨rfl, List.nodup_nil, nofun, nofun, fun map => iff_of_false nofun ?_⟩
        rintro ⟨_, hv, _⟩
        cases hv
    simp only [readShardIndex, indexCheck, indexEnd, bind_eq_ok_iff, Safetensors.checkVisit_eq_ok,
      hc, hfold, Safetensors.endOf_eq_ok, exists_const, true_and]
    constructor
    · rintro ⟨⟨seen, found⟩, h, rfl, hindex⟩
      cases found with
      | none => cases hindex
      | some map =>
        obtain rfl := Except.ok.inj hindex
        obtain ⟨value, hvalue, hread⟩ := (h.found map).mp rfl
        obtain ⟨entries, rfl, hmap⟩ := (readWeightMap_eq_ok hc).mp hread
        exact ⟨entries, hmap, members, rfl, h.nodup, hvalue, h.skipped⟩
    · rintro ⟨entries, h⟩
      obtain ⟨_, heq, hnodup, hin, hskipped⟩ := h.members
      cases heq
      have hread := (readWeightMap_eq_ok hc).mpr ⟨entries, rfl, h.weights⟩
      have honly : ∀ value, (weightMapKey, value) ∈ members →
          value = .object (textMembers entries) true := by
        intro value hvalue
        exact congrArg Prod.snd (List.inj_on_of_nodup_map hnodup hvalue hin rfl)
      refine ⟨((members.map Prod.fst).toFinset, some index.weightMap),
        ⟨rfl, hnodup, hskipped, fun value hvalue => ⟨index.weightMap, honly value hvalue ▸ hread⟩,
          fun map => ⟨?_, ?_⟩⟩, rfl, rfl⟩
      · rintro ⟨⟩
        exact ⟨_, hin, hread⟩
      · rintro ⟨value, hvalue, hm⟩
        rw [honly value hvalue] at hm
        exact congrArg some (Except.ok.inj (hread.symm.trans hm))
  | _ =>
    simp only [readShardIndex, bind_eq_ok_iff]
    refine ⟨fun h => (by simp at h), ?_⟩
    rintro ⟨_, h⟩
    obtain ⟨_, heq, _⟩ := h.members
    cases heq

/-- **Texts of shard indexes.** A text is an index exactly when it is an object with every
key once and, among whatever else it holds, one map of safe paths within the limits. -/
theorem ShardIndex.fromJson_eq_ok (hc : cancellation.cancelled = false) {reader : JsonReader}
    {bytes : List UInt8} {index : ShardIndex} :
    ShardIndex.fromJson reader bytes limits cancellation = .ok index ↔
      bytes.length ≤ limits.maxHeaderBytes ∧
        (∃ entries, index.DescribedBy limits (reader.document bytes) entries) ∧
        reader.ended bytes = true := by
  have hcheck : cancellation.check = .ok () := CancellationToken.check_eq_ok hc
  simp only [ShardIndex.fromJson, deserializeShardIndexJson, indexEnd, bind_eq_ok_iff, hcheck,
    guard_eq_ok_iff, Safetensors.classify_eq_ok, readShardIndex_eq_ok hc, Safetensors.endOf_eq_ok,
    exists_const, true_and, Nat.not_lt, Except.ok.injEq, gt_iff_lt]
  constructor
  · rintro ⟨hlength, _, ⟨_, hdescribed, hended, rfl⟩, rfl⟩
    exact ⟨hlength, hdescribed, hended⟩
  · rintro ⟨hlength, hdescribed, hended⟩
    exact ⟨hlength, index, ⟨index, hdescribed, hended, rfl⟩, rfl⟩

end Exact

end ModelWeights
