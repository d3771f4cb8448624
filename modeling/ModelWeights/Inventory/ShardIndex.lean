import ModelWeights.Gguf.Parse
import ModelWeights.Inventory.Records

/-! # Shard indexes

The index of a sharded checkpoint maps tensor names to files. `validateShardIndex`
compares it with an inventory by one size and a lookup of each of its names; that
is equality of the two maps, since both have every name once. -/
namespace ModelWeights

/-- The limits that opening a checkpoint is given. -/
structure CheckpointLimits extends Gguf.ResourceLimits where
  maxShards : Nat
  deriving DecidableEq, Repr

structure ShardIndex where
  weightMap : OrderedMap String RepoPath

/-! ## Checking an inventory -/

/-- The check of one entry of the index. -/
def validateShardEntry (inventory : Inventory) (cancellation : CancellationToken)
    (entry : String × RepoPath) : Result Unit := do
  cancellation.check
  let tensor ← okOr (inventory.tensor entry.1)
    (.integrity "shard index names a missing tensor")
  let file ← okOr inventory.files[tensor.storage.span.file]?
    (.integrity "tensor refers to an unknown source file")
  if file.path ≠ entry.2 then
    .error (.integrity "tensor is present in a different shard than its index declares")
  else .ok ()

def validateShardIndex (index : ShardIndex) (inventory : Inventory)
    (cancellation : CancellationToken) : Result Unit := do
  if index.weightMap.entries.length ≠ inventory.tensors.length then
    .error (.integrity "safetensors shard index and checkpoint inventory differ in size")
  else
    index.weightMap.entries.forM (validateShardEntry inventory cancellation)
    cancellation.check

/-- The path of the file that holds a tensor. -/
def Inventory.shardOf (inventory : Inventory) (tensor : TensorRecord) : Option RepoPath :=
  inventory.files[tensor.storage.span.file]?.map FileRecord.path

/-! ## What an index says -/

/-- The index of some entries: every name once, each with its path. -/
structure ShardIndex.Holds (map : OrderedMap String RepoPath) (entries : List (String × String)) :
    Prop where
  names : (entries.map Prod.fst).Nodup
  paths : ∀ entry ∈ entries, safeRepoPath entry.2 = true
  get : ∀ (name : String) (path : RepoPath),
    map.get? name = some path ↔ (name, path.text) ∈ entries

theorem ShardIndex.Holds.snoc {map : OrderedMap String RepoPath} {entries : List (String × String)}
    (h : ShardIndex.Holds map entries) {name : String} (path : RepoPath)
    (hnew : map.get? name = none) :
    ShardIndex.Holds (map.insert name path) (entries ++ [(name, path.text)]) where
  names := by
    rw [List.map_append, List.nodup_append]
    refine ⟨h.names, List.nodup_singleton _, ?_⟩
    intro key hkey other hother heq
    obtain ⟨entry, he, rfl⟩ := List.mem_map.mp hkey
    obtain rfl := List.mem_singleton.mp hother
    have hget := (h.get entry.1 ⟨entry.2, h.paths entry he⟩).mpr he
    rw [heq, hnew] at hget
    cases hget
  paths := by
    intro entry he
    rcases List.mem_append.mp he with he | he
    · exact h.paths entry he
    · rw [List.mem_singleton.mp he]
      exact path.safe
  get := by
    intro key value
    rw [OrderedMap.get?_insert, List.mem_append, List.mem_singleton, ← h.get]
    by_cases hkey : key = name
    · subst hkey
      rw [if_pos rfl, hnew]
      constructor
      · intro hvalue
        rw [Option.some.inj hvalue]
        exact .inr rfl
      · rintro (hvalue | hvalue)
        · cases hvalue
        · obtain ⟨text, safe⟩ := value
          obtain ⟨text', safe'⟩ := path
          cases hvalue
          rfl
    · rw [if_neg hkey]
      exact ⟨.inl, fun hvalue => hvalue.resolve_right fun heq => hkey (Prod.mk.inj heq).1⟩

section Validate
variable {index : ShardIndex} {inventory : Inventory} {cancellation : CancellationToken}

/-- An entry passes when the tensor of its name is in the file of its path. -/
theorem validateShardEntry_eq_ok (hc : cancellation.cancelled = false)
    {entry : String × RepoPath} :
    validateShardEntry inventory cancellation entry = .ok () ↔
      ∃ tensor ∈ inventory.tensors, tensor.name = entry.1 ∧
        inventory.shardOf tensor = some entry.2 := by
  unfold validateShardEntry Inventory.shardOf
  rw [CancellationToken.check_eq_ok hc]
  constructor
  · intro h
    obtain ⟨_, _, h⟩ := bind_ok h
    obtain ⟨tensor, htensor, h⟩ := bind_ok h
    obtain ⟨file, hfile, h⟩ := bind_ok h
    obtain ⟨hmem, hname⟩ := Inventory.tensor_eq_some.mp (okOr_eq_ok.mp htensor)
    refine ⟨tensor, hmem, hname, ?_⟩
    rw [okOr_eq_ok.mp hfile, Option.map_some, not_not.mp (unless_error_ok h).1]
  · rintro ⟨tensor, hmem, hname, hshard⟩
    obtain ⟨file, hfile, hpath⟩ := Option.map_eq_some_iff.mp hshard
    rw [Inventory.tensor_eq_some.mpr ⟨hmem, hname⟩]
    show (okOr inventory.files[tensor.storage.span.file]? _ >>= _) = _
    rw [hfile]
    exact if_neg (not_not.mpr hpath)

/-- **The check compares the maps.** The sizes agree and every name of the index
is found in its file exactly if the index maps each name of the inventory, and no
other name, to the path of the file that holds its tensor. -/
theorem validateShardIndex_eq_ok (hc : cancellation.cancelled = false) :
    validateShardIndex index inventory cancellation = .ok () ↔
      ∀ (name : String) (path : RepoPath), index.weightMap.get? name = some path ↔
        ∃ tensor ∈ inventory.tensors, tensor.name = name ∧
          inventory.shardOf tensor = some path := by
  have hkeys := index.weightMap.nodup_keys
  have hnames := inventory.names_nodup
  have hcheck : validateShardIndex index inventory cancellation = .ok () ↔
      index.weightMap.entries.length = inventory.tensors.length ∧
        ∀ entry ∈ index.weightMap.entries, ∃ tensor ∈ inventory.tensors,
          tensor.name = entry.1 ∧ inventory.shardOf tensor = some entry.2 := by
    simp only [← validateShardEntry_eq_ok hc, ← forM_eq_ok]
    unfold validateShardIndex
    rw [CancellationToken.check_eq_ok hc]
    by_cases hlength : index.weightMap.entries.length = inventory.tensors.length
    · rw [if_neg (not_not.mpr hlength), and_iff_right hlength]
      constructor
      · intro h
        obtain ⟨_, h, _⟩ := bind_ok h
        exact h
      · intro h
        rw [h]
        rfl
    · rw [if_pos hlength]
      exact ⟨fun h => (by cases h), fun h => absurd h.1 hlength⟩
  rw [hcheck]
  constructor
  · rintro ⟨hlength, hentries⟩ name path
    rw [OrderedMap.get?_eq_some]
    refine ⟨fun h => hentries (name, path) h, ?_⟩
    rintro ⟨tensor, hmem, rfl, hshard⟩
    -- as many names, and none is missing: the name is in the index
    have hsubset : index.weightMap.entries.map Prod.fst ⊆ inventory.tensors.map TensorRecord.name := by
      intro key hkey
      obtain ⟨entry, he, rfl⟩ := List.mem_map.mp hkey
      obtain ⟨other, hother, hname, _⟩ := hentries entry he
      exact List.mem_map.mpr ⟨other, hother, hname⟩
    have hperm := (hkeys.subperm hsubset).perm_of_length_le (by simp [hlength])
    obtain ⟨entry, he, hname⟩ := List.mem_map.mp (hperm.mem_iff.mpr
      (List.mem_map_of_mem hmem))
    obtain ⟨other, hother, hname', hshard'⟩ := hentries entry he
    obtain rfl : other = tensor := List.inj_on_of_nodup_map hnames hother hmem (hname'.trans hname)
    rw [hshard] at hshard'
    obtain ⟨key, value⟩ := entry
    cases hshard'
    cases hname
    exact he
  · intro h
    refine ⟨?_, fun entry he => (h entry.1 entry.2).mp (OrderedMap.get?_eq_some.mpr he)⟩
    have hperm : (index.weightMap.entries.map Prod.fst).Perm
        (inventory.tensors.map TensorRecord.name) := by
      rw [List.perm_ext_iff_of_nodup hkeys hnames]
      intro name
      constructor
      · intro hname
        obtain ⟨entry, he, rfl⟩ := List.mem_map.mp hname
        obtain ⟨tensor, hmem, hname, _⟩ := (h entry.1 entry.2).mp (OrderedMap.get?_eq_some.mpr he)
        exact List.mem_map.mpr ⟨tensor, hmem, hname⟩
      · intro hname
        obtain ⟨tensor, hmem, rfl⟩ := List.mem_map.mp hname
        obtain ⟨file, hfile⟩ := inventory.file_of_mem hmem
        have hshard : inventory.shardOf tensor = some file.path := by
          unfold Inventory.shardOf
          rw [hfile]
          rfl
        have hget := (h tensor.name file.path).mpr ⟨tensor, hmem, rfl, hshard⟩
        exact List.mem_map.mpr ⟨_, OrderedMap.get?_eq_some.mp hget, rfl⟩
    simpa using hperm.length_eq

end Validate

end ModelWeights
