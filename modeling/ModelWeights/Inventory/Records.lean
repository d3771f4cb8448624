import ModelWeights.Identity
import ModelWeights.Storage
import ModelWeights.Lib.BinarySearch
import ModelWeights.Lib.Canonical
import ModelWeights.Prepared.Checkpoint

/-! # Checkpoint inventories

`inventory.rs`: the files and tensors of a checkpoint. An `Inventory` exists only
if its constructor has checked it; its tensors are in the strict order of their
names, on which the lookup by binary search rests. -/
namespace ModelWeights
open Canonical BinarySearch
open Prepared (SourceKind)

/-! ## Repository paths -/

/-- `char::is_control`: the category Cc. -/
def isControl (c : Char) : Bool := c.toNat < 32 || (127 ≤ c.toNat && c.toNat < 160)

/-- What `RepoPath::parse` asks of a text. The components that the platform could
take for a root or a parent are refused as texts already. -/
def safeRepoPath (value : String) : Bool :=
  let chars := value.toList
  let invalidText := chars.isEmpty || chars.contains '\\' || chars.contains ':' ||
    chars.any isControl || chars.head? == some '/' || chars.getLast? == some '/'
  let invalidComponent := (chars.splitOn '/').any fun component =>
    component.isEmpty || component == ['.'] || component == ['.', '.']
  !invalidText && !invalidComponent

/-- A safe path in a repository, with slashes between its components. -/
structure RepoPath where
  text : String
  safe : safeRepoPath text = true
  deriving DecidableEq, Repr

def RepoPath.parse (value : String) : Result RepoPath :=
  if h : safeRepoPath value = true then .ok ⟨value, h⟩
  else .error ⟨.invalidPath, "repository path must be a safe slash-separated relative path"⟩

instance : LinearOrder RepoPath :=
  LinearOrder.lift' RepoPath.text fun a b h => by
    cases a
    cases b
    cases h
    rfl

theorem RepoPath.parse_eq_ok {value : String} {path : RepoPath} :
    RepoPath.parse value = .ok path ↔ path.text = value := by
  unfold RepoPath.parse
  constructor
  · intro h
    split at h
    · cases h
      rfl
    · cases h
  · rintro rfl
    rw [dif_pos path.safe]

/-! ## Files -/

inductive DigestPolicy where
  | computeOnDemand
  | verifyOnDemand (digest : ContentDigest)
  | trustExternal (digest : ContentDigest)
  | trustRetained (digest : ContentDigest)
  deriving DecidableEq, Repr

/-- How the digest of a file was established. -/
inductive DigestState where
  | deferred
  | expected (digest : ContentDigest)
  | trusted (digest : ContentDigest)
  deriving DecidableEq, Repr

/-- `From<DigestPolicy>`. -/
def DigestState.ofPolicy : DigestPolicy → DigestState
  | .computeOnDemand => .deferred
  | .verifyOnDemand digest => .expected digest
  | .trustExternal digest => .trusted digest
  | .trustRetained digest => .trusted digest

structure FileRecord where
  id : FileId
  path : RepoPath
  size : Nat
  kind : SourceKind
  digest : DigestState
  deriving DecidableEq, Repr

/-! ## The checks -/

/-- The number of values of a `u32`. -/
def u32Size : Nat := 2 ^ 32

/-- The loop over the files, from the ordinal `index` on. -/
def checkFiles : (index : Nat) → (previous : Option RepoPath) → List FileRecord → Result Unit
  | _, _, [] => .ok ()
  | index, previous, file :: rest =>
    if index ≥ u32Size then .error (.limit "inventory file ordinal exceeds u32")
    else if file.id ≠ index then
      .error (.invalid "inventory file identifier differs from its canonical ordinal")
    else if previous.any fun previous => file.path ≤ previous then
      .error (.invalid "checkpoint source files are not in unique deterministic order")
    else checkFiles (index + 1) (some file.path) rest

def validateInventorySpan (files : List FileRecord) (span : SourceSpan) : Result Unit := do
  let file ← okOr files[span.file]?
    (.invalid "inventory storage refers to an unknown source file")
  if span.finish > file.size then
    .error (.invalid "inventory storage span extends beyond its source file")
  else .ok ()

def checkStorage (files : List FileRecord) (tensor : TensorRecord) : Result Unit :=
  match tensor.storage with
  | .plain dtype span => do
    let length ← dtype.byteLen tensor.shape
    if length ≠ span.length then
      .error (.invalid "inventory plain storage length disagrees with dtype and shape")
    else validateInventorySpan files span
  | .quantized storage =>
    if storage.logicalShape ≠ tensor.shape then
      .error (.invalid "inventory quantized shape disagrees with its tensor shape")
    else do
      validateInventorySpan files storage.payload
      (storage.companions.entries.map Prod.snd).forM fun companion =>
        validateInventorySpan files companion.span

def checkTensor (files : List FileRecord) (tensor : TensorRecord) : Result Unit :=
  if tensor.name.isEmpty then .error (.invalid "inventory tensor name must not be empty")
  else checkStorage files tensor

/-- The checks of `Inventory::new` on sorted tensors. -/
def checkInventory (files : List FileRecord) (tensors : List TensorRecord) : Result Unit := do
  if files.isEmpty then
    .error (.invalid "checkpoint inventory must contain at least one source file")
  else
    checkFiles 0 none files
    if hasAdjacentDuplicate (tensors.map TensorRecord.name) then
      .error (.invalid "checkpoint contains a duplicate tensor name across source files")
    else tensors.forM (checkTensor files)

/-- The files and tensors that the constructor has accepted. -/
structure Inventory where
  files : List FileRecord
  tensors : List TensorRecord
  sorted : tensors.Pairwise fun a b => a.name ≤ b.name
  checked : checkInventory files tensors = .ok ()

namespace Inventory

def new (files : List FileRecord) (tensors : List TensorRecord) : Result Inventory :=
  match h : checkInventory files (insertionKeySort.sort TensorRecord.name tensors) with
  | .ok () => .ok ⟨files, insertionKeySort.sort TensorRecord.name tensors,
      insertionKeySort.sorted TensorRecord.name tensors, h⟩
  | .error e => .error e

/-- `Inventory::tensor`. -/
def tensor (inventory : Inventory) (name : String) : Option TensorRecord :=
  findBy TensorRecord.name name inventory.tensors

/-! ## What the checks establish -/

theorem new_ok {files : List FileRecord} {tensors : List TensorRecord} {inventory : Inventory}
    (h : new files tensors = .ok inventory) :
    inventory.files = files ∧ inventory.tensors.Perm tensors := by
  unfold new at h
  split at h
  · cases h
    exact ⟨rfl, insertionKeySort.perm _ _⟩
  · cases h

theorem ext {a b : Inventory} (hfiles : a.files = b.files) (htensors : a.tensors = b.tensors) :
    a = b := by
  cases a
  cases b
  cases hfiles
  cases htensors
  rfl

/-- An inventory is accepted again as it is. -/
theorem new_self (inventory : Inventory) :
    new inventory.files inventory.tensors = .ok inventory := by
  have hsorted : insertionKeySort.sort TensorRecord.name inventory.tensors = inventory.tensors :=
    inventory.sorted.insertionSort_eq
  unfold new
  split
  · exact congrArg Except.ok (ext rfl hsorted)
  · next e he =>
    rw [hsorted, inventory.checked] at he
    cases he

section Checked
variable {inventory : Inventory}

/-- What the constructor has checked. -/
theorem checked_ok (inventory : Inventory) :
    checkFiles 0 none inventory.files = .ok () ∧
      hasAdjacentDuplicate (inventory.tensors.map TensorRecord.name) = false ∧
      inventory.tensors.forM (checkTensor inventory.files) = .ok () := by
  have h := inventory.checked
  unfold checkInventory at h
  obtain ⟨_, h⟩ := unless_error_ok h
  obtain ⟨_, hfiles, h⟩ := bind_ok h
  obtain ⟨hdup, htensors⟩ := unless_error_ok h
  exact ⟨hfiles, Bool.eq_false_iff.mpr hdup, htensors⟩

/-- The names are in strict order. -/
theorem names_sorted (inventory : Inventory) :
    inventory.tensors.Pairwise fun a b => a.name < b.name := by
  have hle := List.pairwise_map.mpr inventory.sorted
  have hnodup := (hasAdjacentDuplicate_eq_false hle).mp inventory.checked_ok.2.1
  rw [List.nodup_iff_pairwise_ne, List.pairwise_map] at hnodup
  exact inventory.sorted.imp₂ (fun _ _ hle hne => lt_of_le_of_ne hle hne) hnodup

theorem names_nodup (inventory : Inventory) : (inventory.tensors.map TensorRecord.name).Nodup :=
  (hasAdjacentDuplicate_eq_false (List.pairwise_map.mpr inventory.sorted)).mp
    inventory.checked_ok.2.1

/-- The lookup finds exactly the tensors of the inventory. -/
theorem tensor_eq_some {name : String} {tensor : TensorRecord} :
    inventory.tensor name = some tensor ↔ tensor ∈ inventory.tensors ∧ tensor.name = name :=
  findBy_eq_some inventory.names_sorted

/-- The file of a tensor is in the inventory. -/
theorem file_of_mem {tensor : TensorRecord} (h : tensor ∈ inventory.tensors) :
    ∃ file, inventory.files[tensor.storage.span.file]? = some file := by
  have hcheck := forM_eq_ok.mp inventory.checked_ok.2.2 tensor h
  obtain ⟨_, hcheck⟩ := unless_error_ok hcheck
  have hspan : validateInventorySpan inventory.files tensor.storage.span = .ok () := by
    unfold checkStorage at hcheck
    cases hst : tensor.storage with
    | plain dtype span =>
      rw [hst] at hcheck
      obtain ⟨_, _, hcheck⟩ := bind_ok hcheck
      exact (unless_error_ok hcheck).2
    | quantized storage =>
      rw [hst] at hcheck
      obtain ⟨_, hcheck⟩ := unless_error_ok hcheck
      obtain ⟨_, hspan, _⟩ := bind_ok hcheck
      exact hspan
  obtain ⟨file, hfile, _⟩ := bind_ok hspan
  exact ⟨file, okOr_eq_ok.mp hfile⟩

end Checked

end Inventory

end ModelWeights
