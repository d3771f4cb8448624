import ModelWeights.Inventory.Records
import ModelWeights.Overlay.Layer
import ModelWeights.Plan.Codec

/-! # Inventory documents

The data of an inventory as its JSON holds it. Printing and parsing JSON are
parameters, but a string of a document stands as it is between its quotes: some
wire types of the source own the strings they read, and others borrow them from
the text, which only a string without escapes allows. -/
namespace ModelWeights
open Parsing
open Overlay (hexByte)
open Prepared (SourceKind)

/-! ## Strings -/

/-- A string of a JSON text, as it stands between its quotes. -/
structure StringToken where
  raw : List Char
  deriving DecidableEq, Repr

namespace StringToken

/-- The string that the compact writer makes of a text. -/
def write (text : String) : StringToken := ⟨text.toList.flatMap Json.escape⟩

/-- `Box::<str>::deserialize`. -/
def read (token : StringToken) : Option String :=
  (Json.unescapeAll token.raw.length token.raw).map String.ofList

/-- `<&str>::deserialize`. -/
def borrow (token : StringToken) : Option String :=
  if '\\' ∈ token.raw then none else some (String.ofList token.raw)

/-- What is written is read back. -/
theorem read_write (text : String) : (write text).read = some text := by
  rw [read, write, Json.unescapeAll_escape _ _ (Nat.le_refl _), Option.map_some, String.ofList_toList]

/-- A text that needs no escape is borrowed. -/
theorem borrow_write {text : String} (h : ∀ c ∈ text.toList, '\\' ∉ Json.escape c) :
    (write text).borrow = some text := by
  have hplain : text.toList.flatMap Json.escape = text.toList := by
    rw [List.flatMap_congr fun c hc => Json.escape_of_not_mem (h c hc)]
    exact List.flatMap_singleton' text.toList
  have hraw : '\\' ∉ (write text).raw := by
    intro hmem
    obtain ⟨c, hc, hescape⟩ := List.mem_flatMap.mp hmem
    exact h c hc hescape
  rw [borrow, if_neg hraw, write, hplain, String.ofList_toList]

theorem borrow_write_none {text : String} {c : Char} (hc : c ∈ text.toList)
    (h : '\\' ∈ Json.escape c) : (write text).borrow = none :=
  if_pos (List.mem_flatMap.mpr ⟨c, hc, h⟩)

end StringToken

/-- Of the characters of a path only a quotation mark needs an escape. -/
theorem RepoPath.escaped_iff {path : RepoPath} {c : Char} (hc : c ∈ path.text.toList) :
    '\\' ∈ Json.escape c ↔ c = '"' := by
  have hsafe := path.safe
  unfold safeRepoPath at hsafe
  simp only [Bool.and_eq_true, Bool.not_eq_true', Bool.or_eq_false_iff] at hsafe
  obtain ⟨⟨⟨⟨⟨⟨_, hbackslash⟩, _⟩, hcontrol⟩, _⟩, _⟩, _⟩ := hsafe
  have hne : c ≠ '\\' := by
    rintro rfl
    rw [List.contains_iff_mem.mpr hc] at hbackslash
    cases hbackslash
  have hprintable : 32 ≤ c.toNat := by
    have := List.any_eq_false.mp hcontrol c hc
    simp only [isControl, Bool.or_eq_true, decide_eq_true_eq, not_or] at this
    omega
  constructor
  · intro hmem
    by_contra hquote
    have hshort : Json.shortEscape c = none := by
      unfold Json.shortEscape
      split <;> first | rfl | contradiction
    rw [Json.escape, hshort] at hmem
    rw [if_neg (Nat.not_lt.mpr hprintable), List.mem_singleton] at hmem
    exact hne hmem.symm
  · rintro rfl
    decide

/-! ## Digests -/

/-- `Display` of a digest: its 64 hexadecimal digits. -/
def ContentDigest.text (digest : ContentDigest) : String :=
  String.ofList (digest.bytes.flatMap hexByte)

def decodeHex (byte : UInt8) : Option UInt8 :=
  if 48 ≤ byte ∧ byte ≤ 57 then some (byte - 48)
  else if 97 ≤ byte ∧ byte ≤ 102 then some (byte - 97 + 10)
  else if 65 ≤ byte ∧ byte ≤ 70 then some (byte - 65 + 10)
  else none

/-- The loop over the pairs of digits. -/
def decodePairs : List UInt8 → Result (List UInt8)
  | first :: second :: rest => do
    let high ← okOr (decodeHex first)
      (.invalid "SHA-256 digest contains a non-hexadecimal character")
    let low ← okOr (decodeHex second)
      (.invalid "SHA-256 digest contains a non-hexadecimal character")
    let bytes ← decodePairs rest
    .ok ((high <<< 4 ||| low) :: bytes)
  | _ => .ok []

theorem decodePairs_length : ∀ {text bytes : List UInt8}, decodePairs text = .ok bytes →
    bytes.length = text.length / 2
  | [], bytes, h => by
    obtain rfl := Except.ok.inj h
    rfl
  | [_], bytes, h => by
    obtain rfl := Except.ok.inj h
    simp
  | first :: second :: rest, bytes, h => by
    obtain ⟨_, _, h⟩ := bind_ok h
    obtain ⟨_, _, h⟩ := bind_ok h
    obtain ⟨tail, htail, h⟩ := bind_ok h
    obtain rfl := Except.ok.inj h
    rw [List.length_cons, decodePairs_length htail]
    simp only [List.length_cons]
    omega

/-- `FromStr` of a digest. -/
def ContentDigest.fromStr (value : String) : Result ContentDigest :=
  if hlength : (utf8 value).length ≠ 64 then
    .error (.invalid "SHA-256 digest must contain exactly 64 hexadecimal characters")
  else
    match hbytes : decodePairs (utf8 value) with
    | .error e => .error e
    | .ok bytes => .ok ⟨bytes, by rw [decodePairs_length hbytes, not_not.mp hlength]⟩

/-- A digit is one byte, and stands for itself. -/
theorem decodeHex_hexDigit : ∀ n < 16,
    (String.utf8EncodeChar (Json.hexDigit n)).map decodeHex = [some (UInt8.ofNat n)] ∧
      '\\' ∉ Json.escape (Json.hexDigit n) := by
  decide

theorem nibbles_join : ∀ n < 256,
    UInt8.ofNat (n / 16) <<< 4 ||| UInt8.ofNat (n % 16) = UInt8.ofNat n := by
  decide +kernel

/-- The two digits of a byte are two bytes of the text, and are read as it. -/
theorem hexByte_encoded (byte : UInt8) : ∃ first second : UInt8,
    (hexByte byte).flatMap String.utf8EncodeChar = [first, second] ∧
      ∀ rest, decodePairs (first :: second :: rest) =
        (do .ok (byte :: (← decodePairs rest))) := by
  have hlt := byte.toNat_lt
  obtain ⟨hhigh, _⟩ := decodeHex_hexDigit (byte.toNat / 16) (by omega)
  obtain ⟨hlow, _⟩ := decodeHex_hexDigit (byte.toNat % 16) (by omega)
  obtain ⟨first, hfirst, hdecode⟩ := List.map_eq_singleton_iff.mp hhigh
  obtain ⟨second, hsecond, hdecode'⟩ := List.map_eq_singleton_iff.mp hlow
  refine ⟨first, second, ?_, fun rest => ?_⟩
  · simp only [hexByte, List.flatMap_cons, List.flatMap_nil, hfirst, hsecond, List.append_nil,
      List.singleton_append]
  · have hjoin := nibbles_join byte.toNat hlt
    rw [UInt8.ofNat_toNat] at hjoin
    rw [decodePairs, hdecode, hdecode']
    simp only [okOr, bind, Except.bind, hjoin]

theorem decodePairs_hexBytes (bytes : List UInt8) :
    ((bytes.flatMap hexByte).flatMap String.utf8EncodeChar).length = 2 * bytes.length ∧
      decodePairs ((bytes.flatMap hexByte).flatMap String.utf8EncodeChar) = .ok bytes := by
  induction bytes with
  | nil => exact ⟨rfl, rfl⟩
  | cons byte bytes ih =>
    obtain ⟨hlength, hdecode⟩ := ih
    obtain ⟨first, second, hencode, hread⟩ := hexByte_encoded byte
    rw [List.flatMap_cons, List.flatMap_append, hencode, List.cons_append, List.singleton_append]
    refine ⟨?_, ?_⟩
    · rw [List.length_cons, List.length_cons, List.length_cons, hlength]
      omega
    · rw [hread, hdecode]
      rfl

/-- A digest is read back from its text. -/
theorem ContentDigest.fromStr_text (digest : ContentDigest) :
    ContentDigest.fromStr digest.text = .ok digest := by
  obtain ⟨hlength, hdecode⟩ := decodePairs_hexBytes digest.bytes
  have hlength : (utf8 digest.text).length = 64 := by
    rw [text, utf8_ofList, hlength, digest.length_eq]
  have hdecode : decodePairs (utf8 digest.text) = .ok digest.bytes := by
    rw [text, utf8_ofList, hdecode]
  unfold ContentDigest.fromStr
  rw [dif_neg (not_not.mpr hlength)]
  split
  · next e he =>
    rw [hdecode] at he
    cases he
  · next bytes hbytes =>
    rw [hdecode] at hbytes
    cases hbytes
    rfl

theorem ContentDigest.text_plain (digest : ContentDigest) :
    ∀ c ∈ digest.text.toList, '\\' ∉ Json.escape c := by
  intro c hc
  rw [text, String.toList_ofList] at hc
  obtain ⟨byte, _, hc⟩ := List.mem_flatMap.mp hc
  have hlt := byte.toNat_lt
  rcases List.mem_pair.mp hc with rfl | rfl
  · exact (decodeHex_hexDigit _ (by omega)).2
  · exact (decodeHex_hexDigit _ (by omega)).2

/-! ## Documents -/

/-- `SourceKind` as a string. -/
def kindText : SourceKind → String
  | .local => "local"
  | .retainedSnapshot => "retained_snapshot"

def kindOfText : String → Option SourceKind
  | "local" => some .local
  | "retained_snapshot" => some .retainedSnapshot
  | _ => none

inductive DigestDocument where
  | deferred
  | expected (digest : StringToken)
  | trusted (digest : StringToken)
  deriving DecidableEq, Repr

structure FileDocument where
  id : Nat
  path : StringToken
  size : Nat
  kind : StringToken
  digest : DigestDocument
  deriving DecidableEq, Repr

/-- A tensor, with its storage as a document of its own. -/
structure TensorDocument where
  name : StringToken
  shape : List Nat
  storage : Storage
  deriving DecidableEq

structure InventoryDocument where
  files : List FileDocument
  tensors : List TensorDocument
  deriving DecidableEq

/-! ### Serialization -/

def DigestState.document : DigestState → DigestDocument
  | .deferred => .deferred
  | .expected digest => .expected (.write digest.text)
  | .trusted digest => .trusted (.write digest.text)

def FileRecord.document (file : FileRecord) : FileDocument :=
  ⟨file.id, .write file.path.text, file.size, .write (kindText file.kind), file.digest.document⟩

def TensorRecord.document (tensor : TensorRecord) : TensorDocument :=
  ⟨.write tensor.name, tensor.shape, tensor.storage⟩

def Inventory.document (inventory : Inventory) : InventoryDocument :=
  ⟨inventory.files.map FileRecord.document, inventory.tensors.map TensorRecord.document⟩

/-! ### Deserialization -/

def decodeDigest (token : StringToken) : Option ContentDigest := do
  (ContentDigest.fromStr (← token.borrow)).toOption

def DigestDocument.decode : DigestDocument → Option DigestState
  | .deferred => some .deferred
  | .expected digest => (decodeDigest digest).map .expected
  | .trusted digest => (decodeDigest digest).map .trusted

/-- `RepoPath::deserialize`. -/
def decodePath (token : StringToken) : Option RepoPath := do
  (RepoPath.parse (← token.borrow)).toOption

/-- `SourceKind::deserialize`. -/
def decodeKind (token : StringToken) : Option SourceKind := do
  kindOfText (← token.borrow)

def FileDocument.decode (d : FileDocument) : Option FileRecord := do
  let path ← decodePath d.path
  let kind ← decodeKind d.kind
  let digest ← d.digest.decode
  some ⟨d.id, path, d.size, kind, digest⟩

def TensorDocument.decode (d : TensorDocument) : Option TensorRecord := do
  let name ← d.name.read
  let storage ← d.storage.decode
  some ⟨name, d.shape, storage⟩

/-- `InventoryWire` and its `TryFrom`. -/
def InventoryDocument.decode (d : InventoryDocument) : Option Inventory := do
  let files ← d.files.mapM FileDocument.decode
  let tensors ← d.tensors.mapM TensorDocument.decode
  (Inventory.new files tensors).toOption

/-- The JSON text of a document, and the document of a text. -/
structure InventoryJson where
  print : InventoryDocument → List UInt8
  parse : List UInt8 → Option InventoryDocument

def Inventory.serialize (json : InventoryJson) (inventory : Inventory) : List UInt8 :=
  json.print inventory.document

def Inventory.deserialize (json : InventoryJson) (text : List UInt8) : Option Inventory :=
  (json.parse text).bind InventoryDocument.decode

/-- The storage of every tensor was made by its constructors. -/
def Inventory.Made (inventory : Inventory) : Prop :=
  ∀ tensor ∈ inventory.tensors, tensor.storage.Made

/-! ## Round trips -/

theorem mapM_none_of_mem {α β : Type} {decode : α → Option β} {a : α} (ha : decode a = none) :
    ∀ {l : List α}, a ∈ l → l.mapM decode = none
  | [], h => absurd h List.not_mem_nil
  | b :: l, h => by
    rw [List.mapM_cons]
    rcases List.mem_cons.mp h with rfl | h
    · rw [ha]
      rfl
    · cases hb : decode b with
      | none => rfl
      | some c =>
        rw [mapM_none_of_mem ha h]
        rfl

theorem decodeDigest_text (digest : ContentDigest) :
    decodeDigest (.write digest.text) = some digest := by
  rw [decodeDigest, StringToken.borrow_write digest.text_plain]
  show (ContentDigest.fromStr digest.text).toOption = _
  rw [ContentDigest.fromStr_text]
  rfl

theorem DigestState.document_decode (state : DigestState) :
    state.document.decode = some state := by
  cases state with
  | deferred => rfl
  | expected digest => rw [document, DigestDocument.decode, decodeDigest_text, Option.map_some]
  | trusted digest => rw [document, DigestDocument.decode, decodeDigest_text, Option.map_some]

theorem decodeKind_text (kind : SourceKind) :
    decodeKind (.write (kindText kind)) = some kind := by
  cases kind <;> decide +kernel

/-- A path is read back if nothing in it is escaped. -/
theorem decodePath_text {path : RepoPath} (h : '"' ∉ path.text.toList) :
    decodePath (.write path.text) = some path := by
  have hplain : ∀ c ∈ path.text.toList, '\\' ∉ Json.escape c := by
    intro c hc hescape
    exact h ((RepoPath.escaped_iff hc).mp hescape ▸ hc)
  rw [decodePath, StringToken.borrow_write hplain]
  show (RepoPath.parse path.text).toOption = _
  rw [RepoPath.parse_eq_ok.mpr rfl]
  rfl

theorem decodePath_none {path : RepoPath} (h : '"' ∈ path.text.toList) :
    decodePath (.write path.text) = none := by
  rw [decodePath, StringToken.borrow_write_none h ((RepoPath.escaped_iff h).mpr rfl)]
  rfl

theorem FileRecord.document_decode {file : FileRecord} (h : '"' ∉ file.path.text.toList) :
    file.document.decode = some file := by
  simp only [FileDocument.decode, document, decodePath_text h, decodeKind_text,
    file.digest.document_decode]
  rfl

theorem TensorRecord.document_decode {tensor : TensorRecord} (h : tensor.storage.Made) :
    tensor.document.decode = some tensor := by
  simp only [TensorDocument.decode, document, StringToken.read_write,
    tensor.storage.decode_of_made h]
  rfl

section RoundTrip
variable {inventory : Inventory}

theorem Inventory.document_decode (hmade : inventory.Made)
    (h : ∀ file ∈ inventory.files, '"' ∉ file.path.text.toList) :
    inventory.document.decode = some inventory := by
  have hfiles : inventory.document.files.mapM FileDocument.decode = some inventory.files :=
    Plan.mapM_decode_eq _ _ fun file hf => file.document_decode (h file hf)
  have htensors : inventory.document.tensors.mapM TensorDocument.decode =
      some inventory.tensors :=
    Plan.mapM_decode_eq _ _ fun tensor ht => tensor.document_decode (hmade tensor ht)
  rw [InventoryDocument.decode, hfiles, htensors]
  show (Inventory.new inventory.files inventory.tensors).toOption = _
  rw [inventory.new_self]
  rfl

/-- Nothing is read of an inventory with an escape in a path. -/
theorem Inventory.document_decode_none {file : FileRecord} (hf : file ∈ inventory.files)
    (h : '"' ∈ file.path.text.toList) : inventory.document.decode = none := by
  have hfile : file.document.decode = none := by
    rw [FileDocument.decode, FileRecord.document, decodePath_none h]
    rfl
  have hfiles : inventory.document.files.mapM FileDocument.decode = none :=
    mapM_none_of_mem hfile (List.mem_map_of_mem hf)
  rw [InventoryDocument.decode, hfiles]
  rfl

end RoundTrip

/-- **Round trips.** An inventory is read back from its JSON text exactly when no
path of its files has a quotation mark. -/
theorem Inventory.deserialize_serialize_iff (json : InventoryJson) (inventory : Inventory)
    (hmade : inventory.Made)
    (hfaithful : json.parse (json.print inventory.document) = some inventory.document) :
    deserialize json (inventory.serialize json) = some inventory ↔
      ∀ file ∈ inventory.files, '"' ∉ file.path.text.toList := by
  have hdecode : deserialize json (inventory.serialize json) = inventory.document.decode := by
    rw [deserialize, serialize, hfaithful, Option.bind_some]
  rw [hdecode]
  constructor
  · intro h file hf hquote
    rw [Inventory.document_decode_none hf hquote] at h
    cases h
  · exact Inventory.document_decode hmade

/-! ## Two inventories -/

namespace Sample

/-- A file that can be found at a path. -/
def file (path : RepoPath) : FileRecord := ⟨0, path, 80, .local, .deferred⟩

def tensor : TensorRecord := ⟨"w\"", [2], .plain .f32 ⟨0, 72, 8⟩⟩

def inventory (path : RepoPath) : Inventory :=
  ⟨[file path], [tensor], List.pairwise_singleton _ _, rfl⟩

def text (path : String) : List UInt8 :=
  utf8 ("\x7b\"files\":[\x7b\"id\":0,\"path\":\"" ++ path ++ "\",\"size\":80,\"kind\":\"local\"," ++
    "\"digest\":\"Deferred\"\x7d],\"tensors\":[\x7b\"name\":\"w\\\"\",\"shape\":[2]," ++
    "\"storage\":\x7b\"Plain\":\x7b\"dtype\":\"F32\",\"span\":\x7b\"file\":0," ++
    "\"offset\":72,\"length\":8\x7d\x7d\x7d\x7d]\x7d")

/-- JSON on the document of one inventory. -/
def json (path : RepoPath) (escaped : String) : InventoryJson where
  print _ := text escaped
  parse bytes := if bytes = text escaped then some (inventory path).document else none

theorem json_faithful (path : RepoPath) (escaped : String) :
    (json path escaped).parse ((json path escaped).print (inventory path).document) =
      some (inventory path).document := by
  simp only [json, if_true]

theorem inventory_made (path : RepoPath) : (inventory path).Made := by
  intro t ht
  obtain rfl := List.mem_singleton.mp ht
  have hspan : SourceSpan.valid ⟨0, 72, 8⟩ = true := by decide +kernel
  exact hspan

theorem plainPath_safe : safeRepoPath "w.safetensors" = true := by decide +kernel

theorem quotedPath_safe : safeRepoPath "a\".safetensors" = true := by decide +kernel

def plainPath : RepoPath := ⟨_, plainPath_safe⟩

def quotedPath : RepoPath := ⟨_, quotedPath_safe⟩

end Sample

theorem Inventory.deserialize_serialize_plain :
    Inventory.deserialize (Sample.json Sample.plainPath "w.safetensors")
        (Sample.text "w.safetensors") = some (Sample.inventory Sample.plainPath) :=
  (Inventory.deserialize_serialize_iff (Sample.json Sample.plainPath "w.safetensors")
    (Sample.inventory Sample.plainPath) (Sample.inventory_made _) (Sample.json_faithful _ _)).mpr
      (List.forall_mem_singleton.mpr (by decide +kernel))

theorem Inventory.deserialize_serialize_quoted :
    (Sample.inventory Sample.quotedPath).Made ∧
      (Sample.json Sample.quotedPath "a\\\".safetensors").parse
          ((Sample.inventory Sample.quotedPath).serialize
            (Sample.json Sample.quotedPath "a\\\".safetensors")) =
        some (Sample.inventory Sample.quotedPath).document ∧
      Inventory.deserialize (Sample.json Sample.quotedPath "a\\\".safetensors")
        ((Sample.inventory Sample.quotedPath).serialize
          (Sample.json Sample.quotedPath "a\\\".safetensors")) = none := by
  have hfaithful := Sample.json_faithful Sample.quotedPath "a\\\".safetensors"
  refine ⟨Sample.inventory_made _, hfaithful, ?_⟩
  rw [deserialize, serialize, hfaithful, Option.bind_some]
  exact Inventory.document_decode_none (List.mem_singleton_self _) (by decide +kernel)

end ModelWeights
