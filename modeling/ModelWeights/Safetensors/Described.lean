import ModelWeights.Lib.Success
import ModelWeights.Safetensors.Header

/-! # Which documents are headers

A document is accepted exactly when it is a way to write a header down: every name
once, at most one metadata map, and for each tensor its three fields in some order. -/
namespace ModelWeights.Safetensors
open Json (Document)
open Parsing

/-! ## What the visitors look for -/

/-- The fields of a tensor as an object has them. -/
def RawTensor.members (tensor : RawTensor) : List (String × Document) :=
  [("dtype", .text tensor.dtype), ("shape", .array (tensor.shape.map .natural) true),
    ("data_offsets", .array [.natural tensor.dataOffsets.1, .natural tensor.dataOffsets.2] true)]

/-- The document is the object of the tensor's fields, in any order. -/
structure RawTensor.Describes (limits : HeaderLimits) (tensor : RawTensor)
    (document : Document) : Prop where
  fields : ∃ members, document = .object members true ∧ members.Perm tensor.members
  dtype : (utf8 tensor.dtype).length ≤ limits.maxNameBytes
  rank : tensor.shape.length ≤ limits.maxRank
  shape : ∀ dimension ∈ tensor.shape, dimension < u64Size
  dataOffsets : tensor.dataOffsets.1 < u64Size ∧ tensor.dataOffsets.2 < u64Size

/-- The bytes that a metadata entry counts for. -/
def metadataBytes (entries : List (String × String)) : Nat :=
  (entries.map fun entry => (utf8 entry.1).length + (utf8 entry.2).length).sum

/-- Texts as the members of an object. -/
def textMembers (entries : List (String × String)) : List (String × Document) :=
  entries.map fun entry => (entry.1, .text entry.2)

/-- A map of texts, every key once. -/
def IsMetadata (limits : HeaderLimits) (document : Document) : Prop :=
  ∃ entries : List (String × String), document = .object (textMembers entries) true ∧
    (entries.map Prod.fst).Nodup ∧ metadataBytes entries ≤ limits.maxMetadataBytes

/-- The members of a header object with these tensors. -/
structure HeaderMembers (limits : HeaderLimits) (tensors : OrderedMap String RawTensor)
    (members : List (String × Document)) : Prop where
  count : tensors.entries.length ≤ limits.maxTensors
  names : (members.map Prod.fst).Nodup
  metadata : ∀ value, (metadataKey, value) ∈ members → IsMetadata limits value
  tensors : ∀ name tensor, tensors.get? name = some tensor ↔
    ∃ value, (name, value) ∈ members ∧ name ≠ metadataKey ∧ tensor.Describes limits value
  described : ∀ member ∈ members, member.1 ≠ metadataKey →
    member.1 ≠ "" ∧ (utf8 member.1).length ≤ limits.maxNameBytes ∧
      ∃ tensor : RawTensor, tensor.Describes limits member.2

/-- The document is a header object with these tensors. -/
def RawHeader.Describes (limits : HeaderLimits) (header : RawHeader) (document : Document) :
    Prop :=
  ∃ members, document = .object members true ∧ HeaderMembers limits header.tensors members

section Visitors
variable {limits : HeaderLimits} {cancellation : CancellationToken}

/-! ## Strings and numbers -/

theorem checkVisit_eq_ok {u : Unit} :
    checkVisit cancellation = .ok u ↔ cancellation.cancelled = false := by
  unfold checkVisit
  cases cancellation.cancelled <;> simp

theorem endOf_eq_ok {closed : Bool} {u : Unit} : endOf closed = .ok u ↔ closed = true := by
  cases closed <;> simp [endOf]

theorem headerString_eq_ok (hc : cancellation.cancelled = false) {maximum : Nat}
    {rejectEmpty : Bool} {limitMessage value text : String} :
    headerString cancellation maximum rejectEmpty limitMessage value = .ok text ↔
      text = value ∧ (utf8 value).length ≤ maximum ∧ (rejectEmpty = true → value ≠ "") := by
  simp only [headerString, validateHeaderString, bind_eq_ok_iff, guard_eq_ok_iff,
    checkVisit_eq_ok, hc, Except.ok.injEq, true_and, exists_const, not_or, Nat.not_lt, not_and,
    String.isEmpty_iff, and_true, gt_iff_lt]
  exact ⟨fun h => ⟨h.2.symm, h.1⟩, fun h => ⟨h.2, h.1.symm⟩⟩

theorem headerText_eq_ok (hc : cancellation.cancelled = false) {maximum : Nat}
    {rejectEmpty : Bool} {limitMessage text : String} {document : Document} :
    headerText cancellation maximum rejectEmpty limitMessage document = .ok text ↔
      document = .text text ∧ (utf8 text).length ≤ maximum ∧ (rejectEmpty = true → text ≠ "") := by
  cases document with
  | text value =>
    rw [headerText, headerString_eq_ok hc, Document.text.injEq]
    constructor
    · rintro ⟨rfl, h⟩
      exact ⟨rfl, h⟩
    · rintro ⟨rfl, h⟩
      exact ⟨rfl, h⟩
  | _ => simp [headerText, bind_eq_ok_iff]

theorem readU64_eq_ok {document : Document} {value : Nat} :
    readU64 document = .ok value ↔ document = .natural value ∧ value < u64Size := by
  cases document with
  | natural n =>
    rw [readU64, Document.natural.injEq]
    by_cases hn : n < u64Size
    · rw [if_pos hn, Except.ok.injEq]
      exact ⟨fun h => ⟨h, h ▸ hn⟩, And.left⟩
    · rw [if_neg hn]
      exact ⟨fun h => (by cases h), fun h => absurd (h.1 ▸ h.2) hn⟩
  | _ => simp [readU64]

theorem readU64Pair_eq_ok {document : Document} {pair : Nat × Nat} :
    readU64Pair document = .ok pair ↔
      document = .array [.natural pair.1, .natural pair.2] true ∧ pair.1 < u64Size ∧
        pair.2 < u64Size := by
  constructor
  · intro h
    unfold readU64Pair at h
    split at h
    · simp only [bind_eq_ok_iff, readU64_eq_ok, endOf_eq_ok, Except.ok.injEq] at h
      obtain ⟨a, ⟨rfl, ha⟩, b, ⟨rfl, hb⟩, _, rfl, rfl⟩ := h
      exact ⟨rfl, ha, hb⟩
    · cases h
  · rintro ⟨rfl, ha, hb⟩
    simp only [readU64Pair, bind_eq_ok_iff, readU64_eq_ok, endOf_eq_ok]
    exact ⟨pair.1, ⟨rfl, ha⟩, pair.2, ⟨rfl, hb⟩, (), trivial, rfl⟩

/-! ## Shapes -/

/-- The dimensions that were read are the items, within the limits. -/
theorem visitDimensions_eq_ok (hc : cancellation.cancelled = false) {items : List Document}
    {shape : List Nat} :
    items.foldlM (visitDimension limits cancellation) [] = .ok shape ↔
      items = shape.map .natural ∧ (∀ dimension ∈ shape, dimension < u64Size) ∧
        shape.length ≤ limits.maxRank := by
  refine foldlM_eq_ok_iff (fun items (shape : List Nat) => items = shape.map Document.natural ∧
    (∀ dimension ∈ shape, dimension < u64Size) ∧ shape.length ≤ limits.maxRank) ?_ ?_
  · intro shape
    constructor
    · rintro ⟨h, _⟩
      exact List.map_eq_nil_iff.mp h.symm
    · rintro rfl
      exact ⟨rfl, nofun, Nat.zero_le _⟩
  · intro items item shape'
    simp only [visitDimension, bind_eq_ok_iff, checkVisit_eq_ok, hc, readU64_eq_ok,
      guard_eq_ok_iff, Nat.not_le, Except.ok.injEq, exists_const, ge_iff_le, true_and]
    constructor
    · rintro ⟨h, hlt, hrank⟩
      obtain ⟨shape, last, rfl, rfl, hlast⟩ := List.map_eq_append_iff.mp h.symm
      obtain ⟨dimension, rfl, rfl⟩ := List.map_eq_singleton_iff.mp hlast
      rw [List.length_append, List.length_singleton] at hrank
      exact ⟨shape, ⟨rfl, fun d hd => hlt d (List.mem_append_left _ hd), by omega⟩, dimension,
        ⟨rfl, hlt dimension (List.mem_append_right _ (List.mem_singleton_self _))⟩, hrank, rfl⟩
    · rintro ⟨shape, ⟨rfl, hshape, _⟩, dimension, ⟨rfl, hlt⟩, hrank, rfl⟩
      refine ⟨by rw [List.map_append, List.map_singleton], ?_, ?_⟩
      · intro d hd
        rcases List.mem_append.mp hd with hd | hd
        · exact hshape d hd
        · rw [List.mem_singleton.mp hd]
          exact hlt
      · rw [List.length_append, List.length_singleton]
        exact hrank

theorem readShape_eq_ok (hc : cancellation.cancelled = false) {document : Document}
    {shape : List Nat} : readShape limits cancellation document = .ok shape ↔
      document = .array (shape.map .natural) true ∧ (∀ dimension ∈ shape, dimension < u64Size) ∧
        shape.length ≤ limits.maxRank := by
  cases document with
  | array items closed =>
    simp only [readShape, bind_eq_ok_iff, checkVisit_eq_ok, hc, visitDimensions_eq_ok hc,
      endOf_eq_ok, Except.ok.injEq, exists_const, true_and, Document.array.injEq]
    constructor
    · rintro ⟨read, ⟨rfl, h⟩, rfl, rfl⟩
      exact ⟨⟨rfl, rfl⟩, h⟩
    · rintro ⟨⟨rfl, rfl⟩, h⟩
      exact ⟨shape, ⟨rfl, h⟩, rfl, rfl⟩
  | _ => simp [readShape, bind_eq_ok_iff]

/-! ## Tensors -/

/-- The members that the fields were read from. -/
def RawFields.members (fields : RawFields) : List (String × Document) :=
  (fields.dtype.map fun dtype => ("dtype", Document.text dtype)).toList ++
    (fields.shape.map fun shape => ("shape", Document.array (shape.map .natural) true)).toList ++
    (fields.dataOffsets.map fun offsets =>
      ("data_offsets", Document.array [.natural offsets.1, .natural offsets.2] true)).toList

/-- The fields are within the limits. -/
structure RawFields.Within (limits : HeaderLimits) (fields : RawFields) : Prop where
  dtype : ∀ dtype, fields.dtype = some dtype → (utf8 dtype).length ≤ limits.maxNameBytes
  shape : ∀ shape, fields.shape = some shape →
    (∀ dimension ∈ shape, dimension < u64Size) ∧ shape.length ≤ limits.maxRank
  dataOffsets : ∀ offsets, fields.dataOffsets = some offsets →
    offsets.1 < u64Size ∧ offsets.2 < u64Size

/-- One turn sets one field that was not set. -/
theorem visitField_eq_ok (hc : cancellation.cancelled = false) {fields fields' : RawFields}
    {member : String × Document} :
    visitField limits cancellation fields member = .ok fields' ↔
      (∃ dtype, fields.dtype = none ∧ member = ("dtype", .text dtype) ∧
        (utf8 dtype).length ≤ limits.maxNameBytes ∧
        fields' = { fields with dtype := some dtype }) ∨
      (∃ shape, fields.shape = none ∧ member = ("shape", .array (shape.map .natural) true) ∧
        ((∀ dimension ∈ shape, dimension < u64Size) ∧ shape.length ≤ limits.maxRank) ∧
        fields' = { fields with shape := some shape }) ∨
      ∃ offsets, fields.dataOffsets = none ∧
        member = ("data_offsets", .array [.natural offsets.1, .natural offsets.2] true) ∧
        (offsets.1 < u64Size ∧ offsets.2 < u64Size) ∧
        fields' = { fields with dataOffsets := some offsets } := by
  obtain ⟨key, value⟩ := member
  simp only [visitField, bind_eq_ok_iff, checkVisit_eq_ok, hc, exists_const, true_and,
    Prod.mk.injEq]
  constructor
  · rintro ⟨field, hkey, h⟩
    unfold RawTensorField.read at hkey
    split at hkey <;> cases hkey
    · simp only [guard_eq_ok_iff, bind_eq_ok_iff, headerText_eq_ok hc, Option.not_isSome_iff_eq_none,
        Except.ok.injEq] at h
      obtain ⟨hnone, dtype, ⟨rfl, hlen, _⟩, rfl⟩ := h
      exact .inl ⟨dtype, hnone, ⟨rfl, rfl⟩, hlen, rfl⟩
    · simp only [guard_eq_ok_iff, bind_eq_ok_iff, readShape_eq_ok hc, Option.not_isSome_iff_eq_none,
        Except.ok.injEq] at h
      obtain ⟨hnone, shape, ⟨rfl, hshape⟩, rfl⟩ := h
      exact .inr (.inl ⟨shape, hnone, ⟨rfl, rfl⟩, hshape, rfl⟩)
    · simp only [guard_eq_ok_iff, bind_eq_ok_iff, readU64Pair_eq_ok, Option.not_isSome_iff_eq_none,
        Except.ok.injEq] at h
      obtain ⟨hnone, offsets, ⟨rfl, hlt⟩, rfl⟩ := h
      exact .inr (.inr ⟨offsets, hnone, ⟨rfl, rfl⟩, hlt, rfl⟩)
  · rintro (⟨dtype, hnone, ⟨rfl, rfl⟩, hlen, rfl⟩ | ⟨shape, hnone, ⟨rfl, rfl⟩, hshape, rfl⟩ |
      ⟨offsets, hnone, ⟨rfl, rfl⟩, hlt, rfl⟩)
    · refine ⟨.dtype, rfl, ?_⟩
      simp only [guard_eq_ok_iff, bind_eq_ok_iff, headerText_eq_ok hc, hnone]
      exact ⟨nofun, dtype, ⟨rfl, hlen, nofun⟩, rfl⟩
    · refine ⟨.shape, rfl, ?_⟩
      simp only [guard_eq_ok_iff, bind_eq_ok_iff, readShape_eq_ok hc, hnone]
      exact ⟨nofun, shape, ⟨rfl, hshape⟩, rfl⟩
    · refine ⟨.dataOffsets, rfl, ?_⟩
      simp only [guard_eq_ok_iff, bind_eq_ok_iff, readU64Pair_eq_ok, hnone]
      exact ⟨nofun, offsets, ⟨rfl, hlt⟩, rfl⟩

/-- A field behind the others is one of the three. -/
theorem RawFields.mem_members {fields : RawFields} {member : String × Document} :
    member ∈ fields.members ↔
      (∃ dtype, fields.dtype = some dtype ∧ member = ("dtype", .text dtype)) ∨
      (∃ shape, fields.shape = some shape ∧
        member = ("shape", .array (shape.map .natural) true)) ∨
      ∃ offsets, fields.dataOffsets = some offsets ∧
        member = ("data_offsets", .array [.natural offsets.1, .natural offsets.2] true) := by
  simp only [RawFields.members, List.mem_append, Option.mem_toList,
    Option.map_eq_some_iff, or_assoc, @eq_comm _ member]

/-- **The fields that were read are the members**, in some order. -/
theorem visitFields_eq_ok (hc : cancellation.cancelled = false)
    {members : List (String × Document)} {fields : RawFields} :
    members.foldlM (visitField limits cancellation) .none = .ok fields ↔
      members.Perm fields.members ∧ fields.Within limits := by
  refine foldlM_eq_ok_iff (fun members (fields : RawFields) =>
    members.Perm fields.members ∧ fields.Within limits) ?_ ?_
  · intro fields
    constructor
    · rintro ⟨h, _⟩
      have hmem := h.nil_eq
      obtain ⟨dtype, shape, offsets⟩ := fields
      cases dtype <;> cases shape <;> cases offsets <;> first | rfl | cases hmem
    · rintro rfl
      exact ⟨.refl _, nofun, nofun, nofun⟩
  · intro members member fields'
    simp only [visitField_eq_ok hc]
    have hsnoc : ∀ fields : RawFields, members.Perm fields.members →
        (member :: fields.members).Perm fields'.members →
        (members ++ [member]).Perm fields'.members := fun fields h h' =>
      (List.perm_append_singleton member members).trans ((h.cons member).trans h')
    have hunsnoc : ∀ fields : RawFields, (member :: fields.members).Perm fields'.members →
        (members ++ [member]).Perm fields'.members → members.Perm fields.members :=
      fun fields h h' => ((((List.perm_append_singleton member members).symm.trans h').trans
        h.symm).cons_inv)
    constructor
    · rintro ⟨hperm, hwithin⟩
      obtain ⟨dtype, shape, offsets⟩ := fields'
      have hmem := hperm.mem_iff.mp (List.mem_append_right _ (List.mem_singleton_self member))
      obtain ⟨d, rfl, hm⟩ | ⟨d, rfl, hm⟩ | ⟨d, rfl, hm⟩ := RawFields.mem_members.mp hmem
      · refine ⟨⟨none, shape, offsets⟩, ⟨hunsnoc _ (hm ▸ .refl _) hperm, nofun, hwithin.shape,
          hwithin.dataOffsets⟩, .inl ⟨d, rfl, hm, hwithin.dtype d rfl, rfl⟩⟩
      · refine ⟨⟨dtype, none, offsets⟩, ⟨hunsnoc _ (hm ▸ ?_) hperm, hwithin.dtype, nofun,
          hwithin.dataOffsets⟩, .inr (.inl ⟨d, rfl, hm, hwithin.shape d rfl, rfl⟩)⟩
        cases dtype
        · exact .refl _
        · exact .swap ..
      · refine ⟨⟨dtype, shape, none⟩, ⟨hunsnoc _ (hm ▸ ?_) hperm, hwithin.dtype, hwithin.shape,
          nofun⟩, .inr (.inr ⟨d, rfl, hm, hwithin.dataOffsets d rfl, rfl⟩)⟩
        unfold RawFields.members
        rw [Option.map_none, Option.toList_none, List.append_nil]
        exact (List.perm_append_singleton _ _).symm
    · rintro ⟨⟨dtype, shape, offsets⟩, ⟨hperm, hwithin⟩, ⟨d, hnone, hm, hd, rfl⟩ |
        ⟨d, hnone, hm, hd, rfl⟩ | ⟨d, hnone, hm, hd, rfl⟩⟩
      · cases hnone
        refine ⟨hsnoc _ hperm (hm ▸ .refl _), ?_, hwithin.shape, hwithin.dataOffsets⟩
        rintro _ ⟨⟩
        exact hd
      · cases hnone
        refine ⟨hsnoc _ hperm (hm ▸ ?_), hwithin.dtype, ?_, hwithin.dataOffsets⟩
        · cases dtype
          · exact .refl _
          · exact .swap ..
        · rintro _ ⟨⟩
          exact hd
      · cases hnone
        refine ⟨hsnoc _ hperm (hm ▸ ?_), hwithin.dtype, hwithin.shape, ?_⟩
        · unfold RawFields.members
          rw [Option.map_none, Option.toList_none, List.append_nil]
          exact (List.perm_append_singleton _ _).symm
        · rintro _ ⟨⟩
          exact hd

theorem readRawTensor_eq_ok (hc : cancellation.cancelled = false) {document : Document}
    {tensor : RawTensor} : readRawTensor limits cancellation document = .ok tensor ↔
      tensor.Describes limits document := by
  cases document with
  | object members closed =>
    simp only [readRawTensor, bind_eq_ok_iff, checkVisit_eq_ok, hc, visitFields_eq_ok hc,
      endOf_eq_ok, exists_const, true_and]
    constructor
    · rintro ⟨fields, ⟨hperm, hwithin⟩, rfl, h⟩
      unfold RawFields.tensor at h
      split at h
      · obtain rfl := Except.ok.inj h
        exact ⟨⟨members, rfl, hperm⟩, hwithin.dtype _ rfl, (hwithin.shape _ rfl).2,
          (hwithin.shape _ rfl).1, hwithin.dataOffsets _ rfl⟩
      · cases h
    · intro h
      obtain ⟨members, heq, hperm⟩ := h.fields
      cases heq
      refine ⟨⟨some tensor.dtype, some tensor.shape, some tensor.dataOffsets⟩, ⟨hperm, ?_, ?_, ?_⟩,
        rfl, rfl⟩
      · rintro _ ⟨⟩
        exact h.dtype
      · rintro _ ⟨⟩
        exact ⟨h.shape, h.rank⟩
      · rintro _ ⟨⟩
        exact h.dataOffsets
  | _ =>
    simp only [readRawTensor, bind_eq_ok_iff]
    refine ⟨fun h => (by simp at h), fun h => ?_⟩
    obtain ⟨_, heq, _⟩ := h.fields
    cases heq

/-- A document describes one tensor. -/
theorem RawTensor.Describes.unique {a b : RawTensor} {document : Document}
    (ha : a.Describes limits document) (hb : b.Describes limits document) : a = b := by
  rw [← readRawTensor_eq_ok (show CancellationToken.cancelled ⟨false⟩ = false from rfl)] at ha hb
  exact Except.ok.inj (ha.symm.trans hb)

/-! ## Metadata -/

theorem visitMetadata_eq_ok (hc : cancellation.cancelled = false) {keys keys' : List String}
    {bytes bytes' : Nat} (hbytes : bytes ≤ limits.maxMetadataBytes)
    {member : String × Document} :
    visitMetadata limits cancellation (keys, bytes) member = .ok (keys', bytes') ↔
      ∃ text, member = (member.1, .text text) ∧ member.1 ∉ keys ∧
        bytes + ((utf8 member.1).length + (utf8 text).length) ≤ limits.maxMetadataBytes ∧
        keys' = member.1 :: keys ∧ bytes' = bytes + ((utf8 member.1).length + (utf8 text).length) := by
  obtain ⟨key, value⟩ := member
  simp only [visitMetadata, bind_eq_ok_iff, checkVisit_eq_ok, hc, exists_const, true_and,
    headerString_eq_ok hc, headerText_eq_ok hc, guard_eq_ok_iff, Except.ok.injEq, Prod.mk.injEq]
  constructor
  · rintro ⟨_, ⟨rfl, hkey, _⟩, hnew, text, ⟨rfl, htext, _⟩, rfl, rfl⟩
    exact ⟨text, rfl, hnew, by omega, rfl, by omega⟩
  · rintro ⟨text, rfl, hnew, hsize, rfl, rfl⟩
    exact ⟨key, ⟨rfl, by omega, nofun⟩, hnew, text, ⟨rfl, by omega, nofun⟩, rfl, by omega⟩

theorem metadataBytes_snoc (entries : List (String × String)) (key text : String) :
    metadataBytes (entries ++ [(key, text)]) =
      metadataBytes entries + ((utf8 key).length + (utf8 text).length) := by
  simp [metadataBytes]

/-- What the visitor of the metadata has seen. -/
structure MetadataSeen (limits : HeaderLimits) (members : List (String × Document))
    (state : List String × Nat) (entries : List (String × String)) : Prop where
  members : members = textMembers entries
  keys : state.1 = (entries.map Prod.fst).reverse
  bytes : state.2 = metadataBytes entries
  nodup : (entries.map Prod.fst).Nodup
  within : metadataBytes entries ≤ limits.maxMetadataBytes

theorem visitMetadata_snoc (hc : cancellation.cancelled = false)
    {members : List (String × Document)} {member : String × Document}
    {state' : List String × Nat} :
    (∃ entries, MetadataSeen limits (members ++ [member]) state' entries) ↔
      ∃ state, (∃ entries, MetadataSeen limits members state entries) ∧
        visitMetadata limits cancellation state member = .ok state' := by
  constructor
  · rintro ⟨entries', h⟩
    obtain ⟨entries, last, rfl, rfl, hlast⟩ := List.map_eq_append_iff.mp h.members.symm
    obtain ⟨⟨key, text⟩, rfl, rfl⟩ := List.map_eq_singleton_iff.mp hlast
    obtain ⟨keys', bytes'⟩ := state'
    obtain ⟨_, rfl, rfl, hnodup, hwithin⟩ := h
    rw [metadataBytes_snoc] at hwithin
    rw [List.map_append, List.nodup_append] at hnodup
    refine ⟨((entries.map Prod.fst).reverse, metadataBytes entries), ⟨entries, rfl, rfl, rfl,
      hnodup.1, by omega⟩, ?_⟩
    rw [visitMetadata_eq_ok hc (by omega)]
    refine ⟨text, rfl, fun hmem => ?_, hwithin, ?_, metadataBytes_snoc ..⟩
    · exact hnodup.2.2 key (List.mem_reverse.mp hmem) key (List.mem_singleton_self _) rfl
    · rw [List.map_append, List.reverse_append]
      rfl
  · rintro ⟨⟨keys, bytes⟩, ⟨entries, h⟩, hvisit⟩
    obtain ⟨rfl, rfl, rfl, hnodup, hwithin⟩ := h
    obtain ⟨keys', bytes'⟩ := state'
    obtain ⟨text, hmember, hnew, hsize, rfl, rfl⟩ := (visitMetadata_eq_ok hc hwithin).mp hvisit
    refine ⟨entries ++ [(member.1, text)], ?_, ?_, (metadataBytes_snoc ..).symm, ?_, ?_⟩
    · rw [textMembers, textMembers, List.map_append, List.map_singleton, ← hmember]
    · rw [List.map_append, List.reverse_append]
      rfl
    · rw [List.map_append, List.nodup_append]
      refine ⟨hnodup, List.nodup_singleton _, ?_⟩
      rintro key hkey _ hlast rfl
      rw [List.mem_singleton.mp hlast] at hkey
      exact hnew (List.mem_reverse.mpr hkey)
    · rw [metadataBytes_snoc]
      exact hsize

theorem readMetadata_eq_ok (hc : cancellation.cancelled = false) {document : Document} :
    (∃ bytes, readMetadata limits cancellation document = .ok bytes) ↔
      IsMetadata limits document := by
  cases document with
  | object members closed =>
    have hfold : ∀ state, members.foldlM (visitMetadata limits cancellation) ([], 0) =
        .ok state ↔ ∃ entries, MetadataSeen limits members state entries := by
      intro state
      refine foldlM_eq_ok_iff
        (fun members state => ∃ entries, MetadataSeen limits members state entries) ?_
        fun _ _ _ => visitMetadata_snoc hc
      rintro ⟨keys, bytes⟩
      constructor
      · rintro ⟨entries, hmembers, rfl, rfl, _⟩
        rw [List.map_eq_nil_iff.mp hmembers.symm]
        rfl
      · rintro ⟨⟩
        exact ⟨[], rfl, rfl, rfl, List.nodup_nil, Nat.zero_le _⟩
    simp only [readMetadata, bind_eq_ok_iff, checkVisit_eq_ok, hc, hfold, endOf_eq_ok,
      exists_const, true_and, Except.ok.injEq]
    constructor
    · rintro ⟨_, state, ⟨entries, h⟩, rfl, _⟩
      exact ⟨entries, by rw [h.members], h.nodup, h.within⟩
    · rintro ⟨entries, heq, hnodup, hwithin⟩
      cases heq
      exact ⟨_, ⟨_, _⟩, ⟨entries, rfl, rfl, rfl, hnodup, hwithin⟩, rfl, rfl⟩
  | _ => simp [readMetadata, bind_eq_ok_iff, IsMetadata]

/-! ## The header -/

/-- One turn reads the metadata or one tensor. -/
theorem visitTensor_eq_ok (hc : cancellation.cancelled = false)
    {tensors tensors' : OrderedMap String RawTensor} {seen seen' : Bool}
    {member : String × Document} :
    visitTensor limits cancellation (tensors, seen) member = .ok (tensors', seen') ↔
      (member.1 = metadataKey ∧ seen = false ∧ IsMetadata limits member.2 ∧
        tensors' = tensors ∧ seen' = true) ∨
      (member.1 ≠ metadataKey ∧ member.1 ≠ "" ∧
        (utf8 member.1).length ≤ limits.maxNameBytes ∧ tensors.get? member.1 = none ∧
        tensors.entries.length < limits.maxTensors ∧
        ∃ tensor : RawTensor, tensor.Describes limits member.2 ∧
          tensors' = tensors.insert member.1 tensor ∧ seen' = seen) := by
  obtain ⟨name, value⟩ := member
  simp only [visitTensor, bind_eq_ok_iff, checkVisit_eq_ok, hc, exists_const, true_and,
    headerString_eq_ok hc]
  by_cases hname : name = metadataKey
  · subst hname
    have hnonempty : metadataKey ≠ "" := by decide
    constructor
    · rintro ⟨_, ⟨rfl, _⟩, h⟩
      simp only [if_true, guard_eq_ok_iff, bind_eq_ok_iff, Except.ok.injEq, Prod.mk.injEq] at h
      obtain ⟨hseen, bytes, hbytes, rfl, rfl⟩ := h
      exact .inl ⟨rfl, Bool.eq_false_iff.mpr hseen, (readMetadata_eq_ok hc).mp ⟨bytes, hbytes⟩,
        rfl, rfl⟩
    · rintro (⟨_, rfl, hmeta, rfl, rfl⟩ | h)
      · obtain ⟨bytes, hbytes⟩ := (readMetadata_eq_ok hc).mpr hmeta
        refine ⟨metadataKey, ⟨rfl, le_max_right _ _, fun _ => hnonempty⟩, ?_⟩
        simp only [if_true, guard_eq_ok_iff, bind_eq_ok_iff]
        exact ⟨nofun, bytes, hbytes, trivial⟩
      · exact absurd rfl h.1
  · constructor
    · rintro ⟨_, ⟨rfl, _, hnonempty⟩, h⟩
      simp only [if_neg hname, guard_eq_ok_iff, bind_eq_ok_iff, Except.ok.injEq, Prod.mk.injEq,
        readRawTensor_eq_ok hc, Nat.not_lt, OrderedMap.contains, Option.not_isSome_iff_eq_none,
        Nat.not_le, gt_iff_lt, ge_iff_le] at h
      obtain ⟨hlen, hnew, hcount, tensor, htensor, rfl, rfl⟩ := h
      exact .inr ⟨hname, hnonempty trivial, hlen, hnew, hcount, tensor, htensor, rfl, rfl⟩
    · rintro (h | ⟨_, hnonempty, hlen, hnew, hcount, tensor, htensor, rfl, rfl⟩)
      · exact absurd h.1 hname
      · refine ⟨name, ⟨rfl, le_max_of_le_left hlen, fun _ => hnonempty⟩, ?_⟩
        simp only [if_neg hname, guard_eq_ok_iff, bind_eq_ok_iff, readRawTensor_eq_ok hc,
          Nat.not_lt, OrderedMap.contains, Option.not_isSome_iff_eq_none, Nat.not_le, gt_iff_lt,
          ge_iff_le]
        exact ⟨hlen, hnew, hcount, tensor, htensor, rfl⟩

/-- What the visitor of the header has seen. -/
structure HeaderSeen (limits : HeaderLimits) (members : List (String × Document))
    (state : OrderedMap String RawTensor × Bool) : Prop extends
    HeaderMembers limits state.1 members where
  seen : state.2 = true ↔ metadataKey ∈ members.map Prod.fst

theorem nodup_keys_snoc {members : List (String × Document)} {member : String × Document} :
    ((members ++ [member]).map Prod.fst).Nodup ↔
      member.1 ∉ members.map Prod.fst ∧ (members.map Prod.fst).Nodup := by
  rw [List.map_append, List.map_singleton, List.nodup_middle, List.append_nil, List.nodup_cons]

/-- The last member is taken off: the visitor read it after the others. -/
theorem HeaderSeen.unsnoc (hc : cancellation.cancelled = false)
    {members : List (String × Document)} {member : String × Document}
    {state' : OrderedMap String RawTensor × Bool}
    (h : HeaderSeen limits (members ++ [member]) state') :
    ∃ state, HeaderSeen limits members state ∧
      visitTensor limits cancellation state member = .ok state' := by
  obtain ⟨name, value⟩ := member
  obtain ⟨tensors', seen'⟩ := state'
  obtain ⟨hnew, hnames⟩ := nodup_keys_snoc.mp h.names
  have hlast : (name, value) ∈ members ++ [(name, value)] :=
    List.mem_append_right _ (List.mem_singleton_self _)
  have hleft : ∀ other ∈ members, other ∈ members ++ [(name, value)] := fun other hother =>
    List.mem_append_left _ hother
  by_cases hname : name = metadataKey
  · subst hname
    refine ⟨(tensors', false), ⟨⟨h.count, hnames, fun v hv => h.metadata v (hleft _ hv), ?_,
      fun other hother => h.described other (hleft _ hother)⟩, iff_of_false nofun hnew⟩, ?_⟩
    · intro key tensor
      rw [h.tensors]
      refine exists_congr fun v => and_congr_left fun hv => ?_
      rw [List.mem_append, List.mem_singleton, or_iff_left]
      rintro ⟨⟩
      exact hv.1 rfl
    · refine (visitTensor_eq_ok hc).mpr (.inl ⟨rfl, rfl, h.metadata value hlast, rfl, ?_⟩)
      exact h.seen.mpr (List.mem_map_of_mem hlast)
  · obtain ⟨hnonempty, hlen, tensor, htensor⟩ := h.described _ hlast hname
    have hget : tensors'.get? name = some tensor :=
      (h.tensors name tensor).mpr ⟨value, hlast, hname, htensor⟩
    have hcount := OrderedMap.length_erase_lt hget
    refine ⟨(tensors'.erase name, seen'), ⟨⟨hcount.le.trans h.count, hnames,
      fun v hv => h.metadata v (hleft _ hv), ?_,
      fun other hother => h.described other (hleft _ hother)⟩, ?_⟩, ?_⟩
    · intro key other
      rw [OrderedMap.get?_erase]
      by_cases hkey : key = name
      · subst hkey
        rw [if_pos rfl]
        refine iff_of_false nofun ?_
        rintro ⟨v, hv, _⟩
        exact hnew (List.mem_map.mpr ⟨_, hv, rfl⟩)
      · rw [if_neg hkey, h.tensors]
        refine exists_congr fun v => and_congr_left fun _ => ?_
        rw [List.mem_append, List.mem_singleton, or_iff_left]
        rintro ⟨⟩
        exact hkey rfl
    · rw [h.seen, List.map_append, List.mem_append, or_iff_left]
      rw [List.map_singleton, List.mem_singleton]
      exact fun heq => hname heq.symm
    · refine (visitTensor_eq_ok hc).mpr (.inr ⟨hname, hnonempty, hlen, ?_,
        Nat.lt_of_lt_of_le hcount h.count, tensor, htensor, ?_, rfl⟩)
      · rw [OrderedMap.get?_erase, if_pos rfl]
      · exact (OrderedMap.insert_erase hget).symm

/-- A member that is read adds its tensor, or is the metadata. -/
theorem HeaderSeen.snoc (hc : cancellation.cancelled = false)
    {members : List (String × Document)} {member : String × Document}
    {state state' : OrderedMap String RawTensor × Bool} (h : HeaderSeen limits members state)
    (hvisit : visitTensor limits cancellation state member = .ok state') :
    HeaderSeen limits (members ++ [member]) state' := by
  obtain ⟨name, value⟩ := member
  obtain ⟨tensors, seen⟩ := state
  obtain ⟨tensors', seen'⟩ := state'
  obtain ⟨rfl, rfl, hmeta, rfl, rfl⟩ | ⟨hname, hnonempty, hlen, hnew, hcount, tensor, htensor, rfl,
    rfl⟩ := (visitTensor_eq_ok hc).mp hvisit
  · refine ⟨⟨h.count, nodup_keys_snoc.mpr ⟨fun hmem => ?_, h.names⟩, ?_, ?_, ?_⟩, ?_⟩
    · exact absurd (h.seen.mpr hmem) nofun
    · intro v hv
      rcases List.mem_append.mp hv with hv | hv
      · exact h.metadata v hv
      · cases List.mem_singleton.mp hv
        exact hmeta
    · intro key other
      rw [h.tensors]
      refine exists_congr fun v => and_congr_left fun hv => ?_
      rw [List.mem_append, List.mem_singleton, or_iff_left]
      rintro ⟨⟩
      exact hv.1 rfl
    · intro other hother hne
      rcases List.mem_append.mp hother with hother | hother
      · exact h.described other hother hne
      · exact absurd (congrArg Prod.fst (List.mem_singleton.mp hother)) hne
    · exact iff_of_true rfl
        (List.mem_map_of_mem (List.mem_append_right _ (List.mem_singleton_self _)))
  · have hfresh : name ∉ members.map Prod.fst := by
      intro hmem
      obtain ⟨other, hother, rfl⟩ := List.mem_map.mp hmem
      obtain ⟨_, _, t, ht⟩ := h.described other hother hname
      rw [(h.tensors other.1 t).mpr ⟨other.2, hother, hname, ht⟩] at hnew
      cases hnew
    refine ⟨⟨(OrderedMap.length_insertEntry_le ..).trans hcount,
      nodup_keys_snoc.mpr ⟨hfresh, h.names⟩, ?_, ?_, ?_⟩, ?_⟩
    · intro v hv
      rcases List.mem_append.mp hv with hv | hv
      · exact h.metadata v hv
      · exact absurd (congrArg Prod.fst (List.mem_singleton.mp hv)).symm hname
    · intro key other
      rw [OrderedMap.get?_insert]
      by_cases hkey : key = name
      · subst hkey
        rw [if_pos rfl, Option.some_inj]
        constructor
        · rintro rfl
          exact ⟨value, List.mem_append_right _ (List.mem_singleton_self _), hname, htensor⟩
        · rintro ⟨v, hv, _, ht⟩
          rcases List.mem_append.mp hv with hv | hv
          · exact absurd (List.mem_map.mpr ⟨_, hv, rfl⟩) hfresh
          · cases List.mem_singleton.mp hv
            exact htensor.unique ht
      · rw [if_neg hkey, h.tensors]
        refine exists_congr fun v => and_congr_left fun _ => ?_
        rw [List.mem_append, List.mem_singleton, or_iff_left]
        rintro ⟨⟩
        exact hkey rfl
    · intro other hother hne
      rcases List.mem_append.mp hother with hother | hother
      · exact h.described other hother hne
      · rw [List.mem_singleton.mp hother]
        exact ⟨hnonempty, hlen, tensor, htensor⟩
    · rw [h.seen, List.map_append, List.mem_append, or_iff_left]
      rw [List.map_singleton, List.mem_singleton]
      exact fun heq => hname heq.symm

/-- **Exact acceptance.** The visitor accepts the documents of a header, and returns
that header. -/
theorem readHeader_eq_ok (hc : cancellation.cancelled = false) {document : Document}
    {header : RawHeader} : readHeader limits cancellation document = .ok header ↔
      header.Describes limits document := by
  cases document with
  | object members closed =>
    have hfold : ∀ state, members.foldlM (visitTensor limits cancellation) (.empty, false) =
        .ok state ↔ HeaderSeen limits members state := by
      intro state
      refine foldlM_eq_ok_iff (HeaderSeen limits) ?_ fun members member state' =>
        ⟨HeaderSeen.unsnoc hc, fun ⟨_, h, hvisit⟩ => h.snoc hc hvisit⟩
      rintro ⟨tensors, seen⟩
      constructor
      · intro h
        have htensors : tensors = .empty := by
          ext1 name
          refine Option.ext fun tensor => ?_
          rw [h.tensors]
          refine iff_of_false ?_ nofun
          rintro ⟨_, hmem, _⟩
          cases hmem
        have hseen : seen = false := Bool.eq_false_iff.mpr fun hs => (by cases h.seen.mp hs)
        rw [htensors, hseen]
      · rintro ⟨⟩
        refine ⟨⟨Nat.zero_le _, List.nodup_nil, nofun, fun name tensor => ?_, nofun⟩, by simp⟩
        refine iff_of_false nofun ?_
        rintro ⟨_, hmem, _⟩
        cases hmem
    simp only [readHeader, bind_eq_ok_iff, checkVisit_eq_ok, hc, hfold, endOf_eq_ok,
      exists_const, true_and, Except.ok.injEq]
    constructor
    · rintro ⟨state, h, rfl, rfl⟩
      exact ⟨members, rfl, h.toHeaderMembers⟩
    · rintro ⟨_, heq, h⟩
      cases heq
      refine ⟨(header.tensors, decide (metadataKey ∈ members.map Prod.fst)), ⟨h, ?_⟩, rfl, rfl⟩
      exact decide_eq_true_iff
  | _ => simp [readHeader, bind_eq_ok_iff, RawHeader.Describes]

end Visitors

/-! ## The text -/

section Text
variable {reader : JsonReader} {maxMetadataBytes : Nat} {bytes : List UInt8}
  {limits : Gguf.ResourceLimits} {cancellation : CancellationToken} {header : RawHeader}

theorem classify_eq_ok {α : Type} {message : String} {visit : Visit α} {value : α} :
    visit.classify cancellation message = .ok value ↔ visit = .ok value := by
  cases visit with
  | error stop => exact ⟨fun h => (by cases h), fun h => (by cases h)⟩
  | ok other => simp [Visit.classify]

theorem parseHeaderJson_eq_ok (hc : cancellation.cancelled = false) :
    parseHeaderJson reader maxMetadataBytes bytes limits cancellation = .ok header ↔
      bytes.head? = some 123 ∧
        header.Describes ⟨limits, maxMetadataBytes⟩ (reader.document bytes) ∧
        reader.ended bytes = true := by
  have hcheck : cancellation.check = .ok () := CancellationToken.check_eq_ok hc
  simp only [parseHeaderJson, deserializeHeaderJson, bind_eq_ok_iff, hcheck, guard_eq_ok_iff,
    classify_eq_ok, readHeader_eq_ok hc, endOf_eq_ok, exists_const, true_and, not_not,
    Except.ok.injEq]
  constructor
  · rintro ⟨hobject, _, hdescribes, hended, rfl⟩
    exact ⟨hobject, hdescribes, hended⟩
  · rintro ⟨hobject, hdescribes, hended⟩
    exact ⟨hobject, header, hdescribes, hended, rfl⟩

end Text

end ModelWeights.Safetensors
