import ModelWeights.Tensor
import ModelWeights.Lib.Parsing
import ModelWeights.Lib.PrefixCode

/-! # Content identities

The digests of `identity.rs`. SHA-256 is a parameter of everything that hashes;
what is hashed is written out here. -/
namespace ModelWeights
open Parsing PrefixCode

structure ContentDigest where
  bytes : List UInt8
  length_eq : bytes.length = 32
  deriving DecidableEq, Repr

/-- A part of a hashed sequence, behind its length as a little-endian `u128`. -/
def framed (part : List UInt8) : List UInt8 := leBytes 16 part.length ++ part

/-- A byte string that fits in memory, as every slice of the source does. -/
def InMemory (bytes : List UInt8) : Prop := bytes.length < u64Size

instance (bytes : List UInt8) : Decidable (InMemory bytes) :=
  inferInstanceAs (Decidable (bytes.length < u64Size))

/-- Length prefixes make a prefix code. -/
theorem prefixFree_framed : PrefixFree InMemory framed where
  ne_nil := by
    intro a _ h
    have hlen := congrArg List.length (List.append_eq_nil_iff.mp h).1
    rw [length_leBytes] at hlen
    cases hlen
  split := by
    intro a b s t ha hb h
    rw [framed, framed, List.append_assoc, List.append_assoc] at h
    obtain ⟨hlen, h⟩ := List.append_inj h (by rw [length_leBytes, length_leBytes])
    have hbound : u64Size ≤ 256 ^ 16 := by decide
    have heq : a.length = b.length := by
      rw [← leNat_leBytes (Nat.lt_of_lt_of_le ha hbound), hlen,
        leNat_leBytes (Nat.lt_of_lt_of_le hb hbound)]
    exact List.append_inj h heq

namespace ContentDigest

/-- The bytes that `ContentDigest::hash` feeds to the hasher. -/
def preimage (domain : String) (parts : List (List UInt8)) : List UInt8 :=
  utf8 "model-weights-rs\x00" ++ (framed (utf8 domain) ++ parts.flatMap framed)

def hash (sha256 : List UInt8 → ContentDigest) (domain : String) (parts : List (List UInt8)) :
    ContentDigest :=
  sha256 (preimage domain parts)

/-- The domain and the parts can be read off the hashed bytes. -/
theorem preimage_injective {domain domain' : String} {parts parts' : List (List UInt8)}
    (hparts : ∀ part ∈ utf8 domain :: parts, InMemory part)
    (hparts' : ∀ part ∈ utf8 domain' :: parts', InMemory part)
    (h : preimage domain parts = preimage domain' parts') :
    utf8 domain = utf8 domain' ∧ parts = parts' := by
  have hflat : (utf8 domain :: parts).flatMap framed = (utf8 domain' :: parts').flatMap framed := by
    rw [List.flatMap_cons, List.flatMap_cons]
    exact List.append_cancel_left h
  exact List.cons.inj (prefixFree_framed.flatMap_injective hparts hparts' hflat)

end ContentDigest

abbrev ManifestId := ContentDigest
abbrev SelectionId := ContentDigest
abbrev ContractId := ContentDigest
abbrev PlanId := ContentDigest
abbrev BackendId := ContentDigest

def TensorName.parse (value : String) : Result TensorName :=
  if value.isEmpty then .error (.invalid "tensor name must not be empty") else .ok ⟨value⟩

end ModelWeights
