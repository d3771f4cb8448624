import ModelWeights.Identity

/-! # Cache addresses

The namespaces, the compatibility facts and the keys of `cache.rs`. -/
namespace ModelWeights.Cache
open Parsing PrefixCode

inductive CacheNamespace where
  | plan
  | prepared
  deriving DecidableEq, Repr

def CacheNamespace.keyTag : CacheNamespace → List UInt8
  | .plan => utf8 "plan"
  | .prepared => utf8 "prepared"

structure CacheCompatibility where
  formatVersion : UInt32
  transform : ContentDigest
  backendAbi : Option ContentDigest
  deriving DecidableEq, Repr

namespace CacheCompatibility

def plan (formatVersion : UInt32) (transform : ContentDigest) : CacheCompatibility :=
  ⟨formatVersion, transform, none⟩

def prepared (formatVersion : UInt32) (transform backendAbi : ContentDigest) :
    CacheCompatibility :=
  ⟨formatVersion, transform, some backendAbi⟩

/-- The parts of a key that say whether there is a backend, and which. -/
def backendParts : Option ContentDigest → List (List UInt8)
  | some backendAbi => [[1], backendAbi.bytes]
  | none => [[0]]

end CacheCompatibility

abbrev CacheKey := ContentDigest

/-- The parts that `CacheKey::derive` feeds to the hasher, in order. -/
def keyParts (ns : CacheNamespace) (compatibility : CacheCompatibility)
    (identities : List (List UInt8)) : List (List UInt8) :=
  utf8 "model-weights-rs-cache-key-v1" :: ns.keyTag ::
    leBytes 4 compatibility.formatVersion.toNat :: compatibility.transform.bytes ::
    (CacheCompatibility.backendParts compatibility.backendAbi ++ identities)

/-- The bytes behind a key. -/
def keyPreimage (ns : CacheNamespace) (compatibility : CacheCompatibility)
    (identities : List (List UInt8)) : List UInt8 :=
  (keyParts ns compatibility identities).flatMap framed

def CacheKey.derive (sha256 : List UInt8 → ContentDigest) (ns : CacheNamespace)
    (compatibility : CacheCompatibility) (identities : List (List UInt8)) : CacheKey :=
  sha256 (keyPreimage ns compatibility identities)

section Injective

theorem CacheNamespace.keyTag_injective : Function.Injective CacheNamespace.keyTag := by
  intro a b h
  cases a <;> cases b <;> first | rfl | exact absurd h (by decide)

theorem inMemory_digest (d : ContentDigest) : InMemory d.bytes := by
  rw [InMemory, d.length_eq]
  decide

theorem bytes_injective : Function.Injective ContentDigest.bytes := by
  intro a b h
  obtain ⟨a, _⟩ := a
  obtain ⟨b, _⟩ := b
  obtain rfl : a = b := h
  rfl

theorem inMemory_keyParts {ns : CacheNamespace} {compatibility : CacheCompatibility}
    {identities : List (List UInt8)} (h : ∀ part ∈ identities, InMemory part) :
    ∀ part ∈ keyParts ns compatibility identities, InMemory part := by
  intro part hp
  simp only [keyParts, List.mem_cons, List.mem_append] at hp
  rcases hp with rfl | rfl | rfl | rfl | hp | hp
  · decide +kernel
  · cases ns <;> decide +kernel
  · rw [InMemory, length_leBytes]
    decide
  · exact inMemory_digest _
  · cases hb : compatibility.backendAbi with
    | none =>
      rw [hb] at hp
      obtain rfl := List.mem_singleton.mp hp
      decide
    | some backend =>
      rw [hb] at hp
      rcases List.mem_pair.mp hp with rfl | rfl
      · decide
      · exact inMemory_digest backend
  · exact h part hp

/-- The option tag separates the backend from the identities behind it. -/
theorem backendParts_append {b b' : Option ContentDigest} {ids ids' : List (List UInt8)}
    (h : CacheCompatibility.backendParts b ++ ids = CacheCompatibility.backendParts b' ++ ids') :
    b = b' ∧ ids = ids' := by
  cases b with
  | none =>
    cases b' with
    | none => exact ⟨rfl, (List.cons.inj h).2⟩
    | some d' => exact absurd (List.cons.inj h).1 (by decide)
  | some d =>
    cases b' with
    | none => exact absurd (List.cons.inj h).1 (by decide)
    | some d' =>
      obtain ⟨hd, hids⟩ := List.cons.inj (List.cons.inj h).2
      exact ⟨congrArg some (bytes_injective hd), hids⟩

/-- A key's namespace, compatibility and identities can be read off the bytes
behind it, for any number of identities. -/
theorem keyPreimage_injective {ns ns' : CacheNamespace} {c c' : CacheCompatibility}
    {ids ids' : List (List UInt8)} (hids : ∀ part ∈ ids, InMemory part)
    (hids' : ∀ part ∈ ids', InMemory part) (h : keyPreimage ns c ids = keyPreimage ns' c' ids') :
    ns = ns' ∧ c = c' ∧ ids = ids' := by
  have hparts := prefixFree_framed.flatMap_injective (inMemory_keyParts hids)
    (inMemory_keyParts hids') h
  obtain ⟨_, h⟩ := List.cons.inj hparts
  obtain ⟨htag, h⟩ := List.cons.inj h
  obtain ⟨hversion, h⟩ := List.cons.inj h
  obtain ⟨htransform, h⟩ := List.cons.inj h
  obtain ⟨hbackend, hids⟩ := backendParts_append h
  have hnat : c.formatVersion.toNat = c'.formatVersion.toNat := by
    have hbound : ∀ v : UInt32, v.toNat < 256 ^ 4 := fun v => v.toNat_lt
    rw [← leNat_leBytes (hbound c.formatVersion), hversion, leNat_leBytes (hbound c'.formatVersion)]
  obtain ⟨version, transform, backend⟩ := c
  obtain ⟨version', transform', backend'⟩ := c'
  obtain rfl := UInt32.toNat_inj.mp hnat
  obtain rfl := bytes_injective htransform
  obtain rfl : backend = backend' := hbackend
  exact ⟨CacheNamespace.keyTag_injective htag, rfl, hids⟩

end Injective

end ModelWeights.Cache
