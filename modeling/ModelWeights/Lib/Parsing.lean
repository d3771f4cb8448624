import Mathlib.Algebra.Order.Ring.Nat
import Mathlib.Tactic.Common

/-! # Reading byte sequences

Little-endian words, and parsers that consume a known prefix. A parser is a
state transformer that may fail; `At s bytes` says that the input seen from the
state `s` starts with `bytes`. `Parses m a bytes` says that `m` reads `bytes` and
returns `a`, whatever follows. -/
namespace Parsing

/-- The bytes of a text. -/
def utf8 (text : String) : List UInt8 := text.toByteArray.data.toList

theorem utf8_ofList (text : List Char) :
    utf8 (String.ofList text) = text.flatMap String.utf8EncodeChar := by
  rw [utf8, String.toByteArray_ofList, List.utf8Encode]
  simp

/-! ## Little-endian words -/

def leBytes : Nat → Nat → List UInt8
  | 0, _ => []
  | width + 1, n => UInt8.ofNat (n % 256) :: leBytes width (n / 256)

def leNat : List UInt8 → Nat
  | [] => 0
  | b :: rest => b.toNat + 256 * leNat rest

@[simp] theorem length_leBytes : ∀ (width n : Nat), (leBytes width n).length = width
  | 0, _ => rfl
  | width + 1, n => by rw [leBytes, List.length_cons, length_leBytes]

/-- A word that fits its width is read back. -/
theorem leNat_leBytes : ∀ {width n : Nat}, n < 256 ^ width → leNat (leBytes width n) = n
  | 0, n, h => by
    rw [Nat.pow_zero] at h
    rw [leBytes, leNat]
    omega
  | width + 1, n, h => by
    rw [Nat.pow_succ] at h
    have hdiv : n / 256 < 256 ^ width := Nat.div_lt_of_lt_mul (by omega)
    rw [leBytes, leNat, leNat_leBytes hdiv, UInt8.toNat_ofNat', Nat.mod_mod_of_dvd _ (by decide)]
    omega

/-- Bytes are the word they stand for. -/
theorem leBytes_leNat (bytes : List UInt8) : leBytes bytes.length (leNat bytes) = bytes := by
  induction bytes with
  | nil => rfl
  | cons b rest ih =>
    have hb : b.toNat < 256 := b.toNat_lt
    have hdiv : (b.toNat + 256 * leNat rest) / 256 = leNat rest := by omega
    have hmod : (b.toNat + 256 * leNat rest) % 256 = b.toNat := by omega
    rw [List.length_cons, leNat, leBytes, hdiv, hmod, ih, UInt8.ofNat_toNat]

/-! ## Inversion -/

section Inversion
variable {σ ε α β : Type}

theorem bind_eq_ok {m : StateT σ (Except ε) α} {f : α → StateT σ (Except ε) β} {s t : σ} {b : β}
    (h : (m >>= f) s = .ok (b, t)) : ∃ a u, m s = .ok (a, u) ∧ f a u = .ok (b, t) := by
  have h : (m s >>= fun x => f x.1 x.2) = .ok (b, t) := h
  cases hm : m s with
  | error e => rw [hm] at h; cases h
  | ok x => rw [hm] at h; exact ⟨x.1, x.2, rfl, h⟩

theorem lift_eq_ok {x : Except ε α} {s t : σ} {a : α}
    (h : (liftM x : StateT σ (Except ε) α) s = .ok (a, t)) : x = .ok a ∧ t = s := by
  cases x with
  | error e => cases h
  | ok b => cases h; exact ⟨rfl, rfl⟩

end Inversion

/-! ## Parsers of a prefix -/

section Parses
variable {σ ε α β : Type}

/-- `m` consumes `bytes` and returns `a`, whatever follows. -/
def Parses (At : σ → List UInt8 → Prop) (m : StateT σ (Except ε) α) (a : α)
    (bytes : List UInt8) : Prop :=
  ∀ s rest, At s (bytes ++ rest) → ∃ t, m s = .ok (a, t) ∧ At t rest

variable {At : σ → List UInt8 → Prop}

theorem Parses.pure (a : α) : Parses At (Pure.pure a : StateT σ (Except ε) α) a [] :=
  fun s _ h => ⟨s, rfl, h⟩

theorem Parses.bind {m : StateT σ (Except ε) α} {f : α → StateT σ (Except ε) β} {a : α} {b : β}
    {xs ys : List UInt8} (hm : Parses At m a xs) (hf : Parses At (f a) b ys) :
    Parses At (m >>= f) b (xs ++ ys) := by
  intro s rest h
  rw [List.append_assoc] at h
  obtain ⟨t, ht, h⟩ := hm s _ h
  obtain ⟨u, hu, h⟩ := hf t rest h
  refine ⟨u, ?_, h⟩
  show (m s >>= fun x => f x.1 x.2) = _
  rw [ht]
  exact hu

/-- A last step that consumes nothing. -/
theorem Parses.last {m : StateT σ (Except ε) α} {f : α → StateT σ (Except ε) β} {a : α} {b : β}
    {xs : List UInt8} (hm : Parses At m a xs) (hf : Parses At (f a) b []) :
    Parses At (m >>= f) b xs := by
  have := hm.bind hf
  rwa [List.append_nil] at this

/-- A last step that only computes. -/
theorem Parses.map {m : StateT σ (Except ε) α} {f : α → β} {a : α} {xs : List UInt8}
    (hm : Parses At m a xs) : Parses At (m >>= fun x => Pure.pure (f x)) (f a) xs :=
  hm.last (Parses.pure (f a))

/-- A computation outside the input. -/
theorem Parses.lift {x : Except ε α} {a : α} (h : x = .ok a) :
    Parses At (liftM x : StateT σ (Except ε) α) a [] := by
  subst h
  exact fun s _ h => ⟨s, rfl, h⟩

/-- A step that consumes nothing. -/
theorem Parses.then {m : StateT σ (Except ε) α} {f : α → StateT σ (Except ε) β} {a : α} {b : β}
    {ys : List UInt8} (hm : Parses At m a []) (hf : Parses At (f a) b ys) :
    Parses At (m >>= f) b ys :=
  hm.bind hf

/-- A parser at a known input, and what follows it. -/
theorem Parses.run {m : StateT σ (Except ε) α} {f : α → StateT σ (Except ε) β} {a : α} {b : β}
    {xs ys : List UInt8} {s : σ} (hm : Parses At m a xs) (h : At s (xs ++ ys))
    (hf : ∀ t, At t ys → ∃ u, f a t = .ok (b, u)) : ∃ u, (m >>= f) s = .ok (b, u) := by
  obtain ⟨t, ht, h⟩ := hm s ys h
  obtain ⟨u, hu⟩ := hf t h
  refine ⟨u, ?_⟩
  show (m s >>= fun x => f x.1 x.2) = _
  rw [ht]
  exact hu

theorem Parses.runLift {x : Except ε α} {f : α → StateT σ (Except ε) β} {a : α} {b : β}
    {ys : List UInt8} {s : σ} (hx : x = .ok a) (h : At s ys)
    (hf : ∀ t, At t ys → ∃ u, f a t = .ok (b, u)) :
    ∃ u, (liftM x >>= f : StateT σ (Except ε) β) s = .ok (b, u) :=
  (Parses.lift hx).run h hf

/-! ### Loops -/

/-- `count` elements, one after the other. -/
def readElements (m : StateT σ (Except ε) α) : Nat → StateT σ (Except ε) (List α)
  | 0 => Pure.pure []
  | count + 1 => do
    let value ← m
    let values ← readElements m count
    Pure.pure (value :: values)

theorem Parses.elements_map {m : StateT σ (Except ε) α} {g : β → α} {encode : β → List UInt8} :
    ∀ {values : List β}, (∀ v ∈ values, Parses At m (g v) (encode v)) →
      Parses At (readElements m values.length) (values.map g) (values.flatMap encode)
  | [], _ => Parses.pure []
  | v :: values, h => by
    have hv := h v (List.mem_cons_self ..)
    have hrest := Parses.elements_map fun x hx => h x (List.mem_cons_of_mem _ hx)
    rw [List.flatMap_cons]
    exact hv.bind hrest.map

theorem Parses.elements {m : StateT σ (Except ε) α} {encode : α → List UInt8} {values : List α}
    (h : ∀ v ∈ values, Parses At m v (encode v)) :
    Parses At (readElements m values.length) values (values.flatMap encode) := by
  have := Parses.elements_map (g := id) h
  rwa [List.map_id] at this

end Parses

end Parsing
