import Mathlib.Algebra.Order.Ring.Nat
import Mathlib.Tactic.Common
import Mathlib.Data.List.Forall2

/-! # Errors and checked machine arithmetic

`Error` keeps the stable category and the message of `error.rs`; the boxed
source and the backtrace are diagnostics no modelled function reads. Byte
counts and dimensions are natural numbers, and every place where the source
uses a `checked_` or `saturating_` operation on `u64` (or on `usize`, taken as
64 bits wide) uses the operation of the same name below. -/
namespace ModelWeights

inductive ErrorCategory where
  | io
  | invalidPath
  | invalidFormat
  | integrity
  | resourceLimit
  | binding
  | unsupported
  | cache
  | cancelled
  | delivery
  deriving DecidableEq, Repr

structure Error where
  category : ErrorCategory
  message : String
  deriving DecidableEq, Repr

abbrev Result := Except Error

namespace Error

def invalid (message : String) : Error := ⟨.invalidFormat, message⟩

def integrity (message : String) : Error := ⟨.integrity, message⟩

def limit (message : String) : Error := ⟨.resourceLimit, message⟩

def binding (message : String) : Error := ⟨.binding, message⟩

def unsupported (message : String) : Error := ⟨.unsupported, message⟩

def cacheError (message : String) : Error := ⟨.cache, message⟩

def delivery (message : String) : Error := ⟨.delivery, message⟩

def ioError (message : String) : Error := ⟨.io, message⟩

def cancelled : Error := ⟨.cancelled, "model-weight operation was cancelled"⟩

end Error

/-- A cooperative-cancellation token as one call sees it. A check that fails
ends the call with an error, so a call that returns a value saw the token
uncancelled at every check. -/
structure CancellationToken where
  cancelled : Bool
  deriving DecidableEq, Repr

def CancellationToken.check (token : CancellationToken) : Result Unit :=
  if token.cancelled then .error .cancelled else .ok ()

/-! ## Checked `u64` operations -/

/-- The number of values of a `u64`. -/
def u64Size : Nat := 2 ^ 64

def checkedAdd (a b : Nat) : Option Nat := if a + b < u64Size then some (a + b) else none

def checkedMul (a b : Nat) : Option Nat := if a * b < u64Size then some (a * b) else none

def checkedSub (a b : Nat) : Option Nat := if b ≤ a then some (a - b) else none

def saturatingMul (a b : Nat) : Nat := min (a * b) (u64Size - 1)

def saturatingAdd (a b : Nat) : Nat := min (a + b) (u64Size - 1)

/-- `Option::ok_or_else`. -/
def okOr {α : Type} (o : Option α) (e : Error) : Result α :=
  match o with
  | some a => .ok a
  | none => .error e

theorem checkedAdd_eq_some {a b c : Nat} : checkedAdd a b = some c ↔ a + b < u64Size ∧ c = a + b := by
  unfold checkedAdd
  split <;> grind

theorem checkedMul_eq_some {a b c : Nat} : checkedMul a b = some c ↔ a * b < u64Size ∧ c = a * b := by
  unfold checkedMul
  split <;> grind

theorem checkedSub_eq_some {a b c : Nat} : checkedSub a b = some c ↔ b ≤ a ∧ c = a - b := by
  unfold checkedSub
  split <;> grind

/-- A saturating sum that is capped below the limit does not saturate. -/
theorem min_saturatingAdd {a b n : Nat} (h : n < u64Size) :
    min (saturatingAdd a b) n = min (a + b) n := by
  unfold saturatingAdd
  omega

theorem okOr_eq_ok {α : Type} {o : Option α} {e : Error} {a : α} : okOr o e = .ok a ↔ o = some a := by
  cases o <;> simp [okOr]

/-! ## Inversion of `Except` computations -/

section Inversion
variable {ε α β : Type}

theorem bind_ok {x : Except ε α} {f : α → Except ε β} {b : β} (h : x >>= f = .ok b) :
    ∃ a, x = .ok a ∧ f a = .ok b := by
  cases x with
  | error e => cases h
  | ok a => exact ⟨a, rfl, h⟩

theorem toOption_eq_some {x : Except ε α} {a : α} (h : x.toOption = some a) : x = .ok a := by
  cases x with
  | error e => cases h
  | ok b => exact congrArg Except.ok (Option.some.inj h)

/-- A guard that passed. -/
theorem unless_error_ok {c : Prop} [Decidable c] {e : ε} {x : Except ε β} {b : β}
    (h : (if c then .error e else x) = .ok b) : ¬c ∧ x = .ok b := by
  split at h
  · cases h
  · exact ⟨by assumption, h⟩

/-- An invariant of a loop that ended without an error: it is indexed by the
number of elements processed. -/
theorem foldlM_ok {f : β → α → Except ε β} (P : Nat → β → Prop) :
    ∀ {l : List α} {b r : β}, P 0 b →
      (∀ (k : Nat) (a : α) (x y : β), l[k]? = some a → P k x → f x a = .ok y → P (k + 1) y) →
      l.foldlM f b = .ok r → P l.length r := by
  intro l
  induction l generalizing P with
  | nil =>
    intro b r h0 _ h
    have : b = r := by simpa [pure, Except.pure] using h
    exact this ▸ h0
  | cons a l ih =>
    intro b r h0 hs h
    rw [List.foldlM_cons] at h
    obtain ⟨x, hx, h⟩ := bind_ok h
    refine ih (fun k => P (k + 1)) (hs 0 a b x rfl h0 hx) ?_ h
    intro k a' x y ha
    exact hs (k + 1) a' x y (by simpa using ha)

/-- Two element-wise computations that succeed alike collect the same list. -/
theorem mapM_ok_congr {ε' : Type} {f : α → Except ε β} {g : α → Except ε' β}
    (hfg : ∀ a b, f a = .ok b → g a = .ok b) : ∀ {l : List α} {r : List β},
    l.mapM f = .ok r → l.mapM g = .ok r
  | [], r, h => by
    have : [] = r := by simpa [pure, Except.pure] using h
    simp [← this, pure, Except.pure]
  | a :: l, r, h => by
    rw [List.mapM_cons] at h ⊢
    obtain ⟨b, hb, h⟩ := bind_ok h
    obtain ⟨bs, hbs, h⟩ := bind_ok h
    obtain rfl : b :: bs = r := by simpa [pure, Except.pure] using h
    rw [hfg a b hb, mapM_ok_congr hfg hbs]
    rfl

theorem mapM_ok_forall₂ {f : α → Except ε β} : ∀ {l : List α} {r : List β},
    l.mapM f = .ok r → List.Forall₂ (fun a b => f a = .ok b) l r
  | [], r, h => by
    obtain rfl : [] = r := by simpa [pure, Except.pure] using h
    exact .nil
  | a :: l, r, h => by
    rw [List.mapM_cons] at h
    obtain ⟨b, hb, h⟩ := bind_ok h
    obtain ⟨bs, hbs, h⟩ := bind_ok h
    obtain rfl : b :: bs = r := by simpa [pure, Except.pure] using h
    exact .cons hb (mapM_ok_forall₂ hbs)

theorem mapM_ok_of_forall {f : α → Except ε β} : ∀ {l : List α}, (∀ a ∈ l, ∃ b, f a = .ok b) →
    ∃ r, l.mapM f = .ok r
  | [], _ => ⟨[], rfl⟩
  | a :: l, h => by
    obtain ⟨b, hb⟩ := h a (List.mem_cons_self ..)
    obtain ⟨r, hr⟩ := mapM_ok_of_forall fun x hx => h x (List.mem_cons_of_mem _ hx)
    exact ⟨b :: r, by rw [List.mapM_cons, hb, hr]; rfl⟩

theorem forall₂_mem_left {R : α → β → Prop} {l : List α} {r : List β} (h : List.Forall₂ R l r)
    {a : α} (ha : a ∈ l) : ∃ b ∈ r, R a b := by
  induction h with
  | nil => cases ha
  | cons hab _ ih =>
    rcases List.mem_cons.mp ha with rfl | ha
    · exact ⟨_, List.mem_cons_self .., hab⟩
    · obtain ⟨b, hb, hr⟩ := ih ha
      exact ⟨b, List.mem_cons_of_mem _ hb, hr⟩

theorem forall₂_mem_right {R : α → β → Prop} {l : List α} {r : List β} (h : List.Forall₂ R l r)
    {b : β} (hb : b ∈ r) : ∃ a ∈ l, R a b :=
  forall₂_mem_left (R := fun b a => R a b) h.flip hb

theorem forall₂_map_eq {γ : Type} {f : α → γ} {g : β → γ} {l : List α} {r : List β}
    (h : List.Forall₂ (fun a b => g b = f a) l r) : r.map g = l.map f := by
  induction h with
  | nil => rfl
  | cons hab _ ih => rw [List.map_cons, List.map_cons, hab, ih]

/-- A loop looks at its elements only. -/
theorem mapM_congr_mem {f g : α → Except ε β} : ∀ {l : List α}, (∀ a ∈ l, f a = g a) →
    l.mapM f = l.mapM g
  | [], _ => rfl
  | a :: l, h => by
    rw [List.mapM_cons, List.mapM_cons, h a (List.mem_cons_self ..),
      mapM_congr_mem fun b hb => h b (List.mem_cons_of_mem _ hb)]

/-- A loop of checks passes when each of them does. -/
theorem forM_eq_ok {f : α → Except ε Unit} : ∀ {l : List α},
    l.forM f = .ok () ↔ ∀ a ∈ l, f a = .ok ()
  | [] => iff_of_true rfl (List.forall_mem_nil _)
  | a :: l => by
    rw [List.forall_mem_cons, ← forM_eq_ok]
    constructor
    · intro h
      obtain ⟨_, ha, hl⟩ := bind_ok h
      exact ⟨ha, hl⟩
    · rintro ⟨ha, hl⟩
      show f a >>= (fun _ => l.forM f) = _
      rw [ha]
      exact hl

end Inversion

theorem CancellationToken.check_ok {token : CancellationToken} {u : Unit}
    (h : token.check = .ok u) : token.cancelled = false := by
  unfold CancellationToken.check at h
  exact Bool.eq_false_iff.mpr (unless_error_ok h).1

theorem CancellationToken.check_eq_ok {token : CancellationToken}
    (h : token.cancelled = false) : token.check = .ok () := by
  rw [CancellationToken.check, h]
  rfl

end ModelWeights
