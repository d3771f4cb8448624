import Mathlib.Data.List.Basic

/-! # Computations that are observed

An observed computation may fail, and leaves a list of events behind whether it
fails or not. `Observed.Ensures P Q x` says that all events satisfy `P` and the
value, if there is one, `Q`. `Observed.Returns Q x` says that `x`, if it returns,
satisfies `Q` with its value and its events. The rules of both follow the
structure of `x`. -/

/-- A computation with the events it left behind. -/
structure Observed (ε ω α : Type) where
  result : Except ε α
  events : List ω

namespace Observed
variable {ε ω α β : Type}

def andThen (x : Observed ε ω α) (f : α → Observed ε ω β) : Observed ε ω β :=
  match x.result with
  | .error e => ⟨.error e, x.events⟩
  | .ok a => ⟨(f a).result, x.events ++ (f a).events⟩

instance : Monad (Observed ε ω) where
  pure a := ⟨.ok a, []⟩
  bind := andThen

/-- A step that leaves no event. -/
def perform (x : Except ε α) : Observed ε ω α := ⟨x, []⟩

def observe (event : ω) : Observed ε ω Unit := ⟨.ok (), [event]⟩

/-! ## The result -/

@[simp] theorem result_pure (a : α) : (pure a : Observed ε ω α).result = .ok a := rfl

@[simp] theorem result_perform (x : Except ε α) : (perform x : Observed ε ω α).result = x := rfl

@[simp] theorem result_observe (event : ω) :
    (observe event : Observed ε ω Unit).result = .ok () := rfl

/-- Watching does not change what a computation returns. -/
@[simp] theorem result_bind (x : Observed ε ω α) (f : α → Observed ε ω β) :
    (x >>= f).result = x.result >>= fun a => (f a).result := by
  show (andThen x f).result = _
  unfold andThen
  cases x.result <;> rfl

/-! ## What all events satisfy -/

/-- All events satisfy `P`, and a value that is returned satisfies `Q`. -/
structure Ensures (P : ω → Prop) (Q : α → Prop) (x : Observed ε ω α) : Prop where
  events : ∀ event ∈ x.events, P event
  value : ∀ a, x.result = .ok a → Q a

section Ensures
variable {P : ω → Prop} {Q : α → Prop} {R : β → Prop}

theorem Ensures.mono {P' : ω → Prop} {x : Observed ε ω α} (h : Ensures P Q x)
    (hP : ∀ event, P event → P' event) : Ensures P' Q x :=
  ⟨fun event hevent => hP event (h.events event hevent), h.value⟩

theorem ensures_pure {a : α} (h : Q a) : Ensures P Q (pure a : Observed ε ω α) where
  events := fun _ hevent => absurd hevent (List.not_mem_nil)
  value := fun b hb => by
    cases hb
    exact h

theorem ensures_observe {event : ω} (h : P event) :
    Ensures P (fun _ => True) (observe event : Observed ε ω Unit) where
  events := fun other hother => by
    rw [List.mem_singleton.mp hother]
    exact h
  value := fun _ _ => trivial

theorem ensures_perform (x : Except ε α) :
    Ensures P (fun a => x = .ok a) (perform x : Observed ε ω α) where
  events := fun _ hevent => absurd hevent (List.not_mem_nil)
  value := fun _ h => h

theorem Ensures.bind {x : Observed ε ω α} {f : α → Observed ε ω β} (hx : Ensures P Q x)
    (hf : ∀ a, Q a → Ensures P R (f a)) : Ensures P R (x >>= f) := by
  show Ensures P R (andThen x f)
  unfold andThen
  cases hresult : x.result with
  | error e =>
    refine ⟨hx.events, fun b hb => ?_⟩
    cases hb
  | ok a =>
    have hnext := hf a (hx.value a hresult)
    refine ⟨fun event hevent => ?_, hnext.value⟩
    rcases List.mem_append.mp hevent with h | h
    · exact hx.events event h
    · exact hnext.events event h

end Ensures

/-! ## Runs that return -/

/-- A value that is returned satisfies `Q` together with all events of the run. -/
def Returns (Q : α → List ω → Prop) (x : Observed ε ω α) : Prop :=
  ∀ a, x.result = .ok a → Q a x.events

section Returns
variable {Q : α → List ω → Prop} {R : β → List ω → Prop}

theorem returns_pure {a : α} (h : Q a []) : Returns Q (pure a : Observed ε ω α) := by
  intro b hb
  cases hb
  exact h

theorem returns_observe {event : ω} {Q : Unit → List ω → Prop} (h : Q () [event]) :
    Returns Q (observe event : Observed ε ω Unit) := fun _ _ => h

theorem returns_perform {x : Except ε α} (h : ∀ a, x = .ok a → Q a []) :
    Returns Q (perform x : Observed ε ω α) := h

/-- The events of the second part follow those of the first one. -/
theorem Returns.bind {x : Observed ε ω α} {f : α → Observed ε ω β}
    (h : Returns (fun a first => Returns (fun b second => R b (first ++ second)) (f a)) x) :
    Returns R (x >>= f) := by
  intro b hb
  have hbind : x >>= f = andThen x f := rfl
  rw [hbind] at hb ⊢
  unfold andThen at hb ⊢
  cases hresult : x.result with
  | error e =>
    rw [hresult] at hb
    cases hb
  | ok a =>
    rw [hresult] at hb
    exact h a hresult b hb

theorem Returns.mono {Q' : α → List ω → Prop} {x : Observed ε ω α} (h : Returns Q x)
    (hQ : ∀ a events, Q a events → Q' a events) : Returns Q' x :=
  fun a ha => hQ a _ (h a ha)

end Returns

end Observed
