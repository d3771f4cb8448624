import ModelWeights.Lib.Transition
import Mathlib.Order.GameAdd
import Mathlib.Order.OrderIsoNat

/-! # Termination of transition systems

An action may leave the state as it is, so a run is counted by the steps that change
something. A rank that falls with every such step rules out infinite runs, and from
every state some run ends where nothing can change any more. -/
namespace Transition
variable {S A β : Type} (act : A → S → Option S)

/-- A step that changes the state. -/
def Moves (s t : S) : Prop := t ≠ s ∧ Step act s t

/-- No action changes the state. -/
def Halted (s : S) : Prop := ∀ a t, act a s = some t → t = s

/-- No run changes the state infinitely often. -/
def Terminates : Prop := ∀ states : Nat → S, ¬∀ n, Moves act (states n) (states (n + 1))

variable {act}

theorem terminates_iff : Terminates act ↔ WellFounded fun t s => Moves act s t := by
  rw [wellFounded_iff_isEmpty_descending_chain, isEmpty_subtype]
  exact Iff.rfl

/-- The rule of ranks. -/
theorem terminates_of_rank {r : β → β → Prop} (hr : WellFounded r) (rank : S → β)
    (h : ∀ a s t, act a s = some t → t = s ∨ r (rank t) (rank s)) : Terminates act := by
  refine terminates_iff.mpr (Subrelation.wf ?_ (InvImage.wf rank hr))
  intro t s hmoves
  obtain ⟨hne, a, ha⟩ := hmoves
  exact (h a s t ha).resolve_left hne

/-- Every state has a run to the end. -/
theorem Terminates.halts (h : Terminates act) (s : S) :
    ∃ t, Reachable act s t ∧ Halted act t := by
  induction s using (terminates_iff.mp h).induction with
  | _ s ih =>
    by_cases hhalted : Halted act s
    · exact ⟨s, .refl, hhalted⟩
    · simp only [Halted, not_forall] at hhalted
      obtain ⟨a, u, ha, hne⟩ := hhalted
      obtain ⟨t, hreach, ht⟩ := ih u ⟨hne, a, ha⟩
      exact ⟨t, .head ⟨a, ha⟩ hreach, ht⟩

/-! ## Interleaving -/

/-- One element of a list moves. -/
def OneMoves (r : β → β → Prop) (t s : List β) : Prop :=
  ∃ i a b, s[i]? = some a ∧ r b a ∧ t = s.set i b

theorem acc_oneMoves {r : β → β → Prop} : ∀ {s : List β}, (∀ a ∈ s, Acc r a) → Acc (OneMoves r) s
  | [], _ => by
    refine .intro _ fun t ht => ?_
    obtain ⟨i, a, b, ha, _⟩ := ht
    cases ha
  | a :: s, h => by
    have htail : Acc (OneMoves r) s := acc_oneMoves fun b hb => h b (List.mem_cons_of_mem _ hb)
    have hpair := (h a (List.mem_cons_self ..)).prod_gameAdd htail
    suffices hlist : ∀ p, Acc (Prod.GameAdd r (OneMoves r)) p → Acc (OneMoves r) (p.1 :: p.2) from
      hlist (a, s) hpair
    intro p hp
    induction hp with
    | intro p _ ih =>
      refine .intro _ fun t ht => ?_
      obtain ⟨i, b, c, hb, hr, rfl⟩ := ht
      cases i with
      | zero =>
        obtain rfl := Option.some.inj hb
        exact ih (c, p.2) (.fst hr)
      | succ i => exact ih (p.1, p.2.set i c) (.snd ⟨i, b, c, hb, hr, rfl⟩)

/-- Where every element terminates, so does every interleaving of them. -/
theorem wellFounded_oneMoves {r : β → β → Prop} (hr : WellFounded r) : WellFounded (OneMoves r) :=
  ⟨fun _ => acc_oneMoves fun a _ => hr.apply a⟩

end Transition
