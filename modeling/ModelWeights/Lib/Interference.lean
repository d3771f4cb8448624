import ModelWeights.Lib.Program
import ModelWeights.Lib.Transition

/-! # Programs under interference

Several processes run programs over one state, one operation at a time. A protocol
says what one process may find and must keep to: the answers it may get, an invariant
of the state, what the others may do between two of its operations, and what it may do
itself. `Guards` is the specification of a program under a protocol, and `pool_sound`
puts the specifications of all processes together. -/
namespace Interference
open Program

variable {Op ε σ : Type} {Resp : Op → Type} {α β : Type}

structure Protocol (Op ε σ : Type) where
  admits : Op → ε → σ → Prop
  inv : σ → Prop
  rely : σ → σ → Prop
  guarantee : σ → σ → Prop
  refl : ∀ s, rely s s
  trans : ∀ {s t u}, rely s t → rely t u → rely s u

section Guards
variable (eval : (o : Op) → ε → σ → Resp o × σ) (P : Protocol Op ε σ)

/-- Every operation of a program keeps the invariant and the guarantee, and its value
meets `Q`, whatever the others do in between. -/
def Guards : Program Op Resp α → (α → σ → Prop) → σ → Prop
  | .ret a, Q, s => ∀ t, P.rely s t → P.inv t → Q a t
  | .op o k, Q, s => ∀ t, P.rely s t → P.inv t → ∀ e, P.admits o e t →
    P.inv (eval o e t).2 ∧ P.guarantee t (eval o e t).2 ∧
      Guards (k (eval o e t).1) Q (eval o e t).2

variable {eval P}

theorem Guards.later : ∀ {p : Program Op Resp α} {Q : α → σ → Prop} {s t : σ},
    Guards eval P p Q s → P.rely s t → Guards eval P p Q t
  | .ret _, _, _, _, h, hst => fun u hu hi => h u (P.trans hst hu) hi
  | .op _ _, _, _, _, h, hst => fun u hu hi e he => h u (P.trans hst hu) hi e he

theorem guards_of_now : ∀ {p : Program Op Resp α} {Q : α → σ → Prop} {s : σ},
    (∀ t, P.rely s t → P.inv t → Guards eval P p Q t) → Guards eval P p Q s
  | .ret _, _, _, h => fun t ht hi => h t ht hi t (P.refl t) hi
  | .op _ _, _, _, h => fun t ht hi e he => h t ht hi t (P.refl t) hi e he

theorem Guards.mono : ∀ {p : Program Op Resp α} {Q Q' : α → σ → Prop} {s : σ},
    Guards eval P p Q s → (∀ a t, P.inv t → Q a t → Q' a t) → Guards eval P p Q' s
  | .ret a, _, _, _, h, hQ => fun t ht hi => hQ a t hi (h t ht hi)
  | .op _ _, _, _, _, h, hQ => fun t ht hi e he =>
    ⟨(h t ht hi e he).1, (h t ht hi e he).2.1, (h t ht hi e he).2.2.mono hQ⟩

/-- An assertion that the others cannot break. -/
def Protocol.Stable (P : Protocol Op ε σ) (A : σ → Prop) : Prop :=
  ∀ s t, A s → P.rely s t → P.inv t → A t

theorem Guards.ret {a : α} {Q : α → σ → Prop} {s : σ}
    (h : Guards eval P (.ret a : Program Op Resp α) Q s) (hi : P.inv s) : Q a s :=
  h s (P.refl s) hi

theorem guards_pure {a : α} {Q : α → σ → Prop} {s : σ} (hQ : P.Stable (Q a)) (hs : Q a s) :
    Guards eval P (pure a : Program Op Resp α) Q s := fun t ht hi => hQ s t hs ht hi

/-- A specification of the first part and one of the rest. -/
theorem guards_bind : ∀ {p : Program Op Resp α} {f : α → Program Op Resp β} {Q : α → σ → Prop}
    {Q' : β → σ → Prop} {s : σ}, Guards eval P p Q s →
    (∀ a t, P.inv t → Q a t → Guards eval P (f a) Q' t) → Guards eval P (p >>= f) Q' s
  | .ret a, _, _, _, _, h, hf => guards_of_now fun t ht hi => hf a t hi (h t ht hi)
  | .op o k, f, Q, Q', s, h, hf => by
    intro t ht hi e he
    obtain ⟨hinv, hguarantee, hrest⟩ := h t ht hi e he
    exact ⟨hinv, hguarantee, @guards_bind (k (eval o e t).1) f Q Q' (eval o e t).2 hrest hf⟩

/-- Two specifications of one program. -/
theorem Guards.and : ∀ {p : Program Op Resp α} {Q Q' : α → σ → Prop} {s : σ},
    Guards eval P p Q s → Guards eval P p Q' s → Guards eval P p (fun a t => Q a t ∧ Q' a t) s
  | .ret _, _, _, _, h, h' => fun t ht hi => ⟨h t ht hi, h' t ht hi⟩
  | .op _ _, _, _, _, h, h' => fun t ht hi e he =>
    ⟨(h t ht hi e he).1, (h t ht hi e he).2.1, (h t ht hi e he).2.2.and (h' t ht hi e he).2.2⟩

/-- The value is one that the program returns. -/
theorem Guards.returns : ∀ {p : Program Op Resp α} {Q : α → σ → Prop} {s : σ},
    Guards eval P p Q s → Guards eval P p (fun a t => Q a t ∧ p.Returns a) s
  | .ret a, _, _, h => fun t ht hi => ⟨h t ht hi, .ret a⟩
  | .op _ _, _, _, h => fun t ht hi e he =>
    ⟨(h t ht hi e he).1, (h t ht hi e he).2.1,
      (h t ht hi e he).2.2.returns.mono fun _ _ _ ha => ⟨ha.1, .op _ ha.2⟩⟩

theorem guards_perform {o : Op} {Q : Resp o → σ → Prop} {s : σ}
    (h : ∀ t, P.rely s t → P.inv t → ∀ e, P.admits o e t → P.inv (eval o e t).2 ∧
      P.guarantee t (eval o e t).2 ∧
      ∀ u, P.rely (eval o e t).2 u → P.inv u → Q (eval o e t).1 u) :
    Guards eval P (perform o : Program Op Resp (Resp o)) Q s := h

/-- Operations that keep the invariant, the guarantee and an assertion that no other
process can break. -/
theorem Only.guards {ok : Op → Prop} {A : σ → Prop}
    (hok : ∀ o e s, ok o → P.admits o e s → P.inv s → A s →
      P.inv (eval o e s).2 ∧ P.guarantee s (eval o e s).2 ∧ A (eval o e s).2)
    (hstable : P.Stable A) : ∀ {p : Program Op Resp α} {s : σ}, p.Only ok → A s → Guards eval P p (fun _ => A) s
  | .ret _, s, _, hA => fun t ht hi => hstable s t hA ht hi
  | .op o k, s, h, hA => by
    intro t ht hi e he
    obtain ⟨hinv, hguarantee, hA'⟩ := hok o e t h.1 he hi (hstable s t hA ht hi)
    exact ⟨hinv, hguarantee, @Only.guards ok A hok hstable (k (eval o e t).1) (eval o e t).2
      (h.2 _) hA'⟩

end Guards

/-! ## Layers

A second protocol over a first one. A process that is known to keep to the first one
has the rest to show, and may use what the first one says of each of its steps. -/

section Layers
variable (eval : (o : Op) → ε → σ → Resp o × σ)

/-- What a process has to show for both protocols. -/
def Protocol.both (P X : Protocol Op ε σ) : Protocol Op ε σ where
  admits o e s := P.admits o e s ∧ X.admits o e s
  inv s := P.inv s ∧ X.inv s
  rely s t := P.rely s t ∧ X.rely s t
  guarantee s t := P.guarantee s t ∧ X.guarantee s t
  refl s := ⟨P.refl s, X.refl s⟩
  trans h h' := ⟨P.trans h.1 h'.1, X.trans h.2 h'.2⟩

/-- What a process that keeps to `P` has to show for `X`. -/
def Protocol.over (X P : Protocol Op ε σ) : Protocol Op ε σ where
  admits o e s := (P.admits o e s ∧ X.admits o e s) ∧ P.inv (eval o e s).2 ∧
    P.guarantee s (eval o e s).2
  inv s := P.inv s ∧ X.inv s
  rely s t := P.rely s t ∧ X.rely s t
  guarantee := X.guarantee
  refl s := ⟨P.refl s, X.refl s⟩
  trans h h' := ⟨P.trans h.1 h'.1, X.trans h.2 h'.2⟩

variable {eval} {P X : Protocol Op ε σ}

theorem Guards.both : ∀ {p : Program Op Resp α} {Q Q' : α → σ → Prop} {s : σ},
    Guards eval P p Q s → Guards eval (X.over eval P) p Q' s →
    Guards eval (P.both X) p (fun a t => Q a t ∧ Q' a t) s
  | .ret _, _, _, _, h, h' => fun t ht hi => ⟨h t ht.1 hi.1, h' t ht hi⟩
  | .op o k, Q, Q', s, h, h' => by
    intro t ht hi e he
    obtain ⟨hinv, hguarantee, hrest⟩ := h t ht.1 hi.1 e he.1
    obtain ⟨hinv', hguarantee', hrest'⟩ := h' t ht hi e ⟨he, hinv, hguarantee⟩
    exact ⟨hinv', ⟨hguarantee, hguarantee'⟩, Guards.both hrest hrest'⟩

/-- A specification under the first protocol also holds under the second one. -/
theorem Guards.also : ∀ {p : Program Op Resp α} {Q Q' : α → σ → Prop} {s : σ},
    Guards eval (X.over eval P) p Q' s → Guards eval P p Q s →
    Guards eval (X.over eval P) p (fun a t => Q a t ∧ Q' a t) s
  | .ret _, _, _, _, h', h => fun t ht hi => ⟨h t ht.1 hi.1, h' t ht hi⟩
  | .op o k, Q, Q', s, h', h => by
    intro t ht hi e he
    obtain ⟨hinv, hguarantee, hrest⟩ := h t ht.1 hi.1 e he.1.1
    obtain ⟨hinv', hguarantee', hrest'⟩ := h' t ht hi e he
    exact ⟨hinv', hguarantee', Guards.also hrest' hrest⟩

/-- What neither the process nor the others change. -/
theorem Guards.keep {B : σ → Prop} (hrely : P.Stable B)
    (hguarantee : ∀ s t, B s → P.guarantee s t → P.inv t → B t) :
    ∀ {p : Program Op Resp α} {Q : α → σ → Prop} {s : σ}, Guards eval P p Q s → B s →
      Guards eval P p (fun a t => Q a t ∧ B t) s
  | .ret _, _, s, h, hB => fun t ht hi => ⟨h t ht hi, hrely s t hB ht hi⟩
  | .op o k, Q, s, h, hB => by
    intro t ht hi e he
    obtain ⟨hinv, hg, hrest⟩ := h t ht hi e he
    exact ⟨hinv, hg, Guards.keep hrely hguarantee hrest
      (hguarantee t _ (hrely s t hB ht hi) hg hinv)⟩

end Layers

/-! ## Pools -/

/-- The programs of all processes, and one state. -/
abbrev Pool (Op : Type) (Resp : Op → Type) (α σ : Type) := (Nat → Program Op Resp α) × σ

/-- One operation of one process, in an environment that is its own. A process that is
never chosen again has crashed. -/
def poolAct (eval : (o : Op) → ε → σ → Resp o × σ) (own : Nat → ε → ε) :
    Nat × ε → Pool Op Resp α σ → Option (Pool Op Resp α σ)
  | (i, e), (pool, s) =>
    match pool i with
    | .ret _ => none
    | .op o k => some (Function.update pool i (k (eval o (own i e) s).1), (eval o (own i e) s).2)

section Pool
variable {eval : (o : Op) → ε → σ → Resp o × σ} {own : Nat → ε → ε}
  {P : Nat → Protocol Op ε σ} {I : σ → Prop} {Q : Nat → α → σ → Prop}
  {C : Nat × ε → Pool Op Resp α σ → Prop} {start t : Pool Op Resp α σ}

theorem poolAct_cases {i : Nat} {e : ε} {s : Pool Op Resp α σ}
    (h : poolAct eval own (i, e) s = some t) : ∃ o k, s.1 i = .op o k ∧
      t.1 = Function.update s.1 i (k (eval o (own i e) s.2).1) ∧
      t.2 = (eval o (own i e) s.2).2 := by
  obtain ⟨pool, s⟩ := s
  unfold poolAct at h
  dsimp only at h ⊢
  cases hop : pool i with
  | ret a =>
    rw [hop] at h
    cases h
  | op o k =>
    rw [hop] at h
    obtain rfl := Option.some.inj h
    exact ⟨o, k, rfl, rfl, rfl⟩

/-- **All processes together.** Processes whose guarantees imply what the others rely on
keep to their specifications in every interleaving. Processes that never take a step need
no specification. -/
theorem pool_sound_among {active : Nat → Prop} (hactive : ∀ i e s, C (i, e) s → active i)
    (hI : ∀ i s, (P i).inv s ↔ I s)
    (hguarantee : ∀ i j s t, i ≠ j → (P i).guarantee s t → (P j).rely s t)
    (hadmits : ∀ i e s o k, C (i, e) s → s.1 i = .op o k → (P i).admits o (own i e) s.2)
    (hs : I start.2) (hstart : ∀ i, active i → Guards eval (P i) (start.1 i) (Q i) start.2)
    (hrun : Transition.ReachableUnder (poolAct eval own) C start t) :
    I t.2 ∧ ∀ i, active i → Guards eval (P i) (t.1 i) (Q i) t.2 := by
  refine hrun.invariant (I := fun u => I u.2 ∧ ∀ i, active i → Guards eval (P i) (u.1 i) (Q i) u.2)
    ⟨hs, hstart⟩ fun a s t hC hinv ha => ?_
  obtain ⟨i, e⟩ := a
  obtain ⟨o, k, hop, hpool, hstate⟩ := poolAct_cases ha
  have hi := hinv.2 i (hactive i e s hC)
  rw [hop] at hi
  obtain ⟨hI', hg, hrest⟩ := hi s.2 ((P i).refl s.2) ((hI i s.2).mpr hinv.1) (own i e)
    (hadmits i e s o k hC hop)
  rw [hstate, hpool]
  refine ⟨(hI i _).mp hI', fun j hj' => ?_⟩
  by_cases hj : j = i
  · subst hj
    rw [Function.update_self]
    exact hrest
  · rw [Function.update_of_ne hj]
    exact (hinv.2 j hj').later (hguarantee i j _ _ (Ne.symm hj) hg)

theorem pool_sound (hI : ∀ i s, (P i).inv s ↔ I s)
    (hguarantee : ∀ i j s t, i ≠ j → (P i).guarantee s t → (P j).rely s t)
    (hadmits : ∀ i e s o k, C (i, e) s → s.1 i = .op o k → (P i).admits o (own i e) s.2)
    (hs : I start.2) (hstart : ∀ i, Guards eval (P i) (start.1 i) (Q i) start.2)
    (hrun : Transition.ReachableUnder (poolAct eval own) C start t) :
    I t.2 ∧ ∀ i, Guards eval (P i) (t.1 i) (Q i) t.2 := by
  have hactive : ∀ i e s, C (i, e) s → (fun _ : Nat => True) i := fun _ _ _ _ => trivial
  obtain ⟨hi, hguards⟩ := pool_sound_among hactive hI hguarantee hadmits hs (fun i _ => hstart i) hrun
  exact ⟨hi, fun i => hguards i trivial⟩

/-- A finished process meets its postcondition. -/
theorem pool_ret (hI : ∀ i s, (P i).inv s ↔ I s)
    (h : I t.2 ∧ ∀ i, Guards eval (P i) (t.1 i) (Q i) t.2) {i : Nat} {a : α}
    (hret : t.1 i = .ret a) : Q i a t.2 := by
  have hi := h.2 i
  rw [hret] at hi
  exact hi.ret ((hI i t.2).mpr h.1)

/-- A process that runs alone for a while, with allowed operations only. -/
theorem reachable_advance {i : Nat} {env : Nat → ε} {allowed : Op → Bool}
    (hC : ∀ n o k u, u.1 i = .op o k → allowed o = true → C (i, env n) u) :
    ∀ {budget n : Nat} {p : Program Op Resp α} {pool : Nat → Program Op Resp α} {s : σ},
    pool i = p → allFor eval (fun n => own i (env n)) allowed budget p n s = true →
    Transition.ReachableUnder (poolAct eval own) C (pool, s)
      (Function.update pool i (advance eval (fun n => own i (env n)) budget p n s).1,
        (advance eval (fun n => own i (env n)) budget p n s).2.2) := by
  intro budget
  induction budget with
  | zero =>
    intro n p pool s hp _
    cases p with
    | ret b =>
      unfold advance
      rw [← hp, Function.update_eq_self]
      exact .refl
    | op o k =>
      unfold advance
      rw [← hp, Function.update_eq_self]
      exact .refl
  | succ budget ih =>
    intro n p pool s hp hallowed
    cases p with
    | ret b =>
      unfold advance
      rw [← hp, Function.update_eq_self]
      exact .refl
    | op o k =>
      obtain ⟨ho, hallowed⟩ := Bool.and_eq_true_iff.mp hallowed
      have hrest := @ih (n + 1) _ (Function.update pool i (k (eval o (own i (env n)) s).1))
        (eval o (own i (env n)) s).2 (Function.update_self ..) hallowed
      rw [Function.update_idem] at hrest
      refine .head ⟨(i, env n), hC n o k (pool, s) hp ho, ?_⟩ hrest
      simp only [poolAct, hp]

/-- A process that runs alone to its end, with allowed operations only. -/
theorem reachable_allFor {i : Nat} {env : Nat → ε} {allowed : Op → Bool}
    (hC : ∀ n o k u, u.1 i = .op o k → allowed o = true → C (i, env n) u)
    {budget n : Nat} {p : Program Op Resp α} {a : α} {pool : Nat → Program Op Resp α} {s : σ}
    (hp : pool i = p) (hallowed : allFor eval (fun n => own i (env n)) allowed budget p n s = true)
    (h : (runFor eval (fun n => own i (env n)) budget p n s).1 = some a) :
    Transition.ReachableUnder (poolAct eval own) C (pool, s)
      (Function.update pool i (.ret a),
        (runFor eval (fun n => own i (env n)) budget p n s).2.2) := by
  have hreach := reachable_advance hC hp hallowed
  rwa [advance_of_runFor h] at hreach

theorem allFor_always {env : Nat → ε} : ∀ {budget n : Nat} {p : Program Op Resp α} {s : σ},
    allFor eval env (fun _ => true) budget p n s = true
  | _, _, .ret _, _ => by unfold allFor; rfl
  | 0, _, .op _ _, _ => rfl
  | budget + 1, n, .op o k, s => by
    have hrest : allFor eval env (fun _ => true) budget (k (eval o (env n) s).1) (n + 1)
      (eval o (env n) s).2 = true := allFor_always
    rw [allFor, hrest]
    rfl

/-- A process that runs alone to its end. -/
theorem reachable_runFor {i : Nat} {env : Nat → ε} {budget n : Nat} {p : Program Op Resp α} {a : α}
    {pool : Nat → Program Op Resp α} {s : σ} (hp : pool i = p)
    (h : (runFor eval (fun n => own i (env n)) budget p n s).1 = some a) :
    Transition.ReachableUnder (poolAct eval own) (fun _ _ => True) (pool, s)
      (Function.update pool i (.ret a),
        (runFor eval (fun n => own i (env n)) budget p n s).2.2) :=
  reachable_allFor (fun _ _ _ _ _ _ => trivial) hp allFor_always h

end Pool

end Interference
