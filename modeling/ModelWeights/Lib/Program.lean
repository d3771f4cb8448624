import Mathlib.Tactic.Common

/-! # Programs over atomic operations

A program is a tree: it ends with a value, or performs an operation and goes on with
the answer. An environment answers what the state does not determine. `wp` is the
weakest precondition against every environment that keeps to a condition, and
`run` carries a program out against a sequence of environments. -/

inductive Program (Op : Type) (Resp : Op → Type) (α : Type) where
  | ret (a : α)
  | op (o : Op) (k : Resp o → Program Op Resp α)

namespace Program
variable {Op : Type} {Resp : Op → Type} {α β : Type}

def bind : Program Op Resp α → (α → Program Op Resp β) → Program Op Resp β
  | .ret a, f => f a
  | .op o k, f => .op o fun r => (k r).bind f

instance : Monad (Program Op Resp) where
  pure := .ret
  bind := bind

/-- A single operation. -/
def perform (o : Op) : Program Op Resp (Resp o) := .op o .ret

section Semantics
variable {ε σ : Type} (eval : (o : Op) → ε → σ → Resp o × σ)

/-- The program ends in a state and with a value that meet `Q`, whatever the
environments that meet `ok` answer. -/
def wp (ok : ε → Prop) : Program Op Resp α → (α → σ → Prop) → σ → Prop
  | .ret a, Q, s => Q a s
  | .op o k, Q, s => ∀ e, ok e → wp ok (k (eval o e s).1) Q (eval o e s).2

/-- The value, the next environment and the state after running a program from the
`n`th environment on. -/
def run (env : Nat → ε) : Program Op Resp α → Nat → σ → α × Nat × σ
  | .ret a, n, s => (a, n, s)
  | .op o k, n, s => run env (k (eval o (env n) s).1) (n + 1) (eval o (env n) s).2

variable {eval} {ok : ε → Prop}

@[simp] theorem wp_ret {a : α} {Q : α → σ → Prop} {s : σ} :
    wp eval ok (.ret a : Program Op Resp α) Q s ↔ Q a s := Iff.rfl

@[simp] theorem wp_pure {a : α} {Q : α → σ → Prop} {s : σ} :
    wp eval ok (pure a : Program Op Resp α) Q s ↔ Q a s := Iff.rfl

theorem wp_bind : ∀ {p : Program Op Resp α} {f : α → Program Op Resp β} {Q : β → σ → Prop} {s : σ},
    wp eval ok (p >>= f) Q s ↔ wp eval ok p (fun a t => wp eval ok (f a) Q t) s
  | .ret _, _, _, _ => Iff.rfl
  | .op o k, f, Q, s => by
    have ih : ∀ e, wp eval ok (k (eval o e s).1 >>= f) Q (eval o e s).2 ↔
        wp eval ok (k (eval o e s).1) (fun a t => wp eval ok (f a) Q t) (eval o e s).2 :=
      fun e => wp_bind
    exact forall_congr' fun e => imp_congr_right fun _ => ih e

/-- The rule of consequence. -/
theorem wp_mono : ∀ {p : Program Op Resp α} {Q Q' : α → σ → Prop} {s : σ},
    wp eval ok p Q s → (∀ a t, Q a t → Q' a t) → wp eval ok p Q' s
  | .ret a, _, _, s, h, hQ => hQ a s h
  | .op _ _, _, _, _, h, hQ => fun e he => wp_mono (h e he) hQ

/-- A specification of the first part and one of the rest. -/
theorem wp_seq {p : Program Op Resp α} {f : α → Program Op Resp β} {Q : α → σ → Prop}
    {Q' : β → σ → Prop} {s : σ} (h : wp eval ok p Q s)
    (hf : ∀ a t, Q a t → wp eval ok (f a) Q' t) : wp eval ok (p >>= f) Q' s :=
  wp_bind.mpr (wp_mono h hf)

/-- Every run against environments that keep to the condition meets the
postcondition. -/
theorem run_of_wp {env : Nat → ε} (henv : ∀ n, ok (env n)) : ∀ {p : Program Op Resp α}
    {Q : α → σ → Prop} {n : Nat} {s : σ}, wp eval ok p Q s →
    Q (run eval env p n s).1 (run eval env p n s).2.2
  | .ret _, _, _, _, h => h
  | .op o k, Q, n, s, h => by
    have hrest : wp eval ok (k (eval o (env n) s).1) Q (eval o (env n) s).2 := h (env n) (henv n)
    exact @run_of_wp env henv (k (eval o (env n) s).1) Q (n + 1) (eval o (env n) s).2 hrest

/-! ## Programs that can be stopped -/

/-- At most `budget` operations of a program, from the `n`th environment on. No value
is returned if the program was stopped before its end. -/
def runFor (eval : (o : Op) → ε → σ → Resp o × σ) (env : Nat → ε) :
    Nat → Program Op Resp α → Nat → σ → Option α × Nat × σ
  | _, .ret a, n, s => (some a, n, s)
  | 0, .op _ _, n, s => (none, n, s)
  | budget + 1, .op o k, n, s =>
    runFor eval env budget (k (eval o (env n) s).1) (n + 1) (eval o (env n) s).2

/-- What is left of a program after at most `budget` operations. -/
def advance (eval : (o : Op) → ε → σ → Resp o × σ) (env : Nat → ε) :
    Nat → Program Op Resp α → Nat → σ → Program Op Resp α × Nat × σ
  | _, .ret a, n, s => (.ret a, n, s)
  | 0, .op o k, n, s => (.op o k, n, s)
  | budget + 1, .op o k, n, s =>
    advance eval env budget (k (eval o (env n) s).1) (n + 1) (eval o (env n) s).2

/-- Of a program that returned nothing is left but its value. -/
theorem advance_of_runFor {env : Nat → ε} {a : α} {budget : Nat} : ∀ {p : Program Op Resp α}
    {n : Nat} {s : σ}, (runFor eval env budget p n s).1 = some a →
    advance eval env budget p n s = (.ret a, (runFor eval env budget p n s).2) := by
  induction budget with
  | zero =>
    intro p n s h
    cases p with
    | ret b =>
      obtain rfl := Option.some.inj h
      rfl
    | op o k => cases h
  | succ budget ih =>
    intro p n s h
    cases p with
    | ret b =>
      obtain rfl := Option.some.inj h
      rfl
    | op o k => exact ih h

/-- Every operation of such a run meets `allowed`. -/
def allFor (eval : (o : Op) → ε → σ → Resp o × σ) (env : Nat → ε) (allowed : Op → Bool) :
    Nat → Program Op Resp α → Nat → σ → Bool
  | _, .ret _, _, _ => true
  | 0, .op _ _, _, _ => true
  | budget + 1, .op o k, n, s =>
    allowed o && allFor eval env allowed budget (k (eval o (env n) s).1) (n + 1) (eval o (env n) s).2

/-! ## Values -/

/-- Some answers to its operations lead a program to a value. -/
inductive Returns : Program Op Resp α → α → Prop where
  | ret (a : α) : Returns (.ret a) a
  | op {o : Op} {k : Resp o → Program Op Resp α} {a : α} (r : Resp o) (h : Returns (k r) a) :
    Returns (.op o k) a

theorem returns_pure {a b : α} : Returns (pure a : Program Op Resp α) b ↔ b = a := by
  refine ⟨fun h => ?_, fun h => h ▸ .ret a⟩
  cases h
  rfl

theorem returns_bind {f : α → Program Op Resp β} {b : β} : ∀ {p : Program Op Resp α},
    Returns (p >>= f) b ↔ ∃ a, Returns p a ∧ Returns (f a) b
  | .ret a => by
    refine ⟨fun h => ⟨a, .ret a, h⟩, ?_⟩
    rintro ⟨_, h, hf⟩
    cases h
    exact hf
  | .op o k => by
    have ih : ∀ r, Returns (k r >>= f) b ↔ ∃ a, Returns (k r) a ∧ Returns (f a) b :=
      fun r => returns_bind
    constructor
    · intro h
      cases h with
      | op r h =>
        obtain ⟨a, ha, hf⟩ := (ih r).mp h
        exact ⟨a, .op r ha, hf⟩
    · rintro ⟨a, h, hf⟩
      cases h with
      | op r h => exact .op r ((ih r).mpr ⟨a, h, hf⟩)

theorem returns_run {env : Nat → ε} : ∀ {p : Program Op Resp α} {n : Nat} {s : σ},
    Returns p (run eval env p n s).1
  | .ret a, _, _ => .ret a
  | .op _ _, _, _ => .op _ returns_run

/-! ## Programs with few kinds of operations -/

/-- Every operation of a program meets `P`. -/
def Only (P : Op → Prop) : Program Op Resp α → Prop
  | .ret _ => True
  | .op o k => P o ∧ ∀ r, (k r).Only P

theorem only_bind {P : Op → Prop} : ∀ {p : Program Op Resp α} {f : α → Program Op Resp β},
    p.Only P → (∀ a, (f a).Only P) → (p >>= f).Only P
  | .ret a, _, _, hf => hf a
  | .op _ _, _, hp, hf => ⟨hp.1, fun r => only_bind (hp.2 r) hf⟩

end Semantics

end Program
