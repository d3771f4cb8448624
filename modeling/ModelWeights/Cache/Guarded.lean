import ModelWeights.Cache.Service
import ModelWeights.Lib.Interference

/-! # Tasks under a protocol

The rules of `Interference` for the tasks and actions of the service. -/
namespace ModelWeights.Cache
open Program Interference

abbrev CacheProtocol := Protocol FileOp Env Files

/-- A task keeps to a protocol. -/
def CacheProtocol.Does {α : Type} (P : CacheProtocol) (task : Task α) (Q : α → Files → Prop)
    (fs : Files) : Prop := Guards FileOp.eval P task Q fs

/-- The value of an action meets `A`, or it failed and the files meet `E`. -/
def After {α : Type} (A : α → Files → Prop) (E : Files → Prop) : Result α → Files → Prop
  | .ok a, t => A a t
  | .error _, t => E t

/-- The answer of a step meets `A`, or it failed and the files meet `E`. -/
def Tried {α : Type} (A : α → Files → Prop) (E : Files → Prop) : IoResult α → Files → Prop
  | .ok a, t => A a t
  | .error _, t => E t

/-- An action keeps to a protocol. -/
def CacheProtocol.Acts {α : Type} (P : CacheProtocol) (action : Action α) (A : α → Files → Prop)
    (E : Files → Prop) (fs : Files) : Prop := P.Does action.run (After A E) fs

/-- A task under a lease keeps to a protocol. -/
def CacheProtocol.Leads {α : Type} (P : CacheProtocol) (task : Task (Result α × WriterLease))
    (A : α → Files → Prop) (E : Files → Prop) (fs : Files) : Prop :=
  P.Does task (fun r => After A E r.1) fs

section Rules
variable {P : CacheProtocol} {α β : Type} {fs : Files} {E : Files → Prop} {A : α → Files → Prop}
  {B : β → Files → Prop}

theorem does_bind {x : Task α} {f : α → Task β} (hx : P.Does x A fs)
    (hf : ∀ a t, P.inv t → A a t → P.Does (f a) B t) : P.Does (x >>= f) B fs :=
  guards_bind hx hf

theorem does_pure {a : α} (hA : P.Stable (A a)) (h : A a fs) : P.Does (pure a) A fs :=
  guards_pure hA h

theorem does_step {o : FileOp} {R : o.Resp → Files → Prop}
    (h : ∀ t, P.rely fs t → P.inv t → ∀ env, P.admits o env t → P.inv (o.eval env t).2 ∧
      P.guarantee t (o.eval env t).2 ∧ R (o.eval env t).1 (o.eval env t).2)
    (hR : ∀ r, P.Stable (R r)) : P.Does (step o) R fs :=
  guards_perform fun t ht hi env henv =>
    ⟨(h t ht hi env henv).1, (h t ht hi env henv).2.1,
      fun u hu hi' => hR _ _ u (h t ht hi env henv).2.2 hu hi'⟩

theorem acts_bind {x : Action α} {f : α → Action β} (hE : P.Stable E) (hx : P.Acts x A E fs)
    (hf : ∀ a t, P.inv t → A a t → P.Acts (f a) B E t) : P.Acts (x >>= f) B E fs := by
  refine does_bind hx fun r t hi hr => ?_
  cases r with
  | ok a => exact hf a t hi hr
  | error e => exact does_pure hE hr

theorem acts_pure {a : α} (hA : P.Stable (A a)) (h : A a fs) : P.Acts (pure a) A E fs :=
  does_pure hA h

theorem acts_throw {e : Error} (hE : P.Stable E) (h : E fs) :
    P.Acts (throw e : Action α) A E fs := does_pure hE h

theorem acts_seq {x : Task α} {f : α → Action β} (hx : P.Does x A fs)
    (hf : ∀ a t, P.inv t → A a t → P.Acts (f a) B E t) : P.Acts (liftM x >>= f) B E fs := by
  have hlift : P.Does (x >>= fun a => pure (Except.ok a : Result α))
      (fun r t => ∃ a, r = .ok a ∧ P.Acts (f a) B E t) fs := by
    refine does_bind hx fun a t hi ha => does_pure ?_ ⟨a, rfl, hf a t hi ha⟩
    rintro s u ⟨a, hr, hs⟩ hsu _
    exact ⟨a, hr, Guards.later hs hsu⟩
  refine does_bind hlift fun r t _ hr => ?_
  obtain ⟨a, rfl, hr⟩ := hr
  exact hr

theorem stable_tried (hE : P.Stable E) (hA : ∀ a, P.Stable (A a)) (r : IoResult α) :
    P.Stable (Tried A E r) := by
  cases r with
  | ok a => exact hA a
  | error e => exact hE

theorem acts_attempt {message : String} {x : Task (IoResult α)} (hE : P.Stable E)
    (hA : ∀ a, P.Stable (A a)) (hx : P.Does x (Tried A E) fs) :
    P.Acts (attempt message x) A E fs := by
  refine acts_seq hx fun r t _ hr => ?_
  cases r with
  | ok a => exact acts_pure (hA a) hr
  | error e => exact acts_throw hE hr

theorem leads_andThen {x : Task (Result α × WriterLease)}
    {f : α → WriterLease → Task (Result β × WriterLease)} (hE : P.Stable E)
    (hx : P.Leads x A E fs) (hf : ∀ a lease t, P.inv t → A a t → P.Leads (f a lease) B E t) :
    P.Leads (andThen x f) B E fs := by
  refine does_bind hx fun r t hi hr => ?_
  match r with
  | (.ok a, lease) => exact hf a lease t hi hr
  | (.error e, lease) => exact does_pure (a := ((.error e, lease) : Result β × WriterLease)) hE hr

theorem leads_keeping {lease : WriterLease} {action : Action α} (hE : P.Stable E)
    (hA : ∀ a, P.Stable (A a)) (h : P.Acts action A E fs) : P.Leads (keeping lease action) A E fs := by
  refine does_bind h fun r t _ hr => ?_
  cases r with
  | ok a => exact does_pure (a := ((.ok a, lease) : Result α × WriterLease)) (hA a) hr
  | error e => exact does_pure (a := ((.error e, lease) : Result α × WriterLease)) hE hr

theorem leads_pure {a : α} {lease : WriterLease} (hA : P.Stable (A a)) (h : A a fs) :
    P.Leads (pure (.ok a, lease)) A E fs :=
  does_pure (a := ((.ok a, lease) : Result α × WriterLease)) hA h

theorem leads_error {e : Error} {lease : WriterLease} (hE : P.Stable E) (h : E fs) :
    P.Leads (pure (.error e, lease) : Task (Result α × WriterLease)) A E fs :=
  does_pure (a := ((.error e, lease) : Result α × WriterLease)) hE h

theorem CacheProtocol.Acts.weaken {action : Action α} {E' : Files → Prop} (h : P.Acts action A E fs)
    (hE : ∀ t, E t → E' t) : P.Acts action A E' fs :=
  Guards.mono h fun r t _ hr => by
    cases r with
    | ok a => exact hr
    | error e => exact hE t hr

theorem CacheProtocol.Leads.weaken {task : Task (Result α × WriterLease)} {E' : Files → Prop}
    (h : P.Leads task A E fs) (hE : ∀ t, E t → E' t) : P.Leads task A E' fs :=
  Guards.mono h fun r t _ hr => by
    rcases r with ⟨_ | a, _⟩
    · exact hE t hr
    · exact hr

end Rules

/-! ## Values -/

/-- Some answers to its steps lead an action to a value. -/
def Produces {α : Type} (action : Action α) (a : α) : Prop := Returns action.run (.ok a)

section Produces
variable {α β : Type} {x : Action α} {f : α → Action β} {a : α} {b : β}

theorem produces_pure {c : α} : Produces (pure a : Action α) c ↔ c = a :=
  (returns_pure (a := (.ok a : Result α))).trans ⟨Except.ok.inj, congrArg _⟩

theorem not_produces_throw {e : Error} : ¬Produces (throw e : Action α) a := fun h => by
  cases returns_pure.mp h

theorem produces_bind : Produces (x >>= f) b ↔ ∃ a, Produces x a ∧ Produces (f a) b := by
  refine returns_bind.trans ⟨?_, ?_⟩
  · rintro ⟨r, hr, hf⟩
    cases r with
    | ok a => exact ⟨a, hr, hf⟩
    | error e => cases returns_pure.mp hf
  · rintro ⟨a, ha, hf⟩
    exact ⟨.ok a, ha, hf⟩

end Produces

/-- Whatever the files are, an action keeps to a protocol and its value meets `R`. -/
def CacheProtocol.Yields {α : Type} (P : CacheProtocol) (x : Action α) (R : α → Prop) : Prop :=
  ∀ fs, P.Acts x (fun a _ => R a) (fun _ => True) fs

section Yields
variable {P : CacheProtocol} {α β : Type} {R : α → Prop} {S : β → Prop}

/-- Facts that do not depend on the files are stable. -/
theorem stable_fact {F : Prop} : P.Stable fun _ => F := fun _ _ h _ _ => h

theorem yields_pure {a : α} (h : R a) : P.Yields (pure a) R := fun _ => acts_pure stable_fact h

theorem yields_throw {e : Error} : P.Yields (throw e : Action α) R :=
  fun _ => acts_throw stable_fact trivial

theorem yields_bind {x : Action α} {f : α → Action β} (hx : P.Yields x R)
    (hf : ∀ a, R a → P.Yields (f a) S) : P.Yields (x >>= f) S := fun fs =>
  acts_bind stable_fact (hx fs) fun a t _ ha => hf a ha t

theorem yields_seq {x : Task α} {f : α → Action β} (hx : ∀ fs, P.Does x (fun a _ => R a) fs)
    (hf : ∀ a, R a → P.Yields (f a) S) : P.Yields (liftM x >>= f) S := fun fs =>
  acts_seq (hx fs) fun a t _ ha => hf a ha t

/-- Goes on with the outcome of an action. -/
theorem yields_outcome {x : Action α} {f : Result α → Action β} (hx : P.Yields x R)
    (hf : ∀ r, (∀ a, r = .ok a → R a) → P.Yields (f r) S) : P.Yields (outcome x >>= f) S := by
  refine yields_seq (R := fun r : Result α => ∀ a, r = .ok a → R a)
    (fun fs => Guards.mono (hx fs) fun r t _ hr => ?_) hf
  rintro a rfl
  exact hr

theorem CacheProtocol.Yields.mono {x : Action α} {R' : α → Prop} (h : P.Yields x R)
    (hR : ∀ a, R a → R' a) : P.Yields x R' := fun fs =>
  Guards.mono (h fs) fun r t _ hr => by
    cases r with
    | ok a => exact hR a hr
    | error e => exact hr

/-- The value is one that the action produces. -/
theorem CacheProtocol.Yields.produces {x : Action α} (h : P.Yields x R) :
    P.Yields x fun a => R a ∧ Produces x a := fun fs =>
  Guards.mono (Guards.returns (h fs)) fun r t _ hr => by
    cases r with
    | ok a => exact hr
    | error e => exact hr.1

end Yields

end ModelWeights.Cache
