import ModelWeights.Cache.Exclusive

/-! # Leases under interference

Every function of a writer lease takes away, and writes to, what its process holds only. -/
namespace ModelWeights.Cache
open Program Interference

variable {x : Contender} {ns : CacheNamespace} {key : CacheKey} {c : CacheService} {fs t : Files}
  {path : Path} {inode : Nat} {A B : Files → Prop}

/-! ## Steps of a process -/

section Steps

theorem does_exclusive {o : FileOp} {R : o.Resp → Files → Prop}
    (h : ∀ t, x.protocol.rely fs t → x.protocol.inv t → ∀ env, env.process = x.process →
      ¬o.Judges env t → (o.eval env t).2.Pinned x.pins x.sha256 ∧
        Respects x.pins x.process t (o.eval env t).2 ∧ R (o.eval env t).1 (o.eval env t).2)
    (hR : ∀ r, x.protocol.Stable (R r)) : x.protocol.Does (step o) R fs :=
  does_step (fun t ht hi env henv => by
    obtain ⟨hpinned, hrespects, hr⟩ := h t ht hi env henv.1.1 henv.1.2
    exact ⟨⟨henv.2.1, hpinned⟩, hrespects, hr⟩) hR

/-- A step that only reads, under an assertion. -/
theorem does_reading {o : FileOp} {R : o.Resp → Files → Prop} (ho : o.Reading)
    (hA : x.protocol.Stable A) (h : A fs) (hR : ∀ r, x.protocol.Stable (R r))
    (hr : ∀ env t, x.protocol.inv t → A t → ¬o.Judges env t → R (o.eval env t).1 t) :
    x.protocol.Does (step o) R fs := by
  refine does_exclusive (fun t ht hi env _ hjudges => ?_) hR
  have hanswer := hr env t hi (hA fs t h ht hi) hjudges
  rw [ho.eval env t]
  exact ⟨hi.2, .refl, hanswer⟩

/-- Steps that only read keep every assertion that the others keep. -/
def observingDiscipline (hA : x.protocol.Stable A) : Discipline where
  holds task := ∀ fs, A fs → x.protocol.Does task (fun _ => A) fs
  ok := FileOp.Reading
  removable _ := False
  ret _ _ h := does_pure hA h
  bind hx hf fs h := does_bind (hx fs h) fun a t _ ht => hf a t ht
  step ho _ h := does_reading ho hA h (fun _ => hA) fun _ _ _ ht _ => ht
  reading := id
  removal := False.elim

theorem acts_reading {α : Type} {action : Action α} (hA : x.protocol.Stable A)
    (ha : (observingDiscipline hA).acts action) (h : A fs) :
    x.protocol.Acts action (fun _ => A) A fs :=
  Guards.mono (ha fs h) fun r t _ ht => by cases r <;> exact ht

theorem stable_always : x.protocol.Stable fun _ => True := fun _ _ _ _ _ => trivial

theorem stable_holds : x.protocol.Stable (Holds x.process ns key) :=
  fun _ _ h ht _ => ht.2.held ns key h

/-- Names and creators stay as they are. -/
structure Gentle (fs t : Files) : Prop where
  names : t.names = fs.names
  next : t.next = fs.next
  creator : ∀ i, (t.dirs i).creator = (fs.dirs i).creator

theorem Gentle.holds {process : Nat} (h : Gentle fs t) (hh : Holds process ns key fs) :
    Holds process ns key t := by
  obtain ⟨i, hn, hc⟩ := hh
  exact ⟨i, by rw [h.names, hn], by rw [h.creator, hc]⟩

theorem Gentle.owned {process : Nat} (h : Gentle fs t) (ho : Owned process path inode fs) :
    Owned process path inode t :=
  ⟨ho.staging, by rw [h.names, ho.named], by rw [h.creator, ho.creator], trivial⟩

/-- A step writes into a directory that the process may write into, or changes nothing. -/
def Tame (x : Contender) (o : FileOp) (fs : Files) : Prop :=
  ∀ env, (o.eval env fs).2 = fs ∨ ∃ inode d, (o.eval env fs).2 = fs.setDir inode d ∧
    Writable x.pins x.process inode fs ∧ d.creator = (fs.dirs inode).creator

theorem Tame.gentle {o : FileOp} (h : Tame x o fs) (env : Env) : Gentle fs (o.eval env fs).2 := by
  rcases h env with hsame | ⟨inode, d, hset, _, hc⟩
  · rw [hsame]
    exact ⟨rfl, rfl, fun _ => rfl⟩
  · rw [hset]
    refine ⟨rfl, rfl, fun i => ?_⟩
    by_cases hi : i = inode
    · subst hi
      exact (congrArg Directory.creator (if_pos rfl)).trans hc
    · exact congrArg Directory.creator (if_neg hi)

theorem Tame.step {o : FileOp} {env : Env} (h : Tame x o fs) (hi : x.protocol.inv fs)
    (henv : x.protocol.admits o env fs) : x.protocol.inv (o.eval env fs).2 ∧
      x.protocol.guarantee fs (o.eval env fs).2 ∧ Gentle fs (o.eval env fs).2 := by
  refine ⟨⟨henv.2.1, ?_⟩, ?_, h.gentle env⟩
  · rcases h env with hsame | ⟨inode, d, hset, hw, _⟩
    · rw [hsame]
      exact hi.2
    · rw [hset]
      exact Files.Pinned.setDir hi.2 hw d
  · rcases h env with hsame | ⟨inode, d, hset, hw, hc⟩
    · rw [hsame]
      exact Respects.refl
    · rw [hset]
      exact hw.setDir hc

theorem does_tame {o : FileOp} {R : o.Resp → Files → Prop}
    (h : ∀ t, x.protocol.rely fs t → x.protocol.inv t → Tame x o t)
    (hr : ∀ t env, x.protocol.rely fs t → x.protocol.inv t → Gentle t (o.eval env t).2 →
      R (o.eval env t).1 (o.eval env t).2)
    (hR : ∀ r, x.protocol.Stable (R r)) : x.protocol.Does (step o) R fs := by
  refine does_step (fun t ht hi env henv => ?_) hR
  obtain ⟨hinv, hg, hgentle⟩ := (h t ht hi).step hi henv
  exact ⟨hinv, hg, hr t env ht hi hgentle⟩

theorem lease_not_entry : (leasePath ns key).name.kind ≠ .entry := by
  simp [leasePath, Name.kind]

/-- A write at a path that is no entry. -/
theorem tame_change {o : FileOp} {α : Type} {f : Env → Nat → Directory → IoResult (α × Directory)}
    (hi : x.protocol.inv fs) (hk : path.name.kind ≠ .entry)
    (ho : ∀ env, (o.eval env fs).2 = fs ∨ (o.eval env fs).2 = (fs.change path (f env)).2)
    (hf : ∀ env i a d d', f env i d = .ok (a, d') → d'.creator = d.creator) : Tame x o fs := by
  intro env
  rcases ho env with hsame | hchange
  · exact .inl hsame
  · rw [hchange]
    rcases fs.change_cases path (f env) with ⟨e, he⟩ | ⟨i, a, d, hn, hd, he⟩
    · exact .inl (by rw [he])
    · exact .inr ⟨i, d, by rw [he], hi.1.valid.writable hn hk, hf env i a _ d hd⟩

theorem eval_cases (o : FileOp) (env : Env) (fs : Files) :
    (o.eval env fs).2 = fs ∨ o.eval env fs = o.effect env fs := by
  rw [FileOp.eval]
  split
  · exact .inl rfl
  · exact .inr rfl

theorem tame_writeOwner {owner : Token} (hi : x.protocol.inv fs) :
    Tame x (.writeOwner (leasePath ns key) owner) fs :=
  tame_change hi lease_not_entry
    (fun env => (eval_cases _ env fs).imp_right fun h => by rw [h, FileOp.effect])
    fun _ _ _ _ _ h => by
      obtain ⟨_, rfl⟩ := Prod.mk.inj (Except.ok.inj h)
      rfl

theorem tame_writeHeartbeat (hi : x.protocol.inv fs) :
    Tame x (.writeHeartbeat (leasePath ns key)) fs :=
  tame_change hi lease_not_entry
    (fun env => (eval_cases _ env fs).imp_right fun h => by rw [h, FileOp.effect])
    fun _ _ _ _ _ h => by
      obtain ⟨_, rfl⟩ := Prod.mk.inj (Except.ok.inj h)
      rfl

theorem tame_refreshHeartbeat (hi : x.protocol.inv fs) :
    Tame x (.refreshHeartbeat (leasePath ns key)) fs :=
  tame_change hi lease_not_entry
    (fun env => (eval_cases _ env fs).imp_right fun h => by rw [h, FileOp.effect])
    fun _ _ _ _ _ h => by
      split at h
      · cases h
      · obtain ⟨_, rfl⟩ := Prod.mk.inj (Except.ok.inj h)
        rfl

theorem tame_unlink {file : File} (hw : Writable x.pins x.process inode fs) :
    Tame x (.unlink inode file) fs := by
  intro env
  rcases eval_cases (.unlink inode file) env fs with hsame | heffect
  · exact .inl hsame
  · rw [heffect, FileOp.effect]
    split
    · exact .inr ⟨inode, _, rfl, hw, below_unlink.creator⟩
    · exact .inl rfl

end Steps

/-! ## Removal -/

/-- A directory is removed whose files the process may remove, and whose name it may take. -/
theorem exclusive_removeDirAll {W : Nat → Files → Prop} (hA : x.protocol.Stable A)
    (hB : x.protocol.Stable B) (hW : ∀ inode, x.protocol.Stable fun t => B t ∧ W inode t)
    (hopen : ∀ t inode, x.protocol.inv t → B t → t.names.get? path = some inode → W inode t)
    (hwrite : ∀ t inode, x.protocol.inv t → B t → W inode t → Writable x.pins x.process inode t)
    (hgentle : ∀ t u inode, B t → W inode t → Gentle t u → B u ∧ W inode u)
    (htakes : ∀ t, B t → Takes x.pins x.process t path) (hBA : ∀ t, B t → A t)
    (hremoved : ∀ t, x.protocol.inv t → B t → A (t.removeDir path).2) (h : B fs) :
    x.protocol.Does (removeDirAll path) (fun _ => A) fs := by
  have hstep : x.protocol.Does (step (.openDir path))
      (fun r t => B t ∧ ∀ inode files, r = .ok (inode, files) → W inode t) fs := by
    refine does_reading trivial hB h (fun r => ?_) fun env t hi ht _ => ⟨ht, ?_⟩
    · intro s u hs hsu hi
      refine ⟨hB s u hs.1 hsu hi, fun inode files hr => ?_⟩
      exact (hW inode s u ⟨hs.1, hs.2 inode files hr⟩ hsu hi).2
    · intro inode files hr
      refine hopen t inode hi ht ?_
      rw [FileOp.eval] at hr
      split at hr
      · next r' hr' =>
        cases hfault : env.fault with
        | true =>
          rw [hfault] at hr'
          obtain rfl := Option.some.inj hr'
          cases hr
        | false =>
          rw [hfault] at hr'
          cases hr'
      · rw [FileOp.effect] at hr
        cases hn : t.names.get? path with
        | none =>
          rw [hn] at hr
          cases hr
        | some i =>
          rw [hn] at hr
          rw [(Prod.mk.inj (Except.ok.inj hr)).1]
  refine does_bind hstep fun r t _ hr => ?_
  cases r with
  | error e => exact does_pure hA (hBA t hr.1)
  | ok opened =>
    obtain ⟨inode, files⟩ := opened
    have hunlink : x.protocol.Does (unlinkAll inode files) (fun _ t => B t ∧ W inode t) t := by
      refine Only.guards (fun o env s ho henv hi hs => ?_) (hW inode) only_unlinkAll
        ⟨hr.1, hr.2 inode files rfl⟩
      obtain ⟨file, rfl⟩ := ho
      have htame : Tame x (.unlink inode file) s := tame_unlink (hwrite s inode hi hs.1 hs.2)
      obtain ⟨hinv, hg, hgentle'⟩ := htame.step hi henv
      exact ⟨hinv, hg, hgentle s _ inode hs.1 hs.2 hgentle'⟩
    refine does_bind hunlink fun r t _ hr => ?_
    cases r with
    | error e => exact does_pure hA (hBA t hr.1)
    | ok u =>
      refine does_exclusive (fun t' ht hi env _ _ => ?_) fun _ => hA
      have hnow := hB t t' hr.1 ht hi
      rcases eval_cases (.removeDir path) env t' with hsame | heffect
      · rw [hsame]
        exact ⟨hi.2, .refl, hBA t' hnow⟩
      · rw [heffect, FileOp.effect]
        obtain ⟨hrespects, hpinned⟩ := (htakes t' hnow).removeDir
        exact ⟨hpinned hi.2, hrespects, hremoved t' hi hnow⟩

theorem exclusive_removeReaped {token : Token} :
    x.protocol.Does (removeDirAll ⟨ns, .reap key token⟩) (fun _ _ => True) fs := by
  refine exclusive_removeDirAll (B := fun _ => True) (W := fun inode t => inode < t.next ∧
    ∀ q, t.names.get? q = some inode → q.name.kind = .lease) stable_always stable_always
    (fun inode s t hs hst _ => ⟨trivial, ?_, ?_⟩) (fun t inode hi _ hn => ⟨?_, ?_⟩)
    (fun t inode _ _ hw q hn hk => ?_) (fun t u inode _ hw hgentle => ⟨trivial, ?_, ?_⟩)
    (fun _ _ => .reap rfl fun ns key h => ?_) (fun _ _ => trivial) (fun _ _ _ => trivial) trivial
  · exact Nat.lt_of_lt_of_le hs.2.1 hst.1.next
  · intro q hn
    rcases hst.1.origin q inode hn with hnew | ⟨q', hq', hkind⟩
    · exact absurd hs.2.1 (Nat.not_lt.mpr hnew)
    · have hlease := hs.2.2 q' hq'
      rcases hkind with hkind | ⟨hstaging, _⟩
      · rw [← hkind, hlease]
      · rw [hlease] at hstaging
        cases hstaging
  · exact hi.1.valid.fresh _ inode hn
  · intro q hq
    obtain rfl := hi.1.valid.unique q _ inode hq hn
    rfl
  · rw [hw.2 q hn] at hk
    cases hk
  · rw [hgentle.next]
    exact hw.1
  · intro q hn
    rw [hgentle.names] at hn
    exact hw.2 q hn
  · obtain ⟨_, hname⟩ := Path.mk.inj h
    cases hname

/-! ## Leases -/

section Leases
variable {lease : WriterLease}

/-- The lease of a key becomes a directory of no key, and is removed. -/
theorem does_reap {token : Token} (h : Holds x.process ns key fs) :
    x.protocol.Does (step (.rename (leasePath ns key) ⟨ns, .reap key token⟩))
      (fun _ _ => True) fs := by
  refine does_exclusive (fun t ht hi env _ _ => ?_) fun _ => stable_always
  have hnow := stable_holds fs t h ht hi
  rcases eval_cases (.rename (leasePath ns key) ⟨ns, .reap key token⟩) env t with hsame | heffect
  · rw [hsame]
    exact ⟨hi.2, .refl, trivial⟩
  · rw [heffect, FileOp.effect]
    have hreap : ∀ ns' key', (⟨ns, .reap key token⟩ : Path) ≠ leasePath ns' key' := by
      intro ns' key' hpath
      obtain ⟨_, hname⟩ := Path.mk.inj hpath
      cases hname
    have hmoved : Respects x.pins x.process t (t.rename (leasePath ns key) ⟨ns, .reap key token⟩).2 ∧
        (t.Pinned x.pins x.sha256 →
          (t.rename (leasePath ns key) ⟨ns, .reap key token⟩).2.Pinned x.pins x.sha256) :=
      respects_rename (.lease ns key rfl hnow) (.reap rfl hreap)
    exact ⟨hmoved.2 hi.2, hmoved.1, trivial⟩

theorem exclusive_reapDirectory (h : Holds x.process ns key fs) :
    x.protocol.Acts (reapDirectory ns key) (fun _ _ => True) (fun _ => True) fs := by
  refine acts_seq (does_reading (o := .token) trivial stable_holds h (fun _ => stable_holds)
    fun _ _ _ ht _ => ht) fun token t _ ht => acts_seq (does_reap ht) fun r t _ _ => ?_
  match r with
  | .ok () =>
    refine acts_attempt stable_always (fun _ => stable_always) ?_
    exact Guards.mono exclusive_removeReaped fun r _ _ _ => by cases r <;> trivial
  | .error .notFound => exact acts_pure stable_always trivial
  | .error .alreadyExists | .error .notEmpty | .error .other =>
    exact acts_throw stable_always trivial

theorem exclusive_releaseWriterLease (h : Holds x.process ns key fs) :
    x.protocol.Does (releaseWriterLease ns key) (fun _ _ => True) fs := by
  refine does_bind (does_reading (o := .token) trivial stable_holds h (fun _ => stable_holds)
    fun _ _ _ ht _ => ht) fun token t _ ht => does_bind (does_reap ht) fun r t _ _ => ?_
  match r with
  | .ok () =>
    exact does_bind exclusive_removeReaped fun _ _ _ _ => does_pure stable_always trivial
  | .error _ => exact does_pure stable_always trivial

theorem exclusive_drop (h : Holds x.process lease.ns lease.key fs) :
    x.protocol.Does lease.drop (fun _ _ => True) fs := by
  unfold WriterLease.drop
  split
  · refine does_bind (does_reading (o := .readOwner _) trivial stable_holds h (fun _ => stable_holds)
      fun _ _ _ ht _ => ht) fun r t _ ht => ?_
    match r with
    | .error _ => exact does_pure stable_always trivial
    | .ok owner =>
      dsimp only
      split
      · exact exclusive_releaseWriterLease ht
      · exact does_pure stable_always trivial
  · exact does_pure stable_always trivial

/-- What a process knows while it holds a lease. A pinned key whose entry it has not found
has none. -/
structure Leased (x : Contender) (ns : CacheNamespace) (key : CacheKey) (fs : Files) : Prop where
  holds : Holds x.process ns key fs
  vacant : x.pins ns key ≠ none → fs.names.get? (entryPath ns key) = none

theorem stable_leased : x.protocol.Stable (Leased x ns key) := by
  intro s t h ht hi
  refine ⟨stable_holds s t h.holds ht hi, fun hp => ?_⟩
  rw [(ht.2.entries ns key h.holds).names _ serves_entryPath]
  exact h.vacant hp

theorem Leased.gentle (h : Leased x ns key fs) (hgentle : Gentle fs t) : Leased x ns key t :=
  ⟨hgentle.holds h.holds, fun hp => by rw [hgentle.names]; exact h.vacant hp⟩

/-- A heartbeat keeps what gentle steps keep. -/
theorem exclusive_refresh (hA : x.protocol.Stable A) (hgentle : ∀ s t, A s → Gentle s t → A t)
    (h : A fs) : x.protocol.Does lease.refresh
      (fun r t => A t ∧ r.2.ns = lease.ns ∧ r.2.key = lease.key) fs := by
  have hret : ∀ {t : Files} {r : Result Unit} {lease' : WriterLease}, A t →
      lease'.ns = lease.ns → lease'.key = lease.key →
      x.protocol.Does (pure (r, lease') : Task (Result Unit × WriterLease))
        (fun r t => A t ∧ r.2.ns = lease.ns ∧ r.2.key = lease.key) t := by
    intro t r lease' ht hns hkey
    exact does_pure (fun s u hs hsu hi => ⟨hA s u hs.1 hsu hi, hs.2⟩) ⟨ht, hns, hkey⟩
  refine does_bind (does_reading (o := .readOwner _) trivial hA h (fun _ => hA)
    fun _ _ _ ht _ => ht) fun r t _ ht => ?_
  match r with
  | .error _ => exact hret ht rfl rfl
  | .ok owner =>
    dsimp only
    split
    · exact hret ht rfl rfl
    · refine does_bind (does_tame (R := fun _ => A) (fun t _ hi => tame_refreshHeartbeat hi)
        (fun t' env ht' hi hg => hgentle t' _ (hA t t' ht ht' hi) hg) fun _ => hA) fun r t _ ht => ?_
      match r with
      | .error _ => exact hret ht rfl rfl
      | .ok () => exact hret ht rfl rfl

/-- No lease is judged stale. -/
theorem exclusive_leaseIsStale :
    x.protocol.Acts (leaseIsStale c ns key) (fun stale _ => stale = false) (fun _ => True) fs := by
  have hstale : ∀ {b : Bool}, x.protocol.Stable fun _ => b = false := fun _ _ h _ _ => h
  refine acts_bind stable_always (acts_reading stable_always Discipline.acts_checkCancelled
    trivial) fun _ t _ _ => acts_seq (does_reading (o := .heartbeatOld (leasePath ns key)
      c.options.staleAfter) (R := fun r _ => r ≠ .ok true) trivial stable_always trivial
      (fun _ _ _ h _ _ => h) fun env t _ _ hj => hj) fun r t _ hr => ?_
  match r with
  | .ok stale => exact acts_pure hstale (by cases stale <;> [rfl; exact absurd rfl hr])
  | .error .alreadyExists | .error .notEmpty | .error .other =>
    exact acts_throw stable_always trivial
  | .error .notFound =>
    refine acts_seq (does_reading (o := .modifiedOld (leasePath ns key) c.options.staleAfter)
      (R := fun r _ => r ≠ .ok true) trivial stable_always trivial (fun _ _ _ h _ _ => h)
      fun env t _ _ hj => hj) fun r t _ hr => ?_
    match r with
    | .ok stale => exact acts_pure hstale (by cases stale <;> [rfl; exact absurd rfl hr])
    | .error .notFound => exact acts_pure hstale rfl
    | .error .alreadyExists | .error .notEmpty | .error .other =>
      exact acts_throw stable_always trivial

/-- A lease of a key that its process holds. -/
def Acquired (x : Contender) (ns : CacheNamespace) (key : CacheKey) (lease : WriterLease)
    (fs : Files) : Prop :=
  Holds x.process ns key fs ∧ lease.ns = ns ∧ lease.key = key

theorem stable_acquired : x.protocol.Stable (Acquired x ns key lease) :=
  fun s t h ht hi => ⟨stable_holds s t h.1 ht hi, h.2⟩

theorem exclusive_initializeLease (h : Holds x.process ns key fs) :
    x.protocol.Acts (initializeLease ns key) (Acquired x ns key) (fun _ => True) fs := by
  have hfail : ∀ {message : String} {t : Files}, Holds x.process ns key t → x.protocol.Acts (do
      let _ ← outcome (reapDirectory ns key)
      throw (.ioError message) : Action WriterLease) (Acquired x ns key) (fun _ => True) t := by
    intro message t ht
    refine acts_seq (Guards.mono (exclusive_reapDirectory ht) fun r _ _ _ => trivial)
      (A := fun _ _ => True) fun _ _ _ _ => acts_throw stable_always trivial
  refine acts_seq (does_reading (o := .token) trivial stable_holds h (fun _ => stable_holds)
    fun _ _ _ ht _ => ht) fun owner t _ ht => ?_
  refine acts_seq (does_tame (R := fun _ => Holds x.process ns key) (fun t _ hi => tame_writeOwner hi)
    (fun t' env ht' hi hg => hg.holds (stable_holds t t' ht ht' hi)) fun _ => stable_holds)
    fun r t _ ht => ?_
  match r with
  | .error _ => exact hfail ht
  | .ok () =>
    refine acts_seq (does_tame (R := fun _ => Holds x.process ns key)
      (fun t _ hi => tame_writeHeartbeat hi)
      (fun t' env ht' hi hg => hg.holds (stable_holds t t' ht ht' hi)) fun _ => stable_holds)
      fun r t _ ht => ?_
    match r with
    | .error _ => exact hfail ht
    | .ok () => exact acts_pure stable_acquired ⟨ht, rfl, rfl⟩

/-- A process that creates the lease holds it. -/
theorem does_createLease :
    x.protocol.Does (step (.createDir (leasePath ns key)))
      (fun r t => r = .ok () → Holds x.process ns key t) fs := by
  refine does_exclusive (fun t _ hi env hprocess _ => ?_) fun r s t hs ht hi hr =>
    stable_holds s t (hs hr) ht hi
  rw [FileOp.eval]
  cases hfault : env.fault with
  | true =>
    refine ⟨hi.2, .refl, fun hr => ?_⟩
    cases hr
  | false =>
    obtain ⟨hrespects, hpinned⟩ := respects_createDir hi.1.valid lease_not_entry env.process env.now
    refine ⟨hpinned hi.2, hrespects, fun hr => ?_⟩
    rw [← hprocess]
    change (t.createDir env.process env.now (leasePath ns key)).1 = .ok () at hr
    show Holds env.process ns key (t.createDir env.process env.now (leasePath ns key)).2
    rw [Files.createDir] at hr ⊢
    split at hr
    · cases hr
    · next hshard =>
      split at hr
      · cases hr
      · next hnone =>
        rw [if_neg hshard, if_neg hnone]
        exact ⟨t.next, (OrderedMap.get?_insert ..).trans (if_pos rfl),
          congrArg Directory.creator (if_pos rfl)⟩

theorem exclusive_acquireLoop {started : Nat} : ∀ {polls : Nat} {fs : Files},
    x.protocol.Acts (acquireLoop c ns key started polls) (Acquired x ns key) (fun _ => True) fs
  | 0, _ => acts_throw stable_always trivial
  | polls + 1, fs => by
    refine acts_bind stable_always (acts_reading stable_always
      Discipline.acts_checkCancelled trivial) fun _ t _ _ => acts_seq does_createLease
        fun r t _ hr => ?_
    match r with
    | .ok () => exact exclusive_initializeLease (hr rfl)
    | .error .notFound | .error .notEmpty | .error .other => exact acts_throw stable_always trivial
    | .error .alreadyExists =>
      refine acts_bind stable_always exclusive_leaseIsStale fun stale t _ hstale => ?_
      obtain rfl := hstale
      refine acts_seq (does_reading (o := .now) (R := fun _ _ => True) trivial stable_always trivial
        (fun _ => stable_always) fun _ _ _ _ _ => trivial) fun now t _ _ => ?_
      split
      · exact acts_throw stable_always trivial
      · exact exclusive_acquireLoop

theorem exclusive_acquire :
    x.protocol.Acts (acquire c ns key) (Acquired x ns key) (fun _ => True) fs :=
  acts_seq (does_reading (o := .now) (R := fun _ _ => True) trivial stable_always trivial
    (fun _ => stable_always) fun _ _ _ _ _ => trivial) fun _ _ _ _ => exclusive_acquireLoop

/-- Runs a task that keeps the lease, and releases it. What holds of the result is kept by
all that a process may do. -/
theorem exclusive_withLease {α : Type} {body : WriterLease → Task (Result α × WriterLease)}
    {R : α → Files → Prop} (hR : ∀ a, x.protocol.Stable (R a))
    (hkeep : ∀ a s t, R a s → Respects x.pins x.process s t → R a t)
    (hbody : ∀ lease fs, Acquired x ns key lease fs → x.protocol.Does (body lease)
      (fun r t => Acquired x ns key r.2 t ∧ ∀ a, r.1 = .ok a → R a t) fs) :
    x.protocol.Acts (withLease c ns key body) R (fun _ => True) fs := by
  refine acts_bind stable_always exclusive_acquire fun lease t _ ht =>
    acts_seq (hbody lease t ht) fun r t _ hr => ?_
  obtain ⟨⟨hholds, hns, hkey⟩, hresult⟩ := hr
  obtain ⟨result, lease'⟩ := r
  have hdrop : x.protocol.Does lease'.drop (fun _ _ => True) t :=
    exclusive_drop (by rw [hns, hkey]; exact hholds)
  cases result with
  | error e => exact acts_seq hdrop fun _ t _ _ => acts_throw stable_always trivial
  | ok a =>
    exact acts_seq (Guards.keep (hR a) (fun s t hs hst _ => hkeep a s t hs hst) hdrop
      (hresult a rfl)) fun _ t _ ht => acts_pure (hR a) ht.2

end Leases

end ModelWeights.Cache
