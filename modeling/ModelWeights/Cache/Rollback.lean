import ModelWeights.Cache.Failures

/-! # Leases that are given back

A call that fails while it acquires a lease reaps it. A handle that is dropped leaves no
lease of its process, whatever happened to the lease in the meantime. -/
namespace ModelWeights.Cache
open Program

variable {c : CacheService} {call : PublishCall} {L : Option Directory → Prop} {w : Watched}
  {leased : Bool} {token : Token}

/-! ## Leases -/

theorem tolerates_foreign : call.Tolerates call.Foreign := fun _ h => h

/-- A lease of the process of the call is the one of the handle. -/
def PublishCall.Mine (call : PublishCall) (lease : WriterLease) (o : Option Directory) : Prop :=
  ∀ d, o = some d → d.creator = call.process → lease.active = true ∧ d.owner = some lease.owner

theorem tolerates_mine {lease : WriterLease} : call.Tolerates (call.Mine lease) :=
  fun _ h d hd hcreator => absurd hcreator (h d hd)

theorem mine_some {lease : WriterLease} {d : Directory} : call.Mine lease (some d) ↔
    (d.creator = call.process → lease.active = true ∧ d.owner = some lease.owner) := by
  refine ⟨fun h => h d rfl, fun h d' hd => ?_⟩
  rw [← Option.some.inj hd]
  exact h

/-- The lease as it was before the call, or one of another process. -/
def PublishCall.Spared (call : PublishCall) (o : Option Directory) : Prop :=
  o = call.before.at? call.lease ∨ call.Foreign o

theorem tolerates_spared : call.Tolerates call.Spared := fun _ h => .inr h

theorem ends_token {J : Files → Prop} (hJ : call.Stable J) (hw : w.Has leased J) :
    call.Ends (step .token) (fun token t => t.Has leased fun t => J t ∧ call.Fresh token) w :=
  ends_step hJ hw (fun _ henv _ ht => ⟨ht, henv.token⟩) fun _ _ _ hr _ => by cases hr

theorem reap_ne_lease : call.reap token ≠ call.lease := fun h => by cases h

theorem foreign_none : call.Foreign none := nofun

/-- The claim of a lease directory, under a new name. -/
def PublishCall.Claimed (call : PublishCall) (L : Option Directory → Prop) (leased : Bool)
    (token : Token) : IoResult Unit → Files → Prop
  | .ok (), t => ∃ inode,
    call.Named [call.reap token] call.Foreign (call.reap token) inode (fun _ => True) t
  | .error .notFound, t => call.Kept [] call.Foreign t
  | .error _, t => leased ≠ true ∧ call.Kept [] L t

theorem ends_claim (hL : call.Tolerates L) (hfresh : call.Fresh token)
    (hw : w.Has leased (call.Kept [] L)) :
    call.Ends (step (.rename call.lease (call.reap token)))
      (fun r t => t.Has leased (call.Claimed L leased token r)) w := by
  refine ends_step (around_kept.stable hL) hw (fun env _ t ht => ?_) fun hcleanup r t hr ht => ?_
  · have hnone : t.at? (call.reap token) = none := by
      rw [ht.changes.same _ fun hm => reap_ne_lease (List.mem_singleton.mp hm)]
      exact hfresh.reap
    show call.Claimed L leased token (t.rename call.lease (call.reap token)).1
      (t.rename call.lease (call.reap token)).2
    cases hlease : t.at? call.lease with
    | none =>
      rw [Files.rename_none hlease]
      refine around_kept.weaken ht ?_
      rw [hlease]
      exact foreign_none
    | some d =>
      obtain ⟨hr, hc, hgone, hat⟩ := ht.changes.valid.rename hlease hnone
        (ht.changes.valid.hasShard hlease rfl rfl)
      obtain ⟨inode, hi, _⟩ := inode_of_at? hat
      rw [hr]
      refine ⟨inode, ⟨?_, ?_⟩, hi, trivial⟩
      · refine (ht.changes.mono fun q hq => ?_).trans hc
        rw [List.mem_singleton.mp hq]
        exact List.mem_cons_self ..
      · rw [hgone]
        exact foreign_none
  · obtain rfl := Option.some.inj hr
    exact ⟨not_leased hcleanup rfl, ht⟩

theorem ends_removeReaped {inode : Nat} (hfresh : call.Fresh token) (hw : w.Has leased
      (call.Named [call.reap token] call.Foreign (call.reap token) inode fun _ => True)) :
    call.Ends (removeDirAll (call.reap token)) (fun r t => t.Has leased fun t =>
      call.Kept [call.reap token] call.Foreign t ∧
      (r = .ok () → call.Kept [] call.Foreign t) ∧ (leased = true → r = .ok ())) w := by
  refine (ends_removeDirAll tolerates_foreign reap_ne_lease (List.mem_singleton_self _) hw).mono
    fun r t ht => ?_
  refine ⟨ht.leased, ht.files.1, fun hr => ht.files.1.restore ?_, ht.files.2.2⟩
  rw [ht.files.2.1 hr]
  exact hfresh.reap.symm

theorem tries_reapDirectory (hL : call.Tolerates L) (hw : w.Has leased (call.Kept [] L)) :
    call.Tries (reapDirectory call.ns call.key)
      (fun _ t => t.Has leased (call.Kept [] call.Foreign))
      (fun t => leased ≠ true ∧ ∃ token, call.Kept [call.reap token] L t.files) w := by
  refine tries_seq (ends_token (around_kept.stable hL) hw) fun token t ht => ?_
  obtain ⟨hleased, hkept, hfresh⟩ := ht
  refine tries_seq (ends_claim hL hfresh ⟨hleased, hkept⟩) fun r t ht => ?_
  cases r with
  | ok _ =>
    obtain ⟨hleased, inode, hnamed⟩ := ht
    refine tries_attempt ((ends_removeReaped hfresh ⟨hleased, hnamed⟩).mono fun r t ht => ?_)
    refine ⟨fun a ha => ⟨ht.leased, ht.files.2.1 ha⟩, fun e he => ⟨fun hl => ?_, token, ?_⟩⟩
    · rw [ht.files.2.2 hl] at he
      cases he
    · exact around_kept.weaken ht.files.1 (hL _ ht.files.1.lease)
  | error e =>
    cases e with
    | notFound => exact tries_pure ht
    | alreadyExists | notEmpty | other =>
      exact tries_throw ⟨ht.files.1, token, ht.files.2.any⟩

theorem ends_releaseWriterLease (hL : call.Tolerates L) (hw : w.Has true (call.Kept [] L)) :
    call.Ends (releaseWriterLease call.ns call.key)
      (fun _ t => t.Has true (call.Kept [] call.Foreign)) w := by
  refine ends_bind (ends_token (around_kept.stable hL) hw) fun token t ht => ?_
  obtain ⟨hleased, hkept, hfresh⟩ := ht
  refine ends_bind (ends_claim hL hfresh ⟨hleased, hkept⟩) fun r t ht => ?_
  cases r with
  | ok _ =>
    obtain ⟨hleased, inode, hnamed⟩ := ht
    refine ends_bind (ends_removeReaped hfresh ⟨hleased, hnamed⟩) fun r t ht => ends_pure ?_
    exact ⟨ht.leased, ht.files.2.1 (ht.files.2.2 rfl)⟩
  | error e =>
    cases e with
    | notFound => exact ends_pure ht
    | alreadyExists | notEmpty | other => exact absurd rfl ht.files.1

/-! ## Acquisition -/

/-- A change of the lease in place. -/
theorem apart_setDir {t : Files} {inode : Nat} (h : t.Valid)
    (hi : t.names.get? call.lease = some inode) (d : Directory) :
    call.Apart t (t.setDir inode d) ∧ (t.setDir inode d).at? call.lease = some d := by
  obtain ⟨hc, hat⟩ := h.setDir hi d
  refine ⟨⟨hc.valid, fun _ _ => rfl, fun q i hq hqi => if_neg ?_⟩, hat⟩
  rintro rfl
  exact hq (h.unique q call.lease i hqi hi)

theorem change_lease {α : Type} {K : (Option Directory → Prop) → Files → Prop}
    {L' : Option Directory → Prop} {t : Files} {f : Nat → Directory → IoResult (α × Directory)}
    (hK : call.Around K) (h : K L t)
    (hf : ∀ inode d a d', f inode d = .ok (a, d') → L (some d) → L' (some d')) :
    (∃ e, t.change call.lease f = (.error e, t)) ∨
      ∃ a, (t.change call.lease f).1 = .ok a ∧ K L' (t.change call.lease f).2 := by
  rcases t.change_cases call.lease f with herror | ⟨inode, a, d, hi, hd, heq⟩
  · exact .inl herror
  · obtain ⟨hapart, hat⟩ := apart_setDir (hK.valid h) hi d
    have hlease := hK.lease h
    rw [at?_eq hi] at hlease
    refine .inr ⟨a, ?_⟩
    rw [heq]
    refine ⟨rfl, hK.apart h hapart ?_⟩
    rw [hat]
    exact hf inode _ a d hd hlease

/-- An action under the lease: the value meets `A`, and `J` holds in any case. -/
def PublishCall.Keeps {α : Type} (call : PublishCall) (x : Action α) (J : Files → Prop)
    (A : α → Prop) (w : Watched) : Prop :=
  call.Tries x (fun a t => A a ∧ t.Has true J) (fun t => t.Has true J) w

/-- A handle of the lease. -/
structure PublishCall.Holds (call : PublishCall) (K : (Option Directory → Prop) → Files → Prop)
    (lease : WriterLease) (w : Watched) : Prop where
  ns : lease.ns = call.ns
  key : lease.key = call.key
  has : w.Has true (K (call.Mine lease))

theorem tries_initializeLease (hw : w.Has true (call.Kept [] fun _ => True)) :
    call.Tries (initializeLease call.ns call.key) (call.Holds (call.Kept []))
      (fun t => t.Has true (call.Kept [] call.Foreign)) w := by
  have hfail : ∀ {L : Option Directory → Prop} {t : Watched}, call.Tolerates L →
      t.Has true (call.Kept [] L) → call.Tries (do
        let _ ← outcome (reapDirectory call.ns call.key)
        throw (.ioError "failed to initialize a cache lease")) (call.Holds (call.Kept []))
        (fun t => t.Has true (call.Kept [] call.Foreign)) t := by
    intro L t hL ht
    refine tries_seq (A := fun _ t => t.Has true (call.Kept [] call.Foreign))
      (PublishCall.Ends.mono (tries_reapDirectory hL ht) fun r t hr => ?_)
      fun _ t ht => tries_throw ht
    cases r with
    | ok a => exact hr
    | error e => exact absurd rfl hr.1
  unfold initializeLease
  have hany : call.Tolerates fun _ => True := fun _ _ => trivial
  refine tries_seq (ends_token (around_kept.stable hany) hw) fun owner t ht => ?_
  have howner : call.Ends (step (.writeOwner call.lease owner)) (fun r t => t.Has true fun t =>
      call.Kept [] (fun o => r = .ok () → call.Mine ⟨call.ns, call.key, owner, true⟩ o) t) t := by
    refine ends_step (around_kept.stable hany) ⟨ht.leased, ht.files.1⟩ (fun env _ t ht => ?_)
      fun _ r t hr ht => ?_
    · have hset : ∀ d d' : Directory, d' = { Files.stamp env.now d with owner := some owner } →
          call.Mine ⟨call.ns, call.key, owner, true⟩ (some d') := by
        rintro d d' rfl
        exact mine_some.mpr fun _ => ⟨rfl, rfl⟩
      rcases change_lease (α := Unit)
        (f := fun _ d => .ok ((), { Files.stamp env.now d with owner := some owner }))
        around_kept ht (fun _ d _ d' hd _ => hset d d' (congrArg Prod.snd (Except.ok.inj hd)).symm)
        with ⟨e, he⟩ | ⟨a, _, hkept⟩
      · rw [show FileOp.effect env t (.writeOwner call.lease owner) = (.error e, t) from he]
        exact around_kept.weaken ht nofun
      · exact around_kept.weaken hkept fun _ => hkept.lease
    · obtain rfl := Option.some.inj hr
      exact around_kept.weaken ht nofun
  refine tries_seq howner fun r t ht => ?_
  cases r with
  | error _ => exact hfail hany ⟨ht.leased, around_kept.weaken ht.files trivial⟩
  | ok _ =>
    have hmine : t.Has true (call.Kept [] (call.Mine ⟨call.ns, call.key, owner, true⟩)) :=
      ⟨ht.leased, around_kept.weaken ht.files (ht.files.lease rfl)⟩
    have hheartbeat : call.Ends (step (.writeHeartbeat call.lease)) (fun _ t => t.Has true
        (call.Kept [] (call.Mine ⟨call.ns, call.key, owner, true⟩))) t := by
      refine ends_step (around_kept.stable tolerates_mine) hmine (fun env _ t ht => ?_)
        fun _ _ _ _ ht => ht
      have hset : ∀ d d' : Directory,
          d' = { Files.stamp env.now d with heartbeat := some env.now } →
          call.Mine ⟨call.ns, call.key, owner, true⟩ (some d) →
          call.Mine ⟨call.ns, call.key, owner, true⟩ (some d') := by
        rintro d d' rfl hmine
        have hold := mine_some.mp hmine
        exact mine_some.mpr hold
      rcases change_lease (α := Unit)
        (f := fun _ d => .ok ((), { Files.stamp env.now d with heartbeat := some env.now }))
        around_kept ht (fun _ d _ d' hd => hset d d' (congrArg Prod.snd (Except.ok.inj hd)).symm)
        with ⟨e, he⟩ | ⟨a, _, hkept⟩
      · rw [show FileOp.effect env t (.writeHeartbeat call.lease) = (.error e, t) from he]
        exact ht
      · exact hkept
    refine tries_seq hheartbeat fun r t ht => ?_
    cases r with
    | error _ => exact hfail tolerates_mine ht
    | ok _ => exact tries_pure ⟨rfl, rfl, ht⟩

theorem only_checkCancelled : checkCancelled.run.Only FileOp.Reading :=
  readingDiscipline.acts_checkCancelled

/-- What is left at the lease and beside it if no lease could be acquired. -/
def PublishCall.Unleased (call : PublishCall) (t : Watched) : Prop :=
  ∃ token, call.Kept [call.reap token] call.Spared t.files

/-- With or without a lease, there is no new one of this process. -/
theorem tries_acquireLoop {started : Nat} : ∀ {polls : Nat} {w : Watched},
    w.Has false (call.Kept [] call.Spared) →
    call.Tries (acquireLoop c call.ns call.key started polls) (call.Holds (call.Kept []))
      call.Unleased w
  | 0, w, hw => tries_throw ⟨"", hw.files.any⟩
  | polls + 1, w, hw => by
    have hJ : call.Stable (call.Kept [] call.Spared) := around_kept.stable tolerates_spared
    have hunleased : ∀ {t : Watched}, t.Has false (call.Kept [] call.Spared) → call.Unleased t :=
      fun ht => ⟨"", ht.files.any⟩
    have hrest : ∀ {t : Watched}, t.Has false (call.Kept [] call.Spared) →
        call.Tries (acquireLoop c call.ns call.key started polls) (call.Holds (call.Kept []))
          call.Unleased t := tries_acquireLoop
    have hcreate : ∀ {t : Watched}, t.Has false (call.Kept [] call.Spared) →
        call.Ends (step (.createDir call.lease)) (fun r t =>
          (r = .ok () → t.Has true (call.Kept [] fun _ => True)) ∧
          (r ≠ .ok () → t.Has false (call.Kept [] call.Spared))) t := by
      intro w hw
      refine ends_effect hJ hw (fun env _ t ht => ?_) fun _ env _ r t hr ht => ?_
      · rcases ht.changes.valid.createDir_cases env.process env.now call.lease with
          ⟨e, he⟩ | ⟨_, hr, hc, _⟩
        · rw [show FileOp.effect env t (.createDir call.lease) = (.error e, t) from he]
          exact ⟨(fun h => by cases h), fun _ => ⟨(fun h => by cases h), ht⟩⟩
        · refine ⟨fun _ => ⟨fun _ => ?_, ht.changes.trans (hc.mono fun q hq => hq), trivial⟩,
            fun h => absurd hr h⟩
          show (w.leased || FileOp.acquires (.createDir call.lease) _) = true
          rw [show (FileOp.effect env t (.createDir call.lease)).1 = .ok () from hr]
          exact Bool.or_true _
      · obtain rfl := Option.some.inj hr
        exact ⟨(fun h => by cases h), fun _ => ⟨(fun h => by cases h), ht⟩⟩
    unfold acquireLoop
    refine tries_bind ((tries_reading hJ only_checkCancelled hw).mono (fun _ _ h => h)
      fun _ => hunleased) fun _ t ht => ?_
    refine tries_seq (hcreate ht) fun r t ht => ?_
    cases r with
    | ok _ =>
      exact (tries_initializeLease (ht.1 rfl)).mono (fun _ _ h => h)
        fun t ht => hunleased ⟨(fun h => by cases h), around_kept.weaken ht.files (.inr ht.files.lease)⟩
    | error e =>
      cases e with
      | notFound | notEmpty | other => exact tries_throw (hunleased (ht.2 fun h => by cases h))
      | alreadyExists =>
        refine tries_bind ((tries_reading hJ readingDiscipline.acts_leaseIsStale
          (ht.2 fun h => by cases h)).mono (fun _ _ h => h) fun _ => hunleased) fun stale t ht => ?_
        cases stale with
        | true =>
          refine tries_bind ((tries_reapDirectory tolerates_spared ht).mono (fun _ _ h => h)
            fun _ h => h.2) fun _ t ht => hrest ⟨(fun h => by cases h), ?_⟩
          exact around_kept.weaken ht.files (.inr ht.files.lease)
        | false =>
          refine tries_seq (A := fun _ t => t.Has false (call.Kept [] call.Spared))
            (ends_reading hJ ⟨trivial, fun _ => trivial⟩ ht) fun now t ht => ?_
          show call.Tries (if now - started ≥ c.options.leaseWait then _ else _) _ _ _
          split
          · exact tries_throw (hunleased ht)
          · exact hrest ht

theorem tries_acquire (hw : w.Has false (call.Kept [] call.Spared)) :
    call.Tries (acquire c call.ns call.key) (call.Holds (call.Kept [])) call.Unleased w :=
  tries_seq (A := fun _ t => t.Has false (call.Kept [] call.Spared))
    (ends_reading (around_kept.stable tolerates_spared) ⟨trivial, fun _ => trivial⟩ hw)
    fun _ _ ht => tries_acquireLoop ht

/-! ## Under the lease -/

/-- A task under the lease: the handle is one of the lease in any case, and the value
meets `A`. -/
def PublishCall.Retains {α : Type} (call : PublishCall) (x : Task (Result α × WriterLease))
    (K : (Option Directory → Prop) → Files → Prop) (A : α → Prop) (w : Watched) : Prop :=
  call.Ends x (fun r t => call.Holds K r.2 t ∧ ∀ a, r.1 = .ok a → A a) w

section Leased
variable {α β : Type} {K : (Option Directory → Prop) → Files → Prop} {A : α → Prop} {B : β → Prop}
  {lease : WriterLease}

theorem retains_pure {a : α} (hw : call.Holds K lease w) (ha : A a) :
    call.Retains (pure (.ok a, lease)) K A w :=
  ends_pure (a := ((.ok a, lease) : Result α × WriterLease))
    ⟨hw, fun _ hb => Except.ok.inj hb ▸ ha⟩

theorem retains_error {e : Error} (hw : call.Holds K lease w) :
    call.Retains (pure (.error e, lease) : Task (Result α × WriterLease)) K A w :=
  ends_pure (a := ((.error e, lease) : Result α × WriterLease)) ⟨hw, nofun⟩

theorem retains_andThen {x : Task (Result α × WriterLease)}
    {f : α → WriterLease → Task (Result β × WriterLease)} (hx : call.Retains x K A w)
    (hf : ∀ a lease t, call.Holds K lease t → A a → call.Retains (f a lease) K B t) :
    call.Retains (andThen x f) K B w := by
  refine ends_bind hx fun r t ht => ?_
  obtain ⟨result, lease⟩ := r
  cases result with
  | ok a => exact hf a lease t ht.1 (ht.2 a rfl)
  | error e => exact retains_error ht.1

theorem retains_keeping {x : Action α} (hns : lease.ns = call.ns) (hkey : lease.key = call.key)
    (hx : call.Keeps x (K (call.Mine lease)) A w) : call.Retains (keeping lease x) K A w := by
  refine ends_bind hx fun r t ht => ?_
  cases r with
  | ok a => exact retains_pure ⟨hns, hkey, ht.2⟩ ht.1
  | error e => exact retains_error ⟨hns, hkey, ht⟩

theorem keeps_reading {J : Files → Prop} {x : Action α} (hJ : call.Stable J)
    (hx : x.run.Only FileOp.Reading) (hw : w.Has true J) :
    call.Keeps x J (fun _ => True) w :=
  (tries_reading hJ hx hw).mono (fun _ _ h => ⟨trivial, h⟩) fun _ h => h

theorem retains_reading {x : Action α} (hK : call.Around K) (hx : x.run.Only FileOp.Reading)
    (hw : call.Holds K lease w) : call.Retains (keeping lease x) K (fun _ => True) w :=
  retains_keeping hw.ns hw.key (keeps_reading (hK.stable tolerates_mine) hx hw.has)

theorem retains_checked {f : Unit → WriterLease → Task (Result β × WriterLease)}
    (hK : call.Around K) (hw : call.Holds K lease w)
    (hf : ∀ lease t, call.Holds K lease t → call.Retains (f () lease) K B t) :
    call.Retains (andThen (keeping lease checkCancelled) f) K B w :=
  retains_andThen (retains_reading hK only_checkCancelled hw) fun _ lease t ht _ => hf lease t ht

/-- A step whose failure ends the call, and that changes nothing known. -/
theorem keeps_attempt {message : String} {J : Files → Prop} {x : Task (IoResult α)}
    (hx : call.Ends x (fun r t => t.Has true J ∧ ∀ a, r = .ok a → A a) w) :
    call.Keeps (attempt message x) J A w :=
  tries_attempt (hx.mono fun _ _ ht => ⟨fun a ha => ⟨ht.2 a ha, ht.1⟩, fun _ _ => ht.1⟩)

/-- A lease that is refreshed is held, or it is known to be lost. -/
theorem retains_refresh (hK : call.Around K) (hw : call.Holds K lease w) :
    call.Retains lease.refresh K (fun _ => True) w := by
  obtain ⟨hns, hkey, hhas⟩ := hw
  have hread : call.Ends (step (.readOwner call.lease)) (fun r t => t.Has true fun t =>
      K (call.Mine lease) t ∧
        ∀ owner, r = .ok owner → owner ≠ lease.owner → K call.Foreign t) w := by
    refine ends_step (hK.stable tolerates_mine) hhas (fun env _ t ht => ?_)
      fun _ r t hr ht => ?_
    · cases hd : t.at? call.lease with
      | none =>
        rw [show FileOp.effect env t (.readOwner call.lease) = (.error .notFound, t) from
          ask_none hd]
        exact ⟨ht, nofun⟩
      | some d =>
        have hsame : (FileOp.effect env t (.readOwner call.lease)).2 = t := Files.ask_snd ..
        rw [hsame]
        refine ⟨ht, fun owner howner hne => hK.weaken ht ?_⟩
        intro d' hd' hcreator
        have hlease := hK.lease ht d' hd' hcreator
        rw [show FileOp.effect env t (.readOwner call.lease) = (.ok lease.owner, t) from
          ask_some hd' hlease.2] at howner
        exact hne (Except.ok.inj howner).symm
    · obtain rfl := Option.some.inj hr
      exact ⟨ht, nofun⟩
  unfold WriterLease.refresh
  rw [hns, hkey]
  refine ends_bind hread fun r t ht => ?_
  cases r with
  | error _ => exact retains_error ⟨hns, hkey, ht.leased, ht.files.1⟩
  | ok owner =>
    show call.Ends (if owner ≠ lease.owner then _ else _) _ _
    by_cases howner : owner = lease.owner
    · rw [if_neg (not_not.mpr howner)]
      have hrefresh : call.Ends (step (.refreshHeartbeat call.lease))
          (fun _ t => t.Has true (K (call.Mine lease))) t := by
        refine ends_step (hK.stable tolerates_mine) ⟨ht.leased, ht.files.1⟩ (fun env _ t ht => ?_)
          fun _ _ _ _ ht => ht
        have hset : ∀ d d' : Directory, (if d.heartbeat.isNone then Except.error IoError.notFound
            else .ok ((), { Files.touch env.now d with heartbeat := some env.now })) =
              .ok ((), d') → call.Mine lease (some d) → call.Mine lease (some d') := by
          intro d d' hd hmine
          split at hd
          · cases hd
          · obtain rfl := congrArg Prod.snd (Except.ok.inj hd)
            have hold := mine_some.mp hmine
            exact mine_some.mpr hold
        rcases change_lease (α := Unit) (f := fun _ d => if d.heartbeat.isNone then
            .error .notFound
          else .ok ((), { Files.touch env.now d with heartbeat := some env.now })) hK ht
          (fun _ d _ d' => hset d d') with ⟨e, he⟩ | ⟨a, _, hkept⟩
        · rw [show FileOp.effect env t (.refreshHeartbeat call.lease) = (.error e, t) from he]
          exact ht
        · exact hkept
      refine ends_bind hrefresh fun r t ht => ?_
      cases r with
      | error _ => exact retains_error ⟨hns, hkey, ht⟩
      | ok _ => exact retains_pure ⟨hns, hkey, ht⟩ trivial
    · rw [if_pos howner]
      have hlost := ht.files.2 owner rfl howner
      exact retains_error ⟨rfl, rfl, ht.leased,
        hK.weaken hlost (tolerates_mine _ (hK.lease hlost))⟩

/-- A lease that is dropped is not left behind, unless its owner could not be read. -/
theorem ends_drop (hw : call.Holds (call.Kept []) lease w) :
    call.Ends lease.drop (fun _ t => call.Kept [] (fun _ => True) t.files ∧
      (t.unread = true ∨ call.Foreign (t.files.at? call.lease))) w := by
  obtain ⟨hns, hkey, hhas⟩ := hw
  unfold WriterLease.drop
  by_cases hactive : lease.active = true
  · rw [if_pos hactive, hns, hkey]
    have hread : call.Ends (step (.readOwner call.lease)) (fun r t =>
        t.Has true (call.Kept [] (call.Mine lease)) ∧
        (r ≠ .ok lease.owner → t.unread = true ∨ call.Foreign (t.files.at? call.lease))) w := by
      refine ends_effect (around_kept.stable tolerates_mine) hhas (fun env _ t ht => ?_)
        fun _ env hfault r t hr ht => ⟨⟨hhas.still, ht⟩, fun _ => .inl hfault⟩
      have hsame : (FileOp.effect env t (.readOwner call.lease)).2 = t := Files.ask_snd ..
      refine ⟨⟨hhas.still, ?_⟩, fun hne => .inr ?_⟩
      · show call.Kept [] _ (FileOp.effect env t (.readOwner call.lease)).2
        rw [hsame]
        exact ht
      · show call.Foreign ((FileOp.effect env t (.readOwner call.lease)).2.at? call.lease)
        rw [hsame]
        intro d hd hcreator
        have hmine := ht.lease d hd hcreator
        refine hne ?_
        rw [show FileOp.effect env t (.readOwner call.lease) = (.ok lease.owner, t) from
          ask_some hd hmine.2]
    refine ends_bind hread fun r t ht => ?_
    have hkeep : r ≠ .ok lease.owner → call.Ends (pure () : Task Unit) (fun _ t =>
        call.Kept [] (fun _ => True) t.files ∧
        (t.unread = true ∨ call.Foreign (t.files.at? call.lease))) t := fun hne =>
      ends_pure ⟨around_kept.weaken ht.1.files trivial, ht.2 hne⟩
    cases r with
    | error _ => exact hkeep nofun
    | ok owner =>
      show call.Ends (if owner = lease.owner then _ else _) _ _
      by_cases howner : owner = lease.owner
      · rw [if_pos howner]
        refine (ends_releaseWriterLease tolerates_mine ht.1).mono fun _ t ht => ?_
        exact ⟨around_kept.weaken ht.files trivial, .inr ht.files.lease⟩
      · rw [if_neg howner]
        exact hkeep fun he => howner (Except.ok.inj he)
  · rw [if_neg hactive]
    refine ends_pure ⟨around_kept.weaken hhas.files trivial, .inr fun d hd hcreator => ?_⟩
    exact hactive (hhas.files.lease d hd hcreator).1

end Leased

end ModelWeights.Cache
