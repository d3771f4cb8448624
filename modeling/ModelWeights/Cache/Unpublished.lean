import ModelWeights.Cache.Rollback
import ModelWeights.Cache.Refinement

/-! # Publications that are undone

What a publication that fails has made is gone when the call ends: an entry that was moved
away is moved back, the staging directory is removed, and the lease is released. -/
namespace ModelWeights.Cache
open Program

variable {c : CacheService} {call : PublishCall} {L : Option Directory → Prop} {w : Watched}
  {leased : Bool} {token : Token}

/-! ## Staging -/

def PublishCall.entry (call : PublishCall) : Path := entryPath call.ns call.key

def PublishCall.staging (call : PublishCall) (token : Token) : Path :=
  ⟨call.ns, .staging call.key token⟩

/-- Apart from the lease, only a staging directory is new. -/
def PublishCall.Staged (call : PublishCall) (path : Path) (inode : Nat)
    (L : Option Directory → Prop) (t : Files) : Prop :=
  call.Named [path] L path inode (fun _ => True) t

section Staging
variable {path : Path} {inode : Nat} {lease : WriterLease}

theorem around_staged (hne : path ≠ call.lease) : call.Around (call.Staged path inode) :=
  around_named hne

theorem PublishCall.Staged.setDir {t : Files} (h : call.Staged path inode L t)
    (hne : path ≠ call.lease) (d : Directory) : call.Staged path inode L (t.setDir inode d) :=
  Named.setDir h hne (List.mem_singleton_self _) trivial

theorem retains_writeChunks (hne : path ≠ call.lease) : ∀ {reader : Reader} {written : List UInt8}
    {total : Nat} {lease : WriterLease} {w : Watched}, call.Holds (call.Staged path inode) lease w →
    call.Retains (writeChunks inode written total reader lease) (call.Staged path inode)
      (fun _ => True) w := by
  intro reader
  have hK : call.Around (call.Staged path inode) := around_staged hne
  induction reader with
  | nil =>
    intro written total lease w hw
    unfold writeChunks
    refine retains_checked hK hw fun lease t ht => ?_
    exact retains_andThen (retains_refresh hK ht) fun _ lease t ht _ => retains_pure ht trivial
  | cons read rest ih =>
    intro written total lease w hw
    unfold writeChunks
    refine retains_checked hK hw fun lease t ht => ?_
    refine retains_andThen (retains_refresh hK ht) fun _ lease t ht _ => ?_
    cases read with
    | error _ => exact retains_error ht
    | ok chunk =>
      cases chunk with
      | nil => exact retains_pure ht trivial
      | cons byte bytes =>
        have happend : call.Ends (step (.appendPayload inode (byte :: bytes)))
            (fun _ t => t.Has true (call.Staged path inode (call.Mine lease))) t :=
          ends_step (hK.stable tolerates_mine) ht.has (fun _ _ _ ht => ht.setDir hne _)
            fun _ _ _ _ ht => ht
        refine retains_andThen (retains_keeping (A := fun _ => True) ht.ns ht.key
          (keeps_attempt (happend.mono fun _ _ ht => ⟨ht, fun _ _ => trivial⟩)))
          fun _ lease t ht _ => ?_
        cases checkedAdd total (byte :: bytes).length with
        | none => exact retains_error ht
        | some total => exact ih ht

theorem created_inode {present : Prop} [Decidable present] {e : IoError} {i a : Nat}
    {d d' : Directory} (h : (if present then .error e else .ok (i, d)) = Except.ok (a, d')) :
    a = i := by
  split at h
  · cases h
  · exact (congrArg Prod.fst (Except.ok.inj h)).symm

/-- A new file in the staging directory is addressed by its inode. -/
theorem change_staged {t : Files} {f : Nat → Directory → IoResult (Nat × Directory)}
    (h : call.Staged path inode L t) (hne : path ≠ call.lease)
    (hf : ∀ i d a d', f i d = .ok (a, d') → a = i) :
    call.Staged path inode L (t.change path f).2 ∧
      ∀ a, (t.change path f).1 = .ok a → a = inode := by
  rcases t.change_cases path f with ⟨e, he⟩ | ⟨i, a, d, hi, hd, he⟩
  · rw [he]
    exact ⟨h, nofun⟩
  · obtain rfl := Option.some.inj (hi.symm.trans h.name)
    rw [he]
    exact ⟨h.setDir hne d, fun b hb => Except.ok.inj hb ▸ hf _ _ _ _ hd⟩

theorem retains_writePayload {reader : Reader} (hne : path ≠ call.lease)
    (hw : call.Holds (call.Staged path inode) lease w) :
    call.Retains (writePayload c path reader lease) (call.Staged path inode) (fun _ => True) w := by
  have hK : call.Around (call.Staged path inode) := around_staged hne
  have hcreate : call.Ends (step (.createPayload path)) (fun r t => t.Has true fun t =>
      call.Staged path inode (call.Mine lease) t ∧ ∀ a, r = .ok a → a = inode) w := by
    refine ends_step (hK.stable tolerates_mine) hw.has (fun env _ t ht => ?_)
      fun _ r t hr ht => ?_
    · exact change_staged ht hne fun _ _ _ _ => created_inode
    · obtain rfl := Option.some.inj hr
      exact ⟨ht, nofun⟩
  unfold writePayload
  refine retains_andThen (retains_keeping (A := fun a => a = inode) hw.ns hw.key
    (keeps_attempt (hcreate.mono fun _ _ ht => ⟨⟨ht.leased, ht.files.1⟩, ht.files.2⟩)))
    fun i lease t ht hi => ?_
  subst hi
  refine retains_andThen (retains_writeChunks hne ht) fun a lease t ht _ => ?_
  refine retains_andThen (retains_keeping (A := fun _ => True) ht.ns ht.key
    (keeps_attempt ((ends_reading (x := step .sync) (hK.stable tolerates_mine)
      ⟨trivial, fun _ => trivial⟩ ht.has).mono fun _ _ ht => ⟨ht, fun _ _ => trivial⟩)))
    fun _ lease t ht _ => ?_
  exact retains_pure ht trivial

theorem keeps_writeEnvelope {envelope : CacheEnvelope} (hne : path ≠ call.lease)
    (hL : call.Tolerates L) (hw : w.Has true (call.Staged path inode L)) :
    call.Keeps (writeEnvelope c path envelope) (call.Staged path inode L) (fun _ => True) w := by
  have hK : call.Around (call.Staged path inode) := around_staged hne
  have hcreate : call.Ends (step (.createMetadata path)) (fun r t => t.Has true fun t =>
      call.Staged path inode L t ∧ ∀ a, r = .ok a → a = inode) w := by
    refine ends_step (hK.stable hL) hw (fun env _ t ht => ?_) fun _ r t hr ht => ?_
    · exact change_staged ht hne fun _ _ _ _ => created_inode
    · obtain rfl := Option.some.inj hr
      exact ⟨ht, nofun⟩
  unfold writeEnvelope
  have hwrite : call.Keeps (do
      let inode ← attempt "failed to create staged cache metadata" (step (.createMetadata path))
      attempt "failed to write staged cache metadata"
        (step (.writeMetadata inode envelope (c.envelopeLength envelope)))
      attempt "failed to synchronize staged cache metadata" (step .sync))
      (call.Staged path inode L) (fun _ => True) w := by
    refine tries_bind (keeps_attempt (A := fun a => a = inode)
      (hcreate.mono fun _ _ ht => ⟨⟨ht.leased, ht.files.1⟩, ht.files.2⟩)) fun i t ht => ?_
    obtain ⟨rfl, ht⟩ := ht
    have hmetadata : call.Ends (step (.writeMetadata i envelope (c.envelopeLength envelope)))
        (fun _ t => t.Has true (call.Staged path i L)) t :=
      ends_step (hK.stable hL) ht (fun _ _ _ ht => ht.setDir hne _) fun _ _ _ _ ht => ht
    refine tries_bind (keeps_attempt (A := fun _ => True)
      (hmetadata.mono fun _ _ ht => ⟨ht, fun _ _ => trivial⟩)) fun _ t ht => ?_
    exact keeps_attempt ((ends_reading (x := step .sync) (hK.stable hL)
      ⟨trivial, fun _ => trivial⟩ ht.2).mono fun _ _ ht => ⟨ht, fun _ _ => trivial⟩)
  split
  · exact tries_throw hw
  · exact hwrite

/-! ## The renames -/

/-- Apart from the lease and a staging directory, the entry was moved away. -/
structure PublishCall.Moved (call : PublishCall) (token : Token) (path : Path) (inode : Nat)
    (L : Option Directory → Prop) (t : Files) : Prop extends
    call.Named [call.entry, call.previous token, path] L path inode (fun _ => True) t where
  gone : t.at? call.entry = none
  moved : t.at? (call.previous token) = call.before.at? call.entry
  existed : (call.before.at? call.entry).isSome = true

theorem around_moved {token : Token} (hne : path ≠ call.lease) :
    call.Around (call.Moved token path inode) where
  valid h := h.changes.valid
  lease h := h.lease
  apart h ha hL' := by
    refine ⟨(around_named hne).apart h.toNamed ha hL', ?_, ?_, h.existed⟩
    · rw [ha.at? fun he => by cases he]
      exact h.gone
    · rw [ha.at? fun he => by cases he]
      exact h.moved

/-- Other directories get other names. -/
theorem PublishCall.Named.rename {paths qs : List Path} {D : Directory → Prop} {t : Files}
    {source destination : Path} (h : call.Named paths L path inode D t)
    (hc : Changes [source, destination] t (t.rename source destination).2)
    (hlease : call.lease ∉ [source, destination]) (hpath : path ∉ [source, destination])
    (hsub : ∀ q ∈ paths, q ∈ qs) (hnew : ∀ q ∈ [source, destination], q ∈ qs) :
    call.Named qs L path inode D (t.rename source destination).2 := by
  rw [List.mem_pair, not_or] at hpath
  refine ⟨(h.toKept.widen hsub).elsewhere hc hnew hlease, ?_, ?_⟩
  · rw [Files.rename_get? hpath.1 hpath.2]
    exact h.name
  · rw [Files.rename_dirs]
    exact h.holds

variable {staged : Token}

theorem staging_ne_lease : call.staging staged ≠ call.lease := fun h => by cases h

theorem lease_not_renamed : call.lease ∉ [call.entry, call.previous token] ∧
    call.lease ∉ [call.previous token, call.entry] := by
  simp [PublishCall.lease, PublishCall.previous, PublishCall.entry, leasePath, entryPath]

theorem staging_not_renamed : call.staging staged ∉ [call.entry, call.previous token] ∧
    call.staging staged ∉ [call.previous token, call.entry] := by
  simp [PublishCall.staging, PublishCall.previous, PublishCall.entry, entryPath]

/-- The staging directory becomes the entry, or nothing happens. -/
theorem ends_place {J : Files → Prop} (hJ : call.Stable J) (hw : w.Has true J) :
    call.Ends (step (.rename (call.staging staged) call.entry))
      (fun r t => r ≠ .ok () ∧ t.Has true J) w := by
  have hrename : call.Ends (step (.rename (call.staging staged) call.entry)) (fun r t =>
      (r = .ok () → t.published = true) ∧ (r ≠ .ok () → t.Has true J)) w := by
    refine ends_effect hJ hw (fun env _ t ht => ?_) fun _ env _ r t hr ht => ?_
    · rcases t.rename_cases (call.staging staged) call.entry with ⟨e, he⟩ | hok
      · rw [show FileOp.effect env t (.rename (call.staging staged) call.entry) = (.error e, t)
          from he]
        exact ⟨nofun, fun _ => ⟨hw.still, ht⟩⟩
      · refine ⟨fun _ => ?_, fun h => absurd hok h⟩
        show (w.published || FileOp.publishes (.rename (call.staging staged) call.entry) _) = true
        rw [show (FileOp.effect env t (.rename (call.staging staged) call.entry)).1 = .ok ()
          from hok]
        exact Bool.or_true _
    · obtain rfl := Option.some.inj hr
      exact ⟨nofun, fun _ => ⟨hw.still, ht⟩⟩
  refine hrename.published fun r t ht => ?_
  by_cases hr : r = .ok ()
  · exact .inl (ht.1 hr)
  · exact .inr ⟨hr, ht.2 hr⟩

theorem ends_restore {t : Watched} (hfresh : call.Fresh token) (hL : call.Tolerates L)
    (ht : t.Has true (call.Moved token (call.staging staged) inode L)) :
    call.Ends (step (.rename (call.previous token) call.entry))
      (fun _ t => t.Has true (call.Staged (call.staging staged) inode L)) t := by
  refine ends_step ((around_moved staging_ne_lease).stable hL) ht (fun env _ t ht => ?_)
    fun hcleanup _ _ _ _ => absurd rfl (not_leased hcleanup rfl)
  obtain ⟨d, hd⟩ := Option.isSome_iff_exists.mp ht.existed
  have hprevious : t.at? (call.previous token) = some d := ht.moved.trans hd
  obtain ⟨_, hc, hgone, hat⟩ := ht.changes.valid.rename hprevious ht.gone
    (ht.changes.valid.hasShard hprevious rfl rfl)
  have hnamed : call.Named [call.entry, call.previous token, call.staging staged] L
      (call.staging staged) inode (fun _ => True)
      (t.rename (call.previous token) call.entry).2 :=
    ht.toNamed.rename hc lease_not_renamed.2 staging_not_renamed.2 (fun _ hq => hq) (by simp)
  exact ⟨(hnamed.toKept.restore (hat.trans hd.symm)).restore (hgone.trans hfresh.previous.symm),
    hnamed.name, trivial⟩

/-- A failed second rename moves the entry back. -/
theorem keeps_placeStaging {t : Watched} (hfresh : call.Fresh token) (hL : call.Tolerates L)
    {moved : Bool} (hmoved : moved = true →
      t.Has true (call.Moved token (call.staging staged) inode L))
    (hstaged : moved = false → t.Has true (call.Staged (call.staging staged) inode L)) :
    call.Keeps (placeStaging (call.staging staged) call.ns call.key token moved)
      (call.Staged (call.staging staged) inode L) (fun _ => False) t := by
  unfold placeStaging
  cases moved with
  | true =>
    refine tries_seq (ends_place ((around_moved staging_ne_lease).stable hL) (hmoved rfl))
      fun r t ht => ?_
    cases r with
    | ok _ => exact absurd rfl ht.1
    | error _ => exact tries_seq (ends_restore hfresh hL ht.2) fun _ t ht => tries_throw ht
  | false =>
    refine tries_seq (ends_place ((around_staged staging_ne_lease).stable hL) (hstaged rfl))
      fun r t ht => ?_
    cases r with
    | ok _ => exact absurd rfl ht.1
    | error _ => exact tries_throw ht.2

theorem ends_moveEntry {t : Watched} (hfresh : call.Fresh token) (hL : call.Tolerates L)
    (ht : t.Has true (call.Staged (call.staging staged) inode L)) :
    call.Ends (step (.rename call.entry (call.previous token))) (fun r t =>
      (r = .ok () → t.Has true (call.Moved token (call.staging staged) inode L)) ∧
      (r ≠ .ok () → t.Has true (call.Staged (call.staging staged) inode L))) t := by
  have hstep : call.Ends (step (.rename call.entry (call.previous token))) (fun r t =>
      t.Has true fun t => (r = .ok () → call.Moved token (call.staging staged) inode L t) ∧
      (r ≠ .ok () → call.Staged (call.staging staged) inode L t)) t := by
    refine ends_step ((around_staged staging_ne_lease).stable hL) ht (fun env _ t ht => ?_)
      fun _ r t hr ht => ?_
    · have hold : ∀ q, q ≠ call.lease → q ≠ call.staging staged → t.at? q = call.before.at? q :=
        fun q hq hq' => ht.changes.same q (by simp [hq, hq'])
      have hentry : t.at? call.entry = call.before.at? call.entry :=
        hold _ (fun he => by cases he) fun he => by cases he
      cases hd : t.at? call.entry with
      | none =>
        rw [show FileOp.effect env t (.rename call.entry (call.previous token)) =
          (.error .notFound, t) from Files.rename_none hd]
        exact ⟨nofun, fun _ => ht⟩
      | some d =>
        have hnone : t.at? (call.previous token) = none :=
          (hold _ (fun he => by cases he) fun he => by cases he).trans hfresh.previous
        obtain ⟨hr, hc, hgone, hat⟩ := ht.changes.valid.rename hd hnone
          (ht.changes.valid.hasShard hd rfl rfl)
        refine ⟨fun _ => ⟨?_, hgone, hat.trans (hd.symm.trans hentry), ?_⟩,
          fun h => absurd hr h⟩
        · exact PublishCall.Named.rename ht hc
            lease_not_renamed.1 staging_not_renamed.1 (by simp) (by simp)
        · rw [← hentry, hd]
          rfl
    · obtain rfl := Option.some.inj hr
      exact ⟨nofun, fun _ => ht⟩
  exact hstep.mono fun r t ht =>
    ⟨fun hr => ⟨ht.leased, ht.files.1 hr⟩, fun hr => ⟨ht.leased, ht.files.2 hr⟩⟩

/-- A staging directory becomes the entry, or all directories are where they were. -/
theorem keeps_publishStaging {t : Watched} (hL : call.Tolerates L)
    (ht : t.Has true (call.Staged (call.staging staged) inode L)) :
    call.Keeps (publishStaging (call.staging staged) call.ns call.key)
      (call.Staged (call.staging staged) inode L) (fun _ => False) t := by
  unfold publishStaging
  refine tries_seq (ends_token ((around_staged staging_ne_lease).stable hL) ht)
    fun token t ht => ?_
  obtain ⟨hleased, hkept, hfresh⟩ := ht
  refine tries_seq (ends_moveEntry hfresh hL ⟨hleased, hkept⟩) fun r t ht => ?_
  cases r with
  | ok _ => exact keeps_placeStaging hfresh hL (fun _ => ht.1 rfl) nofun
  | error e =>
    cases e with
    | notFound => exact keeps_placeStaging hfresh hL nofun fun _ => ht.2 nofun
    | alreadyExists | notEmpty | other => exact tries_throw (ht.2 nofun)

end Staging

/-! ## Publication -/

section Publication
variable {lease : WriterLease} {reader : Reader} {compatibility : CacheCompatibility}

theorem retains_stage {staged : Token} {inode : Nat}
    (hw : call.Holds (call.Staged (call.staging staged) inode) lease w) :
    call.Retains (stage c (call.staging staged) call.ns call.key compatibility reader lease)
      (call.Staged (call.staging staged) inode) (fun _ => False) w := by
  have hne : call.staging staged ≠ call.lease := staging_ne_lease
  have hK : call.Around (call.Staged (call.staging staged) inode) := around_staged hne
  unfold stage
  refine retains_andThen (retains_writePayload hne hw) fun a lease t ht _ => ?_
  refine ends_bind (ends_reading (x := step .now) (hK.stable tolerates_mine)
    ⟨trivial, fun _ => trivial⟩ ht.has) fun created u hu => ?_
  refine retains_andThen (retains_keeping ht.ns ht.key
    (keeps_writeEnvelope hne tolerates_mine hu)) fun _ lease t ht _ => ?_
  refine retains_andThen (retains_refresh hK ht) fun _ lease t ht _ => ?_
  refine retains_checked hK ht fun lease t ht => ?_
  exact retains_andThen (retains_keeping ht.ns ht.key
    (keeps_publishStaging tolerates_mine ht.has)) fun _ _ _ _ hpublished => hpublished.elim

/-- A staging directory that was created is new. -/
theorem tries_createStaging (hL : call.Tolerates L) : ∀ {attempts : Nat} {w : Watched},
    w.Has true (call.Kept [] L) →
    call.Tries (createStaging call.ns call.key attempts) (fun path t => ∃ staged inode,
      path = call.staging staged ∧ call.before.at? path = none ∧
      t.Has true (call.Staged path inode L)) (fun t => t.Has true (call.Kept [] L)) w
  | 0, w, hw => tries_throw hw
  | attempts + 1, w, hw => by
    unfold createStaging
    refine tries_seq (ends_token (around_kept.stable hL) hw) fun staged t ht => ?_
    obtain ⟨hleased, hkept, _⟩ := ht
    have hcreate : call.Ends (step (.createDir (call.staging staged))) (fun r t =>
        t.Has true fun t => (r = .ok () → call.before.at? (call.staging staged) = none ∧
          ∃ inode, call.Staged (call.staging staged) inode L t) ∧
        (r ≠ .ok () → call.Kept [] L t)) t := by
      refine ends_step (around_kept.stable hL) ⟨hleased, hkept⟩ (fun env _ t ht => ?_)
        fun _ r t hr ht => ?_
      · rcases ht.changes.valid.createDir_cases env.process env.now (call.staging staged) with
          ⟨e, he⟩ | ⟨hnone, hr, hc, hat⟩
        · rw [show FileOp.effect env t (.createDir (call.staging staged)) = (.error e, t) from he]
          exact ⟨(fun h => by cases h), fun _ => ht⟩
        · obtain ⟨inode, hi, _⟩ := inode_of_at? hat
          refine ⟨fun _ => ⟨?_, inode, ?_, hi, trivial⟩, fun h => absurd hr h⟩
          · rw [← ht.changes.same _ fun hm => staging_ne_lease (List.mem_singleton.mp hm)]
            exact hnone
          · exact ht.any.elsewhere hc (fun _ hq => hq)
              fun hm => staging_ne_lease (List.mem_singleton.mp hm).symm
      · obtain rfl := Option.some.inj hr
        exact ⟨(fun h => by cases h), fun _ => ht⟩
    refine tries_seq hcreate fun r t ht => ?_
    cases r with
    | ok _ =>
      obtain ⟨hnone, inode, hstaged⟩ := ht.files.1 rfl
      exact tries_pure ⟨staged, inode, rfl, hnone, ht.leased, hstaged⟩
    | error e =>
      cases e with
      | alreadyExists => exact tries_createStaging hL ⟨ht.leased, ht.files.2 fun h => by cases h⟩
      | notFound | notEmpty | other => exact tries_throw ⟨ht.leased, ht.files.2 fun h => by cases h⟩

/-- Without a publication the staging directory is removed. -/
theorem retains_publishLeased (hw : call.Holds (call.Kept []) lease w) :
    call.Retains (publishLeased c call.ns call.key compatibility reader lease) (call.Kept [])
      (fun _ => True) w := by
  unfold publishLeased
  refine retains_andThen (retains_reading around_kept readingDiscipline.acts_lookup hw)
    fun found lease t ht _ => ?_
  cases found with
  | hit entry => exact retains_pure ht trivial
  | miss reason =>
    have hcreate : call.Ends (keeping lease (createStaging call.ns call.key 100)) (fun r t =>
        (∀ path, r.1 = .ok path → ∃ staged inode, path = call.staging staged ∧
          call.before.at? path = none ∧ call.Holds (call.Staged path inode) r.2 t) ∧
        ∀ e, r.1 = .error e → call.Holds (call.Kept []) r.2 t) t := by
      refine ends_bind (tries_createStaging tolerates_mine ht.has) fun r u hu => ends_pure ?_
      cases r with
      | ok path =>
        refine ⟨fun q hq => ?_, nofun⟩
        obtain rfl := Except.ok.inj hq
        obtain ⟨staged, inode, hpath, hnone, hhas⟩ := hu
        exact ⟨staged, inode, hpath, hnone, ht.ns, ht.key, hhas⟩
      | error e => exact ⟨nofun, fun _ _ => ⟨ht.ns, ht.key, hu⟩⟩
    refine ends_bind hcreate fun r t ht => ?_
    obtain ⟨created, lease⟩ := r
    cases created with
    | error e => exact retains_error (ht.2 e rfl)
    | ok path =>
      obtain ⟨staged, inode, rfl, hnone, hholds⟩ := ht.1 path rfl
      refine ends_bind (retains_stage hholds) fun r t ht => ?_
      obtain ⟨outcome, lease⟩ := r
      cases outcome with
      | ok envelope => exact (ht.2 envelope rfl).elim
      | error e =>
        obtain ⟨⟨hns, hkey, hhas⟩, _⟩ := ht
        refine ends_bind (ends_removeDirAll tolerates_mine staging_ne_lease
          (List.mem_singleton_self _) hhas) fun r t ht => ?_
        refine retains_error ⟨hns, hkey, ht.leased, ht.files.1.restore ?_⟩
        rw [ht.files.2.1 (ht.files.2.2 rfl)]
        exact hnone.symm

/-- What a call leaves behind that has not published. -/
structure PublishCall.Settled (call : PublishCall) (t : Watched) : Prop where
  changes : ∃ token, Changes [call.lease, call.reap token] call.before t.files
  lease : t.unread = true ∨ call.Spared (t.files.at? call.lease)

theorem settled_of_kept {t : Watched} (h : call.Kept [] call.Spared t.files) : call.Settled t :=
  ⟨⟨"", h.any.changes⟩, .inr h.lease⟩

theorem tries_withLease {α : Type} {body : WriterLease → Task (Result α × WriterLease)}
    (hbody : ∀ lease t, call.Holds (call.Kept []) lease t →
      call.Retains (body lease) (call.Kept []) (fun _ => True) t)
    (hw : w.Has false (call.Kept [] call.Spared)) :
    call.Tries (withLease c call.ns call.key body) (fun _ t => call.Settled t) call.Settled w := by
  have hacquired : call.Tries (acquire c call.ns call.key) (call.Holds (call.Kept []))
      call.Settled w := by
    refine (tries_acquire hw).mono (fun _ _ h => h) fun t ht => ?_
    obtain ⟨token, hkept⟩ := ht
    exact ⟨⟨token, hkept.changes⟩, .inr hkept.lease⟩
  refine tries_bind hacquired fun lease t ht => tries_seq (hbody lease t ht) fun r t ht => ?_
  refine tries_seq (ends_drop ht.1) fun _ t ht => ?_
  have hsettled : call.Settled t :=
    ⟨⟨"", ht.1.any.changes⟩, ht.2.imp_right fun h => .inr h⟩
  obtain ⟨result, lease⟩ := r
  cases result with
  | ok a => exact tries_pure hsettled
  | error e => exact tries_throw (α := α) hsettled

theorem tries_publishReader (hw : w.Has false (call.Kept [] call.Spared)) :
    call.Tries (publishReader c call.ns call.key compatibility reader) (fun _ t => call.Settled t)
      call.Settled w := by
  have hJ : call.Stable (call.Kept [] call.Spared) := around_kept.stable tolerates_spared
  unfold publishReader
  refine tries_bind ((tries_reading hJ readingDiscipline.acts_lookup hw).mono (fun _ _ h => h)
    fun t ht => settled_of_kept ht.files) fun found t ht => ?_
  cases found with
  | hit entry => exact tries_pure (settled_of_kept ht.files)
  | miss reason =>
    have hshard : call.Ends (step (.createShard call.ns (shardOf call.key)))
        (fun _ t => t.Has false (call.Kept [] call.Spared)) t := by
      refine ends_step hJ ht (fun env _ t ht => ?_) fun _ _ _ _ ht => ht
      exact ht.elsewhere (ht.changes.valid.createShard env _ _).1
        (fun q hq => absurd hq List.not_mem_nil) List.not_mem_nil
    refine tries_bind (A := fun _ t => t.Has false (call.Kept [] call.Spared))
      (tries_attempt (hshard.mono fun _ _ h => ⟨fun _ _ => h, fun _ _ => settled_of_kept h.files⟩))
      fun _ t ht => ?_
    exact tries_withLease (fun lease t ht => retains_publishLeased ht) ht

end Publication

/-! ## What is found afterwards -/

/-- **A publication that has not renamed its staging directory** leaves every lookup with what
it found before, every staging directory as it was, and no lease of its own, whatever failed
and wherever the call was cancelled. -/
theorem publishReader_unpublished {ns : CacheNamespace} {key : CacheKey}
    {compatibility : CacheCompatibility} {reader : Reader} {fs : Files} (h : fs.Valid)
    {process : Nat} {outside : Nat → Outside}
    (houtside : ∀ n, (PublishCall.mk process fs ns key).Allows (outside n))
    {result : Result CachePublication} {n : Nat} {t : Watched}
    (hrun : run Watched.eval outside (publishReader c ns key compatibility reader).run 0
      ⟨fs, false, false, false⟩ = (result, n, t))
    (hunpublished : t.published = false) :
    (∀ ns' key' compatibility' validation, ∃ found,
      Reads (lookup c ns' key' compatibility' validation) fs (.ok found) ∧
      Reads (lookup c ns' key' compatibility' validation) t.files (.ok found)) ∧
    (∀ ns' key' token, t.files.at? ⟨ns', .staging key' token⟩ = fs.at? ⟨ns', .staging key' token⟩) ∧
    (t.unread = false → t.files.at? (leasePath ns key) = fs.at? (leasePath ns key) ∨
      ∀ d, t.files.at? (leasePath ns key) = some d → d.creator ≠ process) := by
  have htries : (PublishCall.mk process fs ns key).Tries
      (publishReader c ns key compatibility reader) (fun _ t => (PublishCall.mk process fs ns
        key).Settled t) (PublishCall.mk process fs ns key).Settled ⟨fs, false, false, false⟩ :=
    tries_publishReader ⟨nofun, h.changes.mono fun q hq => absurd hq List.not_mem_nil, .inl rfl⟩
  have hends := run_of_wp houtside htries (n := 0)
  rw [hrun] at hends
  have hsettled : (PublishCall.mk process fs ns key).Settled t := by
    rcases hends with hpublished | hsettled
    · rw [hunpublished] at hpublished
      cases hpublished
    · cases result with
      | ok a => exact hsettled
      | error e => exact hsettled
  obtain ⟨token, hchanges⟩ := hsettled.changes
  have hsame : ∀ path : Path, path ≠ leasePath ns key → path ≠ ⟨ns, .reap key token⟩ →
      t.files.at? path = fs.at? path := fun path hlease hreap =>
    hchanges.same path (by simp [PublishCall.lease, PublishCall.reap, hlease, hreap])
  refine ⟨fun ns' key' compatibility' validation => ?_, fun ns' key' token' => ?_, fun hread => ?_⟩
  · refine ⟨answer c ns' key' compatibility' validation fs, reads_answer h, ?_⟩
    rw [← answer_congr (t := t.files) (hsame _ (fun he => by cases he) fun he => by cases he)
      fun token' => hsame _ (fun he => by cases he) fun he => by cases he]
    exact reads_answer hchanges.valid
  · exact hsame _ (fun he => by cases he) fun he => by cases he
  · refine (hsettled.lease.resolve_left fun hunread => ?_)
    rw [hread] at hunread
    cases hunread

namespace Sample

/-- What the theorem says of a call that began at `before` and ended at `w`. -/
def Untouched (before : Files) (w : Watched) : Prop :=
  (∀ ns key compatibility validation, ∃ found,
    Reads (lookup service ns key compatibility validation) before (.ok found) ∧
    Reads (lookup service ns key compatibility validation) w.files (.ok found)) ∧
  (∀ ns key token, w.files.at? ⟨ns, .staging key token⟩ = before.at? ⟨ns, .staging key token⟩) ∧
  (w.unread = false → w.files.at? (leasePath .plan (digest 2)) =
      before.at? (leasePath .plan (digest 2)) ∨
    ∀ d, w.files.at? (leasePath .plan (digest 2)) = some d → d.creator ≠ 0)

/-- The steps with a number in `faults` fail, and nothing happens to the lease. -/
def faulty (faults : List Nat) : Nat → Outside := fun n => ⟨{ env n with fault := n ∈ faults }, id⟩

/-- A reader that fails after its first byte. -/
def failing : Reader := [.ok [97], .error .other]

def failed : Result CachePublication × Nat × Watched :=
  run Watched.eval (faulty []) (publishReader service .plan (digest 2) compatibility failing).run 0
    ⟨.empty, false, false, false⟩

theorem failed_eq : run Watched.eval (faulty [])
    (publishReader service .plan (digest 2) compatibility failing).run 0
      ⟨.empty, false, false, false⟩ = (failed.1, failed.2.1, failed.2.2) := rfl

/-- A cache with one entry. -/
def stored : Files :=
  (run FileOp.eval env
    (Call.task service (.publish .plan (digest 2) compatibility abc inMemory_abc)) 0 .empty).2.2

def newer : CacheCompatibility := ⟨2, digest 1, none⟩

/-- A publication over the entry that fails when it renames its staging directory. -/
def interrupted : Result CachePublication × Nat × Watched :=
  run Watched.eval (faulty [55])
    (publishReader service .plan (digest 2) newer [.ok abc]).run 0 ⟨stored, false, false, false⟩

theorem interrupted_eq : run Watched.eval (faulty [55])
    (publishReader service .plan (digest 2) newer [.ok abc]).run 0
      ⟨stored, false, false, false⟩ = (interrupted.1, interrupted.2.1, interrupted.2.2) := rfl

theorem represents_stored : ∃ m, Represents service m stored := by
  have hstored := @refines_publish service .empty .empty .plan (digest 2) (represents_empty service)
    (show 0 < service.polls by decide) (fun _ _ _ => show 373 ≤ 65536 by decide) compatibility abc
    inMemory_abc
  have hquiet : ∀ n, (env n).Quiet := fun _ => ⟨rfl, rfl, rfl⟩
  obtain ⟨_, hrep, _⟩ := @run_of_wp _ _ _ _ _ _ _ env hquiet _ _ 0 Files.empty hstored
  exact ⟨_, hrep⟩

theorem allows_faulty {before : Files} {m : Store} (h : Represents service m before)
    (faults : List Nat) (n : Nat) :
    (PublishCall.mk 0 before .plan (digest 2)).Allows (faulty faults n) := by
  obtain ⟨_, hsettled, _⟩ := h
  exact ⟨⟨rfl, ⟨hsettled.bare _ _ _ rfl rfl, hsettled.bare _ _ _ rfl rfl⟩⟩,
    fun _ h => ⟨.refl h, fun _ hd => .inl hd⟩⟩

theorem valid_of_represents {before : Files} {m : Store} (h : Represents service m before) :
    before.Valid := by
  obtain ⟨_, hsettled, _⟩ := h
  exact hsettled.valid

end Sample

open Sample in
/-- A reader that fails on a new cache, and a rename that fails after the old entry was moved
aside. -/
theorem publishReader_unpublished_pair :
    (failed.1 = .error (.ioError "failed to read a cache publication payload") ∧
      Untouched .empty failed.2.2) ∧
    interrupted.1 = .error (.ioError "failed to atomically publish a cache entry") ∧
    (stored.at? (entryPath .plan (digest 2))).isSome ∧ Untouched stored interrupted.2.2 := by
  refine ⟨⟨by decide +kernel, ?_⟩, by decide +kernel, by decide +kernel, ?_⟩
  · exact publishReader_unpublished (valid_of_represents (represents_empty service))
      (allows_faulty (represents_empty service) []) failed_eq (by decide +kernel)
  · obtain ⟨_, h⟩ := represents_stored
    exact publishReader_unpublished (valid_of_represents h) (allows_faulty h [55]) interrupted_eq
      (by decide +kernel)

end ModelWeights.Cache
