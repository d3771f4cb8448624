import ModelWeights.Cache.Staging

/-! # Publishers under interference

`publish_reader` keeps every directory sound, whatever the other processes do to
directories that are not its own, whatever fails and wherever it is cancelled. -/
namespace ModelWeights.Cache
open Program Interference

/-- The bytes that the copy loop takes from a reader. -/
def Reader.content : Reader → List UInt8
  | .ok (b :: chunk) :: rest => b :: chunk ++ Reader.content rest
  | _ => []

/-- The reader comes to its end. -/
def Reader.Ends : Reader → Prop
  | .ok (_ :: _) :: rest => Reader.Ends rest
  | .error _ :: _ => False
  | _ => True

variable {Good : CacheEnvelope → List UInt8 → Prop} {process : Nat} {others : Nat → Prop}
  {fs t : Files} {path : Path} {inode : Nat} {c : CacheService} {ns : CacheNamespace}
  {key : CacheKey} {compatibility : CacheCompatibility}

theorem kept_true {p : Nat → Prop} : Kept p process fun _ => True := fun _ _ _ _ => trivial

theorem stable_true : (soundProtocol Good process others).Stable fun _ => True :=
  fun _ _ _ _ _ => trivial

section Calm
variable {α β : Type} {A : Files → Prop} {B : β → Files → Prop} {E : Files → Prop}

/-- The discipline of a process that owns a staging directory. -/
def ownDiscipline (Good : CacheEnvelope → List UInt8 → Prop) (others : Nat → Prop)
    (hA : Kept (fun _ => True) process A) : Discipline :=
  soundDiscipline Good (fun n (_ : others n) => trivial) hA

theorem leads_after (hA : Kept (fun _ => True) process A) {x : Task (Result α × WriterLease)}
    {f : α → WriterLease → Task (Result β × WriterLease)}
    (hx : (ownDiscipline Good others hA).holds x) (h : A fs) (hAE : ∀ t, A t → E t)
    (hE : (soundProtocol Good process others).Stable E)
    (hf : ∀ a lease t, t.Sound Good → A t →
      (soundProtocol Good process others).Leads (f a lease) B E t) :
    (soundProtocol Good process others).Leads (andThen x f) B E fs := by
  refine leads_andThen hE (A := fun _ => A) ?_ hf
  refine Guards.mono (hx fs h) fun r t _ ht => ?_
  rcases r with ⟨_ | _, _⟩
  · exact hAE t ht
  · exact ht

theorem acts_after (hA : Kept (fun _ => True) process A) {o : FileOp} {f : o.Resp → Action β}
    (ho : o.Calm) (h : A fs) (hf : ∀ r t, t.Sound Good → A t →
      (soundProtocol Good process others).Acts (f r) B E t) :
    (soundProtocol Good process others).Acts (liftM (step o) >>= f) B E fs :=
  acts_seq ((ownDiscipline Good others hA).step ho fs h) fun r t hi ht => hf r t hi ht

end Calm

/-! ## The staging directory -/

/-- A directory with a payload and no metadata. -/
structure Directory.Payloaded (bytes : Option (List UInt8)) (d : Directory) : Prop where
  payload : d.payload = bytes
  metadata : d.metadata = none

theorem Directory.Payloaded.sound {bytes : Option (List UInt8)} {d : Directory}
    (h : d.Payloaded bytes) : d.Sound Good := by
  refine ⟨fun e length hm => ?_, fun e length bytes hm => ?_⟩
  · rw [h.metadata] at hm
    cases hm
  · rw [h.metadata] at hm
    cases hm

theorem own_createDir {now : Nat} (hk : path.name.kind = .staging)
    (h : (fs.createDir process now path).1 = .ok ()) :
    Own process path fs.next (Directory.Payloaded none) (fs.createDir process now path).2 := by
  rw [Files.createDir] at h ⊢
  split at h
  · cases h
  · next hshard =>
    split at h
    · cases h
    · next hnone =>
      rw [if_neg hshard, if_neg hnone]
      refine ⟨hk, (OrderedMap.get?_insert ..).trans (if_pos rfl), ?_, ?_⟩
      · exact congrArg Directory.creator (if_pos rfl)
      · show Directory.Payloaded none (if fs.next = fs.next then _ else _)
        rw [if_pos rfl]
        exact ⟨rfl, rfl⟩

theorem acts_createStaging : ∀ {attempts : Nat} {fs : Files},
    (soundProtocol Good process others).Acts (createStaging ns key attempts)
      (fun path t => ∃ inode, Own process path inode (Directory.Payloaded none) t)
      (fun _ => True) fs
  | 0, _ => acts_throw stable_true trivial
  | attempts + 1, fs => by
    refine acts_after kept_true (o := .token) trivial trivial fun token t _ _ => ?_
    have hcreate : (soundProtocol Good process others).Does
        (step (.createDir ⟨ns, .staging key token⟩)) (fun r t => r = .ok () →
          ∃ inode, Own process ⟨ns, .staging key token⟩ inode (Directory.Payloaded none) t) t := by
      refine does_step (fun t _ hi env henv => ?_) fun r => ?_
      · obtain ⟨hs, hk⟩ := FileOp.Calm.eval (p := others)
          (o := .createDir ⟨ns, .staging key token⟩) trivial hi env
        refine ⟨hs, hk, fun hr => ?_⟩
        have hprocess : env.process = process := henv
        cases hfault : env.fault with
        | true =>
          rw [FileOp.eval, hfault] at hr
          cases hr
        | false =>
          rw [FileOp.eval_quiet hfault] at hr ⊢
          subst hprocess
          exact ⟨t.next, own_createDir rfl hr⟩
      · intro s u hown hsu _ hr
        obtain ⟨inode, hown⟩ := hown hr
        exact ⟨inode, own_kept.later hown hsu⟩
    refine acts_seq hcreate fun r u _ hr => ?_
    cases r with
    | ok created =>
      obtain ⟨inode, hown⟩ := hr rfl
      refine acts_pure ?_ ⟨inode, hown⟩
      rintro s v ⟨i, hi⟩ hsv _
      exact ⟨i, own_kept.later hi hsv⟩
    | error e =>
      cases e with
      | alreadyExists => exact acts_createStaging
      | notFound | notEmpty | other => exact acts_throw stable_true trivial

/-! ## Writing -/

/-- Nothing is known of one's own staging directory. -/
abbrev Owned (process : Nat) (path : Path) (inode : Nat) : Files → Prop :=
  Own process path inode fun _ => True

theorem Own.owned {P : Directory → Prop} (h : Own process path inode P fs) :
    Owned process path inode fs := h.mono fun _ _ => trivial

theorem leads_writeChunks (hothers : ¬others process) {reader : Reader} {written : List UInt8}
    {total : Nat} {lease : WriterLease} {fs : Files}
    (h : Own process path inode (Directory.Payloaded (some written)) fs) :
    (soundProtocol Good process others).Leads (writeChunks inode written total reader lease)
      (fun r t => (Reader.Ends reader ∧
          r = (total + (Reader.content reader).length, written ++ Reader.content reader)) ∧
        Own process path inode (Directory.Payloaded (some (written ++ Reader.content reader))) t)
      (Owned process path inode) fs := by
  have hdone : ∀ {written : List UInt8} {total : Nat} {reader : Reader} {lease : WriterLease}
      {t : Files}, Reader.content reader = [] → Reader.Ends reader →
      Own process path inode (Directory.Payloaded (some written)) t →
      (soundProtocol Good process others).Leads (pure (.ok (total, written), lease))
        (fun r t => (Reader.Ends reader ∧
            r = (total + (Reader.content reader).length, written ++ Reader.content reader)) ∧
          Own process path inode
            (Directory.Payloaded (some (written ++ Reader.content reader))) t)
        (Owned process path inode) t := by
    intro written total reader lease t hcontent hends ht
    rw [hcontent, List.append_nil]
    exact leads_pure (fun s u hs hsu _ => ⟨hs.1, own_kept.later hs.2 hsu⟩) ⟨⟨hends, rfl⟩, ht⟩
  induction reader generalizing written total lease fs with
  | nil =>
    unfold writeChunks
    refine leads_after own_kept (Discipline.holds_keeping Discipline.acts_checkCancelled) h
      (fun t ht => ht.owned) own_stable fun _ lease t _ h => ?_
    refine leads_after own_kept (Discipline.holds_refresh sound_leasing) h
      (fun t ht => ht.owned) own_stable fun _ lease t _ h => ?_
    exact hdone rfl trivial h
  | cons read rest ih =>
    unfold writeChunks
    refine leads_after own_kept (Discipline.holds_keeping Discipline.acts_checkCancelled) h
      (fun t ht => ht.owned) own_stable fun _ lease t _ h => ?_
    refine leads_after own_kept (Discipline.holds_refresh sound_leasing) h
      (fun t ht => ht.owned) own_stable fun _ lease t _ h => ?_
    cases read with
    | error e => exact leads_error own_stable h.owned
    | ok chunk =>
      cases chunk with
      | nil => exact hdone rfl trivial h
      | cons b chunk =>
        have hwrite : (soundProtocol Good process others).Does
            (step (.appendPayload inode (b :: chunk))) (Tried (fun _ =>
              Own process path inode (Directory.Payloaded (some (written ++ b :: chunk))))
              (Owned process path inode)) t := by
          refine does_write hothers h (stable_tried own_stable fun _ => own_stable)
            (fun r t hr ht => ?_) fun env t hi ht => ?_
          · obtain rfl := Option.some.inj hr
            exact ht.owned
          · have hd : Directory.Payloaded (some (written ++ b :: chunk))
                { Files.touch env.now (t.dirs inode) with
                  payload := (t.dirs inode).payload.map (· ++ b :: chunk) } := by
              refine ⟨?_, ht.holds.metadata⟩
              show (t.dirs inode).payload.map _ = _
              rw [ht.holds.payload]
              rfl
            exact ⟨.ok (), _, rfl, hd.sound, rfl, fun u hu => hu.mono fun d he => he ▸ hd⟩
        refine leads_andThen own_stable (leads_keeping own_stable (fun _ => own_stable)
          (acts_attempt own_stable (fun _ => own_stable) hwrite)) fun _ lease t _ h => ?_
        split
        · exact leads_error own_stable h.owned
        · next total' htotal =>
          obtain rfl := Option.some.inj (Option.ite_none_right_eq_some.mp htotal).2
          refine Guards.mono (ih h) fun r t _ hr => ?_
          rcases r with ⟨_ | r, _⟩
          · exact hr
          · obtain ⟨⟨hends, rfl⟩, hown⟩ := hr
            refine ⟨⟨hends, ?_⟩, ?_⟩
            · rw [Reader.content, List.append_assoc, List.length_append, Nat.add_assoc]
            · rw [Reader.content, ← List.append_assoc]
              exact hown

theorem leads_writePayload (hothers : ¬others process) {reader : Reader} {lease : WriterLease}
    (h : Own process path inode (Directory.Payloaded none) fs) :
    (soundProtocol Good process others).Leads (writePayload c path reader lease)
      (fun r t => (Reader.Ends reader ∧
          r = ((Reader.content reader).length, c.sha256 (Reader.content reader))) ∧
        Own process path inode (Directory.Payloaded (some (Reader.content reader))) t)
      (Owned process path inode) fs := by
  have hcreate : (soundProtocol Good process others).Does (step (.createPayload path))
      (Tried (fun i t => i = inode ∧ Own process path inode (Directory.Payloaded (some [])) t)
        (Owned process path inode)) fs := by
    refine does_write hothers h (stable_tried own_stable fun _ s t hs hst _ =>
      ⟨hs.1, own_kept.later hs.2 hst⟩) (fun r t hr ht => ?_) fun env t hi ht => ?_
    · obtain rfl := Option.some.inj hr
      exact ht.owned
    · have hd : Directory.Payloaded (some [])
          { Files.stamp env.now (t.dirs inode) with payload := some [] } := ⟨rfl, ht.holds.metadata⟩
      refine ⟨.ok inode, _, ?_, hd.sound, rfl, fun u hu => ⟨rfl, hu.mono fun d he => he ▸ hd⟩⟩
      rw [FileOp.effect, Files.change, ht.named]
      simp only [ht.holds.payload, Option.isSome_none, Bool.false_eq_true, if_false]
  unfold writePayload
  refine leads_andThen own_stable (leads_keeping own_stable
    (fun _ s t hs hst _ => ⟨hs.1, own_kept.later hs.2 hst⟩)
    (acts_attempt own_stable (fun _ s t hs hst _ => ⟨hs.1, own_kept.later hs.2 hst⟩) hcreate)) ?_
  rintro _ lease t _ ⟨rfl, h⟩
  refine leads_andThen own_stable (leads_writeChunks hothers h) ?_
  rintro _ lease t _ ⟨⟨hends, rfl⟩, h⟩
  rw [List.nil_append] at h ⊢
  refine leads_after own_kept (Discipline.holds_keeping (Discipline.acts_attempt
    ((ownDiscipline Good others own_kept).step trivial))) h (fun t ht => ht.owned) own_stable
    fun _ lease t _ h => ?_
  exact leads_pure (fun s u hs hsu _ => ⟨hs.1, own_kept.later hs.2 hsu⟩)
    ⟨⟨hends, by rw [Nat.zero_add]⟩, h⟩

/-- A directory with a payload and the envelope of it. -/
structure Directory.Described (e : CacheEnvelope) (bytes : List UInt8) (d : Directory) : Prop where
  payload : d.payload = some bytes
  metadata : ∃ length, d.metadata = some (.envelope e length) ∧ length ≤ maxMetadataBytes

theorem acts_writeEnvelope (hothers : ¬others process) {e : CacheEnvelope} {bytes : List UInt8}
    (hgood : Good e bytes) (h : Own process path inode (Directory.Payloaded (some bytes)) fs) :
    (soundProtocol Good process others).Acts (writeEnvelope c path e)
      (fun _ => Own process path inode (Directory.Described e bytes))
      (Owned process path inode) fs := by
  have hcreate : (soundProtocol Good process others).Does (step (.createMetadata path))
      (Tried (fun i t => i = inode ∧ Own process path inode (fun d => d.payload = some bytes ∧
        d.metadata = some .incomplete) t) (Owned process path inode)) fs := by
    refine does_write hothers h (stable_tried own_stable fun _ s t hs hst _ =>
      ⟨hs.1, own_kept.later hs.2 hst⟩) (fun r t hr ht => ?_) fun env t hi ht => ?_
    · obtain rfl := Option.some.inj hr
      exact ht.owned
    · refine ⟨.ok inode, { Files.stamp env.now (t.dirs inode) with metadata := some .incomplete },
        ?_, ?_, rfl, fun u hu => ⟨rfl, hu.mono fun d he => he ▸ ⟨ht.holds.payload, rfl⟩⟩⟩
      · rw [FileOp.effect, Files.change, ht.named]
        simp only [ht.holds.metadata, Option.isSome_none, Bool.false_eq_true, if_false]
      · exact ⟨fun _ _ hm => (by cases hm), fun _ _ _ hm => (by cases hm)⟩
  have hwrite : ∀ {t : Files}, c.envelopeLength e ≤ maxMetadataBytes →
      Own process path inode (fun d => d.payload = some bytes ∧
      d.metadata = some .incomplete) t → (soundProtocol Good process others).Does
      (step (.writeMetadata inode e (c.envelopeLength e)))
      (Tried (fun _ => Own process path inode (Directory.Described e bytes))
        (Owned process path inode)) t := by
    intro t hlength h
    refine does_write hothers h (stable_tried own_stable fun _ => own_stable)
      (fun r t hr ht => ?_) fun env t hi ht => ?_
    · obtain rfl := Option.some.inj hr
      exact ht.owned
    · have hmetadata : ((t.dirs inode).metadata.map fun _ =>
          MetadataFile.envelope e (c.envelopeLength e)) = some (.envelope e (c.envelopeLength e)) := by
        rw [ht.holds.2]
        rfl
      have hd : Directory.Described e bytes { Files.touch env.now (t.dirs inode) with
          metadata := (t.dirs inode).metadata.map fun _ => .envelope e (c.envelopeLength e) } :=
        ⟨ht.holds.1, _, hmetadata, hlength⟩
      refine ⟨.ok (), _, rfl, ⟨fun e' length hm => ?_, fun e' length bytes' hm hp => ?_⟩, rfl,
        fun u hu => hu.mono fun d he => he ▸ hd⟩
      · obtain ⟨rfl, _⟩ := MetadataFile.envelope.inj (Option.some.inj (hmetadata.symm.trans hm))
        exact ⟨bytes, hgood⟩
      · obtain ⟨rfl, _⟩ := MetadataFile.envelope.inj (Option.some.inj (hmetadata.symm.trans hm))
        obtain rfl := Option.some.inj (ht.holds.1.symm.trans hp)
        exact hgood
  unfold writeEnvelope
  split
  · exact acts_bind own_stable (acts_throw own_stable h.owned) fun _ _ _ h => absurd h id
  · next hlength =>
    refine acts_bind own_stable (acts_attempt own_stable
      (fun _ s t hs hst _ => ⟨hs.1, own_kept.later hs.2 hst⟩) hcreate) ?_
    rintro _ t _ ⟨rfl, h⟩
    refine acts_bind own_stable (acts_attempt own_stable (fun _ => own_stable)
      (hwrite (Nat.le_of_not_lt hlength) h))
      fun _ t _ h => ?_
    refine acts_attempt own_stable (fun _ => own_stable) ?_
    refine Guards.mono ((ownDiscipline Good others own_kept).step (o := .sync) trivial t h)
      fun r t _ ht => ?_
    cases r with
    | ok u => exact ht
    | error e => exact ht.owned

/-! ## Publication -/

theorem rename_error {source destination : Path} {e : IoError}
    (h : (fs.rename source destination).1 = .error e) : (fs.rename source destination).2 = fs := by
  rcases fs.rename_cases source destination with ⟨e', he⟩ | hok
  · rw [he]
  · rw [hok] at h
    cases h

/-- A complete staging directory becomes an entry, or stays as it is. -/
theorem does_place (hothers : ¬others process) {e : CacheEnvelope} {bytes : List UInt8}
    (hfits : e.Fits (entryPath ns key))
    (h : Own process path inode (Directory.Described e bytes) fs) :
    (soundProtocol Good process others).Does (step (.rename path (entryPath ns key)))
      (Tried (fun _ _ => True) (Own process path inode (Directory.Described e bytes))) fs := by
  refine does_step (fun t ht hi env _ => ?_) (stable_tried own_stable fun _ => stable_true)
  have hnow := own_kept.later h ht
  rw [FileOp.eval]
  cases hfault : env.fault with
  | true => exact ⟨hi, .refl _ t, hnow⟩
  | false =>
    have hrename : (t.rename path (entryPath ns key)).2.Sound Good ∧
        Keeps others t (t.rename path (entryPath ns key)).2 := by
      refine Files.Sound.rename hi fun i hn => .inr ⟨hnow.staging, rfl, ?_, ?_⟩
      · exact (hnow.clear hothers).creator hnow.staging hn
      · obtain rfl := Option.some.inj (hnow.named.symm.trans hn)
        obtain ⟨length, hm, _⟩ := hnow.holds.metadata
        exact ⟨e, length, hfits, hm⟩
    refine ⟨hrename.1, hrename.2, ?_⟩
    show Tried _ _ (t.rename path (entryPath ns key)).1 (t.rename path (entryPath ns key)).2
    cases hr : (t.rename path (entryPath ns key)).1 with
    | ok _ => trivial
    | error e =>
      rw [rename_error hr]
      exact hnow

theorem acts_placeStaging (hothers : ¬others process) {e : CacheEnvelope} {bytes : List UInt8}
    {token : Token} {moved : Bool} (hfits : e.Fits (entryPath ns key))
    (h : Own process path inode (Directory.Described e bytes) fs) :
    (soundProtocol Good process others).Acts (placeStaging path ns key token moved)
      (fun _ _ => True) (Owned process path inode) fs := by
  refine acts_seq (does_place hothers hfits h) fun r t _ ht => ?_
  cases r with
  | error _ =>
    cases moved with
    | true =>
      refine acts_after own_kept (o := .rename ⟨ns, .previous key token⟩ (entryPath ns key))
        ⟨⟨rfl, rfl, rfl⟩, by simp [Name.kind]⟩ ht fun _ t _ ht => acts_throw own_stable ht.owned
    | false => exact acts_throw own_stable ht.owned
  | ok _ =>
    cases moved with
    | true =>
      refine acts_seq ((ownDiscipline Good others kept_true).removal
        (.inl (by simp [Name.kind])) t trivial) fun _ t _ _ => acts_pure stable_true trivial
    | false => exact acts_pure stable_true trivial

theorem acts_publishStaging (hothers : ¬others process) {e : CacheEnvelope} {bytes : List UInt8}
    (hfits : e.Fits (entryPath ns key))
    (h : Own process path inode (Directory.Described e bytes) fs) :
    (soundProtocol Good process others).Acts (publishStaging path ns key)
      (fun _ _ => True) (Owned process path inode) fs := by
  refine acts_after own_kept (o := .token) trivial h fun token t _ h =>
    acts_after own_kept (o := .rename (entryPath ns key) ⟨ns, .previous key token⟩)
      ⟨⟨rfl, rfl, rfl⟩, by simp [entryPath, Name.kind]⟩ h fun r t _ h => ?_
  cases r with
  | ok moved => exact acts_placeStaging hothers hfits h
  | error e =>
    cases e with
    | notFound => exact acts_placeStaging hothers hfits h
    | alreadyExists | notEmpty | other => exact acts_throw own_stable h.owned

end ModelWeights.Cache
