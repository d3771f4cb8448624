import ModelWeights.Cache.Answers
import ModelWeights.Cache.Discipline

/-! # Publications that fail

One call of `publish_reader` in which any step may fail, any check may find the call
cancelled, and the lease may be taken away before any step. Only the cleanup of what the
call itself made does not fail. As long as the staging directory has not become the entry,
every lookup finds what it found before the call. -/
namespace ModelWeights.Cache
open Program

/-! ## Runs with failures -/

/-- Removals, and the renames that undo what a call did. -/
def FileOp.cleanup : FileOp → Bool
  | .openDir _ | .unlink _ _ | .removeDir _ => true
  | .rename ⟨_, .lease _⟩ ⟨_, .reap _ _⟩ => true
  | .rename ⟨_, .previous _ _⟩ ⟨_, .final _⟩ => true
  | _ => false

/-- The step creates the directory of a lease. -/
def FileOp.acquires : (o : FileOp) → o.Resp → Bool
  | .createDir ⟨_, .lease _⟩, .ok () => true
  | _, _ => false

/-- The step makes a staging directory the entry. -/
def FileOp.publishes : (o : FileOp) → o.Resp → Bool
  | .rename ⟨_, .staging _ _⟩ ⟨_, .final _⟩, .ok () => true
  | _, _ => false

/-- Whether the last read of an owner failed. -/
def FileOp.unread (env : Env) (before : Bool) : FileOp → Bool
  | .readOwner _ => env.fault
  | _ => before

/-- The files during a call, and what the call has done so far. -/
structure Watched where
  files : Files
  leased : Bool
  published : Bool
  unread : Bool

/-- What a step meets: its environment, and what happened to the files before it. -/
structure Outside where
  env : Env
  meanwhile : Files → Files

def Watched.after (w : Watched) (o : FileOp) (env : Env) (out : o.Resp × Files) : Watched where
  files := out.2
  leased := w.leased || o.acquires out.1
  published := w.published || o.publishes out.1
  unread := o.unread env w.unread

/-- A step that may fail, unless it cleans up under the lease of the call. -/
def Watched.eval (o : FileOp) (e : Outside) (w : Watched) : o.Resp × Watched :=
  let out := if w.leased && o.cleanup then o.effect e.env (e.meanwhile w.files)
    else o.eval e.env (e.meanwhile w.files)
  (out.1, w.after o e.env out)

/-- A call on a key: the process that makes it, and the files before it. -/
structure PublishCall where
  process : Nat
  before : Files
  ns : CacheNamespace
  key : CacheKey

namespace PublishCall

def lease (call : PublishCall) : Path := leasePath call.ns call.key

/-- Stores that agree apart from the lease of the key. -/
structure Apart (call : PublishCall) (fs t : Files) : Prop where
  valid : t.Valid
  names : ∀ q, q ≠ call.lease → t.names.get? q = fs.names.get? q
  dirs : ∀ q inode, q ≠ call.lease → fs.names.get? q = some inode → t.dirs inode = fs.dirs inode

/-- The lease of the key is as before, or gone, or one of another process. -/
structure Loses (call : PublishCall) (fs t : Files) : Prop extends call.Apart fs t where
  lease : ∀ d, t.at? call.lease = some d → fs.at? call.lease = some d ∨ d.creator ≠ call.process

def reap (call : PublishCall) (token : Token) : Path := ⟨call.ns, .reap call.key token⟩

def previous (call : PublishCall) (token : Token) : Path := ⟨call.ns, .previous call.key token⟩

/-- A token that names nothing that was there before the call. -/
structure Fresh (call : PublishCall) (token : Token) : Prop where
  reap : call.before.at? (call.reap token) = none
  previous : call.before.at? (call.previous token) = none

structure Admits (call : PublishCall) (env : Env) : Prop where
  process : env.process = call.process
  token : call.Fresh env.token

structure Allows (call : PublishCall) (e : Outside) : Prop where
  env : call.Admits e.env
  meanwhile : ∀ fs, fs.Valid → call.Loses fs (e.meanwhile fs)

/-- In every run of a task, `Q` holds at its end unless the call has published. -/
def Ends {α : Type} (call : PublishCall) (task : Task α) (Q : α → Watched → Prop)
    (w : Watched) : Prop :=
  wp Watched.eval call.Allows task (fun a t => t.published = true ∨ Q a t) w

end PublishCall

/-! ## Rules -/

section Rules
variable {call : PublishCall} {α β : Type} {w : Watched}

/-- What was published stays published. -/
theorem ends_published : ∀ {task : Task α} {Q : α → Watched → Prop} {w : Watched},
    w.published = true → call.Ends task Q w
  | .ret _, _, _, h => .inl h
  | .op o k, Q, w, h => fun e he => by
    have hafter : (Watched.eval o e w).2.published = true := by
      show (w.published || _) = true
      rw [h, Bool.true_or]
    exact @ends_published (k (Watched.eval o e w).1) Q (Watched.eval o e w).2 hafter

theorem ends_pure {a : α} {Q : α → Watched → Prop} (h : Q a w) :
    call.Ends (pure a : Task α) Q w := .inr h

theorem ends_bind {x : Task α} {f : α → Task β} {Q : α → Watched → Prop}
    {R : β → Watched → Prop} (hx : call.Ends x Q w) (hf : ∀ a t, Q a t → call.Ends (f a) R t) :
    call.Ends (x >>= f) R w :=
  wp_seq hx fun a t ht => ht.elim ends_published (hf a t)

theorem PublishCall.Ends.mono {x : Task α} {Q R : α → Watched → Prop} (h : call.Ends x Q w)
    (hQ : ∀ a t, Q a t → R a t) : call.Ends x R w :=
  wp_mono h fun a t ht => ht.imp_right (hQ a t)

theorem PublishCall.Ends.published {x : Task α} {Q R : α → Watched → Prop} (h : call.Ends x Q w)
    (hQ : ∀ a t, Q a t → t.published = true ∨ R a t) : call.Ends x R w :=
  wp_mono h fun a t ht => ht.elim .inl (hQ a t)

/-- What holds whatever happens to the lease. -/
structure PublishCall.Stable (call : PublishCall) (J : Files → Prop) : Prop where
  valid : ∀ fs, J fs → fs.Valid
  loses : ∀ fs t, J fs → call.Loses fs t → J t

/-- The files meet `J`, in the second phase under the lease of the call. -/
structure Watched.Has (w : Watched) (leased : Bool) (J : Files → Prop) : Prop where
  leased : leased = true → w.leased = true
  files : J w.files

variable {J : Files → Prop} {leased : Bool}

/-- A lease is not forgotten. -/
theorem Watched.Has.still {o : FileOp} {env : Env} {out : o.Resp × Files} (hw : w.Has leased J)
    (h : leased = true) : (w.after o env out).leased = true := by
  show (w.leased || _) = true
  rw [hw.leased h, Bool.true_or]

/-- A step has an effect, or it fails and has none. -/
theorem ends_effect {o : FileOp} {Q : o.Resp → Watched → Prop} (hJ : call.Stable J)
    (hw : w.Has leased J)
    (heffect : ∀ env, call.Admits env → ∀ t, J t →
      Q (o.effect env t).1 (w.after o env (o.effect env t)))
    (hfault : (leased && o.cleanup) = false → ∀ env, env.fault = true → ∀ r t,
      o.failure = some r → J t → Q r (w.after o env (r, t))) : call.Ends (step o) Q w := by
  intro e he
  refine .inr ?_
  have ht := hJ.loses _ _ hw.files (he.meanwhile _ (hJ.valid _ hw.files))
  have hdone := heffect e.env he.env _ ht
  show Q (Watched.eval o e w).1 (Watched.eval o e w).2
  unfold Watched.eval
  by_cases hspared : (w.leased && o.cleanup) = true
  · simp only [hspared, if_true]
    exact hdone
  · have hcleanup : (leased && o.cleanup) = false := by
      rw [Bool.and_eq_false_iff, or_iff_not_imp_right]
      intro ho
      rw [Bool.not_eq_false] at ho
      rw [ho, Bool.and_true] at hspared
      rw [← Bool.not_eq_true]
      exact fun hl => hspared (hw.leased hl)
    rw [Bool.not_eq_true] at hspared
    simp only [hspared, Bool.false_eq_true, if_false, FileOp.eval]
    cases hf : e.env.fault with
    | false => exact hdone
    | true =>
      cases hr : o.failure with
      | none => exact hdone
      | some r => exact hfault hcleanup e.env hf r _ hr ht

/-- A cleanup that failed was not one under the lease. -/
theorem not_leased {o : FileOp} (h : (leased && o.cleanup) = false) (ho : o.cleanup = true) :
    leased ≠ true := fun hl => by
  rw [hl, ho] at h
  cases h

/-- The rule of steps, for what is known about the files. -/
theorem ends_step {o : FileOp} {Q : o.Resp → Files → Prop} (hJ : call.Stable J)
    (hw : w.Has leased J)
    (heffect : ∀ env, call.Admits env → ∀ t, J t → Q (o.effect env t).1 (o.effect env t).2)
    (hfault : (leased && o.cleanup) = false → ∀ r t, o.failure = some r → J t → Q r t) :
    call.Ends (step o) (fun r t => t.Has leased (Q r)) w := by
  refine ends_effect hJ hw (fun env henv t ht => ⟨hw.still, heffect env henv t ht⟩) ?_
  intro hcleanup env _ r t hr ht
  exact ⟨hw.still, hfault hcleanup r t hr ht⟩

/-- Reading keeps what is stable. -/
theorem ends_reading (hJ : call.Stable J) : ∀ {x : Task α} {w : Watched},
    x.Only FileOp.Reading → w.Has leased J → call.Ends x (fun _ t => t.Has leased J) w
  | .ret _, _, _, hw => .inr hw
  | .op o k, w, hx, hw => by
    have hsame : ∀ env t, (o.effect env t).2 = t := by
      intro env t
      have hread := hx.1.eval { env with fault := false } t
      rw [FileOp.eval_quiet rfl] at hread
      cases o <;> exact hread
    have hstep : call.Ends (step o) (fun _ t => t.Has leased J) w :=
      ends_step (Q := fun _ => J) hJ hw (fun env _ t ht => by rw [hsame]; exact ht)
        fun _ _ _ _ ht => ht
    exact ends_bind hstep fun r t ht => ends_reading hJ (hx.2 r) ht

/-! Actions -/

/-- The value of an action meets `A`, or it failed and `E` holds. -/
def Ended {α : Type} (A : α → Watched → Prop) (E : Watched → Prop) : Result α → Watched → Prop
  | .ok a, t => A a t
  | .error _, t => E t

def PublishCall.Tries {α : Type} (call : PublishCall) (x : Action α) (A : α → Watched → Prop)
    (E : Watched → Prop) (w : Watched) : Prop := call.Ends x.run (Ended A E) w

variable {A : α → Watched → Prop} {B : β → Watched → Prop} {E : Watched → Prop}

theorem tries_pure {a : α} (h : A a w) : call.Tries (pure a) A E w := ends_pure h

theorem tries_throw {e : Error} (h : E w) : call.Tries (throw e : Action α) A E w := ends_pure h

theorem tries_bind {x : Action α} {f : α → Action β} (hx : call.Tries x A E w)
    (hf : ∀ a t, A a t → call.Tries (f a) B E t) : call.Tries (x >>= f) B E w := by
  refine ends_bind hx fun r t hr => ?_
  cases r with
  | ok a => exact hf a t hr
  | error e => exact ends_pure hr

theorem tries_seq {x : Task α} {f : α → Action β} (hx : call.Ends x A w)
    (hf : ∀ a t, A a t → call.Tries (f a) B E t) : call.Tries (liftM x >>= f) B E w :=
  tries_bind (A := A) (ends_bind hx fun _ _ ha => ends_pure ha) hf

theorem PublishCall.Tries.mono {x : Action α} {A' : α → Watched → Prop} {E' : Watched → Prop}
    (h : call.Tries x A E w) (hA : ∀ a t, A a t → A' a t) (hE : ∀ t, E t → E' t) :
    call.Tries x A' E' w := by
  refine PublishCall.Ends.mono h fun r t hr => ?_
  cases r with
  | ok a => exact hA a t hr
  | error e => exact hE t hr

/-- A step whose failure ends the call. -/
theorem tries_attempt {message : String} {x : Task (IoResult α)}
    (hx : call.Ends x (fun r t => (∀ a, r = .ok a → A a t) ∧ ∀ e, r = .error e → E t) w) :
    call.Tries (attempt message x) A E w := by
  refine tries_seq hx fun r t hr => ?_
  cases r with
  | ok a => exact tries_pure (hr.1 a rfl)
  | error e => exact tries_throw (hr.2 e rfl)

theorem tries_reading {x : Action α} (hJ : call.Stable J) (hx : x.run.Only FileOp.Reading)
    (hw : w.Has leased J) :
    call.Tries x (fun _ t => t.Has leased J) (fun t => t.Has leased J) w := by
  refine (ends_reading hJ hx hw).mono fun r t ht => ?_
  cases r with
  | ok a => exact ht
  | error e => exact ht

end Rules

/-- The tasks that only read. -/
def readingDiscipline : Discipline where
  holds task := task.Only FileOp.Reading
  ok := FileOp.Reading
  removable _ := False
  ret _ := trivial
  bind := only_bind
  step ho := ⟨ho, fun _ => trivial⟩
  reading ho := ho
  removal h := h.elim

/-! ## What a call keeps -/

section Kept
variable {call : PublishCall} {fs t : Files} {paths : List Path} {L : Option Directory → Prop}

/-- The lease is not one of the process of the call. -/
def PublishCall.Foreign (call : PublishCall) (o : Option Directory) : Prop :=
  ∀ d, o = some d → d.creator ≠ call.process

/-- What may be said of a lease that can be lost. -/
def PublishCall.Tolerates (call : PublishCall) (L : Option Directory → Prop) : Prop :=
  ∀ o, call.Foreign o → L o

/-- Apart from the lease, some paths at most differ from before the call. -/
structure PublishCall.Kept (call : PublishCall) (paths : List Path)
    (L : Option Directory → Prop) (t : Files) : Prop where
  changes : Changes (call.lease :: paths) call.before t
  lease : L (t.at? call.lease)

theorem PublishCall.Apart.at? (h : call.Apart fs t) {q : Path} (hq : q ≠ call.lease) :
    t.at? q = fs.at? q := by
  rw [Files.at?, Files.at?, h.names q hq]
  cases hi : fs.names.get? q with
  | none => rfl
  | some inode => rw [Option.map_some, Option.map_some, h.dirs q inode hq hi]

theorem PublishCall.Apart.changes (h : call.Apart fs t) : Changes [call.lease] fs t :=
  ⟨h.valid, fun _ hq => h.at? fun he => hq (List.mem_singleton.mpr he)⟩

theorem PublishCall.Loses.keeps (h : call.Loses fs t) (hL : call.Tolerates L)
    (hlease : L (fs.at? call.lease)) : L (t.at? call.lease) := by
  by_cases hsame : t.at? call.lease = fs.at? call.lease
  · rw [hsame]
    exact hlease
  · refine hL _ fun d hd => ?_
    refine (h.lease d hd).resolve_left fun he => hsame ?_
    rw [hd, he]

/-- What is known about the files and, apart from that, about the lease. -/
structure PublishCall.Around (call : PublishCall) (K : (Option Directory → Prop) → Files → Prop) :
    Prop where
  valid : ∀ {L fs}, K L fs → fs.Valid
  lease : ∀ {L fs}, K L fs → L (fs.at? call.lease)
  apart : ∀ {L L' fs t}, K L fs → call.Apart fs t → L' (t.at? call.lease) → K L' t

theorem PublishCall.Around.stable {K : (Option Directory → Prop) → Files → Prop}
    (hK : call.Around K) (hL : call.Tolerates L) : call.Stable (K L) where
  valid _ h := hK.valid h
  loses _ _ h hl := hK.apart h hl.toApart (hl.keeps hL (hK.lease h))

theorem PublishCall.Apart.refl (h : fs.Valid) : call.Apart fs fs :=
  ⟨h, fun _ _ => rfl, fun _ _ _ _ => rfl⟩

/-- Something else is known about the lease. -/
theorem PublishCall.Around.weaken {K : (Option Directory → Prop) → Files → Prop}
    {L' : Option Directory → Prop} (hK : call.Around K) (h : K L t)
    (hL' : L' (t.at? call.lease)) : K L' t := hK.apart h (.refl (hK.valid h)) hL'

theorem around_kept : call.Around (call.Kept paths) where
  valid h := h.changes.valid
  lease h := h.lease
  apart h ha hL' := ⟨h.changes.trans (ha.changes.mono fun q hq => by
    rw [List.mem_singleton.mp hq]
    exact List.mem_cons_self ..), hL'⟩

/-- A change of other paths than the lease. -/
theorem PublishCall.Kept.elsewhere {qs : List Path} (h : call.Kept paths L fs)
    (hc : Changes qs fs t) (hsub : ∀ q ∈ qs, q ∈ paths) (hlease : call.lease ∉ qs) :
    call.Kept paths L t := by
  refine ⟨h.changes.trans (hc.mono fun q hq => List.mem_cons_of_mem _ (hsub q hq)), ?_⟩
  rw [hc.same _ hlease]
  exact h.lease

theorem PublishCall.Kept.restore {path : Path} (h : call.Kept (path :: paths) L t)
    (hsame : t.at? path = call.before.at? path) : call.Kept paths L t := by
  refine ⟨Changes.restore (h.changes.mono fun q hq => ?_) hsame, h.lease⟩
  rcases List.mem_cons.mp hq with rfl | hq
  · exact List.mem_cons_of_mem _ (List.mem_cons_self ..)
  · rcases List.mem_cons.mp hq with rfl | hq
    · exact List.mem_cons_self ..
    · exact List.mem_cons_of_mem _ (List.mem_cons_of_mem _ hq)

theorem PublishCall.Kept.widen {paths' : List Path} (h : call.Kept paths L t)
    (hsub : ∀ q ∈ paths, q ∈ paths') : call.Kept paths' L t :=
  ⟨h.changes.mono fun q hq => (List.mem_cons.mp hq).elim (fun he => he ▸ List.mem_cons_self ..)
    fun hq => List.mem_cons_of_mem _ (hsub q hq), h.lease⟩

theorem PublishCall.Kept.any (h : call.Kept [] L t) : call.Kept paths L t :=
  h.widen fun _ hq => absurd hq List.not_mem_nil

/-- What is known besides about a directory that has a name, by its inode. -/
structure PublishCall.Named (call : PublishCall) (paths : List Path)
    (L : Option Directory → Prop) (path : Path) (inode : Nat) (D : Directory → Prop)
    (t : Files) : Prop extends call.Kept paths L t where
  name : t.names.get? path = some inode
  holds : D (t.dirs inode)

variable {path : Path} {inode : Nat} {D : Directory → Prop}

theorem around_named (hne : path ≠ call.lease) :
    call.Around fun L => call.Named paths L path inode D where
  valid h := h.changes.valid
  lease h := h.lease
  apart h ha hL' := by
    refine ⟨around_kept.apart h.toKept ha hL', ?_, ?_⟩
    · rw [ha.names path hne]
      exact h.name
    · rw [ha.dirs path inode hne h.name]
      exact h.holds

/-- A change of the directory. -/
theorem PublishCall.Named.setDir {D' : Directory → Prop} {d : Directory}
    (h : call.Named paths L path inode D t) (hne : path ≠ call.lease) (hpath : path ∈ paths)
    (hd : D' d) : call.Named paths L path inode D' (t.setDir inode d) := by
  obtain ⟨hc, _⟩ := h.changes.valid.setDir h.name d
  refine ⟨h.elsewhere hc (fun q hq => ?_) (fun hm => hne (List.mem_singleton.mp hm).symm),
    h.name, ?_⟩
  · rw [List.mem_singleton.mp hq]
    exact hpath
  · show D' (if inode = inode then d else _)
    rw [if_pos rfl]
    exact hd

end Kept

/-! ## Removal -/

section Removal
variable {call : PublishCall} {paths : List Path} {L : Option Directory → Prop} {path : Path}
  {inode : Nat} {w : Watched} {leased : Bool}

/-- The files of a directory go one by one. -/
theorem ends_unlinkAll (hL : call.Tolerates L) (hne : path ≠ call.lease) (hpath : path ∈ paths) :
    ∀ {files : List File} {w : Watched},
    w.Has leased (call.Named paths L path inode fun d => ∀ g ∈ d.files, g ∈ files) →
    call.Ends (unlinkAll inode files) (fun r t => t.Has leased fun t => call.Kept paths L t ∧
      (r = .ok () → call.Named paths L path inode (fun d => d.files = []) t) ∧
      (leased = true → r = .ok ())) w
  | [], w, hw => ends_pure ⟨hw.leased, hw.files.toKept, fun _ => ⟨hw.files.toKept, hw.files.name,
      List.eq_nil_iff_forall_not_mem.mpr fun g hg => List.not_mem_nil (hw.files.holds g hg)⟩,
      fun _ => rfl⟩
  | file :: rest, w, hw => by
    have hstep : call.Ends (step (.unlink inode file)) (fun r t => t.Has leased fun t =>
        call.Kept paths L t ∧ (r = .ok () ∨ r = .error .notFound →
          call.Named paths L path inode (fun d => ∀ g ∈ d.files, g ∈ rest) t) ∧
        (leased = true → r = .ok () ∨ r = .error .notFound)) w := by
      refine ends_step ((around_named hne).stable hL) hw (fun env _ t ht => ?_)
        fun hcleanup r t hr ht => ?_
      · by_cases hfile : file ∈ (t.dirs inode).files
        · rw [show FileOp.effect env t (.unlink inode file) = (.ok (), t.setDir inode
            (Files.stamp env.now ((t.dirs inode).unlink file))) from if_pos hfile]
          have hset : call.Named paths L path inode (fun d => ∀ g ∈ d.files, g ∈ rest)
              (t.setDir inode (Files.stamp env.now ((t.dirs inode).unlink file))) := by
            refine ht.setDir hne hpath fun g hg => ?_
            obtain ⟨hg, hother⟩ := Directory.mem_files_unlink.mp hg
            exact (List.mem_cons.mp (ht.holds g hg)).resolve_left hother
          exact ⟨hset.toKept, fun _ => hset, fun _ => .inl rfl⟩
        · rw [show FileOp.effect env t (.unlink inode file) = (.error .notFound, t) from
            if_neg hfile]
          refine ⟨ht.toKept, fun _ => ⟨ht.toKept, ht.name, fun g hg => ?_⟩, fun _ => .inr rfl⟩
          refine (List.mem_cons.mp (ht.holds g hg)).resolve_left ?_
          rintro rfl
          exact hfile hg
      · obtain rfl := Option.some.inj hr
        refine ⟨ht.toKept, fun h => ?_, fun h => absurd h (not_leased hcleanup rfl)⟩
        rcases h with h | h <;> cases h
    refine ends_bind hstep fun r t ht => ?_
    cases r with
    | ok _ => exact ends_unlinkAll hL hne hpath ⟨ht.leased, ht.files.2.1 (.inl rfl)⟩
    | error e =>
      cases e with
      | notFound => exact ends_unlinkAll hL hne hpath ⟨ht.leased, ht.files.2.1 (.inr rfl)⟩
      | alreadyExists | notEmpty | other =>
        refine ends_pure ⟨ht.leased, ht.files.1, nofun, fun h => ?_⟩
        rcases ht.files.2.2 h with h | h <;> cases h

/-- A directory that is removed is gone. Under the lease of the call it is removed. -/
theorem ends_removeDirAll (hL : call.Tolerates L) (hne : path ≠ call.lease) (hpath : path ∈ paths)
    (hw : w.Has leased (call.Named paths L path inode fun _ => True)) :
    call.Ends (removeDirAll path) (fun r t => t.Has leased fun t => call.Kept paths L t ∧
      (r = .ok () → t.at? path = none) ∧ (leased = true → r = .ok ())) w := by
  have hopen : call.Ends (step (.openDir path)) (fun r t => t.Has leased fun t =>
      call.Kept paths L t ∧ (∀ a, r = .ok a → a.1 = inode ∧
        call.Named paths L path inode (fun d => ∀ g ∈ d.files, g ∈ a.2) t) ∧
      (leased = true → ∃ a, r = .ok a)) w := by
    refine ends_step ((around_named hne).stable hL) hw (fun env _ t ht => ?_)
      fun hcleanup r t hr ht => ?_
    · have heffect : FileOp.effect env t (.openDir path) = (.ok (inode, if env.reversed then
          (t.dirs inode).files.reverse else (t.dirs inode).files), t) := by
        simp only [FileOp.effect, ht.name]
      rw [heffect]
      refine ⟨ht.toKept, fun a ha => ?_, fun _ => ⟨_, rfl⟩⟩
      obtain rfl := Except.ok.inj ha
      refine ⟨rfl, ht.toKept, ht.name, fun g hg => ?_⟩
      dsimp only
      split
      · exact List.mem_reverse.mpr hg
      · exact hg
    · obtain rfl := Option.some.inj hr
      exact ⟨ht.toKept, (fun _ h => by cases h), fun h => absurd h (not_leased hcleanup rfl)⟩
  unfold removeDirAll
  refine ends_bind hopen fun r t ht => ?_
  cases r with
  | error e =>
    refine ends_pure ⟨ht.leased, ht.files.1, (fun h => by cases h), fun h => ?_⟩
    obtain ⟨a, ha⟩ := ht.files.2.2 h
    cases ha
  | ok found =>
    obtain ⟨rfl, hnamed⟩ := ht.files.2.1 _ rfl
    refine ends_bind (ends_unlinkAll hL hne hpath ⟨ht.leased, hnamed⟩) fun r t ht => ?_
    cases r with
    | error e => exact ends_pure ⟨ht.leased, ht.files.1, (fun h => by cases h), ht.files.2.2⟩
    | ok _ =>
      have hempty := ht.files.2.1 rfl
      refine ends_step ((around_named hne).stable hL) ⟨ht.leased, hempty⟩ (fun env _ t ht => ?_)
        fun hcleanup r t hr ht => ?_
      · obtain ⟨hr, hc, hgone⟩ := ht.changes.valid.removeDir (at?_eq ht.name) ht.holds
        refine ⟨ht.elsewhere hc (fun q hq => ?_) (fun hm => hne (List.mem_singleton.mp hm).symm),
          fun _ => hgone, fun _ => hr⟩
        rw [List.mem_singleton.mp hq]
        exact hpath
      · obtain rfl := Option.some.inj hr
        exact ⟨ht.toKept, (fun h => by cases h), fun h => absurd h (not_leased hcleanup rfl)⟩

end Removal

end ModelWeights.Cache
