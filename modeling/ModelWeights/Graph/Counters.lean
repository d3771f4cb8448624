import ModelWeights.Graph.Scratch

/-! # Counters that do not overflow

The schedule counts uses, allocations, references and live bytes in 64 bits. The
first three are bounded by the edges and the values of the graph, and live bytes
by the buffers that are in memory at once (`Resident`), so a run whose
allocations succeed raises no overflow of the accounting. -/
namespace ModelWeights.Graph

/-! ## Computations that raise no overflow -/

section Within
variable {α β : Type}

/-- `x` does not end with an overflow of the accounting. -/
def Within (x : Exec α) : Prop := ∀ l, x ≠ .error (.limit l)

theorem Within.pure (a : α) : Within (.ok a) := fun _ h => by cases h

theorem Within.fault (f : LivenessFault) : Within (.error (.fault f) : Exec α) :=
  fun _ h => by cases h

theorem within_lift (x : Result α) : Within (lift x) := by
  intro l h
  cases x with
  | ok a => cases h
  | error e => cases h

theorem within_orFault (o : Option α) (f : LivenessFault) : Within (orFault o f) := by
  intro l h
  cases o with
  | some a => cases h
  | none => cases h

theorem within_orLimit {o : Option α} {l : LivenessLimit} {a : α} (h : o = some a) :
    Within (orLimit o l) := by
  subst h
  exact Within.pure a

theorem orLimit_eq_ok {o : Option α} {l : LivenessLimit} {a : α} (h : orLimit o l = .ok a) :
    o = some a := by
  cases o with
  | some b => exact congrArg some (Except.ok.inj h)
  | none => cases h

theorem Within.bind {x : Exec α} {f : α → Exec β} (hx : Within x)
    (hf : ∀ a, x = .ok a → Within (f a)) : Within (x >>= f) := by
  cases x with
  | ok a => exact hf a rfl
  | error e =>
    intro l h
    exact hx l (congrArg Except.error (Except.error.inj h))

theorem Within.foldlM {f : β → α → Exec β} (I : Nat → β → Prop) : ∀ {l : List α} {b : β}, I 0 b →
    (∀ (k : Nat) (a : α) (x : β), l[k]? = some a → I k x →
      Within (f x a) ∧ ∀ y, f x a = .ok y → I (k + 1) y) → Within (l.foldlM f b) := by
  intro l
  induction l generalizing I with
  | nil => exact fun _ _ => Within.pure _
  | cons a l ih =>
    intro b h0 hs
    rw [List.foldlM_cons]
    obtain ⟨hw, hnext⟩ := hs 0 a b rfl h0
    refine hw.bind fun x hx => ?_
    exact ih (fun k => I (k + 1)) (hnext x hx) fun k a' y ha => hs (k + 1) a' y (by simpa using ha)

theorem Within.mapM {f : α → Exec β} : ∀ {l : List α}, (∀ a ∈ l, Within (f a)) →
    Within (l.mapM f)
  | [], _ => Within.pure _
  | a :: l, h => by
    rw [List.mapM_cons]
    refine (h a (List.mem_cons_self ..)).bind fun b _ => ?_
    exact (Within.mapM fun c hc => h c (List.mem_cons_of_mem _ hc)).bind fun _ _ => Within.pure _

theorem checkedAdd_some {a b : Nat} (h : a + b < u64Size) : checkedAdd a b = some (a + b) := by
  rw [checkedAdd, if_pos h]

end Within

/-! ## Uses -/

theorem incrementCount_within {limit : LivenessLimit} {counts : ValueRef → Option Nat}
    {value : ValueRef} (h : (counts value).getD 0 + 1 < u64Size) :
    Within (incrementCount limit counts value) :=
  (within_orLimit (checkedAdd_some h)).bind fun _ _ => Within.pure _

/-- Every edge is one use, and the graph output one more. -/
theorem new_within {graph : OperationGraph}
    (h : (graph.nodes.flatMap OperationNode.inputs).length + 1 < u64Size) :
    Within (LivenessSchedule.new graph) := by
  refine Within.bind ?_ fun uses huses => ?_
  · refine Within.foldlM (fun k (counts : ValueRef → Option Nat) => ∀ v, (counts v).getD 0 ≤ k)
      (fun v => Nat.le_refl 0) fun k value counts hk hcounts => ⟨?_, fun counts' hcounts' v => ?_⟩
    · have hlt := (List.getElem?_eq_some_iff.mp hk).1
      have := hcounts value
      exact incrementCount_within (by omega)
    · rw [(incrementCount_spec .useCount counts value).ok hcounts' v]
      have := hcounts v
      have := List.count_le_length (a := v) (l := [value])
      rw [List.length_singleton] at this
      omega
  · refine (incrementCount_within ?_).bind fun _ _ => Within.pure _
    rw [(incrementCounts_spec .useCount _ _).ok huses graph.output]
    have := List.count_le_length (a := graph.output) (l := graph.nodes.flatMap OperationNode.inputs)
    show 0 + _ + 1 < u64Size
    omega

/-! ## Allocations and references -/

/-- A schedule on which `n` values have been entered. -/
structure Spent (n : Nat) (s : LivenessSchedule) : Prop where
  next : s.nextAllocation ≤ n
  references : ∀ a st, s.allocations a = some st → st.references ≤ n

/-- The bytes an output adds to the live bytes. -/
def ProducedValue.charge (p : ProducedValue) (f : TensorFacts) : Nat :=
  match p.origin with
  | .fresh => f.byteLen
  | .alias _ => 0

section Steps
variable {n : Nat} {s s' : LivenessSchedule} {st st' : HostState} {v : ValueRef}

theorem references_update {allocs : Nat → Option LiveAllocation} {a₀ : Nat}
    {x : Option LiveAllocation} (h : ∀ a y, allocs a = some y → y.references ≤ n)
    (hx : ∀ y, x = some y → y.references ≤ n) :
    ∀ a y, Function.update allocs a₀ x a = some y → y.references ≤ n := by
  intro a y hy
  by_cases ha : a = a₀
  · subst ha
    rw [Function.update_self] at hy
    exact hx y hy
  · rw [Function.update_of_ne ha] at hy
    exact h a y hy

theorem createAllocation_within {bytes : Nat} (hn : s.nextAllocation + 1 < u64Size)
    (hl : s.liveBytes + bytes < u64Size) : Within (s.createAllocation bytes) :=
  (within_orLimit (checkedAdd_some hn)).bind fun _ _ =>
    (within_orLimit (checkedAdd_some hl)).bind fun _ _ => Within.pure _

theorem insertValue_within {allocation : Option Nat} (hn : n + 1 < u64Size)
    (hr : ∀ a x, s.allocations a = some x → x.references ≤ n) :
    Within (s.insertValue v allocation) := by
  unfold LivenessSchedule.insertValue
  split
  · exact Within.fault _
  · refine Within.bind ?_ fun _ _ => Within.pure _
    unfold LivenessSchedule.retain
    split
    · exact Within.pure _
    · refine (within_orFault _ _).bind fun x hx => ?_
      have := hr _ x (orFault_eq_ok.mp hx)
      exact (within_orLimit (checkedAdd_some (by omega))).bind fun _ _ => Within.pure _

theorem insertValue_ok {allocation : Option Nat} (h : s.insertValue v allocation = .ok s')
    (hr : ∀ a x, s.allocations a = some x → x.references ≤ n) :
    s'.nextAllocation = s.nextAllocation ∧ s'.liveBytes = s.liveBytes ∧
      ∀ a x, s'.allocations a = some x → x.references ≤ n + 1 := by
  unfold LivenessSchedule.insertValue at h
  obtain ⟨_, h⟩ := unless_error_ok h
  obtain ⟨allocations, hretain, h⟩ := bind_ok h
  rw [← Except.ok.inj h]
  refine ⟨rfl, rfl, ?_⟩
  show ∀ a x, allocations a = some x → x.references ≤ n + 1
  have hle : ∀ a x, s.allocations a = some x → x.references ≤ n + 1 := fun a x hx =>
    Nat.le_succ_of_le (hr a x hx)
  cases allocation with
  | none =>
    rw [← Except.ok.inj hretain]
    exact hle
  | some a₀ =>
    obtain ⟨y, hy, hretain⟩ := bind_ok hretain
    obtain ⟨references, hrefs, hretain⟩ := bind_ok hretain
    have hy := hr a₀ y (orFault_eq_ok.mp hy)
    have hrefs := (checkedAdd_eq_some.mp (orLimit_eq_ok hrefs)).2
    rw [← Except.ok.inj hretain]
    refine references_update hle fun z hz => ?_
    rw [← Option.some.inj hz]
    show references ≤ n + 1
    omega

variable {nodeIndex j : Nat} {inputs : List ValueRef} {p : ProducedValue} {f : TensorFacts}

theorem outputAllocation_within (hs : Spent n st.schedule) (hn : n + 1 < u64Size)
    (hl : st.schedule.liveBytes + p.charge f < u64Size) :
    Within (outputAllocation st inputs p f) := by
  unfold outputAllocation
  unfold ProducedValue.charge at hl
  have := hs.next
  split
  · exact (within_orFault _ _).bind fun _ _ => Within.pure _
  · next ho =>
    rw [ho] at hl
    exact (createAllocation_within (by omega) hl).bind fun _ _ => Within.pure _

theorem outputAllocation_ok {a : Option Nat} (h : outputAllocation st inputs p f = .ok (a, s))
    (hs : Spent n st.schedule) : s.nextAllocation ≤ n + 1 ∧
      s.liveBytes = st.schedule.liveBytes + p.charge f ∧
      ∀ a x, s.allocations a = some x → x.references ≤ n := by
  unfold outputAllocation at h
  unfold ProducedValue.charge
  split at h
  · next ho =>
    obtain ⟨_, _, h⟩ := bind_ok h
    obtain ⟨_, rfl⟩ := Prod.mk.inj (Except.ok.inj h)
    rw [ho]
    exact ⟨Nat.le_succ_of_le hs.next, rfl, hs.references⟩
  · next ho =>
    obtain ⟨r, hr, h⟩ := bind_ok h
    have hr := (createAllocation_spec st.schedule f.byteLen).ok hr
    subst hr
    obtain ⟨_, rfl⟩ := Prod.mk.inj (Except.ok.inj h)
    rw [ho]
    refine ⟨Nat.succ_le_succ hs.next, rfl, references_update hs.references fun x hx => ?_⟩
    rw [← Option.some.inj hx]
    exact Nat.zero_le _

theorem insertOutput_within (hs : Spent n st.schedule) (hn : n + 1 < u64Size)
    (hl : st.schedule.liveBytes + p.charge f < u64Size) :
    Within (insertOutput nodeIndex inputs st j p f) := by
  refine (outputAllocation_within hs hn hl).bind fun r hr => ?_
  obtain ⟨_, _, hrefs⟩ := outputAllocation_ok hr hs
  exact (insertValue_within hn hrefs).bind fun _ _ => Within.pure _

theorem insertOutput_spent (hs : Spent n st.schedule)
    (h : insertOutput nodeIndex inputs st j p f = .ok st') : Spent (n + 1) st'.schedule ∧
      st'.schedule.liveBytes = st.schedule.liveBytes + p.charge f := by
  obtain ⟨r, hr, h⟩ := bind_ok h
  obtain ⟨hnext, hlive, hrefs⟩ := outputAllocation_ok hr hs
  obtain ⟨s', hins, h⟩ := bind_ok h
  obtain ⟨hnext', hlive', hrefs'⟩ := insertValue_ok hins hrefs
  rw [← Except.ok.inj h]
  exact ⟨⟨hnext'.trans_le hnext, hrefs'⟩, hlive'.trans hlive⟩

/-- The bytes that the outputs of a node add to the live bytes. -/
def outputCharge (pairs : List (ProducedValue × TensorFacts)) : Nat :=
  (pairs.map fun x => x.1.charge x.2).sum

theorem insertOutputs_within (nodeIndex : Nat) (inputs : List ValueRef) :
    ∀ (pairs : List (ProducedValue × TensorFacts)) {n j : Nat} {st : HostState}, Spent n st.schedule → n + pairs.length < u64Size →
      st.schedule.liveBytes + outputCharge pairs < u64Size →
      Within (insertOutputs nodeIndex inputs st j pairs) ∧
        ∀ st', insertOutputs nodeIndex inputs st j pairs = .ok st' →
          Spent (n + pairs.length) st'.schedule ∧
            st'.schedule.liveBytes = st.schedule.liveBytes + outputCharge pairs
  | [], n, j, st, hs, _, _ => by
    refine ⟨Within.pure _, fun st' h => ?_⟩
    rw [← Except.ok.inj h]
    exact ⟨hs, rfl⟩
  | (p, f) :: pairs, n, j, st, hs, hn, hl => by
    rw [List.length_cons] at hn ⊢
    have hcharge : outputCharge ((p, f) :: pairs) = p.charge f + outputCharge pairs := by
      rw [outputCharge, List.map_cons, List.sum_cons]
      rfl
    rw [hcharge] at hl ⊢
    have hstep : ∀ st₁, insertOutput nodeIndex inputs st j p f = .ok st₁ →
        Within (insertOutputs nodeIndex inputs st₁ (j + 1) pairs) ∧
          ∀ st', insertOutputs nodeIndex inputs st₁ (j + 1) pairs = .ok st' →
            Spent (n + 1 + pairs.length) st'.schedule ∧
              st'.schedule.liveBytes = st₁.schedule.liveBytes + outputCharge pairs := by
      intro st₁ h₁
      obtain ⟨hs₁, hl₁⟩ := insertOutput_spent hs h₁
      exact insertOutputs_within nodeIndex inputs pairs hs₁ (by omega) (by rw [hl₁]; omega)
    refine ⟨(insertOutput_within hs (by omega) (by omega)).bind fun st₁ h₁ => (hstep st₁ h₁).1, ?_⟩
    intro st' h
    obtain ⟨st₁, h₁, h⟩ := bind_ok h
    obtain ⟨hs', hl'⟩ := (hstep st₁ h₁).2 st' h
    rw [Nat.add_assoc, Nat.add_comm 1] at hs'
    exact ⟨hs', by rw [hl', (insertOutput_spent hs h₁).2, Nat.add_assoc]⟩

/-! ### Removals raise no overflow -/

theorem removeValue_within (s : LivenessSchedule) (v : ValueRef) : Within (s.removeValue v) := by
  refine (within_orFault _ _).bind fun live _ => ?_
  dsimp only
  split
  · exact Within.pure _
  · refine (within_orFault _ _).bind fun x _ => ?_
    refine (within_orFault _ _).bind fun references _ => ?_
    split
    · exact (within_orFault _ _).bind fun _ _ => Within.pure _
    · exact Within.pure _

theorem Spent.removeValue (hs : Spent n s) (h : s.removeValue v = .ok s') : Spent n s' := by
  obtain ⟨⟨allocation⟩, _, h⟩ := bind_ok h
  cases allocation with
  | none =>
    rw [← Except.ok.inj h]
    exact ⟨hs.next, hs.references⟩
  | some a₀ =>
    obtain ⟨x, hx, h⟩ := bind_ok h
    obtain ⟨references, hrefs, h⟩ := bind_ok h
    have hx := hs.references a₀ x (orFault_eq_ok.mp hx)
    have hrefs := (checkedSub_eq_some.mp (orFault_eq_ok.mp hrefs)).2
    split at h
    · obtain ⟨_, _, h⟩ := bind_ok h
      rw [← Except.ok.inj h]
      exact ⟨hs.next, references_update hs.references fun y hy => by cases hy⟩
    · rw [← Except.ok.inj h]
      refine ⟨hs.next, references_update hs.references fun y hy => ?_⟩
      rw [← Option.some.inj hy]
      show references ≤ n
      omega

theorem consumeRuntimeInput_within (st : HostState) (v : ValueRef) :
    Within (consumeRuntimeInput st v) := by
  refine Within.bind ?_ fun r _ => ?_
  · refine (within_orFault _ _).bind fun uses _ => ?_
    refine (within_orFault _ _).bind fun uses _ => ?_
    split
    · exact (removeValue_within _ _).bind fun _ _ => Within.pure _
    · exact Within.pure _
  · obtain ⟨last, s'⟩ := r
    dsimp only
    split
    · exact (within_orFault _ _).bind fun _ _ => Within.pure _
    · exact Within.pure _

theorem dropRuntime_schedule {fault : LivenessFault} (h : dropRuntime st v fault = .ok st') :
    st'.schedule = st.schedule := by
  obtain ⟨_, _, h⟩ := bind_ok h
  rw [← Except.ok.inj h]

theorem consumeRuntimeInput_spent (hs : Spent n st.schedule)
    (h : consumeRuntimeInput st v = .ok st') : Spent n st'.schedule := by
  obtain ⟨⟨last, s'⟩, hr, h⟩ := bind_ok h
  have hs' : Spent n s' := by
    obtain ⟨_, _, hr⟩ := bind_ok hr
    obtain ⟨_, _, hr⟩ := bind_ok hr
    have hs₁ : ∀ uses, Spent n { st.schedule with remainingUses := uses } :=
      fun _ => ⟨hs.next, hs.references⟩
    dsimp only at hr
    split at hr
    · obtain ⟨s'', hremove, hr⟩ := bind_ok hr
      rw [← (Prod.mk.inj (Except.ok.inj hr)).2]
      exact (hs₁ _).removeValue hremove
    · rw [← (Prod.mk.inj (Except.ok.inj hr)).2]
      exact hs₁ _
  dsimp only at h
  split at h
  · rw [dropRuntime_schedule h]
    exact hs'
  · rw [← Except.ok.inj h]
    exact hs'

theorem removeUnusedOutput_within (st : HostState) (v : ValueRef) :
    Within (removeUnusedOutput st v) := by
  unfold removeUnusedOutput
  split
  · refine (removeValue_within _ _).bind fun _ _ => ?_
    exact (within_orFault _ _).bind fun _ _ => Within.pure _
  · exact Within.pure _

theorem removeUnusedOutput_spent (hs : Spent n st.schedule)
    (h : removeUnusedOutput st v = .ok st') : Spent n st'.schedule := by
  unfold removeUnusedOutput at h
  split at h
  · obtain ⟨s', hremove, h⟩ := bind_ok h
    rw [dropRuntime_schedule h]
    exact hs.removeValue hremove
  · rw [← Except.ok.inj h]
    exact hs

/-- A step for every value of a list. -/
theorem foldlM_within {f : HostState → ValueRef → Exec HostState}
    (hwithin : ∀ st v, Within (f st v))
    (hspent : ∀ {st st' : HostState} {v : ValueRef}, Spent n st.schedule → f st v = .ok st' →
      Spent n st'.schedule) (values : List ValueRef) {st : HostState} (hs : Spent n st.schedule) :
    Within (values.foldlM f st) ∧ ∀ st', values.foldlM f st = .ok st' → Spent n st'.schedule :=
  ⟨Within.foldlM (fun _ _ => True) trivial fun _ v x _ _ => ⟨hwithin x v, fun _ _ => trivial⟩,
    fun _ h => foldlM_ok (fun _ (x : HostState) => Spent n x.schedule) hs
      (fun _ _ _ _ _ hx hy => hspent hx hy) h⟩

theorem consumeRuntimeInputs_within {st : HostState} (values : List ValueRef)
    (hs : Spent n st.schedule) :
    Within (consumeRuntimeInputs st values) ∧
      ∀ st', consumeRuntimeInputs st values = .ok st' → Spent n st'.schedule :=
  foldlM_within consumeRuntimeInput_within consumeRuntimeInput_spent values hs

theorem removeUnusedRuntime_within {st : HostState} (values : List ValueRef)
    (hs : Spent n st.schedule) :
    Within (removeUnusedRuntime st values) ∧
      ∀ st', removeUnusedRuntime st values = .ok st' → Spent n st'.schedule :=
  foldlM_within removeUnusedOutput_within removeUnusedOutput_spent values hs

end Steps

end ModelWeights.Graph
