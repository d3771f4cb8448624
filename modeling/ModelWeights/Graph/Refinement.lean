import ModelWeights.Graph.Accounting
import ModelWeights.Graph.Denote

/-! # Dropping values changes nothing

The execution that drops buffers by the schedule refines the one that never
drops a value. `Tracked` ties the runtime map to an accounted schedule and keeps
every value that still has a use; it is kept by every operation of the loop, and
under it the two executions compute every node from the same bytes. -/
namespace ModelWeights.Graph
open RefCount

/-! ## Refinement of computations -/

section Refines
variable {α β γ δ : Type} {P : α → β → Prop} {Q : γ → δ → Prop}

/-- `x` returns what `y` returns, up to `P`, or fails like it, or overflows a
counter that `y` does not have. -/
def Refines (P : α → β → Prop) (x : Exec α) (y : Exec β) : Prop :=
  match x with
  | .ok a => ∃ b, y = .ok b ∧ P a b
  | .error (.failed e) => y = .error (.failed e)
  | .error (.limit _) => True
  | .error (.fault _) => False

theorem Refines.bind {x : Exec α} {y : Exec β} {f : α → Exec γ} {g : β → Exec δ}
    (hx : Refines P x y) (hf : ∀ a b, P a b → Refines Q (f a) (g b)) :
    Refines Q (x >>= f) (y >>= g) := by
  match x, hx with
  | .ok a, hx =>
    obtain ⟨b, rfl, hp⟩ := hx
    exact hf a b hp
  | .error (.failed e), hx =>
    have hx : y = .error (.failed e) := hx
    subst hx
    exact rfl
  | .error (.limit l), _ => exact trivial

/-- Steps that only the left side takes. -/
theorem OnlyLimit.refines {R : α → Prop} {x : Exec α} {f : α → Exec γ} {y : Exec δ}
    (hx : OnlyLimit x R) (hf : ∀ a, R a → Refines Q (f a) y) : Refines Q (x >>= f) y := by
  match x, hx with
  | .ok a, hx => exact hf a hx
  | .error (.limit l), _ => exact trivial

theorem refines_lift (x : Result α) : Refines (fun a b => a = b ∧ x = .ok b) (lift x) (lift x) := by
  cases x with
  | ok a => exact ⟨a, rfl, rfl, rfl⟩
  | error e => exact rfl

end Refines

/-! ## Values and uses of a graph -/

/-- The external inputs and the outputs of the first `k` nodes. -/
def OperationGraph.valuesUpTo (graph : OperationGraph) (k : Nat) : List ValueRef :=
  (List.range graph.inputs.length).map .input ++
    (List.range k).flatMap fun n => (graph.nodes[n]?).elim [] (nodeValues n)

/-- Uses by node `k` and later nodes, and by the graph output. -/
def OperationGraph.futureUses (graph : OperationGraph) (k : Nat) (value : ValueRef) : Nat :=
  ((graph.nodes.drop k).flatMap OperationNode.inputs ++ [graph.output]).count value

section Values
variable {graph : OperationGraph} {k : Nat} {node : OperationNode}

theorem valuesUpTo_succ (hk : graph.nodes[k]? = some node) :
    graph.valuesUpTo (k + 1) = graph.valuesUpTo k ++ nodeValues k node := by
  simp [OperationGraph.valuesUpTo, List.range_succ, hk]

theorem mem_valuesUpTo_output {n o : Nat} (h : .nodeOutput n o ∈ graph.valuesUpTo k) : n < k := by
  simp only [OperationGraph.valuesUpTo, List.mem_append, List.mem_map, List.mem_range,
    List.mem_flatMap, reduceCtorEq, and_false, exists_false, false_or] at h
  obtain ⟨m, hm, h⟩ := h
  cases hn : graph.nodes[m]? with
  | none => simp [hn] at h
  | some node =>
    simp only [hn, Option.elim_some, nodeValues, List.mem_map, ValueRef.nodeOutput.injEq] at h
    obtain ⟨_, _, rfl, _⟩ := h
    exact hm

theorem mem_valuesUpTo_of_facts {v : ValueRef} {f : TensorFacts}
    (h : factsOf graph.inputs (graph.nodes.take k) v = some f) : v ∈ graph.valuesUpTo k := by
  rw [OperationGraph.valuesUpTo, List.mem_append]
  cases v with
  | input i =>
    obtain ⟨x, hx, _⟩ := Option.map_eq_some_iff.mp h
    exact .inl (List.mem_map.mpr ⟨i, List.mem_range.mpr (List.getElem?_eq_some_iff.mp hx).1, rfl⟩)
  | nodeOutput n o =>
    obtain ⟨node, hn, ho⟩ := Option.bind_eq_some_iff.mp h
    rw [List.getElem?_take] at hn
    split at hn
    · next hlt =>
      refine .inr (List.mem_flatMap.mpr ⟨n, List.mem_range.mpr hlt, ?_⟩)
      rw [hn]
      exact List.mem_map.mpr ⟨o, List.mem_range.mpr (List.getElem?_eq_some_iff.mp ho).1, rfl⟩
    · cases hn

/-- The inputs of a node were produced before it. -/
theorem inputs_mem_valuesUpTo (hk : graph.nodes[k]? = some node) {v : ValueRef}
    (hv : v ∈ node.inputs) : v ∈ graph.valuesUpTo k := by
  obtain ⟨fs, hfs, _⟩ := graph.inferred k node hk
  have hall : ∀ {l : List ValueRef} {fs : List TensorFacts},
      inputFacts graph.inputs (graph.nodes.take k) l = .ok fs → ∀ v ∈ l,
        v ∈ graph.valuesUpTo k := by
    intro l
    induction l with
    | nil => intro _ _ v hv; cases hv
    | cons w l ih =>
      intro fs h v hv
      rw [inputFacts, List.mapM_cons] at h
      obtain ⟨f, hf, h⟩ := bind_ok h
      obtain ⟨rest, hrest, _⟩ := bind_ok h
      rcases List.mem_cons.mp hv with rfl | hv
      · exact mem_valuesUpTo_of_facts (okOr_eq_ok.mp hf)
      · exact ih hrest v hv
  exact hall hfs v hv

theorem output_not_mem_valuesUpTo (o : Nat) : .nodeOutput k o ∉ graph.valuesUpTo k := by
  intro h
  exact Nat.lt_irrefl k (mem_valuesUpTo_output h)

theorem futureUses_succ (hk : graph.nodes[k]? = some node) (v : ValueRef) :
    graph.futureUses k v = node.inputs.count v + graph.futureUses (k + 1) v := by
  obtain ⟨hlt, rfl⟩ := List.getElem?_eq_some_iff.mp hk
  rw [OperationGraph.futureUses, List.drop_eq_getElem_cons hlt, List.flatMap_cons,
    List.append_assoc, List.count_append]
  rfl

end Values

/-! ## The state invariant -/

structure Tracked (vals : List ValueRef) (st : HostState) : Prop where
  accounted : Accounted vals st.schedule
  runtime : ∀ v, (st.runtime v).map RuntimeValue.allocation =
    (st.schedule.values v).map LiveValue.allocation
  sized : ∀ v rv a, st.runtime v = some rv → rv.allocation = some a →
    (st.schedule.allocations a).map LiveAllocation.bytes = some rv.bytes.bytes.length
  kept : ∀ v ∈ vals, 0 < st.schedule.uses v → (st.runtime v).isSome

/-- The runtime map is part of what the retaining execution holds. -/
def Agrees (st : HostState) (view : ValueRef → Option ByteView) : Prop :=
  ∀ v rv, st.runtime v = some rv → view v = some rv.bytes

section Tracked
variable {vals : List ValueRef} {st : HostState} {view : ValueRef → Option ByteView}

theorem Tracked.isSome_iff (h : Tracked vals st) (v : ValueRef) :
    (st.runtime v).isSome = (st.schedule.values v).isSome := by
  have := congrArg Option.isSome (h.runtime v)
  simpa using this

theorem Tracked.owner_eq (h : Tracked vals st) {v : ValueRef} {rv : RuntimeValue}
    (hv : st.runtime v = some rv) : st.schedule.owner v = rv.allocation := by
  have := h.runtime v
  rw [hv, Option.map_some] at this
  rw [LivenessSchedule.owner]
  cases hx : st.schedule.values v with
  | none => rw [hx] at this; cases this
  | some lv =>
    rw [hx] at this
    exact (Option.some.inj this).symm

/-- Where the bytes of a produced value come from. -/
def OriginOk (vals : List ValueRef) (st : HostState) (inputs : List ValueRef) (p : ProducedValue) :
    Prop :=
  p.origin = .fresh ∨ p.origin = .alias 0 ∧ ∃ v ∈ vals, ∃ rv, inputs[0]? = some v ∧
    st.runtime v = some rv ∧ p.bytes.bytes.length = rv.bytes.bytes.length

/-- What inserting one output establishes. -/
structure OutputInserted (vals : List ValueRef) (st st' : HostState) (v : ValueRef)
    (bytes : ByteView) : Prop where
  tracked : Tracked (vals ++ [v]) st'
  uses : st'.schedule.remainingUses = st.schedule.remainingUses
  runtime : ∃ allocation, st'.runtime = Function.update st.runtime v (some ⟨bytes, allocation⟩)

theorem Tracked.insert {v : ValueRef} {bytes : ByteView} {allocation : Option Nat}
    {s' : LivenessSchedule} (h : Tracked vals st) (hv : v ∉ vals)
    (ha : Accounted (vals ++ [v]) s')
    (hvalues : s'.values = Function.update st.schedule.values v (some ⟨allocation⟩))
    (huses : s'.remainingUses = st.schedule.remainingUses)
    (hold : ∀ a st₀, st.schedule.allocations a = some st₀ →
      (s'.allocations a).map LiveAllocation.bytes = some st₀.bytes)
    (hnew : ∀ a, allocation = some a →
      (s'.allocations a).map LiveAllocation.bytes = some bytes.bytes.length) :
    OutputInserted vals st ⟨s', Function.update st.runtime v (some ⟨bytes, allocation⟩)⟩ v
      bytes := by
  refine ⟨⟨ha, ?_, ?_, ?_⟩, huses, allocation, rfl⟩
  · intro w
    by_cases hw : w = v
    · subst hw; simp [hvalues]
    · simpa [hvalues, Function.update_of_ne hw] using h.runtime w
  · intro w rv a hrv hal
    dsimp only at hrv ⊢
    by_cases hw : w = v
    · subst hw
      rw [Function.update_self] at hrv
      obtain rfl := Option.some.inj hrv
      exact hnew a hal
    · rw [Function.update_of_ne hw] at hrv
      have := h.sized w rv a hrv hal
      obtain ⟨st₀, hst₀, hb⟩ := Option.map_eq_some_iff.mp this
      rw [hold a st₀ hst₀, hb]
  · intro w hw hu
    dsimp only at hu ⊢
    by_cases hwv : w = v
    · subst hwv; simp
    · rw [Function.update_of_ne hwv]
      refine h.kept w ?_ ?_
      · rcases List.mem_append.mp hw with hw | hw
        · exact hw
        · exact absurd (List.mem_singleton.mp hw) hwv
      · simpa [LivenessSchedule.uses, huses] using hu

theorem insertOutput_fresh {inputs : List ValueRef} {k j : Nat} {p : ProducedValue}
    {facts : TensorFacts} (h : Tracked vals st) (hv : .nodeOutput k j ∉ vals)
    (ho : p.origin = .fresh) : OnlyLimit (insertOutput k inputs st j p facts) fun st' =>
      Accounted (vals ++ [.nodeOutput k j]) st'.schedule ∧
      InsertedFresh st.schedule st'.schedule (.nodeOutput k j) facts.byteLen ∧
      st'.runtime = Function.update st.runtime (.nodeOutput k j)
        (some ⟨p.bytes, some st.schedule.nextAllocation⟩) := by
  unfold insertOutput outputAllocation
  rw [ho]
  have hfresh := h.accounted.insertFresh hv facts.byteLen
  have hcreate := createAllocation_spec st.schedule facts.byteLen
  cases hc : st.schedule.createAllocation facts.byteLen with
  | error e =>
    rw [hc] at hcreate
    match e, hcreate with
    | .limit l, _ => exact trivial
  | ok r =>
    rw [hc] at hcreate hfresh
    have hr : r.1 = st.schedule.nextAllocation := congrArg Prod.fst hcreate
    refine OnlyLimit.bind (x := r.2.insertValue (.nodeOutput k j) (some r.1)) hfresh ?_
    rintro s' ⟨ha, hi⟩
    exact ⟨ha, hi, by rw [hr]⟩

theorem insertOutput_alias {inputs : List ValueRef} {k j : Nat} {p : ProducedValue}
    {facts : TensorFacts} {v : ValueRef} {rv : RuntimeValue} (h : Tracked vals st)
    (hv : .nodeOutput k j ∉ vals) (ho : p.origin = .alias 0) (hin : inputs[0]? = some v)
    (hrv : st.runtime v = some rv) : OnlyLimit (insertOutput k inputs st j p facts) fun st' =>
      Accounted (vals ++ [.nodeOutput k j]) st'.schedule ∧
      Inserted st.schedule st'.schedule (.nodeOutput k j) rv.allocation ∧
      st'.runtime = Function.update st.runtime (.nodeOutput k j)
        (some ⟨p.bytes, rv.allocation⟩) := by
  unfold insertOutput outputAllocation
  rw [ho]
  simp only [hin, hrv, Option.bind_some]
  have hshared := @Accounted.insertShared _ _ _ rv.allocation h.accounted hv (fun a ha => by
    obtain ⟨st₀, hst₀⟩ := h.accounted.recorded ((h.owner_eq hrv).trans ha)
    rw [hst₀]; rfl)
  refine OnlyLimit.bind (x := st.schedule.insertValue (.nodeOutput k j) rv.allocation) hshared ?_
  rintro s' ⟨ha, hi⟩
  exact ⟨ha, hi, rfl⟩

theorem insertOutput_spec {inputs : List ValueRef} {k j : Nat} {p : ProducedValue}
    {facts : TensorFacts} (h : Tracked vals st) (hv : .nodeOutput k j ∉ vals)
    (ho : OriginOk vals st inputs p) (hl : p.bytes.bytes.length = facts.byteLen) :
    OnlyLimit (insertOutput k inputs st j p facts) fun st' =>
      OutputInserted vals st st' (.nodeOutput k j) p.bytes := by
  rcases ho with ho | ⟨ho, v₀, _, rv, hin, hrv, hlen⟩
  · refine (insertOutput_fresh h hv ho).mono ?_
    rintro ⟨s', runtime⟩ ⟨ha, hi, hr⟩
    obtain rfl : runtime = _ := hr
    refine h.insert hv ha hi.values hi.uses ?_ ?_
    · intro a st₀ hst₀
      have hlt := h.accounted.lt_next hst₀
      rw [hi.allocations, Function.update_of_ne (by omega), hst₀]
      rfl
    · intro a hal
      obtain rfl := Option.some.inj hal
      rw [hi.allocations, Function.update_self, hl]
      rfl
  · refine (insertOutput_alias h hv ho hin hrv).mono ?_
    rintro ⟨s', runtime⟩ ⟨ha, hi, hr⟩
    obtain rfl : runtime = _ := hr
    refine h.insert hv ha hi.values hi.uses ?_ ?_
    · intro a st₀ hst₀
      rw [hi.bytes a, hst₀]; rfl
    · intro a hal
      rw [hi.bytes a, h.sized v₀ rv a hrv hal, hlen]

theorem insertOutputs_spec {inputs : List ValueRef} {k : Nat} :
    ∀ {pairs : List (ProducedValue × TensorFacts)} {vals : List ValueRef} {st : HostState}
      {view : ValueRef → Option ByteView} {j : Nat}, Tracked vals st → Agrees st view →
      (∀ i, j ≤ i → .nodeOutput k i ∉ vals) →
      (∀ x ∈ pairs, OriginOk vals st inputs x.1 ∧ x.1.bytes.bytes.length = x.2.byteLen) →
      OnlyLimit (insertOutputs k inputs st j pairs) fun st' =>
        Tracked (vals ++ (List.range' j pairs.length).map (.nodeOutput k)) st' ∧
        st'.schedule.remainingUses = st.schedule.remainingUses ∧
        (∀ v ∈ vals, st'.runtime v = st.runtime v) ∧
        (∀ i, j ≤ i → i < j + pairs.length → (st'.runtime (.nodeOutput k i)).isSome) ∧
        Agrees st' (retainOutputs k view j (pairs.map Prod.fst))
  | [], vals, st, view, j, h, hag, _, _ => by
    refine ⟨by simpa using h, rfl, fun _ _ => rfl, ?_, hag⟩
    intro i hi hlt
    simp at hlt
    omega
  | (p, f) :: rest, vals, st, view, j, h, hag, hnew, hall => by
    rw [insertOutputs]
    obtain ⟨ho, hl⟩ := hall (p, f) (List.mem_cons_self ..)
    have hv := hnew j (Nat.le_refl _)
    refine (insertOutput_spec h hv ho hl).bind ?_
    rintro st₁ ⟨ht₁, hu₁, allocation, hr₁⟩
    have hag₁ : Agrees st₁ (Function.update view (.nodeOutput k j) (some p.bytes)) := by
      intro w rv hw
      rw [hr₁] at hw
      by_cases hwv : w = .nodeOutput k j
      · subst hwv
        rw [Function.update_self] at hw ⊢
        rw [← Option.some.inj hw]
      · rw [Function.update_of_ne hwv] at hw ⊢
        exact hag w rv hw
    have hold : ∀ v ∈ vals, st₁.runtime v = st.runtime v := by
      intro v hm
      have hne : v ≠ .nodeOutput k j := fun he => hv (he ▸ hm)
      rw [hr₁, Function.update_of_ne hne]
    refine (insertOutputs_spec (j := j + 1) ht₁ hag₁ ?_ ?_).mono ?_
    · intro i hi hm
      rcases List.mem_append.mp hm with hm | hm
      · exact hnew i (by omega) hm
      · have := List.mem_singleton.mp hm
        simp only [ValueRef.nodeOutput.injEq, true_and] at this
        omega
    · intro x hx
      obtain ⟨hox, hlx⟩ := hall x (List.mem_cons_of_mem _ hx)
      refine ⟨?_, hlx⟩
      rcases hox with hox | ⟨hox, v, hm, rv, hin, hrv, hlen⟩
      · exact .inl hox
      · exact .inr ⟨hox, v, List.mem_append_left _ hm, rv, hin, (hold v hm).trans hrv, hlen⟩
    · rintro st' ⟨ht, hu, hkeep, hsome, hagr⟩
      refine ⟨?_, hu.trans hu₁, ?_, ?_, hagr⟩
      · rw [List.append_assoc] at ht
        simpa [List.range'_succ] using ht
      · intro v hm
        rw [hkeep v (List.mem_append_left _ hm), hold v hm]
      · intro i hi hlt
        rw [List.length_cons] at hlt
        by_cases hij : i = j
        · subst hij
          rw [hkeep _ (List.mem_append_right _ (List.mem_singleton.mpr rfl)), hr₁]
          simp
        · exact hsome i (by omega) (by omega)

/-- Taking a value out of the schedule and out of the runtime map. -/
theorem Tracked.drop {v : ValueRef} {s' : LivenessSchedule} (h : Tracked vals st)
    (ha : Accounted vals s') (hvalues : s'.values = Function.update st.schedule.values v none)
    (hbytes : ∀ a x, s'.allocations a = some x →
      (st.schedule.allocations a).map LiveAllocation.bytes = some x.bytes)
    (huses : ∀ w, w ≠ v → s'.uses w = st.schedule.uses w) (hzero : s'.uses v = 0) :
    Tracked vals ⟨s', Function.update st.runtime v none⟩ := by
  refine ⟨ha, ?_, ?_, ?_⟩
  · intro w
    by_cases hw : w = v
    · subst hw; simp [hvalues]
    · simpa [hvalues, Function.update_of_ne hw] using h.runtime w
  · intro w rv a hrv hal
    dsimp only at hrv ⊢
    by_cases hw : w = v
    · subst hw; simp at hrv
    · rw [Function.update_of_ne hw] at hrv
      -- the value is still live, so its allocation is still recorded
      have howner : s'.owner w = some a := by
        rw [LivenessSchedule.owner, hvalues, Function.update_of_ne hw]
        exact (h.owner_eq hrv).trans hal
      obtain ⟨x, hx⟩ := ha.recorded howner
      rw [hx, Option.map_some, ← hbytes a x hx, h.sized w rv a hrv hal]
  · intro w hm hu
    dsimp only at hu ⊢
    by_cases hw : w = v
    · subst hw; omega
    · rw [Function.update_of_ne hw]
      exact h.kept w hm (by rwa [huses w hw] at hu)

theorem Agrees.drop {v : ValueRef} {s' : LivenessSchedule} (h : Agrees st view) :
    Agrees ⟨s', Function.update st.runtime v none⟩ view := by
  intro w rv hw
  dsimp only at hw
  by_cases hwv : w = v
  · subst hwv; simp at hw
  · rw [Function.update_of_ne hwv] at hw
    exact h w rv hw

theorem dropRuntime_eq {s' : LivenessSchedule} {v : ValueRef} {fault : LivenessFault}
    (hv : (st.runtime v).isSome) : dropRuntime ⟨s', st.runtime⟩ v fault =
      .ok ⟨s', Function.update st.runtime v none⟩ := by
  obtain ⟨rv, hrv⟩ := Option.isSome_iff_exists.mp hv
  simp [dropRuntime, hrv, orFault, bind, Except.bind]

/-- What consuming one input establishes. -/
theorem consumeRuntimeInput_spec {v : ValueRef} (h : Tracked vals st) (hm : v ∈ vals)
    (hu : 0 < st.schedule.uses v) : ∃ st', consumeRuntimeInput st v = .ok st' ∧
      Tracked vals st' ∧
      (∀ w, st'.schedule.uses w = if w = v then st.schedule.uses v - 1 else st.schedule.uses w) ∧
      (∀ w, w ≠ v → st'.runtime w = st.runtime w) ∧
      ∀ view, Agrees st view → Agrees st' view := by
  have hsome := h.kept v hm hu
  obtain ⟨last, s', hc, ha, hcon⟩ :=
    h.accounted.consumeValue hu ((h.isSome_iff v).symm.trans hsome)
  unfold consumeRuntimeInput
  rw [hc]
  simp only [bind, Except.bind]
  cases last with
  | true =>
    rw [if_pos rfl, dropRuntime_eq hsome]
    have hone := hcon.isLast.mp rfl
    refine ⟨_, rfl, h.drop ha hcon.values hcon.bytes ?_ ?_, hcon.uses, ?_, fun _ => Agrees.drop⟩
    · intro w hw
      rw [hcon.uses w, if_neg hw]
    · rw [hcon.uses v, if_pos rfl, hone]
    · intro w hw
      exact Function.update_of_ne hw ..
  | false =>
    rw [if_neg (by simp)]
    refine ⟨_, rfl, ⟨ha, ?_, ?_, ?_⟩, hcon.uses, fun _ _ => rfl, fun _ h => h⟩
    · intro w
      dsimp only
      rw [hcon.values, if_neg (by simp)]
      exact h.runtime w
    · intro w rv a hrv hal
      dsimp only at hrv ⊢
      have howner : s'.owner w = some a := by
        rw [LivenessSchedule.owner, hcon.values, if_neg (by simp)]
        exact (h.owner_eq hrv).trans hal
      obtain ⟨x, hx⟩ := ha.recorded howner
      rw [hx, Option.map_some, ← hcon.bytes a x hx, h.sized w rv a hrv hal]
    · intro w hmem hw
      dsimp only at hw ⊢
      refine h.kept w hmem ?_
      rw [hcon.uses w] at hw
      split at hw
      · next he => subst he; omega
      · exact hw

theorem consumeRuntimeInputs_spec {future : ValueRef → Nat} :
    ∀ {inputs : List ValueRef} {st : HostState}, Tracked vals st → (∀ v ∈ inputs, v ∈ vals) →
      (∀ v, st.schedule.uses v = inputs.count v + future v) →
      ∃ st', consumeRuntimeInputs st inputs = .ok st' ∧ Tracked vals st' ∧
        (∀ v, st'.schedule.uses v = future v) ∧
        (∀ w, w ∉ inputs → st'.runtime w = st.runtime w) ∧
        ∀ view, Agrees st view → Agrees st' view
  | [], st, h, _, hu => ⟨st, rfl, h, by simpa using hu, fun _ _ => rfl, fun _ h => h⟩
  | v :: inputs, st, h, hm, hu => by
    have hpos : 0 < st.schedule.uses v := by rw [hu v, List.count_cons_self]; omega
    obtain ⟨st₁, he₁, ht₁, hu₁, hr₁, hag₁⟩ :=
      consumeRuntimeInput_spec h (hm v (List.mem_cons_self ..)) hpos
    obtain ⟨st', he, ht, hu', hr, hag⟩ := @consumeRuntimeInputs_spec future
      inputs _ ht₁ (fun w hw => hm w (List.mem_cons_of_mem _ hw)) (fun w => by
        rw [hu₁ w]
        split
        · next he => subst he; rw [hu w, List.count_cons_self]; omega
        · next he => rw [hu w, List.count_cons_of_ne (fun h => he h.symm)])
    refine ⟨st', ?_, ht, hu', ?_, fun view hv => hag view (hag₁ view hv)⟩
    · rw [consumeRuntimeInputs, List.foldlM_cons, he₁]
      exact he
    · intro w hw
      rw [List.mem_cons, not_or] at hw
      rw [hr w hw.2, hr₁ w hw.1]

theorem removeUnusedOutput_spec {v : ValueRef} (h : Tracked vals st)
    (hsome : (st.runtime v).isSome) : ∃ st', removeUnusedOutput st v = .ok st' ∧
      Tracked vals st' ∧ (∀ w, st'.schedule.uses w = st.schedule.uses w) ∧
      (∀ w, w ≠ v → st'.runtime w = st.runtime w) ∧
      ∀ view, Agrees st view → Agrees st' view := by
  unfold removeUnusedOutput
  split
  · next hz =>
    have hz : st.schedule.uses v = 0 := by
      simpa [LivenessSchedule.isUnused, LivenessSchedule.uses] using hz
    obtain ⟨s', hs', ha, hr⟩ :=
      h.accounted.removeValue ((h.isSome_iff v).symm.trans hsome)
    have huses : ∀ w, s'.uses w = st.schedule.uses w := by
      intro w
      rw [LivenessSchedule.uses, hr.uses, LivenessSchedule.uses]
    rw [hs']
    simp only [bind, Except.bind]
    rw [dropRuntime_eq hsome]
    refine ⟨_, rfl, h.drop ha hr.values hr.bytes (fun w _ => huses w) ((huses v).trans hz), huses,
      ?_, fun _ => Agrees.drop⟩
    intro w hw
    exact Function.update_of_ne hw ..
  · exact ⟨st, rfl, h, fun _ => rfl, fun _ _ => rfl, fun _ h => h⟩

theorem removeUnusedRuntime_spec : ∀ {values : List ValueRef} {st : HostState},
    Tracked vals st → values.Nodup → (∀ v ∈ values, (st.runtime v).isSome) →
      ∃ st', removeUnusedRuntime st values = .ok st' ∧ Tracked vals st' ∧
        (∀ w, st'.schedule.uses w = st.schedule.uses w) ∧
        ∀ view, Agrees st view → Agrees st' view
  | [], st, h, _, _ => ⟨st, rfl, h, fun _ => rfl, fun _ h => h⟩
  | v :: values, st, h, hn, hsome => by
    obtain ⟨hv, hn⟩ := List.nodup_cons.mp hn
    obtain ⟨st₁, he₁, ht₁, hu₁, hr₁, hag₁⟩ :=
      removeUnusedOutput_spec h (hsome v (List.mem_cons_self ..))
    obtain ⟨st', he, ht, hu, hag⟩ := removeUnusedRuntime_spec ht₁ hn (fun w hw => by
      rw [hr₁ w (fun he => hv (he ▸ hw))]
      exact hsome w (List.mem_cons_of_mem _ hw))
    refine ⟨st', ?_, ht, fun w => (hu w).trans (hu₁ w), fun view hv => hag view (hag₁ view hv)⟩
    rw [removeUnusedRuntime, List.foldlM_cons, he₁]
    exact he

end Tracked

/-! ## What a node can produce -/

/-- The output is a new buffer, or it stands for the node's only input. -/
def Produced (inputs : List ByteView) (p : ProducedValue) : Prop :=
  p.origin = .fresh ∨ p.origin = .alias 0 ∧ ∃ input, inputs = [input] ∧
    p.bytes.bytes.length = input.bytes.length

section Shape
variable {host : Host} {cancellation : CancellationToken} {f o : TensorFacts}
  {input : ByteView} {ex : NodeExecution}

/-- Every output is a new buffer, and nothing is needed beside them. -/
structure FreshExecution (ex : NodeExecution) (n : Nat) : Prop where
  count : ex.outputs.length = n
  scratch : ex.transientScratch = 0
  origin : ∀ p ∈ ex.outputs, p.origin = .fresh

theorem FreshExecution.produced {n : Nat} {inputs : List ByteView} (h : FreshExecution ex n) :
    ex.outputs.length = n ∧ ∀ p ∈ ex.outputs, Produced inputs p :=
  ⟨h.count, fun p hp => .inl (h.origin p hp)⟩

theorem freshNodeExecution_fresh {bytes : Bytes} (h : freshNodeExecution bytes = ex) :
    FreshExecution ex 1 := by
  subst h
  refine ⟨rfl, rfl, fun p hp => ?_⟩
  rw [List.mem_singleton.mp hp]

theorem executeConcatNode_fresh {axis : Nat} {inputs : List ByteView} {facts : List TensorFacts}
    (h : executeConcatNode axis [o] inputs facts cancellation = .ok ex) : FreshExecution ex 1 := by
  obtain ⟨_, _, h⟩ := bind_ok h
  dsimp only at h
  split at h
  · obtain ⟨_, _, h⟩ := bind_ok h
    exact freshNodeExecution_fresh (Except.ok.inj h)
  · obtain ⟨_, _, h⟩ := bind_ok h
    obtain ⟨_, _, h⟩ := bind_ok h
    exact freshNodeExecution_fresh (Except.ok.inj h)

theorem executePermuteNode_cases {permute : Permute}
    (h : executePermuteNode host permute [o] [input] [f] cancellation = .ok ex) :
    isIdentityPermutation permute f o = true ∧ ex = ⟨[⟨input, .alias 0⟩], 0⟩ ∨
      isIdentityPermutation permute f o = false ∧ FreshExecution ex 1 := by
  obtain ⟨_, hparts, h⟩ := bind_ok h
  obtain rfl := Except.ok.inj hparts
  obtain ⟨_, _, h⟩ := bind_ok h
  split at h
  · next hid =>
    obtain ⟨_, _, h⟩ := bind_ok h
    exact .inl ⟨hid, (Except.ok.inj h).symm⟩
  · next hid =>
    refine .inr ⟨by simpa using hid, ?_⟩
    obtain ⟨fast, _, h⟩ := bind_ok h
    cases fast with
    | some out => exact freshNodeExecution_fresh (Except.ok.inj h)
    | none =>
      obtain ⟨_, _, h⟩ := bind_ok h
      obtain ⟨_, _, h⟩ := bind_ok h
      exact freshNodeExecution_fresh (Except.ok.inj h)

theorem executePadNode_fresh (h : executePadNode [o] [input] [f] cancellation = .ok ex) :
    FreshExecution ex 1 := by
  obtain ⟨_, _, h⟩ := bind_ok h
  obtain ⟨_, _, h⟩ := bind_ok h
  obtain ⟨_, _, h⟩ := bind_ok h
  obtain ⟨_, _, h⟩ := bind_ok h
  exact freshNodeExecution_fresh (Except.ok.inj h)

theorem executeSliceNode_fresh {ranges : List AxisRange}
    (h : executeSliceNode ranges [o] [input] [f] cancellation = .ok ex) : FreshExecution ex 1 := by
  obtain ⟨_, _, h⟩ := bind_ok h
  obtain ⟨_, _, h⟩ := bind_ok h
  obtain ⟨_, _, h⟩ := bind_ok h
  exact freshNodeExecution_fresh (Except.ok.inj h)

theorem executeSplitNode_fresh {split : Split} {outs : List TensorFacts}
    (hs : List.Forall₂ (SplitOutput split.axis f) split.ranges outs)
    (h : executeSplitNode split outs [input] [f] cancellation = .ok ex) :
    FreshExecution ex outs.length := by
  obtain ⟨_, _, h⟩ := bind_ok h
  obtain ⟨_, _, h⟩ := bind_ok h
  obtain ⟨produced, hp, h⟩ := bind_ok h
  rw [← Except.ok.inj h]
  have hall := mapM_ok_forall₂ hp
  refine ⟨?_, rfl, fun p hm => ?_⟩
  · have := hall.length_eq
    rw [List.length_zip, hs.length_eq, Nat.min_self] at this
    exact this.symm
  · obtain ⟨i, hi, rfl⟩ := List.mem_iff_getElem.mp hm
    have hx := List.Forall₂.get hall (hall.length_eq ▸ hi) hi
    obtain ⟨_, _, hx⟩ := bind_ok hx
    obtain ⟨_, _, hx⟩ := bind_ok hx
    obtain ⟨_, _, hx⟩ := bind_ok hx
    have hx := Except.ok.inj hx
    rw [List.get_eq_getElem] at hx
    exact congrArg ProducedValue.origin hx.symm

theorem executeReshapeNode_eq (h : executeReshapeNode [input] = .ok ex) :
    ex = ⟨[⟨input, .alias 0⟩], 0⟩ := by
  obtain ⟨_, hi, h⟩ := bind_ok h
  obtain rfl := Option.some.inj (okOr_eq_ok.mp hi)
  exact (Except.ok.inj h).symm

theorem executePrepareNode_eq {transform : PlannedTransform}
    (h : executePrepareNode host transform [input] [f] cancellation = .ok ex) :
    ∃ prepared, host.preparation.prepareWithCancellation
        (prepareRequest transform f input.bytes) cancellation = .ok prepared ∧
      ex = ⟨[⟨prepared.view input, if sameView prepared input then .alias 0 else .fresh⟩],
        if sameView prepared input then 0 else transform.scratchBytes⟩ := by
  obtain ⟨_, hi, h⟩ := bind_ok h
  obtain rfl := Option.some.inj (okOr_eq_ok.mp hi)
  obtain ⟨_, hf, h⟩ := bind_ok h
  obtain rfl := Option.some.inj (okOr_eq_ok.mp hf)
  obtain ⟨prepared, hp, h⟩ := bind_ok h
  exact ⟨prepared, hp, (Except.ok.inj h).symm⟩

/-- A view that counts as the same is the same: only empty buffers can coincide
without being handed back. -/
theorem sameView_eq {prepared : Prepared} (h : sameView prepared input = true) :
    prepared.view input = input := by
  cases prepared with
  | reused => rfl
  | owned output =>
    simp only [sameView, Bool.and_eq_true, List.isEmpty_iff] at h
    obtain ⟨⟨rfl, hb⟩, hd⟩ := h
    obtain ⟨bytes, dangling⟩ := input
    simp only at hb hd
    simp [Prepared.view, ByteView.fromBoxed, hb, hd]

theorem produced_alias : Produced [input] ⟨input, .alias 0⟩ := .inr ⟨rfl, input, rfl, rfl⟩

theorem executePrepareNode_produced {transform : PlannedTransform}
    (h : executePrepareNode host transform [input] [f] cancellation = .ok ex) :
    ex.outputs.length = 1 ∧ ∀ p ∈ ex.outputs, Produced [input] p := by
  obtain ⟨prepared, _, rfl⟩ := executePrepareNode_eq h
  refine ⟨rfl, fun p hp => ?_⟩
  obtain rfl := List.mem_singleton.mp hp
  cases hr : sameView prepared input with
  | true =>
    rw [sameView_eq hr]
    exact produced_alias
  | false => exact .inl rfl

theorem executeNode_produced {node : OperationNode} {inputs : List ByteView}
    {facts : List TensorFacts} (hlen : facts.length = inputs.length)
    (hinfer : inferOutputs node.operation facts = .ok node.outputs)
    (h : executeNode host node inputs facts cancellation = .ok ex) :
    ex.outputs.length = node.outputs.length ∧ ∀ p ∈ ex.outputs, Produced inputs p := by
  obtain ⟨_, h⟩ := unless_error_ok h
  have hunary : ∀ {g}, (oneInput facts >>= g) = .ok node.outputs →
      ∃ f input, facts = [f] ∧ inputs = [input] ∧ g f = .ok node.outputs := by
    intro g hg
    obtain ⟨f, rfl, hg⟩ := oneInput_ok hg
    obtain ⟨input, rfl⟩ := List.length_eq_one_iff.mp hlen.symm
    exact ⟨f, input, rfl, rfl, hg⟩
  cases hop : node.operation with
  | concat axis =>
    rw [hop] at hinfer h
    obtain ⟨o, ho, _⟩ := inferConcat_ok hinfer
    dsimp only at h
    rw [ho] at h ⊢
    exact (executeConcatNode_fresh h).produced
  | permute permute =>
    rw [hop] at hinfer h
    obtain ⟨f, input, rfl, rfl, hg⟩ := hunary hinfer
    obtain ⟨o, ho, _⟩ := inferPermute_ok hg
    dsimp only at h
    rw [ho] at h ⊢
    rcases executePermuteNode_cases h with ⟨_, rfl⟩ | ⟨_, hfresh⟩
    · exact ⟨rfl, fun p hp => List.mem_singleton.mp hp ▸ produced_alias⟩
    · exact hfresh.produced
  | pad pad =>
    rw [hop] at hinfer h
    obtain ⟨f, input, rfl, rfl, hg⟩ := hunary hinfer
    obtain ⟨o, ho, _⟩ := inferPad_ok hg
    dsimp only at h
    rw [ho] at h ⊢
    exact (executePadNode_fresh h).produced
  | slice ranges =>
    rw [hop] at hinfer h
    obtain ⟨f, input, rfl, rfl, hg⟩ := hunary hinfer
    obtain ⟨o, ho, _⟩ := inferSlice_ok hg
    dsimp only at h
    rw [ho] at h ⊢
    exact (executeSliceNode_fresh h).produced
  | split split =>
    rw [hop] at hinfer h
    obtain ⟨f, input, rfl, rfl, hg⟩ := hunary hinfer
    exact (executeSplitNode_fresh (inferSplit_ok hg).2 h).produced
  | reshape shape =>
    rw [hop] at hinfer h
    obtain ⟨f, input, rfl, rfl, hg⟩ := hunary hinfer
    obtain ⟨_, o, ho, _⟩ := inferReshape_ok hg
    rw [ho]
    obtain rfl := executeReshapeNode_eq h
    exact ⟨rfl, fun p hp => List.mem_singleton.mp hp ▸ produced_alias⟩
  | prepare transform =>
    rw [hop] at hinfer h
    obtain ⟨f, input, rfl, rfl, hg⟩ := hunary hinfer
    obtain ⟨_, o, ho, _⟩ := inferPrepare_ok hg
    rw [ho]
    exact executePrepareNode_produced h

end Shape

/-! ## The node loop -/

section Loop
variable {graph : OperationGraph} {host : Host} {cancellation : CancellationToken}
  {inputs : List ByteView}

/-- What is known of a node's outputs before they are entered. -/
structure NodeRan (view : ValueRef → Option ByteView) (node : OperationNode)
    (ex : NodeExecution) : Prop where
  count : ex.outputs.length = node.outputs.length
  sized : ∀ x ∈ ex.outputs.zip node.outputs, x.1.bytes.bytes.length = x.2.byteLen
  origin : ∀ p ∈ ex.outputs, p.origin = .fresh ∨ p.origin = .alias 0 ∧
    ∃ v bv, node.inputs[0]? = some v ∧ view v = some bv ∧
      p.bytes.bytes.length = bv.bytes.length

theorem mapM_orFault {α : Type} {view : ValueRef → Option α} (fault : LivenessFault) :
    ∀ {l : List ValueRef}, (∀ v ∈ l, (view v).isSome) →
      ∃ r, l.mapM (fun v => orFault (view v) fault) = .ok r
  | [], _ => ⟨[], rfl⟩
  | v :: l, h => by
    obtain ⟨a, ha⟩ := Option.isSome_iff_exists.mp (h v (List.mem_cons_self ..))
    obtain ⟨r, hr⟩ := mapM_orFault fault fun w hw => h w (List.mem_cons_of_mem _ hw)
    refine ⟨a :: r, ?_⟩
    rw [List.mapM_cons, ha, hr]
    rfl

theorem zip_mem_forall₂ {α β : Type} {R : β → α → Prop} {as : List α} {bs : List β}
    (h : List.Forall₂ R bs as) : ∀ x ∈ as.zip bs, R x.2 x.1 := by
  induction h with
  | nil => intro x hx; simp at hx
  | cons hab _ ih =>
    intro x hx
    rw [List.zip_cons_cons] at hx
    rcases List.mem_cons.mp hx with rfl | hx
    · exact hab
    · exact ih x hx

/-- With its inputs at hand a node runs, or fails with an error of its own. -/
theorem runNode_refines {k : Nat} {node : OperationNode} {view : ValueRef → Option ByteView}
    (hk : graph.nodes[k]? = some node) (hav : ∀ v ∈ node.inputs, (view v).isSome) :
    Refines (fun ex ex' => ex = ex' ∧ NodeRan view node ex)
      (runNode graph host cancellation view node) (runNode graph host cancellation view node) := by
  obtain ⟨views, hviews⟩ := mapM_orFault .inputUnavailable hav
  obtain ⟨fs, hfs, hinfer⟩ := graph_inputFacts hk
  unfold runNode
  refine (refines_lift _).bind fun _ _ _ => ?_
  refine (refines_lift _).bind fun _ _ _ => ?_
  rw [hviews, hfs]
  have hall := mapM_ok_forall₂ hviews
  have hlen : fs.length = views.length := by
    rw [← (mapM_ok_forall₂ hfs).length_eq, hall.length_eq]
  refine (refines_lift _).bind ?_
  rintro ex _ ⟨rfl, hex⟩
  obtain ⟨hcount, hprod⟩ := executeNode_produced hlen hinfer hex
  rw [if_neg (by simpa using hcount)]
  refine (refines_lift _).bind ?_
  rintro ⟨⟩ ⟨⟩ ⟨_, hvalid⟩
  refine ⟨ex, rfl, rfl, hcount, zip_mem_forall₂ (validateOutputs_ok hcount hvalid), ?_⟩
  intro p hp
  rcases hprod p hp with ho | ⟨ho, input, rfl, hl⟩
  · exact .inl ho
  · cases hin : node.inputs with
    | nil => rw [hin] at hall; cases hall
    | cons v rest =>
      rw [hin] at hall
      cases hall with
      | cons hv _ => exact .inr ⟨ho, v, input, rfl, orFault_eq_ok.mp hv, hl⟩

theorem runNode_congr {node : OperationNode} {view view' : ValueRef → Option ByteView}
    (h : ∀ v ∈ node.inputs, view v = view' v) :
    runNode graph host cancellation view node = runNode graph host cancellation view' node := by
  unfold runNode
  rw [mapM_congr_mem (f := fun v => orFault (view v) .inputUnavailable)
    (g := fun v => orFault (view' v) .inputUnavailable) fun v hv => by rw [h v hv]]

/-- The two executions after `k` nodes. -/
structure Related (graph : OperationGraph) (k : Nat) (st : HostState)
    (view : ValueRef → Option ByteView) : Prop where
  tracked : Tracked (graph.valuesUpTo k) st
  agrees : Agrees st view
  uses : ∀ v, st.schedule.uses v = graph.futureUses k v

theorem nodeValues_eq (k : Nat) (node : OperationNode) {n : Nat} (h : n = node.outputs.length) :
    (List.range' 0 n).map (ValueRef.nodeOutput k) = nodeValues k node := by
  rw [nodeValues, ← h, List.range_eq_range']

theorem nodup_nodeValues (k : Nat) (node : OperationNode) : (nodeValues k node).Nodup := by
  refine (List.nodup_map_iff_inj_on List.nodup_range).mpr ?_
  intro x _ y _ h
  simpa using h

/-- The inputs of the next node are at hand. -/
theorem Tracked.inputs_available {k : Nat} {node : OperationNode} {st : HostState}
    (h : Tracked (graph.valuesUpTo k) st) (hk : graph.nodes[k]? = some node)
    (hu : ∀ v, st.schedule.uses v = graph.futureUses k v) :
    ∀ v ∈ node.inputs, (st.view v).isSome := by
  intro v hv
  rw [HostState.view, Option.isSome_map]
  refine h.kept v (inputs_mem_valuesUpTo hk hv) ?_
  rw [hu v, futureUses_succ hk]
  have := List.count_pos_iff.mpr hv
  omega

/-- Entering the outputs of a node that ran. -/
theorem insertNodeOutputs_spec {k : Nat} {node : OperationNode} {st : HostState}
    {ex : NodeExecution} {view : ValueRef → Option ByteView} (hk : graph.nodes[k]? = some node)
    (ht : Tracked (graph.valuesUpTo k) st) (hag : Agrees st view)
    (hran : NodeRan st.view node ex) :
    OnlyLimit (insertOutputs k node.inputs st 0 (ex.outputs.zip node.outputs)) fun st₁ =>
      Tracked (graph.valuesUpTo (k + 1)) st₁ ∧
      st₁.schedule.remainingUses = st.schedule.remainingUses ∧
      (∀ v ∈ nodeValues k node, (st₁.runtime v).isSome) ∧
      Agrees st₁ (retainOutputs k view 0 ex.outputs) := by
  have hfst : (ex.outputs.zip node.outputs).map Prod.fst = ex.outputs :=
    List.map_fst_zip (Nat.le_of_eq hran.count)
  have hzip : (ex.outputs.zip node.outputs).length = node.outputs.length := by
    rw [List.length_zip, hran.count, Nat.min_self]
  refine (insertOutputs_spec ht hag (fun i _ => output_not_mem_valuesUpTo i) ?_).mono ?_
  · intro x hx
    refine ⟨?_, hran.sized x hx⟩
    rcases hran.origin x.1 (List.of_mem_zip hx).1 with ho | ⟨ho, v, bv, hin, hv, hl⟩
    · exact .inl ho
    · rw [HostState.view, Option.map_eq_some_iff] at hv
      obtain ⟨rv, hrv, rfl⟩ := hv
      exact .inr ⟨ho, v, inputs_mem_valuesUpTo hk (List.mem_of_getElem? hin), rv, hin, hrv, hl⟩
  · rintro st₁ ⟨ht₁, hu₁, _, hnew₁, hag₁⟩
    rw [hfst] at hag₁
    rw [nodeValues_eq k node hzip, ← valuesUpTo_succ hk] at ht₁
    refine ⟨ht₁, hu₁, ?_, hag₁⟩
    intro v hv
    obtain ⟨i, hi, rfl⟩ := List.mem_map.mp hv
    have hi := List.mem_range.mp hi
    exact hnew₁ i (Nat.zero_le _) (by omega)

/-- The uses that are left when a node's inputs are consumed. -/
theorem uses_split {k : Nat} {node : OperationNode} {s s' : LivenessSchedule}
    (hk : graph.nodes[k]? = some node) (hu : ∀ v, s.uses v = graph.futureUses k v)
    (h : s'.remainingUses = s.remainingUses) (v : ValueRef) :
    s'.uses v = node.inputs.count v + graph.futureUses (k + 1) v := by
  rw [← futureUses_succ hk, ← hu v, LivenessSchedule.uses, LivenessSchedule.uses, h]

theorem inputs_mem_succ {k : Nat} {node : OperationNode} (hk : graph.nodes[k]? = some node) :
    ∀ v ∈ node.inputs, v ∈ graph.valuesUpTo (k + 1) := by
  intro v hv
  rw [valuesUpTo_succ hk]
  exact List.mem_append_left _ (inputs_mem_valuesUpTo hk hv)

theorem nodeValues_not_inputs {k : Nat} {node : OperationNode}
    (hk : graph.nodes[k]? = some node) {v : ValueRef} (hv : v ∈ nodeValues k node) :
    v ∉ node.inputs := by
  obtain ⟨i, _, rfl⟩ := List.mem_map.mp hv
  exact fun hin => output_not_mem_valuesUpTo i (inputs_mem_valuesUpTo hk hin)

/-- **One node.** -/
theorem executeHostNode_refines {k : Nat} {node : OperationNode} {st : HostState}
    {view : ValueRef → Option ByteView} (hk : graph.nodes[k]? = some node)
    (hr : Related graph k st view) :
    Refines (fun st' view' => Related graph (k + 1) st' view')
      (executeHostNode graph host cancellation k node st)
      (runNode graph host cancellation view node >>= fun ex =>
        .ok (retainOutputs k view 0 ex.outputs)) := by
  have hav := hr.tracked.inputs_available hk hr.uses
  have hsame : ∀ v ∈ node.inputs, st.view v = view v := by
    intro v hv
    obtain ⟨bv, hbv⟩ := Option.isSome_iff_exists.mp (hav v hv)
    obtain ⟨rv, hrv, rfl⟩ := Option.map_eq_some_iff.mp hbv
    rw [hbv, hr.agrees v rv hrv]
  unfold executeHostNode
  rw [← runNode_congr hsame]
  refine (runNode_refines hk hav).bind ?_
  rintro ex _ ⟨rfl, hran⟩
  refine (insertNodeOutputs_spec hk hr.tracked hr.agrees hran).refines ?_
  rintro st₁ ⟨ht₁, hu₁, hnew₁, hag₁⟩
  refine (ht₁.accounted.observeTransient ex.transientScratch).refines ?_
  rintro s₂ ⟨ha₂, rfl⟩
  -- the observation only moves the peak
  have ht₂ : Tracked (graph.valuesUpTo (k + 1)) ⟨_, st₁.runtime⟩ :=
    ⟨ha₂, ht₁.runtime, ht₁.sized, ht₁.kept⟩
  obtain ⟨st₃, he₃, ht₃, hu₃, hr₃, hag₃⟩ :=
    consumeRuntimeInputs_spec ht₂ (inputs_mem_succ hk) (uses_split hk hr.uses hu₁)
  rw [he₃]
  obtain ⟨st₄, he₄, ht₄, hu₄, hag₄⟩ := removeUnusedRuntime_spec ht₃ (nodup_nodeValues k node) (by
    intro v hv
    rw [hr₃ v (nodeValues_not_inputs hk hv)]
    exact hnew₁ v hv)
  show Refines _ (removeUnusedRuntime st₃ (nodeValues k node)) _
  rw [he₄]
  exact ⟨_, rfl, ht₄, hag₄ _ (hag₃ _ hag₁), fun v => (hu₄ v).trans (hu₃ v)⟩

theorem executeHostNodes_refines : ∀ {nodes : List OperationNode} {k : Nat} {st : HostState}
    {view : ValueRef → Option ByteView}, (∃ rest, graph.nodes.drop k = nodes ++ rest) →
      Related graph k st view →
      Refines (fun st' view' => Related graph (k + nodes.length) st' view')
        (executeHostNodes graph host cancellation k nodes st)
        (retainNodes graph host cancellation k nodes view)
  | [], k, st, view, _, hr => ⟨view, rfl, hr⟩
  | node :: nodes, k, st, view, ⟨rest, hd⟩, hr => by
    have hk : graph.nodes[k]? = some node := by
      have := congrArg (fun l => l[0]?) hd
      simpa using this
    have hrest : graph.nodes.drop (k + 1) = nodes ++ rest := by
      rw [← List.drop_drop, hd]; rfl
    have hstep := (@executeHostNode_refines graph host cancellation k node st view hk hr).bind
      fun st' view' hr' => executeHostNodes_refines (k := k + 1) ⟨rest, hrest⟩ hr'
    rw [bind_assoc] at hstep
    rw [List.length_cons, Nat.add_comm nodes.length, ← Nat.add_assoc]
    exact hstep

end Loop

end ModelWeights.Graph
