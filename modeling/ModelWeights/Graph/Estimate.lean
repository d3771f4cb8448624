import ModelWeights.Graph.Scratch

/-! # The execution against its estimate

`execute_host` and `estimate_host_scratch_bytes` run in lockstep: `Paired` holds
between their states after every node, so the estimate bounds the peak of the
execution. What is left is the buffer of the graph output, which both subtract. -/
namespace ModelWeights.Graph
open RefCount

/-- The execution and the estimate at the same point. -/
structure Paired (inputs : List ByteView) (aliases : ValueRef → Option InputAlias)
    (vals : List ValueRef) (st : HostState) (e : LivenessSchedule) : Prop where
  tracked : Tracked vals st
  accounted : Accounted vals e
  mirrors : Mirrors (fun v => ∃ i, aliases v = some ⟨i, true⟩) st.schedule e
  given : ∀ v rv, st.runtime v = some rv → rv.allocation = none →
    rv.bytes.bytes = [] ∨ ∃ source, aliases v = some source ∧
      inputs[source.input]? = some rv.bytes
  peak : st.schedule.peakBytes ≤ e.peakBytes

section Steps
variable {graph : OperationGraph} {host : Host} {inputs : List ByteView}
  {cancellation : CancellationToken} {aliases : ValueRef → Option InputAlias}
  {vals : List ValueRef} {st st' : HostState} {e e' : LivenessSchedule}

/-- Aliases of values that are not there yet do not matter. -/
theorem Paired.setAlias (h : Paired inputs aliases vals st e) {v : ValueRef} (hv : v ∉ vals)
    (x : Option InputAlias) : Paired inputs (Function.update aliases v x) vals st e := by
  have hlive : ∀ w, (st.schedule.values w).isSome → w ≠ v := fun w hw he =>
    hv (he ▸ h.tracked.accounted.known w hw)
  refine ⟨h.tracked, h.accounted, ?_, ?_, h.peak⟩
  · obtain ⟨live, uses, external, shared, sized, lost⟩ := h.mirrors
    refine ⟨live, uses, external, shared, sized, fun w a hw hs => ?_⟩
    have hne : w ≠ v := by
      refine hlive w ?_
      obtain ⟨lv, hlv, _⟩ := Option.bind_eq_some_iff.mp hw
      rw [← live w, hlv]; rfl
    rw [Function.update_of_ne hne]
    exact lost w a hw hs
  · intro w rv hrv hal
    have hne : w ≠ v := hlive w (by rw [← h.tracked.isSome_iff, hrv]; rfl)
    rw [Function.update_of_ne hne]
    exact h.given w rv hrv hal

/-- One output, entered on both sides. -/
theorem Paired.extend {v : ValueRef} {x y : Option Nat} {bytes : ByteView}
    (h : Paired inputs aliases vals st e) (hv : v ∉ vals)
    (ht : Tracked (vals ++ [v]) st') (ha : Accounted (vals ++ [v]) e')
    (hes : Extends st.schedule st'.schedule v y) (hee : Extends e e' v x)
    (hr : st'.runtime = Function.update st.runtime v (some ⟨bytes, y⟩))
    (hps : st'.schedule.peakBytes ≤ max st.schedule.peakBytes st'.schedule.liveBytes)
    (hpe : e.peakBytes ≤ e'.peakBytes)
    (hnone : x = none → y = none)
    (hshared : ∀ a w, x = some a → e.owner w = some a → st.schedule.owner w = y)
    (hsized : ∀ a b, x = some a → y = some b →
      (e'.allocations a).map LiveAllocation.bytes =
        (st'.schedule.allocations b).map LiveAllocation.bytes)
    (hlost : ∀ a, x = some a → y = none → (∃ i, aliases v = some ⟨i, true⟩) ∨
      (e'.allocations a).map LiveAllocation.bytes = some 0)
    (hgiven : y = none → bytes.bytes = [] ∨ ∃ source, aliases v = some source ∧
      inputs[source.input]? = some bytes) : Paired inputs aliases (vals ++ [v]) st' e' := by
  have hm := h.mirrors.extend h.tracked.accounted h.accounted
    (h.tracked.accounted.not_live hv) hes hee hnone hshared hsized hlost
  refine ⟨ht, ha, hm, ?_, ?_⟩
  · intro w rv hrv hal
    rw [hr] at hrv
    by_cases hw : w = v
    · subst hw
      rw [Function.update_self] at hrv
      obtain rfl := Option.some.inj hrv
      exact hgiven hal
    · rw [Function.update_of_ne hw] at hrv
      exact h.given w rv hrv hal
  · have hlive := hm.live_le ht.accounted ha
    have := h.peak
    have := ha.peak
    omega

theorem estimateAllocation_fresh {node : OperationNode} {j k : Nat} {f : TensorFacts}
    (h : Accounted vals e) (hv : .nodeOutput k j ∉ vals)
    (hn : graph.nodeOutputAliasInput node j = none)
    (he : (estimateAllocation graph node e j f >>= fun r =>
      r.2.insertValue (.nodeOutput k j) r.1) = .ok e') :
    Accounted (vals ++ [.nodeOutput k j]) e' ∧ InsertedFresh e e' (.nodeOutput k j) f.byteLen := by
  rw [estimateAllocation, hn, bind_assoc] at he
  exact (h.insertFresh hv f.byteLen).ok he

theorem estimateAllocation_alias {node : OperationNode} {v : ValueRef} {j k : Nat}
    {f : TensorFacts} (h : Accounted vals e) (hv : .nodeOutput k j ∉ vals)
    (hin : node.inputs = [v]) (hn : graph.nodeOutputAliasInput node j = some 0)
    (he : (estimateAllocation graph node e j f >>= fun r =>
      r.2.insertValue (.nodeOutput k j) r.1) = .ok e') :
    Accounted (vals ++ [.nodeOutput k j]) e' ∧ Inserted e e' (.nodeOutput k j) (e.owner v) := by
  rw [estimateAllocation, hn] at he
  obtain ⟨r, hr, he⟩ := bind_ok he
  obtain ⟨w, hw, hr⟩ := bind_ok hr
  obtain ⟨lv, hlv, hr⟩ := bind_ok hr
  obtain rfl := Except.ok.inj hr
  have hw : node.inputs[0]? = some w := okOr_eq_ok.mp (lift_eq_ok.mp hw)
  obtain rfl : v = w := by simpa [hin] using hw
  have hlv : e.values v = some lv := okOr_eq_ok.mp (lift_eq_ok.mp hlv)
  have howner : e.owner v = lv.allocation := by rw [LivenessSchedule.owner, hlv]; rfl
  rw [howner]
  refine (h.insertShared hv fun a ha => ?_).ok he
  obtain ⟨x, hx⟩ := h.recorded (howner.trans ha)
  rw [hx]; rfl

theorem nodeAlias_shared {node : OperationNode} {v : ValueRef} (hin : node.inputs = [v])
    (hn : graph.nodeOutputAliasInput node 0 = some 0) :
    nodeAlias graph host inputs cancellation aliases node = aliases v := by
  simp [nodeAlias, hn, hin]

theorem nodeAlias_prepared {node : OperationNode} {transform : PlannedTransform} {v : ValueRef}
    {f : TensorFacts} {source : InputAlias} {view : ByteView}
    (hop : node.operation = .prepare transform) (hin : node.inputs = [v])
    (hf : graph.facts v = some f) (hs : aliases v = some source)
    (hview : inputs[source.input]? = some view)
    (hback : handsBack host cancellation transform f view = true) :
    nodeAlias graph host inputs cancellation aliases node = some ⟨source.input, true⟩ := by
  rw [nodeAlias, aliasInput_none (by simp [hop]) (by simp [hop])]
  simp [hop, hin, hf, hs, hview, hback]

section InsertOutput
variable {node : OperationNode} {k j : Nat} {p : ProducedValue} {f : TensorFacts} {v : ValueRef}
  {rv : RuntimeValue}

/-- Both sides alias the node's input. -/
theorem Paired.insertOutput_shared (h : Paired inputs aliases vals st e)
    (hv : .nodeOutput k 0 ∉ vals) (ht : Tracked (vals ++ [.nodeOutput k 0]) st')
    (hal : aliases (.nodeOutput k 0) = aliases v) (hrv : st.runtime v = some rv)
    (hbytes : rv.bytes = p.bytes)
    (hi : Inserted st.schedule st'.schedule (.nodeOutput k 0) rv.allocation)
    (hr : st'.runtime = Function.update st.runtime (.nodeOutput k 0)
      (some ⟨p.bytes, rv.allocation⟩))
    (ha : Accounted (vals ++ [.nodeOutput k 0]) e')
    (he : Inserted e e' (.nodeOutput k 0) (e.owner v)) :
    Paired inputs aliases (vals ++ [.nodeOutput k 0]) st' e' := by
  have howner := h.tracked.owner_eq hrv
  refine h.extend hv ht ha hi.extends he.extends hr ?_ ?_ ?_ ?_ ?_ ?_ ?_
  · rw [hi.peak]; exact Nat.le_max_left _ _
  · rw [he.peak]
  · intro hx
    rw [← howner]
    exact h.mirrors.external v hx
  · intro a w hx hw
    rw [← howner]
    exact h.mirrors.shared w v a hw hx
  · intro a b hx hy
    rw [he.bytes, hi.bytes]
    exact h.mirrors.sized v a b hx (howner.trans hy)
  · intro a hx hy
    rw [he.bytes, hal]
    exact h.mirrors.lost v a hx (howner.trans hy)
  · intro hy
    rw [hal, ← hbytes]
    exact h.given v rv hrv hy

/-- Both sides have a new buffer. -/
theorem Paired.insertOutput_fresh (h : Paired inputs aliases vals st e)
    (hv : .nodeOutput k j ∉ vals) (ht : Tracked (vals ++ [.nodeOutput k j]) st')
    (hi : InsertedFresh st.schedule st'.schedule (.nodeOutput k j) f.byteLen)
    (hr : st'.runtime = Function.update st.runtime (.nodeOutput k j)
      (some ⟨p.bytes, some st.schedule.nextAllocation⟩))
    (ha : Accounted (vals ++ [.nodeOutput k j]) e')
    (he : InsertedFresh e e' (.nodeOutput k j) f.byteLen) :
    Paired inputs aliases (vals ++ [.nodeOutput k j]) st' e' := by
  refine h.extend hv ht ha (hi.extends h.tracked.accounted) (he.extends h.accounted) hr
    ?_ ?_ (by simp) ?_ ?_ (by simp) (by simp)
  · rw [hi.peak, hi.live]
  · rw [he.peak]; exact Nat.le_max_left _ _
  · intro a w hx hw
    obtain rfl := Option.some.inj hx
    obtain ⟨y, hy⟩ := h.accounted.recorded hw
    exact absurd (h.accounted.lt_next hy) (Nat.lt_irrefl _)
  · intro a b hx hy
    obtain rfl := Option.some.inj hx
    obtain rfl := Option.some.inj hy
    rw [he.allocations, hi.allocations]
    simp

/-- The provider handed its source back where the estimate charged a buffer. -/
theorem Paired.insertOutput_prepared {transform : PlannedTransform} {facts : TensorFacts}
    (h : Paired inputs aliases vals st e)
    (hv : .nodeOutput k 0 ∉ vals) (ht : Tracked (vals ++ [.nodeOutput k 0]) st')
    (hal : aliases (.nodeOutput k 0) = nodeAlias graph host inputs cancellation aliases node)
    (hop : node.operation = .prepare transform) (hin : node.inputs = [v])
    (hf : graph.facts v = some facts) (hrv : st.runtime v = some rv) (hbytes : rv.bytes = p.bytes)
    (hback : p.bytes.bytes ≠ [] → handsBack host cancellation transform facts p.bytes = true)
    (hl : p.bytes.bytes.length = f.byteLen)
    (hi : Inserted st.schedule st'.schedule (.nodeOutput k 0) rv.allocation)
    (hr : st'.runtime = Function.update st.runtime (.nodeOutput k 0)
      (some ⟨p.bytes, rv.allocation⟩))
    (ha : Accounted (vals ++ [.nodeOutput k 0]) e')
    (he : InsertedFresh e e' (.nodeOutput k 0) f.byteLen) :
    Paired inputs aliases (vals ++ [.nodeOutput k 0]) st' e' := by
  have hsize : (e'.allocations e.nextAllocation).map LiveAllocation.bytes = some f.byteLen := by
    rw [he.allocations, Function.update_self]; rfl
  have hprep : rv.allocation = none → p.bytes.bytes = [] ∨ ∃ source,
      aliases (.nodeOutput k 0) = some ⟨source, true⟩ ∧ inputs[source]? = some p.bytes := by
    intro hy
    by_cases hne : p.bytes.bytes = []
    · exact .inl hne
    · rcases h.given v rv hrv hy with hnil | ⟨source, hs, hview⟩
      · exact .inl (hbytes ▸ hnil)
      · rw [hbytes] at hview
        exact .inr ⟨source.input,
          hal.trans (nodeAlias_prepared hop hin hf hs hview (hback hne)), hview⟩
  refine h.extend hv ht ha hi.extends (he.extends h.accounted) hr ?_ ?_ (by simp) ?_ ?_ ?_ ?_
  · rw [hi.peak]; exact Nat.le_max_left _ _
  · rw [he.peak]; exact Nat.le_max_left _ _
  · intro a w hx hw
    obtain rfl := Option.some.inj hx
    obtain ⟨y, hy⟩ := h.accounted.recorded hw
    exact absurd (h.accounted.lt_next hy) (Nat.lt_irrefl _)
  · intro a b hx hy
    obtain rfl := Option.some.inj hx
    rw [hsize, hi.bytes, h.tracked.sized v rv b hrv hy, hbytes, hl]
  · intro a hx hy
    obtain rfl := Option.some.inj hx
    rw [hsize, ← hl]
    rcases hprep hy with hnil | ⟨source, hs, _⟩
    · exact .inr (by rw [hnil]; rfl)
    · exact .inl ⟨source, hs⟩
  · intro hy
    rcases hprep hy with hnil | ⟨source, hs, hview⟩
    · exact .inl hnil
    · exact .inr ⟨_, hs, hview⟩

theorem Paired.insertOutput (h : Paired inputs aliases vals st e) (hv : .nodeOutput k j ∉ vals)
    (hin : ∀ w ∈ node.inputs, w ∈ vals)
    (hal : aliases (.nodeOutput k 0) = nodeAlias graph host inputs cancellation aliases node)
    (ho : OriginMatches graph host cancellation st.view node j p)
    (hl : p.bytes.bytes.length = f.byteLen)
    (hs : insertOutput k node.inputs st j p f = .ok st')
    (he : (estimateAllocation graph node e j f >>= fun r =>
      r.2.insertValue (.nodeOutput k j) r.1) = .ok e') :
    Paired inputs aliases (vals ++ [.nodeOutput k j]) st' e' := by
  have hview : ∀ {w}, st.view w = some p.bytes →
      ∃ rv, st.runtime w = some rv ∧ rv.bytes = p.bytes := fun hw => Option.map_eq_some_iff.mp hw
  have htracked : OriginOk vals st node.inputs p → Tracked (vals ++ [.nodeOutput k j]) st' :=
    fun hok => ((insertOutput_spec h.tracked hv hok hl).ok hs).tracked
  have halias : ∀ {w rv}, node.inputs = [w] → p.origin = .alias 0 → st.runtime w = some rv →
      rv.bytes = p.bytes → Tracked (vals ++ [.nodeOutput k j]) st' := by
    intro w rv hw hor hrv hb
    exact htracked (.inr ⟨hor, w, hin w (by simp [hw]), rv, by simp [hw], hrv, by rw [hb]⟩)
  unfold OriginMatches at ho
  split at ho
  · next i hn =>
    obtain ⟨rfl, rfl, hor, w, hw, hwv⟩ := ho
    obtain ⟨rv, hrv, hb⟩ := hview hwv
    obtain ⟨_, hi, hr⟩ := (insertOutput_alias h.tracked hv hor (by simp [hw]) hrv).ok hs
    obtain ⟨ha, hi'⟩ := estimateAllocation_alias h.accounted hv hw hn he
    exact h.insertOutput_shared hv (halias hw hor hrv hb)
      (hal.trans (nodeAlias_shared hw hn)) hrv hb hi hr ha hi'
  · next hn =>
    obtain ⟨ha, hi'⟩ := estimateAllocation_fresh h.accounted hv hn he
    rcases ho with hor | ⟨rfl, hor, transform, w, facts, hop, hw, hf, hwv, hback⟩
    · obtain ⟨_, hi, hr⟩ := (Graph.insertOutput_fresh h.tracked hv hor).ok hs
      exact h.insertOutput_fresh hv (htracked (.inl hor)) hi hr ha hi'
    · obtain ⟨rv, hrv, hb⟩ := hview hwv
      obtain ⟨_, hi, hr⟩ := (insertOutput_alias h.tracked hv hor (by simp [hw]) hrv).ok hs
      exact h.insertOutput_prepared hv (halias hw hor hrv hb) hal hop hw hf hrv hb hback hl hi hr
        ha hi'

end InsertOutput

/-! ## One node -/

theorem OriginMatches.later {view view' : ValueRef → Option ByteView} {node : OperationNode}
    {j : Nat} {p : ProducedValue} (hj : j ≠ 0)
    (h : OriginMatches graph host cancellation view node j p) :
    OriginMatches graph host cancellation view' node j p := by
  unfold OriginMatches at h ⊢
  split at h
  · exact absurd h.2.1 hj
  · rcases h with h | h
    · exact .inl h
    · exact absurd h.1 hj

theorem Paired.insertOutputs {node : OperationNode} {k : Nat} :
    ∀ {pairs : List (ProducedValue × TensorFacts)} {vals : List ValueRef} {st st' : HostState}
      {e e' : LivenessSchedule} {j : Nat}, Paired inputs aliases vals st e →
      (∀ i, j ≤ i → .nodeOutput k i ∉ vals) → (∀ w ∈ node.inputs, w ∈ vals) →
      aliases (.nodeOutput k 0) = nodeAlias graph host inputs cancellation aliases node →
      (∀ i p f, pairs[i]? = some (p, f) →
        OriginMatches graph host cancellation st.view node (j + i) p ∧
          p.bytes.bytes.length = f.byteLen) →
      insertOutputs k node.inputs st j pairs = .ok st' →
      estimateOutputs graph k node e j (pairs.map Prod.snd) = .ok e' →
      Paired inputs aliases (vals ++ (List.range' j pairs.length).map (.nodeOutput k)) st' e'
  | [], vals, st, st', e, e', j, h, _, _, _, _, hs, he => by
    obtain rfl := Except.ok.inj hs
    obtain rfl := Except.ok.inj he
    simpa using h
  | (p, f) :: rest, vals, st, st', e, e', j, h, hnew, hin, hal, hall, hs, he => by
    obtain ⟨st₁, hs₁, hs⟩ := bind_ok hs
    rw [List.map_cons, estimateOutputs] at he
    obtain ⟨r, hr, he⟩ := bind_ok he
    obtain ⟨e₁, he₁, he⟩ := bind_ok he
    obtain ⟨ho, hl⟩ := hall 0 p f rfl
    have h₁ := h.insertOutput (hnew j (Nat.le_refl _)) hin hal ho hl hs₁
      (by rw [hr]; exact he₁)
    have hrest := Paired.insertOutputs (j := j + 1) h₁ ?_ ?_ hal ?_ hs he
    · rw [List.append_assoc] at hrest
      simpa [List.range'_succ] using hrest
    · intro i hi hm
      rcases List.mem_append.mp hm with hm | hm
      · exact hnew i (by omega) hm
      · have := List.mem_singleton.mp hm
        simp only [ValueRef.nodeOutput.injEq, true_and] at this
        omega
    · intro w hw
      exact List.mem_append_left _ (hin w hw)
    · intro i q g hq
      obtain ⟨hoq, hlq⟩ := hall (i + 1) q g (by simpa using hq)
      rw [show j + (i + 1) = j + 1 + i by omega] at hoq
      exact ⟨hoq.later (by omega), hlq⟩

theorem Paired.observeTransient {n m : Nat} {s' : LivenessSchedule}
    (h : Paired inputs aliases vals st e) (hnm : n ≤ m)
    (hs : st.schedule.observeTransient n = .ok s') (he : e.observeTransient m = .ok e') :
    Paired inputs aliases vals ⟨s', st.runtime⟩ e' := by
  obtain ⟨ha, rfl⟩ := (h.tracked.accounted.observeTransient n).ok hs
  obtain ⟨ha', rfl⟩ := (h.accounted.observeTransient m).ok he
  obtain ⟨live, uses, external, shared, sized, lost⟩ := h.mirrors
  refine ⟨⟨ha, h.tracked.runtime, h.tracked.sized, h.tracked.kept⟩, ha',
    ⟨live, uses, external, shared, sized, lost⟩, h.given, ?_⟩
  have hlive := h.mirrors.live_le h.tracked.accounted h.accounted
  have := h.peak
  show max _ _ ≤ max _ _
  omega

theorem consumeRuntimeInput_schedule {v : ValueRef} (h : consumeRuntimeInput st v = .ok st') :
    (∃ last, st.schedule.consumeValue v = .ok (last, st'.schedule)) ∧
      ∀ w rv, st'.runtime w = some rv → st.runtime w = some rv := by
  obtain ⟨⟨last, s'⟩, hc, h⟩ := bind_ok h
  cases last with
  | false =>
    obtain rfl := Except.ok.inj h
    exact ⟨⟨_, hc⟩, fun _ _ hw => hw⟩
  | true =>
    obtain ⟨_, _, h⟩ := bind_ok h
    obtain rfl := Except.ok.inj h
    refine ⟨⟨_, hc⟩, fun w rv hw => ?_⟩
    by_cases hwv : w = v
    · subst hwv; simp at hw
    · simpa [Function.update_of_ne hwv] using hw

/-- A value whose last use or whose only moment is over goes on both sides. -/
theorem Paired.shrink {v : ValueRef} {last : Bool} (h : Paired inputs aliases vals st e)
    (ht : Tracked vals st') (ha : Accounted vals e')
    (hss : Shrinks st.schedule st'.schedule v last) (hse : Shrinks e e' v last)
    (huses : ∀ w, e'.uses w = st'.schedule.uses w)
    (hr : ∀ w rv, st'.runtime w = some rv → st.runtime w = some rv)
    (hps : st'.schedule.peakBytes = st.schedule.peakBytes) (hpe : e'.peakBytes = e.peakBytes) :
    Paired inputs aliases vals st' e' :=
  ⟨ht, ha, h.mirrors.shrink ht.accounted ha hss hse huses,
    fun w rv hw => h.given w rv (hr w rv hw), by rw [hps, hpe]; exact h.peak⟩

theorem Paired.consumeInput {v : ValueRef} {last : Bool} (h : Paired inputs aliases vals st e)
    (hm : v ∈ vals) (hu : 0 < st.schedule.uses v) (hs : consumeRuntimeInput st v = .ok st')
    (he : e.consumeValue v = .ok (last, e')) : Paired inputs aliases vals st' e' ∧
      ∀ w, st'.schedule.uses w = if w = v then st.schedule.uses v - 1 else st.schedule.uses w := by
  obtain ⟨st₁, hs₁, ht, husesR, _, _⟩ := consumeRuntimeInput_spec h.tracked hm hu
  obtain rfl : st₁ = st' := Except.ok.inj (hs₁.symm.trans hs)
  obtain ⟨⟨lastR, hcR⟩, hr⟩ := consumeRuntimeInput_schedule hs
  have hsome : (st.schedule.values v).isSome := by
    rw [← h.tracked.isSome_iff]; exact h.tracked.kept v hm hu
  obtain ⟨lastR', sR, hc, _, hcon⟩ := h.tracked.accounted.consumeValue hu hsome
  obtain ⟨rfl, rfl⟩ := Prod.mk.inj (Except.ok.inj (hc.symm.trans hcR))
  have huE : 0 < e.uses v := by rw [h.mirrors.uses v]; exact hu
  obtain ⟨lastE, eE, hcE, haE, hconE⟩ :=
    h.accounted.consumeValue huE ((h.mirrors.live v).trans hsome)
  obtain ⟨rfl, rfl⟩ := Prod.mk.inj (Except.ok.inj (hcE.symm.trans he))
  -- the use counts agree, so both sides see the last use together
  have hlast : lastR' = lastE := by
    rw [Bool.eq_iff_iff, hcon.isLast, hconE.isLast, h.mirrors.uses v]
  subst hlast
  refine ⟨h.shrink ht haE ⟨hcon.values, hcon.bytes⟩ ⟨hconE.values, hconE.bytes⟩ ?_ hr hcon.peak
    hconE.peak, husesR⟩
  intro w
  rw [hconE.uses w, hcon.uses w, h.mirrors.uses v, h.mirrors.uses w]

theorem Paired.consumeInputs : ∀ {values : List ValueRef} {st st' : HostState}
    {e e' : LivenessSchedule}, Paired inputs aliases vals st e → (∀ v ∈ values, v ∈ vals) →
      (∀ v, values.count v ≤ st.schedule.uses v) → consumeRuntimeInputs st values = .ok st' →
      e.consumeInputs values = .ok e' → Paired inputs aliases vals st' e'
  | [], st, st', e, e', h, _, _, hs, he => by
    obtain rfl : st = st' := by simpa [consumeRuntimeInputs, pure, Except.pure] using hs
    obtain rfl : e = e' := by
      simpa [LivenessSchedule.consumeInputs, pure, Except.pure] using he
    exact h
  | v :: values, st, st', e, e', h, hm, hu, hs, he => by
    rw [consumeRuntimeInputs, List.foldlM_cons] at hs
    rw [LivenessSchedule.consumeInputs, List.foldlM_cons] at he
    obtain ⟨st₁, hs₁, hs⟩ := bind_ok hs
    obtain ⟨e₁, he₁, he⟩ := bind_ok he
    obtain ⟨⟨last, e₂⟩, hc, he₁⟩ := bind_ok he₁
    obtain rfl := Except.ok.inj he₁
    have hpos := hu v
    rw [List.count_cons_self] at hpos
    obtain ⟨h₁, hu₁⟩ := h.consumeInput (hm v (List.mem_cons_self ..)) (by omega) hs₁ hc
    refine Paired.consumeInputs h₁ (fun w hw => hm w (List.mem_cons_of_mem _ hw)) ?_ hs he
    intro w
    rw [hu₁ w]
    have := hu w
    split
    · next hw => subst hw; omega
    · next hw => rwa [List.count_cons_of_ne (fun h => hw h.symm)] at this

theorem Paired.removeUnused : ∀ {values : List ValueRef} {st st' : HostState}
    {e e' : LivenessSchedule}, Paired inputs aliases vals st e → values.Nodup →
      (∀ v ∈ values, (st.runtime v).isSome) → removeUnusedRuntime st values = .ok st' →
      e.removeUnused values = .ok e' → Paired inputs aliases vals st' e'
  | [], st, st', e, e', h, _, _, hs, he => by
    obtain rfl : st = st' := by simpa [removeUnusedRuntime, pure, Except.pure] using hs
    obtain rfl : e = e' := by
      simpa [LivenessSchedule.removeUnused, pure, Except.pure] using he
    exact h
  | v :: values, st, st', e, e', h, hn, hsome, hs, he => by
    obtain ⟨hv, hn⟩ := List.nodup_cons.mp hn
    rw [removeUnusedRuntime, List.foldlM_cons] at hs
    rw [LivenessSchedule.removeUnused, List.foldlM_cons] at he
    obtain ⟨st₁, hs₁, hs⟩ := bind_ok hs
    obtain ⟨e₁, he₁, he⟩ := bind_ok he
    have hsv := hsome v (List.mem_cons_self ..)
    obtain ⟨st₂, hs₂, ht, _, hr, _⟩ := removeUnusedOutput_spec h.tracked hsv
    obtain rfl : st₂ = st₁ := Except.ok.inj (hs₂.symm.trans hs₁)
    refine Paired.removeUnused ?_ hn ?_ hs he
    · have hunused : e.isUnused v = st.schedule.isUnused v := by
        have := h.mirrors.uses v
        rw [LivenessSchedule.uses, LivenessSchedule.uses] at this
        rw [LivenessSchedule.isUnused, LivenessSchedule.isUnused, this]
      rw [hunused] at he₁
      unfold removeUnusedOutput at hs₁
      split at hs₁
      · next hz =>
        rw [if_pos hz] at he₁
        obtain ⟨s', hs', hdrop⟩ := bind_ok hs₁
        obtain ⟨_, _, hdrop⟩ := bind_ok hdrop
        obtain rfl := Except.ok.inj hdrop
        have hsome : (st.schedule.values v).isSome := by rw [← h.tracked.isSome_iff]; exact hsv
        obtain ⟨s'', hs'', _, hrem⟩ := h.tracked.accounted.removeValue hsome
        obtain rfl := Except.ok.inj (hs''.symm.trans hs')
        obtain ⟨e₂, he₂, haE, hremE⟩ :=
          h.accounted.removeValue ((h.mirrors.live v).trans hsome)
        obtain rfl := Except.ok.inj (he₂.symm.trans he₁)
        have hshrinkR : Shrinks st.schedule s'' v true := ⟨hrem.values, hrem.bytes⟩
        have hshrinkE : Shrinks e e₂ v true := ⟨hremE.values, hremE.bytes⟩
        refine h.shrink ht haE hshrinkR hshrinkE ?_ ?_ hrem.peak hremE.peak
        · intro w
          have := h.mirrors.uses w
          rw [LivenessSchedule.uses, LivenessSchedule.uses, hremE.uses, hrem.uses]
          exact this
        · intro w rv hw
          by_cases hwv : w = v
          · subst hwv; simp at hw
          · simpa [Function.update_of_ne hwv] using hw
      · next hz =>
        rw [if_neg hz] at he₁
        obtain rfl := Except.ok.inj hs₁
        obtain rfl := Except.ok.inj he₁
        exact h
    · intro w hw
      rw [hr w fun he => hv (he ▸ hw)]
      exact hsome w (List.mem_cons_of_mem _ hw)

theorem nodeAlias_congr {aliases' : ValueRef → Option InputAlias} {node : OperationNode}
    (h : ∀ v ∈ node.inputs, aliases v = aliases' v) :
    nodeAlias graph host inputs cancellation aliases node =
      nodeAlias graph host inputs cancellation aliases' node := by
  unfold nodeAlias
  split
  · next i _ =>
    cases hi : node.inputs[i]? with
    | none => rfl
    | some v => exact h v (List.mem_of_getElem? hi)
  · split
    · next hin => rw [h _ (by simp [hin])]
    · rfl

/-- **One node**, on both sides. -/
theorem Paired.node {node : OperationNode} {k : Nat} (hk : graph.nodes[k]? = some node)
    (h : Paired inputs aliases (graph.valuesUpTo k) st e)
    (hu : ∀ v, st.schedule.uses v = graph.futureUses k v)
    (hs : executeHostNode graph host cancellation k node st = .ok st')
    (he : estimateNode graph k node e = .ok e') :
    Paired inputs (Function.update aliases (.nodeOutput k 0)
      (nodeAlias graph host inputs cancellation aliases node)) (graph.valuesUpTo (k + 1)) st' e' := by
  have hmem : ∀ v ∈ node.inputs, v ∈ graph.valuesUpTo k := fun v => inputs_mem_valuesUpTo hk
  obtain ⟨ex, hex, hs⟩ := bind_ok hs
  obtain ⟨st₁, hs₁, hs⟩ := bind_ok hs
  obtain ⟨s₂, hs₂, hs⟩ := bind_ok hs
  obtain ⟨st₃, hs₃, hs⟩ := bind_ok hs
  obtain ⟨e₁, he₁, he⟩ := bind_ok he
  obtain ⟨e₂, he₂, he⟩ := bind_ok he
  obtain ⟨e₃, he₃, he⟩ := bind_ok he
  have hav := h.tracked.inputs_available hk hu
  obtain ⟨_, _, _, hran⟩ := (runNode_refines hk hav).ok hex
  have hcharge := runNode_charged hk hex
  -- the alias of the first output is recorded before it is entered
  have h₀ := h.setAlias (output_not_mem_valuesUpTo 0)
    (nodeAlias graph host inputs cancellation aliases node)
  have hsame := @nodeAlias_congr graph host inputs cancellation aliases
    (Function.update aliases (.nodeOutput k 0)
      (nodeAlias graph host inputs cancellation aliases node)) node fun v hv => by
    have hne : v ≠ .nodeOutput k 0 := fun he => output_not_mem_valuesUpTo 0 (he ▸ hmem v hv)
    rw [Function.update_of_ne hne]
  have hzip : (ex.outputs.zip node.outputs).length = node.outputs.length := by
    rw [List.length_zip, hran.count, Nat.min_self]
  have hsnd : (ex.outputs.zip node.outputs).map Prod.snd = node.outputs :=
    List.map_snd_zip (Nat.le_of_eq hran.count.symm)
  have h₁ := h₀.insertOutputs (fun i _ => output_not_mem_valuesUpTo i) hmem
    (by rw [Function.update_self]; exact hsame)
    (fun i p f hp => by
      obtain ⟨hpi, hfi⟩ := List.getElem?_zip_eq_some.mp hp
      rw [Nat.zero_add]
      exact ⟨hcharge.origin i p hpi, hran.sized (p, f) (List.mem_of_getElem? hp)⟩)
    hs₁ (by rw [hsnd]; exact he₁)
  rw [nodeValues_eq k node hzip, ← valuesUpTo_succ hk] at h₁
  have h₂ := h₁.observeTransient hcharge.scratch hs₂ he₂
  have hag : Agrees st st.view := fun v rv hrv => by rw [HostState.view, hrv]; rfl
  obtain ⟨_, hu₁, hnew₁, _⟩ := (insertNodeOutputs_spec hk h.tracked hag hran).ok hs₁
  obtain ⟨_, rfl⟩ := (h₁.tracked.accounted.observeTransient _).ok hs₂
  obtain ⟨_, hs₃', _, _, hr₃, _⟩ :=
    consumeRuntimeInputs_spec h₂.tracked (inputs_mem_succ hk) (uses_split hk hu hu₁)
  obtain rfl := Except.ok.inj (hs₃'.symm.trans hs₃)
  have h₃ := h₂.consumeInputs (inputs_mem_succ hk)
    (fun v => Nat.le_trans (Nat.le_add_right ..) (Nat.le_of_eq (uses_split hk hu hu₁ v).symm))
    hs₃ he₃
  refine h₃.removeUnused (nodup_nodeValues k node) ?_ hs he
  intro v hv
  rw [hr₃ v (nodeValues_not_inputs hk hv)]
  exact hnew₁ v hv

/-! ## Whole executions -/

theorem Paired.nodes : ∀ {nodes : List OperationNode} {k : Nat} {st st' : HostState}
    {e e' : LivenessSchedule} {aliases : ValueRef → Option InputAlias}
    {view : ValueRef → Option ByteView}, graph.nodes.drop k = nodes →
      Paired inputs aliases (graph.valuesUpTo k) st e → Related graph k st view →
      executeHostNodes graph host cancellation k nodes st = .ok st' →
      estimateNodes graph k nodes e = .ok e' →
      Paired inputs (aliasNodes graph host inputs cancellation k nodes aliases)
        (graph.valuesUpTo (k + nodes.length)) st' e'
  | [], k, st, st', e, e', aliases, view, _, h, _, hs, he => by
    obtain rfl := Except.ok.inj hs
    obtain rfl := Except.ok.inj he
    exact h
  | node :: rest, k, st, st', e, e', aliases, view, hd, h, hr, hs, he => by
    have hk : graph.nodes[k]? = some node := by
      have := congrArg (fun l => l[0]?) hd
      simpa using this
    have hrest : graph.nodes.drop (k + 1) = rest := by
      rw [← List.drop_drop, hd]; rfl
    obtain ⟨st₁, hs₁, hs⟩ := bind_ok hs
    obtain ⟨e₁, he₁, he⟩ := bind_ok he
    obtain ⟨view₁, _, hr₁⟩ := (executeHostNode_refines hk hr).ok hs₁
    have := Paired.nodes hrest (h.node hk hr.uses hs₁ he₁) hr₁ hs he
    rw [Nat.add_assoc, Nat.add_comm 1] at this
    exact this

theorem paired_start (hs : initialHostState graph inputs cancellation = .ok st)
    (he : LivenessSchedule.new graph = .ok e) :
    Paired inputs inputAliases (graph.valuesUpTo 0) st e := by
  obtain ⟨view, _, hr, _⟩ := initialHostState_refines.ok hs
  obtain ⟨_, _, hs⟩ := bind_ok hs
  obtain ⟨_, _, hs⟩ := bind_ok hs
  obtain ⟨s, hnew, hs⟩ := bind_ok hs
  obtain ⟨_, _, hs⟩ := bind_ok hs
  have hst := Except.ok.inj hs
  obtain rfl : s = e := Except.ok.inj (hnew.symm.trans he)
  obtain ⟨ha, _, hin, hout, _, _⟩ := (new_spec graph).ok he
  have hsched : st.schedule = s := by rw [← hst]
  have howner : ∀ v, s.owner v = none := by
    intro v
    rw [LivenessSchedule.owner]
    cases v with
    | input i => rw [hin i]; split <;> rfl
    | nodeOutput n o => rw [hout n o]; rfl
  refine ⟨hr.tracked, ha, ?_, ?_, Nat.le_of_eq (by rw [hsched])⟩
  · rw [hsched]
    refine ⟨fun _ => rfl, fun _ => rfl, fun v _ => howner v, ?_, ?_, ?_⟩
    · intro v w a hv; rw [howner v] at hv; cases hv
    · intro v a b hv; rw [howner v] at hv; cases hv
    · intro v a hv; rw [howner v] at hv; cases hv
  · intro v rv hrv _
    rw [← hst] at hrv
    obtain ⟨view, hview, rfl⟩ := Option.map_eq_some_iff.mp hrv
    cases v with
    | input i => exact .inr ⟨_, rfl, hview⟩
    | nodeOutput n o => cases hview

/-- The estimate subtracts no more for the output than the execution does. -/
theorem Paired.outputBytes_le {v : ValueRef} (h : Paired inputs aliases vals st e)
    (hv : ∀ i, aliases v ≠ some ⟨i, true⟩) :
    e.outputBytes v ≤ st.schedule.outputBytes v := by
  unfold LivenessSchedule.outputBytes
  show ((e.owner v).bind e.allocations).elim 0 LiveAllocation.bytes ≤
    ((st.schedule.owner v).bind st.schedule.allocations).elim 0 LiveAllocation.bytes
  cases hx : e.owner v with
  | none => exact Nat.zero_le _
  | some a =>
    obtain ⟨x, ha⟩ := h.accounted.recorded hx
    cases hy : st.schedule.owner v with
    | none =>
      rcases h.mirrors.lost v a hx hy with ⟨i, hi⟩ | hzero
      · exact absurd hi (hv i)
      · rw [ha] at hzero
        simpa [ha] using Nat.le_of_eq (Option.some.inj hzero)
    | some b =>
      obtain ⟨y, hb⟩ := h.tracked.accounted.recorded hy
      have := h.mirrors.sized v a b hx hy
      rw [ha, hb] at this
      simpa [ha, hb] using Nat.le_of_eq (Option.some.inj this)

end Steps

/-- **The estimate bounds the execution**, unless a `Prepare` node hands an
external input back as the graph output: then the estimate excludes a buffer the
execution never had. -/
theorem executeHost_within_estimate {graph : OperationGraph} {host : Host}
    {inputs : List ByteView} {cancellation : CancellationToken} {r : HostExecution} {n : Nat}
    (h : graph.executeHost host inputs cancellation = .ok r)
    (he : graph.estimateHostScratchBytes = .ok n)
    (hback : graph.handsInputBack host inputs cancellation = false) :
    r.peakScratchBytes ≤ n ∧ graph.checkScratchEstimate r = .ok () := by
  have hle : r.peakScratchBytes ≤ n := by
    obtain ⟨st₀, hs₀, h⟩ := bind_ok h
    obtain ⟨st, hs, h⟩ := bind_ok h
    obtain ⟨_, _, h⟩ := bind_ok h
    obtain ⟨_, _, h⟩ := bind_ok h
    obtain ⟨peak, hpeak, h⟩ := bind_ok h
    obtain rfl := Except.ok.inj h
    obtain ⟨e₀, he₀, he⟩ := bind_ok he
    obtain ⟨e, hes, he⟩ := bind_ok he
    obtain ⟨view, _, hr, _⟩ := initialHostState_refines.ok hs₀
    have hp := (paired_start hs₀ he₀).nodes (by simp) hr hs hes
    have hout := hp.outputBytes_le (v := graph.output) fun i hi => by
      rw [OperationGraph.handsInputBack, hi] at hback
      cases hback
    have hpeak := (checkedSub_eq_some.mp (orFault_eq_ok.mp hpeak)).2
    have hn := (checkedSub_eq_some.mp (orFault_eq_ok.mp he)).2
    have := hp.peak
    show peak ≤ n
    omega
  refine ⟨hle, ?_⟩
  rw [OperationGraph.checkScratchEstimate, he]
  exact if_neg (by omega)

/-- Four bytes that a `Prepare` node hands on, and one of them prepared as a wider scalar. -/
def widenWire : OperationGraphWire where
  schemaVersion := 1
  inputs := [⟨⟨"x"⟩, ⟨[5], [5], [1], [1], .contiguous .u8, 5, rfl⟩⟩]
  nodes :=
    [⟨⟨⟨"model-weights"⟩, ⟨"slice"⟩, 1⟩, [.input 0], .slice [⟨1, 5⟩]⟩,
     ⟨⟨⟨"model-weights"⟩, ⟨"contiguous-cast"⟩, 1⟩, [.nodeOutput 0 0],
      .prepare ⟨⟨⟨⟨"model-weights"⟩, ⟨"contiguous-cast"⟩, 1⟩, .contiguous .u8, .contiguous .u8⟩, 4, 0⟩⟩,
     ⟨⟨⟨"model-weights"⟩, ⟨"slice"⟩, 1⟩, [.nodeOutput 1 0], .slice [⟨2, 3⟩]⟩,
     ⟨⟨⟨"model-weights"⟩, ⟨"contiguous-cast"⟩, 1⟩, [.nodeOutput 2 0],
      .prepare ⟨⟨⟨⟨"model-weights"⟩, ⟨"contiguous-cast"⟩, 1⟩, .contiguous .u8, .contiguous .u16⟩, 2, 2⟩⟩]
  output := .nodeOutput 3 0

def widenGraph : OperationGraph := (OperationGraph.tryFrom widenWire).toOption.get rfl

/-- A machine whose only provider reuses the source when the scalar type stays, and appends a
zero byte to every scalar when it changes. -/
def wideningHost : Host where
  preparation := ⟨fun _ => some
    { validate := fun request _ =>
        if request.transform.source.dtype = request.transform.target.dtype then .ok .reuseSource
        else .ok (.allocate request.expectedOutputBytes request.expectedScratchBytes)
      prepareAllocated := fun request _ _ _ => .ok (request.source.flatMap fun b => [b, 0]) }⟩
  avx2Available := false

/-- The estimate charges four bytes that the execution never allocates. -/
theorem executeHost_within_estimate_widen :
    widenGraph.estimateHostScratchBytes = .ok 6 ∧
    widenGraph.executeHost wideningHost [⟨[1, 2, 3, 4, 5], false⟩] ⟨false⟩ =
      .ok ⟨⟨[4, 0], false⟩, 3⟩ ∧
    3 ≤ 6 ∧ widenGraph.checkScratchEstimate ⟨⟨[4, 0], false⟩, 3⟩ = .ok () := by
  have hrun : widenGraph.executeHost wideningHost [⟨[1, 2, 3, 4, 5], false⟩] ⟨false⟩ =
    .ok ⟨⟨[4, 0], false⟩, 3⟩ := rfl
  exact ⟨rfl, hrun, executeHost_within_estimate hrun rfl rfl⟩

/-- A copy of one half of the input that nobody reads, and the whole input
prepared for a target of the same type. -/
def handBackWire : OperationGraphWire where
  schemaVersion := 1
  inputs := [⟨⟨"x"⟩, ⟨[10], [10], [1], [1], .contiguous .u8, 10, rfl⟩⟩]
  nodes :=
    [⟨⟨⟨"model-weights"⟩, ⟨"slice"⟩, 1⟩, [.input 0], .slice [⟨0, 5⟩]⟩,
     ⟨⟨⟨"model-weights"⟩, ⟨"contiguous-cast"⟩, 1⟩, [.input 0],
      .prepare ⟨⟨⟨⟨"model-weights"⟩, ⟨"contiguous-cast"⟩, 1⟩, .contiguous .u8, .contiguous .u8⟩, 10, 0⟩⟩]
  output := .nodeOutput 1 0

def handBackGraph : OperationGraph := (OperationGraph.tryFrom handBackWire).toOption.get rfl

/-- A machine whose only provider reuses the source when the scalar type stays,
as the built-in contiguous provider does. -/
def contiguousHost : Host where
  preparation := ⟨fun _ => some
    { validate := fun request _ =>
        if request.transform.source.dtype = request.transform.target.dtype then .ok .reuseSource
        else .error (.unsupported "built-in contiguous conversion")
      prepareAllocated := fun _ _ _ _ =>
        .error (.unsupported "built-in contiguous conversion") }⟩
  avx2Available := false

/-- The execution reports the five bytes of the copy, which the estimate has
excluded with the ten bytes of the output. -/
theorem handBack_exceeds_estimate : ∃ r n,
    handBackGraph.executeHost contiguousHost [⟨List.replicate 10 7, false⟩] ⟨false⟩ = .ok r ∧
    handBackGraph.estimateHostScratchBytes = .ok n ∧ ¬r.peakScratchBytes ≤ n ∧
    handBackGraph.checkScratchEstimate r = .error (.failed (.integrity
      "operation graph exceeded its prevalidated scratch estimate")) :=
  ⟨⟨⟨List.replicate 10 7, false⟩, 5⟩, 0, rfl, rfl, by decide, rfl⟩

end ModelWeights.Graph
