import ModelWeights.Graph.Correct

/-! # The scratch estimate

`estimate_host_scratch_bytes` replays the schedule on the graph alone: every
`Prepare` output is charged as a new buffer. At run time a provider may hand its
source back, and then one buffer stands where the estimate has two, so the
estimate covers every moment of the execution (`Mirrors`). The two also subtract
the buffer of the graph output, and there they part when an external input comes
back through a `Prepare` node: the estimate subtracts a buffer that the execution
never charged. -/
namespace ModelWeights.Graph
open RefCount

/-! ## External inputs that come back -/

section Aliases
variable (graph : OperationGraph) (host : Host) (inputs : List ByteView)
  (cancellation : CancellationToken)

/-- The provider of a `Prepare` node hands a non-empty source back. -/
def handsBack (transform : PlannedTransform) (facts : TensorFacts) (source : ByteView) : Bool :=
  match host.preparation.prepareWithCancellation (prepareRequest transform facts source.bytes)
    cancellation with
  | .ok .reused => !source.bytes.isEmpty
  | _ => false

/-- The external input a value stands for, and whether a `Prepare` node handed
it back on the way. -/
structure InputAlias where
  input : Nat
  prepared : Bool
  deriving DecidableEq, Repr

def nodeAlias (aliases : ValueRef → Option InputAlias) (node : OperationNode) :
    Option InputAlias :=
  match graph.nodeOutputAliasInput node 0 with
  | some inputIndex => (node.inputs[inputIndex]?).bind aliases
  | none =>
    match node.operation, node.inputs with
    | .prepare transform, [value] => do
      let source ← aliases value
      let facts ← graph.facts value
      let view ← inputs[source.input]?
      if handsBack host cancellation transform facts view then some ⟨source.input, true⟩ else none
    | _, _ => none

def aliasNodes : Nat → List OperationNode → (ValueRef → Option InputAlias) →
    ValueRef → Option InputAlias
  | _, [], aliases => aliases
  | nodeIndex, node :: rest, aliases =>
    aliasNodes (nodeIndex + 1) rest (Function.update aliases (.nodeOutput nodeIndex 0)
      (nodeAlias graph host inputs cancellation aliases node))

def inputAliases : ValueRef → Option InputAlias
  | .input i => some ⟨i, false⟩
  | .nodeOutput _ _ => none

/-- The graph output is a non-empty external input that a `Prepare` node hands
back, possibly through reshapes and identity permutations. -/
def OperationGraph.handsInputBack : Bool :=
  match aliasNodes graph host inputs cancellation 0 graph.nodes inputAliases graph.output with
  | some source => source.prepared
  | none => false

end Aliases

/-- The check of the materializer after a graph execution. -/
def OperationGraph.checkScratchEstimate (graph : OperationGraph) (execution : HostExecution) :
    Exec Unit := do
  let estimatedScratch ← graph.estimateHostScratchBytes
  if execution.peakScratchBytes > estimatedScratch then
    .error (.failed (.integrity "operation graph exceeded its prevalidated scratch estimate"))
  else .ok ()

/-! ## What a node is charged -/

section Charge
variable {graph : OperationGraph} {host : Host} {cancellation : CancellationToken}

/-- How the origin of a node's output relates to the alias the graph shows. -/
def OriginMatches (graph : OperationGraph) (host : Host) (cancellation : CancellationToken)
    (view : ValueRef → Option ByteView) (node : OperationNode) (j : Nat) (p : ProducedValue) :
    Prop :=
  match graph.nodeOutputAliasInput node j with
  | some i => i = 0 ∧ j = 0 ∧ p.origin = .alias 0 ∧
      ∃ v, node.inputs = [v] ∧ view v = some p.bytes
  | none => p.origin = .fresh ∨ j = 0 ∧ p.origin = .alias 0 ∧ ∃ transform v f,
      node.operation = .prepare transform ∧ node.inputs = [v] ∧ graph.facts v = some f ∧
      view v = some p.bytes ∧
      (p.bytes.bytes ≠ [] → handsBack host cancellation transform f p.bytes = true)

structure NodeCharged (graph : OperationGraph) (host : Host) (cancellation : CancellationToken)
    (view : ValueRef → Option ByteView) (node : OperationNode) (ex : NodeExecution) : Prop where
  scratch : ex.transientScratch ≤ node.operation.plannedScratch
  origin : ∀ j p, ex.outputs[j]? = some p →
    OriginMatches graph host cancellation view node j p

theorem nodeCharged_fresh {view : ValueRef → Option ByteView} {node : OperationNode}
    {ex : NodeExecution} (hs : ex.transientScratch = 0)
    (ho : ∀ p ∈ ex.outputs, p.origin = .fresh)
    (hn : ∀ j, graph.nodeOutputAliasInput node j = none) :
    NodeCharged graph host cancellation view node ex := by
  refine ⟨by omega, fun j p hp => ?_⟩
  rw [OriginMatches, hn j]
  exact .inl (ho p (List.mem_of_getElem? hp))

theorem nodeCharged_alias {view : ValueRef → Option ByteView} {node : OperationNode}
    {v : ValueRef} {input : ByteView} (hin : node.inputs = [v]) (hv : view v = some input)
    (hn : graph.nodeOutputAliasInput node 0 = some 0) :
    NodeCharged graph host cancellation view node ⟨[⟨input, .alias 0⟩], 0⟩ := by
  refine ⟨Nat.zero_le _, fun j p hp => ?_⟩
  obtain ⟨hj, hp⟩ := List.getElem?_eq_some_iff.mp hp
  obtain rfl : j = 0 := by simpa using hj
  obtain rfl : ⟨input, .alias 0⟩ = p := hp
  rw [OriginMatches, hn]
  exact ⟨rfl, rfl, rfl, v, hin, hv⟩

theorem nodeCharged_prepare {view : ValueRef → Option ByteView} {node : OperationNode}
    {transform : PlannedTransform} {v : ValueRef} {input : ByteView} {f : TensorFacts}
    {ex : NodeExecution} (hop : node.operation = .prepare transform) (hin : node.inputs = [v])
    (hv : view v = some input) (hf : graph.facts v = some f)
    (hn : graph.nodeOutputAliasInput node 0 = none)
    (h : executePrepareNode host transform [input] [f] cancellation = .ok ex) :
    NodeCharged graph host cancellation view node ex := by
  obtain ⟨prepared, hp, rfl⟩ := executePrepareNode_eq h
  refine ⟨?_, fun j p hp' => ?_⟩
  · rw [hop]
    show (if sameView prepared input then 0 else transform.scratchBytes) ≤ transform.scratchBytes
    split <;> omega
  · obtain ⟨hj, hp'⟩ := List.getElem?_eq_some_iff.mp hp'
    obtain rfl : j = 0 := by simpa using hj
    obtain rfl : ⟨prepared.view input, _⟩ = p := hp'
    rw [OriginMatches, hn]
    cases hr : sameView prepared input with
    | false => exact .inl rfl
    | true =>
      rw [sameView_eq hr]
      refine .inr ⟨rfl, rfl, transform, v, f, hop, hin, hf, hv, fun hne => ?_⟩
      -- a buffer with bytes is the same only if it was handed back
      cases prepared with
      | reused => simpa [handsBack, hp] using hne
      | owned output =>
        simp only [sameView, Bool.and_eq_true, List.isEmpty_iff] at hr
        exact absurd hr.1.2 hne

theorem aliasInput_none {node : OperationNode} (hr : ∀ shape, node.operation ≠ .reshape shape)
    (hp : ∀ permute, node.operation ≠ .permute permute) (j : Nat) :
    graph.nodeOutputAliasInput node j = none := by
  unfold OperationGraph.nodeOutputAliasInput
  split
  · rfl
  · split
    · split
      · next hop => exact absurd hop (hr _)
      · next hop => exact absurd hop (hp _)
      · rfl
    · rfl

theorem aliasInput_permute {node : OperationNode} {permute : Permute} {v : ValueRef}
    {f o : TensorFacts} (hop : node.operation = .permute permute) (hin : node.inputs = [v])
    (ho : node.outputs = [o]) (hf : graph.facts v = some f) (j : Nat) :
    graph.nodeOutputAliasInput node j =
      if j = 0 ∧ isIdentityPermutation permute f o = true then some 0 else none := by
  by_cases hj : j = 0
  · subst hj
    simp [OperationGraph.nodeOutputAliasInput, hin, ho, hop, hf, isIdentityPermutation]
  · simp [OperationGraph.nodeOutputAliasInput, hj]

theorem executeNode_charged {view : ValueRef → Option ByteView} {node : OperationNode}
    {views : List ByteView} {fs : List TensorFacts} {ex : NodeExecution}
    (hviews : List.Forall₂ (fun v bv => view v = some bv) node.inputs views)
    (hfacts : List.Forall₂ (fun v f => graph.facts v = some f) node.inputs fs)
    (hinfer : inferOutputs node.operation fs = .ok node.outputs)
    (h : executeNode host node views fs cancellation = .ok ex) :
    NodeCharged graph host cancellation view node ex := by
  obtain ⟨_, h⟩ := unless_error_ok h
  have hunary : ∀ {g}, (oneInput fs >>= g) = .ok node.outputs →
      ∃ v f input, node.inputs = [v] ∧ fs = [f] ∧ views = [input] ∧ view v = some input ∧
        graph.facts v = some f ∧ g f = .ok node.outputs := by
    intro g hg
    obtain ⟨f, rfl, hg⟩ := oneInput_ok hg
    obtain ⟨v, _, hf, hnil, hin⟩ := List.forall₂_cons_right_iff.mp hfacts
    obtain rfl := List.forall₂_nil_right_iff.mp hnil
    rw [hin] at hviews
    obtain ⟨input, _, hv, hnil, rfl⟩ := List.forall₂_cons_left_iff.mp hviews
    obtain rfl := List.forall₂_nil_left_iff.mp hnil
    exact ⟨v, f, input, hin, rfl, rfl, hv, hf, hg⟩
  have hnone : ∀ {n}, FreshExecution ex n → (∀ j, graph.nodeOutputAliasInput node j = none) →
      NodeCharged graph host cancellation view node ex := fun hf hn =>
    nodeCharged_fresh hf.scratch hf.origin hn
  cases hop : node.operation with
  | concat axis =>
    rw [hop] at hinfer h
    obtain ⟨o, ho, _⟩ := inferConcat_ok hinfer
    dsimp only at h
    rw [ho] at h
    exact hnone (executeConcatNode_fresh h) (aliasInput_none (by simp [hop]) (by simp [hop]))
  | permute permute =>
    rw [hop] at hinfer h
    obtain ⟨v, f, input, hin, rfl, rfl, hv, hf, hg⟩ := hunary hinfer
    obtain ⟨o, ho, _⟩ := inferPermute_ok hg
    dsimp only at h
    rw [ho] at h
    have hcond := aliasInput_permute hop hin ho hf
    rcases executePermuteNode_cases h with ⟨hid, rfl⟩ | ⟨hid, hfresh⟩
    · exact nodeCharged_alias hin hv (by rw [hcond 0, if_pos ⟨rfl, hid⟩])
    · exact hnone hfresh fun j => by rw [hcond j, if_neg (by simp [hid])]
  | pad pad =>
    rw [hop] at hinfer h
    obtain ⟨v, f, input, hin, rfl, rfl, hv, hf, hg⟩ := hunary hinfer
    obtain ⟨o, ho, _⟩ := inferPad_ok hg
    dsimp only at h
    rw [ho] at h
    exact hnone (executePadNode_fresh h) (aliasInput_none (by simp [hop]) (by simp [hop]))
  | slice ranges =>
    rw [hop] at hinfer h
    obtain ⟨v, f, input, hin, rfl, rfl, hv, hf, hg⟩ := hunary hinfer
    obtain ⟨o, ho, _⟩ := inferSlice_ok hg
    dsimp only at h
    rw [ho] at h
    exact hnone (executeSliceNode_fresh h) (aliasInput_none (by simp [hop]) (by simp [hop]))
  | split split =>
    rw [hop] at hinfer h
    obtain ⟨v, f, input, hin, rfl, rfl, hv, hf, hg⟩ := hunary hinfer
    exact hnone (executeSplitNode_fresh (inferSplit_ok hg).2 h)
      (aliasInput_none (by simp [hop]) (by simp [hop]))
  | reshape shape =>
    rw [hop] at hinfer h
    obtain ⟨v, f, input, hin, rfl, rfl, hv, hf, hg⟩ := hunary hinfer
    obtain ⟨_, o, ho, _⟩ := inferReshape_ok hg
    obtain rfl := executeReshapeNode_eq h
    refine nodeCharged_alias hin hv ?_
    simp [OperationGraph.nodeOutputAliasInput, hin, ho, hop]
  | prepare transform =>
    rw [hop] at hinfer h
    obtain ⟨v, f, input, hin, rfl, rfl, hv, hf, hg⟩ := hunary hinfer
    exact nodeCharged_prepare hop hin hv hf (aliasInput_none (by simp [hop]) (by simp [hop]) 0) h

/-- What running a node says about its charges. -/
theorem runNode_charged {k : Nat} {view : ValueRef → Option ByteView} {node : OperationNode}
    {ex : NodeExecution} (hk : graph.nodes[k]? = some node)
    (h : runNode graph host cancellation view node = .ok ex) :
    NodeCharged graph host cancellation view node ex := by
  obtain ⟨_, _, h⟩ := bind_ok h
  obtain ⟨_, _, h⟩ := bind_ok h
  obtain ⟨views, hviews, h⟩ := bind_ok h
  obtain ⟨fs, hfs, h⟩ := bind_ok h
  obtain ⟨ex', hex, h⟩ := bind_ok h
  obtain ⟨_, h⟩ := unless_error_ok h
  obtain ⟨_, _, h⟩ := bind_ok h
  obtain rfl := Except.ok.inj h
  obtain ⟨fs', hfs', hinfer⟩ := graph_inputFacts hk
  obtain rfl : fs' = fs := Except.ok.inj (hfs'.symm.trans hfs)
  exact executeNode_charged ((mapM_ok_forall₂ hviews).imp fun _ _ => orFault_eq_ok.mp)
    ((mapM_ok_forall₂ hfs).imp fun _ _ => orFault_eq_ok.mp) hinfer (lift_eq_ok.mp hex)

end Charge

/-! ## Two schedules of one graph -/

/-- The values that live on `e` are those of `s`. Values that share a buffer on `e`
share one on `s`, of the same size; a value that has a buffer on `e` alone has `P`
or an empty buffer. -/
structure Mirrors (P : ValueRef → Prop) (s e : LivenessSchedule) : Prop where
  live : ∀ v, (e.values v).isSome = (s.values v).isSome
  uses : ∀ v, e.uses v = s.uses v
  external : ∀ v, e.owner v = none → s.owner v = none
  shared : ∀ v w a, e.owner v = some a → e.owner w = some a → s.owner v = s.owner w
  sized : ∀ v a b, e.owner v = some a → s.owner v = some b →
    (e.allocations a).map LiveAllocation.bytes = (s.allocations b).map LiveAllocation.bytes
  lost : ∀ v a, e.owner v = some a → s.owner v = none →
    P v ∨ (e.allocations a).map LiveAllocation.bytes = some 0

section Mirrors
variable {P : ValueRef → Prop} {s e s' e' : LivenessSchedule} {vals vals' : List ValueRef}
  {v : ValueRef}

/-- The live buffers of `s` are covered by distinct live buffers of `e`. -/
theorem Mirrors.live_le (h : Mirrors P s e) (hs : Accounted vals s) (he : Accounted vals' e) :
    s.liveBytes ≤ e.liveBytes := by
  have hex : ∀ b, ∃ a, ∀ x, s.allocations b = some x →
      ∃ v, s.owner v = some b ∧ e.owner v = some a := by
    intro b
    cases hb : s.allocations b with
    | none => exact ⟨0, fun x hx => by cases hx⟩
    | some x =>
      obtain ⟨v, _, hv⟩ := hs.owned hb
      cases ha : e.owner v with
      | none => rw [h.external v ha] at hv; cases hv
      | some a => exact ⟨a, fun _ _ => ⟨v, hv, ha⟩⟩
  choose g hg using hex
  rw [hs.live, he.live]
  refine total_le_of_injOn g ?_ ?_
  · intro b x _ hx
    obtain ⟨v, hv, ha⟩ := hg b x hx
    obtain ⟨y, hy⟩ := he.recorded ha
    have hsize := h.sized v _ b ha hv
    rw [hx, hy] at hsize
    exact ⟨he.lt_next hy, y, hy, Nat.le_of_eq (Option.some.inj hsize).symm⟩
  · intro b b' hb hb' heq
    obtain ⟨x, hx⟩ := Option.isSome_iff_exists.mp hb
    obtain ⟨x', hx'⟩ := Option.isSome_iff_exists.mp hb'
    obtain ⟨v, hv, ha⟩ := hg b x hx
    obtain ⟨v', hv', ha'⟩ := hg b' x' hx'
    have := h.shared v v' (g b) ha (heq ▸ ha')
    rw [hv, hv'] at this
    exact Option.some.inj this

/-- A value was added, on the buffer `y` if there is one. -/
structure Extends (s s' : LivenessSchedule) (v : ValueRef) (y : Option Nat) : Prop where
  values : s'.values = Function.update s.values v (some ⟨y⟩)
  uses : s'.remainingUses = s.remainingUses
  bytes : ∀ a x, s.allocations a = some x →
    (s'.allocations a).map LiveAllocation.bytes = some x.bytes

theorem Inserted.extends {y : Option Nat} (h : Inserted s s' v y) : Extends s s' v y :=
  ⟨h.values, h.uses, fun a x hx => by rw [h.bytes a, hx]; rfl⟩

theorem InsertedFresh.extends {n : Nat} (hs : Accounted vals s) (h : InsertedFresh s s' v n) :
    Extends s s' v (some s.nextAllocation) := by
  refine ⟨h.values, h.uses, fun a x hx => ?_⟩
  have hlt := hs.lt_next hx
  rw [h.allocations, Function.update_of_ne (by omega), hx]
  rfl

theorem Extends.owner {y : Option Nat} (h : Extends s s' v y) :
    s'.owner = Function.update s.owner v y := owner_update h.values

theorem Extends.bytes_owner {y : Option Nat} (h : Extends s s' v y) (hs : Accounted vals s)
    {w : ValueRef} {a : Nat} (hw : s.owner w = some a) :
    (s'.allocations a).map LiveAllocation.bytes = (s.allocations a).map LiveAllocation.bytes := by
  obtain ⟨x, hx⟩ := hs.recorded hw
  rw [h.bytes a x hx, hx]
  rfl

theorem Mirrors.extend {x y : Option Nat} (h : Mirrors P s e) (hs : Accounted vals s)
    (he : Accounted vals' e) (hv : s.values v = none) (hes : Extends s s' v y)
    (hee : Extends e e' v x) (hnone : x = none → y = none)
    (hshared : ∀ a w, x = some a → e.owner w = some a → s.owner w = y)
    (hsized : ∀ a b, x = some a → y = some b →
      (e'.allocations a).map LiveAllocation.bytes = (s'.allocations b).map LiveAllocation.bytes)
    (hlost : ∀ a, x = some a → y = none →
      P v ∨ (e'.allocations a).map LiveAllocation.bytes = some 0) : Mirrors P s' e' := by
  refine ⟨?_, ?_, ?_, ?_, ?_, ?_⟩
  · intro w
    rw [hes.values, hee.values]
    by_cases hw : w = v
    · subst hw; simp
    · rw [Function.update_of_ne hw, Function.update_of_ne hw]
      exact h.live w
  · intro w
    rw [LivenessSchedule.uses, LivenessSchedule.uses, hes.uses, hee.uses]
    exact h.uses w
  · intro w hw
    rw [hes.owner]
    rw [hee.owner] at hw
    by_cases hwv : w = v
    · subst hwv
      rw [Function.update_self] at hw ⊢
      exact hnone hw
    · rw [Function.update_of_ne hwv] at hw ⊢
      exact h.external w hw
  · intro w u a hw hu
    rw [hee.owner] at hw hu
    rw [hes.owner]
    by_cases hwv : w = v <;> by_cases huv : u = v
    · rw [hwv, huv]
    · subst hwv
      rw [Function.update_self] at hw ⊢
      rw [Function.update_of_ne huv] at hu ⊢
      exact (hshared a u hw hu).symm
    · subst huv
      rw [Function.update_self] at hu ⊢
      rw [Function.update_of_ne hwv] at hw ⊢
      exact hshared a w hu hw
    · rw [Function.update_of_ne hwv] at hw ⊢
      rw [Function.update_of_ne huv] at hu ⊢
      exact h.shared w u a hw hu
  · intro w a b hw hb
    rw [hee.owner] at hw
    rw [hes.owner] at hb
    by_cases hwv : w = v
    · subst hwv
      rw [Function.update_self] at hw hb
      exact hsized a b hw hb
    · rw [Function.update_of_ne hwv] at hw hb
      rw [hee.bytes_owner he hw, hes.bytes_owner hs hb]
      exact h.sized w a b hw hb
  · intro w a hw hb
    rw [hee.owner] at hw
    rw [hes.owner] at hb
    by_cases hwv : w = v
    · subst hwv
      rw [Function.update_self] at hw hb
      exact hlost a hw hb
    · rw [Function.update_of_ne hwv] at hw hb
      rw [hee.bytes_owner he hw]
      exact h.lost w a hw hb

/-- A value may have been removed; buffers that remain keep their size. -/
structure Shrinks (s s' : LivenessSchedule) (v : ValueRef) (last : Bool) : Prop where
  values : s'.values = if last then Function.update s.values v none else s.values
  bytes : ∀ a x, s'.allocations a = some x →
    (s.allocations a).map LiveAllocation.bytes = some x.bytes

theorem Shrinks.owner {last : Bool} (h : Shrinks s s' v last) (w : ValueRef) :
    s'.owner w = if last = true ∧ w = v then none else s.owner w := by
  rw [LivenessSchedule.owner, h.values]
  cases last with
  | false => simp [LivenessSchedule.owner]
  | true =>
    by_cases hw : w = v
    · subst hw; simp
    · simp [hw, LivenessSchedule.owner]

theorem Shrinks.owner_some {last : Bool} (h : Shrinks s s' v last) (hs : Accounted vals s')
    {w : ValueRef} {a : Nat} (hw : s'.owner w = some a) : ¬(last = true ∧ w = v) ∧
      s.owner w = some a ∧ (s'.allocations a).map LiveAllocation.bytes =
        (s.allocations a).map LiveAllocation.bytes := by
  obtain ⟨x, hx⟩ := hs.recorded hw
  rw [h.bytes a x hx, hx]
  rw [h.owner w] at hw
  split at hw
  · cases hw
  · next hn => exact ⟨hn, hw, rfl⟩

theorem Mirrors.shrink {last : Bool} (h : Mirrors P s e) (hs : Accounted vals s')
    (he : Accounted vals' e') (hss : Shrinks s s' v last) (hse : Shrinks e e' v last)
    (huses : ∀ w, e'.uses w = s'.uses w) : Mirrors P s' e' := by
  refine ⟨?_, huses, ?_, ?_, ?_, ?_⟩
  · intro w
    rw [hss.values, hse.values]
    cases last with
    | false => exact h.live w
    | true =>
      by_cases hw : w = v
      · subst hw; simp
      · simpa [Function.update_of_ne hw] using h.live w
  · intro w hw
    rw [hss.owner]
    rw [hse.owner] at hw
    split
    · rfl
    · next hn =>
      rw [if_neg hn] at hw
      exact h.external w hw
  · intro w u a hw hu
    obtain ⟨hnw, hw, _⟩ := hse.owner_some he hw
    obtain ⟨hnu, hu, _⟩ := hse.owner_some he hu
    rw [hss.owner, hss.owner, if_neg hnw, if_neg hnu]
    exact h.shared w u a hw hu
  · intro w a b hw hb
    obtain ⟨_, hw, hbe⟩ := hse.owner_some he hw
    obtain ⟨_, hb, hbs⟩ := hss.owner_some hs hb
    rw [hbe, hbs]
    exact h.sized w a b hw hb
  · intro w a hw hb
    obtain ⟨hn, hw, hbe⟩ := hse.owner_some he hw
    rw [hss.owner, if_neg hn] at hb
    rw [hbe]
    exact h.lost w a hw hb

end Mirrors

end ModelWeights.Graph
