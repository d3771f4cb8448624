import ModelWeights.Plan.Selection

/-! # What the resolver reports

Every match and every diagnostic of a resolution, in terms of the sources and
targets of a builder rather than of their positions. -/
namespace ModelWeights.Plan
open ModelWeights.Graph Canonical

/-! ## Matches -/

/-- No other target has its name. -/
def Unrepeated (targets : List TargetTensor) (target : TargetTensor) : Prop :=
  (targets.filter fun t => t.name = target.name).length ≤ 1

/-- A target that is planned, and what is selected for it. -/
def Binds (inputs : PlanInputs) (sources : List SourceTensor) (targets : List TargetTensor)
    (target : TargetTensor) (selected : List SourceTensor) : Prop :=
  target ∈ targets ∧ Unrepeated targets target ∧
    (select inputs sources target).matched = some selected

/-- A source that is selected for a target. -/
def UsedBy (inputs : PlanInputs) (sources : List SourceTensor) (targets : List TargetTensor)
    (source : SourceTensor) (target : TargetTensor) : Prop :=
  ∃ selected, Binds inputs sources targets target selected ∧ source ∈ selected

section Matches
variable {inputs : PlanInputs} {sources : List SourceTensor} {targets : List TargetTensor}

theorem unrepeated_iff {target : TargetTensor} :
    ¬(indicesOf (groupNames (targets.map TargetTensor.name)) target.name).length > 1 ↔
      Unrepeated targets target := by
  rw [indicesOf_groupNames, positions_map, length_positions, Unrepeated, Nat.not_lt]

/-- The position of an unrepeated target is determined by its name. -/
theorem Unrepeated.index_eq {target t : TargetTensor} (h : Unrepeated targets target) {i j : Nat}
    (hi : targets[i]? = some target) (hj : targets[j]? = some t) (hname : t.name = target.name) :
    i = j := by
  rw [Unrepeated, ← length_positions] at h
  have hi' : i ∈ positions (fun t => t.name = target.name) targets :=
    mem_positions.mpr ⟨target, hi, by simp⟩
  have hj' : j ∈ positions (fun t => t.name = target.name) targets :=
    mem_positions.mpr ⟨t, hj, by simpa using hname⟩
  match hp : positions (fun t => t.name = target.name) targets with
  | [] => rw [hp] at hi'; cases hi'
  | [k] =>
    rw [hp] at hi' hj'
    rw [List.mem_singleton.mp hi', List.mem_singleton.mp hj']
  | _ :: _ :: _ => rw [hp] at h; simp at h

variable (inputs sources targets)

/-- The loop over the targets. -/
def resolveLoop (order : List (TargetTensor × Nat)) (p : Progress) : Progress :=
  order.foldl (resolveStep inputs sources (groupNames (sources.map SourceTensor.name))
    (groupNames (targets.map TargetTensor.name))) p

variable {inputs sources targets}

theorem mem_resolveLoop_diagnostics {d : PlanDiagnostic} :
    ∀ {order : List (TargetTensor × Nat)} {p : Progress},
      d ∈ (resolveLoop inputs sources targets order p).diagnostics ↔
        d ∈ p.diagnostics ∨ ∃ e ∈ order, Unrepeated targets e.1 ∧
          d ∈ (select inputs sources e.1).diagnostics
  | [], p => by simp [resolveLoop]
  | e :: order, p => by
    rw [resolveLoop, List.foldl_cons, ← resolveLoop, mem_resolveLoop_diagnostics, resolveStep]
    have hu := @unrepeated_iff targets e.1
    have hd := (@resolveTarget_agrees inputs sources e.1).diagnostics
    split
    · next hrep =>
      have hnot : ¬Unrepeated targets e.1 := fun h => hu.mpr h hrep
      simp [hnot]
    · next hrep =>
      simp [hu.mp hrep, hd, or_assoc]

theorem get?_resolveLoop {i : Nat} {indices : List Nat} :
    ∀ {order : List (TargetTensor × Nat)} {p : Progress}, (order.map Prod.snd).Nodup →
      (∀ e ∈ order, p.matched.get? e.2 = none) →
      ((resolveLoop inputs sources targets order p).matched.get? i = some indices ↔
        p.matched.get? i = some indices ∨ ∃ target, (target, i) ∈ order ∧
          Unrepeated targets target ∧ (resolveTarget inputs sources
            (groupNames (sources.map SourceTensor.name)) target).matched = some indices)
  | [], p, _, _ => by simp [resolveLoop]
  | (t, k) :: order, p, hn, hnew => by
    rw [List.map_cons, List.nodup_cons] at hn
    rw [resolveLoop, List.foldl_cons, ← resolveLoop]
    have hu := @unrepeated_iff targets t
    have hk : ∀ target, (target, k) ∉ order := fun target h =>
      hn.1 (List.mem_map.mpr ⟨_, h, rfl⟩)
    have hnone := hnew (t, k) (List.mem_cons_self ..)
    have hrest : ∀ e ∈ order, p.matched.get? e.2 = none := fun e he =>
      hnew e (List.mem_cons_of_mem _ he)
    unfold resolveStep
    split
    · next hrep =>
      have hnot : ¬Unrepeated targets t := fun h => hu.mpr h hrep
      rw [get?_resolveLoop hn.2 hrest]
      refine or_congr_right (exists_congr fun target => ?_)
      rw [List.mem_cons]
      constructor
      · exact fun h => ⟨.inr h.1, h.2⟩
      · rintro ⟨he | hm, h⟩
        · obtain ⟨rfl, rfl⟩ := Prod.mk.inj he
          exact absurd h.1 hnot
        · exact ⟨hm, h⟩
    · next hrep =>
      have hunrep := hu.mp hrep
      cases ho : (resolveTarget inputs sources (groupNames (sources.map SourceTensor.name))
          t).matched with
      | none =>
        rw [get?_resolveLoop hn.2 (by simpa [ho] using hrest)]
        simp only [ho]
        refine or_congr_right (exists_congr fun target => ?_)
        rw [List.mem_cons]
        constructor
        · exact fun h => ⟨.inr h.1, h.2⟩
        · rintro ⟨he | hm, h⟩
          · obtain ⟨rfl, rfl⟩ := Prod.mk.inj he
            rw [ho] at h
            cases h.2
          · exact ⟨hm, h⟩
      | some found =>
        have hnew' : ∀ e ∈ order, (p.matched.insert k found).get? e.2 = none := by
          intro e he
          rw [OrderedMap.get?_insert, if_neg, hrest e he]
          rintro rfl
          exact hk e.1 he
        simp only [ho]
        rw [get?_resolveLoop hn.2 hnew', OrderedMap.get?_insert]
        by_cases hik : i = k
        · subst hik
          rw [if_pos rfl, hnone]
          constructor
          · rintro (h | ⟨target, hm, _⟩)
            · obtain rfl := Option.some.inj h
              exact .inr ⟨t, List.mem_cons_self .., hunrep, ho⟩
            · exact absurd hm (hk target)
          · rintro (h | ⟨target, hm, _, h⟩)
            · cases h
            · rcases List.mem_cons.mp hm with he | hm
              · obtain ⟨rfl, _⟩ := Prod.mk.inj he
                exact .inl (ho.symm.trans h)
              · exact absurd hm (hk target)
        · rw [if_neg hik]
          refine or_congr_right (exists_congr fun target => and_congr_left fun _ => ?_)
          rw [List.mem_cons]
          refine ⟨.inr, fun h => h.resolve_left fun he => hik (Prod.mk.inj he).2⟩

/-- What is matched with the target at a position. -/
theorem get?_matched {sort : KeySort TensorName} {policy : ExtraSourcePolicy} {i : Nat}
    {indices : List Nat} :
    (resolveBindings inputs sources sort targets policy).matched.get? i = some indices ↔
      ∃ target, targets[i]? = some target ∧ Unrepeated targets target ∧
        (resolveTarget inputs sources (groupNames (sources.map SourceTensor.name))
          target).matched = some indices := by
  have hnodup : ((sort.sort (fun e => e.1.name) targets.zipIdx).map Prod.snd).Nodup := by
    rw [((sort.perm (fun e => e.1.name) targets.zipIdx).map Prod.snd).nodup_iff,
      List.zipIdx_map_snd]
    exact List.nodup_range'
  show (resolveLoop inputs sources targets _ _).matched.get? i = some indices ↔ _
  rw [get?_resolveLoop hnodup fun _ _ => rfl]
  simp only [KeySort.mem, List.mem_zipIdx_iff_getElem?]
  exact or_iff_right (by simp [OrderedMap.get?, OrderedMap.empty, OrderedMap.find])

/-- A matched position is a target with its sources. -/
theorem exists_get?_matched {sort : KeySort TensorName} {policy : ExtraSourcePolicy} {j : Nat}
    {source : SourceTensor} (hj : sources[j]? = some source) {target : TargetTensor} :
    (∃ i indices, targets[i]? = some target ∧
      (resolveBindings inputs sources sort targets policy).matched.get? i = some indices ∧
        j ∈ indices) ↔ UsedBy inputs sources targets source target := by
  have hagrees := @resolveTarget_agrees inputs sources target
  constructor
  · rintro ⟨i, indices, hi, hm, hmem⟩
    obtain ⟨t, ht, hu, ho⟩ := get?_matched.mp hm
    obtain rfl : target = t := Option.some.inj (hi.symm.trans ht)
    obtain ⟨selected, hsel, hin⟩ := (hagrees.mem_iff ho hj).mp hmem
    exact ⟨selected, ⟨List.mem_of_getElem? hi, hu, hsel⟩, hin⟩
  · rintro ⟨selected, ⟨hmem, hu, hsel⟩, hin⟩
    obtain ⟨i, hi⟩ := List.mem_iff_getElem?.mp hmem
    have hmatched := hagrees.matched
    rw [hsel] at hmatched
    obtain ⟨indices, ho, _⟩ := Option.map_eq_some_iff.mp hmatched.symm
    exact ⟨i, indices, hi, get?_matched.mpr ⟨target, hi, hu, ho⟩,
      (hagrees.mem_iff ho hj).mpr ⟨selected, hsel, hin⟩⟩

end Matches

/-! ## Reuse -/

/-- The positions of the targets a source is matched with. -/
theorem getD_reusedBy (m : OrderedMap Nat (List Nat)) (s : Nat) :
    ((reusedBy m).get? s).getD [] = (m.entries.filter fun e => s ∈ e.2).map Prod.fst := by
  have hinner : ∀ (l : List Nat) (acc : OrderedMap Nat (List Nat)) (i : Nat), l.Nodup →
      ((l.foldl (fun m source => pushEntry m source i) acc).get? s).getD [] =
        (acc.get? s).getD [] ++ if s ∈ l then [i] else [] := by
    intro l
    induction l with
    | nil => intro acc i _; simp
    | cons a l ih =>
      intro acc i hn
      rw [List.nodup_cons] at hn
      rw [List.foldl_cons, ih _ _ hn.2, get?_pushEntry, List.append_assoc]
      congr 1
      by_cases h : s = a
      · subst h
        simp [hn.1]
      · simp [h]
  have houter : ∀ (l : List (Nat × List Nat)) (acc : OrderedMap Nat (List Nat)),
      ((l.foldl (fun m e => (sortDedup e.2).foldl (fun m source => pushEntry m source e.1) m)
        acc).get? s).getD [] =
        (acc.get? s).getD [] ++ (l.filter fun e => s ∈ e.2).map Prod.fst := by
    intro l
    induction l with
    | nil => intro acc; simp
    | cons e l ih =>
      intro acc
      rw [List.foldl_cons, ih, hinner _ _ _ ((pairwise_sortDedup e.2).imp ne_of_lt),
        List.append_assoc, List.filter_cons]
      congr 1
      by_cases h : s ∈ e.2 <;> simp [h]
  exact (houter m.entries .empty).trans (List.nil_append _)

theorem commonGroup_iff {users : List TargetTensor} :
    commonGroup users = true ↔
      users ≠ [] ∧ ∃ group, ∀ user ∈ users, user.sharedSourceGroup = some group := by
  cases users with
  | nil => simp [commonGroup]
  | cons user rest =>
    simp only [commonGroup, Bool.and_eq_true, List.all_eq_true, decide_eq_true_eq]
    constructor
    · rintro ⟨hsome, hall⟩
      obtain ⟨group, hg⟩ := Option.isSome_iff_exists.mp hsome
      refine ⟨List.cons_ne_nil _ _, group, fun u hu => ?_⟩
      rcases List.mem_cons.mp hu with rfl | hu
      · exact hg
      · rw [hall u hu, hg]
    · rintro ⟨_, group, hall⟩
      have hg := hall user (List.mem_cons_self ..)
      refine ⟨by rw [hg]; rfl, fun u hu => ?_⟩
      rw [hg, hall u (List.mem_cons_of_mem _ hu)]

theorem two_le_length_iff {α : Type} {l : List α} (h : l.Nodup) :
    2 ≤ l.length ↔ ∃ a ∈ l, ∃ b ∈ l, a ≠ b := by
  match l, h with
  | [], _ => simp
  | [a], _ => simp
  | a :: b :: l, h =>
    have hab : a ≠ b := fun he => (List.nodup_cons.mp h).1 (he ▸ List.mem_cons_self ..)
    exact ⟨fun _ => ⟨a, by simp, b, by simp, hab⟩, fun _ => by simp⟩

section Reuse
variable (inputs : PlanInputs) (sources : List SourceTensor) (targets : List TargetTensor)

/-- A diagnostic about a source that two targets share without a common group. -/
def Conflict (source : SourceTensor) (d : PlanDiagnostic) : Prop :=
  ∃ target other, UsedBy inputs sources targets source target ∧
    UsedBy inputs sources targets source other ∧ target ≠ other ∧
    (¬∃ group, ∀ user, UsedBy inputs sources targets source user →
      user.sharedSourceGroup = some group) ∧
    ∃ related, (∀ n, n ∈ related ↔
        ∃ user, UsedBy inputs sources targets source user ∧ user.name = n) ∧
      d = .new .error .conflictingSourceReuse target.name related
        ("source " ++ source.name.text ++ " is shared without one explicit tied-weight group")

variable {inputs sources targets}

/-- The targets at the positions a source is matched with. -/
theorem users_spec {sort : KeySort TensorName} {policy : ExtraSourcePolicy} {j : Nat}
    {source : SourceTensor} (hj : sources[j]? = some source)
    {matched : OrderedMap Nat (List Nat)}
    (hm : matched = (resolveBindings inputs sources sort targets policy).matched) :
    let users := (((reusedBy matched).get? j).getD []).filterMap fun index => targets[index]?
    users.Nodup ∧ ∀ target, target ∈ users ↔ UsedBy inputs sources targets source target := by
  subst hm
  rw [getD_reusedBy]
  generalize hmatched : (resolveBindings inputs sources sort targets policy).matched = matched
  have hmem : ∀ i, i ∈ (matched.entries.filter fun e => j ∈ e.2).map Prod.fst ↔
      ∃ indices, matched.get? i = some indices ∧ j ∈ indices := by
    intro i
    simp only [List.mem_map, List.mem_filter, decide_eq_true_eq, Prod.exists, exists_and_right,
      exists_eq_right, OrderedMap.get?_eq_some]
  constructor
  · have hnodup : ((matched.entries.filter fun e => j ∈ e.2).map Prod.fst).Nodup :=
      (List.filter_sublist.map Prod.fst).nodup matched.nodup_keys
    rw [List.nodup_iff_pairwise_ne] at hnodup ⊢
    rw [List.pairwise_filterMap]
    refine hnodup.imp_of_mem fun {a b} ha _ hne t ht t' ht' he => ?_
    subst he
    obtain ⟨indices, hget, _⟩ := (hmem a).mp ha
    rw [← hmatched] at hget
    obtain ⟨target, htarget, hu, _⟩ := get?_matched.mp hget
    obtain rfl : t = target := Option.some.inj (ht.symm.trans htarget)
    exact hne (hu.index_eq ht ht' rfl)
  · intro target
    rw [← exists_get?_matched hj, hmatched]
    simp only [List.mem_filterMap, hmem]
    constructor
    · rintro ⟨i, ⟨indices, hget, hin⟩, hi⟩
      exact ⟨i, indices, hi, hget, hin⟩
    · rintro ⟨i, indices, hi, hget, hin⟩
      exact ⟨i, ⟨indices, hget, hin⟩, hi⟩

theorem mem_reuseDiagnostics {sort : KeySort TensorName} {policy : ExtraSourcePolicy}
    {d : PlanDiagnostic} {matched : OrderedMap Nat (List Nat)}
    (hm : matched = (resolveBindings inputs sources sort targets policy).matched) :
    d ∈ (reusedBy matched).entries.flatMap (fun e => reuseDiagnostics sources targets e.1 e.2) ↔
      ∃ source ∈ sources, Conflict inputs sources targets source d := by
  have hentries : d ∈ (reusedBy matched).entries.flatMap
      (fun e => reuseDiagnostics sources targets e.1 e.2) ↔ ∃ j,
        d ∈ reuseDiagnostics sources targets j (((reusedBy matched).get? j).getD []) := by
    rw [List.mem_flatMap]
    constructor
    · rintro ⟨⟨j, users⟩, he, hd⟩
      refine ⟨j, ?_⟩
      rw [OrderedMap.get?_eq_some.mpr he]
      exact hd
    · rintro ⟨j, hd⟩
      cases hg : (reusedBy matched).get? j with
      | none => rw [hg] at hd; simp [reuseDiagnostics] at hd
      | some users =>
        rw [hg] at hd
        exact ⟨(j, users), OrderedMap.get?_eq_some.mp hg, hd⟩
  rw [hentries]
  have hspec : ∀ {j : Nat} {source : SourceTensor}, sources[j]? = some source →
      (d ∈ reuseDiagnostics sources targets j (((reusedBy matched).get? j).getD []) ↔
        Conflict inputs sources targets source d) := by
    intro j source hj
    obtain ⟨hnodup, husers⟩ := users_spec hj hm
    unfold reuseDiagnostics
    simp only [hj]
    generalize (((reusedBy matched).get? j).getD []).filterMap (fun index => targets[index]?) =
      users at hnodup husers
    have hgroup : commonGroup users = true ↔
        users ≠ [] ∧ ∃ group, ∀ user, UsedBy inputs sources targets source user →
          user.sharedSourceGroup = some group := by
      simp only [commonGroup_iff, husers]
    constructor
    · intro hd
      split at hd
      · cases hd
      · next hcond =>
        rw [not_or, Nat.not_lt, two_le_length_iff hnodup, hgroup] at hcond
        obtain ⟨target, ht, rfl⟩ := List.mem_map.mp hd
        obtain ⟨⟨a, ha, b, hb, hab⟩, hnone⟩ := hcond
        have hne : users ≠ [] := List.ne_nil_of_mem ht
        obtain ⟨other, ho, hdiff⟩ : ∃ other ∈ users, target ≠ other := by
          by_cases h : target = a
          · exact ⟨b, hb, h ▸ hab⟩
          · exact ⟨a, ha, h⟩
        refine ⟨target, other, (husers _).mp ht, (husers _).mp ho, hdiff,
          fun h => hnone ⟨hne, h⟩, users.map TargetTensor.name, fun n => ?_, rfl⟩
        simp only [List.mem_map, husers]
    · rintro ⟨target, other, ht, ho, hne, hnone, related, hrel, rfl⟩
      rw [if_neg]
      · refine List.mem_map.mpr ⟨target, (husers _).mpr ht, PlanDiagnostic.new_congr fun n => ?_⟩
        rw [hrel]
        simp only [List.mem_map, husers]
      · rw [not_or, Nat.not_lt, two_le_length_iff hnodup, hgroup]
        exact ⟨⟨target, (husers _).mpr ht, other, (husers _).mpr ho, hne⟩, fun h => hnone h.2⟩
  constructor
  · rintro ⟨j, hd⟩
    cases hj : sources[j]? with
    | none =>
      unfold reuseDiagnostics at hd
      simp only [hj] at hd
      split at hd <;> cases hd
    | some source => exact ⟨source, List.mem_of_getElem? hj, (hspec hj).mp hd⟩
  · rintro ⟨source, hmem, hd⟩
    obtain ⟨j, hj⟩ := List.mem_iff_getElem?.mp hmem
    exact ⟨j, (hspec hj).mpr hd⟩

end Reuse

/-! ## Diagnostics -/

/-- Everything that planning reports. -/
inductive Diagnosed (inputs : PlanInputs) (sources : List SourceTensor)
    (targets : List TargetTensor) (policy : ExtraSourcePolicy) : PlanDiagnostic → Prop where
  | duplicateSource (name : TensorName)
    (h : 1 < (sources.filter fun source => source.name = name).length) :
    Diagnosed inputs sources targets policy (.new .error .duplicateSource name []
      "inventory contains more than one tensor with this name")
  | duplicateTarget (name : TensorName)
    (h : 1 < (targets.filter fun target => target.name = name).length) :
    Diagnosed inputs sources targets policy (.new .error .duplicateTarget name []
      "contract contains more than one target with this name")
  | target (target : TargetTensor) (d : PlanDiagnostic) (hmem : target ∈ targets)
    (hunrepeated : Unrepeated targets target)
    (h : d ∈ (select inputs sources target).diagnostics) :
    Diagnosed inputs sources targets policy d
  | conflict (source : SourceTensor) (d : PlanDiagnostic) (hmem : source ∈ sources)
    (h : Conflict inputs sources targets source d) : Diagnosed inputs sources targets policy d
  | extra (source : SourceTensor) (hmem : source ∈ sources)
    (h : ∀ target, ¬UsedBy inputs sources targets source target) :
    Diagnosed inputs sources targets policy (.new (extraSeverity policy) .extraSource source.name
      [] "inventory tensor was not selected by the target contract")

section Diagnostics
variable {inputs : PlanInputs} {sources : List SourceTensor} {targets : List TargetTensor}
  {sort : KeySort TensorName} {policy : ExtraSourcePolicy} {d : PlanDiagnostic}

theorem mem_duplicateDiagnostics {names : List TensorName} {code : DiagnosticCode}
    {message : String} : d ∈ duplicateDiagnostics (groupNames names) code message ↔
      ∃ name, 1 < (names.filter fun n => n = name).length ∧ d = .new .error code name [] message := by
  have hlen : ∀ name indices, (groupNames names).get? name = some indices →
      indices.length = (names.filter fun n => n = name).length := by
    intro name indices h
    rw [← length_positions, ← indicesOf_groupNames, indicesOf, h, Option.getD_some]
  unfold duplicateDiagnostics
  rw [List.mem_filterMap]
  constructor
  · rintro ⟨⟨name, indices⟩, he, h⟩
    split at h
    · next hlt =>
      refine ⟨name, ?_, (Option.some.inj h).symm⟩
      rwa [← hlen name indices (OrderedMap.get?_eq_some.mpr he)]
    · cases h
  · rintro ⟨name, hlt, rfl⟩
    cases hg : (groupNames names).get? name with
    | none =>
      have := indicesOf_groupNames names name
      rw [indicesOf, hg, Option.getD_none] at this
      rw [← length_positions, ← this] at hlt
      cases hlt
    | some indices =>
      refine ⟨(name, indices), OrderedMap.get?_eq_some.mp hg, ?_⟩
      rw [← hlen name indices hg] at hlt
      rw [if_pos hlt]

/-- A position is unused when its source is. -/
theorem mem_unusedSources {j : Nat} :
    j ∈ (resolveBindings inputs sources sort targets policy).unusedSources ↔
      ∃ source, sources[j]? = some source ∧
        ∀ target, ¬UsedBy inputs sources targets source target := by
  show j ∈ (List.range sources.length).filter (fun index => index ∉
    (resolveBindings inputs sources sort targets policy).matched.entries.flatMap Prod.snd) ↔ _
  rw [List.mem_filter, List.mem_range, decide_eq_true_eq]
  have hused : ∀ {source : SourceTensor}, sources[j]? = some source →
      (j ∈ (resolveBindings inputs sources sort targets policy).matched.entries.flatMap
        Prod.snd ↔ ∃ target, UsedBy inputs sources targets source target) := by
    intro source hj
    rw [List.mem_flatMap]
    constructor
    · rintro ⟨⟨i, indices⟩, he, hmem⟩
      have hget := OrderedMap.get?_eq_some.mpr he
      obtain ⟨target, ht, _, _⟩ := get?_matched.mp hget
      exact ⟨target, (exists_get?_matched hj).mp ⟨i, indices, ht, hget, hmem⟩⟩
    · rintro ⟨target, h⟩
      obtain ⟨i, indices, _, hget, hmem⟩ :=
        (@exists_get?_matched inputs sources targets sort policy j source hj target).mpr h
      exact ⟨(i, indices), OrderedMap.get?_eq_some.mp hget, hmem⟩
  constructor
  · rintro ⟨hlt, hnot⟩
    have hj : sources[j]? = some sources[j] := List.getElem?_eq_getElem hlt
    exact ⟨_, hj, fun target h => hnot ((hused hj).mpr ⟨target, h⟩)⟩
  · rintro ⟨source, hj, hnone⟩
    refine ⟨(List.getElem?_eq_some_iff.mp hj).1, fun h => ?_⟩
    obtain ⟨target, h⟩ := (hused hj).mp h
    exact hnone target h

/-- **The diagnostics of a resolution** are exactly what planning has to report. -/
theorem mem_diagnostics :
    d ∈ (resolveBindings inputs sources sort targets policy).diagnostics ↔
      Diagnosed inputs sources targets policy d := by
  have hreuse := @mem_reuseDiagnostics inputs sources targets sort policy d _ rfl
  have hextra : d ∈ (namesAt sources
      (resolveBindings inputs sources sort targets policy).unusedSources).map (fun name =>
        PlanDiagnostic.new (extraSeverity policy) .extraSource name []
          "inventory tensor was not selected by the target contract") ↔
      ∃ source ∈ sources, (∀ target, ¬UsedBy inputs sources targets source target) ∧
        d = .new (extraSeverity policy) .extraSource source.name []
          "inventory tensor was not selected by the target contract" := by
    simp only [namesAt, List.map_map, List.mem_map, List.mem_filterMap, mem_unusedSources]
    constructor
    · rintro ⟨source, ⟨j, ⟨source', hj', hnone⟩, hj⟩, rfl⟩
      obtain rfl : source = source' := Option.some.inj (hj.symm.trans hj')
      exact ⟨source, List.mem_of_getElem? hj, hnone, rfl⟩
    · rintro ⟨source, hmem, hnone, rfl⟩
      obtain ⟨j, hj⟩ := List.mem_iff_getElem?.mp hmem
      exact ⟨source, ⟨j, ⟨source, hj, hnone⟩, hj⟩, rfl⟩
  have horder : ∀ e : TargetTensor × Nat, e ∈ sort.sort (fun e => e.1.name) targets.zipIdx ↔
      targets[e.2]? = some e.1 := by
    rintro ⟨target, i⟩
    rw [KeySort.mem, List.mem_zipIdx_iff_getElem?]
  show d ∈ sortDedup ((resolveLoop inputs sources targets _ _).diagnostics ++ _ ++ _) ↔ _
  rw [mem_sortDedup, List.mem_append, List.mem_append, mem_resolveLoop_diagnostics,
    List.mem_append, mem_duplicateDiagnostics, mem_duplicateDiagnostics]
  refine (or_congr (or_congr_right hreuse) hextra).trans ?_
  simp only [List.filter_map, List.length_map, horder]
  constructor
  · rintro ((((⟨name, h, rfl⟩ | ⟨name, h, rfl⟩) | ⟨e, he, hu, h⟩) | ⟨source, hmem, h⟩) |
      ⟨source, hmem, h, rfl⟩)
    · exact .duplicateSource name h
    · exact .duplicateTarget name h
    · exact .target e.1 d (List.mem_of_getElem? he) hu h
    · exact .conflict source d hmem h
    · exact .extra source hmem h
  · intro h
    cases h with
    | duplicateSource name h => exact .inl (.inl (.inl (.inl ⟨name, h, rfl⟩)))
    | duplicateTarget name h => exact .inl (.inl (.inl (.inr ⟨name, h, rfl⟩)))
    | target target d hmem hu h =>
      obtain ⟨i, hi⟩ := List.mem_iff_getElem?.mp hmem
      exact .inl (.inl (.inr ⟨(target, i), hi, hu, h⟩))
    | conflict source d hmem h => exact .inl (.inr ⟨source, hmem, h⟩)
    | extra source hmem h => exact .inr ⟨source, hmem, h, rfl⟩

end Diagnostics

end ModelWeights.Plan
