import ModelWeights.Identity
import ModelWeights.Storage
import ModelWeights.Lib.FunctionalGraph

/-! # Exact aliases

The alias graph of `overlay.rs`. Following aliases ends because a table has no
cycle: the loops below are given as many steps as there are entries and one more,
and never use them up. -/
namespace ModelWeights.Overlay
open FunctionalGraph Relation

structure Alias where
  aliasName : TensorName
  target : TensorName
  deriving DecidableEq

abbrev AliasEntries := OrderedMap TensorName TensorName

/-- Follows the aliases from a name, which must not come back to a name in `seen`. -/
def walkAliases (entries : AliasEntries) : Nat → List TensorName → TensorName → Result Unit
  | 0, _, _ => .ok ()
  | fuel + 1, seen, current =>
    match entries.get? current with
    | none => .ok ()
    | some next =>
      if current ∈ seen then .error (.binding "alias graph contains a cycle")
      else walkAliases entries fuel (current :: seen) next

def walkLimit (entries : AliasEntries) : Nat := entries.entries.length + 1

def walkFrom (entries : AliasEntries) : List TensorName → Result Unit
  | [] => .ok ()
  | start :: rest => do
    walkAliases entries (walkLimit entries) [] start
    walkFrom entries rest

def validateAliasCycles (entries : AliasEntries) : Result Unit :=
  walkFrom entries (entries.entries.map Prod.fst)

/-- A validated alias graph. -/
structure AliasTable where
  entries : AliasEntries
  acyclic : validateAliasCycles entries = .ok ()

def collectAliases : AliasEntries → List Alias → Result AliasEntries
  | entries, [] => .ok entries
  | entries, entry :: rest =>
    if entry.aliasName = entry.target then .error (.binding "alias cannot reference itself")
    else if entries.contains entry.aliasName then
      .error (.binding "alias graph contains more than one entry for an exact name")
    else collectAliases (entries.insert entry.aliasName entry.target) rest

namespace AliasTable

def empty : AliasTable := ⟨.empty, rfl⟩

def new (aliases : List Alias) : Result AliasTable := do
  let entries ← collectAliases .empty aliases
  match h : validateAliasCycles entries with
  | .error e => .error e
  | .ok () => .ok ⟨entries, h⟩

end AliasTable

def resolveFrom (entries : AliasEntries) : Nat → TensorName → TensorName
  | 0, name => name
  | fuel + 1, name =>
    match entries.get? name with
    | none => name
    | some next => resolveFrom entries fuel next

/-- The exact name that a name stands for. -/
def AliasTable.resolve (table : AliasTable) (name : TensorName) : TensorName :=
  resolveFrom table.entries (walkLimit table.entries) name

/-! ## Following aliases ends -/

section Walk
variable {entries : AliasEntries}

theorem key_of_get? {name next : TensorName} (h : entries.get? name = some next) :
    name ∈ entries.entries.map Prod.fst :=
  List.mem_map.mpr ⟨_, OrderedMap.get?_eq_some.mp h, rfl⟩

/-- A walk that met no name twice came to a name without an alias: with more steps
than entries it would have met more names than there are. -/
theorem resolveFrom_ends : ∀ {fuel : Nat} {seen : List TensorName} {name : TensorName},
    walkAliases entries fuel seen name = .ok () → seen.Nodup →
    seen ⊆ entries.entries.map Prod.fst → entries.entries.length < seen.length + fuel →
    entries.get? (resolveFrom entries fuel name) = none
  | 0, seen, _, _, hnodup, hkeys, hfuel => by
    have hle := (List.subperm_of_subset hnodup hkeys).length_le
    rw [List.length_map] at hle
    exact absurd hfuel (Nat.not_lt.mpr hle)
  | fuel + 1, seen, name, h, hnodup, hkeys, hfuel => by
    rw [walkAliases] at h
    rw [resolveFrom]
    cases hget : entries.get? name with
    | none => exact hget
    | some next =>
      rw [hget] at h
      obtain ⟨hnew, h⟩ := unless_error_ok h
      refine resolveFrom_ends h (List.nodup_cons.mpr ⟨hnew, hnodup⟩) ?_ ?_
      · exact List.cons_subset.mpr ⟨key_of_get? hget, hkeys⟩
      · rw [List.length_cons]
        omega

theorem walk_of_walkFrom : ∀ {starts : List TensorName}, walkFrom entries starts = .ok () →
    ∀ start ∈ starts, walkAliases entries (walkLimit entries) [] start = .ok ()
  | _ :: starts, h, start, hm => by
    obtain ⟨_, hwalk, h⟩ := bind_ok h
    rcases List.mem_cons.mp hm with rfl | hm
    · exact hwalk
    · exact walk_of_walkFrom h start hm

end Walk

/-- What a name resolves to is no alias. -/
theorem AliasTable.get?_resolve (table : AliasTable) (name : TensorName) :
    table.entries.get? (table.resolve name) = none := by
  cases hget : table.entries.get? name with
  | none =>
    have hstop : table.resolve name = name := by
      rw [resolve, walkLimit, resolveFrom, hget]
    rw [hstop, hget]
  | some next =>
    have hwalk := walk_of_walkFrom table.acyclic name (key_of_get? hget)
    refine resolveFrom_ends hwalk List.nodup_nil (List.nil_subset _) ?_
    rw [walkLimit, List.length_nil]
    omega

/-- Resolving is finished after one call. -/
theorem AliasTable.resolve_resolve (table : AliasTable) (name : TensorName) :
    table.resolve (table.resolve name) = table.resolve name := by
  rw [resolve, walkLimit, resolveFrom, table.get?_resolve name]

theorem resolveFrom_walk (entries : AliasEntries) (fuel : Nat) (name : TensorName) :
    ReflTransGen (Step entries.get?) name (resolveFrom entries fuel name) := by
  induction fuel generalizing name with
  | zero => exact ReflTransGen.refl
  | succ fuel ih =>
    rw [resolveFrom]
    cases hget : entries.get? name with
    | none => exact ReflTransGen.refl
    | some next => exact ReflTransGen.head hget (ih next)

/-- The loop of `resolve` ends at the name that is returned. -/
theorem AliasTable.endsAt_resolve (table : AliasTable) (name : TensorName) :
    EndsAt table.entries.get? name (table.resolve name) :=
  ⟨resolveFrom_walk _ _ name, table.get?_resolve name⟩

/-- With more steps than the loop is given it ends at the same name. -/
theorem AliasTable.resolveFrom_eq (table : AliasTable) (name : TensorName) {steps : Nat}
    (h : walkLimit table.entries ≤ steps) : resolveFrom table.entries steps name = table.resolve name := by
  have hends : ∀ {fuel more : Nat} {name : TensorName},
      table.entries.get? (resolveFrom table.entries fuel name) = none →
      resolveFrom table.entries (fuel + more) name = resolveFrom table.entries fuel name := by
    intro fuel more
    induction fuel with
    | zero =>
      intro name hnone
      cases more with
      | zero => rfl
      | succ more =>
        rw [resolveFrom] at hnone
        simp only [resolveFrom, hnone]
    | succ fuel ih =>
      intro name hnone
      rw [Nat.succ_add, resolveFrom, resolveFrom]
      cases hget : table.entries.get? name with
      | none => rfl
      | some next =>
        rw [resolveFrom, hget] at hnone
        exact ih hnone
  obtain ⟨more, rfl⟩ := Nat.exists_eq_add_of_le h
  exact hends (table.get?_resolve name)

/-! ## Which alias lists are accepted -/

section Accept
variable {aliases : List Alias} {entries out : AliasEntries}

/-- The graph that a list declares. -/
def Declares (aliases : List Alias) (a b : TensorName) : Prop := ⟨a, b⟩ ∈ aliases

/-- Aliases that can be added to `entries`: none repeats a name or stands for itself. -/
structure Addable (entries : AliasEntries) (aliases : List Alias) : Prop where
  once : (aliases.map Alias.aliasName).Nodup
  fresh : ∀ entry ∈ aliases, entries.get? entry.aliasName = none
  proper : ∀ entry ∈ aliases, entry.aliasName ≠ entry.target

theorem contains_eq_false {name : TensorName} :
    ¬entries.contains name = true ↔ entries.get? name = none := by
  rw [OrderedMap.contains, Bool.not_eq_true, Option.isSome_eq_false_iff, Option.isNone_iff_eq_none]

theorem addable_cons {entry : Alias} : Addable entries (entry :: aliases) ↔
    entry.aliasName ≠ entry.target ∧ entries.get? entry.aliasName = none ∧
      Addable (entries.insert entry.aliasName entry.target) aliases := by
  constructor
  · rintro ⟨honce, hfresh, hproper⟩
    obtain ⟨hnew, honce⟩ := List.nodup_cons.mp honce
    refine ⟨hproper _ (List.mem_cons_self ..), hfresh _ (List.mem_cons_self ..), honce,
      fun e he => ?_, fun e he => hproper e (List.mem_cons_of_mem _ he)⟩
    rw [OrderedMap.get?_insert, if_neg, hfresh e (List.mem_cons_of_mem _ he)]
    intro heq
    exact hnew (List.mem_map.mpr ⟨e, he, heq⟩)
  · rintro ⟨hself, hnone, honce, hfresh, hproper⟩
    have hne : ∀ e ∈ aliases, e.aliasName ≠ entry.aliasName := by
      intro e he heq
      have h := hfresh e he
      rw [OrderedMap.get?_insert, if_pos heq] at h
      cases h
    refine ⟨List.nodup_cons.mpr ⟨fun hm => ?_, honce⟩, fun e he => ?_, fun e he => ?_⟩
    · obtain ⟨e, he, heq⟩ := List.mem_map.mp hm
      exact hne e he heq
    · cases he with
      | head => exact hnone
      | tail _ he =>
        have h := hfresh e he
        rwa [OrderedMap.get?_insert, if_neg (hne e he)] at h
    · cases he with
      | head => exact hself
      | tail _ he => exact hproper e he

/-- Collecting succeeds exactly on aliases that can be added. -/
theorem collectAliases_iff : (∃ out, collectAliases entries aliases = .ok out) ↔
    Addable entries aliases := by
  induction aliases generalizing entries with
  | nil =>
    refine iff_of_true ⟨entries, rfl⟩ ⟨List.nodup_nil, ?_, ?_⟩
    · exact fun e he => absurd he List.not_mem_nil
    · exact fun e he => absurd he List.not_mem_nil
  | cons entry rest ih =>
    rw [addable_cons, ← ih, collectAliases]
    by_cases hself : entry.aliasName = entry.target
    · simp [hself]
    · by_cases hin : entries.contains entry.aliasName = true
      · rw [if_neg hself, if_pos hin]
        have hsome := mt contains_eq_false.mpr (not_not.mpr hin)
        simp [hsome]
      · rw [if_neg hself, if_neg hin]
        simp [hself, contains_eq_false.mp hin]

theorem get?_collectAliases (h : collectAliases entries aliases = .ok out) {a b : TensorName} :
    out.get? a = some b ↔ entries.get? a = some b ∨ Declares aliases a b := by
  induction aliases generalizing entries with
  | nil =>
    obtain rfl := Except.ok.inj h
    simp [Declares]
  | cons entry rest ih =>
    rw [collectAliases] at h
    obtain ⟨_, h⟩ := unless_error_ok h
    obtain ⟨hnew, h⟩ := unless_error_ok h
    have hnone := contains_eq_false.mp hnew
    rw [ih h, OrderedMap.get?_insert]
    simp only [Declares, List.mem_cons]
    by_cases ha : a = entry.aliasName
    · subst ha
      rw [if_pos rfl, hnone]
      obtain ⟨name, target⟩ := entry
      simp [eq_comm]
    · rw [if_neg ha]
      have hne : ¬(⟨a, b⟩ : Alias) = entry := by
        rintro rfl
        exact ha rfl
      simp [hne]

/-- On a graph without cycles no walk meets a name twice. -/
theorem walkAliases_ok (hacyclic : Acyclic entries.get?) : ∀ {fuel : Nat}
    {seen : List TensorName} {current : TensorName},
    (∀ name ∈ seen, TransGen (Step entries.get?) name current) →
    walkAliases entries fuel seen current = .ok ()
  | 0, _, _, _ => rfl
  | fuel + 1, seen, current, hseen => by
    rw [walkAliases]
    cases hget : entries.get? current with
    | none => rfl
    | some next =>
      have hnew : current ∉ seen := fun hm => hacyclic current (hseen current hm)
      show (if current ∈ seen then _ else _) = _
      rw [if_neg hnew]
      refine walkAliases_ok hacyclic fun name hm => ?_
      cases hm with
      | head => exact TransGen.single hget
      | tail _ hm => exact (hseen name hm).tail hget

theorem walkFrom_ok (hacyclic : Acyclic entries.get?) (starts : List TensorName) :
    walkFrom entries starts = .ok () := by
  induction starts with
  | nil => rfl
  | cons start rest ih =>
    rw [walkFrom, walkAliases_ok hacyclic fun name hm => absurd hm List.not_mem_nil]
    exact ih

theorem AliasTable.acyclic_get? (table : AliasTable) : Acyclic table.entries.get? :=
  acyclic_of_ends fun name _ _ => ⟨_, table.endsAt_resolve name⟩

end Accept

theorem AliasTable.new_ok {aliases : List Alias} {table : AliasTable}
    (h : AliasTable.new aliases = .ok table) : collectAliases .empty aliases = .ok table.entries := by
  obtain ⟨entries, hcollect, h⟩ := bind_ok h
  split at h
  · cases h
  · obtain rfl := Except.ok.inj h
    exact hcollect

theorem AliasTable.new_of_collect {aliases : List Alias} {entries : AliasEntries}
    (hcollect : collectAliases .empty aliases = .ok entries)
    (hwalk : validateAliasCycles entries = .ok ()) :
    AliasTable.new aliases = .ok ⟨entries, hwalk⟩ := by
  rw [AliasTable.new, hcollect]
  show (match h : validateAliasCycles entries with
    | .error e => Except.error e
    | .ok () => Except.ok (⟨entries, h⟩ : AliasTable)) = _
  split
  · next he => rw [hwalk] at he; cases he
  · rfl

/-- A list without cycles declares no name as its own alias. -/
theorem addable_of_acyclic {aliases : List Alias} (honce : (aliases.map Alias.aliasName).Nodup)
    (hacyclic : ∀ name, ¬TransGen (Declares aliases) name name) : Addable .empty aliases := by
  refine ⟨honce, fun _ _ => rfl, fun entry hm heq => ?_⟩
  have hself : Declares aliases entry.aliasName entry.aliasName := by
    obtain ⟨name, target⟩ := entry
    obtain rfl : name = target := heq
    exact hm
  exact hacyclic entry.aliasName (TransGen.single hself)

/-- The entries of a table are the aliases of its list. -/
theorem AliasTable.get?_new {aliases : List Alias} {table : AliasTable}
    (h : AliasTable.new aliases = .ok table) :
    Step table.entries.get? = Declares aliases := by
  funext a b
  refine propext ((get?_collectAliases (AliasTable.new_ok h)).trans ?_)
  exact or_iff_right fun he => by cases he

/-- **Which alias lists make a table, and where its names lead.** A list is accepted
exactly when it declares no name twice and has no cycle. The loop that resolves a name
of a table ends, at a name that is no alias and resolves to itself. -/
theorem aliasTable_spec :
    (∀ aliases : List Alias, (∃ table, AliasTable.new aliases = .ok table) ↔
      (aliases.map Alias.aliasName).Nodup ∧
        ∀ name, ¬TransGen (Declares aliases) name name) ∧
    (∀ aliases table, AliasTable.new aliases = .ok table → ∀ a b,
      table.entries.get? a = some b ↔ Declares aliases a b) ∧
    ∀ (table : AliasTable) (name : TensorName),
      (∀ steps ≥ walkLimit table.entries,
        resolveFrom table.entries steps name = table.resolve name) ∧
      EndsAt table.entries.get? name (table.resolve name) ∧
      table.resolve (table.resolve name) = table.resolve name := by
  refine ⟨fun aliases => ⟨?_, ?_⟩, ?_, ?_⟩
  · rintro ⟨table, h⟩
    have hadd := collectAliases_iff.mp ⟨_, AliasTable.new_ok h⟩
    have hacyclic := table.acyclic_get?
    rw [Acyclic, AliasTable.get?_new h] at hacyclic
    exact ⟨hadd.once, hacyclic⟩
  · rintro ⟨honce, hacyclic⟩
    have hadd := addable_of_acyclic honce hacyclic
    obtain ⟨entries, hcollect⟩ := collectAliases_iff.mpr hadd
    have hstep : Step entries.get? = Declares aliases := by
      funext a b
      refine propext ((get?_collectAliases hcollect).trans ?_)
      exact or_iff_right fun he => by cases he
    have hwalk : validateAliasCycles entries = .ok () := by
      refine walkFrom_ok ?_ _
      rw [Acyclic, hstep]
      exact hacyclic
    exact ⟨⟨entries, hwalk⟩, AliasTable.new_of_collect hcollect hwalk⟩
  · intro aliases table h a b
    exact Iff.of_eq (congrFun (congrFun (AliasTable.get?_new h) a) b)
  · intro table name
    exact ⟨fun steps h => table.resolveFrom_eq name h, table.endsAt_resolve name,
      table.resolve_resolve name⟩

end ModelWeights.Overlay
