import RePrime.Core.Settings
import RePrime.Lib.Runs

/-!
# RePrime.Core.SettingsPrecedence

What the merged settings hold of the overrides, the project and the global settings.

* `effective`: the value of a key in layers of settings, the strongest first.
* `valueAt_deepMergeSettings`: a merge puts one layer over the others.
* `effective_of_run`: so it is with a setter or a reload only while nothing is overridden.
* `override_dropped`: a setter after `applyOverrides` merges the two files' settings alone.
-/

namespace RePrime
namespace Core
namespace Settings

open List
open OrderedMap
open Json (Value)

/-- What is read of a key. An object is read by its members. -/
def valueAt (s : SettingsMap) (k : Key) : Option Value :=
  match s.get? k.1, k.2 with
  | some (.object fields), some key => (OrderedMap.ofList fields).get? key
  | some (.object _), none => none
  | some value, none => some value
  | _, _ => none

/-- A layer without the field leaves it to the next one, and so does an object without the member. -/
def layered (s : SettingsMap) (k : Key) (next : Option Value) : Option Value :=
  match s.get? k.1, k.2 with
  | none, _ => next
  | some (.object fields), some key => ((OrderedMap.ofList fields).get? key).or next
  | some _, _ => valueAt s k

def effective (layers : List SettingsMap) (k : Key) : Option Value :=
  layers.foldr (fun s next => layered s k next) none

theorem layered_none (s : SettingsMap) (k : Key) : layered s k none = valueAt s k := by
  obtain ⟨f, key⟩ := k
  unfold layered valueAt
  cases s.get? f with
  | none => rfl
  | some value => cases value <;> cases key <;> simp

/-! ## A merge -/

theorem get?_foldl_set (l : List (String × Value)) (m : OrderedMap String Value) (j : String) :
    (l.foldl (fun m e => m.set e.1 e.2) m).get? j = ((OrderedMap.ofList l).get? j).or (m.get? j) := by
  induction l using reverseRecOn with
  | nil => rfl
  | append_singleton l e ih =>
    rw [foldl_append, foldl_cons, foldl_nil, get?_set, ofList_concat, get?_set, ih]
    split <;> rfl

/-- The value of a field that both sides have. -/
def merged (base : Option Value) (value : Value) : Value :=
  match value, base with
  | .object fields, some (.object baseFields) =>
    .object (fields.foldl (fun m q => OrderedMap.set m q.1 q.2) (.ofList baseFields)).entries
  | value, _ => value

theorem get?_deepMergeSettings (base overrides : SettingsMap) (f : String) :
    (deepMergeSettings base overrides).get? f = ((overrides.get? f).map (merged (base.get? f))).or (base.get? f) := by
  have hfold : deepMergeSettings base overrides =
      (overrides.entries.map fun p => (p.1, merged (base.get? p.1) p.2)).foldl (fun m e => m.set e.1 e.2) base := by
    rw [foldl_map, deepMergeSettings]
    congr 1
    funext m p
    obtain ⟨g, value⟩ := p
    cases value with
    | object fields =>
      cases base.get? g with
      | none => simp only [merged]
      | some baseValue => cases baseValue <;> simp only [merged]
    | _ => simp only [merged]
  rw [hfold, get?_foldl_set]
  congr 1
  cases hf : overrides.get? f with
  | none =>
    rw [Option.map_none, get?_ofList_eq_none]
    intro e he hk
    obtain ⟨p, hp, rfl⟩ := mem_map.1 he
    rw [← hk, get?_of_mem_entries hp] at hf
    cases hf
  | some value =>
    refine get?_ofList_of_mem (mem_map.2 ⟨_, mem_entries_of_get? hf, rfl⟩) ?_
    intro e he hk
    obtain ⟨p, hp, rfl⟩ := mem_map.1 he
    have hvalue := get?_of_mem_entries hp
    rw [show p.1 = f from hk, hf] at hvalue
    cases hvalue
    exact congrArg (fun g => merged (base.get? g) p.2) hk

/-- A merge reads as the overrides over the base. -/
theorem valueAt_deepMergeSettings (base overrides : SettingsMap) (k : Key) :
    valueAt (deepMergeSettings base overrides) k = layered overrides k (valueAt base k) := by
  obtain ⟨f, key⟩ := k
  unfold layered valueAt
  rw [get?_deepMergeSettings]
  cases ho : overrides.get? f with
  | none => rfl
  | some value =>
    simp only [Option.map_some, Option.some_or]
    cases value with
    | object fields =>
      cases hb : base.get? f with
      | none =>
        cases key with
        | none => rfl
        | some key => simp [merged]
      | some baseValue =>
        cases key with
        | none => cases baseValue <;> rfl
        | some key =>
          cases baseValue with
          | object baseFields => simp only [merged, OrderedMap.get?_ofList_entries, get?_foldl_set]
          | _ => simp [merged]
    | _ => cases key <;> rfl

/-! ## Runs -/

/-- A manager and the overrides that were applied to it, the last first. -/
structure Overridden where
  state : State
  applied : List SettingsMap

namespace Overridden

def create (files : Scope → Option FileContent) : Overridden := ⟨init files, []⟩

def step (s : Overridden) (a : Action) : Option Overridden :=
  (Settings.step s.state a).map fun state =>
    { state := state
      applied := match a with
        | .override overrides => overrides :: s.applied
        | _ => s.applied }

/-- The layers of settings, the strongest first. -/
def layers (s : Overridden) : List SettingsMap :=
  s.applied ++ [(s.state.scopes .project).memory, (s.state.scopes .global).memory]

/-- A setter that edits something, or a reload. -/
def Merges (σ : State) : Action → Prop
  | .set setter =>
    let memory := (σ.scopes setter.scope).memory
    setter.edits memory σ.settings ≠ [] ∧ ((setter.edits memory σ.settings).foldlM Edit.apply memory).isSome = true
  | .reload _ => True
  | _ => False

def Guard (s : Overridden) (a : Action) : Prop := Merges s.state a → s.applied = []

/-- The merged settings are the two scopes' and then each override's. -/
def Inv (s : Overridden) : Prop :=
  s.state.settings = s.applied.foldr (fun overrides settings => deepMergeSettings settings overrides)
    (deepMergeSettings (s.state.scopes .global).memory (s.state.scopes .project).memory)

theorem Inv.valueAt_eq {s : Overridden} (h : s.Inv) (k : Key) : valueAt s.state.settings k = effective s.layers k := by
  rw [h, layers, effective, foldr_append]
  induction s.applied with
  | nil =>
    rw [foldr_nil, valueAt_deepMergeSettings, foldr_nil, foldr_cons, foldr_cons, foldr_nil, layered_none]
  | cons overrides applied ih =>
    rw [foldr_cons, valueAt_deepMergeSettings, foldr_cons]
    exact congrArg (layered overrides k) ih

theorem memory_setScope (σ : State) (scope : Scope) {s : ScopeState} (hs : s.memory = (σ.scopes scope).memory)
    (i : Scope) : ((σ.setScope scope s).scopes i).memory = (σ.scopes i).memory := by
  rw [State.setScope]
  dsimp only
  split
  · rename_i hi
    rw [hs, hi]
  · rfl

theorem Inv.of_memory {σ σ' : State} {applied : List SettingsMap} (h : (⟨σ, applied⟩ : Overridden).Inv)
    (hs : σ'.settings = σ.settings) (hm : ∀ i, (σ'.scopes i).memory = (σ.scopes i).memory) :
    (⟨σ', applied⟩ : Overridden).Inv := by
  unfold Inv
  dsimp only
  rw [hs, hm, hm]
  exact h

theorem inv_merge {σ : State} : (⟨σ.merge, []⟩ : Overridden).Inv := rfl

/-- A setter that does not merge changes no setting, and one that does leaves the merge of the scopes. -/
theorem set_merges (σ : State) (setter : Setter) :
    σ.set setter = σ ∨ Merges σ (.set setter) ∧ (⟨σ.set setter, []⟩ : Overridden).Inv := by
  unfold State.set
  dsimp only
  cases hm : (setter.edits (σ.scopes setter.scope).memory σ.settings).foldlM Edit.apply
      (σ.scopes setter.scope).memory with
  | none => exact .inl rfl
  | some memory =>
    dsimp only
    split
    · exact .inl rfl
    · rename_i hedits
      refine .inr ⟨⟨by simpa using hedits, by rw [hm]; rfl⟩, ?_⟩
      unfold State.save
      dsimp only
      split <;> rfl

theorem Inv.step {s s' : Overridden} {a : Action} (h : s.Inv) (hg : s.Guard a) (hstep : s.step a = some s') :
    s'.Inv := by
  obtain ⟨σ, applied⟩ := s
  obtain ⟨σ', hσ, rfl⟩ := Option.map_eq_some_iff.1 hstep
  cases a with
  | set setter =>
    cases hσ
    obtain hsame | ⟨hmerges, hinv⟩ := set_merges σ setter
    · rw [hsame]
      exact h
    · cases hg hmerges
      exact hinv
  | override overrides =>
    cases hσ
    exact congrArg (deepMergeSettings · overrides) h
  | callReload =>
    cases hσ
    exact h
  | write =>
    simp only [Settings.step] at hσ
    split at hσ
    · obtain ⟨after, -, rfl⟩ := Option.map_eq_some_iff.1 hσ
      exact h.of_memory rfl (memory_setScope σ _ rfl)
    · cases hσ
  | fail =>
    simp only [Settings.step] at hσ
    split at hσ
    · cases hσ
      exact h.of_memory rfl (memory_setScope σ _ rfl)
    · cases hσ
  | reload reads =>
    simp only [Settings.step] at hσ
    split at hσ
    · cases hσ
      cases hg trivial
      exact inv_merge
    · cases hσ
  | other scope content =>
    cases hσ
    exact h.of_memory rfl (memory_setScope σ _ rfl)

/-- In every run whose setters and reloads come while nothing is overridden, every key reads as the override of it,
else as the project's value, else as the global one. -/
theorem effective_of_run (files : Scope → Option FileContent) {s : Overridden}
    (h : Transition.GuardedRuns Overridden.step Guard (create files) s) (k : Key) :
    valueAt s.state.settings k = effective s.layers k :=
  (h.keeps (P := Inv) rfl fun _ _ _ hinv hg hstep => hinv.step hg hstep).valueAt_eq k

theorem effective_of_override : ∃ s : Overridden, s.applied ≠ [] ∧
    ∀ k, valueAt s.state.settings k = effective s.layers k :=
  ⟨_, cons_ne_nil _ _, effective_of_run (fun _ => some (.settings (.ofList [("theme", .string "dark")])))
    (.single ⟨.override (.ofList [("theme", .string "light")]), False.elim, rfl⟩)⟩

/-- The theme is overridden, and then the startup is made quiet. -/
theorem override_dropped : ∃ s : Overridden, Transition.Runs Overridden.step (create fun _ => none) s ∧
    effective s.layers ("theme", none) = some (.string "light") ∧
    valueAt s.state.settings ("theme", none) = none := by
  have hrun : ((Transition.steps Overridden.step [.override (.ofList [("theme", .string "light")]),
      .set (.setQuietStartup true)] (create fun _ => none)).any fun s =>
        decide (effective s.layers ("theme", none) = some (.string "light") ∧
          valueAt s.state.settings ("theme", none) = none)) = true := by
    decide
  obtain ⟨s, hrun, htest⟩ := Transition.exists_run hrun
  exact ⟨s, hrun, of_decide_eq_true htest⟩

end Overridden
end Settings
end Core
end RePrime
