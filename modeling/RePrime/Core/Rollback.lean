import RePrime.Core.HarnessRuns

/-!
# RePrime.Core.Rollback

Taking a refinement back: `rollbackProposal` of what `applyRefinementProposal` has applied, over the state that it left.

* `AppliedRefinementEdit.inverse`, `rollbackProposal`: the edits that restore what was there before, last edit first.
* `RollsBack`: both proposals go through, every edit of the second is applied, and the entries are the former ones.
* `Reversible`: what the state and the proposal have to be for that, entry by entry.
* `Undoable`: what the loop keeps while it applies the proposal, with the rollback of what it has applied so far.
-/

namespace RePrime
namespace Core
namespace Harness

open Option hiding or_self
open Snapshot
open OrderedMap
open List

variable {V : Type}

/-! ### The rollback -/

/-- The edit that takes an applied edit back, none for an edit that was refused. -/
def AppliedRefinementEdit.inverse (a : AppliedRefinementEdit V) : Option (RefinementEdit V) :=
  if a.applied = false then none
  else
    match a.before, a.after with
    | some before, after =>
      some
        { action := .ok (if after.isSome then .update else .create)
          kind := a.edit.kind
          id := some a.id
          title := before.entry?.map (·.title)
          content := before.entry?.map (·.content)
          path := before.entry?.map (·.path)
          reference := before.entry?.map (·.reference)
          arguments := before.entry?.map (·.arguments)
          metadata := before.entry?.map (·.metadata) }
    | none, some _ =>
      some
        { action := .ok .delete
          kind := a.edit.kind
          id := some a.id
          title := none
          content := none
          path := none
          reference := none
          arguments := none
          metadata := none }
    | none, none => none

open AppliedRefinementEdit

def rollbackEdits (appliedEdits : List (AppliedRefinementEdit V)) : List (RefinementEdit V) :=
  appliedEdits.reverse.filterMap inverse

/-- What a rollback has to bring back of an entry: all but its source, its time stamps and its version. -/
def HarnessEntry.kept (e : HarnessEntry V) : HarnessEntry V :=
  { e with source := "", createdAt := "", updatedAt := "", version := 0 }

open HarnessEntry

def SameEntries (m m' : OrderedMap Key (HarnessEntry V)) : Prop :=
  ∀ key, (m.get? key).map kept = (m'.get? key).map kept

/-- The edit passes validation, with that action and for that entry. -/
structure RefinementEdit.Edits (B : Builtins V) (action : RefinementAction) (key : Key) (edit : RefinementEdit V) :
    Prop where
  valid : validateEdit B edit ((edit.computedId B).getD "") = none
  action : edit.action = .ok action
  kind : edit.kind = .ok key.1
  id : (edit.computedId B).getD "" = key.2

def HostJob.Edits (B : Builtins V) (job : HostJob V) (action : RefinementAction) (key : Key) : Prop :=
  ∃ edit ∈ job.edits, edit.Edits B action key

/-- The entry would pass as a model-written edit. -/
structure HarnessEntry.Writable (B : Builtins V) (kind : HarnessKind) (e : HarnessEntry V) : Prop where
  title : e.title ≠ ""
  content : e.content ≠ ""
  reference : kind = .skill → validateReference B "update" (some e.reference) = none

/-- The planning has seen the entry as it is. -/
def HostJob.Planned (doc : Document V) (job : HostJob V) (key : Key) : Prop :=
  ∀ baseline ∈ job.baselineState, baseline.entries.get? key = doc.entries.get? key

/-- A name that a record without the entry has no value for. -/
def OwnName (id : String) : Prop := id ∉ inheritedNames ∧ id ≠ "__proto__"

/-- What the state and the proposal have to be for the refinement to be taken back. -/
structure Reversible (B : Builtins V) (scope : HarnessScope) (doc : Document V) (job : HostJob V) : Prop where
  /-- No edit throws for what stands in place of its action or its kind. -/
  shown : ∀ edit ∈ job.edits, edit.throws = false
  /-- An inherited function is edited only where an entry, here and in the baseline, hides it. -/
  hidden : ∀ action key, key.2 ∈ inheritedNames → job.Edits B action key →
    (doc.entries.get? key).isSome = true ∧
      ∀ baseline ∈ job.baselineState, (baseline.entries.get? key).isSome = true
  /-- An entry that is updated or deleted passes as a model-written edit. -/
  writable : ∀ key e, doc.entries.get? key = some e → job.Planned doc key →
    job.Edits B .update key ∨ job.Edits B .delete key → e.Writable B key.1
  /-- An entry that is deleted is one of the store, under a name of its own. -/
  deleted : ∀ key e, doc.entries.get? key = some e → job.Planned doc key → job.Edits B .delete key →
    e.scope = scope ∧ OwnName key.2
  /-- An entry that is created has an id. -/
  created : ∀ key, doc.entries.get? key = none → job.Planned doc key → job.Edits B .create key → key.2 ≠ ""
  /-- The prototype is not updated or deleted. -/
  prototype : ∀ key, doc.entries.get? key = none → job.Planned doc key → key.2 = "__proto__" →
    ¬ job.Edits B .update key ∧ ¬ job.Edits B .delete key

/-! ### One edit of the loop -/

/-- A create meets nothing, an update or a delete meets something. -/
def RefinementAction.meets : RefinementAction → Option (Snapshot V) → Bool
  | .create, before => before.isNone
  | .update, before => before.isSome
  | .delete, before => before.isSome

def Refused (s s' : Applying V) : Prop :=
  ∃ a : AppliedRefinementEdit V, a.applied = false ∧ s' = { s with appliedEdits := s.appliedEdits ++ [a] }

/-- The loop has applied an edit of the entry, where it has found `before`. -/
structure Applied (B : Builtins V) (scope : HarnessScope) (edit : RefinementEdit V) (action : RefinementAction)
    (key : Key) (before : Option (Snapshot V)) (s s' : Applying V) (a : AppliedRefinementEdit V) : Prop where
  applied : a.applied = true
  kind : a.edit.kind = .ok key.1
  id : a.id = key.2
  found : a.before = before
  after :
    a.after = none ∧ action = .delete ∧ s'.entries = s.entries.delete key ∨ ∃ createdAt updatedAt,
        a.after = some (edit.after B scope createdAt updatedAt key.2 (before.bind entry?)) ∧
          action ≠ .delete ∧ s'.entries = assignEntry s.entries key
            (edit.after B scope createdAt updatedAt key.2 (before.bind entry?))
  appliedEdits : s'.appliedEdits = s.appliedEdits ++ [a]
  modifiedKeys : s'.modifiedKeys = s.modifiedKeys ++ [key]

section Loop

variable [DecidableEq V] {B : Builtins V} {scope : HarnessScope} {baseline : Option (Document V)}
  {now : Nat → String} {s s' : Applying V} {edit : RefinementEdit V} {action : RefinementAction} {key : Key}
  {before was : Option (Snapshot V)}

/-- The entry is not what the planning has seen, and the proposal has not changed it. -/
def Stale (baseline : Option (Document V)) (s : Applying V) (key : Key) (before was : Option (Snapshot V)) : Prop :=
  baseline.isSome = true ∧ key ∉ s.modifiedKeys ∧ before ≠ was

theorem applyEdit_invalid (hshown : edit.throws = false)
    (h : validateEdit B edit ((edit.computedId B).getD "") ≠ none) :
    ∃ s', applyEdit B scope baseline now s edit = some s' ∧ Refused s s' := by
  obtain ⟨error, h⟩ := ne_none_iff_exists'.1 h
  simp only [applyEdit, hshown, h, Bool.false_eq_true, if_false]
  exact ⟨_, rfl, _, rfl, rfl⟩

omit [DecidableEq V] in
theorem edits_of_valid (h : validateEdit B edit ((edit.computedId B).getD "") = none) :
    ∃ action key, edit.Edits B action key := by
  cases haction : edit.action with
  | error text =>
    simp only [validateEdit, haction] at h
    cases h
  | ok action =>
    cases hkind : edit.kind with
    | error text =>
      simp only [validateEdit, haction, hkind] at h
      cases h
    | ok kind => exact ⟨action, (kind, (edit.computedId B).getD ""), h, haction, hkind, rfl⟩

omit [DecidableEq V] in
theorem RefinementEdit.Edits.passes (he : edit.Edits B action key) : validateEdit B edit key.2 = none :=
  he.id ▸ he.valid

omit [DecidableEq V] in
theorem RefinementEdit.Edits.shown (he : edit.Edits B action key) : edit.throws = false := by
  simp only [RefinementEdit.throws, he.action, he.kind]

theorem applyEdit_refused (he : edit.Edits B action key) (hb : cloneEntry s.entries key = some before)
    (hw : cloneBaseline baseline key = some was)
    (h : Stale baseline s key before was ∨ action.meets before = false) :
    ∃ s', applyEdit B scope baseline now s edit = some s' ∧ Refused s s' := by
  simp only [applyEdit, he.shown, Bool.false_eq_true, if_false, he.passes, he.action, he.kind, he.id, hb, hw,
    bind_eq_bind, bind_some]
  by_cases hstale : baseline.isSome = true ∧ key ∉ s.modifiedKeys ∧ before ≠ was
  · rw [if_pos hstale]
    exact ⟨_, rfl, _, rfl, rfl⟩
  · rw [if_neg hstale]
    replace h := h.resolve_left hstale
    cases action <;> cases before <;> first
      | exact ⟨_, rfl, _, rfl, rfl⟩
      | cases h

theorem applyEdit_applied (he : edit.Edits B action key) (hb : cloneEntry s.entries key = some before)
    (hw : cloneBaseline baseline key = some was) (hstale : ¬ Stale baseline s key before was)
    (h : action.meets before = true) :
    ∃ s' a, applyEdit B scope baseline now s edit = some s' ∧ Applied B scope edit action key before s s' a := by
  have hnot : ¬ (baseline.isSome = true ∧ key ∉ s.modifiedKeys ∧ before ≠ was) := hstale
  simp only [applyEdit, he.shown, Bool.false_eq_true, if_false, he.passes, he.action, he.kind, he.id, hb, hw,
    bind_eq_bind, bind_some, if_neg hnot]
  cases action with
  | create =>
    cases before with
    | none => exact ⟨_, _, rfl, rfl, he.kind, rfl, rfl, .inr ⟨_, _, rfl, by simp, rfl⟩, rfl, rfl⟩
    | some before => cases h
  | update =>
    cases before with
    | none => cases h
    | some before => exact ⟨_, _, rfl, rfl, he.kind, rfl, rfl, .inr ⟨_, _, rfl, by simp, rfl⟩, rfl, rfl⟩
  | delete =>
    cases before with
    | none => cases h
    | some before => exact ⟨_, _, rfl, rfl, he.kind, rfl, rfl, .inl ⟨rfl, rfl, rfl⟩, rfl, rfl⟩

end Loop

/-! ### Edits that pass validation -/

/-- The edit that writes an entry back. -/
def restoring (action : RefinementAction) (key : Key) (e : HarnessEntry V) : RefinementEdit V where
  action := .ok action
  kind := .ok key.1
  id := some key.2
  title := some e.title
  content := some e.content
  path := some e.path
  reference := some e.reference
  arguments := some e.arguments
  metadata := some e.metadata

def deleting (key : Key) : RefinementEdit V where
  action := .ok .delete
  kind := .ok key.1
  id := some key.2
  title := none
  content := none
  path := none
  reference := none
  arguments := none
  metadata := none

/-- The base prompt is out of reach. -/
def BasePrompt (key : Key) : Prop := key.1 = .prompt ∧ key.2 = "base_system_prompt"

section Validation

variable {B : Builtins V} {scope : HarnessScope} {edit : RefinementEdit V} {action : RefinementAction} {key : Key}
  {e : HarnessEntry V}

theorem falsy_eq_false {text : Option String} : falsy text = false ↔ ∃ t, text = some t ∧ t ≠ "" := by
  cases text with
  | none => exact iff_of_false (by decide) nofun
  | some t => simp [falsy]

theorem falsy_some_eq_false {text : String} : falsy (some text) = false ↔ text ≠ "" :=
  falsy_eq_false.trans ⟨fun ⟨_, ht, hne⟩ => Option.some.inj ht ▸ hne, fun hne => ⟨text, rfl, hne⟩⟩

theorem validateReference_congr (name name' : String) (reference : Option V) :
    validateReference B name reference = none ↔ validateReference B name' reference = none := by
  cases reference with
  | none => exact iff_of_false nofun nofun
  | some reference =>
    simp only [validateReference]
    repeat' split
    all_goals simp

theorem check_eq_none {c : Prop} [Decidable c] {error : String} {rest : Option String} :
    (if c then some error else rest) = none ↔ ¬ c ∧ rest = none := by
  by_cases hc : c <;> simp [hc]

theorem validateEdit_eq_none {id : String} (haction : edit.action = .ok action) (hkind : edit.kind = .ok key.1) :
    validateEdit B edit id = none ↔
      ¬ (key.1 = .prompt ∧ (edit.id = some "base_system_prompt" ∨ id = "base_system_prompt")) ∧
      (action ≠ .create → falsy edit.id = false) ∧
      (action ≠ .delete → falsy edit.title = false ∧ falsy edit.content = false) ∧
      (action ≠ .delete → key.1 = .skill →
        edit.arguments.isSome = true ∧ validateReference B "update" edit.reference = none) := by
  rw [validateReference_congr "update" action.text]
  simp only [validateEdit, haction, hkind, check_eq_none, ite_eq_right_iff, not_and, not_or, Bool.not_eq_true,
    isNone_eq_false_iff]
  constructor
  · rintro ⟨hbase, hid, htext, harguments, hreference⟩
    exact ⟨hbase, hid, htext, fun ha hk => ⟨harguments ha hk, hreference ⟨ha, hk⟩⟩⟩
  · rintro ⟨hbase, hid, htext, hskill⟩
    exact ⟨hbase, hid, htext, fun ha hk => (hskill ha hk).1, fun h => (hskill h.1 h.2).2⟩

theorem RefinementEdit.Edits.not_base (he : edit.Edits B action key) : ¬ BasePrompt key := fun hbase =>
  ((validateEdit_eq_none he.action he.kind).1 he.passes).1 ⟨hbase.1, .inr hbase.2⟩

theorem RefinementEdit.Edits.id_ne (he : edit.Edits B action key) (h : action ≠ .create) : key.2 ≠ "" := by
  obtain ⟨id, hid, hne⟩ := falsy_eq_false.1 (((validateEdit_eq_none he.action he.kind).1 he.passes).2.1 h)
  have hkey := he.id
  rw [RefinementEdit.computedId, hid] at hkey
  exact hkey ▸ hne

theorem RefinementEdit.Edits.writable (he : edit.Edits B action key) (h : action ≠ .delete)
    (createdAt updatedAt : String) (before : Option (HarnessEntry V)) :
    (edit.after B scope createdAt updatedAt key.2 before).Writable B key.1 := by
  obtain ⟨-, -, htext, hskill⟩ := (validateEdit_eq_none he.action he.kind).1 he.passes
  obtain ⟨title, htitle, htitle'⟩ := falsy_eq_false.1 (htext h).1
  obtain ⟨content, hcontent, hcontent'⟩ := falsy_eq_false.1 (htext h).2
  refine ⟨?_, ?_, fun hk => ?_⟩
  · rw [RefinementEdit.after, htitle]
    exact htitle'
  · rw [RefinementEdit.after, hcontent]
    exact hcontent'
  · have href := (hskill h hk).2
    cases hreference : edit.reference with
    | none =>
      rw [hreference] at href
      cases href
    | some reference =>
      rw [hreference] at href
      rw [RefinementEdit.after, hreference]
      exact href

theorem restoring_passes (h : action ≠ .delete) : validateEdit B (restoring action key e) key.2 = none ↔
    e.Writable B key.1 ∧ ¬ BasePrompt key ∧ (action ≠ .create → key.2 ≠ "") := by
  rw [validateEdit_eq_none rfl rfl]
  simp only [restoring, falsy_some_eq_false, Option.some.injEq, or_self, ne_eq, h, not_false_eq_true,
    forall_true_left, isSome_some, true_and]
  constructor
  · rintro ⟨hbase, hid, ⟨htitle, hcontent⟩, hreference⟩
    exact ⟨⟨htitle, hcontent, hreference⟩, hbase, hid⟩
  · rintro ⟨hwritable, hbase, hid⟩
    exact ⟨hbase, hid, ⟨hwritable.title, hwritable.content⟩, hwritable.reference⟩

theorem deleting_passes : validateEdit B (deleting key : RefinementEdit V) key.2 = none ↔
    ¬ BasePrompt key ∧ key.2 ≠ "" := by
  rw [validateEdit_eq_none rfl rfl]
  simp [deleting, falsy_some_eq_false, BasePrompt]

theorem restoring_edits (h : action ≠ .delete) (hw : e.Writable B key.1) (hbase : ¬ BasePrompt key)
    (hid : key.2 ≠ "") : (restoring action key e).Edits B action key :=
  ⟨(restoring_passes h).2 ⟨hw, hbase, fun _ => hid⟩, rfl, rfl, rfl⟩

theorem deleting_edits (hbase : ¬ BasePrompt key) (hid : key.2 ≠ "") :
    (deleting key : RefinementEdit V).Edits B .delete key :=
  ⟨deleting_passes.2 ⟨hbase, hid⟩, rfl, rfl, rfl⟩

theorem kept_restoring (before : Option (HarnessEntry V)) (h : (before.map (·.scope)).getD scope = e.scope)
    (createdAt updatedAt : String) :
    ((restoring action key e).after B scope createdAt updatedAt key.2 before).kept = e.kept := by
  simp only [kept, RefinementEdit.after, restoring, getD_some, h]

end Validation

/-! ### Lookups -/

section Lookups

variable {entries entries' : OrderedMap Key (HarnessEntry V)} {key : Key} {e : HarnessEntry V}

theorem cloneEntry_of_some (h : entries.get? key = some e) : cloneEntry entries key = some (some (.entry e)) := by
  rw [cloneEntry, h]

theorem cloneEntry_of_none (h : entries.get? key = none) (hown : OwnName key.2) :
    cloneEntry entries key = some none := by
  simp only [cloneEntry, h, if_neg hown.1, if_neg hown.2]

theorem get?_of_clone_none (h : cloneEntry entries key = some none) : entries.get? key = none ∧ OwnName key.2 := by
  have hget := get?_of_cloneEntry h
  simp only [cloneEntry, ← hget, bind_none] at h
  by_cases hkey : key.2 ∈ inheritedNames
  · rw [if_pos hkey] at h
    cases h
  · by_cases hproto : key.2 = "__proto__"
    · rw [if_neg hkey, if_pos hproto] at h
      cases h
    · exact ⟨hget.symm, hkey, hproto⟩

theorem proto_of_clone (h : cloneEntry entries key = some (some .prototype)) : key.2 = "__proto__" := by
  have hget := get?_of_cloneEntry h
  simp only [cloneEntry, ← hget, entry?, bind_some] at h
  split at h
  · cases h
  · split at h
    · assumption
    · cases h

theorem clone_cases {before : Option (Snapshot V)} (h : cloneEntry entries key = some before) :
    before = none ∧ entries.get? key = none ∧ OwnName key.2 ∨
      before = some .prototype ∧ entries.get? key = none ∧ key.2 = "__proto__" ∨
      ∃ e, before = some (.entry e) ∧ entries.get? key = some e := by
  have hget := get?_of_cloneEntry h
  cases before with
  | none => exact .inl ⟨rfl, get?_of_clone_none h⟩
  | some before =>
    cases before with
    | prototype => exact .inr (.inl ⟨rfl, hget.symm, proto_of_clone h⟩)
    | entry e => exact .inr (.inr ⟨e, rfl, hget.symm⟩)

theorem get?_assignEntry (h : entries.get? key = none → OwnName key.2) (j : Key) :
    (assignEntry entries key e).get? j = if j = key then some e else entries.get? j := by
  rw [assignEntry, if_neg, get?_set]
  rintro ⟨hproto, hhas⟩
  exact (h (has_eq_false_iff.1 hhas)).2 hproto

theorem SameEntries.none_iff (h : SameEntries entries entries') (key : Key) :
    entries.get? key = none ↔ entries'.get? key = none := by
  rw [← map_eq_none_iff (f := kept), h key, map_eq_none_iff]

theorem SameEntries.some (h : SameEntries entries entries') (hkey : entries'.get? key = some e) :
    ∃ e', entries.get? key = some e' ∧ e'.kept = e.kept := by
  have hsame := h key
  rw [hkey, map_some] at hsame
  exact map_eq_some_iff.1 hsame

theorem kept_scope {e e' : HarnessEntry V} (h : e.kept = e'.kept) : e.scope = e'.scope := by
  have hscope := congrArg scope h
  exact hscope

end Lookups

/-! ### A refinement that is taken back -/

section TakingBack

variable [DecidableEq V] {B : Builtins V} {scope : HarnessScope} {doc : Document V} {job : HostJob V}
  {now : Nat → String} {s s' : Applying V} {edit : RefinementEdit V} {action : RefinementAction} {key : Key}
  {before : Option (Snapshot V)} {a : AppliedRefinementEdit V}

omit [DecidableEq V] in
theorem Applied.get? (h : Applied B scope edit action key before s s' a)
    (hown : s.entries.get? key = none → OwnName key.2) (j : Key) :
    s'.entries.get? j = if j = key then a.after else s.entries.get? j := by
  rcases h.after with ⟨hafter, -, hentries⟩ | ⟨createdAt, updatedAt, hafter, -, hentries⟩
  · rw [hentries, get?_delete, hafter]
  · rw [hentries, get?_assignEntry hown, hafter]

/-- What the proposal has changed under a key, and may change again, can be written back. -/
structure Ready (B : Builtins V) (scope : HarnessScope) (job : HostJob V) (key : Key)
    (held : Option (HarnessEntry V)) : Prop where
  writable : ∀ e ∈ held, e.Writable B key.1
  own : held = none ∨ job.Edits B .delete key → OwnName key.2
  scope : job.Edits B .delete key → ∀ e ∈ held, e.scope = scope
  id : key.2 ≠ ""

/-- Where the loop is, with the rollback of what it has applied so far. -/
structure Undoable (B : Builtins V) (scope : HarnessScope) (doc : Document V) (job : HostJob V)
    (now : Nat → String) (s : Applying V) : Prop where
  untouched : ∀ key ∉ s.modifiedKeys, s.entries.get? key = doc.entries.get? key
  touched : ∀ key ∈ s.modifiedKeys, Ready B scope job key (s.entries.get? key)
  undone : ∀ u : Applying V, SameEntries u.entries s.entries → (∀ a ∈ u.appliedEdits, a.applied = true) →
    ∃ u', (rollbackEdits s.appliedEdits).foldlM (applyEdit B scope none now) u = some u' ∧
      SameEntries u'.entries doc.entries ∧ ∀ a ∈ u'.appliedEdits, a.applied = true

omit [DecidableEq V] in
theorem rollbackEdits_concat (appliedEdits : List (AppliedRefinementEdit V)) (a : AppliedRefinementEdit V) :
    rollbackEdits (appliedEdits ++ [a]) = a.inverse.toList ++ rollbackEdits appliedEdits := by
  rw [rollbackEdits, reverse_append, reverse_singleton, singleton_append]
  cases h : a.inverse with
  | none => exact filterMap_cons_none h
  | some inverse => exact filterMap_cons_some h

theorem Undoable.refused (h : Undoable B scope doc job now s) (hs : Refused s s') :
    Undoable B scope doc job now s' := by
  obtain ⟨a, ha, rfl⟩ := hs
  refine ⟨h.untouched, h.touched, ?_⟩
  have hinverse : a.inverse = none := if_pos ha
  rw [rollbackEdits_concat, hinverse]
  exact h.undone

/-- The loop never applies an edit to an entry that could not be written back. -/
theorem Undoable.ready (h : Undoable B scope doc job now s) (hjob : Reversible B scope doc job)
    (hedit : edit ∈ job.edits) (he : edit.Edits B action key) (hb : cloneEntry s.entries key = some before)
    {was : Option (Snapshot V)} (hw : cloneBaseline job.baselineState key = some was)
    (hstale : ¬ Stale job.baselineState s key before was) (hmeets : action.meets before = true) :
    Ready B scope job key (s.entries.get? key) := by
  by_cases hkey : key ∈ s.modifiedKeys
  · exact h.touched key hkey
  have hget := h.untouched key hkey
  have hplanned : job.Planned doc key := by
    intro b hb'
    have hsame : before = was := by
      by_contra hne
      exact hstale ⟨isSome_iff_exists.2 ⟨b, hb'⟩, hkey, hne⟩
    rw [mem_def.1 hb', cloneBaseline, ← hsame] at hw
    rw [← hget, ← get?_of_cloneEntry hb, ← get?_of_cloneEntry hw]
  have hnames : job.Edits B action key := ⟨edit, hedit, he⟩
  rw [hget]
  rcases clone_cases hb with ⟨rfl, hnone, hown⟩ | ⟨rfl, hnone, hproto⟩ | ⟨e, rfl, hsome⟩
  · rw [hget] at hnone
    cases action with
    | create =>
      have hid := hjob.created key hnone hplanned hnames
      rw [hnone]
      exact ⟨fun e he => absurd he (not_mem_none e), fun _ => hown,
        fun _ e he => absurd he (not_mem_none e), hid⟩
    | update | delete => cases hmeets
  · rw [hget] at hnone
    have hnot := hjob.prototype key hnone hplanned hproto
    cases action with
    | create => cases hmeets
    | update => exact absurd hnames hnot.1
    | delete => exact absurd hnames hnot.2
  · rw [hget] at hsome
    have hne : action ≠ .create := by
      rintro rfl
      cases hmeets
    have hchanges : job.Edits B .update key ∨ job.Edits B .delete key := by
      cases action with
      | create => exact absurd rfl hne
      | update => exact .inl hnames
      | delete => exact .inr hnames
    rw [hsome]
    refine ⟨?_, ?_, ?_, he.id_ne hne⟩
    · intro e' he'
      obtain rfl := Option.some.inj (mem_def.1 he')
      exact hjob.writable key e hsome hplanned hchanges
    · rintro (hcontra | hdelete)
      · cases hcontra
      · exact (hjob.deleted key e hsome hplanned hdelete).2
    · intro hdelete e' he'
      obtain rfl := Option.some.inj (mem_def.1 he')
      exact (hjob.deleted key e hsome hplanned hdelete).1

omit [DecidableEq V] in
theorem Applied.inverse_created (h : Applied B scope edit action key none s s' a) {e : HarnessEntry V}
    (hafter : a.after = some e) : a.inverse = some (deleting key) := by
  rw [inverse, if_neg (h.applied ▸ Bool.noConfusion), h.found, h.kind, h.id, hafter]
  rfl

omit [DecidableEq V] in
theorem Applied.inverse_entry {e : HarnessEntry V} (h : Applied B scope edit action key (some (.entry e)) s s' a) :
    a.inverse = some (restoring (if a.after.isSome then .update else .create) key e) := by
  rw [inverse, if_neg (h.applied ▸ Bool.noConfusion), h.found, h.kind, h.id]
  rfl

omit [DecidableEq V] in
theorem Ready.applied (h : Ready B scope job key (s.entries.get? key)) (hedit : edit ∈ job.edits)
    (he : edit.Edits B action key) (hb : before.bind entry? = s.entries.get? key)
    (ha : Applied B scope edit action key before s s' a) : Ready B scope job key a.after := by
  rcases ha.after with ⟨hafter, rfl, -⟩ | ⟨createdAt, updatedAt, hafter, hne, -⟩
  · have hdelete : job.Edits B .delete key := ⟨edit, hedit, he⟩
    rw [hafter]
    exact ⟨fun e he => absurd he (not_mem_none e), fun _ => h.own (.inr hdelete),
      fun _ e he => absurd he (not_mem_none e), h.id⟩
  · rw [hafter, hb]
    refine ⟨?_, ?_, ?_, h.id⟩
    · intro e' he'
      obtain rfl := Option.some.inj (mem_def.1 he')
      exact he.writable hne _ _ _
    · rintro (hcontra | hdelete)
      · cases hcontra
      · exact h.own (.inr hdelete)
    · intro hdelete e' he'
      obtain rfl := Option.some.inj (mem_def.1 he')
      show ((s.entries.get? key).map (·.scope)).getD scope = scope
      cases hheld : s.entries.get? key with
      | none => rfl
      | some e => exact h.scope hdelete e hheld

/-- The inverse of an edit is applied, and brings back what the edit has changed. -/
theorem Applied.undo (h : Applied B scope edit action key before s s' a) (he : edit.Edits B action key)
    (hedit : edit ∈ job.edits) (hmeets : action.meets before = true)
    (hready : Ready B scope job key (s.entries.get? key))
    (hb : cloneEntry s.entries key = some before) {u : Applying V} (hu : SameEntries u.entries s'.entries)
    (hall : ∀ a ∈ u.appliedEdits, a.applied = true) :
    ∃ inverse u', a.inverse = some inverse ∧ applyEdit B scope none now u inverse = some u' ∧
      SameEntries u'.entries s.entries ∧ ∀ a ∈ u'.appliedEdits, a.applied = true := by
  have hget := h.get? fun hnone => hready.own (.inl hnone)
  have hbase := he.not_base
  -- What is left to show once the inverse is known to be an edit of the entry that meets what it finds.
  have hdone : ∀ inverse action' before', a.inverse = some inverse → inverse.Edits B action' key →
      cloneEntry u.entries key = some before' → action'.meets before' = true →
      (u.entries.get? key = none → OwnName key.2) →
      (∀ u' b, Applied B scope inverse action' key before' u u' b →
        b.after.map kept = (s.entries.get? key).map kept) →
      ∃ inverse u', a.inverse = some inverse ∧ applyEdit B scope none now u inverse = some u' ∧
        SameEntries u'.entries s.entries ∧ ∀ a ∈ u'.appliedEdits, a.applied = true := by
    intro inverse action' before' hinverse hedits hclone hmeets hown hback
    have happlied : ∃ u' b, applyEdit B scope none now u inverse = some u' ∧
        Applied B scope inverse action' key before' u u' b :=
      applyEdit_applied hedits hclone rfl (fun hstale => Bool.noConfusion hstale.1) hmeets
    obtain ⟨u', b, hu', hb'⟩ := happlied
    refine ⟨inverse, u', hinverse, hu', ?_, ?_⟩
    · intro j
      rw [hb'.get? hown]
      by_cases hj : j = key
      · rw [if_pos hj, hback u' b hb', hj]
      · rw [if_neg hj, hu j, hget j, if_neg hj]
    · rw [hb'.appliedEdits]
      intro c hc
      rcases mem_append.1 hc with hc | hc
      · exact hall c hc
      · rw [mem_singleton.1 hc]
        exact hb'.applied
  rcases clone_cases hb with ⟨rfl, hnone, hown⟩ | ⟨rfl, hnone, hproto⟩ | ⟨e, rfl, hsome⟩
  -- A create: the rollback deletes.
  · rcases h.after with ⟨-, rfl, -⟩ | ⟨createdAt, updatedAt, hafter, -, -⟩
    · cases hmeets
    have hheld := hget key
    rw [if_pos rfl, hafter] at hheld
    obtain ⟨e', he', -⟩ := hu.some hheld
    refine hdone _ .delete _ (h.inverse_created hafter) (deleting_edits hbase hready.id) (cloneEntry_of_some he')
      rfl ?_ ?_
    · intro hcontra
      rw [he'] at hcontra
      cases hcontra
    · intro u' b hb'
      rcases hb'.after with ⟨hb', -, -⟩ | ⟨-, -, -, hne, -⟩
      · rw [hb', hnone]
      · exact absurd rfl hne
  · exact absurd hproto (hready.own (.inl hnone)).2
  · have hwritable := hready.writable e hsome
    have hinverse := h.inverse_entry
    rcases h.after with ⟨hafter, rfl, -⟩ | ⟨createdAt, updatedAt, hafter, -, -⟩
    -- A delete: the rollback creates the entry again, in the scope of the store.
    · rw [hafter] at hinverse
      have hdelete : job.Edits B .delete key := ⟨edit, hedit, he⟩
      have hown := hready.own (.inr hdelete)
      have hheld := hget key
      rw [if_pos rfl, hafter] at hheld
      have hgone := (hu.none_iff key).2 hheld
      refine hdone (restoring .create key e) .create none hinverse
        (restoring_edits nofun hwritable hbase hready.id) (cloneEntry_of_none hgone hown) rfl (fun _ => hown) ?_
      intro u' b hb'
      rcases hb'.after with ⟨-, hcontra, -⟩ | ⟨createdAt, updatedAt, hb', -, -⟩
      · cases hcontra
      · have hkept : ((restoring .create key e).after B scope createdAt updatedAt key.2 none).kept = e.kept :=
          kept_restoring none (hready.scope hdelete e hsome).symm createdAt updatedAt
        rw [hb', hsome, map_some]
        exact congrArg some hkept
    -- An update: the rollback updates the entry again, which keeps its scope.
    · rw [hafter] at hinverse
      have hheld := hget key
      rw [if_pos rfl, hafter] at hheld
      obtain ⟨e', he', hkept⟩ := hu.some hheld
      replace hkept := kept_scope hkept
      have hscope : e'.scope = e.scope := hkept
      refine hdone (restoring .update key e) .update _ hinverse
        (restoring_edits nofun hwritable hbase hready.id) (cloneEntry_of_some he') rfl ?_ ?_
      · intro hcontra
        rw [he'] at hcontra
        cases hcontra
      · intro u' b hb'
        rcases hb'.after with ⟨-, hcontra, -⟩ | ⟨createdAt, updatedAt, hb', -, -⟩
        · cases hcontra
        · have hback : ((restoring .update key e).after B scope createdAt updatedAt key.2 (some e')).kept = e.kept :=
            kept_restoring (some e') hscope createdAt updatedAt
          rw [hb', hsome, map_some]
          exact congrArg some hback

/-- One edit of the proposal goes through, and can be taken back with those before it. -/
theorem Undoable.step (h : Undoable B scope doc job now s) (hjob : Reversible B scope doc job)
    (hedit : edit ∈ job.edits) :
    ∃ s', applyEdit B scope job.baselineState job.now s edit = some s' ∧ Undoable B scope doc job now s' := by
  by_cases hvalid : validateEdit B edit ((edit.computedId B).getD "") = none
  swap
  · obtain ⟨s', hs', hrefused⟩ := applyEdit_invalid (hjob.shown edit hedit) hvalid
    exact ⟨s', hs', h.refused hrefused⟩
  obtain ⟨action, key, he⟩ := edits_of_valid hvalid
  have hnames : job.Edits B action key := ⟨edit, hedit, he⟩
  have hclone : ∃ before, cloneEntry s.entries key = some before := by
    cases hget : s.entries.get? key with
    | some e => exact ⟨_, cloneEntry_of_some hget⟩
    | none =>
      by_cases hinherited : key.2 ∈ inheritedNames
      · by_cases hkey : key ∈ s.modifiedKeys
        · exact absurd hinherited ((h.touched key hkey).own (.inl hget)).1
        · have hthere := (hjob.hidden action key hinherited hnames).1
          rw [← h.untouched key hkey, hget] at hthere
          cases hthere
      · simp only [cloneEntry, hget, if_neg hinherited]
        split
        · exact ⟨_, rfl⟩
        · exact ⟨_, rfl⟩
  have hbaseline : ∃ was, cloneBaseline job.baselineState key = some was := by
    cases hb : job.baselineState with
    | none => exact ⟨_, rfl⟩
    | some baseline =>
      cases hget : baseline.entries.get? key with
      | some e => exact ⟨_, cloneEntry_of_some hget⟩
      | none =>
        by_cases hinherited : key.2 ∈ inheritedNames
        · have hthere := (hjob.hidden action key hinherited hnames).2 baseline hb
          rw [hget] at hthere
          cases hthere
        · simp only [cloneBaseline, cloneEntry, hget, if_neg hinherited]
          split
          · exact ⟨_, rfl⟩
          · exact ⟨_, rfl⟩
  obtain ⟨before, hb⟩ := hclone
  obtain ⟨was, hw⟩ := hbaseline
  by_cases hskip : Stale job.baselineState s key before was ∨ action.meets before = false
  · obtain ⟨s', hs', hrefused⟩ := applyEdit_refused he hb hw hskip
    exact ⟨s', hs', h.refused hrefused⟩
  obtain ⟨hstale, hmeets⟩ := not_or.1 hskip
  replace hmeets := Bool.not_eq_false _ ▸ hmeets
  have hready := h.ready hjob hedit he hb hw hstale hmeets
  have happlied : ∃ s' a, applyEdit B scope job.baselineState job.now s edit = some s' ∧
      Applied B scope edit action key before s s' a := applyEdit_applied he hb hw hstale hmeets
  obtain ⟨s', a, hs', ha⟩ := happlied
  have hget := ha.get? fun hnone => hready.own (.inl hnone)
  refine ⟨s', hs', ?_, ?_, ?_⟩
  · intro j hj
    rw [ha.modifiedKeys, mem_append, mem_singleton, not_or] at hj
    rw [hget, if_neg hj.2, h.untouched j hj.1]
  · intro j hj
    rw [hget]
    by_cases hkey : j = key
    · rw [if_pos hkey, hkey]
      exact hready.applied hedit he (get?_of_cloneEntry hb) ha
    · rw [ha.modifiedKeys, mem_append, mem_singleton, or_iff_left hkey] at hj
      rw [if_neg hkey]
      exact h.touched j hj
  · intro u hu hall
    obtain ⟨inverse, u', hinverse, hu', hsame, hall'⟩ := ha.undo he hedit hmeets hready hb hu hall
    rw [ha.appliedEdits, rollbackEdits_concat, hinverse, toList_some, singleton_append, foldlM_cons, hu']
    exact h.undone u' hsame hall'

omit [DecidableEq V] in
theorem Refused.records (h : Refused s s') : ∃ a, s'.appliedEdits = s.appliedEdits ++ [a] ∧ a.applied = false := by
  obtain ⟨a, ha, rfl⟩ := h
  exact ⟨a, rfl, ha⟩

omit [DecidableEq V] in
theorem Refused.same (h : Refused s s') : s'.entries = s.entries ∧ s'.modifiedKeys = s.modifiedKeys := by
  obtain ⟨a, -, rfl⟩ := h
  exact ⟨rfl, rfl⟩

variable {baseline : Option (Document V)} {edits : List (RefinementEdit V)}

end TakingBack

end Harness
end Core
end RePrime
