import RePrime.Lib.OrderedMap
import RePrime.Lib.Runs

/-!
# RePrime.Core.AuthPersistence

How `AuthStorage` (`auth-storage.ts`) keeps credentials: a copy in memory, a load error, recorded errors, and a
storage that others write to as well.

* `withLock`: a read or a change of the storage under its lock, which may throw.
* `step`: the calls, their failures, and what others leave in the storage.
* `lost_of_run`: no change is lost that is made while no load error is pending.
* `set_lost`: after a load that failed, `set` changes the memory alone and records nothing.

A credential is of any type with a decidable equality. `login` is `set`, and `logout` one of the removals.
-/

namespace RePrime
namespace Core
namespace AuthPersistence

variable {C : Type}

abbrev AuthStorageData (C : Type) := OrderedMap String C

/-- What is stored: an object, or a text that `parseStorageData` throws at. -/
inductive Content (C : Type) where
  | data (data : AuthStorageData C)
  | invalid

/-- `parseStorageData`, `none` when it throws. -/
def parseStorageData : Option (Content C) → Option (AuthStorageData C)
  | none => some .empty
  | some (.data data) => some data
  | some .invalid => none

/-- How an access ends. The release of the lock may throw after the write. -/
inductive Access where
  | ok | fails | releaseFails
deriving DecidableEq

structure State (C : Type) where
  storage : Option (Content C)
  data : AuthStorageData C
  loadError : Bool
  /-- How many errors are recorded. -/
  errors : Nat
  /-- What the refreshes that are under way have read. -/
  refreshes : List (AuthStorageData C)

namespace State

variable (s : State C)

def recordError : State C := { s with errors := s.errors + 1 }

/-- `withLock`: what it makes of the storage, and what was read when it does not throw. -/
def withLock (access : Access) (next : AuthStorageData C → Option (AuthStorageData C)) :
    State C × Option (AuthStorageData C) :=
  match access, parseStorageData s.storage with
  | .fails, _ | _, none => (s, none)
  | access, some current =>
    ({ s with storage := ((next current).map Content.data).or s.storage },
      if access = .ok then some current else none)

/-- Assigning the key `__proto__` makes no property. -/
def assign (data : AuthStorageData C) (provider : String) (credential : C) : AuthStorageData C :=
  if provider = "__proto__" ∧ data.has provider = false then data else data.set provider credential

/-- The storage's data with a change of one provider, which is a removal when there is no credential. -/
def change (provider : String) (credential : Option C) (data : AuthStorageData C) : AuthStorageData C :=
  match credential with
  | some credential => assign data provider credential
  | none => data.delete provider

def persistProviderChange (provider : String) (credential : Option C) (access : Access) : State C :=
  if s.loadError then s
  else
    match s.withLock access fun current => some (change provider credential current) with
    | (s, some _) => s
    | (s, none) => s.recordError

/-- `set`, and `remove` without a credential. -/
def setOrRemove (provider : String) (credential : Option C) (access : Access) : State C :=
  { s with data := change provider credential s.data }.persistProviderChange provider credential access

def set (provider : String) (credential : C) (access : Access) : State C :=
  s.setOrRemove provider (some credential) access

def remove (provider : String) (access : Access) : State C := s.setOrRemove provider none access

def reload (access : Access) : State C :=
  match s.withLock access fun _ => none with
  | (s, some current) => { s with data := current, loadError := false }
  | (s, none) => { s with loadError := true }.recordError

/-- The calls that throw instead of recording an error: `removeVerified`, `restoreCredentialIfAbsent`,
`removeIfCredentialMatches`, `replaceCredentialIfMatches` and the moves of a staged credential. After a change the
first ones change the copy as well, and the moves reload it. -/
def verified (next : AuthStorageData C → Option (AuthStorageData C))
    (cache : Option (AuthStorageData C → AuthStorageData C)) (access again : Access) : State C :=
  match s.withLock access next with
  | (s, none) => s
  | (s, some current) =>
    match next current, cache with
    | none, _ => s
    | some _, some cache => { s with data := cache s.data }
    | some _, none => s.reload again

def updatePrimeInferenceCredential (update : Option C → Option C) (access : Access) : State C :=
  let next := fun data => (update (data.get? "prime-inference")).map (data.set "prime-inference")
  match s.withLock access next with
  | (s, some current) => { s with data := (next current).getD current, loadError := false }
  | (s, none) => s.recordError

/-- `refreshOAuthTokenWithLock` reads the storage. When that throws its caller records the error and reloads. -/
def refreshRead (access again : Access) : State C :=
  match s.withLock access fun _ => none with
  | (s, some current) => { s with data := current, loadError := false, refreshes := s.refreshes ++ [current] }
  | (s, none) => s.recordError.reload again

/-- The refreshed credential is written over what was read before. -/
def refreshWrite (current : AuthStorageData C) (provider : String) (credential : C) (access again : Access) : State C :=
  let merged := current.set provider credential
  let s := { s with data := merged, loadError := false }
  match access with
  | .ok => { s with storage := some (.data merged) }
  | .fails => s.recordError.reload again
  | .releaseFails => { s with storage := some (.data merged) }.recordError.reload again

/-- `create`, with its reload. -/
def create (storage : Option (Content C)) (access : Access) : State C :=
  State.reload ⟨storage, .empty, false, 0, []⟩ access

/-- What the storage holds of a provider, when it can be parsed. -/
def stored (provider : String) : Option (Option C) := (parseStorageData s.storage).map (·.get? provider)

end State

/-! ## Runs -/

inductive Action (C : Type) where
  | set (provider : String) (credential : C) (access : Access)
  | remove (provider : String) (access : Access)
  | reload (access : Access)
  | drainErrors
  | verified (next : AuthStorageData C → Option (AuthStorageData C))
    (cache : Option (AuthStorageData C → AuthStorageData C)) (access again : Access)
  | updatePrimeInferenceCredential (update : Option C → Option C) (access : Access)
  | refreshRead (access again : Access)
  | refreshWrite (i : Nat) (provider : String) (credential : C) (access again : Access)
  | refreshFails (again : Access)
  /-- Somebody else leaves this in the storage. -/
  | other (storage : Option (Content C))

def State.next (s : State C) : Action C → Option (State C)
  | .set provider credential access => some (s.set provider credential access)
  | .remove provider access => some (s.remove provider access)
  | .reload access => some (s.reload access)
  | .drainErrors => some { s with errors := 0 }
  | .verified next cache access again => some (s.verified next cache access again)
  | .updatePrimeInferenceCredential update access => some (s.updatePrimeInferenceCredential update access)
  | .refreshRead access again => some (s.refreshRead access again)
  | .refreshWrite i provider credential access again =>
    s.refreshes[i]?.map fun current => s.refreshWrite current provider credential access again
  | .refreshFails again => some (s.recordError.reload again)
  | .other storage => some { s with storage }

/-- The change of a credential that a call makes. -/
def Action.credential? : Action C → Option (String × Option C)
  | .set provider credential _ => some (provider, some credential)
  | .remove provider _ => some (provider, none)
  | _ => none

/-- A storage with the changes that were neither stored nor reported. -/
structure Watched (C : Type) where
  state : State C
  lost : List (String × Option C)

variable [DecidableEq C]

def step (w : Watched C) (a : Action C) : Option (Watched C) :=
  (w.state.next a).map fun s =>
    ⟨s, w.lost ++ a.credential?.toList.filter fun c => ¬ (s.stored c.1 = some c.2 ∨ w.state.errors < s.errors)⟩

/-- A change is made while no load error is pending, and what is set can be assigned to a property, or it is the
change that the storage holds already. -/
def Guard (w : Watched C) (a : Action C) : Prop :=
  ∀ c ∈ a.credential?, w.state.loadError = false ∧ (c.2.isSome = true → c.1 ≠ "__proto__") ∨
    w.state.stored c.1 = some c.2

instance guardDecidable (w : Watched C) (a : Action C) : Decidable (Guard w a) :=
  inferInstanceAs (Decidable (∀ c ∈ a.credential?, _))

namespace State

omit [DecidableEq C]

theorem get?_change {provider : String} {credential : Option C} {data : AuthStorageData C}
    (h : (credential.isSome = true → provider ≠ "__proto__") ∨ data.get? provider = credential) :
    (change provider credential data).get? provider = credential := by
  cases credential with
  | none => simp [change, OrderedMap.get?_delete]
  | some credential =>
    simp only [change, assign]
    split
    · rename_i hproto
      rw [h.resolve_left fun h => h rfl hproto.1]
    · rw [OrderedMap.get?_set, if_pos rfl]

/-- A change is stored, or its call has recorded an error. -/
theorem setOrRemove_kept {s : State C} {provider : String} {credential : Option C}
    (h : s.loadError = false ∧ (credential.isSome = true → provider ≠ "__proto__") ∨
      s.stored provider = some credential) (access : Access) :
    (s.setOrRemove provider credential access).stored provider = some credential ∨
      s.errors < (s.setOrRemove provider credential access).errors := by
  cases he : s.loadError with
  | true =>
    rw [setOrRemove, persistProviderChange, if_pos he]
    exact .inl (h.resolve_left fun h => by rw [he] at h; cases h.1)
  | false =>
    simp only [setOrRemove, persistProviderChange, he, withLock]
    cases hp : parseStorageData s.storage with
    | none => cases access <;> exact .inr (Nat.lt_succ_self _)
    | some current =>
      cases access with
      | fails | releaseFails => exact .inr (Nat.lt_succ_self _)
      | ok =>
        refine .inl (congrArg some (get?_change (h.imp And.right fun h => ?_)))
        rw [stored, hp] at h
        exact Option.some.inj h

end State

omit [DecidableEq C] in
theorem setOrRemove_of_next {s s' : State C} {a : Action C} {c : String × Option C} (h : s.next a = some s')
    (ha : a.credential? = some c) : ∃ access, s' = s.setOrRemove c.1 c.2 access := by
  cases a with
  | set provider credential access =>
    cases h
    cases ha
    exact ⟨access, rfl⟩
  | remove provider access =>
    cases h
    cases ha
    exact ⟨access, rfl⟩
  | _ => cases ha

/-- In every run whose changes are made while no load error is pending, each is stored or reported. -/
theorem lost_of_run (storage : Option (Content C)) (access : Access) {w : Watched C}
    (h : Transition.GuardedRuns step Guard ⟨.create storage access, []⟩ w) : w.lost = [] := by
  refine h.keeps (P := fun w => w.lost = []) rfl fun w w' a hw hg hstep => ?_
  obtain ⟨s, hs, rfl⟩ := Option.map_eq_some_iff.1 hstep
  cases ha : a.credential? with
  | none => rw [hw, Option.toList_none, List.filter_nil, List.append_nil]
  | some c =>
    obtain ⟨access, rfl⟩ := setOrRemove_of_next hs ha
    have hkept := State.setOrRemove_kept (hg c ha) access
    rw [hw, Option.toList_some, List.filter_singleton, decide_eq_false (not_not.2 hkept)]
    rfl

/-- A write that fails and is reported, a removal of a name that nothing can be assigned to, and a write that goes
through. -/
theorem lost_of_login : ∃ w : Watched String, (w.state.errors = 1 ∧ w.state.stored "openai" = some none ∧
    w.state.stored "groq" = some (some "sk-2")) ∧ w.lost = [] := by
  have hrun : ((Transition.guardedSteps step Guard [.set "openai" "sk-1" .fails, .remove "__proto__" .ok,
      .set "groq" "sk-2" .ok] ⟨.create (none : Option (Content String)) .ok, []⟩).any fun w =>
        decide (w.state.errors = 1 ∧ w.state.stored "openai" = some none ∧
          w.state.stored "groq" = some (some "sk-2"))) = true := by
    decide
  obtain ⟨w, hrun, htest⟩ := Transition.exists_guardedRun hrun
  exact ⟨w, of_decide_eq_true htest, lost_of_run none .ok hrun⟩

/-- The storage is locked when it is loaded, the error is drained, and then a key is set. -/
theorem set_lost : ∃ w : Watched String,
    Transition.Runs step ⟨.create (none : Option (Content String)) .fails, []⟩ w ∧
      w.state.errors = 0 ∧ w.state.data.get? "openai" = some "sk-1" ∧ w.lost = [("openai", some "sk-1")] := by
  have hrun : ((Transition.steps step [.drainErrors, .set "openai" "sk-1" .ok]
      ⟨.create (none : Option (Content String)) .fails, []⟩).any fun w => decide (w.state.errors = 0 ∧
        w.state.data.get? "openai" = some "sk-1" ∧ w.lost = [("openai", some "sk-1")])) = true := by
    decide
  obtain ⟨w, hrun, htest⟩ := Transition.exists_run hrun
  exact ⟨w, hrun, of_decide_eq_true htest⟩

end AuthPersistence
end Core
end RePrime
