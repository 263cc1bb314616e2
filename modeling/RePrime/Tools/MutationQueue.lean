import RePrime.Lib.OrderedMap

/-!
# RePrime.Tools.MutationQueue

Operations on files, each in the queue of the path that its file had when it arrived.

* `Files`: directories, files and symbolic links; `realpath` and `denotes` follow them.
* `State.step`: operations arrive, start, finish, and their promises settle, in any order.
* `denotes_of_realpath`: `realpath` gives the file that is written through a path.
* `serialized_of_run`: operations whose paths keep their files run one at a time, in the order of their arrival.
* `progress_of_run`: no call is stuck, whatever runs, returns or throws.
-/

namespace RePrime
namespace Tools
namespace MutationQueue

open List

/-! ## Paths -/

/-- The names of a path from the root. -/
abbrev Path : Type := List String

structure FilePath where
  absolute : Bool
  segments : List String

inductive Node where
  | file
  | directory
  | symlink (target : FilePath)

/-- What is at each place; the names on the way to a place are directories. -/
abbrev Files : Type := Path → Option Node

/-- `resolve(filePath)` -/
def resolve (cwd : Path) (filePath : FilePath) : Path :=
  (if filePath.absolute then filePath.segments else cwd ++ filePath.segments).foldl
    (fun path segment =>
      if segment = ".." then path.dropLast
      else if segment = "." ∨ segment = "" then path
      else path ++ [segment]) []

/-- The place that names lead to from a directory, with links followed; the last name may be missing when
a file is created there. -/
def walk (files : Files) (creating : Bool) : Nat → Path → List String → Option Path
  | 0, _, _ => none
  | _, directory, [] => some directory
  | fuel + 1, directory, segment :: rest =>
    if segment = ".." then walk files creating fuel directory.dropLast rest
    else if segment = "." ∨ segment = "" then walk files creating fuel directory rest
    else
      match files (directory ++ [segment]) with
      | none => if creating ∧ rest = [] then some (directory ++ [segment]) else none
      | some .file => if rest = [] then some (directory ++ [segment]) else none
      | some .directory => walk files creating fuel (directory ++ [segment]) rest
      | some (.symlink target) =>
        walk files creating fuel (if target.absolute then [] else directory) (target.segments ++ rest)

/-- Names and links that are followed before a path is given up. -/
def maxSteps : Nat := 4096

def realpath (files : Files) (path : Path) : Option Path := walk files false maxSteps [] path

/-- The file that is written through a path. -/
def denotes (files : Files) (path : Path) : Option Path := walk files true maxSteps [] path

def getMutationQueueKey (files : Files) (cwd : Path) (filePath : FilePath) : Path :=
  let resolvedPath := resolve cwd filePath
  (realpath files resolvedPath).getD resolvedPath

theorem walk_creating {files : Files} {fuel : Nat} {directory place : Path} {names : List String}
    (h : walk files false fuel directory names = some place) : walk files true fuel directory names = some place := by
  induction fuel generalizing directory names with
  | zero =>
    cases names with
    | nil => cases h
    | cons segment rest => cases h
  | succ fuel ih =>
    cases names with
    | nil => exact h
    | cons segment rest =>
      rw [walk] at h ⊢
      split
      · rename_i hparent
        rw [if_pos hparent] at h
        exact ih h
      · rename_i hparent
        rw [if_neg hparent] at h
        split
        · rename_i hsame
          rw [if_pos hsame] at h
          exact ih h
        · rename_i hsame
          rw [if_neg hsame] at h
          split at h
          · simp at h
          · exact h
          · exact ih h
          · exact ih h

/-- What `realpath` finds is what is written through the path. -/
theorem denotes_of_realpath {files : Files} {path place : Path} (h : realpath files path = some place) :
    denotes files path = some place :=
  walk_creating h

/-! ## Queues -/

/-- A call; `currentQueue` is the call whose chained promise it awaits, and `settled` says that its own is
resolved. -/
structure Operation where
  path : Path
  key : Path
  currentQueue : Option Nat
  settled : Bool

/-- An operation starts on a file, or returns or throws. -/
inductive Event where
  | start (i : Nat) (file : Option Path)
  | finish (i : Nat) (threw : Bool)

structure State where
  files : Files
  operations : List Operation
  fileMutationQueues : OrderedMap Path Nat
  log : List Event

inductive Action where
  | arrive (filePath : FilePath)
  | start (i : Nat)
  | finish (i : Nat) (threw : Bool)
  | settle (i : Nat)
  | change (files : Files)

def started (log : List Event) (i : Nat) : Bool :=
  log.any fun
    | .start k _ => k == i
    | .finish _ _ => false

def finished (log : List Event) (i : Nat) : Bool :=
  log.any fun
    | .start _ _ => false
    | .finish k _ => k == i

namespace State

def new (files : Files) : State :=
  { files, operations := [], fileMutationQueues := .empty, log := [] }

/-- Whether a promise is resolved; `Promise.resolve()` is from the beginning. -/
def resolved (s : State) : Option Nat → Bool
  | none => true
  | some j => (s.operations[j]?).any Operation.settled

def running (s : State) (i : Nat) : Bool := started s.log i && !finished s.log i

/-- `withFileMutationQueue`, cut where it awaits. -/
def step (cwd : Path) (s : State) : Action → Option State
  | .arrive filePath =>
    let key := getMutationQueueKey s.files cwd filePath
    some
      { s with
        operations := s.operations ++
          [{ path := resolve cwd filePath, key, currentQueue := s.fileMutationQueues.get? key, settled := false }]
        fileMutationQueues := s.fileMutationQueues.set key s.operations.length }
  | .start i =>
    match s.operations[i]? with
    | none => none
    | some operation =>
      if s.resolved operation.currentQueue ∧ started s.log i = false then
        some { s with log := s.log ++ [Event.start i (denotes s.files operation.path)] }
      else none
  | .finish i threw =>
    match s.operations[i]? with
    | none => none
    | some operation =>
      if s.running i then
        some
          { s with
            log := s.log ++ [Event.finish i threw]
            fileMutationQueues :=
              if s.fileMutationQueues.get? operation.key = some i then s.fileMutationQueues.delete operation.key
              else s.fileMutationQueues }
      else none
  | .settle i =>
    match s.operations[i]? with
    | none => none
    | some operation =>
      if finished s.log i ∧ s.resolved operation.currentQueue then
        some { s with operations := s.operations.set i { operation with settled := true } }
      else none
  | .change files => some { s with files }

def run (cwd : Path) : State → List Action → Option State
  | s, [] => some s
  | s, act :: rest =>
    match s.step cwd act with
    | none => none
    | some s' => s'.run cwd rest

end State

/-! ## One step -/

theorem finished_append (a b : List Event) (i : Nat) :
    finished (a ++ b) i = (finished a i || finished b i) := any_append

theorem started_append (a b : List Event) (i : Nat) :
    started (a ++ b) i = (started a i || started b i) := any_append

theorem started_eq_true {log : List Event} {i : Nat} :
    started log i = true ↔ ∃ a f b, log = a ++ Event.start i f :: b := by
  rw [started, any_eq_true]
  constructor
  · rintro ⟨event, hmem, hevent⟩
    cases event with
    | finish k threw => cases hevent
    | start k f =>
      obtain ⟨a, b, rfl⟩ := append_of_mem hmem
      exact ⟨a, f, b, by rw [beq_iff_eq.1 hevent]⟩
  · rintro ⟨a, f, b, rfl⟩
    exact ⟨.start i f, by simp, by simp⟩

theorem concat_eq_append_cons {log a b : List Event} {e e' : Event} (h : log ++ [e] = a ++ e' :: b) :
    (a = log ∧ e = e') ∨ ∃ c, log = a ++ e' :: c := by
  obtain rfl | ⟨b, e'', rfl⟩ := b.eq_nil_or_concat
  · obtain ⟨rfl, he⟩ := append_inj' h rfl
    exact .inl ⟨rfl, by simpa using he⟩
  · rw [concat_eq_append, ← cons_append, ← append_assoc] at h
    exact .inr ⟨b, (append_inj' h rfl).1⟩

namespace State

variable {cwd : Path} {s s' : State} {act : Action}

theorem step_cases (h : s.step cwd act = some s') :
    (∃ filePath, act = .arrive filePath ∧ s' = { s with
        operations := s.operations ++
          [{ path := resolve cwd filePath, key := getMutationQueueKey s.files cwd filePath
             currentQueue := s.fileMutationQueues.get? (getMutationQueueKey s.files cwd filePath)
             settled := false }]
        fileMutationQueues :=
          s.fileMutationQueues.set (getMutationQueueKey s.files cwd filePath) s.operations.length }) ∨
    (∃ i operation, act = .start i ∧ s.operations[i]? = some operation ∧
      s.resolved operation.currentQueue = true ∧ started s.log i = false ∧
      s' = { s with log := s.log ++ [Event.start i (denotes s.files operation.path)] }) ∨
    (∃ i threw operation, act = .finish i threw ∧ s.operations[i]? = some operation ∧ s.running i = true ∧
      s' = { s with
          log := s.log ++ [Event.finish i threw]
          fileMutationQueues :=
            if s.fileMutationQueues.get? operation.key = some i then s.fileMutationQueues.delete operation.key
            else s.fileMutationQueues }) ∨
    (∃ i operation, act = .settle i ∧ s.operations[i]? = some operation ∧ finished s.log i = true ∧
      s.resolved operation.currentQueue = true ∧
      s' = { s with operations := s.operations.set i { operation with settled := true } }) ∨
    ∃ files, act = .change files ∧ s' = { s with files } := by
  cases act with
  | arrive filePath =>
    cases h
    exact .inl ⟨filePath, rfl, rfl⟩
  | start i =>
    rw [step] at h
    split at h
    · cases h
    · rename_i operation hop
      split at h
      · rename_i hc
        cases h
        exact .inr (.inl ⟨i, operation, rfl, hop, hc.1, hc.2, rfl⟩)
      · cases h
  | finish i threw =>
    rw [step] at h
    split at h
    · cases h
    · rename_i operation hop
      split at h
      · rename_i hc
        cases h
        exact .inr (.inr (.inl ⟨i, threw, operation, rfl, hop, hc, rfl⟩))
      · cases h
  | settle i =>
    rw [step] at h
    split at h
    · cases h
    · rename_i operation hop
      split at h
      · rename_i hc
        cases h
        exact .inr (.inr (.inr (.inl ⟨i, operation, rfl, hop, hc.1, hc.2, rfl⟩)))
      · cases h
  | change files =>
    cases h
    exact .inr (.inr (.inr (.inr ⟨files, rfl, rfl⟩)))

def keyAt (s : State) (i : Nat) : Option Path := s.operations[i]?.map Operation.key

variable {i : Nat}

theorem lt_of_keyAt {κ : Path} (h : s.keyAt i = some κ) : i < s.operations.length := by
  obtain ⟨operation, hop, -⟩ := Option.map_eq_some_iff.1 h
  exact (List.getElem?_eq_some_iff.1 hop).1

theorem keyAt_of_getElem? {operation : Operation} (h : s.operations[i]? = some operation) :
    s.keyAt i = some operation.key := by
  rw [keyAt, h]
  rfl

/-- Everything in the queue of an operation that came before it is finished. -/
def Ahead (s : State) (log : List Event) (i : Nat) : Prop :=
  ∀ κ, s.keyAt i = some κ → ∀ k < i, s.keyAt k = some κ → finished log k = true

variable {log : List Event}

theorem Ahead.append (h : s.Ahead log i) (more : List Event) :
    s.Ahead (log ++ more) i := by
  intro κ hκ k hk hkey
  rw [finished_append, h κ hκ k hk hkey]
  rfl

theorem Ahead.of_keyAt (h : s.Ahead log i)
    (hkeys : ∀ k ≤ i, s'.keyAt k = s.keyAt k) : s'.Ahead log i := by
  intro κ hκ k hk hkey
  rw [hkeys i (Nat.le_refl i)] at hκ
  rw [hkeys k (Nat.le_of_lt hk)] at hkey
  exact h κ hκ k hk hkey

/-! ## The queues -/

structure Inv (s : State) : Prop where
  queued : ∀ κ j, s.fileMutationQueues.get? κ = some j →
    s.keyAt j = some κ ∧ ∀ k, s.keyAt k = some κ → k ≤ j
  drained : ∀ κ, s.fileMutationQueues.get? κ = none → ∀ k, s.keyAt k = some κ → finished s.log k = true
  first : ∀ i operation, s.operations[i]? = some operation → operation.currentQueue = none → s.Ahead s.log i
  behind : ∀ i operation j, s.operations[i]? = some operation → operation.currentQueue = some j →
    j < i ∧ s.keyAt j = some operation.key ∧ ∀ k < i, s.keyAt k = some operation.key → k ≤ j
  settled : ∀ i operation, s.operations[i]? = some operation → operation.settled = true →
    finished s.log i = true ∧ s.Ahead s.log i
  order : ∀ a i f b, s.log = a ++ Event.start i f :: b → i < s.operations.length ∧ s.Ahead a i

theorem inv_new (files : Files) : (new files).Inv where
  queued κ j h := by cases h
  drained κ _ k h := by cases h
  first i operation h := by cases h
  behind i operation j h := by cases h
  settled i operation h := by cases h
  order a i f b h := by
    have hlen := congrArg List.length h
    simp [new] at hlen

namespace Inv

variable {i : Nat} {operation : Operation}

theorem ahead_of_resolved (h : s.Inv) (hop : s.operations[i]? = some operation)
    (hres : s.resolved operation.currentQueue = true) : s.Ahead s.log i := by
  cases hq : operation.currentQueue with
  | none => exact h.first i operation hop hq
  | some j =>
    rw [hq, resolved, Option.any_eq_true] at hres
    obtain ⟨previous, hprevious, hsettled⟩ := hres
    obtain ⟨hlt, hkeyj, hlast⟩ := h.behind i operation j hop hq
    obtain ⟨hdone, hahead⟩ := h.settled j previous hprevious hsettled
    intro κ hκ k hk hkey
    rw [keyAt_of_getElem? hop] at hκ
    cases hκ
    obtain rfl | hkj := Nat.eq_or_lt_of_le (hlast k hk hkey)
    · exact hdone
    · exact hahead _ hkeyj k hkj hkey

theorem ahead_of_running (h : s.Inv) (hrun : s.running i = true) : s.Ahead s.log i := by
  obtain ⟨a, f, b, hlog⟩ := started_eq_true.1 (Bool.and_eq_true_iff.1 hrun).1
  rw [hlog]
  exact (h.order a i f b hlog).2.append _

theorem arrive (h : s.Inv) (path key : Path) :
    Inv { s with
          operations := s.operations ++
            [{ path, key, currentQueue := s.fileMutationQueues.get? key, settled := false }]
          fileMutationQueues := s.fileMutationQueues.set key s.operations.length } := by
  generalize hs : ({ s with
          operations := s.operations ++
            [{ path, key, currentQueue := s.fileMutationQueues.get? key, settled := false }]
          fileMutationQueues := s.fileMutationQueues.set key s.operations.length } : State) = s'
  have hold : ∀ k < s.operations.length, s'.operations[k]? = s.operations[k]? := by
    intro k hk
    rw [← hs]
    exact getElem?_append_left hk
  have hnew : s'.operations[s.operations.length]? =
      some { path, key, currentQueue := s.fileMutationQueues.get? key, settled := false } := by
    rw [← hs]
    exact getElem?_concat_length
  have hlen : s'.operations.length = s.operations.length + 1 := by
    rw [← hs]
    exact length_append
  have hqueues : s'.fileMutationQueues = s.fileMutationQueues.set key s.operations.length := by rw [← hs]
  have hlog : s'.log = s.log := by rw [← hs]
  have hkeys : ∀ k < s.operations.length, s'.keyAt k = s.keyAt k := by
    intro k hk
    rw [keyAt, hold k hk, keyAt]
  have hlast : s'.keyAt s.operations.length = some key := keyAt_of_getElem? hnew
  have hle : ∀ {k κ}, s'.keyAt k = some κ → k ≤ s.operations.length := by
    intro k κ hk
    have hlt := lt_of_keyAt hk
    omega
  have hsplit : ∀ {k κ}, s'.keyAt k = some κ → (k < s.operations.length ∧ s.keyAt k = some κ) ∨
      (k = s.operations.length ∧ κ = key) := by
    intro k κ hk
    obtain rfl | hlt := Nat.eq_or_lt_of_le (hle hk)
    · rw [hlast] at hk
      cases hk
      exact .inr ⟨rfl, rfl⟩
    · rw [hkeys k hlt] at hk
      exact .inl ⟨hlt, hk⟩
  have hahead : ∀ i < s.operations.length, ∀ log, s.Ahead log i → s'.Ahead log i :=
    fun i hi log ha => ha.of_keyAt fun k hk => hkeys k (Nat.lt_of_le_of_lt hk hi)
  clear hs
  refine ⟨?_, ?_, ?_, ?_, ?_, ?_⟩
  · intro κ j hj
    rw [hqueues, OrderedMap.get?_set] at hj
    split at hj
    · rename_i hκ
      cases hj
      rw [hκ]
      exact ⟨hlast, fun k hk => hle hk⟩
    · rename_i hκ
      obtain ⟨hkey, hmax⟩ := h.queued κ j hj
      refine ⟨by rw [hkeys j (lt_of_keyAt hkey), hkey], fun k hk => ?_⟩
      obtain ⟨-, hk'⟩ | ⟨-, rfl⟩ := hsplit hk
      · exact hmax k hk'
      · exact absurd rfl hκ
  · intro κ hnone k hk
    rw [hqueues, OrderedMap.get?_set] at hnone
    split at hnone
    · cases hnone
    · rename_i hκ
      rw [hlog]
      obtain ⟨-, hk'⟩ | ⟨-, rfl⟩ := hsplit hk
      · exact h.drained κ hnone k hk'
      · exact absurd rfl hκ
  · intro i operation hop hq
    rw [hlog]
    obtain ⟨hi, hkey⟩ | ⟨rfl, hkey⟩ := hsplit (keyAt_of_getElem? hop)
    · rw [hold i hi] at hop
      exact hahead i hi _ (h.first i operation hop hq)
    · rw [hnew] at hop
      cases hop
      intro κ hκ k hk hkey'
      rw [hlast] at hκ
      cases hκ
      rw [hkeys k hk] at hkey'
      exact h.drained key hq k hkey'
  · intro i operation j hop hq
    obtain ⟨hi, -⟩ | ⟨rfl, -⟩ := hsplit (keyAt_of_getElem? hop)
    · rw [hold i hi] at hop
      obtain ⟨hj, hkeyj, hmax⟩ := h.behind i operation j hop hq
      refine ⟨hj, by rw [hkeys j (Nat.lt_trans hj hi), hkeyj], fun k hk hkey => ?_⟩
      rw [hkeys k (Nat.lt_trans hk hi)] at hkey
      exact hmax k hk hkey
    · rw [hnew] at hop
      cases hop
      obtain ⟨hkeyj, hmax⟩ := h.queued key j hq
      have hj := lt_of_keyAt hkeyj
      refine ⟨hj, by rw [hkeys j hj, hkeyj], fun k hk hkey => ?_⟩
      rw [hkeys k hk] at hkey
      exact hmax k hkey
  · intro i operation hop hset
    obtain ⟨hi, -⟩ | ⟨rfl, -⟩ := hsplit (keyAt_of_getElem? hop)
    · rw [hold i hi] at hop
      obtain ⟨hdone, ha⟩ := h.settled i operation hop hset
      rw [hlog]
      exact ⟨hdone, hahead i hi _ ha⟩
    · rw [hnew] at hop
      cases hop
      cases hset
  · intro a i f b hab
    rw [hlog] at hab
    obtain ⟨hi, ha⟩ := h.order a i f b hab
    exact ⟨by omega, hahead i hi a ha⟩

theorem start (h : s.Inv) (hop : s.operations[i]? = some operation)
    (hres : s.resolved operation.currentQueue = true) (file : Option Path) :
    Inv { s with log := s.log ++ [Event.start i file] } where
  queued := h.queued
  drained κ hnone k hk := by
    rw [finished_append, h.drained κ hnone k hk]
    rfl
  first i' operation' hop' hq := (h.first i' operation' hop' hq).append [.start i file]
  behind := h.behind
  settled i' operation' hop' hset := by
    obtain ⟨hdone, ha⟩ := h.settled i' operation' hop' hset
    exact ⟨by rw [finished_append, hdone]; rfl, ha.append [.start i file]⟩
  order a i' f b hab := by
    obtain ⟨rfl, hevent⟩ | ⟨c, hc⟩ := concat_eq_append_cons hab
    · cases hevent
      exact ⟨(List.getElem?_eq_some_iff.1 hop).1, h.ahead_of_resolved hop hres⟩
    · exact h.order a i' f c hc

theorem finish (h : s.Inv) (hop : s.operations[i]? = some operation)
    (hrun : s.running i = true) (threw : Bool) :
    Inv { s with
          log := s.log ++ [Event.finish i threw]
          fileMutationQueues :=
            if s.fileMutationQueues.get? operation.key = some i then s.fileMutationQueues.delete operation.key
            else s.fileMutationQueues } where
  queued κ j hj := by
    refine h.queued κ j ?_
    split at hj
    · rw [OrderedMap.get?_delete] at hj
      split at hj
      · cases hj
      · exact hj
    · exact hj
  drained κ hnone k hk := by
    rw [finished_append]
    by_cases hlast : s.fileMutationQueues.get? operation.key = some i ∧ κ = operation.key
    · obtain ⟨hq, rfl⟩ := hlast
      obtain ⟨hkey, hmax⟩ := h.queued operation.key i hq
      obtain rfl | hlt := Nat.eq_or_lt_of_le (hmax k hk)
      · simp [finished]
      · rw [h.ahead_of_running hrun _ hkey k hlt hk]
        rfl
    · rw [h.drained κ ?_ k hk]
      · rfl
      · split at hnone
        · rename_i hq
          rw [OrderedMap.get?_delete, if_neg fun hκ => hlast ⟨hq, hκ⟩] at hnone
          exact hnone
        · exact hnone
  first i' operation' hop' hq := (h.first i' operation' hop' hq).append [.finish i threw]
  behind := h.behind
  settled i' operation' hop' hset := by
    obtain ⟨hdone, ha⟩ := h.settled i' operation' hop' hset
    exact ⟨by rw [finished_append, hdone]; rfl, ha.append [.finish i threw]⟩
  order a i' f b hab := by
    obtain ⟨rfl, hevent⟩ | ⟨c, hc⟩ := concat_eq_append_cons hab
    · cases hevent
    · exact h.order a i' f c hc

theorem settle (h : s.Inv) (hop : s.operations[i]? = some operation)
    (hdone : finished s.log i = true) (hres : s.resolved operation.currentQueue = true) :
    Inv { s with operations := s.operations.set i { operation with settled := true } } := by
  generalize hs : ({ s with operations := s.operations.set i { operation with settled := true } } : State) = s'
  have hi := (List.getElem?_eq_some_iff.1 hop).1
  have hget : ∀ k operation', s'.operations[k]? = some operation' → ∃ old, s.operations[k]? = some old ∧
      old.key = operation'.key ∧ old.currentQueue = operation'.currentQueue ∧
      (operation'.settled = true → old.settled = true ∨ k = i) := by
    intro k operation' hk
    rw [← hs, getElem?_set] at hk
    by_cases hki : i = k
    · rw [if_pos hki, if_pos hi] at hk
      cases hk
      exact ⟨operation, hki ▸ hop, rfl, rfl, fun _ => .inr hki.symm⟩
    · rw [if_neg hki] at hk
      exact ⟨operation', hk, rfl, rfl, .inl⟩
  have hkeys : ∀ k, s'.keyAt k = s.keyAt k := by
    intro k
    rw [keyAt, keyAt, ← hs, getElem?_set]
    by_cases hki : i = k
    · rw [if_pos hki, if_pos hi, ← hki, hop]
      rfl
    · rw [if_neg hki]
  have hlog : s'.log = s.log := by rw [← hs]
  have hqueues : s'.fileMutationQueues = s.fileMutationQueues := by rw [← hs]
  have hlen : s'.operations.length = s.operations.length := by
    rw [← hs]
    exact length_set
  have hahead : ∀ k log, s.Ahead log k → s'.Ahead log k := fun k log ha => ha.of_keyAt fun j _ => hkeys j
  clear hs
  refine ⟨?_, ?_, ?_, ?_, ?_, ?_⟩
  · intro κ j hj
    rw [hqueues] at hj
    simp only [hkeys]
    exact h.queued κ j hj
  · intro κ hnone k hk
    rw [hqueues] at hnone
    rw [hkeys] at hk
    rw [hlog]
    exact h.drained κ hnone k hk
  · intro k operation' hk hq
    obtain ⟨old, hold, -, hqueue, -⟩ := hget k operation' hk
    rw [hlog]
    exact hahead k _ (h.first k old hold (hqueue.trans hq))
  · intro k operation' j hk hq
    obtain ⟨old, hold, hkey, hqueue, -⟩ := hget k operation' hk
    simp only [hkeys, ← hkey]
    exact h.behind k old j hold (hqueue.trans hq)
  · intro k operation' hk hset
    obtain ⟨old, hold, -, -, hsettled⟩ := hget k operation' hk
    rw [hlog]
    obtain hset' | rfl := hsettled hset
    · obtain ⟨hd, ha⟩ := h.settled k old hold hset'
      exact ⟨hd, hahead k _ ha⟩
    · exact ⟨hdone, hahead k _ (h.ahead_of_resolved hop hres)⟩
  · intro a k f b hab
    rw [hlog] at hab
    obtain ⟨hk, ha⟩ := h.order a k f b hab
    exact ⟨by omega, hahead k a ha⟩

theorem step (h : s.Inv) (hstep : s.step cwd act = some s') : s'.Inv := by
  obtain ⟨filePath, -, rfl⟩ | ⟨i, operation, -, hop, hres, -, rfl⟩ | ⟨i, threw, operation, -, hop, hrun, rfl⟩ |
    ⟨i, operation, -, hop, hdone, hres, rfl⟩ | ⟨files, -, rfl⟩ := step_cases hstep
  · exact h.arrive _ _
  · exact h.start hop hres _
  · exact h.finish hop hrun threw
  · exact h.settle hop hdone hres
  · exact ⟨h.queued, h.drained, h.first, h.behind, h.settled, h.order⟩

end Inv

/-! ## Serialization -/

/-- When an operation arrives, its path can be resolved, or is that of the file itself; and the path leads to the same
file until the operation is finished. -/
def Keeps (cwd : Path) (s : State) : Action → Prop
  | .arrive filePath => (realpath s.files (resolve cwd filePath)).isSome = true ∨
      denotes s.files (resolve cwd filePath) = some (resolve cwd filePath)
  | .change files => ∀ i operation, s.operations[i]? = some operation → finished s.log i = false →
      denotes files operation.path = denotes s.files operation.path
  | _ => True

def KeepsAll (cwd : Path) : State → List Action → Prop
  | _, [] => True
  | s, act :: rest => s.Keeps cwd act ∧ ∀ s', s.step cwd act = some s' → s'.KeepsAll cwd rest

theorem denotes_key {files : Files} {filePath : FilePath} (h : (realpath files (resolve cwd filePath)).isSome = true ∨
    denotes files (resolve cwd filePath) = some (resolve cwd filePath)) :
    denotes files (resolve cwd filePath) = some (getMutationQueueKey files cwd filePath) := by
  simp only [getMutationQueueKey]
  cases hreal : realpath files (resolve cwd filePath) with
  | some place => exact denotes_of_realpath hreal
  | none =>
    rw [hreal] at h
    exact h.resolve_left Bool.false_ne_true

/-- Two operations on one file never run at the same time, and the first to arrive is finished when the
other starts. -/
structure Serialized (s : State) : Prop where
  apart : ∀ i j operation operation', s.operations[i]? = some operation →
    s.operations[j]? = some operation' → i ≠ j → s.running i = true → s.running j = true →
    denotes s.files operation.path ≠ denotes s.files operation'.path
  inOrder : ∀ i j file a b, i < j → .start i (some file) ∈ s.log → s.log = a ++ Event.start j (some file) :: b →
    finished a i = true

/-- The paths of the operations that are not finished lead to the keys. -/
structure Placed (s : State) : Prop where
  now : ∀ i operation, s.operations[i]? = some operation → finished s.log i = false →
    denotes s.files operation.path = some operation.key
  was : ∀ i file, .start i file ∈ s.log → file = s.keyAt i
  begun : ∀ i, finished s.log i = true → started s.log i = true

theorem placed_new (files : Files) : (new files).Placed where
  now i operation h := by cases h
  was i file h := by cases h
  begun i h := by cases h

theorem Placed.step (h : s.Placed) (hinv : s.Inv) (hkeep : s.Keeps cwd act) (hstep : s.step cwd act = some s') :
    s'.Placed := by
  obtain ⟨filePath, rfl, rfl⟩ | ⟨i, operation, rfl, hop, -, hnew, rfl⟩ | ⟨i, threw, operation, rfl, -, hrun, rfl⟩ |
    ⟨i, operation, rfl, hop, -, -, rfl⟩ | ⟨files, rfl, rfl⟩ := step_cases hstep
  · have hlt : ∀ k f, .start k f ∈ s.log → k < s.operations.length := by
      intro k f hk
      obtain ⟨a, b, hab⟩ := append_of_mem hk
      exact (hinv.order a k f b hab).1
    refine ⟨fun k operation hk hopen => ?_, fun k file hk => ?_, h.begun⟩
    · dsimp only at hk
      rw [getElem?_append] at hk
      split at hk
      · exact h.now k operation hk hopen
      · cases hlast : k - s.operations.length with
        | zero =>
          rw [hlast] at hk
          cases hk
          exact denotes_key hkeep
        | succ n =>
          rw [hlast] at hk
          cases hk
    · rw [keyAt, getElem?_append_left (hlt k file hk)]
      exact h.was k file hk
  · have hopen : finished s.log i = false := by
      cases hfinished : finished s.log i with
      | false => rfl
      | true => rw [h.begun i hfinished] at hnew; cases hnew
    refine ⟨fun k operation' hk hk' => ?_, fun k file hk => ?_, fun k hk => ?_⟩
    · rw [finished_append, Bool.or_eq_false_iff] at hk'
      exact h.now k operation' hk hk'.1
    · obtain hk | hk := mem_append.1 hk
      · exact h.was k file hk
      · cases mem_singleton.1 hk
        rw [h.now i operation hop hopen]
        exact (keyAt_of_getElem? hop).symm
    · rw [finished_append, show finished [Event.start i (denotes s.files operation.path)] k = false from rfl,
        Bool.or_false] at hk
      rw [started_append, h.begun k hk]
      rfl
  · refine ⟨fun k operation' hk hk' => ?_, fun k file hk => ?_, fun k hk => ?_⟩
    · rw [finished_append, Bool.or_eq_false_iff] at hk'
      exact h.now k operation' hk hk'.1
    · obtain hk | hk := mem_append.1 hk
      · exact h.was k file hk
      · cases mem_singleton.1 hk
    · rw [started_append]
      by_cases hki : i = k
      · rw [← hki, (Bool.and_eq_true_iff.1 hrun).1]
        rfl
      · rw [finished_append] at hk
        simp only [finished, any_cons, any_nil, Bool.or_false, Bool.or_eq_true, beq_iff_eq, hki, or_false] at hk
        rw [h.begun k hk]
        rfl
  · have hi := (List.getElem?_eq_some_iff.1 hop).1
    refine ⟨fun k operation' hk hopen => ?_, fun k file hk => ?_, h.begun⟩
    · simp only [getElem?_set, hi, if_true] at hk
      split at hk
      · rename_i hki
        cases hk
        exact h.now k operation (hki ▸ hop) hopen
      · exact h.now k operation' hk hopen
    · simp only [h.was k file hk, keyAt, getElem?_set, hi, if_true]
      split
      · rename_i hki
        rw [← hki, hop]
        rfl
      · rfl
  · refine ⟨fun k operation hk hopen => ?_, h.was, h.begun⟩
    rw [← h.now k operation hk hopen]
    exact hkeep k operation hk hopen

theorem not_finished {i : Nat} (h : s.running i = true) : finished s.log i = false :=
  Bool.not_eq_true' _ ▸ (Bool.and_eq_true_iff.1 h).2

theorem Placed.serialized (h : s.Placed) (hinv : s.Inv) : s.Serialized := by
  have hlater : ∀ i j operation operation', s.operations[i]? = some operation →
      s.operations[j]? = some operation' → i < j → s.running i = true → s.running j = true →
      denotes s.files operation.path ≠ denotes s.files operation'.path := by
    intro i j operation operation' hi hj hij hruni hrunj hsame
    rw [h.now i operation hi (not_finished hruni), h.now j operation' hj (not_finished hrunj)] at hsame
    have hdone := hinv.ahead_of_running hrunj _ (keyAt_of_getElem? hj) i hij
      (by rw [keyAt_of_getElem? hi, Option.some.inj hsame])
    rw [running, hdone] at hruni
    simp at hruni
  refine ⟨fun i j operation operation' hi hj hne hruni hrunj => ?_, fun i j file a b hij hi hlog => ?_⟩
  · obtain hij | hji := Nat.lt_or_gt_of_ne hne
    · exact hlater i j operation operation' hi hj hij hruni hrunj
    · exact (hlater j i operation' operation hj hi hji hrunj hruni).symm
  · have hkeyi := h.was i _ hi
    have hkeyj := h.was j (some file) (by rw [hlog]; simp)
    exact (hinv.order a j _ b hlog).2 file hkeyj.symm i hij hkeyi.symm

theorem run_invariants {acts : List Action} (hinv : s.Inv) (h : s.Placed) (hkeep : s.KeepsAll cwd acts)
    (hrun : s.run cwd acts = some s') : s'.Inv ∧ s'.Placed := by
  induction acts generalizing s with
  | nil =>
    cases hrun
    exact ⟨hinv, h⟩
  | cons act rest ih =>
    rw [run] at hrun
    split at hrun
    · cases hrun
    · rename_i t hstep
      exact ih (hinv.step hstep) (h.step hinv hkeep.1 hstep) (hkeep.2 t hstep) hrun

/-! ## Progress -/

theorem Inv.run {acts : List Action} (h : s.Inv) (hrun : s.run cwd acts = some s') : s'.Inv := by
  induction acts generalizing s with
  | nil =>
    cases hrun
    exact h
  | cons act rest ih =>
    rw [State.run] at hrun
    split at hrun
    · cases hrun
    · rename_i t hstep
      exact ih (h.step hstep) hrun

/-- The call has a next step that it can take. -/
def CanMove (cwd : Path) (s : State) (i : Nat) : Prop :=
  ∃ act ∈ [Action.start i, .finish i false, .settle i], (s.step cwd act).isSome = true

theorem canMove_of_resolved {i : Nat} {operation : Operation} (hop : s.operations[i]? = some operation)
    (hres : s.resolved operation.currentQueue = true) : s.CanMove cwd i := by
  cases hstarted : started s.log i with
  | false => exact ⟨.start i, by simp, by simp [step, hop, hres, hstarted]⟩
  | true =>
    cases hfinished : finished s.log i with
    | false => exact ⟨.finish i false, by simp, by simp [step, hop, running, hstarted, hfinished]⟩
    | true => exact ⟨.settle i, by simp, by simp [step, hop, hres, hfinished]⟩

end State

/-- Operations whose paths keep their files are serialized, whatever arrives when and whether they return or
throw. -/
theorem serialized_of_run {cwd : Path} {files : Files} {acts : List Action} {s : State}
    (hkeep : (State.new files).KeepsAll cwd acts) (hrun : (State.new files).run cwd acts = some s) :
    s.Serialized := by
  obtain ⟨hinv, hplaced⟩ := State.run_invariants (State.inv_new files) (State.placed_new files) hkeep hrun
  exact hplaced.serialized hinv

/-- `/link` leads to the directory `/dir`. -/
def linked : Files
  | ["dir"] => some .directory
  | ["link"] => some (.symlink ⟨true, ["dir"]⟩)
  | _ => none

def linkedFile : Files
  | ["dir", "f"] => some .file
  | path => linked path

/-- The first operation creates the file and throws; the second comes through the link. -/
def thrown : List Action :=
  [.arrive ⟨true, ["dir", "f"]⟩, .start 0, .change linkedFile, .arrive ⟨true, ["link", "f"]⟩, .finish 0 true,
    .settle 0, .start 1]

theorem serialized_of_run_thrown : ∃ s, (State.new linked).run [] thrown = some s ∧ s.Serialized := by
  have hkeep : (State.new linked).KeepsAll [] thrown := by
    refine ⟨.inr (by decide), fun s₁ h₁ => ?_⟩
    cases h₁
    refine ⟨trivial, fun s₂ h₂ => ?_⟩
    cases h₂
    refine ⟨fun i operation hop _ => ?_, fun s₃ h₃ => ?_⟩
    · cases i with
      | zero =>
        cases hop
        decide
      | succ i => cases hop
    · cases h₃
      refine ⟨.inl (by decide), fun s₄ h₄ => ?_⟩
      cases h₄
      refine ⟨trivial, fun s₅ h₅ => ?_⟩
      cases h₅
      refine ⟨trivial, fun s₆ h₆ => ?_⟩
      cases h₆
      exact ⟨trivial, fun s₇ h₇ => trivial⟩
  exact ⟨_, rfl, serialized_of_run hkeep rfl⟩

/-- No call waits for ever: as long as it has not settled, it can move, or a call on its path that came before it
can. -/
theorem progress_of_run {cwd : Path} {files : Files} {acts : List Action} {s : State}
    (hrun : (State.new files).run cwd acts = some s) (i : Nat) (operation : Operation)
    (hop : s.operations[i]? = some operation) (hwaits : operation.settled = false) :
    ∃ k ≤ i, s.keyAt k = some operation.key ∧ s.CanMove cwd k := by
  have hinv := (State.inv_new files).run hrun
  induction i using Nat.strongRecOn generalizing operation with
  | _ i ih =>
    by_cases hres : s.resolved operation.currentQueue = true
    · exact ⟨i, Nat.le_refl i, State.keyAt_of_getElem? hop, State.canMove_of_resolved hop hres⟩
    cases hqueue : operation.currentQueue with
    | none =>
      rw [hqueue] at hres
      exact absurd rfl hres
    | some j =>
      -- the call whose promise is chained before it
      obtain ⟨hlt, hkey, -⟩ := hinv.behind i operation j hop hqueue
      obtain ⟨previous, hprevious, hsame⟩ := Option.map_eq_some_iff.1 hkey
      rw [hqueue, State.resolved, hprevious] at hres
      obtain ⟨k, hk, hkeyk, hmove⟩ := ih j hlt previous hprevious (Bool.eq_false_iff.2 hres)
      exact ⟨k, Nat.le_trans hk (Nat.le_of_lt hlt), hsame ▸ hkeyk, hmove⟩

theorem progress_of_run_waiting : ∃ s operation, (State.new linked).run [] (thrown.take 4) = some s ∧
    s.operations[1]? = some operation ∧ ∃ k ≤ 1, s.keyAt k = some operation.key ∧ s.CanMove [] k :=
  ⟨_, _, rfl, rfl, @progress_of_run [] linked (thrown.take 4) _ rfl 1 _ rfl rfl⟩

/-- A file that the first operation creates behind a link has another key when the second arrives. -/
theorem runs_together : ∃ s operation operation',
    (State.new linked).run [] [.arrive ⟨true, ["link", "f"]⟩, .start 0, .change linkedFile,
      .arrive ⟨true, ["link", "f"]⟩, .start 1] = some s ∧
    s.operations = [operation, operation'] ∧ s.running 0 = true ∧ s.running 1 = true ∧
    denotes s.files operation.path = some ["dir", "f"] ∧ denotes s.files operation'.path = some ["dir", "f"] :=
  ⟨_, _, _, rfl, rfl, rfl, rfl, rfl, rfl⟩

end MutationQueue
end Tools
end RePrime
