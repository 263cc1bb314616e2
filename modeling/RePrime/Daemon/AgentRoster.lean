import RePrime.Lib.History
import RePrime.Lib.OrderedMap

/-!
# RePrime.Daemon.AgentRoster

`AgentRoster`: the agents that a daemon knows, with an index by session file and one by active session id.

* `AgentRoster.step`: one call. A write takes the session file of its entry away from every other entry.
* `Effect`: what a call does to the entries and to both indexes at once, by the agents that leave.
* `index_of_run`: the index by session file is right after any calls, and the one by active session id as long as no
  entry that it shows leaves an id that another entry has too.
-/

namespace RePrime
namespace Daemon

open Option

/-! ## Entries -/

inductive SessionActivity where
  | idle
  | working
  deriving DecidableEq

structure RosterSessionSummary where
  sessionId : String
  activeSessionId : Option String
  sessionFile : Option String
  activity : SessionActivity
  isSessionActive : Bool
  deriving DecidableEq

inductive AgentRosterStatus where
  | running
  | idle
  | inactive
  deriving DecidableEq

inductive StatusLabel where
  | queued
  | recovering
  | failed
  deriving DecidableEq

structure WorkerRosterEntry where
  agentId : String
  queuedChild : Bool
  summary : RosterSessionSummary
  deriving DecidableEq

structure AgentRosterEntry extends WorkerRosterEntry where
  status : AgentRosterStatus
  statusLabel : Option StatusLabel
  lastHeardFromAt : Option String
  workerId : Option String
  deriving DecidableEq

/-- An empty string counts as absent. -/
def truthy (value : Option String) : Option String := value.filter (· ≠ "")

def classifyAgentStatus (resident queuedChild busy : Bool) : AgentRosterStatus :=
  if queuedChild then .running
  else if !resident then .inactive
  else if busy then .running
  else .idle

def classifyWorkerRosterEntry (entry : WorkerRosterEntry) : AgentRosterStatus :=
  classifyAgentStatus (truthy entry.summary.activeSessionId).isSome entry.queuedChild
    (entry.summary.activity == .working || entry.summary.isSessionActive)

namespace WorkerRosterEntry

def activeSessionId (e : WorkerRosterEntry) : Option String := truthy e.summary.activeSessionId

/-- The session file under its canonical path. -/
def sessionFile (canonicalPath : String → String) (e : WorkerRosterEntry) : Option String :=
  (truthy e.summary.sessionFile).map canonicalPath

end WorkerRosterEntry

/-! ## The roster -/

structure AgentRoster where
  entries : OrderedMap String AgentRosterEntry
  agentIdByActiveSessionId : OrderedMap String String
  agentIdBySessionFile : OrderedMap String String

/-- A mark is absent, or sets a field, or clears it. -/
structure Marks where
  statusLabel : Option (Option StatusLabel)
  lastHeardFromAt : Option (Option String)

inductive RosterOp where
  | write (entry : WorkerRosterEntry) (workerId : Option String) (statusLabel : Option StatusLabel)
  | delete (agentId : String)
  | amend (agentId : String) (marks : Marks)

/-- A key is taken out of an index if it stands for the agent. -/
def dropIndex (index : OrderedMap String String) (key : Option String) (agentId : String) : OrderedMap String String :=
  match key with
  | none => index
  | some key => if index.get? key = some agentId then index.delete key else index

/-- A key is made to stand for the agent. -/
def setIndex (index : OrderedMap String String) (key : Option String) (agentId : String) : OrderedMap String String :=
  match key with
  | none => index
  | some key => index.set key agentId

namespace AgentRoster

section Ops

variable (canonicalPath : String → String)

def empty : AgentRoster := ⟨.empty, .empty, .empty⟩

def get (r : AgentRoster) (agentId : String) : Option AgentRosterEntry := r.entries.get? agentId

def byActiveSessionId (r : AgentRoster) (activeSessionId : String) : Option AgentRosterEntry :=
  (r.agentIdByActiveSessionId.get? activeSessionId).bind r.get

def bySessionFile (r : AgentRoster) (file : String) : Option AgentRosterEntry :=
  (r.agentIdBySessionFile.get? file).bind r.get

def dropIndexes (r : AgentRoster) (entry : AgentRosterEntry) : AgentRoster :=
  { r with
    agentIdByActiveSessionId := dropIndex r.agentIdByActiveSessionId entry.activeSessionId entry.agentId
    agentIdBySessionFile := dropIndex r.agentIdBySessionFile (entry.sessionFile canonicalPath) entry.agentId }

def delete (r : AgentRoster) (agentId : String) : AgentRoster :=
  match r.get agentId with
  | none => r
  | some entry => { r.dropIndexes canonicalPath entry with entries := r.entries.delete agentId }

def storedEntry (entry : WorkerRosterEntry) (workerId : Option String) (statusLabel : Option StatusLabel) :
    AgentRosterEntry :=
  { entry with
    status := classifyWorkerRosterEntry entry
    statusLabel := if entry.queuedChild then some .queued else statusLabel
    lastHeardFromAt := none
    workerId }

/-- Another agent that has the file is deleted. -/
def evict (r : AgentRoster) (file : Option String) (agentId : String) : AgentRoster :=
  match file.bind r.agentIdBySessionFile.get? with
  | none => r
  | some existingAgentId => if existingAgentId ≠ agentId then r.delete canonicalPath existingAgentId else r

def write (r : AgentRoster) (entry : WorkerRosterEntry) (workerId : Option String) (statusLabel : Option StatusLabel) :
    AgentRoster :=
  let stored := storedEntry entry workerId statusLabel
  let file := stored.sessionFile canonicalPath
  let r := match r.get entry.agentId with
    | none => r
    | some previous => r.dropIndexes canonicalPath previous
  let r := r.evict canonicalPath file entry.agentId
  { agentIdBySessionFile := setIndex r.agentIdBySessionFile file entry.agentId
    agentIdByActiveSessionId := setIndex r.agentIdByActiveSessionId stored.activeSessionId entry.agentId
    entries := r.entries.set entry.agentId stored }

def amendEntry (entry : AgentRosterEntry) (marks : Marks) : AgentRosterEntry :=
  { entry with
    statusLabel := marks.statusLabel.getD entry.statusLabel
    lastHeardFromAt := marks.lastHeardFromAt.getD entry.lastHeardFromAt }

def amend (r : AgentRoster) (agentId : String) (marks : Marks) : AgentRoster :=
  match r.get agentId with
  | none => r
  | some entry => { r with entries := r.entries.set agentId (amendEntry entry marks) }

def step (r : AgentRoster) : RosterOp → AgentRoster
  | .write entry workerId statusLabel => r.write canonicalPath entry workerId statusLabel
  | .delete agentId => r.delete canonicalPath agentId
  | .amend agentId marks => r.amend agentId marks

def run (ops : List RosterOp) : AgentRoster := ops.foldl (step canonicalPath) empty

/-! ## What the indexes should say -/

/-- No two entries have one session file, and the lookup by file finds the entry that has it. -/
def FilesIndexed (r : AgentRoster) : Prop :=
  (∀ a b e e' file, r.get a = some e → r.get b = some e' → e.sessionFile canonicalPath = some file →
    e'.sessionFile canonicalPath = some file → a = b) ∧
    ∀ file e, r.bySessionFile file = some e ↔ ∃ a, r.get a = some e ∧ e.sessionFile canonicalPath = some file

/-- What the lookup by active session id returns has that id. -/
def ActiveSound (r : AgentRoster) : Prop :=
  ∀ s e, r.byActiveSessionId s = some e → ∃ a, r.get a = some e ∧ e.activeSessionId = some s

/-- The lookup by active session id returns an entry where there is one. -/
def ActiveFound (r : AgentRoster) : Prop :=
  ∀ s a e, r.get a = some e → e.activeSessionId = some s → (r.byActiveSessionId s).isSome = true

/-- The agents whose entries a call takes out of the roster and its indexes, if only to write them anew. -/
def Leaves (r : AgentRoster) (op : RosterOp) (agentId : String) : Prop :=
  match op with
  | .write entry _ _ =>
    agentId = entry.agentId ∨ (entry.sessionFile canonicalPath).bind r.agentIdBySessionFile.get? = some agentId
  | .delete id => agentId = id
  | .amend _ _ => False

/-- The lookup by some active session id finds an entry that leaves, the call does not write the id anew, and an entry
that stays has it too. -/
def Strands (r : AgentRoster) (op : RosterOp) : Prop :=
  ∃ s a, r.agentIdByActiveSessionId.get? s = some a ∧ Leaves canonicalPath r op a ∧
    (∀ entry workerId statusLabel, op = .write entry workerId statusLabel → entry.activeSessionId ≠ some s) ∧
    ∃ b e, ¬ Leaves canonicalPath r op b ∧ r.get b = some e ∧ e.activeSessionId = some s

end Ops

/-! ## Indexes -/

section Indexes

variable {index : OrderedMap String String} {key : Option String} {agentId k a : String}

theorem get?_dropIndex (h : ∀ k, index.get? k = some agentId → key = some k) :
    (dropIndex index key agentId).get? k = some a ↔ a ≠ agentId ∧ index.get? k = some a := by
  have hother : (∀ k, key ≠ some k ∨ index.get? k ≠ some agentId) →
      (index.get? k = some a ↔ a ≠ agentId ∧ index.get? k = some a) := by
    intro hnone
    refine ⟨fun ha => ⟨?_, ha⟩, And.right⟩
    intro heq
    rw [heq] at ha
    exact (hnone k).elim (fun hkey => hkey (h k ha)) fun hindex => hindex ha
  cases key with
  | none => exact hother fun k => .inl (by simp)
  | some key =>
    rw [dropIndex]
    split
    · rename_i hkey
      rw [OrderedMap.get?_delete]
      by_cases hk : k = key
      · simp [hk, hkey, eq_comm]
      · rw [if_neg hk]
        refine ⟨fun ha => ⟨?_, ha⟩, And.right⟩
        intro heq
        rw [heq] at ha
        exact hk (Option.some.inj (h k ha)).symm
    · rename_i hkey
      refine hother fun k => ?_
      by_cases hk : key = k
      · exact .inr (hk ▸ hkey)
      · exact .inl fun he => hk (Option.some.inj he)

theorem get?_setIndex : (setIndex index key agentId).get? k = some a ↔
    key = some k ∧ a = agentId ∨ key ≠ some k ∧ index.get? k = some a := by
  cases key with
  | none => simp [setIndex]
  | some key =>
    rw [setIndex, OrderedMap.get?_set]
    by_cases hk : k = key
    · simp [hk, eq_comm]
    · simp [hk, Ne.symm hk]

end Indexes

/-! ## One call -/

section Calls

variable {canonicalPath : String → String} {r r' r'' : AgentRoster} {agentId : String}

/-- Every key of an index stands for an agent whose entry has that key. -/
structure Own (canonicalPath : String → String) (r : AgentRoster) : Prop where
  keyed : ∀ a e, r.get a = some e → e.agentId = a
  file : ∀ f a, r.agentIdBySessionFile.get? f = some a →
    ∃ e, r.get a = some e ∧ e.sessionFile canonicalPath = some f
  active : ∀ s a, r.agentIdByActiveSessionId.get? s = some a → ∃ e, r.get a = some e ∧ e.activeSessionId = some s

/-- The indexes of `r'` are those of `r` less the agents that are gone. -/
structure Unindexed (r r' : AgentRoster) (gone : String → Prop) : Prop where
  file : ∀ f a, r'.agentIdBySessionFile.get? f = some a ↔ ¬ gone a ∧ r.agentIdBySessionFile.get? f = some a
  active : ∀ s a, r'.agentIdByActiveSessionId.get? s = some a ↔ ¬ gone a ∧ r.agentIdByActiveSessionId.get? s = some a

variable (h : Own canonicalPath r)

include h

theorem Own.unindexed {gone : String → Prop} (hindex : Unindexed r r' gone)
    (hentries : r'.entries = r.entries) : Own canonicalPath r' := by
  have hget : r'.get = r.get := by
    funext a
    rw [get, get, hentries]
  refine ⟨?_, ?_, ?_⟩
  · rw [hget]
    exact h.keyed
  · intro f a hf
    rw [hget]
    exact h.file f a ((hindex.file f a).1 hf).2
  · intro s a hs
    rw [hget]
    exact h.active s a ((hindex.active s a).1 hs).2

theorem Own.dropIndexes {e : AgentRosterEntry} (he : r.get agentId = some e) :
    Unindexed r (r.dropIndexes canonicalPath e) (· = agentId) := by
  obtain rfl := h.keyed agentId e he
  refine ⟨?_, ?_⟩
  · intro f a
    refine get?_dropIndex fun k hk => ?_
    obtain ⟨e', he', hfile⟩ := h.file k _ hk
    rw [he] at he'
    cases he'
    exact hfile
  · intro s a
    refine get?_dropIndex fun k hk => ?_
    obtain ⟨e', he', hactive⟩ := h.active k _ hk
    rw [he] at he'
    cases he'
    exact hactive

theorem Own.unindexed_self (hnone : r.get agentId = none) : Unindexed r r (· = agentId) := by
  refine ⟨?_, ?_⟩
  · intro f a
    refine ⟨fun ha => ⟨?_, ha⟩, And.right⟩
    rintro rfl
    obtain ⟨e, he, -⟩ := h.file f a ha
    rw [hnone] at he
    cases he
  · intro s a
    refine ⟨fun ha => ⟨?_, ha⟩, And.right⟩
    rintro rfl
    obtain ⟨e, he, -⟩ := h.active s a ha
    rw [hnone] at he
    cases he

theorem Own.delete (agentId : String) : Unindexed r (r.delete canonicalPath agentId) (· = agentId) ∧
      ∀ a, (r.delete canonicalPath agentId).get a = if a = agentId then none else r.get a := by
  rw [AgentRoster.delete]
  split
  · rename_i hnone
    refine ⟨h.unindexed_self hnone, ?_⟩
    intro a
    by_cases ha : a = agentId
    · rw [if_pos ha, ha, hnone]
    · rw [if_neg ha]
  · rename_i e he
    obtain ⟨hfile, hactive⟩ := h.dropIndexes he
    exact ⟨⟨hfile, hactive⟩, fun a => OrderedMap.get?_delete ..⟩

theorem Own.evict {file : Option String} (hfree : ∀ f, r.agentIdBySessionFile.get? f ≠ some agentId) :
    Unindexed r (r.evict canonicalPath file agentId) (fun a => file.bind r.agentIdBySessionFile.get? = some a) ∧
      ∀ a e, (r.evict canonicalPath file agentId).get a = some e ↔
        file.bind r.agentIdBySessionFile.get? ≠ some a ∧ r.get a = some e := by
  rw [AgentRoster.evict]
  split
  · rename_i hnone
    rw [hnone]
    exact ⟨⟨by simp, by simp⟩, by simp⟩
  · rename_i existing hexisting
    have hne : existing ≠ agentId := by
      rintro rfl
      obtain ⟨f, -, hf⟩ := bind_eq_some_iff.1 hexisting
      exact hfree f hf
    rw [if_pos hne, hexisting]
    obtain ⟨hindex, hget⟩ := h.delete existing
    refine ⟨⟨?_, ?_⟩, ?_⟩
    · intro f a
      rw [hindex.file, Option.some.injEq, eq_comm (a := existing)]
    · intro s a
      rw [hindex.active, Option.some.injEq, eq_comm (a := existing)]
    · intro a e
      rw [hget]
      by_cases ha : a = existing
      · simp [ha]
      · simp [ha, Ne.symm ha]

omit h

/-- What a call that is no amendment does: some agents leave, and at most one entry comes. -/
structure Effect (canonicalPath : String → String) (r r' : AgentRoster) (gone : String → Prop)
    (put : Option AgentRosterEntry) : Prop where
  get : ∀ a e, r'.get a = some e ↔ (put = some e ∧ a = e.agentId) ∨ ¬ gone a ∧ r.get a = some e
  file : ∀ f a, r'.agentIdBySessionFile.get? f = some a ↔
    (∃ e, put = some e ∧ e.sessionFile canonicalPath = some f ∧ a = e.agentId) ∨
      (∀ e, put = some e → e.sessionFile canonicalPath ≠ some f) ∧ ¬ gone a ∧ r.agentIdBySessionFile.get? f = some a
  active : ∀ s a, r'.agentIdByActiveSessionId.get? s = some a ↔
    (∃ e, put = some e ∧ e.activeSessionId = some s ∧ a = e.agentId) ∨
      (∀ e, put = some e → e.activeSessionId ≠ some s) ∧ ¬ gone a ∧ r.agentIdByActiveSessionId.get? s = some a

theorem Own.delete_effect (h : Own canonicalPath r) (agentId : String) :
    Effect canonicalPath r (r.delete canonicalPath agentId) (· = agentId) none := by
  obtain ⟨hindex, hget⟩ := h.delete agentId
  refine ⟨?_, ?_, ?_⟩
  · intro a e
    rw [hget]
    by_cases ha : a = agentId <;> simp [ha]
  · intro f a
    rw [hindex.file]
    simp
  · intro s a
    rw [hindex.active]
    simp

theorem Own.write_effect (h : Own canonicalPath r) (entry : WorkerRosterEntry) (workerId : Option String)
    (statusLabel : Option StatusLabel) : Effect canonicalPath r (r.write canonicalPath entry workerId statusLabel)
      (Leaves canonicalPath r (.write entry workerId statusLabel)) (some (storedEntry entry workerId statusLabel)) := by
  -- The entry that is replaced loses its keys first, and then another one with the file is deleted.
  obtain ⟨r₁, hr₁, hindex₁, hentries₁⟩ : ∃ r₁, (match r.get entry.agentId with
      | none => r
      | some previous => r.dropIndexes canonicalPath previous) = r₁ ∧ Unindexed r r₁ (· = entry.agentId) ∧
        r₁.entries = r.entries := by
    cases hget : r.get entry.agentId with
    | none => exact ⟨r, rfl, h.unindexed_self hget, rfl⟩
    | some previous => exact ⟨_, rfl, h.dropIndexes hget, rfl⟩
  have hget₁ : ∀ a, r₁.get a = r.get a := by
    intro a
    rw [AgentRoster.get, AgentRoster.get, hentries₁]
  have hfree : ∀ f, r₁.agentIdBySessionFile.get? f ≠ some entry.agentId :=
    fun f hf => ((hindex₁.file f _).1 hf).1 rfl
  obtain ⟨hindex₂, hget₂⟩ := @Own.evict canonicalPath r₁ entry.agentId (h.unindexed hindex₁ hentries₁)
    ((storedEntry entry workerId statusLabel).sessionFile canonicalPath) hfree
  have howner : ∀ a, (entry.sessionFile canonicalPath).bind r₁.agentIdBySessionFile.get? = some a ↔
      a ≠ entry.agentId ∧ (entry.sessionFile canonicalPath).bind r.agentIdBySessionFile.get? = some a := by
    intro a
    cases entry.sessionFile canonicalPath with
    | none => simp
    | some f => exact hindex₁.file f a
  have hstored : (storedEntry entry workerId statusLabel).sessionFile canonicalPath =
      entry.sessionFile canonicalPath := rfl
  rw [hstored] at hindex₂ hget₂
  have hgone : ∀ a, ¬ Leaves canonicalPath r (.write entry workerId statusLabel) a ↔ a ≠ entry.agentId ∧
      (entry.sessionFile canonicalPath).bind r₁.agentIdBySessionFile.get? ≠ some a := by
    intro a
    rw [ne_eq (_ : Option String), howner]
    simp only [Leaves]
    tauto
  rw [AgentRoster.write]
  simp only [hr₁, hstored]
  refine ⟨?_, ?_, ?_⟩
  · intro a e
    rw [hgone, AgentRoster.get, OrderedMap.get?_set, Option.some.injEq]
    by_cases ha : a = entry.agentId
    · rw [if_pos ha, Option.some.injEq]
      constructor
      · rintro rfl
        exact .inl ⟨rfl, ha⟩
      · rintro (⟨he, -⟩ | ⟨⟨hne, -⟩, -⟩)
        · exact he
        · exact absurd ha hne
    · rw [if_neg ha]
      refine (hget₂ a e).trans ?_
      rw [hget₁]
      constructor
      · rintro ⟨hne, he⟩
        exact .inr ⟨⟨ha, hne⟩, he⟩
      · rintro (⟨rfl, haid⟩ | ⟨⟨-, hne⟩, he⟩)
        · exact absurd haid ha
        · exact ⟨hne, he⟩
  · intro f a
    rw [get?_setIndex, hindex₂.file, hindex₁.file, hgone]
    simp only [Option.some.injEq, exists_eq_left', forall_eq', hstored]
    tauto
  · intro s a
    rw [get?_setIndex, hindex₂.active, hindex₁.active, hgone]
    simp only [Option.some.injEq, exists_eq_left', forall_eq']
    tauto

theorem amend_get (r : AgentRoster) (agentId : String) (marks : Marks) (a : String) :
    ((r.amend agentId marks).get a).map AgentRosterEntry.toWorkerRosterEntry =
      (r.get a).map AgentRosterEntry.toWorkerRosterEntry := by
  rw [amend]
  split
  · rfl
  · rename_i e he
    rw [get, OrderedMap.get?_set]
    by_cases ha : a = agentId
    · rw [if_pos ha, ha, he]
      rfl
    · rw [if_neg ha]
      rfl

theorem amend_indexes (r : AgentRoster) (agentId : String) (marks : Marks) :
    (r.amend agentId marks).agentIdBySessionFile = r.agentIdBySessionFile ∧
      (r.amend agentId marks).agentIdByActiveSessionId = r.agentIdByActiveSessionId := by
  rw [amend]
  split <;> exact ⟨rfl, rfl⟩

end Calls

/-! ## Runs -/

section Runs

variable {canonicalPath : String → String} {r r' : AgentRoster}

/-- What holds after every call. -/
structure Inv (canonicalPath : String → String) (r : AgentRoster) : Prop extends Own canonicalPath r where
  fileOf : ∀ a e f, r.get a = some e → e.sessionFile canonicalPath = some f → r.agentIdBySessionFile.get? f = some a

theorem Inv.effect {gone : String → Prop} {put : Option AgentRosterEntry} (h : Inv canonicalPath r)
    (heffect : Effect canonicalPath r r' gone put) (hput : ∀ e, put = some e → gone e.agentId ∧
      ∀ f a, e.sessionFile canonicalPath = some f → r.agentIdBySessionFile.get? f = some a → gone a) :
    Inv canonicalPath r' := by
  refine ⟨⟨?_, ?_, ?_⟩, ?_⟩
  · intro a e ha
    obtain ⟨-, rfl⟩ | ⟨-, ha⟩ := (heffect.get a e).1 ha
    · rfl
    · exact h.keyed a e ha
  · intro f a hf
    obtain ⟨e, he, hfile, rfl⟩ | ⟨-, hstays, hf⟩ := (heffect.file f a).1 hf
    · exact ⟨e, (heffect.get _ e).2 (.inl ⟨he, rfl⟩), hfile⟩
    · obtain ⟨e, he, hfile⟩ := h.file f a hf
      exact ⟨e, (heffect.get a e).2 (.inr ⟨hstays, he⟩), hfile⟩
  · intro s a hs
    obtain ⟨e, he, hactive, rfl⟩ | ⟨-, hstays, hs⟩ := (heffect.active s a).1 hs
    · exact ⟨e, (heffect.get _ e).2 (.inl ⟨he, rfl⟩), hactive⟩
    · obtain ⟨e, he, hactive⟩ := h.active s a hs
      exact ⟨e, (heffect.get a e).2 (.inr ⟨hstays, he⟩), hactive⟩
  · intro a e f ha hf
    obtain ⟨he, rfl⟩ | ⟨hstays, ha⟩ := (heffect.get a e).1 ha
    · exact (heffect.file f _).2 (.inl ⟨e, he, hf, rfl⟩)
    · have hindex := h.fileOf a e f ha hf
      exact (heffect.file f a).2 (.inr ⟨fun p hp hpf => hstays ((hput p hp).2 f a hpf hindex), hstays, hindex⟩)

theorem found_iff (h : Own canonicalPath r) :
    r.ActiveFound ↔ ∀ s a e, r.get a = some e → e.activeSessionId = some s →
      ∃ b, r.agentIdByActiveSessionId.get? s = some b := by
  refine forall_congr' fun s => forall₄_congr fun a e _ _ => ?_
  rw [byActiveSessionId]
  cases hb : r.agentIdByActiveSessionId.get? s with
  | none => simp
  | some b =>
    obtain ⟨e', he', -⟩ := h.active s b hb
    simp [he']

theorem found_effect {gone : String → Prop} {put : Option AgentRosterEntry} (h : Own canonicalPath r)
    (h' : Own canonicalPath r') (heffect : Effect canonicalPath r r' gone put) (hfound : r.ActiveFound) :
    r'.ActiveFound ↔ ¬ ∃ s a, r.agentIdByActiveSessionId.get? s = some a ∧ gone a ∧
      (∀ p, put = some p → p.activeSessionId ≠ some s) ∧ ∃ b e, ¬ gone b ∧ r.get b = some e ∧
        e.activeSessionId = some s := by
  rw [found_iff h']
  rw [found_iff h] at hfound
  constructor
  · rintro hall ⟨s, a, ha, hgone, hput, b, e, hstays, hb, hactive⟩
    obtain ⟨c, hc⟩ := hall s b e ((heffect.get b e).2 (.inr ⟨hstays, hb⟩)) hactive
    obtain ⟨p, hp, hps, -⟩ | ⟨-, hc, hcs⟩ := (heffect.active s c).1 hc
    · exact hput p hp hps
    · rw [ha] at hcs
      cases hcs
      exact hc hgone
  · intro hnot s b e hb hactive
    obtain ⟨hp, rfl⟩ | ⟨hstays, hb⟩ := (heffect.get b e).1 hb
    · exact ⟨_, (heffect.active s _).2 (.inl ⟨e, hp, hactive, rfl⟩)⟩
    · by_cases hput : ∃ p, put = some p ∧ p.activeSessionId = some s
      · obtain ⟨p, hp, hps⟩ := hput
        exact ⟨_, (heffect.active s _).2 (.inl ⟨p, hp, hps, rfl⟩)⟩
      · have hput : ∀ p, put = some p → p.activeSessionId ≠ some s := fun p hp hps => hput ⟨p, hp, hps⟩
        obtain ⟨a, ha⟩ := hfound s b e hb hactive
        have hgone : ¬ gone a := fun hgone => hnot ⟨s, a, ha, hgone, hput, b, e, hstays, hb, hactive⟩
        exact ⟨a, (heffect.active s a).2 (.inr ⟨hput, hgone, ha⟩)⟩

theorem amended {a : String} {e' : AgentRosterEntry} (agentId : String) (marks : Marks)
    (h : (r.amend agentId marks).get a = some e') :
    ∃ e, r.get a = some e ∧ e'.toWorkerRosterEntry = e.toWorkerRosterEntry := by
  have hmap := amend_get r agentId marks a
  rw [h, map_some, eq_comm, map_eq_some_iff] at hmap
  obtain ⟨e, he, heq⟩ := hmap
  exact ⟨e, he, heq.symm⟩

theorem amended' {a : String} {e : AgentRosterEntry} (agentId : String) (marks : Marks) (h : r.get a = some e) :
    ∃ e', (r.amend agentId marks).get a = some e' ∧ e'.toWorkerRosterEntry = e.toWorkerRosterEntry := by
  have hmap := amend_get r agentId marks a
  rw [h, map_some, map_eq_some_iff] at hmap
  exact hmap

theorem Inv.amend (h : Inv canonicalPath r) (agentId : String) (marks : Marks) :
    Inv canonicalPath (r.amend agentId marks) := by
  obtain ⟨hfile, hactive⟩ := amend_indexes r agentId marks
  refine ⟨⟨?_, ?_, ?_⟩, ?_⟩
  · intro a e' he'
    obtain ⟨e, he, heq⟩ := amended agentId marks he'
    rw [heq]
    exact h.keyed a e he
  · intro f a hf
    rw [hfile] at hf
    obtain ⟨e, he, hef⟩ := h.file f a hf
    obtain ⟨e', he', heq⟩ := amended' agentId marks he
    exact ⟨e', he', heq ▸ hef⟩
  · intro s a hs
    rw [hactive] at hs
    obtain ⟨e, he, hes⟩ := h.active s a hs
    obtain ⟨e', he', heq⟩ := amended' agentId marks he
    exact ⟨e', he', heq ▸ hes⟩
  · intro a e' f he' hf
    obtain ⟨e, he, heq⟩ := amended agentId marks he'
    rw [hfile]
    exact h.fileOf a e f he (heq ▸ hf)

theorem Inv.write (h : Inv canonicalPath r) (entry : WorkerRosterEntry) (workerId : Option String)
    (statusLabel : Option StatusLabel) : Inv canonicalPath (r.write canonicalPath entry workerId statusLabel) := by
  refine h.effect (h.write_effect entry workerId statusLabel) ?_
  intro e he
  cases he
  refine ⟨.inl rfl, ?_⟩
  intro f a hf ha
  exact .inr (bind_eq_some_iff.2 ⟨f, hf, ha⟩)

theorem Inv.step (h : Inv canonicalPath r) (op : RosterOp) : Inv canonicalPath (step canonicalPath r op) := by
  cases op with
  | write entry workerId statusLabel => exact h.write entry workerId statusLabel
  | delete agentId => exact h.effect (h.delete_effect agentId) fun e he => by cases he
  | amend agentId marks => exact h.amend agentId marks

theorem found_step (h : Inv canonicalPath r) (hfound : r.ActiveFound) (op : RosterOp) :
    (step canonicalPath r op).ActiveFound ↔ ¬ Strands canonicalPath r op := by
  have h' := (h.step op).toOwn
  cases op with
  | write entry workerId statusLabel =>
    refine (found_effect h.toOwn h' (h.write_effect entry workerId statusLabel) hfound).trans ?_
    rw [Strands]
    have hput : ∀ s, (∀ p, some (storedEntry entry workerId statusLabel) = some p → p.activeSessionId ≠ some s) ↔
        ∀ entry' workerId' statusLabel',
          RosterOp.write entry workerId statusLabel = .write entry' workerId' statusLabel' →
          entry'.activeSessionId ≠ some s := by
      intro s
      refine ⟨?_, ?_⟩
      · intro hall entry' workerId' statusLabel' heq
        cases heq
        exact hall _ rfl
      · intro hall p hp
        cases hp
        exact hall entry workerId statusLabel rfl
    simp only [hput]
  | delete agentId =>
    refine (found_effect h.toOwn h' (h.delete_effect agentId) hfound).trans ?_
    rw [Strands]
    simp [Leaves]
  | amend agentId marks =>
    refine iff_of_true ?_ ?_
    · rw [found_iff h']
      rw [found_iff h.toOwn] at hfound
      intro s a e' he' hactive
      obtain ⟨e, he, heq⟩ := amended agentId marks he'
      rw [step, (amend_indexes r agentId marks).2]
      exact hfound s a e he (heq ▸ hactive)
    · rintro ⟨s, a, -, hleaves, -⟩
      exact hleaves

theorem run_concat (ops : List RosterOp) (op : RosterOp) :
    run canonicalPath (ops ++ [op]) = step canonicalPath (run canonicalPath ops) op := List.foldl_append

theorem inv_run (canonicalPath : String → String) (ops : List RosterOp) :
    Inv canonicalPath (run canonicalPath ops) := by
  induction ops using List.reverseRecOn with
  | nil => exact ⟨⟨fun a e h => (by cases h), fun f a h => (by cases h), fun s a h => (by cases h)⟩,
      fun a e f h => (by cases h)⟩
  | append_singleton ops op ih =>
    rw [run_concat]
    exact ih.step op

theorem Inv.filesIndexed (h : Inv canonicalPath r) : r.FilesIndexed canonicalPath := by
  refine ⟨?_, ?_⟩
  · intro a b e e' file ha hb hfile hfile'
    have hindex := h.fileOf a e file ha hfile
    rw [h.fileOf b e' file hb hfile'] at hindex
    exact (Option.some.inj hindex).symm
  · intro file e
    rw [bySessionFile, bind_eq_some_iff]
    constructor
    · rintro ⟨a, ha, he⟩
      obtain ⟨e', he', hfile⟩ := h.file file a ha
      rw [he] at he'
      cases he'
      exact ⟨a, he, hfile⟩
    · rintro ⟨a, he, hfile⟩
      exact ⟨a, h.fileOf a e file he hfile, he⟩

theorem Own.activeSound (h : Own canonicalPath r) : r.ActiveSound := by
  intro s e hs
  rw [byActiveSessionId, bind_eq_some_iff] at hs
  obtain ⟨a, ha, he⟩ := hs
  obtain ⟨e', he', hactive⟩ := h.active s a ha
  rw [he] at he'
  cases he'
  exact ⟨a, he, hactive⟩

end Runs

/-- In every state of a run the lookup by file is right, and what the lookup by active session id returns is right. It
returns an entry whenever there is one, in all states, exactly if no call of the run strands an entry. -/
theorem index_of_run (canonicalPath : String → String) (ops : List RosterOp) :
    (run canonicalPath ops).FilesIndexed canonicalPath ∧ (run canonicalPath ops).ActiveSound ∧
      ((∀ done rest, ops = done ++ rest → (run canonicalPath done).ActiveFound) ↔
        History.Each (fun done op => ¬ Strands canonicalPath (run canonicalPath done) op) ops) := by
  refine ⟨(inv_run canonicalPath ops).filesIndexed, (inv_run canonicalPath ops).activeSound, ?_⟩
  constructor
  · rintro hall done op rest rfl
    have hfound : (run canonicalPath (done ++ [op])).ActiveFound := hall _ rest (by simp)
    rw [run_concat] at hfound
    exact (found_step (inv_run canonicalPath done) (hall done _ rfl) op).1 hfound
  · intro heach done rest hops
    induction done using List.reverseRecOn generalizing rest with
    | nil => exact fun s a e he => by cases he
    | append_singleton done op ih =>
      rw [List.append_assoc, List.singleton_append] at hops
      rw [run_concat]
      exact (found_step (inv_run canonicalPath done) (ih _ hops) op).2 (heach done op rest hops)

def active (agentId activeSessionId : String) : WorkerRosterEntry :=
  ⟨agentId, false, ⟨agentId, some activeSessionId, none, .idle, false⟩⟩

/-- Two agents of one active session id: the second one goes, and the first one is not found. -/
theorem shared_not_found : ¬ ∀ ops, (run id ops).ActiveFound := by
  intro h
  have hfound := h [.write (active "a" "s") none none, .write (active "b" "s") none none, .delete "b"] "s" "a"
    (storedEntry (active "a" "s") none none)
  revert hfound
  decide

end AgentRoster
end Daemon
end RePrime
