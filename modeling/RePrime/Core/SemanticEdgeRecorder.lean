import RePrime.Core.SemanticEdges

/-!
# RePrime.Core.SemanticEdgeRecorder

The recorder that writes a session's ledger and hands out the id of each turn request, which is also its
idempotency key (`SemanticEdgeRecorder` in `semantic-edges.ts`). A retry of the last turn can get its id again.

* `startTurnRequest`, `prepareTurnRetry`, …: the methods. Each append to the ledger can fail, and then the
  recorder is disabled; the random ids are parameters.
* `perform`, `run`: the calls of a process, restarts included, with what each returned.
* `Attempted`, `Parked`: what the turn and the parked retry of the recorder say about the calls before.
* `reused_key`: an id is returned again only for the body of the attempt before, which was parked since, and
  no compaction was completed in between.
-/

namespace RePrime
namespace Core
namespace SemanticEdges

open List

structure TurnAttempt where
  requestId : String
  epoch : Nat
  bodyHash : Option String
deriving DecidableEq

structure Options where
  /-- `ledgerPath` is given. -/
  ledger : Bool
  sessionId : String
  parentSessionId : Option String
  spawnedByRequestId : Option String

structure Recorder where
  sessionId : String
  hasLedger : Bool
  disabled : Bool
  epoch : Nat
  lastTurn : Option TurnAttempt
  parkedRetry : Option TurnAttempt
  lastCommittedRequestId : Option String
  openCompactions : List String

/-- How an append to the ledger goes; of a failed one the line may be there or not. -/
inductive Write where
  | ok
  | failed (kept : Bool)

/-- The recorder and the ledger on disk. -/
structure Recording where
  recorder : Recorder
  ledger : List LedgerEvent

def Recorder.replay (r : Recorder) : LedgerEvent → Recorder
  | .requestStarted requestId sessionId compactionId =>
    if sessionId = r.sessionId ∧ compactionId = none then
      { r with lastTurn := some ⟨requestId, r.epoch, none⟩ }
    else r
  | .requestFinished requestId => { r with lastCommittedRequestId := some requestId }
  | .compactionBegun compactionId sessionId =>
    if sessionId = r.sessionId then
      { r with openCompactions := if compactionId ∈ r.openCompactions then r.openCompactions
                                  else r.openCompactions ++ [compactionId] }
    else r
  | .compactionFinished compactionId status =>
    if compactionId ∈ r.openCompactions then
      let r := { r with openCompactions := r.openCompactions.erase compactionId }
      if status = .completed then { r with epoch := r.epoch + 1 } else r
    else r
  | _ => r

/-- `_append`, and whether the event was recorded. -/
def append (s : Recording) (event : LedgerEvent) (write : Write) : Recording × Bool :=
  if s.recorder.disabled then (s, false)
  else if s.recorder.hasLedger then
    match write with
    | .ok => (⟨s.recorder.replay event, s.ledger ++ [event]⟩, true)
    | .failed kept =>
      (⟨{ s.recorder with disabled := true }, if kept then s.ledger ++ [event] else s.ledger⟩, false)
  else ({ s with recorder := s.recorder.replay event }, true)

/-- A new recorder over the ledger; reading it can fail. -/
def construct (options : Options) (ledger : List LedgerEvent) (unreadable : Bool) (write : Write) : Recording :=
  let recorder : Recorder := ⟨options.sessionId, options.ledger, false, 0, none, none, none, []⟩
  if options.ledger ∧ unreadable then ⟨{ recorder with disabled := true }, ledger⟩
  else
    let existing := if options.ledger then ledger else []
    let registered := existing.any fun
      | .sessionRegistered sessionId _ _ => sessionId == options.sessionId
      | _ => false
    if registered then ⟨existing.foldl Recorder.replay recorder, ledger⟩
    else
      (append ⟨recorder, ledger⟩
        (.sessionRegistered options.sessionId options.parentSessionId options.spawnedByRequestId) write).1

/-! ### The methods -/

/-- The parked id can be used for a call with this body. -/
def Recorder.canReuse (r : Recorder) (parked : TurnAttempt) (bodyHash : Option String) : Bool :=
  parked.epoch == r.epoch && parked.bodyHash.isSome && parked.bodyHash == bodyHash

def startTurnRequest (s : Recording) (bodyHash : Option String) (minted : String) (write : Write) :
    Recording × Option String :=
  let parked := s.recorder.parkedRetry
  let requestId :=
    match parked with
    | some turn => if s.recorder.canReuse turn bodyHash then turn.requestId else minted
    | none => minted
  let parkedRetry := if some requestId = parked.map (·.requestId) then none else parked
  let recorded := append { s with recorder := { s.recorder with parkedRetry := parkedRetry } }
    (.requestStarted requestId s.recorder.sessionId none) write
  if recorded.2 then
    ({ recorded.1 with recorder := { recorded.1.recorder with
        lastTurn := some ⟨requestId, recorded.1.recorder.epoch, bodyHash⟩ } }, some requestId)
  else (recorded.1, none)

def prepareTurnRetry (s : Recording) : Recording :=
  { s with recorder := { s.recorder with parkedRetry := s.recorder.lastTurn } }

def clearTurnRetry (s : Recording) : Recording := { s with recorder := { s.recorder with parkedRetry := none } }

def finishTurnRequest (s : Recording) (requestId : Option String) (write : Write) : Recording :=
  match requestId with
  | none => s
  | some requestId => (append s (.requestFinished requestId) write).1

def failTurnRequest (s : Recording) (requestId : Option String) (write : Write) : Recording :=
  match requestId with
  | none => s
  | some requestId => (append s (.requestFailed requestId) write).1

def beginCompaction (s : Recording) (minted : String) (write : Write) : Recording :=
  (append s (.compactionBegun minted s.recorder.sessionId) write).1

def startCompactionRequest (s : Recording) (compactionId minted : String) (write : Write) :
    Recording × Option String :=
  let recorded := append s (.requestStarted minted s.recorder.sessionId (some compactionId)) write
  (recorded.1, if recorded.2 then some minted else none)

/-- `none` when the compaction is not known, which is an error. -/
def completeCompaction (s : Recording) (compactionId : String) (status : CompactionStatus) (write : Write) :
    Option Recording :=
  if s.recorder.disabled then some s
  else if compactionId ∈ s.recorder.openCompactions then
    some (append s (.compactionFinished compactionId status) write).1
  else none

def recordChildReturned (s : Recording) (childSessionId : String) (childLastCommittedRequestId : Option String)
    (write : Write) : Recording :=
  match childLastCommittedRequestId with
  | none => s
  | some requestId => (append s (.childReturned s.recorder.sessionId childSessionId requestId) write).1

/-! ### Runs -/

inductive Call where
  | startTurnRequest (bodyHash : Option String) (minted : String) (write : Write)
  | prepareTurnRetry
  | clearTurnRetry
  | finishRequest (requestId : Option String) (write : Write)
  | failRequest (requestId : Option String) (write : Write)
  | beginCompaction (minted : String) (write : Write)
  | startCompactionRequest (compactionId minted : String) (write : Write)
  | finishCompaction (compactionId : String) (status : CompactionStatus) (write : Write)
  | recordChildReturned (childSessionId : String) (requestId : Option String) (write : Write)
  | restart (options : Options) (unreadable : Bool) (write : Write)

inductive Outcome where
  | done
  | request (requestId : Option String)
  | unknownCompaction (compactionId : String)
deriving DecidableEq

def perform (s : Recording) : Call → Recording × Outcome
  | .startTurnRequest bodyHash minted write =>
    let started := startTurnRequest s bodyHash minted write
    (started.1, .request started.2)
  | .prepareTurnRetry => (prepareTurnRetry s, .done)
  | .clearTurnRetry => (clearTurnRetry s, .done)
  | .finishRequest requestId write => (finishTurnRequest s requestId write, .done)
  | .failRequest requestId write => (failTurnRequest s requestId write, .done)
  | .beginCompaction minted write => (beginCompaction s minted write, .done)
  | .startCompactionRequest compactionId minted write =>
    let started := startCompactionRequest s compactionId minted write
    (started.1, .request started.2)
  | .finishCompaction compactionId status write =>
    match completeCompaction s compactionId status write with
    | some s => (s, .done)
    | none => (s, .unknownCompaction compactionId)
  | .recordChildReturned childSessionId requestId write =>
    (recordChildReturned s childSessionId requestId write, .done)
  | .restart options unreadable write => (construct options s.ledger unreadable write, .done)

structure Entry where
  call : Call
  outcome : Outcome

/-- A process from its first recorder on, with the calls that were made and what they returned. -/
inductive Run : Recording → List Entry → Prop where
  | start (options : Options) (unreadable : Bool) (write : Write) : Run (construct options [] unreadable write) []
  | call {s : Recording} {trace : List Entry} (c : Call) :
    Run s trace → Run (perform s c).1 (trace ++ [⟨c, (perform s c).2⟩])

def Call.minted : Call → Option String
  | .startTurnRequest _ minted _ => some minted
  | .beginCompaction minted _ => some minted
  | .startCompactionRequest _ minted _ => some minted
  | _ => none

/-- The random ids are all different. -/
def FreshIds (calls : List Call) : Prop := (calls.filterMap Call.minted).Nodup

instance (calls : List Call) : Decidable (FreshIds calls) :=
  inferInstanceAs (Decidable (calls.filterMap Call.minted).Nodup)

/-- The id that `startTurnRequest` returned, and the body it was called with. -/
def Entry.given (e : Entry) : Option (String × Option String) :=
  match e.call, e.outcome with
  | .startTurnRequest bodyHash _ _, .request (some requestId) => some (requestId, bodyHash)
  | _, _ => none

/-- A call that completed a compaction. -/
def Entry.completes (e : Entry) : Prop :=
  ∃ compactionId write, e.call = .finishCompaction compactionId .completed write ∧ e.outcome = .done

/-- The last attempt was parked, and other calls followed. -/
def ParkedIn (entries : List Entry) : Prop :=
  ∃ before e after, entries = before ++ e :: after ∧ e.call = .prepareTurnRetry ∧ ∀ x ∈ before, x.given = none

/-! ### What the recorder remembers -/

/-- The turn is an attempt with this body, and the calls since then. -/
structure Attempt (epoch : Nat) (turn : TurnAttempt) (hash : String) (trace after : List Entry) : Prop where
  given : ∃ before e, trace = before ++ e :: after ∧ e.given = some (turn.requestId, some hash)
  le : turn.epoch ≤ epoch
  same : turn.epoch = epoch → ∀ x ∈ after, ¬ x.completes

def Attempted (epoch : Nat) (turn : TurnAttempt) (hash : String) (trace : List Entry) : Prop :=
  ∃ after, Attempt epoch turn hash trace after ∧ ∀ x ∈ after, x.given = none

def Parked (epoch : Nat) (turn : TurnAttempt) (hash : String) (trace : List Entry) : Prop :=
  ∃ after, Attempt epoch turn hash trace after ∧ (∀ x ∈ after, ∀ h, x.given ≠ some (turn.requestId, h)) ∧
    ParkedIn after

variable {epoch epoch' : Nat} {turn : TurnAttempt} {hash : String} {trace : List Entry} {e : Entry}

theorem Attempt.extend {after : List Entry} (h : Attempt epoch turn hash trace after) (hle : epoch ≤ epoch')
    (hcompletes : e.completes → epoch < epoch') : Attempt epoch' turn hash (trace ++ [e]) (after ++ [e]) := by
  obtain ⟨before, first, rfl, hgiven⟩ := h.given
  have hold := h.le
  refine ⟨⟨before, first, by simp, hgiven⟩, by omega, ?_⟩
  intro hsame x hx
  rw [mem_append, mem_singleton] at hx
  rcases hx with hx | rfl
  · exact h.same (by omega) x hx
  · intro hc
    have := hcompletes hc
    omega

theorem Attempted.extend (h : Attempted epoch turn hash trace) (hle : epoch ≤ epoch')
    (hcompletes : e.completes → epoch < epoch') (hgiven : e.given = none) :
    Attempted epoch' turn hash (trace ++ [e]) := by
  obtain ⟨after, hat, hnone⟩ := h
  refine ⟨after ++ [e], hat.extend hle hcompletes, ?_⟩
  intro x hx
  rw [mem_append, mem_singleton] at hx
  rcases hx with hx | rfl
  · exact hnone x hx
  · exact hgiven

theorem ParkedIn.extend {entries : List Entry} (h : ParkedIn entries) (more : List Entry) :
    ParkedIn (entries ++ more) := by
  obtain ⟨before, e, after, rfl, he, hbefore⟩ := h
  exact ⟨before, e, after ++ more, by simp, he, hbefore⟩

theorem Parked.extend (h : Parked epoch turn hash trace) (hle : epoch ≤ epoch')
    (hcompletes : e.completes → epoch < epoch') (hgiven : ∀ h, e.given ≠ some (turn.requestId, h)) :
    Parked epoch' turn hash (trace ++ [e]) := by
  obtain ⟨after, hat, hnot, hparked⟩ := h
  refine ⟨after ++ [e], hat.extend hle hcompletes, ?_, hparked.extend [e]⟩
  intro x hx
  rw [mem_append, mem_singleton] at hx
  rcases hx with hx | rfl
  · exact hnot x hx
  · exact hgiven

theorem Attempted.park {outcome : Outcome} (h : Attempted epoch turn hash trace) :
    Parked epoch turn hash (trace ++ [⟨.prepareTurnRetry, outcome⟩]) := by
  obtain ⟨after, hat, hnone⟩ := h
  have hgiven : Entry.given ⟨.prepareTurnRetry, outcome⟩ = none := rfl
  refine ⟨after ++ [⟨.prepareTurnRetry, outcome⟩], hat.extend (Nat.le_refl _) ?_, ?_, ?_⟩
  · rintro ⟨_, _, hcall, _⟩
    cases hcall
  · intro x hx h hx'
    rw [mem_append, mem_singleton] at hx
    rcases hx with hx | rfl
    · rw [hnone x hx] at hx'
      cases hx'
    · rw [hgiven] at hx'
      cases hx'
  · exact ⟨after, _, [], rfl, rfl, hnone⟩

structure Remembers (r : Recorder) (trace : List Entry) : Prop where
  last : ∀ turn hash, r.lastTurn = some turn → turn.bodyHash = some hash → Attempted r.epoch turn hash trace
  parked : ∀ turn hash, r.parkedRetry = some turn → turn.bodyHash = some hash → Parked r.epoch turn hash trace

variable {r : Recorder}

theorem Remembers.extend {r' : Recorder} (h : Remembers r trace)
    (hlast : r'.lastTurn = r.lastTurn) (hparked : r'.parkedRetry = r.parkedRetry) (hle : r.epoch ≤ r'.epoch)
    (hcompletes : e.completes → r.epoch < r'.epoch) (hgiven : e.given = none) : Remembers r' (trace ++ [e]) := by
  refine ⟨?_, ?_⟩
  · intro turn hash hturn hhash
    rw [hlast] at hturn
    exact (h.last turn hash hturn hhash).extend hle hcompletes hgiven
  · intro turn hash hturn hhash
    rw [hparked] at hturn
    refine (h.parked turn hash hturn hhash).extend hle hcompletes fun h' hg => ?_
    rw [hgiven] at hg
    cases hg

/-! ### The calls -/

/-- A recorded event was replayed; otherwise the recorder is disabled. -/
theorem append_cases (s : Recording) (event : LedgerEvent) (write : Write) :
    ((append s event write).2 = true ∧ s.recorder.disabled = false ∧
      (append s event write).1.recorder = s.recorder.replay event) ∨
    ((append s event write).2 = false ∧ (append s event write).1.recorder.disabled = true) := by
  unfold append
  by_cases hd : s.recorder.disabled = true
  · rw [if_pos hd]
    exact .inr ⟨rfl, hd⟩
  · rw [if_neg hd]
    have hd' : s.recorder.disabled = false := by simpa using hd
    by_cases hl : s.recorder.hasLedger = true
    · rw [if_pos hl]
      cases write with
      | ok => exact .inl ⟨rfl, hd', rfl⟩
      | failed kept => exact .inr ⟨rfl, rfl⟩
    · rw [if_neg hl]
      exact .inl ⟨rfl, hd', rfl⟩

/-- Either nothing is handed out any more, or the turns are as remembered. -/
def Inv (s : Recording) (trace : List Entry) : Prop := s.recorder.disabled = true ∨ Remembers s.recorder trace

/-- Events that leave the turns alone. -/
def Keeps (r : Recorder) (event : LedgerEvent) (completed : Bool) : Prop :=
  (r.replay event).lastTurn = r.lastTurn ∧ (r.replay event).parkedRetry = r.parkedRetry ∧
    r.epoch ≤ (r.replay event).epoch ∧ (completed = true → r.epoch < (r.replay event).epoch)

variable {s : Recording} {write : Write}

theorem Inv.append {event : LedgerEvent}
    {completed : Bool} (h : Inv s trace) (hkeeps : Keeps s.recorder event completed)
    (hcompletes : e.completes → completed = true) (hgiven : e.given = none) :
    Inv (append s event write).1 (trace ++ [e]) := by
  rcases append_cases s event write with ⟨-, hd, hr⟩ | ⟨-, hd⟩
  · rcases h with h | h
    · rw [hd] at h
      cases h
    · obtain ⟨hlast, hparked, hle, hlt⟩ := hkeeps
      refine .inr ?_
      rw [hr]
      exact h.extend hlast hparked hle (fun hc => hlt (hcompletes hc)) hgiven
  · exact .inl hd

theorem Inv.idle (h : Inv s trace)
    (hcompletes : ¬ e.completes) (hgiven : e.given = none) : Inv s (trace ++ [e]) := by
  rcases h with h | h
  · exact .inl h
  · exact .inr (h.extend rfl rfl (Nat.le_refl _) (fun hc => absurd hc hcompletes) hgiven)

/-- A recorder that knows no body. -/
def Bare (r : Recorder) : Prop := (∀ turn, r.lastTurn = some turn → turn.bodyHash = none) ∧ r.parkedRetry = none

theorem Bare.replay (h : Bare r) (event : LedgerEvent) : Bare (r.replay event) := by
  obtain ⟨hlast, hparked⟩ := h
  cases event with
  | requestStarted requestId sessionId compactionId =>
    simp only [Recorder.replay]
    split
    · refine ⟨?_, hparked⟩
      intro turn hturn
      cases hturn
      rfl
    · exact ⟨hlast, hparked⟩
  | compactionBegun compactionId sessionId =>
    simp only [Recorder.replay]
    split
    · exact ⟨hlast, hparked⟩
    · exact ⟨hlast, hparked⟩
  | compactionFinished compactionId status =>
    simp only [Recorder.replay]
    split
    · split
      · exact ⟨hlast, hparked⟩
      · exact ⟨hlast, hparked⟩
    · exact ⟨hlast, hparked⟩
  | _ => exact ⟨hlast, hparked⟩

theorem Bare.foldl (h : Bare r) (events : List LedgerEvent) : Bare (events.foldl Recorder.replay r) := by
  induction events generalizing r with
  | nil => exact h
  | cons event events ih => exact ih (h.replay event)

theorem Bare.remembers (h : Bare r) (trace : List Entry) : Remembers r trace := by
  obtain ⟨hlast, hparked⟩ := h
  refine ⟨?_, ?_⟩
  · intro turn hash hturn hhash
    rw [hlast turn hturn] at hhash
    cases hhash
  · intro turn hash hturn
    rw [hparked] at hturn
    cases hturn

theorem inv_construct (options : Options) (ledger : List LedgerEvent) (unreadable : Bool) (write : Write)
    (trace : List Entry) : Inv (construct options ledger unreadable write) trace := by
  have hbare : Bare ⟨options.sessionId, options.ledger, false, 0, none, none, none, []⟩ := by
    refine ⟨?_, rfl⟩
    intro turn hturn
    cases hturn
  unfold construct
  by_cases hu : options.ledger = true ∧ unreadable = true
  · rw [if_pos hu]
    exact .inl rfl
  · rw [if_neg hu]
    dsimp only
    generalize (if options.ledger = true then ledger else []) = existing
    split
    · exact .inr ((hbare.foldl _).remembers trace)
    · rcases append_cases ⟨⟨options.sessionId, options.ledger, false, 0, none, none, none, []⟩, ledger⟩
          (.sessionRegistered options.sessionId options.parentSessionId options.spawnedByRequestId) write with
        ⟨-, -, hr⟩ | ⟨-, hd⟩
      · refine .inr ?_
        rw [hr]
        exact (hbare.replay _).remembers trace
      · exact .inl hd

variable {bodyHash : Option String}

theorem startTurnRequest_cases {s' : Recording} {minted : String}
    {given : Option String} (h : startTurnRequest s bodyHash minted write = (s', given)) :
    (given = none ∧ s'.recorder.disabled = true) ∨
    (∃ requestId, given = some requestId ∧ s.recorder.disabled = false ∧ s'.recorder.epoch = s.recorder.epoch ∧
      s'.recorder.lastTurn = some ⟨requestId, s.recorder.epoch, bodyHash⟩ ∧
      (∀ turn, s'.recorder.parkedRetry = some turn → s.recorder.parkedRetry = some turn ∧
        requestId ≠ turn.requestId) ∧
      (requestId = minted ∨ ∃ turn hash, s.recorder.parkedRetry = some turn ∧ turn.requestId = requestId ∧
        turn.epoch = s.recorder.epoch ∧ turn.bodyHash = some hash ∧ bodyHash = some hash)) := by
  obtain ⟨requestId, hid⟩ : ∃ requestId, requestId = (match s.recorder.parkedRetry with
    | some turn => if s.recorder.canReuse turn bodyHash then turn.requestId else minted
    | none => minted) := ⟨_, rfl⟩
  obtain ⟨parkedRetry, hparked⟩ : ∃ parkedRetry, parkedRetry =
      (if some requestId = s.recorder.parkedRetry.map (·.requestId) then none else s.recorder.parkedRetry) := ⟨_, rfl⟩
  simp only [startTurnRequest, ← hid, ← hparked] at h
  rcases append_cases { s with recorder := { s.recorder with parkedRetry := parkedRetry } }
      (.requestStarted requestId s.recorder.sessionId none) write with ⟨hok, hd, hr⟩ | ⟨hok, hd⟩
  · rw [if_pos hok] at h
    cases h
    simp only [Recorder.replay, and_self, if_true] at hr
    refine .inr ⟨requestId, rfl, hd, ?_, ?_, ?_, ?_⟩
    · rw [hr]
    · rw [hr]
    · intro turn hturn
      rw [hr] at hturn
      dsimp only at hturn
      rw [hparked] at hturn
      split at hturn
      · cases hturn
      · rename_i hne
        refine ⟨hturn, fun he => hne ?_⟩
        rw [hturn, he]
        rfl
    · cases hp : s.recorder.parkedRetry with
      | none =>
        rw [hp] at hid
        exact .inl hid
      | some turn =>
        rw [hp] at hid
        dsimp only at hid
        split at hid
        · rename_i hreuse
          simp only [Recorder.canReuse, Bool.and_eq_true, beq_iff_eq] at hreuse
          obtain ⟨⟨hepoch, hsome⟩, hhash⟩ := hreuse
          obtain ⟨hash, hsome⟩ := Option.isSome_iff_exists.1 hsome
          exact .inr ⟨turn, hash, rfl, hid.symm, hepoch, hsome, by rw [← hhash, hsome]⟩
        · exact .inl hid
  · rw [hok] at h
    cases h
    exact .inl ⟨rfl, hd⟩

theorem Inv.startTurnRequest {minted : String} (h : Inv s trace) :
    Inv (perform s (.startTurnRequest bodyHash minted write)).1 (trace ++ [⟨.startTurnRequest bodyHash minted write,
        (perform s (.startTurnRequest bodyHash minted write)).2⟩]) := by
  cases hstart : SemanticEdges.startTurnRequest s bodyHash minted write with
  | mk s' given =>
    have hperform : perform s (.startTurnRequest bodyHash minted write) = (s', .request given) := by
      simp only [perform, hstart]
    rw [hperform]
    rcases startTurnRequest_cases hstart with ⟨-, hd⟩ | ⟨requestId, rfl, hd, hepoch, hlast, hparked, -⟩
    · exact .inl hd
    · rcases h with h | h
      · rw [hd] at h
        cases h
      · have hgiven : Entry.given ⟨.startTurnRequest bodyHash minted write, .request (some requestId)⟩ =
            some (requestId, bodyHash) := rfl
        have hnot : ¬ Entry.completes ⟨.startTurnRequest bodyHash minted write, .request (some requestId)⟩ := by
          rintro ⟨_, _, hcall, _⟩
          cases hcall
        refine .inr ⟨?_, ?_⟩
        · intro turn hash hturn hhash
          dsimp only at hturn ⊢
          rw [hlast] at hturn
          cases hturn
          rw [hepoch]
          exact ⟨[], ⟨⟨trace, _, rfl, by rw [← hhash]; exact hgiven⟩, Nat.le_refl _, by simp⟩, by simp⟩
        · intro turn hash hturn hhash
          obtain ⟨hturn, hne⟩ := hparked turn hturn
          have hold := h.parked turn hash hturn hhash
          refine hold.extend (Nat.le_of_eq hepoch.symm) (fun hc => absurd hc hnot) ?_
          intro h' hg
          rw [hgiven] at hg
          cases hg
          exact hne rfl

theorem keeps_compactionFinished {compactionId : String} (status : CompactionStatus)
    (hopen : compactionId ∈ r.openCompactions) :
    Keeps r (.compactionFinished compactionId status) (status == .completed) := by
  simp only [Keeps, Recorder.replay, if_pos hopen]
  cases status with
  | completed => exact ⟨rfl, rfl, Nat.le_succ _, fun _ => Nat.lt_succ_self _⟩
  | failed | cancelled => exact ⟨rfl, rfl, Nat.le_refl _, fun h => by cases h⟩

theorem keeps_of_eq {event : LedgerEvent} (hlast : (r.replay event).lastTurn = r.lastTurn)
    (hparked : (r.replay event).parkedRetry = r.parkedRetry) (hepoch : (r.replay event).epoch = r.epoch) :
    Keeps r event false :=
  ⟨hlast, hparked, Nat.le_of_eq hepoch.symm, fun h => by cases h⟩

theorem Inv.perform (h : Inv s trace) (c : Call) : Inv (perform s c).1 (trace ++ [⟨c, (perform s c).2⟩]) := by
  cases c with
  | startTurnRequest bodyHash minted write => exact h.startTurnRequest
  | prepareTurnRetry =>
    rcases h with h | h
    · exact .inl h
    · refine .inr ⟨?_, ?_⟩
      · intro turn hash hturn hhash
        refine (h.last turn hash hturn hhash).extend (Nat.le_refl _) ?_ rfl
        rintro ⟨_, _, hcall, _⟩
        cases hcall
      · intro turn hash hturn hhash
        exact (h.last turn hash hturn hhash).park
  | clearTurnRetry =>
    rcases h with h | h
    · exact .inl h
    · refine .inr ⟨?_, ?_⟩
      · intro turn hash hturn hhash
        refine (h.last turn hash hturn hhash).extend (Nat.le_refl _) ?_ rfl
        rintro ⟨_, _, hcall, _⟩
        cases hcall
      · intro turn hash hturn
        cases hturn
  | finishRequest requestId write =>
    have hnot : ¬ Entry.completes ⟨.finishRequest requestId write, .done⟩ := by
      rintro ⟨_, _, hcall, _⟩
      cases hcall
    cases requestId with
    | none => exact h.idle hnot rfl
    | some requestId => exact h.append (keeps_of_eq rfl rfl rfl) (fun hc => absurd hc hnot) rfl
  | failRequest requestId write =>
    have hnot : ¬ Entry.completes ⟨.failRequest requestId write, .done⟩ := by
      rintro ⟨_, _, hcall, _⟩
      cases hcall
    cases requestId with
    | none => exact h.idle hnot rfl
    | some requestId => exact h.append (keeps_of_eq rfl rfl rfl) (fun hc => absurd hc hnot) rfl
  | beginCompaction minted write =>
    have hnot : ¬ Entry.completes ⟨.beginCompaction minted write, .done⟩ := by
      rintro ⟨_, _, hcall, _⟩
      cases hcall
    have hkeeps : Keeps s.recorder (.compactionBegun minted s.recorder.sessionId) false := by
      simp only [Keeps, Recorder.replay, if_true]
      exact ⟨trivial, trivial, Nat.le_refl _, fun h => by cases h⟩
    exact h.append hkeeps (fun hc => absurd hc hnot) rfl
  | startCompactionRequest compactionId minted write =>
    have hkeeps : Keeps s.recorder (.requestStarted minted s.recorder.sessionId (some compactionId)) false := by
      simp only [Keeps, Recorder.replay, reduceCtorEq, and_false, if_false]
      exact ⟨trivial, trivial, Nat.le_refl _, fun h => by cases h⟩
    refine h.append hkeeps ?_ rfl
    rintro ⟨_, _, hcall, _⟩
    cases hcall
  | finishCompaction compactionId status write =>
    cases hdone : completeCompaction s compactionId status write with
    | none =>
      have hperform : SemanticEdges.perform s (.finishCompaction compactionId status write) =
          (s, .unknownCompaction compactionId) := by
        simp only [SemanticEdges.perform, hdone]
      rw [hperform]
      refine h.idle ?_ rfl
      rintro ⟨_, _, _, hout⟩
      cases hout
    | some s' =>
      have hperform : SemanticEdges.perform s (.finishCompaction compactionId status write) = (s', .done) := by
        simp only [SemanticEdges.perform, hdone]
      rw [hperform]
      unfold completeCompaction at hdone
      split at hdone
      · rename_i hd
        cases hdone
        exact .inl hd
      · split at hdone
        · rename_i hopen
          cases hdone
          refine h.append (keeps_compactionFinished status hopen) ?_ rfl
          rintro ⟨_, _, hcall, _⟩
          cases hcall
          rfl
        · cases hdone
  | recordChildReturned childSessionId requestId write =>
    have hnot : ¬ Entry.completes ⟨.recordChildReturned childSessionId requestId write, .done⟩ := by
      rintro ⟨_, _, hcall, _⟩
      cases hcall
    cases requestId with
    | none => exact h.idle hnot rfl
    | some requestId => exact h.append (keeps_of_eq rfl rfl rfl) (fun hc => absurd hc hnot) rfl
  | restart options unreadable write => exact inv_construct options s.ledger unreadable write _

theorem Run.inv (h : Run s trace) : Inv s trace := by
  induction h with
  | start options unreadable write => exact inv_construct options [] unreadable write []
  | call c _ ih => exact ih.perform c

/-! ### The keys -/

theorem Run.given_minted (h : Run s trace) (he : e ∈ trace)
    {requestId : String} (hgiven : e.given = some (requestId, bodyHash)) :
    requestId ∈ (trace.map Entry.call).filterMap Call.minted := by
  induction h generalizing e bodyHash with
  | start => cases he
  | @call s trace c hrun ih =>
    rw [map_append, filterMap_append, mem_append]
    rw [mem_append, mem_singleton] at he
    rcases he with he | rfl
    · exact .inl (ih he hgiven)
    · cases c with
      | startTurnRequest hash minted write =>
        cases hstart : startTurnRequest s hash minted write with
        | mk s' given =>
          have hperform : perform s (.startTurnRequest hash minted write) = (s', .request given) := by
            simp only [perform, hstart]
          rw [hperform] at hgiven
          rcases startTurnRequest_cases hstart with ⟨rfl, -⟩ | ⟨requestId', rfl, hd, -, -, -, hid⟩
          · cases hgiven
          · cases hgiven
            rcases hid with rfl | ⟨turn, hash', hturn, rfl, -, hhash, -⟩
            · exact .inr (by simp [Call.minted])
            · rcases hrun.inv with hdis | hinv
              · rw [hd] at hdis
                cases hdis
              · obtain ⟨after, hat, -, -⟩ := hinv.parked turn hash' hturn hhash
                obtain ⟨before, first, rfl, hfirst⟩ := hat.given
                exact .inl (ih (by simp) hfirst)
      | _ => cases hgiven

theorem after_unique {P : Entry → Prop} {b₁ b₂ a₁ a₂ : List Entry} {e₁ e₂ : Entry}
    (h : b₁ ++ e₁ :: a₁ = b₂ ++ e₂ :: a₂) (h₁ : P e₁) (h₂ : P e₂) (hn₁ : ∀ x ∈ a₁, ¬ P x)
    (hn₂ : ∀ x ∈ a₂, ¬ P x) : e₁ = e₂ ∧ a₁ = a₂ := by
  rcases append_eq_append_iff.1 h with ⟨t, -, ht⟩ | ⟨t, -, ht⟩
  · cases t with
    | nil => simpa using ht
    | cons u t =>
      rw [cons_append] at ht
      cases ht
      exact absurd h₂ (hn₁ e₂ (by simp))
  · cases t with
    | nil =>
      rw [nil_append] at ht
      cases ht
      exact ⟨rfl, rfl⟩
    | cons u t =>
      rw [cons_append] at ht
      cases ht
      exact absurd h₁ (hn₂ e₁ (by simp))

/-- An id is returned again only for the body of the last attempt under it, with no compaction completed since
then, and only after that attempt was parked. -/
theorem reused_key {s : Recording} {trace before between : List Entry} {e : Entry} {requestId minted : String}
    {bodyHash bodyHash' : Option String} {write : Write} (hrun : Run s trace)
    (hfresh : FreshIds (trace.map Entry.call ++ [.startTurnRequest bodyHash minted write]))
    (hreturned : (perform s (.startTurnRequest bodyHash minted write)).2 = .request (some requestId))
    (hsplit : trace = before ++ e :: between) (hgiven : e.given = some (requestId, bodyHash'))
    (hlast : ∀ x ∈ between, ∀ hash, x.given ≠ some (requestId, hash)) :
    (∃ hash, bodyHash = some hash ∧ bodyHash' = some hash) ∧ (∀ x ∈ between, ¬ x.completes) ∧ ParkedIn between := by
  cases hstart : startTurnRequest s bodyHash minted write with
  | mk s' given =>
    have hperform : perform s (.startTurnRequest bodyHash minted write) = (s', .request given) := by
      simp only [perform, hstart]
    rw [hperform] at hreturned
    cases hreturned
    rcases startTurnRequest_cases hstart with ⟨hnone, -⟩ | ⟨_, hid, hd, -, -, -, hcases⟩
    · cases hnone
    · cases hid
      rcases hcases with rfl | ⟨turn, hash, hturn, rfl, hepoch, hhash, hbody⟩
      · -- a new id was not returned before
        have hmem := hrun.given_minted (e := e) (by simp [hsplit]) hgiven
        rw [FreshIds, filterMap_append, nodup_append] at hfresh
        exact absurd rfl (hfresh.2.2 requestId hmem requestId (by simp [Call.minted]))
      · rcases hrun.inv with hdis | hinv
        · rw [hd] at hdis
          cases hdis
        · obtain ⟨after, hat, hnot, hparked⟩ := hinv.parked turn hash hturn hhash
          obtain ⟨before', first, hsplit', hfirst⟩ := hat.given
          have hplace : first = e ∧ after = between :=
            after_unique (P := fun x => ∃ hash, x.given = some (turn.requestId, hash)) (hsplit'.symm.trans hsplit)
              ⟨_, hfirst⟩ ⟨_, hgiven⟩ (fun x hx ⟨h, hg⟩ => hnot x hx h hg) (fun x hx ⟨h, hg⟩ => hlast x hx h hg)
          obtain ⟨rfl, rfl⟩ := hplace
          rw [hfirst] at hgiven
          cases hgiven
          exact ⟨⟨hash, hbody, rfl⟩, hat.same hepoch, hparked⟩

/-- One turn, its retry prepared. -/
def preparedRetry : Recording :=
  prepareTurnRetry (startTurnRequest (construct ⟨true, "session", none, none⟩ [] false .ok) (some "body") "first" .ok).1

theorem reused_key_retry :
    (perform preparedRetry (.startTurnRequest (some "body") "second" .ok)).2 = .request (some "first") ∧
      ParkedIn [⟨.prepareTurnRetry, .done⟩] := by
  have hrun := ((Run.start ⟨true, "session", none, none⟩ false .ok).call
    (.startTurnRequest (some "body") "first" .ok)).call .prepareTurnRetry
  have hfirst : (perform (construct ⟨true, "session", none, none⟩ [] false .ok)
      (.startTurnRequest (some "body") "first" .ok)).2 = .request (some "first") := by decide
  rw [hfirst] at hrun
  have hreturned : (perform preparedRetry (.startTurnRequest (some "body") "second" .ok)).2 =
      .request (some "first") := by decide
  have hgiven : Entry.given ⟨.startTurnRequest (some "body") "first" .ok, .request (some "first")⟩ =
      some ("first", some "body") := rfl
  have hfresh : FreshIds [.startTurnRequest (some "body") "first" .ok, .prepareTurnRetry,
      .startTurnRequest (some "body") "second" .ok] := by decide
  have hlast : ∀ x ∈ [Entry.mk .prepareTurnRetry .done], ∀ hash, x.given ≠ some ("first", hash) := by
    intro x hx hash
    rw [mem_singleton.1 hx]
    intro h
    cases h
  exact ⟨hreturned, (reused_key hrun hfresh hreturned (show _ = [] ++ _ :: _ from rfl) hgiven hlast).2.2⟩

end SemanticEdges
end Core
end RePrime
