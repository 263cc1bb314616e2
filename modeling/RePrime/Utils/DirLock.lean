import RePrime.Lib.Json
import RePrime.Lib.Text

/-!
# RePrime.Utils.DirLock

The lock file that `tryAcquireDirLock` publishes with link(2), between any number of processes.

* `State.next`: an attempt makes its next system call, which may fail or lose its reply.
* `State.Inv`: the lock of a holder is at the lock path; what lies aside belongs to no holder.
* `exclusive_of_run`: while no live lock but the judged one is moved aside, one attempt holds the lock.
-/

namespace RePrime
namespace Utils
namespace DirLock

open Option

/-! ## Files -/

inductive DirLockAttempt where
  | acquired
  | held
  | reclaimed
  deriving DecidableEq

/-- `dev` and `ino` of a `stat`. -/
structure Identity where
  dev : Nat
  ino : Nat
  deriving DecidableEq

/-- A file as such, under whatever names: the one found at the lock path, or what an attempt wrote. -/
inductive File where
  | found
  | candidate (token : Nat)
  deriving DecidableEq

/-- What was at the lock path: a lock file, or a directory with its `pid` file, if it has one. -/
structure Found where
  identity : Identity
  isDir : Bool
  content : Option (List Char)

/-- A measurement of the lock path. The code sees `identity` and `isDir` of it, not the file as such. -/
structure Captured where
  file : File
  identity : Identity
  isDir : Bool
  deriving DecidableEq

inductive Code where
  | enoent
  | eexist
  | other
  deriving DecidableEq

/-! ## Attempts -/

/-- The system call an attempt makes next, or how it ended. -/
inductive Phase where
  | link
  | recheck (code : Code)
  | capture
  | pin (captured : Captured)
  | read (captured : Captured)
  | judge (captured : Captured) (judged : Option (List Char))
  | rename (captured : Captured)
  | renameFailed (captured : Captured)
  | verify (captured : Captured)
  | remove
  | restore (isDir : Bool)
  | unlink
  | settled (result : DirLockAttempt)
  | retried
  | threw
  | released
  | crashed
  deriving DecidableEq

/-- A call of `acquireAttempt`; its place in the list is its token. `candidate` says that `tempPath` is
still there, `aside` what `asidePath` names, and `pinned` what the descriptor is open on. -/
structure Attempt where
  pid : Nat
  identity : Identity
  retryOnSweptCandidate : Bool
  candidate : Bool
  aside : Option File
  pinned : Option File
  phase : Phase

open Attempt

/-- Whether the lock it published, if it did, is or may become its own. -/
def Attempt.claims (a : Attempt) : Bool :=
  match a.phase with
  | .recheck _ | .settled .acquired => true
  | _ => false

/-- A call does its work and says so, does it and reports a failure, or fails. -/
inductive Reply where
  | ok
  | lost
  | failed

/-- What the environment decides about one call: its reply, the code of a reported failure, the answer of
`ownerAlive` where no pid was read, and the identity of a file that is created. -/
structure Environment where
  reply : Reply := .ok
  code : Code := .other
  ownerAlive : Bool := false
  identity : Identity := ⟨0, 0⟩

structure State where
  found : Found
  lock : Option File
  attempts : List Attempt
  alive : Nat → Bool

inductive Action where
  | spawn (pid : Nat)
  | crash (pid : Nat)
  | tryAcquire (pid : Nat) (identity : Identity)
  | call (token : Nat) (env : Environment)
  | removeCandidate (token : Nat)
  | release (token : Nat) (reply : Reply)

/-- `${process.pid}\n` -/
def ownerText (pid : Nat) : List Char := Json.natDigits (pid + 1) pid ++ ['\n']

/-- `strictPid` -/
def strictPid (raw : Option (List Char)) : Option Nat :=
  match raw with
  | none => none
  | some raw =>
    match Json.readNat (Text.trimChars raw) with
    | none => none
    | some parsed => if 0 < parsed then some parsed else none

namespace State

def identityOf (s : State) : File → Identity
  | .found => s.found.identity
  | .candidate t => (s.attempts[t]?.map identity).getD ⟨0, 0⟩

def isDir (s : State) : File → Bool
  | .found => s.found.isDir
  | .candidate _ => false

/-- The text of a lock file, or of the `pid` file of a directory. -/
def content (s : State) : File → Option (List Char)
  | .found => s.found.content
  | .candidate t => s.attempts[t]?.map fun a => ownerText a.pid

def nlink (s : State) (f : File) : Nat :=
  (if s.lock = some f then 1 else 0) + (match f with
      | .found => 0
      | .candidate t => if (s.attempts[t]?).any candidate then 1 else 0) +
    s.attempts.countP fun a => a.aside == some f

/-- An identity is given to a new file only when no file that has it is named or open. -/
def inUse (s : State) (identity : Identity) : Bool :=
  (s.lock.any fun f => s.identityOf f == identity) ||
    s.attempts.any fun a =>
      (a.candidate && a.identity == identity) || (a.aside.any fun f => s.identityOf f == identity) ||
        (a.pinned.any fun f => s.identityOf f == identity)

def put (s : State) (t : Nat) (a : Attempt) : State := { s with attempts := s.attempts.set t a }

/-- `readOwnerRaw`; `none` is "unreadable" and `some none` is "absent". -/
def readOwnerRaw (s : State) (legacyDir : Bool) : Option (Option (List Char)) :=
  match s.lock with
  | none => some none
  | some f => if s.isDir f = legacyDir then some (s.content f) else none

/-- The callback of the callers: a process is probed by its pid, and what holds without one is up to them. -/
def ownerAlive (s : State) (env : Environment) : Option Nat → Bool
  | some pid => s.alive pid
  | none => env.ownerAlive

/-- The candidate of a call of `acquireAttempt` is written. -/
def openAttempt (s : State) (pid : Nat) (identity : Identity) (retryOnSweptCandidate : Bool) : State :=
  { s with
    attempts := s.attempts ++
      [{ pid, identity, retryOnSweptCandidate, candidate := true, aside := none, pinned := none, phase := .link }] }

/-- The next system call of `acquireAttempt` and `judgeAndReclaim`. -/
def next (s : State) (t : Nat) (a : Attempt) (env : Environment) : State :=
  match a.phase with
  | .link =>
    match env.reply with
    | .ok =>
      if a.candidate = false then s.put t { a with phase := .recheck .enoent }
      else if s.lock = none then
        { s with lock := some (.candidate t) }.put t { a with phase := .settled .acquired }
      else s.put t { a with phase := .recheck .eexist }
    | .lost =>
      if a.candidate ∧ s.lock = none then
        { s with lock := some (.candidate t) }.put t { a with phase := .recheck env.code }
      else s.put t { a with phase := .recheck env.code }
    | .failed => s.put t { a with phase := .recheck env.code }
  | .recheck code =>
    match env.reply with
    | .ok =>
      if a.candidate ∧ s.nlink (.candidate t) = 2 then s.put t { a with phase := .settled .acquired }
      else if a.candidate = false ∧ a.retryOnSweptCandidate then
        (s.put t { a with phase := .retried }).openAttempt a.pid env.identity false
      else if code = .eexist then s.put t { a with phase := .capture }
      else s.put t { a with phase := .threw }
    | _ => s.put t { a with phase := .threw }
  | .capture =>
    match env.reply, s.lock with
    | .ok, none => s.put t { a with phase := .settled .reclaimed }
    | .ok, some f =>
      if (s.identityOf f).ino = 0 then s.put t { a with phase := .settled .held }
      else s.put t { a with phase := .pin ⟨f, s.identityOf f, s.isDir f⟩ }
    | _, _ => s.put t { a with phase := .settled .held }
  | .pin captured =>
    match env.reply, s.lock with
    | .ok, some f =>
      if s.identityOf f = captured.identity then s.put t { a with phase := .read captured, pinned := some f }
      else s.put t { a with phase := .settled .held }
    | _, _ => s.put t { a with phase := .read captured }
  | .read captured =>
    match env.reply, s.readOwnerRaw captured.isDir with
    | .ok, some judged => s.put t { a with phase := .judge captured judged }
    | _, _ => s.put t { a with phase := .settled .held, pinned := none }
  | .judge captured judged =>
    if s.ownerAlive env (strictPid judged) then
      s.put t { a with phase := .settled .held, pinned := none }
    else s.put t { a with phase := .rename captured }
  | .rename captured =>
    let failed (s : State) (a : Attempt) : State :=
      if env.code = .enoent then s.put t { a with phase := .settled .reclaimed, pinned := none }
      else s.put t { a with phase := .renameFailed captured }
    match env.reply, s.lock with
    | .ok, none => s.put t { a with phase := .settled .reclaimed, pinned := none }
    | .ok, some f => { s with lock := none }.put t { a with aside := some f, phase := .verify captured }
    | .lost, some f => failed { s with lock := none } { a with aside := some f }
    | _, _ => failed s a
  | .renameFailed captured =>
    match env.reply, s.lock with
    | .ok, some _ => s.put t { a with phase := .threw, pinned := none }
    | _, _ => s.put t { a with phase := .verify captured }
  | .verify captured =>
    match env.reply, a.aside with
    | .ok, some f =>
      if s.identityOf f = captured.identity then s.put t { a with phase := .remove }
      else s.put t { a with phase := .restore (s.isDir f) }
    | _, _ => s.put t { a with phase := .restore false }
  | .remove =>
    match env.reply with
    | .ok => s.put t { a with aside := none, phase := .settled .reclaimed, pinned := none }
    | .lost => s.put t { a with aside := none, phase := .threw, pinned := none }
    | .failed => s.put t { a with phase := .threw, pinned := none }
  | .restore true =>
    match env.reply, a.aside, s.lock with
    | .failed, _, _ => s.put t { a with phase := .settled .held, pinned := none }
    | _, some f, none =>
      { s with lock := some f }.put t { a with aside := none, phase := .settled .held, pinned := none }
    | _, _, _ => s.put t { a with phase := .settled .held, pinned := none }
  | .restore false =>
    match env.reply, a.aside, s.lock with
    | .ok, some f, none =>
      if s.isDir f then s.put t { a with phase := .settled .held, pinned := none }
      else { s with lock := some f }.put t { a with phase := .unlink }
    | .lost, some f, none =>
      if s.isDir f then s.put t { a with phase := .settled .held, pinned := none }
      else { s with lock := some f }.put t { a with phase := .settled .held, pinned := none }
    | _, _, _ => s.put t { a with phase := .settled .held, pinned := none }
  | .unlink =>
    match env.reply with
    | .failed => s.put t { a with phase := .settled .held, pinned := none }
    | _ => s.put t { a with aside := none, phase := .settled .held, pinned := none }
  | .settled _ | .retried | .threw | .released | .crashed => s

def crash (s : State) (pid : Nat) : State :=
  { s with
    alive := fun p => p != pid && s.alive p
    attempts := s.attempts.map fun a => if a.pid = pid then { a with pinned := none, phase := .crashed } else a }

def step (s : State) : Action → Option State
  | .spawn pid => some { s with alive := fun p => p == pid || s.alive p }
  | .crash pid => some (s.crash pid)
  | .tryAcquire pid identity =>
    if 0 < pid ∧ s.alive pid ∧ s.inUse identity = false then some (s.openAttempt pid identity true) else none
  | .call t env =>
    match s.attempts[t]? with
    | none => none
    | some a => if s.inUse env.identity then none else some (s.next t a env)
  | .removeCandidate t =>
    match s.attempts[t]? with
    | none => none
    | some a => some (s.put t { a with candidate := false })
  | .release t reply =>
    match s.attempts[t]? with
    | none => none
    | some a =>
      if a.phase = .settled .acquired then
        match reply with
        | .failed => some (s.put t { a with phase := .released })
        | _ => some ({ s with lock := none }.put t { a with phase := .released })
      else none

/-- Nobody holds the lock yet. -/
def new (found : Option Found) (alive : Nat → Bool) : State :=
  { found := found.getD ⟨⟨0, 0⟩, false, none⟩, lock := found.map fun _ => .found, attempts := [], alive }

def run : State → List Action → Option State
  | s, [] => some s
  | s, act :: rest =>
    match s.step act with
    | none => none
    | some s' => s'.run rest

/-- `t` has been told that it acquired the lock, and has neither released it nor crashed. -/
def Holds (s : State) (t : Nat) : Prop :=
  ∃ a, s.attempts[t]? = some a ∧ a.phase = .settled .acquired

/-- A live process holds the lock that this file is, or is about to learn that it does. -/
def claimed (s : State) : File → Bool
  | .found => false
  | .candidate k => (s.attempts[k]?).any claims

/-- A process that moves the lock path aside moves the file it has captured, or one that is not claimed. -/
def movesJudged (s : State) : Action → Bool
  | .call t _ =>
    match s.attempts[t]?.map phase, s.lock with
    | some (.rename captured), some f => f == captured.file || !s.claimed f
    | _, _ => true
  | _ => true

def movesJudgedAll : State → List Action → Bool
  | _, [] => true
  | s, act :: rest => s.movesJudged act && (s.step act).all fun s' => s'.movesJudgedAll rest

/-! ## Whose lock a file is -/

/-- `f` is published, and its writer does not claim it. -/
def Stale (s : State) (f : File) : Prop :=
  ∀ k, f = .candidate k → ∃ a, s.attempts[k]? = some a ∧ a.phase ≠ .link ∧ a.claims = false

/-- `f` is published, and lies at the lock path if its writer claims it. -/
def Placed (s : State) (f : File) : Prop :=
  ∀ k, f = .candidate k → ∃ a, s.attempts[k]? = some a ∧ a.phase ≠ .link ∧ (a.claims = true → s.lock = some f)

/-- What an attempt knows of the file it has captured. -/
def Judged (s : State) : Phase → Prop
  | .pin captured | .read captured => s.Placed captured.file
  | .judge captured judged =>
    s.Placed captured.file ∧ (judged = s.content captured.file ∨ s.Stale captured.file)
  | .rename captured => s.Stale captured.file
  | _ => True

structure Inv (s : State) : Prop where
  lock : ∀ f, s.lock = some f → s.Placed f
  aside : ∀ (k : Nat) a f, s.attempts[k]? = some a → a.aside = some f → s.Stale f
  acquired : ∀ (k : Nat) a, s.attempts[k]? = some a → a.phase = .settled .acquired → s.lock = some (.candidate k)
  alive : ∀ (k : Nat) a, s.attempts[k]? = some a → a.phase ≠ .crashed → 0 < a.pid ∧ s.alive a.pid = true
  judged : ∀ (k : Nat) a, s.attempts[k]? = some a → s.Judged a.phase

/-- Attempts go on: they keep their pid and do not come back to a lock they have given up. -/
def Later (s s' : State) : Prop :=
  ∀ (k : Nat) a, s.attempts[k]? = some a → ∃ a', s'.attempts[k]? = some a' ∧ a'.pid = a.pid ∧
    (a.phase ≠ .link → a'.phase ≠ .link ∧ (a'.claims = true → a.claims = true))

/-- No claimed lock leaves the lock path. -/
def KeepsClaimed (s s' : State) : Prop :=
  ∀ (k : Nat) a', s'.attempts[k]? = some a' → a'.claims = true → s.lock = some (.candidate k) →
    s'.lock = some (.candidate k)

section Later

variable {s s' : State} {f : File}

theorem Stale.placed (h : s.Stale f) : s.Placed f := by
  intro k hk
  obtain ⟨a, ha, hlink, hclaims⟩ := h k hk
  exact ⟨a, ha, hlink, fun hc => by rw [hclaims] at hc; cases hc⟩

theorem Stale.later (h : s.Stale f) (hs : s.Later s') : s'.Stale f := by
  intro k hk
  obtain ⟨a, ha, hlink, hclaims⟩ := h k hk
  obtain ⟨a', ha', -, hphase⟩ := hs k a ha
  obtain ⟨hlink', hc⟩ := hphase hlink
  refine ⟨a', ha', hlink', ?_⟩
  rw [Bool.eq_false_iff]
  intro hclaims'
  rw [hc hclaims'] at hclaims
  cases hclaims

theorem Placed.later (h : s.Placed f) (hs : s.Later s') (hlock : s.KeepsClaimed s') : s'.Placed f := by
  rintro k rfl
  obtain ⟨a, ha, hlink, hclaims⟩ := h k rfl
  obtain ⟨a', ha', -, hphase⟩ := hs k a ha
  obtain ⟨hlink', hc⟩ := hphase hlink
  exact ⟨a', ha', hlink', fun hclaims' => hlock k a' ha' hclaims' (hclaims (hc hclaims'))⟩

theorem Placed.content_eq (h : s.Placed f) (hs : s.Later s') (hfound : s'.found = s.found) :
    s'.content f = s.content f := by
  cases f with
  | found => rw [content, content, hfound]
  | candidate k =>
    obtain ⟨a, ha, -, -⟩ := h k rfl
    obtain ⟨a', ha', hpid, -⟩ := hs k a ha
    rw [content, content, ha, ha', map_some, map_some, hpid]

theorem Judged.later {p : Phase} (h : s.Judged p) (hs : s.Later s') (hlock : s.KeepsClaimed s')
    (hfound : s'.found = s.found) : s'.Judged p := by
  cases p with
  | pin | read => exact Placed.later h hs hlock
  | judge captured judged =>
    obtain ⟨hplaced, hjudged⟩ := h
    refine ⟨hplaced.later hs hlock, ?_⟩
    rw [hplaced.content_eq hs hfound]
    exact hjudged.imp_right fun hstale => hstale.later hs
  | rename captured => exact Stale.later h hs
  | _ => trivial

/-- A claimed file that is published is at the lock path, so a file that is not there is stale. -/
theorem Placed.stale (h : s.Placed f) (hlock : s.lock ≠ some f) : s.Stale f := by
  intro k hk
  obtain ⟨a, ha, hlink, hclaims⟩ := h k hk
  refine ⟨a, ha, hlink, ?_⟩
  rw [Bool.eq_false_iff]
  intro hc
  exact hlock (hclaims hc)

end Later

/-! ## One call -/

section Call

variable {s s' : State} {t : Nat} {a a' : Attempt} {env : Environment}

theorem claims_of_acquired (h : a.phase = .settled .acquired) : a.claims = true := by
  rw [claims, h]

theorem getElem?_put (lock : Option File) (a' : Attempt) (ha : s.attempts[t]? = some a) (k : Nat) :
    ({ s with lock }.put t a').attempts[k]? = if k = t then some a' else s.attempts[k]? := by
  have ht := (List.getElem?_eq_some_iff.1 ha).1
  simp only [put, List.getElem?_set, ht, if_true, eq_comm]

/-- An attempt moves, and the lock path with it: a file is put there that is its own or stale, and one is
taken that is stale or was its own. -/
theorem Inv.move (lock : Option File) (h : s.Inv) (ha : s.attempts[t]? = some a) (hpid : a'.pid = a.pid)
    (hcrashed : a.phase = .crashed → a'.phase = .crashed) (hlink : a'.phase = .link → a.phase = .link)
    (hclaims : a'.claims = true → a.phase = .link ∨ a.claims = true)
    (hput : ∀ f, lock = some f → s.lock = some f ∨ s.Stale f ∨ f = .candidate t ∧ a'.phase ≠ .link)
    (htake : ∀ f, s.lock = some f → lock = some f ∨ s.Stale f ∨ f = .candidate t ∧ a'.claims = false)
    (hacquired : a'.phase = .settled .acquired → lock = some (.candidate t))
    (haside : ∀ f, a'.aside = some f → a.aside = some f ∨ s.Stale f) (hjudged : s.Judged a'.phase) :
    ({ s with lock }.put t a').Inv := by
  have hget := getElem?_put lock a' ha
  have hlock : ({ s with lock }.put t a').lock = lock := rfl
  have hfound : ({ s with lock }.put t a').found = s.found := rfl
  have halive : ({ s with lock }.put t a').alive = s.alive := rfl
  generalize { s with lock }.put t a' = s' at hget hlock hfound halive
  have hlater : s.Later s' := by
    intro k b hb
    rw [hget]
    by_cases hk : k = t
    · rw [if_pos hk]
      rw [hk, ha] at hb
      cases hb
      exact ⟨a', rfl, hpid, fun hne => ⟨fun h' => hne (hlink h'), fun hc => (hclaims hc).resolve_left hne⟩⟩
    · rw [if_neg hk]
      exact ⟨b, hb, rfl, fun hne => ⟨hne, id⟩⟩
  have hkeeps : s.KeepsClaimed s' := by
    intro k b hb hc hk
    rw [hlock]
    obtain hsame | hstale | ⟨hown, hfree⟩ := htake _ hk
    · exact hsame
    · obtain ⟨b', hb', -, hfree⟩ := hstale.later hlater k rfl
      rw [hb] at hb'
      cases hb'
      rw [hc] at hfree
      cases hfree
    · cases hown
      rw [hget, if_pos rfl] at hb
      cases hb
      rw [hc] at hfree
      cases hfree
  refine ⟨?_, ?_, ?_, ?_, ?_⟩
  · intro f hf
    rw [hlock] at hf
    obtain hsame | hstale | ⟨rfl, hne⟩ := hput f hf
    · exact (h.lock f hsame).later hlater hkeeps
    · exact (hstale.later hlater).placed
    · intro k hk
      cases hk
      exact ⟨a', by rw [hget, if_pos rfl], hne, fun _ => by rw [hlock, hf]⟩
  · intro k b f hb hf
    rw [hget] at hb
    split at hb
    · cases hb
      exact ((haside f hf).elim (h.aside t a f ha) id).later hlater
    · exact (h.aside k b f hb hf).later hlater
  · intro k b hb hphase
    rw [hlock]
    rw [hget] at hb
    split at hb
    · rename_i hk
      cases hb
      rw [hk]
      exact hacquired hphase
    · rename_i hk
      rw [← hlock]
      exact hkeeps k b (by rw [hget, if_neg hk, hb]) (claims_of_acquired hphase) (h.acquired k b hb hphase)
  · intro k b hb hphase
    rw [halive]
    rw [hget] at hb
    split at hb
    · cases hb
      rw [hpid]
      exact h.alive t a ha fun hc => hphase (hcrashed hc)
    · exact h.alive k b hb hphase
  · intro k b hb
    rw [hget] at hb
    split at hb
    · cases hb
      exact hjudged.later hlater hkeeps hfound
    · exact (h.judged k b hb).later hlater hkeeps hfound

/-- An attempt moves without a claim, and leaves the lock path alone. -/
theorem Inv.moveOn (h : s.Inv) (ha : s.attempts[t]? = some a) (hcrashed : a.phase ≠ .crashed)
    (hpid : a'.pid = a.pid) (hlink : a'.phase ≠ .link) (hclaims : a'.claims = false)
    (haside : a'.aside = a.aside ∨ a'.aside = none) (hjudged : s.Judged a'.phase) : (s.put t a').Inv := by
  refine h.move s.lock ha hpid (fun hc => absurd hc hcrashed) (fun hl => absurd hl hlink) ?_
    (fun f hf => .inl hf) (fun f hf => .inl hf) ?_ ?_ hjudged
  · intro hc
    rw [hclaims] at hc
    cases hc
  · intro hacquired
    rw [claims_of_acquired hacquired] at hclaims
    cases hclaims
  · intro f hf
    obtain hsame | hnone := haside
    · exact .inl (hsame ▸ hf)
    · rw [hnone] at hf
      cases hf

/-- A link that lands: nothing was at the lock path, and the file was published nowhere. -/
theorem Inv.landing (h : s.Inv) (ha : s.attempts[t]? = some a) (hphase : a.phase = .link)
    (hfree : s.lock = none) (hpid : a'.pid = a.pid) (hlink : a'.phase ≠ .link) (haside : a'.aside = a.aside)
    (hjudged : s.Judged a'.phase) : ({ s with lock := some (.candidate t) }.put t a').Inv := by
  refine h.move _ ha hpid ?_ (fun hl => absurd hl hlink) (fun _ => .inl hphase) ?_ ?_ (fun _ => rfl) ?_ hjudged
  · intro hc
    rw [hphase] at hc
    cases hc
  · intro f hf
    cases hf
    exact .inr (.inr ⟨rfl, hlink⟩)
  · intro f hf
    rw [hfree] at hf
    cases hf
  · intro f hf
    exact .inl (haside ▸ hf)

theorem Inv.lock_of_nlink (h : s.Inv) (ha : s.attempts[t]? = some a) (hclaims : a.claims = true)
    (hcandidate : a.candidate = true) (hnlink : s.nlink (.candidate t) = 2) : s.lock = some (.candidate t) := by
  have haside : s.attempts.countP (fun b => b.aside == some (.candidate t)) = 0 := by
    rw [List.countP_eq_zero]
    intro b hb hbeq
    obtain ⟨k, hk⟩ := List.getElem?_of_mem hb
    obtain ⟨a', ha', -, hfree⟩ := h.aside k b _ hk (by simpa using hbeq) t rfl
    rw [ha] at ha'
    cases ha'
    rw [hclaims] at hfree
    cases hfree
  rw [nlink, haside, ha] at hnlink
  simp only [any_some, hcandidate, if_true] at hnlink
  by_contra hne
  rw [if_neg hne] at hnlink
  omega

theorem strictPid_ownerText {pid : Nat} (h : 0 < pid) : strictPid (some (ownerText pid)) = some pid := by
  obtain ⟨-, hall⟩ := Json.all_isDigit_natDigits (Nat.lt_succ_self pid)
  have htrim : Text.trimChars (ownerText pid) = Json.natDigits (pid + 1) pid := by
    refine Text.trimChars_append (fun c hc => ?_) (fun c hc => ?_)
    · exact Text.isSpace_of_isDigit (List.all_eq_true.1 hall c hc)
    · cases List.mem_singleton.1 hc
      rfl
  rw [strictPid]
  simp only [htrim, Json.readNat_natDigits (Nat.lt_succ_self pid), h, if_true]

/-- A text that was read at the lock path is that of the captured file, or the captured file is gone. -/
theorem Placed.read {captured : Captured} (hplaced : s.Placed captured.file) {legacyDir : Bool}
    {judged : Option (List Char)} (hread : s.readOwnerRaw legacyDir = some judged) :
    s.Judged (.judge captured judged) := by
  refine ⟨hplaced, ?_⟩
  by_cases hlock : s.lock = some captured.file
  · left
    rw [readOwnerRaw, hlock] at hread
    simp only at hread
    split at hread
    · exact (Option.some.inj hread).symm
    · cases hread
  · exact .inr (hplaced.stale hlock)

/-- A lock that names no live process is claimed by none. -/
theorem Inv.judge (h : s.Inv) {captured : Captured} {judged : Option (List Char)}
    (hjudged : s.Judged (.judge captured judged))
    (hdead : ∀ pid, strictPid judged = some pid → s.alive pid = false) : s.Stale captured.file := by
  obtain ⟨hplaced, hjudged⟩ := hjudged
  obtain hcontent | hstale := hjudged
  · intro k hk
    obtain ⟨b, hb, hlink, hclaims⟩ := hplaced k hk
    refine ⟨b, hb, hlink, ?_⟩
    rw [Bool.eq_false_iff]
    intro hc
    have hne : b.phase ≠ .crashed := by
      intro hcrashed
      rw [claims, hcrashed] at hc
      cases hc
    obtain ⟨hpos, halive⟩ := h.alive k b hb hne
    rw [hk, content, hb, map_some] at hcontent
    have hfalse := hdead b.pid (by rw [hcontent, strictPid_ownerText hpos])
    rw [halive] at hfalse
    cases hfalse
  · exact hstale

theorem Inv.movedAside (h : s.Inv) (ha : s.attempts[t]? = some a) (hcrashed : a.phase ≠ .crashed) {f : File}
    (hlock : s.lock = some f) (hstale : s.Stale f) (hpid : a'.pid = a.pid) (hlink : a'.phase ≠ .link)
    (hclaims : a'.claims = false) (haside : a'.aside = some f) (hjudged : s.Judged a'.phase) :
    ({ s with lock := none }.put t a').Inv := by
  refine h.move _ ha hpid (fun hc => absurd hc hcrashed) (fun hl => absurd hl hlink) ?_ ?_ ?_ ?_ ?_ hjudged
  · intro hc
    rw [hclaims] at hc
    cases hc
  · intro f' hf'
    cases hf'
  · intro f' hf'
    rw [hlock] at hf'
    cases hf'
    exact .inr (.inl hstale)
  · intro hacquired
    rw [claims_of_acquired hacquired] at hclaims
    cases hclaims
  · intro f' hf'
    rw [haside] at hf'
    cases hf'
    exact .inr hstale

theorem Inv.restored (h : s.Inv) (ha : s.attempts[t]? = some a) (hcrashed : a.phase ≠ .crashed) {f : File}
    (hfrom : a.aside = some f) (hfree : s.lock = none) (hpid : a'.pid = a.pid) (hlink : a'.phase ≠ .link)
    (hclaims : a'.claims = false) (haside : a'.aside = a.aside ∨ a'.aside = none) (hjudged : s.Judged a'.phase) :
    ({ s with lock := some f }.put t a').Inv := by
  refine h.move _ ha hpid (fun hc => absurd hc hcrashed) (fun hl => absurd hl hlink) ?_ ?_ ?_ ?_ ?_ hjudged
  · intro hc
    rw [hclaims] at hc
    cases hc
  · intro f' hf'
    cases hf'
    exact .inr (.inl (h.aside t a _ ha hfrom))
  · intro f' hf'
    rw [hfree] at hf'
    cases hf'
  · intro hacquired
    rw [claims_of_acquired hacquired] at hclaims
    cases hclaims
  · intro f' hf'
    obtain hsame | hnone := haside
    · exact .inl (hsame ▸ hf')
    · rw [hnone] at hf'
      cases hf'

theorem Inv.openAttempt (h : s.Inv) {pid : Nat} {identity : Identity} {retry : Bool}
    (hpid : 0 < pid ∧ s.alive pid = true) : (s.openAttempt pid identity retry).Inv := by
  have hold : ∀ (k : Nat) b, s.attempts[k]? = some b →
      (s.openAttempt pid identity retry).attempts[k]? = some b := by
    intro k b hb
    exact (List.getElem?_append_left (List.getElem?_eq_some_iff.1 hb).1).trans hb
  have hsplit : ∀ (k : Nat) b, (s.openAttempt pid identity retry).attempts[k]? = some b →
      s.attempts[k]? = some b ∨ b.pid = pid ∧ b.aside = none ∧ b.phase = .link := by
    intro k b hb
    by_cases hk : k < s.attempts.length
    · left
      exact (List.getElem?_append_left hk).symm.trans hb
    · right
      have hb' := (List.getElem?_append_right (Nat.le_of_not_lt hk)).symm.trans hb
      obtain ⟨hlt, rfl⟩ := List.getElem?_eq_some_iff.1 hb'
      simp
  have hlater : s.Later (s.openAttempt pid identity retry) := fun k b hb => ⟨b, hold k b hb, rfl, fun hne => ⟨hne, id⟩⟩
  have hkeeps : s.KeepsClaimed (s.openAttempt pid identity retry) := fun _ _ _ _ hk => hk
  refine ⟨?_, ?_, ?_, ?_, ?_⟩
  · intro f hf
    exact (h.lock f hf).later hlater hkeeps
  · intro k b f hb hf
    obtain hb | ⟨-, hnone, -⟩ := hsplit k b hb
    · exact (h.aside k b f hb hf).later hlater
    · rw [hnone] at hf
      cases hf
  · intro k b hb hphase
    obtain hb | ⟨-, -, hlink⟩ := hsplit k b hb
    · exact h.acquired k b hb hphase
    · rw [hlink] at hphase
      cases hphase
  · intro k b hb hphase
    obtain hb | ⟨hpid', -, -⟩ := hsplit k b hb
    · exact h.alive k b hb hphase
    · rw [hpid']
      exact hpid
  · intro k b hb
    obtain hb | ⟨-, -, hlink⟩ := hsplit k b hb
    · exact (h.judged k b hb).later hlater hkeeps rfl
    · rw [hlink]
      trivial

/-- A call keeps the invariant, if a rename moves what it should. -/
theorem Inv.next (h : s.Inv) (ha : s.attempts[t]? = some a) (hmoves : s.movesJudged (.call t env) = true) :
    (s.next t a env).Inv := by
  have hjudged := h.judged t a ha
  cases hphase : a.phase with
  | link =>
    have hcrashed : a.phase ≠ .crashed := by rw [hphase]; nofun
    have hrecheck : ∀ code, (s.put t { a with phase := .recheck code }).Inv := by
      intro code
      exact h.move s.lock ha rfl (fun hc => absurd hc hcrashed) nofun (fun _ => .inl hphase)
        (fun f hf => .inl hf) (fun f hf => .inl hf) nofun (fun f hf => .inl hf) trivial
    simp only [State.next, hphase]
    split
    · split
      · exact hrecheck _
      · split
        · rename_i hfree
          exact h.landing ha hphase hfree rfl nofun rfl trivial
        · exact hrecheck _
    · split
      · rename_i hfree
        exact h.landing ha hphase hfree.2 rfl nofun rfl trivial
      · exact hrecheck _
    · exact hrecheck _
  | recheck code =>
    have hcrashed : a.phase ≠ .crashed := by rw [hphase]; nofun
    have hclaims : a.claims = true := by rw [claims, hphase]
    simp only [State.next, hphase]
    split
    · split
      · rename_i hpublished
        have hlock := h.lock_of_nlink ha hclaims hpublished.1 hpublished.2
        exact h.move s.lock ha rfl (fun hc => absurd hc hcrashed) nofun (fun _ => .inr hclaims)
          (fun f hf => .inl hf) (fun f hf => .inl hf) (fun _ => hlock) (fun f hf => .inl hf) trivial
      · split
        · have hretried : (s.put t { a with phase := .retried }).Inv :=
            h.moveOn ha hcrashed rfl nofun rfl (.inl rfl) trivial
          exact hretried.openAttempt (h.alive t a ha hcrashed)
        · split
          · exact h.moveOn ha hcrashed rfl nofun rfl (.inl rfl) trivial
          · exact h.moveOn ha hcrashed rfl nofun rfl (.inl rfl) trivial
    · exact h.moveOn ha hcrashed rfl nofun rfl (.inl rfl) trivial
  | capture =>
    have hcrashed : a.phase ≠ .crashed := by rw [hphase]; nofun
    simp only [State.next, hphase]
    split
    · exact h.moveOn ha hcrashed rfl nofun rfl (.inl rfl) trivial
    · rename_i f _ hlock
      split
      · exact h.moveOn ha hcrashed rfl nofun rfl (.inl rfl) trivial
      · exact h.moveOn ha hcrashed rfl nofun rfl (.inl rfl) (h.lock f hlock)
    · exact h.moveOn ha hcrashed rfl nofun rfl (.inl rfl) trivial
  | pin captured =>
    have hcrashed : a.phase ≠ .crashed := by rw [hphase]; nofun
    rw [hphase] at hjudged
    simp only [State.next, hphase]
    split
    · split
      · exact h.moveOn ha hcrashed rfl nofun rfl (.inl rfl) hjudged
      · exact h.moveOn ha hcrashed rfl nofun rfl (.inl rfl) trivial
    · exact h.moveOn ha hcrashed rfl nofun rfl (.inl rfl) hjudged
  | read captured =>
    have hcrashed : a.phase ≠ .crashed := by rw [hphase]; nofun
    rw [hphase] at hjudged
    simp only [State.next, hphase]
    split
    · rename_i judged _ hread
      exact h.moveOn ha hcrashed rfl nofun rfl (.inl rfl) (Placed.read hjudged hread)
    · exact h.moveOn ha hcrashed rfl nofun rfl (.inl rfl) trivial
  | judge captured judged =>
    have hcrashed : a.phase ≠ .crashed := by rw [hphase]; nofun
    rw [hphase] at hjudged
    simp only [State.next, hphase]
    split
    · exact h.moveOn ha hcrashed rfl nofun rfl (.inl rfl) trivial
    · rename_i hdead
      refine h.moveOn ha hcrashed rfl nofun rfl (.inl rfl) (h.judge hjudged fun pid hpid => ?_)
      rw [hpid] at hdead
      exact Bool.eq_false_iff.2 hdead
  | rename captured =>
    have hcrashed : a.phase ≠ .crashed := by rw [hphase]; nofun
    rw [hphase] at hjudged
    have hstale : ∀ f, s.lock = some f → s.Stale f := by
      intro f hf k hk
      rw [movesJudged, ha, map_some, hphase, hf] at hmoves
      obtain hsame | hfree := Bool.or_eq_true_iff.1 hmoves
      · rw [beq_iff_eq] at hsame
        exact hjudged k (hsame ▸ hk)
      · obtain ⟨b, hb, hlink, -⟩ := h.lock f hf k hk
        rw [hk, claimed, hb, any_some, Bool.not_eq_true'] at hfree
        exact ⟨b, hb, hlink, hfree⟩
    simp only [State.next, hphase]
    split
    · exact h.moveOn ha hcrashed rfl nofun rfl (.inl rfl) trivial
    · rename_i f _ hlock
      exact h.movedAside ha hcrashed hlock (hstale f hlock) rfl nofun rfl rfl trivial
    · rename_i f _ hlock
      split
      · exact h.movedAside ha hcrashed hlock (hstale f hlock) rfl nofun rfl rfl trivial
      · exact h.movedAside ha hcrashed hlock (hstale f hlock) rfl nofun rfl rfl trivial
    · split
      · exact h.moveOn ha hcrashed rfl nofun rfl (.inl rfl) trivial
      · exact h.moveOn ha hcrashed rfl nofun rfl (.inl rfl) trivial
  | renameFailed captured =>
    have hcrashed : a.phase ≠ .crashed := by rw [hphase]; nofun
    simp only [State.next, hphase]
    split
    · exact h.moveOn ha hcrashed rfl nofun rfl (.inl rfl) trivial
    · exact h.moveOn ha hcrashed rfl nofun rfl (.inl rfl) trivial
  | verify captured =>
    have hcrashed : a.phase ≠ .crashed := by rw [hphase]; nofun
    simp only [State.next, hphase]
    split
    · split
      · exact h.moveOn ha hcrashed rfl nofun rfl (.inl rfl) trivial
      · exact h.moveOn ha hcrashed rfl nofun rfl (.inl rfl) trivial
    · exact h.moveOn ha hcrashed rfl nofun rfl (.inl rfl) trivial
  | remove =>
    have hcrashed : a.phase ≠ .crashed := by rw [hphase]; nofun
    simp only [State.next, hphase]
    split
    · exact h.moveOn ha hcrashed rfl nofun rfl (.inr rfl) trivial
    · exact h.moveOn ha hcrashed rfl nofun rfl (.inr rfl) trivial
    · exact h.moveOn ha hcrashed rfl nofun rfl (.inl rfl) trivial
  | restore isDir =>
    have hcrashed : a.phase ≠ .crashed := by rw [hphase]; nofun
    have hheld : (s.put t { a with phase := .settled .held, pinned := none }).Inv :=
      h.moveOn ha hcrashed rfl nofun rfl (.inl rfl) trivial
    cases isDir with
    | true =>
      simp only [State.next, hphase]
      split
      · exact hheld
      · rename_i f hfrom hfree _
        exact h.restored ha hcrashed hfrom hfree rfl nofun rfl (.inr rfl) trivial
      · exact hheld
    | false =>
      simp only [State.next, hphase]
      split
      · rename_i f hfrom hfree
        split
        · exact hheld
        · exact h.restored ha hcrashed hfrom hfree rfl nofun rfl (.inl rfl) trivial
      · rename_i f hfrom hfree
        split
        · exact hheld
        · exact h.restored ha hcrashed hfrom hfree rfl nofun rfl (.inl rfl) trivial
      · exact hheld
  | unlink =>
    have hcrashed : a.phase ≠ .crashed := by rw [hphase]; nofun
    simp only [State.next, hphase]
    split
    · exact h.moveOn ha hcrashed rfl nofun rfl (.inl rfl) trivial
    · exact h.moveOn ha hcrashed rfl nofun rfl (.inr rfl) trivial
  | _ => simpa only [State.next, hphase] using h

end Call

/-! ## Runs -/

section Runs

variable {s s' : State} {act : Action}

theorem inv_new (found : Option Found) (alive : Nat → Bool) : (new found alive).Inv where
  lock f h := by
    obtain ⟨_, -, rfl⟩ := map_eq_some_iff.1 h
    intro k hk
    cases hk
  aside k a f h := by cases h
  acquired k a h := by cases h
  alive k a h := by cases h
  judged k a h := by cases h

theorem Inv.crash (h : s.Inv) (pid : Nat) : (s.crash pid).Inv := by
  have hget : ∀ (k : Nat) b', (s.crash pid).attempts[k]? = some b' → ∃ b, s.attempts[k]? = some b ∧
      b'.aside = b.aside ∧ b'.pid = b.pid ∧ (b'.phase = .crashed ∨ b'.phase = b.phase ∧ b.pid ≠ pid) := by
    intro k b' hb'
    obtain ⟨b, hb, rfl⟩ := map_eq_some_iff.1 ((List.getElem?_map).symm.trans hb')
    refine ⟨b, hb, ?_⟩
    split
    · exact ⟨rfl, rfl, .inl rfl⟩
    · rename_i hne
      exact ⟨rfl, rfl, .inr ⟨rfl, hne⟩⟩
  have hlater : s.Later (s.crash pid) := by
    intro k b hb
    refine ⟨_, (List.getElem?_map).trans (congrArg _ hb), ?_⟩
    dsimp only
    split
    · exact ⟨rfl, fun _ => ⟨nofun, nofun⟩⟩
    · exact ⟨rfl, fun hne => ⟨hne, id⟩⟩
  have hkeeps : s.KeepsClaimed (s.crash pid) := fun _ _ _ _ hk => hk
  refine ⟨?_, ?_, ?_, ?_, ?_⟩
  · intro f hf
    exact (h.lock f hf).later hlater hkeeps
  · intro k b' f hb' hf
    obtain ⟨b, hb, haside, -⟩ := hget k b' hb'
    exact (h.aside k b f hb (haside ▸ hf)).later hlater
  · intro k b' hb' hphase
    obtain ⟨b, hb, -, -, hcrashed | ⟨hsame, -⟩⟩ := hget k b' hb'
    · rw [hcrashed] at hphase
      cases hphase
    · exact h.acquired k b hb (hsame ▸ hphase)
  · intro k b' hb' hphase
    obtain ⟨b, hb, -, hpid, hcrashed | ⟨hsame, hne⟩⟩ := hget k b' hb'
    · exact absurd hcrashed hphase
    · obtain ⟨hpos, halive⟩ := h.alive k b hb (hsame ▸ hphase)
      rw [hpid]
      refine ⟨hpos, ?_⟩
      show (b.pid != pid && s.alive b.pid) = true
      rw [halive, Bool.and_true, bne_iff_ne]
      exact hne
  · intro k b' hb'
    obtain ⟨b, hb, -, -, hcrashed | ⟨hsame, -⟩⟩ := hget k b' hb'
    · rw [hcrashed]
      trivial
    · rw [hsame]
      exact (h.judged k b hb).later hlater hkeeps rfl

theorem Inv.spawn (h : s.Inv) (pid : Nat) : Inv { s with alive := fun p => p == pid || s.alive p } where
  lock := h.lock
  aside := h.aside
  acquired := h.acquired
  alive k a ha hphase := by
    obtain ⟨hpos, halive⟩ := h.alive k a ha hphase
    refine ⟨hpos, ?_⟩
    show (a.pid == pid || s.alive a.pid) = true
    rw [halive, Bool.or_true]
  judged := h.judged

theorem Inv.release (h : s.Inv) {t : Nat} {a : Attempt} (ha : s.attempts[t]? = some a)
    (hphase : a.phase = .settled .acquired) :
    ({ s with lock := none }.put t { a with phase := .released }).Inv := by
  refine h.move _ ha rfl ?_ nofun nofun nofun ?_ nofun (fun f hf => .inl hf) trivial
  · intro hc
    rw [hphase] at hc
    cases hc
  · intro f hf
    rw [h.acquired t a ha hphase] at hf
    cases hf
    exact .inr (.inr ⟨rfl, rfl⟩)

theorem Inv.step (h : s.Inv) (hmoves : s.movesJudged act = true) (hstep : s.step act = some s') : s'.Inv := by
  cases act with
  | spawn pid =>
    cases hstep
    exact h.spawn pid
  | crash pid =>
    cases hstep
    exact h.crash pid
  | tryAcquire pid identity =>
    rw [State.step] at hstep
    split at hstep
    · rename_i henabled
      cases hstep
      exact h.openAttempt ⟨henabled.1, henabled.2.1⟩
    · cases hstep
  | call t env =>
    rw [State.step] at hstep
    split at hstep
    · cases hstep
    · rename_i a ha
      split at hstep
      · cases hstep
      · cases hstep
        exact h.next ha hmoves
  | removeCandidate t =>
    rw [State.step] at hstep
    split at hstep
    · cases hstep
    · rename_i a ha
      cases hstep
      exact h.move s.lock ha rfl id id .inr (fun f hf => .inl hf) (fun f hf => .inl hf)
        (h.acquired t a ha) (fun f hf => .inl hf) (h.judged t a ha)
  | release t reply =>
    rw [State.step] at hstep
    split at hstep
    · cases hstep
    · rename_i a ha
      split at hstep
      · rename_i hphase
        split at hstep
        · cases hstep
          have hcrashed : a.phase ≠ .crashed := by rw [hphase]; nofun
          exact h.moveOn ha hcrashed rfl nofun rfl (.inl rfl) trivial
        · cases hstep
          exact h.release ha hphase
      · cases hstep

theorem inv_run {acts : List Action} (h : s.Inv) (hmoves : s.movesJudgedAll acts = true)
    (hrun : s.run acts = some s') : s'.Inv := by
  induction acts generalizing s with
  | nil =>
    cases hrun
    exact h
  | cons act rest ih =>
    rw [run] at hrun
    split at hrun
    · cases hrun
    · rename_i s₁ hstep
      rw [movesJudgedAll, Bool.and_eq_true, hstep, all_some] at hmoves
      exact ih (h.step hmoves.1 hstep) hmoves.2 hrun

theorem Inv.exclusive (h : s.Inv) {t u : Nat} (ht : s.Holds t) (hu : s.Holds u) : t = u := by
  obtain ⟨a, ha, hphase⟩ := ht
  obtain ⟨b, hb, hphase'⟩ := hu
  have hlock := h.acquired t a ha hphase
  rw [h.acquired u b hb hphase'] at hlock
  cases hlock
  rfl

end Runs

end State

/-- Among all attempts of all processes at most one holds the lock, if no process moves a claimed lock aside
other than the one it has judged. -/
theorem exclusive_of_run {found : Option Found} {alive : Nat → Bool} {acts : List Action} {s : State} {t u : Nat}
    (hmoves : (State.new found alive).movesJudgedAll acts = true)
    (hrun : (State.new found alive).run acts = some s) (ht : s.Holds t) (hu : s.Holds u) : t = u :=
  (State.inv_run (State.inv_new found alive) hmoves hrun).exclusive ht hu

/-- A lock file of a process that is gone. -/
def left : Found := ⟨⟨1, 1⟩, false, some (ownerText 999)⟩

def three (pid : Nat) : Bool := pid == 1 || pid == 2 || pid == 3

/-- An attempt finds the lock path taken, and goes on until it is about to rename it. -/
def judges (t : Nat) : List Action := List.replicate 6 (.call t {})

/-- A stale lock is reclaimed, and the next attempt acquires. -/
def reclaims : List Action :=
  Action.tryAcquire 1 ⟨1, 2⟩ :: judges 0 ++ [Action.call 0 {}, .call 0 {}, .call 0 {}, .tryAcquire 1 ⟨1, 3⟩, .call 1 {}]

theorem exclusive_of_run_reclaims : ∃ s, (State.new (some left) three).run reclaims = some s ∧ s.Holds 1 ∧
    ∀ u, s.Holds u → 1 = u := by
  have hmoves : (State.new (some left) three).movesJudgedAll reclaims = true := by decide
  exact ⟨_, rfl, ⟨_, rfl, rfl⟩, fun u hu =>
    @exclusive_of_run (some left) three reclaims _ 1 u hmoves rfl ⟨_, rfl, rfl⟩ hu⟩

/-- Two processes judge one stale lock. The first reclaims it and acquires; the second moves the new lock
aside, and while it lies there a third acquires. -/
theorem two_hold : ∃ s, (State.new (some left) three).run
      (.tryAcquire 1 ⟨1, 2⟩ :: .tryAcquire 2 ⟨1, 3⟩ :: judges 0 ++ judges 1 ++
        [.call 0 {}, .call 0 {}, .call 0 {}, .tryAcquire 1 ⟨1, 4⟩, .call 2 {}, .call 1 {},
          .tryAcquire 3 ⟨1, 5⟩, .call 3 {}]) = some s ∧
    s.Holds 2 ∧ s.Holds 3 ∧ s.attempts.map pid = [1, 2, 1, 3] ∧ s.alive 1 = true ∧ s.alive 3 = true :=
  ⟨_, rfl, ⟨_, rfl, rfl⟩, ⟨_, rfl, rfl⟩, rfl, rfl, rfl⟩

end DirLock
end Utils
end RePrime
