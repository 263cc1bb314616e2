import RePrime.Lib.OrderedMap

/-!
# RePrime.Daemon.SupervisorOwnership

The registry in which a daemon supervisor owns its socket and its descriptor directory, and the shutdown
admission beside it.

Every change is made in a section under the registry guard. A section is a sequence of file steps, and a
process may crash before any of them; `State.step` is one such step, or something outside of the guard.
-/

namespace RePrime
namespace Daemon
namespace SupervisorOwnership

/-! ## Records -/

structure ProcessIdentity where
  pid : Nat
  processStartId : Option String
  deriving DecidableEq

inductive DaemonSupervisorOwnerPhase where
  | starting
  | owner
  | stopping
  deriving DecidableEq

structure DaemonSupervisorOwnerScope where
  token : Nat
  generation : String
  socketPath : String
  descriptorDir : String
  deriving DecidableEq

structure DaemonSupervisorOwnerRecord where
  scope : DaemonSupervisorOwnerScope
  identity : ProcessIdentity
  phase : DaemonSupervisorOwnerPhase
  deriving DecidableEq

structure DaemonShutdownAdmissionRecord where
  token : Nat
  identity : ProcessIdentity
  expiresAt : Int
  deriving DecidableEq

/-- `SHUTDOWN_ADMISSION_LEASE_MS` -/
def SHUTDOWN_ADMISSION_LEASE_MS : Int := 5000

def ownerConflicts (left right : DaemonSupervisorOwnerScope) : Bool :=
  left.socketPath == right.socketPath || left.descriptorDir == right.descriptorDir

theorem ownerConflicts_comm (left right : DaemonSupervisorOwnerScope) :
    ownerConflicts left right = ownerConflicts right left := by
  simp only [ownerConflicts, Bool.beq_comm]

/-- `<generation>.owner`: what `owner.json` and `scope.json` say, when they are valid, and whether one of
them is there. -/
structure OwnerDirectory where
  owner : Option DaemonSupervisorOwnerRecord
  scope : Option DaemonSupervisorOwnerScope
  hasFiles : Bool
  deriving DecidableEq

/-- `shutdown-admission.json` -/
inductive AdmissionFile where
  | absent
  | invalid
  | record (admission : DaemonShutdownAdmissionRecord)
  deriving DecidableEq

/-- What the outside world answers during a step. -/
structure Env where
  now : Int
  ownerReadable : Bool
  scopeReadable : Bool
  entriesReadable : Bool
  startIdKnown : Bool
  deriving DecidableEq

/-! ## Processes and what they hold -/

structure Process where
  pid : Nat
  startId : String
  alive : Bool
  deriving DecidableEq

/-- A `DaemonSupervisorOwnership`. -/
structure Ownership where
  process : Nat
  record : DaemonSupervisorOwnerRecord
  released : Bool
  deriving DecidableEq

/-- A `DaemonShutdownAdmission` with its `RenewableRegistryRecord`; `refreshing` says that `refreshPromise`
is set, `withdrawn` that `release` has gone on to its section. -/
structure Admission where
  process : Nat
  record : DaemonShutdownAdmissionRecord
  released : Bool
  stopped : Bool
  lost : Bool
  refreshing : Bool
  withdrawn : Bool
  deriving DecidableEq

/-- Where the section of `acquireDaemonSupervisorOwnership` stands. -/
inductive AcquirePhase where
  | checking
  | expiring
  | listing
  | scanning (todo : List String)
  | reclaiming (directory : String) (todo : List String)
  | placing
  deriving DecidableEq

/-- Where a section of `acquireDaemonShutdownAdmission` stands. -/
inductive AdmitPhase where
  | checking
  | expiring
  | writing
  deriving DecidableEq

/-- A section under the guard. `found` says that the file has been read and is the caller's own. -/
inductive Section where
  | acquire (record : DaemonSupervisorOwnerRecord) (phase : AcquirePhase)
  | updatePhase (ownership : Nat) (phase : DaemonSupervisorOwnerPhase) (current : Option DaemonSupervisorOwnerRecord)
  | release (ownership : Nat) (found : Bool)
  | acquireAdmission (identity : ProcessIdentity) (phase : AdmitPhase)
  | renew (admission : Nat) (found : Bool)
  | withdraw (admission : Nat) (found : Bool)
  deriving DecidableEq

/-- What has come about, for the record. -/
inductive Event where
  | acquired (token : Nat)
  | granted (token : Nat)
  | renewed (token : Nat)
  deriving DecidableEq

/-- `guard` is the process that has the guard, and its section. Tokens are numbered; `log` is not in the
source. -/
structure State where
  processes : List Process
  owners : OrderedMap String OwnerDirectory
  admissionFile : AdmissionFile
  guard : Option (Nat × Section)
  ownerships : List Ownership
  admissions : List Admission
  nextToken : Nat
  log : List Event

inductive Action where
  | spawn (pid : Nat) (startId : String)
  | crash (process : Nat)
  | acquire (process : Nat) (generation socketPath descriptorDir : String) (startIdKnown : Bool)
  | updatePhase (ownership : Nat) (phase : DaemonSupervisorOwnerPhase)
  | release (ownership : Nat)
  | acquireAdmission (process : Nat) (startIdKnown : Bool)
  | assertOrRenew (admission : Nat)
  | renew (admission : Nat)
  | refuseRenew (admission : Nat)
  | releaseAdmission (admission : Nat)
  | withdraw (admission : Nat)
  | advance (env : Env)
  | fault
  deriving DecidableEq

namespace State

def IsAlive (σ : State) (process : Nat) : Prop := ∃ p ∈ σ.processes[process]?, p.alive = true

instance (σ : State) (process : Nat) : Decidable (σ.IsAlive process) :=
  inferInstanceAs (Decidable (∃ p ∈ σ.processes[process]?, p.alive = true))

/-- The process that has `pid` now. -/
def processOf (σ : State) (pid : Nat) : Option Process :=
  σ.processes.find? fun p => p.alive && p.pid == pid

def isProcessAlive (σ : State) (pid : Nat) : Bool := (σ.processOf pid).isSome

def getProcessStartId (σ : State) (startIdKnown : Bool) (pid : Nat) : Option String :=
  if startIdKnown then (σ.processOf pid).map (·.startId) else none

def isProcessIdentityAlive (σ : State) (env : Env) (identity : ProcessIdentity) : Bool :=
  if !σ.isProcessAlive identity.pid then false
  else
    match identity.processStartId with
    | none => true
    | some processStartId =>
      match σ.getProcessStartId env.startIdKnown identity.pid with
      | none => true
      | some observed => observed == processStartId

def matchesExactProcessIdentity (σ : State) (env : Env) (identity : ProcessIdentity) : Bool :=
  if !σ.isProcessAlive identity.pid then false
  else identity.processStartId.isNone ||
    σ.getProcessStartId env.startIdKnown identity.pid == identity.processStartId

def shutdownAdmissionIsActive (σ : State) (env : Env) (admission : DaemonShutdownAdmissionRecord) : Bool :=
  decide (env.now < admission.expiresAt) && σ.isProcessIdentityAlive env admission.identity

/-- `{ pid: process.pid, ...(processStartId ? { processStartId } : {}) }` -/
def identityOf (σ : State) (process : Nat) (startIdKnown : Bool) : Option ProcessIdentity :=
  (σ.processes[process]?).map fun p => ⟨p.pid, if startIdKnown then some p.startId else none⟩

/-! ## Reading the registry -/

def readOwnerRecord (σ : State) (env : Env) (directory : String) : Option DaemonSupervisorOwnerRecord :=
  if env.ownerReadable then (σ.owners.get? directory).bind (·.owner) else none

def readOwnerScope (σ : State) (env : Env) (directory : String) : Option DaemonSupervisorOwnerScope :=
  if env.scopeReadable then
    ((σ.owners.get? directory).bind (·.scope)).filter fun scope => scope.generation == directory
  else none

inductive ScopeReading where
  | owner (owner : DaemonSupervisorOwnerRecord)
  | irrelevant
  | abandoned
  | throws

def readOwnerRecordForScope (σ : State) (env : Env) (directory : String)
    (isRelevant : DaemonSupervisorOwnerScope → Bool) : ScopeReading :=
  match σ.readOwnerRecord env directory with
  | some owner => .owner owner
  | none =>
    match σ.readOwnerScope env directory with
    | some scope => if isRelevant scope then .throws else .irrelevant
    | none =>
      match σ.owners.get? directory with
      | none => .throws
      | some d => if env.entriesReadable && !d.hasFiles then .abandoned else .throws

/-! ## Sections -/

def leave (σ : State) : State := { σ with guard := none }

def enter (σ : State) (process : Nat) (task : Section) : State := { σ with guard := some (process, task) }

def setReleased (σ : State) (ownership : Nat) : State :=
  { σ with ownerships := σ.ownerships.modify ownership ({ · with released := true }) }

def setAdmission (σ : State) (admission : Nat) (f : Admission → Admission) : State :=
  { σ with admissions := σ.admissions.modify admission f }

def advanceAcquire (σ : State) (env : Env) (process : Nat) (record : DaemonSupervisorOwnerRecord) :
    AcquirePhase → State
  | .checking =>
    match σ.admissionFile with
    | .absent => σ.enter process (.acquire record .listing)
    | .invalid => σ.leave
    | .record admission =>
      if σ.shutdownAdmissionIsActive env admission then σ.leave
      else σ.enter process (.acquire record .expiring)
  | .expiring => { σ with admissionFile := .absent }.enter process (.acquire record .listing)
  | .listing => σ.enter process (.acquire record (.scanning σ.owners.keys))
  | .scanning [] => σ.enter process (.acquire record .placing)
  | .scanning (directory :: todo) =>
    match σ.readOwnerRecordForScope env directory (ownerConflicts · record.scope) with
    | .irrelevant => σ.enter process (.acquire record (.scanning todo))
    | .abandoned => σ.enter process (.acquire record (.reclaiming directory todo))
    | .throws => σ.leave
    | .owner owner =>
      if !ownerConflicts owner.scope record.scope then σ.enter process (.acquire record (.scanning todo))
      else if σ.isProcessIdentityAlive env owner.identity then σ.leave
      else σ.enter process (.acquire record (.reclaiming directory todo))
  | .reclaiming directory todo =>
    { σ with owners := σ.owners.delete directory }.enter process (.acquire record (.scanning todo))
  | .placing =>
    -- a directory that is there and not empty is not replaced
    if σ.owners.has record.scope.generation then σ.leave
    else
      leave { σ with
        owners := σ.owners.set record.scope.generation ⟨some record, some record.scope, true⟩
        ownerships := σ.ownerships ++ [⟨process, record, false⟩]
        log := σ.log ++ [Event.acquired record.scope.token] }

/-- `mutateDaemonSupervisorOwner` -/
def advanceUpdatePhase (σ : State) (env : Env) (process ownership : Nat) (o : Ownership)
    (phase : DaemonSupervisorOwnerPhase) : Option DaemonSupervisorOwnerRecord → State
  | none =>
    match σ.readOwnerRecord env o.record.scope.generation with
    | none => σ.leave
    | some current =>
      if current.scope.token ≠ o.record.scope.token ∨ current.scope.generation ≠ o.record.scope.generation then
        σ.leave
      else σ.enter process (.updatePhase ownership phase (some { current with phase }))
  | some current =>
    match σ.owners.get? o.record.scope.generation with
    | none => σ.leave
    | some directory =>
      leave { σ with
        owners := σ.owners.set o.record.scope.generation { directory with owner := some current }
        ownerships := σ.ownerships.modify ownership fun o => { o with record := { o.record with phase } } }

/-- `released` is set a little later, when the guard has been given back; the record is gone from here on. -/
def advanceRelease (σ : State) (env : Env) (process ownership : Nat) (o : Ownership) : Bool → State
  | false =>
    match σ.readOwnerRecord env o.record.scope.generation with
    | some current =>
      if current.scope.token = o.record.scope.token then σ.enter process (.release ownership true)
      else (σ.setReleased ownership).leave
    | none => (σ.setReleased ownership).leave
  | true => { σ.setReleased ownership with owners := σ.owners.delete o.record.scope.generation }.leave

def advanceAdmit (σ : State) (env : Env) (process : Nat) (identity : ProcessIdentity) : AdmitPhase → State
  | .checking =>
    match σ.admissionFile with
    | .absent => σ.enter process (.acquireAdmission identity .writing)
    | .invalid => σ.leave
    | .record admission =>
      if σ.shutdownAdmissionIsActive env admission then σ.leave
      else σ.enter process (.acquireAdmission identity .expiring)
  | .expiring => { σ with admissionFile := .absent }.enter process (.acquireAdmission identity .writing)
  | .writing =>
    let record := ⟨σ.nextToken, identity, env.now + SHUTDOWN_ADMISSION_LEASE_MS⟩
    leave { σ with
      admissionFile := .record record
      admissions := σ.admissions ++ [⟨process, record, false, false, false, false, false⟩]
      nextToken := σ.nextToken + 1
      log := σ.log ++ [Event.granted σ.nextToken] }

/-- `performRenew` and `renewUnderGuard`. -/
def advanceRenew (σ : State) (env : Env) (process admission : Nat) (a : Admission) : Bool → State
  | false =>
    let lost := (σ.setAdmission admission ({ · with lost := true, refreshing := false })).leave
    if a.stopped || a.lost then lost
    else
      match σ.admissionFile with
      | .absent => lost
      | .invalid => (σ.setAdmission admission ({ · with refreshing := false })).leave
      | .record current =>
        if current.token ≠ a.record.token ∨ current.identity ≠ a.record.identity ∨
            σ.matchesExactProcessIdentity env a.record.identity = false then lost
        else σ.enter process (.renew admission true)
  | true =>
    let record := { a.record with expiresAt := env.now + SHUTDOWN_ADMISSION_LEASE_MS }
    leave { σ.setAdmission admission ({ · with record, refreshing := false }) with
      admissionFile := .record record
      log := σ.log ++ [Event.renewed record.token] }

/-- The section of `release` of an admission. -/
def advanceWithdraw (σ : State) (process admission : Nat) (a : Admission) : Bool → State
  | false =>
    match σ.admissionFile with
    | .record current =>
      if current.token = a.record.token then σ.enter process (.withdraw admission true) else σ.leave
    | _ => σ.leave
  | true => { σ with admissionFile := .absent }.leave

/-- The next file step of the section under the guard. -/
def advance (σ : State) (env : Env) : Option State := do
  let (process, task) ← σ.guard
  match task with
  | .acquire record phase => some (σ.advanceAcquire env process record phase)
  | .updatePhase ownership phase current =>
    (σ.ownerships[ownership]?).map fun o => σ.advanceUpdatePhase env process ownership o phase current
  | .release ownership found =>
    (σ.ownerships[ownership]?).map fun o => σ.advanceRelease env process ownership o found
  | .acquireAdmission identity phase => some (σ.advanceAdmit env process identity phase)
  | .renew admission found =>
    (σ.admissions[admission]?).map fun a => σ.advanceRenew env process admission a found
  | .withdraw admission found =>
    (σ.admissions[admission]?).map fun a => σ.advanceWithdraw process admission a found

/-- A file operation or the guard throws; a renewal that could not read the record is not lost. -/
def throwSection (σ : State) : Option State :=
  σ.guard.map fun
    | (_, .renew admission _) => (σ.setAdmission admission ({ · with refreshing := false })).leave
    | _ => σ.leave

def step (σ : State) : Action → Option State
  | .spawn pid startId =>
    if σ.isProcessAlive pid then none
    else some { σ with processes := σ.processes ++ [⟨pid, startId, true⟩] }
  | .crash process =>
    some { σ with
      processes := σ.processes.modify process ({ · with alive := false })
      guard := σ.guard.filter fun g => g.1 != process }
  | .acquire process generation socketPath descriptorDir startIdKnown =>
    if σ.guard.isNone ∧ σ.IsAlive process then
      (σ.identityOf process startIdKnown).map fun identity =>
        { σ with nextToken := σ.nextToken + 1 }.enter process
          (.acquire ⟨⟨σ.nextToken, generation, socketPath, descriptorDir⟩, identity, .starting⟩ .checking)
    else none
  | .updatePhase ownership phase => do
    let o ← σ.ownerships[ownership]?
    if σ.guard.isNone ∧ σ.IsAlive o.process then some (σ.enter o.process (.updatePhase ownership phase none))
    else none
  | .release ownership => do
    let o ← σ.ownerships[ownership]?
    if σ.guard.isNone ∧ σ.IsAlive o.process then some (σ.enter o.process (.release ownership false)) else none
  | .acquireAdmission process startIdKnown =>
    if σ.guard.isNone ∧ σ.IsAlive process then
      (σ.identityOf process startIdKnown).map fun identity => σ.enter process (.acquireAdmission identity .checking)
    else none
  | .assertOrRenew admission => do
    let a ← σ.admissions[admission]?
    if σ.IsAlive a.process ∧ ¬(a.released || a.stopped || a.lost) then
      some (σ.setAdmission admission ({ · with refreshing := true }))
    else none
  | .renew admission => do
    let a ← σ.admissions[admission]?
    if σ.guard.isNone ∧ σ.IsAlive a.process ∧ a.refreshing then
      some (σ.enter a.process (.renew admission false))
    else none
  | .refuseRenew admission =>
    if σ.guard.all fun g => g.2 ≠ .renew admission false ∧ g.2 ≠ .renew admission true then
      some (σ.setAdmission admission ({ · with refreshing := false }))
    else none
  | .releaseAdmission admission => do
    let a ← σ.admissions[admission]?
    if σ.IsAlive a.process ∧ ¬a.released then
      some (σ.setAdmission admission ({ · with released := true, stopped := true }))
    else none
  | .withdraw admission => do
    let a ← σ.admissions[admission]?
    if σ.guard.isNone ∧ σ.IsAlive a.process ∧ a.released ∧ ¬a.refreshing ∧ ¬a.withdrawn then
      some ((σ.setAdmission admission ({ · with withdrawn := true })).enter a.process (.withdraw admission false))
    else none
  | .advance env => σ.advance env
  | .fault => σ.throwSection

/-- A live process has the ownership and has not released it. -/
structure Holds (σ : State) (i : Nat) (o : Ownership) : Prop where
  get : σ.ownerships[i]? = some o
  unreleased : o.released = false
  alive : σ.IsAlive o.process

end State

end SupervisorOwnership
end Daemon
end RePrime
