import RePrime.Cron.Schedule

/-!
# RePrime.Cron.Jobs

The jobs of `AgentCronJobStore`, and the operations that read all jobs and edit them.

* `editJobs`: `jobs.map(..)` with an edit that may throw.
* `Plan`: what such an operation hands to `writeJobs`, if it writes.

A date text is its instant.
-/

namespace RePrime
namespace Cron

/-! ## Jobs -/

inductive AgentCronJobStatus where
  | active | paused | completed | cancelled
  deriving DecidableEq, Repr

inductive AgentCronJobSource where
  | cron | heartbeat | rlmHeartbeat
  deriving DecidableEq, Repr

inductive AgentCronJobRuntimeKind where
  | topLevel | subagent
  deriving DecidableEq, Repr

inductive AgentHeartbeatDeliveryMode where
  | steer | followUp
  deriving DecidableEq, Repr

structure AgentCronJob where
  id : String
  status : AgentCronJobStatus
  source : Option AgentCronJobSource
  runtimeKind : Option AgentCronJobRuntimeKind
  deliveryMode : Option AgentHeartbeatDeliveryMode
  activeSessionId : String
  sessionId : String
  sessionFile : String
  cwd : String
  label : Option String
  prompt : String
  schedule : AgentCronSchedule
  createdAt : Instant
  updatedAt : Instant
  nextRunAt : Option Instant
  lastRunAt : Option Instant
  lastSkippedAt : Option Instant
  lastError : Option String
  runCount : Nat
  deriving DecidableEq

structure AgentCronDispatchRecord where
  id : String
  jobId : String
  claimedAt : Instant
  scheduledFor : Instant
  deriving DecidableEq

structure CronJobsState where
  jobs : List AgentCronJob
  dispatches : List AgentCronDispatchRecord
  deriving DecidableEq

def CronJobsState.empty : CronJobsState := { jobs := [], dispatches := [] }

structure CreateAgentCronJobInput where
  activeSessionId : String
  sessionId : String
  sessionFile : String
  cwd : String
  label : Option String
  prompt : String
  scheduleText : String
  source : Option AgentCronJobSource
  runtimeKind : Option AgentCronJobRuntimeKind
  deliveryMode : Option AgentHeartbeatDeliveryMode

def normalizeOptionalLabel (label : Option String) : Option String :=
  (label.map Text.trim).filter fun l => l ≠ ""

def defaultHeartbeatDeliveryMode : AgentHeartbeatDeliveryMode := .steer

def isHeartbeatCronJob (job : AgentCronJob) : Bool :=
  job.source = some .heartbeat || job.source = some .rlmHeartbeat

def isOpen (job : AgentCronJob) : Bool := job.status = .active || job.status = .paused

def isDueJob (job : AgentCronJob) (now : Instant) : Bool :=
  decide (job.status = .active) && job.nextRunAt.any fun next => decide (next.time ≤ now.time)

/-! ## Edits of one job -/

def AgentCronJob.stopped (job : AgentCronJob) (status : AgentCronJobStatus) (now : Instant) :
    AgentCronJob :=
  { job with status, nextRunAt := none, updatedAt := now }

/-- The next run of a schedule that has to be recurring. -/
def recurringRun (host : Host) (schedule : AgentCronSchedule) (now : Instant) (message : String) :
    Except String Instant := do
  match ← nextRunAtForSchedule host.zone schedule (some now) with
  | none => .error message
  | some date => toISOString date

def heartbeatMessage : String := "Heartbeat schedule must be recurring"

def rlmHeartbeatMessage : String := "RLM heartbeat schedule must be recurring"

def AgentCronJob.resumed (host : Host) (job : AgentCronJob) (now : Instant) (message : String) :
    Except String AgentCronJob := do
  let nextRunAt ← recurringRun host job.schedule now message
  .ok { job with status := .active, nextRunAt := some nextRunAt, updatedAt := now }

/-- `jobs.map(..)` with an edit that may throw, and the jobs it has edited. -/
def editJobs (edit : AgentCronJob → Except String (Option AgentCronJob)) :
    List AgentCronJob → Except String (List AgentCronJob × List AgentCronJob)
  | [] => .ok ([], [])
  | job :: rest => do
    let edited ← edit job
    let (jobs, updated) ← editJobs edit rest
    match edited with
    | none => .ok (job :: jobs, updated)
    | some job' => .ok (job' :: jobs, job' :: updated)

/-- What an operation hands to `writeJobs`, if it writes, and the jobs it answers with. -/
structure Plan where
  write : Option (List AgentCronJob)
  answer : List AgentCronJob
  deriving DecidableEq

/-- An operation that writes when it has edited a job. -/
def editPlan (edit : AgentCronJob → Except String (Option AgentCronJob)) (jobs : List AgentCronJob) :
    Except String Plan := do
  let (jobs', updated) ← editJobs edit jobs
  .ok { write := if updated = [] then none else some jobs', answer := updated }

/-! ## Creation -/

/-- The record of a new job. -/
def newJob (input : CreateAgentCronJobInput) (source : AgentCronJobSource)
    (deliveryMode : Option AgentHeartbeatDeliveryMode) (prompt : String) (schedule : AgentCronSchedule)
    (nextRunAt : Instant) (id : String) (now : Instant) : AgentCronJob :=
  { id
    status := .active
    source := some source
    runtimeKind := input.runtimeKind
    deliveryMode
    activeSessionId := input.activeSessionId
    sessionId := input.sessionId
    sessionFile := input.sessionFile
    cwd := input.cwd
    label := normalizeOptionalLabel input.label
    prompt
    schedule
    createdAt := now
    updatedAt := now
    nextRunAt := some nextRunAt
    lastRunAt := none
    lastSkippedAt := none
    lastError := none
    runCount := 0 }

def create (host : Host) (input : CreateAgentCronJobInput) (id : String) (now : Instant)
    (jobs : List AgentCronJob) : Except String Plan :=
  let prompt := Text.trim input.prompt
  if prompt = "" then .error "Cron job prompt cannot be empty"
  else do
    let parsed ← parseAgentCronSchedule host input.scheduleText now
    let nextRunAt ← toISOString parsed.nextRunAt
    let job := newJob input (input.source.getD .cron) none prompt parsed.schedule nextRunAt id now
    .ok { write := some (jobs ++ [job]), answer := [job] }

def AgentCronSchedule.isOnce : AgentCronSchedule → Bool
  | .once _ => true
  | _ => false

/-- The open heartbeats of the session are cancelled before the new one is appended. -/
def cancelOpenHeartbeat (activeSessionId : String) (now : Instant) (job : AgentCronJob) : AgentCronJob :=
  if job.activeSessionId = activeSessionId ∧ job.source = some .heartbeat ∧ isOpen job then
    job.stopped .cancelled now
  else job

def createHeartbeat (host : Host) (input : CreateAgentCronJobInput) (id : String) (now : Instant)
    (jobs : List AgentCronJob) : Except String Plan := do
  let parsed ← parseAgentCronSchedule host input.scheduleText now
  if parsed.schedule.isOnce then .error heartbeatMessage
  else
    let prompt := Text.trim input.prompt
    if prompt = "" then .error "Heartbeat instruction cannot be empty"
    else do
      let nextRunAt ← toISOString parsed.nextRunAt
      let job := newJob input .heartbeat (some (input.deliveryMode.getD defaultHeartbeatDeliveryMode))
        prompt parsed.schedule nextRunAt id now
      .ok
        { write := some (jobs.map (cancelOpenHeartbeat input.activeSessionId now) ++ [job])
          answer := [job] }

def createRlmHeartbeat (host : Host) (input : CreateAgentCronJobInput) (id : String) (now : Instant)
    (jobs : List AgentCronJob) : Except String Plan := do
  let parsed ← parseAgentCronSchedule host input.scheduleText now
  if parsed.schedule.isOnce then .error rlmHeartbeatMessage
  else
    let prompt := Text.trim input.prompt
    if prompt = "" then .error "RLM heartbeat instruction cannot be empty"
    else do
      let nextRunAt ← toISOString parsed.nextRunAt
      let job := newJob input .rlmHeartbeat (some (input.deliveryMode.getD defaultHeartbeatDeliveryMode))
        prompt parsed.schedule nextRunAt id now
      .ok { write := some (jobs ++ [job]), answer := [job] }

/-! ## Other operations on jobs -/

structure RebindInput where
  activeSessionId : String
  sessionId : String
  sessionFile : String
  cwd : String

def rebindJob (host : Host) (input : RebindInput) (job : AgentCronJob) : Option AgentCronJob :=
  let sameFile := host.resolve job.sessionFile = host.resolve input.sessionFile
  if job.activeSessionId ≠ input.activeSessionId ∧ ¬ sameFile then none
  else if job.activeSessionId = input.activeSessionId ∧ job.sessionId = input.sessionId ∧ sameFile ∧
      job.cwd = input.cwd then none
  else
    some
      { job with
        activeSessionId := input.activeSessionId
        sessionId := input.sessionId
        sessionFile := input.sessionFile
        cwd := input.cwd }

def rebindSessionJobs (host : Host) (input : RebindInput) : List AgentCronJob → Except String Plan :=
  editPlan fun job => .ok (rebindJob host input job)

inductive AgentRlmHeartbeatStatusUpdate where
  | pause | resume
  deriving DecidableEq, Repr

structure RlmHeartbeatUpdate where
  label : Option String
  prompt : Option String
  scheduleText : Option String
  status : Option AgentRlmHeartbeatStatusUpdate
  deliveryMode : Option AgentHeartbeatDeliveryMode

def isRlmHeartbeat (activeSessionId : String) (job : AgentCronJob) : Bool :=
  job.activeSessionId = activeSessionId && job.source = some .rlmHeartbeat

def updateLabel (label : Option String) (job : AgentCronJob) : AgentCronJob :=
  match label with
  | none => job
  | some label => { job with label := normalizeOptionalLabel (some label) }

def updatePrompt (prompt : Option String) (job : AgentCronJob) : Except String AgentCronJob :=
  match prompt with
  | none => .ok job
  | some text =>
    let prompt := Text.trim text
    if prompt = "" then .error "RLM heartbeat instruction cannot be empty" else .ok { job with prompt }

/-- A new schedule of a paused job starts no run. -/
def updateSchedule (host : Host) (scheduleText : Option String) (now : Instant) (job : AgentCronJob) :
    Except String AgentCronJob :=
  match scheduleText with
  | none => .ok job
  | some text => do
    let parsed ← parseAgentCronSchedule host text now
    if parsed.schedule.isOnce then .error rlmHeartbeatMessage
    else if job.status = .paused then .ok { job with schedule := parsed.schedule, nextRunAt := none }
    else do
      let nextRunAt ← toISOString parsed.nextRunAt
      .ok { job with schedule := parsed.schedule, nextRunAt := some nextRunAt }

def updateStatus (host : Host) (status : Option AgentRlmHeartbeatStatusUpdate) (now : Instant)
    (job : AgentCronJob) : Except String AgentCronJob :=
  match status with
  | none => .ok { job with updatedAt := now }
  | some .pause => .ok (job.stopped .paused now)
  | some .resume => job.resumed host now rlmHeartbeatMessage

def updateRlmHeartbeatJob (host : Host) (update : RlmHeartbeatUpdate) (now : Instant)
    (job : AgentCronJob) : Except String AgentCronJob := do
  let labelled := updateLabel update.label job
  let delivered := { labelled with deliveryMode := update.deliveryMode.or labelled.deliveryMode }
  let prompted ← updatePrompt update.prompt delivered
  let scheduled ← updateSchedule host update.scheduleText now prompted
  updateStatus host update.status now scheduled

def updateRlmHeartbeat (host : Host) (activeSessionId id : String) (update : RlmHeartbeatUpdate)
    (now : Instant) : List AgentCronJob → Except String Plan :=
  editPlan fun job =>
    if job.id = id ∧ isRlmHeartbeat activeSessionId job ∧ job.status ≠ .cancelled ∧
        job.status ≠ .completed then
      (updateRlmHeartbeatJob host update now job).map some
    else .ok none

/-- The operations that stop the jobs a test picks. -/
def stopPlan (test : AgentCronJob → Bool) (status : AgentCronJobStatus) (now : Instant) :
    List AgentCronJob → Except String Plan :=
  editPlan fun job => .ok (if test job then some (job.stopped status now) else none)

def deleteRlmHeartbeat (activeSessionId id : String) (now : Instant) :
    List AgentCronJob → Except String Plan :=
  stopPlan (fun job => job.id = id && isRlmHeartbeat activeSessionId job) .cancelled now

def cancelRlmHeartbeatsForSession (activeSessionId : String) (now : Instant) :
    List AgentCronJob → Except String Plan :=
  stopPlan (fun job => isRlmHeartbeat activeSessionId job && isOpen job) .cancelled now

structure SessionSelector where
  activeSessionId : Option String
  sessionId : Option String
  sessionFile : Option String

/-- An empty session file selects none. -/
def SessionSelector.selects (host : Host) (input : SessionSelector) (job : AgentCronJob) : Bool :=
  input.activeSessionId = some job.activeSessionId || input.sessionId = some job.sessionId ||
    (input.sessionFile.filter fun f => f ≠ "").any fun f => host.resolve job.sessionFile = host.resolve f

def cancelJobsForSession (host : Host) (input : SessionSelector) (now : Instant) :
    List AgentCronJob → Except String Plan :=
  stopPlan (fun job => input.selects host job && isOpen job) .cancelled now

/-- The newest of some jobs; the first of several that are equally new. -/
def latest : List AgentCronJob → Option AgentCronJob
  | [] => none
  | job :: rest =>
    match latest rest with
    | none => some job
    | some other => if other.updatedAt.time ≤ job.updatedAt.time then some job else some other

def getHeartbeat (activeSessionId : String) (jobs : List AgentCronJob) : Option AgentCronJob :=
  latest (jobs.filter fun job =>
    job.activeSessionId = activeSessionId && job.source = some .heartbeat && isOpen job)

/-- The operations on the current heartbeat, which write whenever there is one. They read the jobs
twice: `first` to find it, `jobs` to edit it. -/
def heartbeatPlan (activeSessionId : String) (edit : AgentCronJob → Except String AgentCronJob)
    (first jobs : List AgentCronJob) : Except String Plan :=
  match getHeartbeat activeSessionId first with
  | none => .ok { write := none, answer := [] }
  | some current => do
    let (jobs', updated) ← editJobs
      (fun job => if job.id = current.id then (edit job).map some else .ok none) jobs
    .ok { write := some jobs', answer := updated }

def pauseHeartbeat (activeSessionId : String) (now : Instant) :
    List AgentCronJob → List AgentCronJob → Except String Plan :=
  heartbeatPlan activeSessionId fun job => .ok (job.stopped .paused now)

def clearHeartbeat (activeSessionId : String) (now : Instant) :
    List AgentCronJob → List AgentCronJob → Except String Plan :=
  heartbeatPlan activeSessionId fun job => .ok (job.stopped .cancelled now)

/-- The next run is that of the current heartbeat, computed before the jobs are edited. -/
def resumeHeartbeat (host : Host) (activeSessionId : String) (now : Instant)
    (first jobs : List AgentCronJob) : Except String Plan :=
  match getHeartbeat activeSessionId first with
  | none => .ok { write := none, answer := [] }
  | some current => do
    let nextRunAt ← recurringRun host current.schedule now heartbeatMessage
    heartbeatPlan activeSessionId
      (fun job => .ok { job with status := .active, nextRunAt := some nextRunAt, updatedAt := now })
      first jobs

inductive AgentHeartbeatManagementAction where
  | pause | resume | stop
  deriving DecidableEq, Repr

def manageHeartbeat (host : Host) (activeSessionId id : String) (action : AgentHeartbeatManagementAction)
    (now : Instant) : List AgentCronJob → Except String Plan :=
  editPlan fun job =>
    if job.id = id ∧ job.activeSessionId = activeSessionId ∧ isHeartbeatCronJob job ∧
        job.status ≠ .cancelled ∧ job.status ≠ .completed then
      match action with
      | .pause => .ok (some (job.stopped .paused now))
      | .stop => .ok (some (job.stopped .cancelled now))
      | .resume => (job.resumed host now heartbeatMessage).map some
    else .ok none

def cancel (id : String) (now : Instant) : List AgentCronJob → Except String Plan :=
  stopPlan (fun job => job.id = id && job.status ≠ .cancelled) .cancelled now

/-- The status of a job after a run. -/
def afterRun (job : AgentCronJob) : AgentCronJobStatus :=
  if job.schedule.isOnce then .completed else .active

/-- A cron job searches from a millisecond later. -/
def runFrom (schedule : AgentCronSchedule) (now : Instant) : Date :=
  match schedule with
  | .cron _ => Date.plus (some now) 1
  | _ => some now

def recordRunResult (host : Host) (id : String) (now : Instant) (error : Option String) :
    List AgentCronJob → Except String Plan :=
  editPlan fun job =>
    if job.id ≠ id then .ok none
    else if job.status ≠ .active then .ok (some job)
    else do
      let nextRunAt ← nextRun host.zone job.schedule (runFrom job.schedule now)
      .ok (some
        { job with
          status := afterRun job
          nextRunAt
          lastRunAt := some now
          lastError := error
          runCount := job.runCount + 1
          updatedAt := now })

def recordSkipResult (host : Host) (id : String) (now : Instant) :
    List AgentCronJob → Except String Plan :=
  editPlan fun job =>
    if job.id ≠ id then .ok none
    else if job.status ≠ .active then .ok (some job)
    else do
      let nextRunAt ← nextRun host.zone job.schedule (some now)
      .ok (some { job with nextRunAt, lastSkippedAt := some now, updatedAt := now })

end Cron
end RePrime
