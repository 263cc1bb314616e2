import RePrime.Cron.Jobs
import RePrime.Lib.OrderedMap

/-!
# RePrime.Cron.Store

`AgentCronJobStore`: jobs and outstanding dispatches in one file, or in one file for each session.

* `writeJobs`: the jobs an operation has read and edited, merged into the files.
* `mutateStates`: a change of the state in each file, one after the other.
* `Op`, `Op.run`: the operations; `ReachableFrom`, `Reachable`: their runs.

A file is its parsed state; a file that does not exist holds none.
-/

namespace RePrime
namespace Cron

/-! ## Files -/

inductive StoreMode where
  | file (path : String)
  | sessionArtifacts (files : OrderedMap String String)

def StoreMode.paths : StoreMode → List String
  | .file path => [path]
  | .sessionArtifacts files => files.entries.map Prod.snd

structure StoreWorld where
  mode : StoreMode
  files : String → CronJobsState

def StoreWorld.put (w : StoreWorld) (path : String) (state : CronJobsState) : StoreWorld :=
  { w with files := fun p => if p = path then state else w.files p }

abbrev StoreResult (α : Type) := Except String α × StoreWorld

def readJobs (w : StoreWorld) : List AgentCronJob := w.mode.paths.flatMap fun path => (w.files path).jobs

def isAtLeastAsFresh (candidate current : AgentCronJob) : Bool :=
  decide (current.updatedAt.time ≤ candidate.updatedAt.time)

def mergeFreshJob (merged : OrderedMap String AgentCronJob) (job : AgentCronJob) :
    OrderedMap String AgentCronJob :=
  match merged.get? job.id with
  | none => merged.set job.id job
  | some current => if isAtLeastAsFresh job current then merged.set job.id job else merged

def jobsById (jobs : List AgentCronJob) : OrderedMap String AgentCronJob :=
  .ofList (jobs.map fun job => (job.id, job))

def mergeFreshJobs (currentJobs nextJobs : List AgentCronJob) : List AgentCronJob :=
  (nextJobs.foldl mergeFreshJob (jobsById currentJobs)).entries.map Prod.snd

def writeJobsFile (path : String) (jobs : List AgentCronJob) (w : StoreWorld) : StoreWorld :=
  w.put path
    { jobs := mergeFreshJobs (w.files path).jobs jobs, dispatches := (w.files path).dispatches }

/-- The jobs of a session after a write: a job that moves to another session leaves this one. -/
def mergedSessionJobs (current : CronJobsState) (jobs : List AgentCronJob) (sessionId : String) :
    List AgentCronJob :=
  let retained := current.jobs.filter fun job =>
    match (jobsById jobs).get? job.id with
    | none => true
    | some incoming => incoming.sessionId = sessionId
  mergeFreshJobs retained (jobs.filter fun job => job.sessionId = sessionId)

/-- Which session each job is in after a write. -/
def sessionIdByJobId (merged : List (String × List AgentCronJob)) : OrderedMap String String :=
  .ofList (merged.flatMap fun m => m.2.map fun job => (job.id, m.1))

def writeSessionArtifacts (files : OrderedMap String String) (jobs : List AgentCronJob) (w : StoreWorld) :
    StoreWorld :=
  let merged := files.entries.map fun f => (f.1, mergedSessionJobs (w.files f.2) jobs f.1)
  let dispatches := files.entries.flatMap fun f => (w.files f.2).dispatches
  files.entries.foldl
    (fun w' f =>
      w'.put f.2
        { jobs := (merged.lookup f.1).getD []
          dispatches := dispatches.filter fun d => (sessionIdByJobId merged).get? d.jobId = some f.1 })
    w

def writeJobs (jobs : List AgentCronJob) (w : StoreWorld) : StoreResult Unit :=
  match w.mode with
  | .file path => (.ok (), writeJobsFile path jobs w)
  | .sessionArtifacts files =>
    match jobs.find? fun job => !files.has job.sessionId with
    | some unregistered =>
      (.error ("Cron job " ++ unregistered.id ++ " targets an unregistered session artifact"), w)
    | none => (.ok (), writeSessionArtifacts files jobs w)

/-- An operation that reads the jobs, edits them and writes them back. -/
def runPlan (plan : List AgentCronJob → Except String Plan) (w : StoreWorld) :
    StoreResult (List AgentCronJob) :=
  match plan (readJobs w) with
  | .error e => (.error e, w)
  | .ok p =>
    match p.write with
    | none => (.ok p.answer, w)
    | some jobs =>
      match writeJobs jobs w with
      | (.error e, w) => (.error e, w)
      | (.ok _, w) => (.ok p.answer, w)

/-! ## Changes of the states -/

/-- The files one after the other; a throw leaves those before it written. -/
def mutatePaths {α : Type} (mutator : String → CronJobsState → Except String (CronJobsState × List α)) :
    List String → StoreWorld → StoreResult (List α)
  | [], w => (.ok [], w)
  | path :: rest, w =>
    match mutator path (w.files path) with
    | .error e => (.error e, w)
    | .ok (state, as) =>
      match mutatePaths mutator rest (w.put path state) with
      | (.error e, w) => (.error e, w)
      | (.ok as', w) => (.ok (as ++ as'), w)

def mutateStates {α : Type} (mutator : String → CronJobsState → Except String (CronJobsState × List α))
    (w : StoreWorld) : StoreResult (List α) :=
  mutatePaths mutator w.mode.paths w

structure AgentCronDispatch where
  id : String
  job : AgentCronJob
  deriving DecidableEq

/-- A due job with its next run. -/
def advanced (job : AgentCronJob) (nextRunAt : Option Instant) (claimedAt : Instant) : AgentCronJob :=
  { job with nextRunAt, updatedAt := claimedAt }

def dispatchFor (job : AgentCronJob) (scheduledFor claimedAt : Instant) (id : String) :
    AgentCronDispatchRecord :=
  { id, jobId := job.id, claimedAt, scheduledFor }

/-- What claiming does with one job: the job, and its dispatch if it is claimed. -/
def claimJob (zone : Zone) (dueAt claimedAt : Instant) (claimedJobIds : List String) (id : String)
    (job : AgentCronJob) :
    Except String (AgentCronJob × List (AgentCronDispatchRecord × AgentCronDispatch)) :=
  match job.nextRunAt with
  | none => .ok (job, [])
  | some scheduledFor =>
    if isDueJob job dueAt then do
      let nextRunAt ← nextRun zone job.schedule (some claimedAt)
      let next := advanced job nextRunAt claimedAt
      if job.id ∈ claimedJobIds then .ok ({ next with lastSkippedAt := some claimedAt }, [])
      else .ok (next, [(dispatchFor job scheduledFor claimedAt id, { id, job := next })])
    else .ok (job, [])

/-- The jobs in order; `ids` are the random ids, of which `n` are drawn already. -/
def claimJobs (zone : Zone) (dueAt claimedAt : Instant) (claimedJobIds : List String)
    (ids : Nat → String) : Nat → List AgentCronJob →
    Except String (List AgentCronJob × List (AgentCronDispatchRecord × AgentCronDispatch))
  | _, [] => .ok ([], [])
  | n, job :: rest => do
    let (next, claimed) ← claimJob zone dueAt claimedAt claimedJobIds (ids n) job
    let (jobs, claimed') ← claimJobs zone dueAt claimedAt claimedJobIds ids (n + claimed.length) rest
    .ok (next :: jobs, claimed ++ claimed')

def claimDueInState (zone : Zone) (dueAt claimedAt : Instant) (ids : Nat → String)
    (state : CronJobsState) : Except String (CronJobsState × List AgentCronDispatch) := do
  let (jobs, claimed) ←
    claimJobs zone dueAt claimedAt (state.dispatches.map AgentCronDispatchRecord.jobId) ids 0 state.jobs
  .ok ({ jobs, dispatches := state.dispatches ++ claimed.map Prod.fst }, claimed.map Prod.snd)

/-- The random ids are drawn file by file. -/
def claimDue (host : Host) (dueAt claimedAt : Instant) (ids : String → Nat → String) (w : StoreWorld) :
    StoreResult (List AgentCronDispatch) :=
  mutateStates (fun path => claimDueInState host.zone dueAt claimedAt (ids path)) w

inductive AgentCronJobRunResult where
  | ran | skipped
  deriving DecidableEq, Repr

/-- The job of a finished dispatch. -/
def finishJob (zone : Zone) (jobId : String) (now : Instant) (outcome : AgentCronJobRunResult)
    (error : Option String) (job : AgentCronJob) : Except String (Option AgentCronJob) :=
  if job.id ≠ jobId ∨ job.status ≠ .active then .ok none
  else if outcome = .skipped ∧ error = none then do
    let nextRunAt ← nextRun zone job.schedule (some now)
    .ok (some
      { job with
        status := afterRun job
        nextRunAt
        lastSkippedAt := some now
        updatedAt := now })
  else
    .ok (some
      { job with
        status := afterRun job
        lastRunAt := some now
        lastError := error
        runCount := job.runCount + 1
        updatedAt := now })

def recordDispatchInState (zone : Zone) (dispatchId : String) (now : Instant)
    (outcome : AgentCronJobRunResult) (error : Option String) (state : CronJobsState) :
    Except String (CronJobsState × List AgentCronJob) :=
  match state.dispatches.find? fun d => d.id = dispatchId with
  | none => .ok (state, [])
  | some dispatch => do
    let (jobs, updated) ← editJobs (finishJob zone dispatch.jobId now outcome error) state.jobs
    .ok ({ jobs, dispatches := state.dispatches.filter fun d => d.id ≠ dispatchId }, updated)

def recordDispatchResult (host : Host) (dispatchId : String) (now : Instant)
    (outcome : AgentCronJobRunResult) (error : Option String) (w : StoreWorld) :
    StoreResult (List AgentCronJob) :=
  mutateStates (fun _ => recordDispatchInState host.zone dispatchId now outcome error) w

def interruptedMessage : String := "Interrupted before scheduled operation completion"

/-- The job of an interrupted dispatch. -/
def recoverJob (interruptedIds : List String) (now : Instant) (job : AgentCronJob) :
    Except String (Option AgentCronJob) :=
  if job.id ∉ interruptedIds ∨ job.status ≠ .active then .ok none
  else
    .ok (some
      { job with
        status := afterRun job
        lastError := some interruptedMessage
        updatedAt := now })

/-- `isInterrupted` picks the dispatches: all, or those with certain ids. -/
def recoverInterruptedInState (isInterrupted : AgentCronDispatchRecord → Bool) (now : Instant)
    (state : CronJobsState) : Except String (CronJobsState × List AgentCronJob) :=
  let interrupted := state.dispatches.filter isInterrupted
  if interrupted = [] then .ok (state, [])
  else do
    let (jobs, recovered) ←
      editJobs (recoverJob (interrupted.map AgentCronDispatchRecord.jobId) now) state.jobs
    .ok ({ jobs, dispatches := state.dispatches.filter fun d => !isInterrupted d }, recovered)

def recoverInterruptedDispatches (now : Instant) (w : StoreWorld) : StoreResult (List AgentCronJob) :=
  mutateStates (fun _ => recoverInterruptedInState (fun _ => true) now) w

def recoverInterruptedDispatchesById (dispatchIds : List String) (now : Instant) (w : StoreWorld) :
    StoreResult (List AgentCronJob) :=
  mutateStates (fun _ => recoverInterruptedInState (fun d => decide (d.id ∈ dispatchIds)) now) w

/-! ## Session artifacts -/

def registerSessionArtifact (sessionId path : String) (w : StoreWorld) : StoreResult Bool :=
  match w.mode with
  | .file _ => (.ok false, w)
  | .sessionArtifacts files =>
    if files.get? sessionId = some path then (.ok false, w)
    else (.ok true, { w with mode := .sessionArtifacts (files.set sessionId path) })

def recoverSessionArtifact (sessionId : String) (now : Instant) (w : StoreWorld) :
    StoreResult (List AgentCronJob) :=
  match w.mode with
  | .file _ => (.ok [], w)
  | .sessionArtifacts files =>
    match files.get? sessionId with
    | none => (.ok [], w)
    | some path => mutatePaths (fun _ => recoverInterruptedInState (fun _ => true) now) [path] w

/-! ## Operations -/

inductive Op where
  | create (input : CreateAgentCronJobInput) (id : String)
  | rebindSessionJobs (input : RebindInput)
  | createHeartbeat (input : CreateAgentCronJobInput) (id : String)
  | createRlmHeartbeat (input : CreateAgentCronJobInput) (id : String)
  | updateRlmHeartbeat (activeSessionId id : String) (update : RlmHeartbeatUpdate)
  | deleteRlmHeartbeat (activeSessionId id : String)
  | cancelRlmHeartbeatsForSession (activeSessionId : String)
  | cancelJobsForSession (input : SessionSelector)
  | pauseHeartbeat (activeSessionId : String)
  | resumeHeartbeat (activeSessionId : String)
  | clearHeartbeat (activeSessionId : String)
  | manageHeartbeat (activeSessionId id : String) (action : AgentHeartbeatManagementAction)
  | cancel (id : String)
  | recordRunResult (id : String) (error : Option String)
  | recordSkipResult (id : String)
  | claimDue (dueAt : Instant) (ids : String → Nat → String)
  | recordDispatchResult (dispatchId : String) (outcome : AgentCronJobRunResult) (error : Option String)
  | recoverInterruptedDispatches
  | recoverInterruptedDispatchesById (dispatchIds : List String)
  | registerSessionArtifact (sessionId path : String)
  | recoverSessionArtifact (sessionId : String)

/-- The operations that read, edit and write back. Those on a heartbeat find it in a first read. -/
def Op.planFrom (host : Host) (now : Instant) :
    Op → Option (List AgentCronJob → List AgentCronJob → Except String Plan)
  | .create input id => some fun _ => Cron.create host input id now
  | .rebindSessionJobs input => some fun _ => Cron.rebindSessionJobs host input
  | .createHeartbeat input id => some fun _ => Cron.createHeartbeat host input id now
  | .createRlmHeartbeat input id => some fun _ => Cron.createRlmHeartbeat host input id now
  | .updateRlmHeartbeat s id update => some fun _ => Cron.updateRlmHeartbeat host s id update now
  | .deleteRlmHeartbeat s id => some fun _ => Cron.deleteRlmHeartbeat s id now
  | .cancelRlmHeartbeatsForSession s => some fun _ => Cron.cancelRlmHeartbeatsForSession s now
  | .cancelJobsForSession input => some fun _ => Cron.cancelJobsForSession host input now
  | .pauseHeartbeat s => some (Cron.pauseHeartbeat s now)
  | .resumeHeartbeat s => some (Cron.resumeHeartbeat host s now)
  | .clearHeartbeat s => some (Cron.clearHeartbeat s now)
  | .manageHeartbeat s id action => some fun _ => Cron.manageHeartbeat host s id action now
  | .cancel id => some fun _ => Cron.cancel id now
  | .recordRunResult id error => some fun _ => Cron.recordRunResult host id now error
  | .recordSkipResult id => some fun _ => Cron.recordSkipResult host id now
  | _ => none

/-- The plan of a store that is alone: both reads see the same jobs. -/
def Op.plan? (host : Host) (now : Instant) (op : Op) : Option (List AgentCronJob → Except String Plan) :=
  (op.planFrom host now).map fun plan jobs => plan jobs jobs

/-- The world after an operation. -/
def Op.run (host : Host) (now : Instant) (op : Op) (w : StoreWorld) : StoreWorld :=
  match op with
  | .claimDue dueAt ids => (Cron.claimDue host dueAt now ids w).2
  | .recordDispatchResult id outcome error => (Cron.recordDispatchResult host id now outcome error w).2
  | .recoverInterruptedDispatches => (Cron.recoverInterruptedDispatches now w).2
  | .recoverInterruptedDispatchesById ids => (Cron.recoverInterruptedDispatchesById ids now w).2
  | .registerSessionArtifact sessionId path => (Cron.registerSessionArtifact sessionId path w).2
  | .recoverSessionArtifact sessionId => (Cron.recoverSessionArtifact sessionId now w).2
  | op =>
    match op.plan? host now with
    | some plan => (runPlan plan w).2
    | none => w

/-- A schedule that `parseAgentCronSchedule` accepts at some time. -/
def Parsed (host : Host) (schedule : AgentCronSchedule) : Prop :=
  ∃ input now p, parseAgentCronSchedule host input now = .ok p ∧ p.schedule = schedule

/-- The states a store reaches from a start by operations that are allowed. -/
inductive ReachableFrom (host : Host) (Start : StoreWorld → Prop)
    (Allowed : Op → Instant → StoreWorld → Prop) : StoreWorld → Prop
  | start (w : StoreWorld) (h : Start w) : ReachableFrom host Start Allowed w
  | run {w : StoreWorld} (op : Op) (now : Instant) (h : ReachableFrom host Start Allowed w)
      (ha : Allowed op now w) : ReachableFrom host Start Allowed (op.run host now w)

/-- Files whose schedules have all been accepted. -/
def AllParsed (host : Host) (w : StoreWorld) : Prop :=
  ∀ path, ∀ job ∈ (w.files path).jobs, Parsed host job.schedule

/-- The states a store reaches from jobs whose schedules have been accepted. -/
abbrev Reachable (host : Host) : StoreWorld → Prop :=
  ReachableFrom host (AllParsed host) fun _ _ _ => True

end Cron
end RePrime
