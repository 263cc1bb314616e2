import RePrime.Cron.Status
import RePrime.Cron.Touches

/-!
# RePrime.Cron.Rivals

Two stores on the same files. Each operation reads the files one by one, without a lock, and writes
later, under the locks of the files; claims, results and recoveries hold the locks throughout.

* `Rivals.step`: one read, one write or one locked operation of either store.
* `Prevails`: a file keeps its copy of a job when another copy is written.
* `rivals_keep_jobs`: in a run whose writes are all `Safe`, a job stays as it is until an operation is
  on that job, and a cancelled job stays cancelled.
-/

namespace RePrime
namespace Cron

open Fallible List
open OrderedMap

/-! ## Two stores -/

/-- An operation that has not written yet: what it has read, and the files it has still to read. -/
structure Pending where
  op : Op
  now : Instant
  firstPaths : List String
  first : List AgentCronJob
  paths : List String
  jobs : List AgentCronJob

def Pending.begin (op : Op) (now : Instant) (mode : StoreMode) : Pending where
  op := op
  now := now
  firstPaths := if op.heartbeatOf.isSome then mode.paths else []
  first := []
  paths := mode.paths
  jobs := []

/-- One file of the first read, or else one of the second. -/
def Pending.read (files : String → CronJobsState) (p : Pending) : Pending :=
  match p.firstPaths with
  | path :: rest => { p with firstPaths := rest, first := p.first ++ (files path).jobs }
  | [] =>
    match p.paths with
    | path :: rest => { p with paths := rest, jobs := p.jobs ++ (files path).jobs }
    | [] => p

def Pending.ready (p : Pending) : Bool := p.firstPaths.isEmpty && p.paths.isEmpty

def Pending.plan (host : Host) (p : Pending) : Except String Plan :=
  match p.op.planFrom host p.now with
  | some plan => plan p.first p.jobs
  | none => .ok { write := none, answer := [] }

structure Instance where
  mode : StoreMode
  pending : Option Pending

inductive Side where
  | left | right
  deriving DecidableEq, Repr

structure Rivals where
  files : String → CronJobsState
  instances : Side → Instance

open Rivals

/-- The files as one of the stores sees them. -/
def Rivals.world (σ : Rivals) (side : Side) : StoreWorld where
  mode := (σ.instances side).mode
  files := σ.files

/-- The files and the mode are those of a world, and a store goes on with an operation, or none. -/
def Rivals.after (σ : Rivals) (side : Side) (w : StoreWorld) (pending : Option Pending) : Rivals where
  files := w.files
  instances := fun s => if s = side then { mode := w.mode, pending } else σ.instances s

inductive Act where
  | start (side : Side) (op : Op) (now : Instant)
  | read (side : Side)
  | commit (side : Side)
  | locked (side : Side) (op : Op) (now : Instant)

def Rivals.step (host : Host) (σ : Rivals) : Act → Rivals
  | .start side op now =>
    match (σ.instances side).pending, op.planFrom host now with
    | none, some _ =>
      σ.after side (σ.world side) (some (.begin op now (σ.instances side).mode))
    | _, _ => σ
  | .read side =>
    match (σ.instances side).pending with
    | some p => σ.after side (σ.world side) (some (p.read σ.files))
    | none => σ
  | .commit side =>
    match (σ.instances side).pending with
    | some p =>
      if p.ready then σ.after side (runPlan (fun _ => p.plan host) (σ.world side)).2 none else σ
    | none => σ
  | .locked side op now =>
    match (σ.instances side).pending, op.planFrom host now with
    | none, none => σ.after side (op.run host now (σ.world side)) none
    | _, _ => σ

def Rivals.run (host : Host) (σ : Rivals) (acts : List Act) : Rivals := acts.foldl (step host) σ

theorem Rivals.run_append (host : Host) (σ : Rivals) (before later : List Act) :
    σ.run host (before ++ later) = (σ.run host before).run host later := foldl_append

/-! ## Which jobs a step is on -/

/-- The dispatches that an operation ends. -/
def Op.ends : Op → AgentCronDispatchRecord → Bool
  | .recordDispatchResult id _ _, d => d.id = id
  | .recoverInterruptedDispatches, _ => true
  | .recoverInterruptedDispatchesById ids, d => decide (d.id ∈ ids)
  | .recoverSessionArtifact _, _ => true
  | _, _ => false

/-- The active jobs of a file that a locked operation is on: those due, or those whose dispatch ends. -/
def Op.isOn (op : Op) (state : CronJobsState) (job : AgentCronJob) : Bool :=
  decide (job.status = .active) &&
    match op with
    | .claimDue dueAt _ => isDueJob job dueAt
    | op => state.dispatches.any fun d => op.ends d && d.jobId = job.id

/-- A store has read the files, and hands these jobs to `writeJobs`. -/
structure Rivals.Writing (host : Host) (σ : Rivals) (side : Side) (p : Pending) (l : List AgentCronJob) :
    Prop where
  pending : (σ.instances side).pending = some p
  ready : p.ready = true
  plan : ∃ plan, p.plan host = .ok plan ∧ plan.write = some l

/-- A write is on the jobs it has edited or created, a locked operation on those it picks. -/
def Rivals.IsOn (host : Host) (σ : Rivals) (id : String) : Act → Prop
  | .start _ _ _ => False
  | .read _ => False
  | .commit side => ∃ p l, σ.Writing host side p l ∧ ∃ job ∈ l, job.id = id ∧ job ∉ p.jobs
  | .locked side op _ => (σ.instances side).pending = none ∧
      ∃ path ∈ (σ.instances side).mode.paths, ∃ job ∈ (σ.files path).jobs,
        job.id = id ∧ op.isOn (σ.files path) job = true

/-- No step of a run is on a job. -/
def Rivals.Untouched (host : Host) (id : String) : Rivals → List Act → Prop
  | _, [] => True
  | σ, act :: acts => ¬ σ.IsOn host id act ∧ Rivals.Untouched host id (σ.step host act) acts

/-! ## When a write is safe -/

/-- Some file has a job with the id. -/
def Known (files : String → CronJobsState) (id : String) : Prop :=
  ∃ path, id ∈ ids (files path).jobs

/-- A job that is cancelled wherever it is. -/
def Cancelled (files : String → CronJobsState) (id : String) : Prop :=
  Known files id ∧ ∀ path, ∀ job ∈ (files path).jobs, job.id = id → job.status = .cancelled

/-- The file that a job of a session is written to. -/
def StoreMode.fileOf : StoreMode → String → Option String
  | .file path, _ => some path
  | .sessionArtifacts files, sessionId => files.get? sessionId

/-- A copy of a job that is written to the file the job is in, and that is equal or older there. -/
def Prevails (w : StoreWorld) (copy : AgentCronJob) : Prop :=
  ∀ path, ∀ job ∈ (w.files path).jobs, job.id = copy.id → w.mode.fileOf copy.sessionId = some path ∧
      (copy = job ∨ copy.updatedAt.time < job.updatedAt.time)

/-- The operation edits what was cancelled when it was read, and is not the heartbeat it has found. -/
def ReadCancelled (p : Pending) (id : String) : Prop :=
  (∀ job ∈ p.jobs, job.id = id → job.status = .cancelled) ∧
    ∀ s current, p.op.heartbeatOf = some s → getHeartbeat s p.first = some current → current.id ≠ id

/-- The operation edits what was cancelled later. -/
def Outdated (w : StoreWorld) (p : Pending) (id : String) : Prop :=
  ∀ copy ∈ p.jobs, copy.id = id → ∀ path, ∀ job ∈ (w.files path).jobs, job.id = id →
    w.mode.fileOf copy.sessionId = some path ∧ w.mode.fileOf (p.op.sessionOf copy) = some path ∧
      copy.updatedAt.time < job.updatedAt.time ∧
      (p.op.stamp p.now copy).time < job.updatedAt.time

/-- What a write needs of the files as they are at that time. -/
structure SafeWrite (host : Host) (σ : Rivals) (side : Side) (p : Pending) : Prop where
  /-- the jobs that were read and not edited -/
  rest : ∀ job ∈ p.jobs, ¬ σ.IsOn host job.id (.commit side) → Prevails (σ.world side) job
  /-- those that were edited, and have been cancelled -/
  edited : ∀ id, σ.IsOn host id (.commit side) → Cancelled σ.files id →
    ReadCancelled p id ∨ (p.op.cancels = true ∧ UniqueIds p.jobs) ∨ Outdated (σ.world side) p id
  /-- the id of a new job -/
  created : ∀ id, p.op.newId = some id → ¬ Cancelled σ.files id

/-- No session gets the file of another. -/
def SafeRegistration (mode : StoreMode) (op : Op) : Prop :=
  ∀ sessionId path, op = .registerSessionArtifact sessionId path →
    ∀ files, mode = .sessionArtifacts files → ∀ f ∈ files.entries, f.2 = path → f.1 = sessionId

def Rivals.Safe (host : Host) (σ : Rivals) : Act → Prop
  | .commit side => ∀ p l, σ.Writing host side p l → SafeWrite host σ side p
  | .locked side op _ => SafeRegistration (σ.instances side).mode op
  | _ => True

def Rivals.SafeRun (host : Host) : Rivals → List Act → Prop
  | _, [] => True
  | σ, act :: acts => σ.Safe host act ∧ Rivals.SafeRun host (σ.step host act) acts

/-- No file has a job twice, and no store a file for two sessions. -/
structure Rivals.WellFormed (σ : Rivals) : Prop where
  unique : ∀ path, UniqueIds (σ.files path).jobs
  paths : ∀ side, (σ.instances side).mode.paths.Nodup

/-! ## What a merge keeps -/

variable {job : AgentCronJob}

theorem get?_mergeFreshJob {m : OrderedMap String AgentCronJob} {copy : AgentCronJob}
    (hget : m.get? job.id = some job)
    (h : copy.id = job.id → copy = job ∨ copy.updatedAt.time < job.updatedAt.time) :
    (mergeFreshJob m copy).get? job.id = some job := by
  by_cases hid : copy.id = job.id
  · unfold mergeFreshJob
    rw [hid]
    simp only [hget]
    split
    · rename_i hfresh
      obtain rfl | hlt := h hid
      · rw [get?_set, if_pos rfl]
      · have hle : job.updatedAt.time ≤ copy.updatedAt.time := of_decide_eq_true hfresh
        omega
    · exact hget
  · have hset : (m.set copy.id copy).get? job.id = some job := by
      rw [get?_set, if_neg (Ne.symm hid)]
      exact hget
    unfold mergeFreshJob
    split
    · exact hset
    · split
      · exact hset
      · exact hget

variable {currentJobs nextJobs : List AgentCronJob}

theorem mem_mergeFreshJobs_iff : job ∈ mergeFreshJobs currentJobs nextJobs ↔
      (nextJobs.foldl mergeFreshJob (jobsById currentJobs)).get? job.id = some job := by
  constructor
  · intro h
    obtain ⟨e, he, rfl⟩ := mem_map.1 h
    refine get?_of_mem_entries ?_
    rw [← mergeFreshJobs_keyed currentJobs nextJobs e he]
    exact he
  · intro h
    exact mem_map.2 ⟨_, mem_entries_of_get? h, rfl⟩

/-- A merge keeps a job when the copies it brings are equal to it, or older. -/
theorem mem_mergeFreshJobs_of_prevails (hu : UniqueIds currentJobs) (hj : job ∈ currentJobs)
    (h : ∀ copy ∈ nextJobs, copy.id = job.id → copy = job ∨ copy.updatedAt.time < job.updatedAt.time) :
    job ∈ mergeFreshJobs currentJobs nextJobs := by
  rw [mem_mergeFreshJobs_iff]
  induction nextJobs using reverseRecOn with
  | nil => exact jobsById_get? hu hj
  | append_singleton rest copy ih =>
    rw [foldl_append]
    exact get?_mergeFreshJob (ih fun c hc => h c (mem_append_left _ hc))
      (h copy (mem_append_right _ (mem_singleton_self copy)))

/-- A merge leaves the jobs with an id as they are when the copies it brings are equal, or older. -/
theorem mergeFreshJobs_prevails {id : String} (hu : UniqueIds currentJobs)
    (h : ∀ copy ∈ nextJobs, copy.id = id → ∃ job ∈ currentJobs, job.id = id ∧
      (copy = job ∨ copy.updatedAt.time < job.updatedAt.time)) (hid : job.id = id) :
    job ∈ mergeFreshJobs currentJobs nextJobs ↔ job ∈ currentJobs := by
  have hkeep : ∀ kept ∈ currentJobs, kept.id = id → kept ∈ mergeFreshJobs currentJobs nextJobs := by
    intro kept hk hkid
    refine mem_mergeFreshJobs_of_prevails hu hk fun copy hc hcid => ?_
    obtain ⟨job', hj', hid', hcase⟩ := h copy hc (hcid.trans hkid)
    rwa [hu.eq hj' hk (hid'.trans hkid.symm)] at hcase
  constructor
  · intro hmem
    obtain hc | hn := mem_mergeFreshJobs hmem
    · exact hc
    · obtain ⟨kept, hk, hkid, -⟩ := h job hn hid
      rwa [← (mergeFreshJobs_unique currentJobs nextJobs).eq (hkeep kept hk hkid) hmem
        (hkid.trans hid.symm)]
  · intro hj
    exact hkeep job hj hid

/-! ## What a write keeps -/

section

variable {w : StoreWorld} {plan : List AgentCronJob → Except String Plan} {id : String}

theorem fileOf_inj {mode : StoreMode} (hn : mode.paths.Nodup) {files : OrderedMap String String}
    (hm : mode = .sessionArtifacts files) {f : String × String} (hf : f ∈ files.entries)
    {sessionId : String} (h : mode.fileOf sessionId = some f.2) : sessionId = f.1 := by
  rw [hm] at hn h
  exact congrArg Prod.fst (inj_on_of_nodup_map hn (mem_entries_of_get? h) hf rfl)

theorem mergedSessionJobs_prevails {files : OrderedMap String String} {l : List AgentCronJob}
    (hm : w.mode = .sessionArtifacts files) (hn : w.mode.paths.Nodup)
    (hu : ∀ path, UniqueIds (w.files path).jobs) (hk : Known w.files id)
    (h : ∀ copy ∈ l, copy.id = id → Prevails w copy) {f : String × String} (hf : f ∈ files.entries)
    {job : AgentCronJob} (hid : job.id = id) :
    job ∈ mergedSessionJobs (w.files f.2) l f.1 ↔ job ∈ (w.files f.2).jobs := by
  have hsame : ∀ kept ∈ (w.files f.2).jobs, kept.id = id → ∀ copy ∈ l, copy.id = id →
      copy.sessionId = f.1 := by
    intro kept hkept hkid copy hc hcid
    exact fileOf_inj hn hm hf (h copy hc hcid f.2 kept hkept (hkid.trans hcid.symm)).1
  unfold mergedSessionJobs
  dsimp only
  generalize hr : filter _ (w.files f.2).jobs = retained
  have hsub : retained.Sublist (w.files f.2).jobs := hr ▸ filter_sublist
  have hretained : ∀ kept ∈ (w.files f.2).jobs, kept.id = id → kept ∈ retained := by
    intro kept hkept hkid
    rw [← hr]
    refine mem_filter.2 ⟨hkept, ?_⟩
    cases hg : (jobsById l).get? kept.id with
    | none => simp only
    | some incoming =>
      obtain ⟨copy, hc, he⟩ := mem_map.1 (mem_of_get?_ofList hg)
      obtain ⟨hcid, rfl⟩ := Prod.mk.inj he
      exact decide_eq_true (hsame kept hkept hkid copy hc (hcid.trans hkid))
  refine (mergeFreshJobs_prevails ((hu f.2).sublist (hsub.map AgentCronJob.id)) ?_ hid).trans ?_
  · intro copy hc hcid
    obtain ⟨hc, hs⟩ := mem_filter.1 hc
    obtain ⟨path, hpath⟩ := hk
    obtain ⟨kept, hkept, hkid⟩ := mem_map.1 hpath
    obtain ⟨hfile, hcase⟩ := h copy hc hcid path kept hkept (hkid.trans hcid.symm)
    have hp : path = f.2 := by
      rw [of_decide_eq_true hs, hm] at hfile
      exact Option.some.inj (hfile.symm.trans (get?_of_mem_entries hf))
    rw [hp] at hkept
    exact ⟨kept, hretained kept hkept hkid, hkid, hcase⟩
  · exact ⟨fun hj => hsub.subset hj, fun hj => hretained job hj hid⟩

/-- A write leaves the jobs with an id as they are when the copies it brings do not prevail. -/
theorem runPlan_prevails (hu : ∀ path, UniqueIds (w.files path).jobs) (hn : w.mode.paths.Nodup)
    (hk : Known w.files id) (h : ∀ p l, plan (readJobs w) = .ok p → p.write = some l → ∀ copy ∈ l, copy.id = id →
      Prevails w copy) (path : String) {job : AgentCronJob} (hid : job.id = id) :
    job ∈ ((runPlan plan w).2.files path).jobs ↔ job ∈ (w.files path).jobs := by
  obtain hw | ⟨p, l, hp, hl, ⟨path', hm, hw⟩ | ⟨files, hm, -, hw⟩⟩ := runPlan_cases plan w
  · rw [hw]
  · rw [hw, writeJobsFile_files]
    split
    · rename_i hpath
      rw [hpath]
      refine mergeFreshJobs_prevails (hu path') ?_ hid
      intro copy hc hcid
      obtain ⟨q, hq⟩ := hk
      obtain ⟨kept, hkept, hkid⟩ := mem_map.1 hq
      obtain ⟨hfile, hcase⟩ := h p l hp hl copy hc hcid q kept hkept (hkid.trans hcid.symm)
      rw [hm] at hfile
      rw [← Option.some.inj hfile] at hkept
      exact ⟨kept, hkept, hkid, hcase⟩
    · rfl
  · rw [hw, writeSessionArtifacts_eq]
    by_cases hpath : path ∈ files.entries.map Prod.snd
    · obtain ⟨f, hf, rfl, hs⟩ := @putAll_files_of_mem _ (mergedState files l w) _ hpath w
      rw [hs]
      exact mergedSessionJobs_prevails hm hn hu hk (h p l hp hl) hf hid
    · rw [putAll_files_of_not_mem hpath]

theorem runPlan_mode : (runPlan plan w).2.mode = w.mode := by
  obtain hw | ⟨p, l, -, -, ⟨path, -, hw⟩ | ⟨files, -, -, hw⟩⟩ := runPlan_cases plan w
  · rw [hw]
  · rw [hw]
    rfl
  · rw [hw, writeSessionArtifacts_eq, putAll_mode]

theorem runPlan_unique (hu : ∀ path, UniqueIds (w.files path).jobs) (path : String) :
    UniqueIds ((runPlan plan w).2.files path).jobs := by
  obtain hw | ⟨p, l, -, -, ⟨path', -, hw⟩ | ⟨files, -, -, hw⟩⟩ := runPlan_cases plan w
  · rw [hw]
    exact hu path
  · rw [hw, writeJobsFile_files]
    split
    · exact mergeFreshJobs_unique _ _
    · exact hu path
  · rw [hw, writeSessionArtifacts_eq]
    by_cases hpath : path ∈ files.entries.map Prod.snd
    · obtain ⟨f, -, -, hs⟩ := @putAll_files_of_mem _ (mergedState files l w) _ hpath w
      rw [hs]
      exact mergeFreshJobs_unique _ _
    · rw [putAll_files_of_not_mem hpath]
      exact hu path

theorem runPlan_known (hn : w.mode.paths.Nodup) (hk : Known w.files id) : Known (runPlan plan w).2.files id := by
  obtain ⟨path, hid⟩ := hk
  obtain hw | ⟨p, l, -, -, ⟨path', -, hw⟩ | ⟨files, hm, hreg, hw⟩⟩ := runPlan_cases plan w
  · rw [hw]
    exact ⟨path, hid⟩
  · refine ⟨path, ?_⟩
    rw [hw, writeJobsFile_files]
    split
    · rename_i hpath
      rw [hpath] at hid
      exact mem_ids_mergeFreshJobs.2 (.inl hid)
    · exact hid
  · rw [hw, writeSessionArtifacts_eq]
    have hfile : ∀ f ∈ files.entries, id ∈ ids (mergedSessionJobs (w.files f.2) l f.1) →
        Known (putAll (mergedState files l w) files.entries w).files id := by
      intro f hf hmem
      refine ⟨f.2, ?_⟩
      obtain ⟨f', hf', hp, hs⟩ := @putAll_files_of_mem _ (mergedState files l w) _
        (mem_map_of_mem (f := Prod.snd) hf) w
      rw [hm] at hn
      rw [hs, inj_on_of_nodup_map hn hf' hf hp]
      exact hmem
    by_cases hl : id ∈ ids l
    · obtain ⟨incoming, hi, rfl⟩ := mem_map.1 hl
      obtain ⟨target, ht⟩ := has_iff_get?.1 (hreg incoming hi)
      exact hfile _ (mem_entries_of_get? ht)
        (mem_ids_mergedSessionJobs (.inr ⟨incoming, hi, rfl, rfl⟩))
    · by_cases hpath : path ∈ files.entries.map Prod.snd
      · obtain ⟨f, hf, rfl⟩ := mem_map.1 hpath
        exact hfile f hf (mem_ids_mergedSessionJobs (.inl ⟨hid, hl⟩))
      · refine ⟨path, ?_⟩
        rw [putAll_files_of_not_mem hpath]
        exact hid

end

/-! ## Locked operations -/

section

variable {host : Host} {now : Instant} {op : Op} {w : StoreWorld}

/-- A job before and after a locked operation. -/
def StaysOr (on : AgentCronJob → Prop) (job job' : AgentCronJob) : Prop :=
  job'.id = job.id ∧ (job' = job ∨ on job)

theorem forall₂_staysOr_refl (on : AgentCronJob → Prop) (jobs : List AgentCronJob) :
    List.Forall₂ (StaysOr on) jobs jobs := forall₂_same.2 fun _ _ => ⟨rfl, .inl rfl⟩

theorem isOn_of_ends {state : CronJobsState} {job : AgentCronJob} (hactive : job.status = .active)
    {d : AgentCronDispatchRecord} (hd : d ∈ state.dispatches) (he : op.ends d = true)
    (hid : d.jobId = job.id) : op.isOn state job = true := by
  have hany : (state.dispatches.any fun d => op.ends d && d.jobId = job.id) = true :=
    any_eq_true.2 ⟨d, hd, by simp [he, hid]⟩
  unfold Op.isOn
  cases op with
  | claimDue dueAt ids => cases he
  | _ => simp [hactive, hany]

theorem Ends.staysOr {zone : Zone} {skips : Prop} {ended : AgentCronDispatchRecord → Bool}
    {jobIds : List String} {s s' : CronJobsState} (h : Ends zone now skips ended jobIds s s')
    (hids : ∀ jobId ∈ jobIds, ∃ d ∈ s.dispatches, op.ends d = true ∧ d.jobId = jobId) :
    List.Forall₂ (StaysOr fun job => op.isOn s job = true) s.jobs s'.jobs := by
  refine h.jobs.imp fun job job' hf => ⟨hf.id, ?_⟩
  obtain ⟨-, rfl⟩ | ⟨hid, hactive, -⟩ := hf
  · exact .inl rfl
  · obtain ⟨d, hd, he, hjob⟩ := hids job.id hid
    exact .inr (isOn_of_ends hactive hd he hjob)

theorem recoverInterruptedInState_staysOr (zone : Zone)
    {isInterrupted : AgentCronDispatchRecord → Bool} {s : CronJobsState} {r : CronJobsState × List AgentCronJob}
    (hends : ∀ d, isInterrupted d = true → op.ends d = true)
    (h : recoverInterruptedInState isInterrupted now s = .ok r) :
    List.Forall₂ (StaysOr fun job => op.isOn s job = true) s.jobs r.1.jobs := by
  obtain hs | he := @recoverInterruptedInState_ends zone now s r isInterrupted h
  · rw [hs]
    exact forall₂_staysOr_refl _ _
  · refine he.staysOr fun jobId hj => ?_
    obtain ⟨d, hd, rfl⟩ := mem_map.1 hj
    obtain ⟨hd, hi⟩ := mem_filter.1 hd
    exact ⟨d, hd, hends d hi, rfl⟩

theorem mutatePaths_staysOr {α : Type}
    {mutator : String → CronJobsState → Except String (CronJobsState × List α)} {paths : List String}
    (hsub : paths ⊆ w.mode.paths) (hn : paths.Nodup) (h : ∀ path s r, mutator path s = .ok r →
      List.Forall₂ (StaysOr fun job => op.isOn s job = true) s.jobs r.1.jobs) (path : String) :
    List.Forall₂ (StaysOr fun job => path ∈ w.mode.paths ∧ op.isOn (w.files path) job = true)
      (w.files path).jobs ((mutatePaths mutator paths w).2.files path).jobs := by
  obtain hw | ⟨hp, r, hr, hw⟩ := mutatePaths_once hn w path
  · rw [hw]
    exact forall₂_staysOr_refl _ _
  · rw [hw]
    exact (h path _ r hr).imp fun job job' hs => ⟨hs.1, hs.2.imp_right fun ho => ⟨hsub hp, ho⟩⟩

theorem locked_staysOr (hop : op.planFrom host now = none) (hn : w.mode.paths.Nodup) (path : String) :
    List.Forall₂ (StaysOr fun job => path ∈ w.mode.paths ∧ op.isOn (w.files path) job = true)
      (w.files path).jobs ((op.run host now w).files path).jobs := by
  cases op with
  | claimDue dueAt ids =>
    refine mutatePaths_staysOr (fun _ h => h) hn (fun path s r hr => ?_) path
    obtain ⟨c, hc, rfl⟩ := claimDueInState_ok.1 hr
    refine (claimJobs_forall₂ hc).imp ?_
    rintro job job' ⟨id, claimed, hp, -⟩
    refine ⟨hp.id, ?_⟩
    obtain ⟨-, rfl, -⟩ | ⟨hdue, -⟩ := hp
    · exact .inl rfl
    · exact .inr (by simp [Op.isOn, isDueJob_active hdue, hdue])
  | recordDispatchResult id outcome error =>
    refine mutatePaths_staysOr (fun _ h => h) hn (fun path s r hr => ?_) path
    obtain hs | ⟨d, hd, hid, he⟩ := recordDispatchInState_ends hr
    · rw [hs]
      exact forall₂_staysOr_refl _ _
    · refine he.staysOr fun jobId hj => ⟨d, hd, ?_, (mem_singleton.1 hj).symm⟩
      exact decide_eq_true hid
  | recoverInterruptedDispatches =>
    refine mutatePaths_staysOr (fun _ h => h) hn (fun path s r hr => ?_) path
    exact recoverInterruptedInState_staysOr host.zone (fun d _ => rfl) hr
  | recoverInterruptedDispatchesById ids =>
    refine mutatePaths_staysOr (fun _ h => h) hn (fun path s r hr => ?_) path
    exact recoverInterruptedInState_staysOr host.zone (fun d hd => hd) hr
  | registerSessionArtifact sessionId path' =>
    show List.Forall₂ _ _ ((registerSessionArtifact sessionId path' w).2.files path).jobs
    rw [registerSessionArtifact_files]
    exact forall₂_staysOr_refl _ _
  | recoverSessionArtifact sessionId =>
    show List.Forall₂ _ _ ((recoverSessionArtifact sessionId now w).2.files path).jobs
    unfold recoverSessionArtifact
    split
    · exact forall₂_staysOr_refl _ _
    · rename_i files hm
      split
      · exact forall₂_staysOr_refl _ _
      · rename_i path' hget
        refine mutatePaths_staysOr ?_ (nodup_singleton path') (fun path s r hr => ?_) path
        · intro p hp
          rw [mem_singleton.1 hp, hm]
          exact mem_map_of_mem (f := Prod.snd) (mem_entries_of_get? hget)
        · exact recoverInterruptedInState_staysOr host.zone (fun d _ => rfl) hr
  | _ => cases hop

theorem locked_paths (hop : op.planFrom host now = none) (hsafe : SafeRegistration w.mode op)
    (hn : w.mode.paths.Nodup) : (op.run host now w).mode.paths.Nodup := by
  have hmutate : ∀ {α : Type}
      (mutator : String → CronJobsState → Except String (CronJobsState × List α)) (paths : List String),
      (mutatePaths mutator paths w).2.mode.paths.Nodup := by
    intro α mutator paths
    rwa [mutatePaths_mode]
  cases op with
  | claimDue | recordDispatchResult | recoverInterruptedDispatches | recoverInterruptedDispatchesById =>
    exact hmutate _ _
  | registerSessionArtifact sessionId path =>
    exact registerSessionArtifact_paths hn (hsafe sessionId path rfl)
  | recoverSessionArtifact sessionId =>
    show (recoverSessionArtifact sessionId now w).2.mode.paths.Nodup
    unfold recoverSessionArtifact
    split
    · exact hn
    · split
      · exact hn
      · exact hmutate _ _
  | _ => cases hop

end

/-! ## One step -/

/-- The jobs with an id are the same, in the same files. -/
def Keeps (id : String) (files files' : String → CronJobsState) : Prop :=
  ∀ path job, job.id = id → (job ∈ (files' path).jobs ↔ job ∈ (files path).jobs)

section

variable {id : String} {files files' : String → CronJobsState}

theorem Keeps.refl (id : String) (files : String → CronJobsState) : Keeps id files files :=
  fun _ _ _ => Iff.rfl

theorem Keeps.trans {files'' : String → CronJobsState} (h : Keeps id files files')
    (h' : Keeps id files' files'') : Keeps id files files'' :=
  fun path job hid => (h' path job hid).trans (h path job hid)

theorem Keeps.known (h : Keeps id files files') (hk : Known files id) : Known files' id := by
  obtain ⟨path, hid⟩ := hk
  obtain ⟨job, hj, hjid⟩ := mem_map.1 hid
  exact ⟨path, mem_map.2 ⟨job, (h path job hjid).2 hj, hjid⟩⟩

theorem Keeps.cancelled (h : Keeps id files files') (hc : Cancelled files id) : Cancelled files' id :=
  ⟨h.known hc.1, fun path job hj hid => hc.2 path job ((h path job hid).1 hj) hid⟩

theorem Keeps.of_staysOr {on : String → AgentCronJob → Prop}
    (h : ∀ path, List.Forall₂ (StaysOr (on path)) (files path).jobs (files' path).jobs)
    (hon : ∀ path, ∀ job ∈ (files path).jobs, job.id = id → ¬ on path job) : Keeps id files files' := by
  intro path job hid
  constructor
  · intro hj
    obtain ⟨job₀, hj₀, hid₀, hcase⟩ := exists_of_forall₂ (h path).flip hj
    obtain rfl := hcase.resolve_right (hon path job₀ hj₀ (hid₀.symm.trans hid))
    exact hj₀
  · intro hj
    obtain ⟨job₁, hj₁, -, hcase⟩ := exists_of_forall₂ (h path) hj
    obtain rfl := hcase.resolve_right (hon path job hj hid)
    exact hj₁

end

section

variable {host : Host} {σ : Rivals} {side : Side} {p : Pending} {l : List AgentCronJob} {id : String}

@[simp] theorem after_files (w : StoreWorld) (pending : Option Pending) :
    (σ.after side w pending).files = w.files := rfl

theorem Rivals.WellFormed.after (hw : σ.WellFormed) {w : StoreWorld} (pending : Option Pending)
    (hu : ∀ path, UniqueIds (w.files path).jobs) (hn : w.mode.paths.Nodup) :
    (σ.after side w pending).WellFormed := by
  refine ⟨hu, fun s => ?_⟩
  unfold Rivals.after
  simp only []
  split
  · exact hn
  · exact hw.paths s

/-- What a step does: nothing, a read, a write or a locked operation. -/
inductive Stepped (host : Host) (σ : Rivals) : Act → Rivals → Prop where
  | idle (act : Act) : Stepped host σ act σ
  | reads (act : Act) (side : Side) (pending : Option Pending) :
      Stepped host σ act (σ.after side (σ.world side) pending)
  | writes (side : Side) (p : Pending) (hp : (σ.instances side).pending = some p)
      (hr : p.ready = true) :
      Stepped host σ (.commit side)
        (σ.after side (runPlan (fun _ => p.plan host) (σ.world side)).2 none)
  | locked (side : Side) (op : Op) (now : Instant) (hp : (σ.instances side).pending = none)
      (hop : op.planFrom host now = none) :
      Stepped host σ (.locked side op now) (σ.after side (op.run host now (σ.world side)) none)

theorem Rivals.stepped (host : Host) (σ : Rivals) (act : Act) : Stepped host σ act (σ.step host act) := by
  cases act with
  | start side op now =>
    simp only [step]
    split
    · exact .reads _ side _
    · exact .idle _
  | read side =>
    simp only [step]
    split
    · exact .reads _ side _
    · exact .idle _
  | commit side =>
    simp only [step]
    split
    · rename_i p hp
      split
      · rename_i hr
        exact .writes side p hp hr
      · exact .idle _
    · exact .idle _
  | locked side op now =>
    simp only [step]
    split
    · rename_i hp hop
      exact .locked side op now hp hop
    · exact .idle _

variable {act : Act}

theorem Rivals.step_wellFormed (hw : σ.WellFormed) (hs : σ.Safe host act) : (σ.step host act).WellFormed := by
  have hstep := σ.stepped host act
  generalize σ.step host act = τ at hstep ⊢
  cases hstep with
  | idle => exact hw
  | reads _ side pending => exact hw.after pending hw.unique (hw.paths side)
  | writes side p _ _ =>
    refine hw.after none (runPlan_unique (w := σ.world side) hw.unique) ?_
    rw [runPlan_mode]
    exact hw.paths side
  | locked side op now _ hop =>
    refine hw.after none (fun path => ?_) (locked_paths hop hs (hw.paths side))
    have hids : ids ((op.run host now (σ.world side)).files path).jobs = ids (σ.files path).jobs :=
      ids_forall₂ (fun _ _ h => h.1) (locked_staysOr (w := σ.world side) hop (hw.paths side) path)
    show (ids _).Nodup
    rw [hids]
    exact hw.unique path

theorem Rivals.Writing.source (h : σ.Writing host side p l) :
    ∃ old, ∃ created : Option AgentCronJob, l = old ++ created.toList ∧
      List.Forall₂ (fun job job' => job'.id = job.id ∧ Touches p.op p.now p.first job job') p.jobs old ∧
      ∀ job ∈ created, p.op.newId = some job.id := by
  obtain ⟨plan, hplan, hl⟩ := h.plan
  unfold Pending.plan at hplan
  split at hplan
  · rename_i plan' hop
    exact planFrom_touches hop p.first p.jobs plan l hplan hl
  · cases hplan
    cases hl

theorem Rivals.Writing.eq {p' : Pending} {l' : List AgentCronJob} (h : σ.Writing host side p l)
    (h' : σ.Writing host side p' l') : p' = p ∧ l' = l := by
  obtain rfl := Option.some.inj (h'.pending.symm.trans h.pending)
  obtain ⟨plan, hp, hl⟩ := h.plan
  obtain ⟨plan', hp', hl'⟩ := h'.plan
  obtain rfl := Except.ok.inj (hp'.symm.trans hp)
  exact ⟨rfl, Option.some.inj (hl'.symm.trans hl)⟩

variable {copy : AgentCronJob}

theorem Rivals.Writing.read (h : σ.Writing host side p l) (hs : SafeWrite host σ side p)
    (hc : Cancelled σ.files id) (hcopy : copy ∈ l) (hid : copy.id = id) :
    ∃ job ∈ p.jobs, job.id = id ∧ Touches p.op p.now p.first job copy := by
  obtain ⟨old, created, rfl, hold, hcreated⟩ := h.source
  cases mem_append.1 hcopy with
  | inl ho =>
    obtain ⟨job, hj, hjid, ht⟩ := exists_of_forall₂ hold.flip ho
    exact ⟨job, hj, hjid.symm.trans hid, ht⟩
  | inr hn =>
    have hnew := hcreated copy (Option.mem_toList.1 hn)
    rw [hid] at hnew
    exact absurd hc (hs.created id hnew)

theorem Rivals.Writing.readCancelled (h : σ.Writing host side p l) (hs : SafeWrite host σ side p)
    (hc : Cancelled σ.files id) (hread : ReadCancelled p id) (hcopy : copy ∈ l)
    (hid : copy.id = id) : copy.status = .cancelled := by
  obtain ⟨job, hj, hjid, ht⟩ := h.read hs hc hcopy hid
  have hcancelled := hread.1 job hj hjid
  obtain rfl | ⟨-, -, -, hstatus⟩ := ht
  · exact hcancelled
  · refine (hstatus hcancelled).resolve_right ?_
    rintro ⟨s, current, hop, hcurrent, hcid⟩
    exact hread.2 s current hop hcurrent (hcid.trans hjid)

/-- An operation that cancels what it edits writes cancelled copies of the jobs it is on. -/
theorem Rivals.Writing.cancels (h : σ.Writing host side p l) (hs : SafeWrite host σ side p)
    (hc : Cancelled σ.files id) (hcancels : p.op.cancels = true) (hu : UniqueIds p.jobs)
    (hon : σ.IsOn host id (.commit side)) (hcopy : copy ∈ l) (hid : copy.id = id) : copy.status = .cancelled := by
  obtain ⟨p', l', hw, edited, he, heid, hnot⟩ := hon
  obtain ⟨rfl, rfl⟩ := h.eq hw
  have hsource := h.source
  obtain ⟨old, created, rfl, hold, hcreated⟩ := hsource
  have hmem : ∀ job ∈ old ++ created.toList, job.id = id → job ∈ old := by
    intro job hj hjid
    refine (mem_append.1 hj).resolve_right fun hn => ?_
    have hnew := hcreated job (Option.mem_toList.1 hn)
    rw [hjid] at hnew
    exact hs.created id hnew hc
  have hunique : UniqueIds old := by
    show (ids old).Nodup
    rw [ids_forall₂ (fun _ _ h => h.1) hold]
    exact hu
  obtain rfl := hunique.eq (hmem copy hcopy hid) (hmem edited he heid) (hid.trans heid.symm)
  obtain ⟨job, hj, -, ht⟩ := exists_of_forall₂ hold.flip (hmem copy hcopy hid)
  obtain rfl | ⟨-, -, hstatus, -⟩ := ht
  · exact absurd hj hnot
  · exact hstatus hcancels

/-- A copy of a job that was cancelled later does not prevail. -/
theorem Rivals.Writing.outdated (h : σ.Writing host side p l) (hs : SafeWrite host σ side p)
    (hc : Cancelled σ.files id) (hout : Outdated (σ.world side) p id)
    (hcopy : copy ∈ l) (hid : copy.id = id) : Prevails (σ.world side) copy := by
  obtain ⟨job, hj, hjid, ht⟩ := h.read hs hc hcopy hid
  intro path current hcurrent hcid
  obtain ⟨hfile, hfile', htime, htime'⟩ := hout job hj hjid path current hcurrent (hcid.trans hid)
  obtain rfl | ⟨hsession, hstamp, -⟩ := ht
  · exact ⟨hfile, .inr htime⟩
  · rw [hsession, hstamp]
    exact ⟨hfile', .inr htime'⟩

theorem Rivals.step_keeps (hw : σ.WellFormed) (hs : σ.Safe host act)
    (hk : Known σ.files id) (hon : ¬ σ.IsOn host id act) : Keeps id σ.files (σ.step host act).files := by
  have hstep := σ.stepped host act
  generalize σ.step host act = τ at hstep ⊢
  cases hstep with
  | idle | reads => exact .refl _ _
  | writes side p hp hr =>
    refine runPlan_prevails (w := σ.world side) hw.unique (hw.paths side) hk ?_
    intro plan l hplan hl copy hcopy hid
    have hwrites : σ.Writing host side p l := ⟨hp, hr, plan, hplan, hl⟩
    have hread : copy ∈ p.jobs := by
      by_contra hnot
      exact hon ⟨p, l, hwrites, copy, hcopy, hid, hnot⟩
    refine (hs p l hwrites).rest copy hread ?_
    rwa [hid]
  | locked side op now hp hop =>
    refine .of_staysOr (locked_staysOr (w := σ.world side) hop (hw.paths side)) ?_
    rintro path job hj hid ⟨hpath, hison⟩
    exact hon ⟨hp, path, hpath, job, hj, hid, hison⟩

theorem isOn_active {op : Op} {state : CronJobsState} {job : AgentCronJob}
    (h : op.isOn state job = true) : job.status = .active := by
  unfold Op.isOn at h
  exact of_decide_eq_true ((Bool.and_eq_true _ _).mp h).1

/-- A write whose copies of a cancelled job are all cancelled leaves it cancelled. -/
theorem runPlan_cancelled {w : StoreWorld} {plan : List AgentCronJob → Except String Plan}
    (hn : w.mode.paths.Nodup) (hc : Cancelled w.files id)
    (h : ∀ p l, plan (readJobs w) = .ok p → p.write = some l → ∀ copy ∈ l, copy.id = id →
      copy.status = .cancelled) : Cancelled (runPlan plan w).2.files id := by
  refine ⟨runPlan_known hn hc.1, fun path job hj hid => ?_⟩
  obtain ⟨path', hold⟩ | ⟨p, l, hp, hl, hnew⟩ := mem_runPlan hj
  · exact hc.2 path' job hold hid
  · exact h p l hp hl job hnew hid

/-- A safe step leaves a cancelled job cancelled, also one that it is on. -/
theorem Rivals.step_cancelled (hw : σ.WellFormed) (hs : σ.Safe host act)
    (hc : Cancelled σ.files id) : Cancelled (σ.step host act).files id := by
  by_cases hon : σ.IsOn host id act
  · have hstep := σ.stepped host act
    generalize σ.step host act = τ at hstep ⊢
    cases hstep with
    | idle | reads => exact hc
    | writes side p hp hr =>
      have hwriting := hon
      obtain ⟨p', l, hwrites, -⟩ := hwriting
      obtain rfl := Option.some.inj (hwrites.pending.symm.trans hp)
      have hsafe := hs p' l hwrites
      have hw' : ∀ plan l, p'.plan host = .ok plan → plan.write = some l →
          σ.Writing host side p' l := fun plan l hplan hl => ⟨hp, hr, plan, hplan, hl⟩
      obtain hread | ⟨hcancels, hu⟩ | hout := hsafe.edited id hon hc
      · refine runPlan_cancelled (w := σ.world side) (hw.paths side) hc ?_
        intro plan l hplan hl copy hcopy hid
        exact (hw' plan l hplan hl).readCancelled hsafe hc hread hcopy hid
      · refine runPlan_cancelled (w := σ.world side) (hw.paths side) hc ?_
        intro plan l hplan hl copy hcopy hid
        exact (hw' plan l hplan hl).cancels hsafe hc hcancels hu hon hcopy hid
      · refine @Keeps.cancelled _ σ.files _ ?_ hc
        refine runPlan_prevails (w := σ.world side) hw.unique (hw.paths side) hc.1 ?_
        intro plan l hplan hl copy hcopy hid
        exact (hw' plan l hplan hl).outdated hsafe hc hout hcopy hid
    | locked side op now hp hop =>
      refine Keeps.cancelled (.of_staysOr (locked_staysOr (w := σ.world side) hop (hw.paths side)) ?_) hc
      rintro path job hj hid ⟨-, hison⟩
      cases (isOn_active hison).symm.trans (hc.2 path job hj hid)
  · exact (step_keeps hw hs hc.1 hon).cancelled hc

/-! ## Runs -/

theorem Rivals.safeRun_append {before later : List Act} : σ.SafeRun host (before ++ later) ↔
      σ.SafeRun host before ∧ (σ.run host before).SafeRun host later := by
  induction before generalizing σ with
  | nil => simp [Rivals.SafeRun, run]
  | cons act before ih =>
    show σ.Safe host act ∧ Rivals.SafeRun host (σ.step host act) (before ++ later) ↔ _
    rw [ih]
    exact and_assoc.symm

variable {acts : List Act}

theorem Rivals.run_wellFormed (hw : σ.WellFormed) (hs : σ.SafeRun host acts) : (σ.run host acts).WellFormed := by
  induction acts generalizing σ with
  | nil => exact hw
  | cons act acts ih => exact ih (step_wellFormed hw hs.1) hs.2

theorem Rivals.run_keeps (hw : σ.WellFormed) (hs : σ.SafeRun host acts)
    (hk : Known σ.files id) (hon : Rivals.Untouched host id σ acts) : Keeps id σ.files (σ.run host acts).files := by
  induction acts generalizing σ with
  | nil => exact .refl _ _
  | cons act acts ih =>
    have hstep := step_keeps hw hs.1 hk hon.1
    exact hstep.trans (ih (step_wellFormed hw hs.1) hs.2 (hstep.known hk) hon.2)

theorem Rivals.run_cancelled (hw : σ.WellFormed) (hs : σ.SafeRun host acts)
    (hc : Cancelled σ.files id) : Cancelled (σ.run host acts).files id := by
  induction acts generalizing σ with
  | nil => exact hc
  | cons act acts ih =>
    exact ih (step_wellFormed hw hs.1) hs.2 (step_cancelled hw hs.1 hc)

end

/-- In a run of two stores whose writes are all safe, what the files hold of a job at some time they
hold later, unless an operation has been on that job, and a cancelled job stays cancelled. -/
theorem rivals_keep_jobs {host : Host} {σ : Rivals} (hw : σ.WellFormed) (before later : List Act)
    (hs : σ.SafeRun host (before ++ later)) (id : String) (hk : Known (σ.run host before).files id) :
    (Rivals.Untouched host id (σ.run host before) later →
      Keeps id (σ.run host before).files (σ.run host (before ++ later)).files) ∧
      (Cancelled (σ.run host before).files id → Cancelled (σ.run host (before ++ later)).files id) := by
  obtain ⟨hbefore, hlater⟩ := safeRun_append.1 hs
  have hw' := run_wellFormed hw hbefore
  rw [run_append]
  exact ⟨run_keeps hw' hlater hk, run_cancelled hw' hlater⟩

/-! ## Stale copies -/

/-- Two stores on one file. -/
def fileRivals (s : CronJobsState) : Rivals where
  files := (fileWorld s).files
  instances := fun _ => { mode := .file "jobs.json", pending := none }

/-- A heartbeat of a session of its own, every ten minutes. -/
def beat (id : String) : AgentCronJob :=
  { onceJob with
    id
    source := some .rlmHeartbeat
    activeSessionId := id
    sessionFile := id
    schedule := .interval "every 10m" 600000 }

def beats : CronJobsState := { jobs := [beat "j", beat "k"], dispatches := [] }

/-- One store starts an operation and reads the file some times, then the other runs one. -/
def raced (reads : Nat) (op : Op) (now : Instant) (other : Op) (otherNow : Instant) : List Act :=
  Act.start .right op now :: List.replicate reads (.read .right) ++
    [Act.start .left other otherNow, .read .left, .commit .left]

/-- The session of `k` moves to another folder. -/
def moved : RebindInput where
  activeSessionId := "k"
  sessionId := "s"
  sessionFile := "k"
  cwd := "/moved"

theorem fileRivals_wellFormed {s : CronJobsState} (h : UniqueIds s.jobs) : (fileRivals s).WellFormed where
  unique := by
    intro path
    show UniqueIds (if path = "jobs.json" then s else .empty).jobs
    split
    · exact h
    · exact nodup_nil
  paths := fun _ => nodup_singleton _

/-- Two stores on one file, and no jobs elsewhere. -/
structure Rivals.OneFile (σ : Rivals) (path : String) : Prop where
  mode : ∀ side, (σ.instances side).mode = .file path
  other : ∀ q, q ≠ path → (σ.files q).jobs = []

theorem fileRivals_oneFile (s : CronJobsState) : (fileRivals s).OneFile "jobs.json" where
  mode := fun _ => rfl
  other := by
    intro q hq
    show (if q = "jobs.json" then s else .empty).jobs = []
    rw [if_neg hq]
    rfl

variable {σ : Rivals} {path : String}

theorem Rivals.OneFile.after (h : σ.OneFile path) {side : Side}
    {w : StoreWorld} {pending : Option Pending} (hm : w.mode = .file path)
    (hother : ∀ q, q ≠ path → (w.files q).jobs = []) : (σ.after side w pending).OneFile path := by
  refine ⟨fun s => ?_, hother⟩
  unfold Rivals.after
  simp only []
  split
  · exact hm
  · exact h.mode s

variable {host : Host}

theorem Rivals.OneFile.step (h : σ.OneFile path) {act : Act}
    (hact : ∀ side op now, act ≠ .locked side op now) : (σ.step host act).OneFile path := by
  have hstep := σ.stepped host act
  generalize σ.step host act = τ at hstep ⊢
  cases hstep with
  | idle => exact h
  | reads _ side pending => exact h.after (h.mode side) h.other
  | writes side p hp hr =>
    refine h.after (runPlan_mode.trans (h.mode side)) fun q hq => ?_
    obtain hw | ⟨_, l, -, -, ⟨path', hm, hw⟩ | ⟨files, hm, -, -⟩⟩ :=
      runPlan_cases (fun _ => p.plan host) (σ.world side)
    · rw [hw]
      exact h.other q hq
    · obtain rfl := StoreMode.file.inj ((h.mode side).symm.trans hm)
      rw [hw, writeJobsFile_files, if_neg hq]
      exact h.other q hq
    · cases (h.mode side).symm.trans hm
  | locked side op now => exact absurd rfl (hact side op now)

theorem Rivals.OneFile.run {acts : List Act}
    (hacts : ∀ act ∈ acts, ∀ side op now, act ≠ .locked side op now) : ∀ {σ : Rivals},
    σ.OneFile path → (σ.run host acts).OneFile path := by
  induction acts with
  | nil =>
    intro σ h
    exact h
  | cons act acts ih =>
    intro σ h
    rw [forall_mem_cons] at hacts
    exact ih hacts.2 (h.step hacts.1)

/-- A write to one file is safe when nothing is cancelled, and each job that was read is edited, or is
equal to the one in the file, or older. -/
theorem safe_commit_file {side : Side} (p : Pending)
    (l answer : List AgentCronJob) (h : σ.OneFile path) (hp : (σ.instances side).pending = some p) (hr : p.ready = true)
    (hplan : p.plan host = .ok { write := some l, answer })
    (hactive : ∀ job ∈ (σ.files path).jobs, job.status ≠ .cancelled)
    (hrest : ∀ job ∈ p.jobs, (∃ edited ∈ l, edited.id = job.id ∧ edited ∉ p.jobs) ∨
      ∀ current ∈ (σ.files path).jobs, current.id = job.id →
        job = current ∨ job.updatedAt.time < current.updatedAt.time) :
    σ.Safe host (.commit side) := by
  intro p' l' hw
  have hwriting : σ.Writing host side p l := ⟨hp, hr, _, hplan, rfl⟩
  obtain ⟨rfl, rfl⟩ := hwriting.eq hw
  have hfile : ∀ q, ∀ job ∈ (σ.files q).jobs, q = path := by
    intro q job hj
    by_contra hq
    rw [h.other q hq] at hj
    cases hj
  have hnone : ∀ id, ¬ Cancelled σ.files id := by
    rintro id ⟨⟨q, hid⟩, hall⟩
    obtain ⟨job, hj, rfl⟩ := mem_map.1 hid
    have hc := hall q job hj rfl
    obtain rfl := hfile q job hj
    exact hactive job hj hc
  refine ⟨?_, fun id _ hc => absurd hc (hnone id), fun id _ => hnone id⟩
  intro job hj hon q current hcurrent hid
  obtain rfl := hfile q current hcurrent
  obtain ⟨edited, he, hedited⟩ | hcase := hrest job hj
  · exact absurd ⟨_, _, hw, edited, he, hedited⟩ hon
  · show (σ.instances side).mode.fileOf job.sessionId = some q ∧ _
    rw [h.mode side]
    exact ⟨rfl, hcase current hcurrent hid⟩

def pauses : RlmHeartbeatUpdate where
  label := none
  prompt := none
  scheduleText := none
  status := some .pause
  deliveryMode := none

/-- An update of a heartbeat that has read the jobs. -/
def pausing (id : String) (now : Instant) : Pending where
  op := .updateRlmHeartbeat id id pauses
  now := now
  firstPaths := []
  first := []
  paths := []
  jobs := beats.jobs

def pauseRace : List Act :=
  raced 1 (.updateRlmHeartbeat "j" "j" pauses) (atTime 2000) (.updateRlmHeartbeat "k" "k" pauses)
    (atTime 1000)

def pausedBeat (id : String) (now : Instant) : AgentCronJob := (beat id).stopped .paused now

theorem raced_plain (reads : Nat) (op other : Op) (now otherNow : Instant) :
    ∀ act ∈ raced reads op now other otherNow, ∀ side op now, act ≠ .locked side op now := by
  intro act hact side op' now' he
  subst he
  simp [raced] at hact

theorem pauseRace_safe : (fileRivals beats).SafeRun utcHost (pauseRace ++ [Act.commit .right]) := by
  have hone : ∀ n, ((fileRivals beats).run utcHost (pauseRace.take n)).OneFile "jobs.json" := by
    intro n
    refine Rivals.OneFile.run (fun act hact => ?_) (fileRivals_oneFile beats)
    exact raced_plain _ _ _ _ _ act (mem_of_mem_take hact)
  refine ⟨trivial, trivial, trivial, trivial, ?_, ?_, trivial⟩
  · exact safe_commit_file (pausing "k" (atTime 1000)) [beat "j", pausedBeat "k" (atTime 1000)]
      [pausedBeat "k" (atTime 1000)] (hone 4) rfl rfl (by decide) (by decide)
      (by decide)
  · exact safe_commit_file (pausing "j" (atTime 2000)) [pausedBeat "j" (atTime 2000), beat "k"]
      [pausedBeat "j" (atTime 2000)] (hone 5) rfl rfl (by decide) (by decide)
      (by decide)

/-- What one store has written of `k` is there after the other has written what it read before. -/
theorem rivals_keep_jobs_pauses : Keeps "k" ((fileRivals beats).run utcHost pauseRace).files
      ((fileRivals beats).run utcHost (pauseRace ++ [.commit .right])).files := by
  have hknown : Known ((fileRivals beats).run utcHost pauseRace).files "k" := ⟨"jobs.json", by decide⟩
  refine (rivals_keep_jobs (fileRivals_wellFormed (by unfold UniqueIds; decide)) pauseRace [.commit .right]
    pauseRace_safe "k" hknown).1 ⟨?_, trivial⟩
  have hwriting : ((fileRivals beats).run utcHost pauseRace).Writing utcHost .right
      (pausing "j" (atTime 2000)) [pausedBeat "j" (atTime 2000), beat "k"] :=
    ⟨rfl, rfl, { write := _, answer := [pausedBeat "j" (atTime 2000)] }, by decide, rfl⟩
  rintro ⟨p, l, hw, job, hj, hid, hnot⟩
  obtain ⟨rfl, rfl⟩ := hwriting.eq hw
  revert hid hnot
  revert job
  decide

/-- A cancellation of `j` that has read `k` before the session of `k` moves. -/
def moveRace : List Act :=
  raced 1 (.cancel "j") (atTime 2000) (.rebindSessionJobs moved) (atTime 1000)

def movedBeat : AgentCronJob := { beat "k" with cwd := "/moved" }

/-- A heartbeat is resumed after it has been cancelled. -/
def resumeRace : List Act :=
  raced 2 (.resumeHeartbeat "h") (atTime 3000) (.cancel "h") (atTime 2000)

def heartbeat : AgentCronJob := { pausedBeat "h" (atTime 0) with source := some .heartbeat }

def heartbeats : CronJobsState := { jobs := [heartbeat], dispatches := [] }

def resumedBeat : AgentCronJob :=
  { heartbeat with status := .active, nextRunAt := some (atTime 603000), updatedAt := atTime 3000 }

theorem moveRace_untouched :
    Rivals.Untouched utcHost "k" ((fileRivals beats).run utcHost moveRace) [.commit .right] := by
  refine ⟨?_, trivial⟩
  have hwriting : ((fileRivals beats).run utcHost moveRace).Writing utcHost .right
      { pausing "j" (atTime 2000) with op := .cancel "j" }
      [(beat "j").stopped .cancelled (atTime 2000), beat "k"] :=
    ⟨rfl, rfl, { write := _, answer := [(beat "j").stopped .cancelled (atTime 2000)] },
      by decide, rfl⟩
  rintro ⟨p, l, hw, job, hj, hid, hnot⟩
  obtain ⟨rfl, rfl⟩ := hwriting.eq hw
  revert hid hnot
  revert job
  decide

theorem resumeRace_cancelled : Cancelled ((fileRivals heartbeats).run utcHost resumeRace).files "h" := by
  have hone : ((fileRivals heartbeats).run utcHost resumeRace).OneFile "jobs.json" :=
    .run (raced_plain 2 (.resumeHeartbeat "h") (.cancel "h") (atTime 3000)
    (atTime 2000)) (fileRivals_oneFile heartbeats)
  have hall : ∀ job ∈ (((fileRivals heartbeats).run utcHost resumeRace).files "jobs.json").jobs,
      job.status = .cancelled := by decide
  refine ⟨⟨"jobs.json", by decide⟩, fun path job hj _ => ?_⟩
  by_cases hpath : path = "jobs.json"
  · rw [hpath] at hj
    exact hall job hj
  · have hnil := hone.other path hpath
    rw [hnil] at hj
    cases hj

/-- The move of `k` is undone by an operation on `j`, which writes the copy it has read: it has the
same date. A heartbeat that has been cancelled is active again. -/
theorem rivals_undo_jobs : ((fileRivals beats).WellFormed ∧
      Rivals.Untouched utcHost "k" ((fileRivals beats).run utcHost moveRace) [.commit .right] ∧
      movedBeat ∈ (((fileRivals beats).run utcHost moveRace).files "jobs.json").jobs ∧
      movedBeat ∉ (((fileRivals beats).run utcHost (moveRace ++ [.commit .right])).files "jobs.json").jobs) ∧
    (fileRivals heartbeats).WellFormed ∧ Cancelled ((fileRivals heartbeats).run utcHost resumeRace).files "h" ∧
      resumedBeat ∈ (((fileRivals heartbeats).run utcHost (resumeRace ++ [.commit .right])).files
        "jobs.json").jobs := by
  refine ⟨⟨?_, moveRace_untouched, ?_, ?_⟩, ?_, resumeRace_cancelled, ?_⟩
  · exact fileRivals_wellFormed (by unfold UniqueIds; decide)
  · decide
  · decide
  · exact fileRivals_wellFormed (by unfold UniqueIds; decide)
  · decide

end Cron
end RePrime
