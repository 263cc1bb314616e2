import RePrime.Cron.Store
import Mathlib.Data.List.Forall2

/-!
# RePrime.Cron.Edits

What the operations that read, edit and write back do to one job, said once.

* `Edited`: a job before and after such an operation.
* `Created`: a job that the operation adds.
* `plan_edits`: all of them write the jobs they have read, edited, and what they create.
-/

namespace RePrime
namespace Cron

open Fallible List

/-! ## What an operation does to a job -/

/-- No two of the jobs have one id. -/
def UniqueIds (jobs : List AgentCronJob) : Prop := (jobs.map AgentCronJob.id).Nodup

/-- The test of `updateRlmHeartbeat`. -/
def UpdatesRlm (activeSessionId id : String) (job : AgentCronJob) : Prop :=
  job.id = id ∧ isRlmHeartbeat activeSessionId job ∧ job.status ≠ .cancelled ∧ job.status ≠ .completed

/-- The test of `manageHeartbeat`. -/
def Manages (activeSessionId id : String) (job : AgentCronJob) : Prop :=
  job.id = id ∧ job.activeSessionId = activeSessionId ∧ isHeartbeatCronJob job ∧
    job.status ≠ .cancelled ∧ job.status ≠ .completed

/-- An operation computes a run of one of the jobs it has read, of a schedule and after a time. -/
inductive Reruns (host : Host) (now : Instant) (jobs : List AgentCronJob) (job : AgentCronJob) :
    Op → AgentCronSchedule → Date → Prop where
  | rescheduled (s id : String) (update : RlmHeartbeatUpdate) (text : String) (parsed : ParsedSchedule)
      (htest : UpdatesRlm s id job) (htext : update.scheduleText = some text)
      (hparse : parseAgentCronSchedule host text now = .ok parsed) :
      Reruns host now jobs job (.updateRlmHeartbeat s id update) parsed.schedule (some now)
  | updated (s id : String) (update : RlmHeartbeatUpdate) (htest : UpdatesRlm s id job)
      (htext : update.scheduleText = none) (hresume : update.status = some .resume) :
      Reruns host now jobs job (.updateRlmHeartbeat s id update) job.schedule (some now)
  | resumed (s : String) (current : AgentCronJob) (hcurrent : getHeartbeat s jobs = some current)
      (hid : job.id = current.id) :
      Reruns host now jobs job (.resumeHeartbeat s) current.schedule (some now)
  | managed (s id : String) (htest : Manages s id job) :
      Reruns host now jobs job (.manageHeartbeat s id .resume) job.schedule (some now)
  | ran (error : Option String) (hactive : job.status = .active) :
      Reruns host now jobs job (.recordRunResult job.id error) job.schedule (runFrom job.schedule now)
  | skipped (hactive : job.status = .active) :
      Reruns host now jobs job (.recordSkipResult job.id) job.schedule (some now)

/-- The next run of one of the jobs, before and after an operation that has read them. -/
inductive Rerun (host : Host) (now : Instant) (op : Op) (jobs : List AgentCronJob)
    (job job' : AgentCronJob) : Prop where
  | kept (hstatus : job'.status = job.status) (hschedule : job'.schedule = job.schedule)
      (hnext : job'.nextRunAt = job.nextRunAt)
  | stopped (hstatus : job'.status ≠ .active) (hnext : job'.nextRunAt = none)
  -- `resumeHeartbeat` gives all jobs with the id of the heartbeat the run of its schedule
  | runs (next : Instant) (schedule : AgentCronSchedule) (after : Date)
      (hstatus : job'.status = .active) (hnext : job'.nextRunAt = some next)
      (hreruns : Reruns host now jobs job op schedule after)
      (hrun : nextRun host.zone schedule after = .ok (some next))
      (hschedule : UniqueIds jobs → job'.schedule = schedule)
  | skipped (hop : op = .recordSkipResult job.id) (hactive : job.status = .active)
      (hstatus : job'.status = .active) (hschedule : job'.schedule = job.schedule)
      (honce : job.schedule.isOnce = true) (hnext : job'.nextRunAt = none)

structure Edited (host : Host) (now : Instant) (op : Op) (jobs : List AgentCronJob)
    (job job' : AgentCronJob) : Prop where
  id : job'.id = job.id
  schedule : job'.schedule = job.schedule ∨ Accepted job'.schedule ∧ job'.schedule.isOnce = false
  rerun : Rerun host now op jobs job job'

/-- The random id an operation draws for a job. -/
def Op.newId : Op → Option String
  | .create _ id => some id
  | .createHeartbeat _ id => some id
  | .createRlmHeartbeat _ id => some id
  | _ => none

structure Created (op : Op) (job : AgentCronJob) : Prop where
  id : op.newId = some job.id
  accepted : Accepted job.schedule
  active : job.status = .active
  runs : ∃ next, job.nextRunAt = some next

/-- What a plan writes: the jobs it has read, edited, and the one it creates. -/
def Edits (host : Host) (now : Instant) (op : Op) (plan : List AgentCronJob → Except String Plan) :
    Prop :=
  ∀ jobs p l, plan jobs = .ok p → p.write = some l →
    ∃ old, ∃ created : Option AgentCronJob, l = old ++ created.toList ∧
      List.Forall₂ (Edited host now op jobs) jobs old ∧ ∀ job ∈ created, Created op job

section

variable {host : Host} {now : Instant} {op : Op} {jobs : List AgentCronJob}

theorem Edited.refl (job : AgentCronJob) : Edited host now op jobs job job :=
  { id := rfl
    schedule := .inl rfl
    rerun := .kept rfl rfl rfl }

theorem edited_stopped (job : AgentCronJob) {status : AgentCronJobStatus} (hs : status ≠ .active) :
    Edited host now op jobs job (job.stopped status now) :=
  { id := rfl
    schedule := .inl rfl
    rerun := .stopped hs rfl }

variable {schedule : AgentCronSchedule}

theorem recurringRun_ok {message : String} {next : Instant}
    (h : recurringRun host schedule now message = .ok next) :
    nextRun host.zone schedule (some now) = .ok (some next) := by
  obtain ⟨run, hr, h⟩ := bind_ok.1 h
  refine bind_ok.2 ⟨run, hr, ?_⟩
  cases run with
  | none => cases h
  | some date => exact map_ok.2 ⟨next, h, rfl⟩

/-! ## Lists of jobs -/

theorem editJobs_forall₂ {R : AgentCronJob → AgentCronJob → Prop}
    {edit : AgentCronJob → Except String (Option AgentCronJob)} :
    ∀ {l : List AgentCronJob} {r : List AgentCronJob × List AgentCronJob},
      (∀ job ∈ l, edit job = .ok none → R job job) → (∀ job ∈ l, ∀ job', edit job = .ok (some job') → R job job') →
      editJobs edit l = .ok r → List.Forall₂ R l r.1 := by
  intro l
  induction l with
  | nil =>
    intro r _ _ h
    cases h
    exact .nil
  | cons job rest ih =>
    intro r hnone hsome h
    rw [editJobs] at h
    obtain ⟨edited, he, h⟩ := bind_ok.1 h
    obtain ⟨r', hr, h⟩ := bind_ok.1 h
    have hrest := ih (fun j hj => hnone j (mem_cons_of_mem _ hj))
      (fun j hj => hsome j (mem_cons_of_mem _ hj)) hr
    cases edited with
    | none =>
      cases h
      exact .cons (hnone job mem_cons_self he) hrest
    | some job' =>
      cases h
      exact .cons (hsome job mem_cons_self job' he) hrest

theorem edits_of_edited {plan : List AgentCronJob → Except String Plan}
    (h : ∀ jobs p l, plan jobs = .ok p → p.write = some l →
      List.Forall₂ (Edited host now op jobs) jobs l) : Edits host now op plan := by
  intro jobs p l hp hl
  exact ⟨l, none, (append_nil l).symm, h jobs p l hp hl, by simp⟩

theorem edits_editPlan {edit : AgentCronJob → Except String (Option AgentCronJob)}
    (hedit : ∀ jobs job job', edit job = .ok (some job') → Edited host now op jobs job job') :
    Edits host now op (editPlan edit) := by
  refine edits_of_edited fun jobs p l hp hl => ?_
  obtain ⟨r, hr, h⟩ := bind_ok.1 hp
  cases h
  by_cases hu : r.2 = []
  · simp only [hu, if_true] at hl
    cases hl
  · simp only [hu, if_false] at hl
    cases hl
    exact editJobs_forall₂ (fun job _ _ => Edited.refl job) (fun job _ => hedit jobs job) hr

theorem edits_stopPlan (test : AgentCronJob → Bool) {status : AgentCronJobStatus}
    (hs : status ≠ .active) : Edits host now op (stopPlan test status now) := by
  refine edits_editPlan fun jobs job job' he => ?_
  cases ht : test job with
  | false => simp [ht] at he
  | true =>
    simp only [ht, if_true, Except.ok.injEq, Option.some.injEq] at he
    rw [← he]
    exact edited_stopped job hs

theorem latest_mem : ∀ {jobs : List AgentCronJob} {job : AgentCronJob}, latest jobs = some job → job ∈ jobs := by
  intro jobs
  induction jobs with
  | nil =>
    intro job h
    cases h
  | cons first rest ih =>
    intro job h
    rw [latest] at h
    cases hl : latest rest with
    | none =>
      simp only [hl, Option.some.injEq] at h
      exact h ▸ mem_cons_self
    | some other =>
      simp only [hl] at h
      by_cases ht : other.updatedAt.time ≤ first.updatedAt.time
      · rw [if_pos ht] at h
        cases h
        exact mem_cons_self
      · rw [if_neg ht] at h
        cases h
        exact mem_cons_of_mem _ (ih hl)

variable {job : AgentCronJob}

theorem getHeartbeat_mem {activeSessionId : String}
    (h : getHeartbeat activeSessionId jobs = some job) : job ∈ jobs :=
  mem_of_mem_filter (latest_mem h)

theorem UniqueIds.eq (h : UniqueIds jobs) {a b : AgentCronJob} (ha : a ∈ jobs) (hb : b ∈ jobs)
    (hid : a.id = b.id) : a = b := inj_on_of_nodup_map h ha hb hid

theorem heartbeatPlan_edited {activeSessionId : String}
    {edit : AgentCronJob → Except String AgentCronJob} {p : Plan} {l : List AgentCronJob}
    (hedit : ∀ current, getHeartbeat activeSessionId jobs = some current → ∀ job ∈ jobs, ∀ job',
      job.id = current.id → edit job = .ok job' → Edited host now op jobs job job')
    (hp : heartbeatPlan activeSessionId edit jobs jobs = .ok p) (hl : p.write = some l) :
    List.Forall₂ (Edited host now op jobs) jobs l := by
  unfold heartbeatPlan at hp
  cases hc : getHeartbeat activeSessionId jobs with
  | none =>
    simp only [hc] at hp
    cases hp
    cases hl
  | some current =>
    simp only [hc] at hp
    obtain ⟨r, hr, h⟩ := bind_ok.1 hp
    cases h
    cases hl
    refine editJobs_forall₂ (fun job _ _ => Edited.refl job) ?_ hr
    intro job hj job' he
    by_cases hid : job.id = current.id
    · rw [if_pos hid] at he
      obtain ⟨job'', hjob, hs⟩ := map_ok.1 he
      cases hs
      exact hedit current hc job hj job' hid hjob
    · rw [if_neg hid] at he
      cases he

/-! ## Creation -/

theorem created_newJob {input : CreateAgentCronJobInput} {source : AgentCronJobSource}
    {deliveryMode : Option AgentHeartbeatDeliveryMode} {prompt : String}
    {nextRunAt : Instant} {id : String} (hid : op.newId = some id) (hs : Accepted schedule) :
    Created op (newJob input source deliveryMode prompt schedule nextRunAt id now) :=
  { id := hid
    accepted := hs
    active := rfl
    runs := ⟨nextRunAt, rfl⟩ }

theorem forall₂_edited_refl (l : List AgentCronJob) : List.Forall₂ (Edited host now op jobs) l l :=
  forall₂_same.2 fun job _ => Edited.refl job

theorem edits_create (input : CreateAgentCronJobInput) (id : String) :
    Edits host now (.create input id) (create host input id now) := by
  intro jobs p l hp hl
  unfold create at hp
  simp only [] at hp
  split at hp
  · cases hp
  · obtain ⟨parsed, hparsed, hp⟩ := bind_ok.1 hp
    obtain ⟨next, -, hp⟩ := bind_ok.1 hp
    cases hp
    cases hl
    refine ⟨jobs, some _, rfl, forall₂_edited_refl jobs, ?_⟩
    intro job hj
    cases hj
    exact created_newJob rfl (parseAgentCronSchedule_accepted hparsed)

theorem forall₂_cancelOpenHeartbeat (activeSessionId : String) (l : List AgentCronJob) :
    List.Forall₂ (Edited host now op jobs) l (l.map (cancelOpenHeartbeat activeSessionId now)) := by
  rw [forall₂_map_right_iff, forall₂_same]
  intro job _
  unfold cancelOpenHeartbeat
  split
  · exact edited_stopped job (by decide)
  · exact Edited.refl job

theorem edits_createHeartbeat (input : CreateAgentCronJobInput) (id : String) :
    Edits host now (.createHeartbeat input id) (createHeartbeat host input id now) := by
  intro jobs p l hp hl
  obtain ⟨parsed, hparsed, hp⟩ := bind_ok.1 hp
  split at hp
  · cases hp
  · simp only [] at hp
    split at hp
    · cases hp
    · obtain ⟨next, -, hp⟩ := bind_ok.1 hp
      cases hp
      cases hl
      refine ⟨_, some _, rfl, forall₂_cancelOpenHeartbeat input.activeSessionId jobs, ?_⟩
      intro job hj
      cases hj
      exact created_newJob rfl (parseAgentCronSchedule_accepted hparsed)

theorem edits_createRlmHeartbeat (input : CreateAgentCronJobInput) (id : String) :
    Edits host now (.createRlmHeartbeat input id) (createRlmHeartbeat host input id now) := by
  intro jobs p l hp hl
  obtain ⟨parsed, hparsed, hp⟩ := bind_ok.1 hp
  split at hp
  · cases hp
  · simp only [] at hp
    split at hp
    · cases hp
    · obtain ⟨next, -, hp⟩ := bind_ok.1 hp
      cases hp
      cases hl
      refine ⟨jobs, some _, rfl, forall₂_edited_refl jobs, ?_⟩
      intro job hj
      cases hj
      exact created_newJob rfl (parseAgentCronSchedule_accepted hparsed)

/-! ## Updates -/

/-- The first run of a recurring schedule is what the schedule gives after the time it is parsed. -/
theorem parseAgentCronSchedule_nextRun {input : String} {p : ParsedSchedule} {next : Instant}
    (hp : parseAgentCronSchedule host input now = .ok p) (hrec : p.schedule.isOnce = false)
    (hn : toISOString p.nextRunAt = .ok next) : nextRun host.zone p.schedule (some now) = .ok (some next) := by
  unfold parseAgentCronSchedule parseText at hp
  split at hp
  · cases hp
  · split at hp
    · cases hp
      cases hrec
    · split at hp
      · unfold parseEvery at hp
        split at hp
        · cases hp
        · rename_i amount unit _ hmin
          cases hp
          have hpos : ¬ (amount : Int) * unitMs unit ≤ 0 := by omega
          simp only [nextRun, nextRunAtForSchedule, if_neg hpos, Date.plus, Option.bind_some]
          exact map_ok.2 ⟨next, hn, rfl⟩
      · unfold parseOther at hp
        split at hp
        · split at hp
          · cases hp
          · split at hp
            · cases hp
            · cases hp
              cases hrec
        · obtain ⟨t, ht, hp⟩ := bind_ok.1 hp
          cases hp
          cases hn
          simp only [nextRun, nextRunAtForSchedule, ht]
          rfl

variable {job' : AgentCronJob}

/-- A new schedule is a recurring one; an open job that is not paused gets its next run. -/
theorem updateSchedule_cases {scheduleText : Option String}
    (h : updateSchedule host scheduleText now job = .ok job') :
    scheduleText = none ∧ job' = job ∨ ∃ text parsed, scheduleText = some text ∧
      parseAgentCronSchedule host text now = .ok parsed ∧ parsed.schedule.isOnce = false ∧
      (job.status = .paused ∧ job' = { job with schedule := parsed.schedule, nextRunAt := none } ∨
        job.status ≠ .paused ∧ ∃ next, nextRun host.zone parsed.schedule (some now) = .ok (some next) ∧
          job' = { job with schedule := parsed.schedule, nextRunAt := some next }) := by
  cases scheduleText with
  | none =>
    cases h
    exact .inl ⟨rfl, rfl⟩
  | some text =>
    right
    obtain ⟨parsed, hp, h⟩ := bind_ok.1 h
    cases hrec : parsed.schedule.isOnce with
    | true =>
      simp only [hrec, if_true] at h
      cases h
    | false =>
      refine ⟨text, parsed, rfl, hp, hrec, ?_⟩
      simp only [hrec, Bool.false_eq_true, if_false] at h
      by_cases hpaused : job.status = .paused
      · rw [if_pos hpaused] at h
        cases h
        exact .inl ⟨hpaused, rfl⟩
      · rw [if_neg hpaused] at h
        obtain ⟨next, hn, h⟩ := bind_ok.1 h
        cases h
        exact .inr ⟨hpaused, next, parseAgentCronSchedule_nextRun hp hrec hn, rfl⟩

theorem updatePrompt_fields {prompt : Option String}
    (h : updatePrompt prompt job = .ok job') : ∃ text, job' = { job with prompt := text } := by
  cases prompt with
  | none =>
    cases h
    exact ⟨job.prompt, rfl⟩
  | some text =>
    unfold updatePrompt at h
    simp only [] at h
    split at h
    · cases h
    · cases h
      exact ⟨_, rfl⟩

theorem updateLabel_fields (label : Option String) (job : AgentCronJob) :
    ∃ l, updateLabel label job = { job with label := l } := by
  cases label with
  | none => exact ⟨job.label, rfl⟩
  | some label => exact ⟨_, rfl⟩

theorem updateRlmHeartbeatJob_steps {update : RlmHeartbeatUpdate}
    (h : updateRlmHeartbeatJob host update now job = .ok job') : ∃ label mode text job₁,
      updateSchedule host update.scheduleText now
        { job with label := label, deliveryMode := mode, prompt := text } = .ok job₁ ∧
      updateStatus host update.status now job₁ = .ok job' := by
  obtain ⟨prompted, hp, hrest⟩ := bind_ok.1 h
  obtain ⟨scheduled, hs, hst⟩ := bind_ok.1 hrest
  obtain ⟨text, ht⟩ := updatePrompt_fields hp
  obtain ⟨label, hl⟩ := updateLabel_fields update.label job
  rw [ht, hl] at hs
  exact ⟨label, _, text, scheduled, hs, hst⟩

/-- What the new status does to a job, whose run is computed of the schedule it has got. -/
theorem Edited.updateStatus {status : Option AgentRlmHeartbeatStatusUpdate}
    {job₁ : AgentCronJob} (he : Edited host now op jobs job job₁)
    (hreruns : status = some .resume → Reruns host now jobs job op job₁.schedule (some now))
    (h : updateStatus host status now job₁ = .ok job') : Edited host now op jobs job job' := by
  cases status with
  | none =>
    cases h
    exact
      { id := he.id
        schedule := he.schedule
        rerun := by
          cases he.rerun with
          | kept hs hsch hn => exact .kept hs hsch hn
          | stopped hs hn => exact .stopped hs hn
          | runs next schedule after hs hn hr hrun hsch => exact .runs next schedule after hs hn hr hrun hsch
          | skipped hop ha hs hsch ho hn => exact .skipped hop ha hs hsch ho hn }
  | some s =>
    cases s with
    | pause =>
      cases h
      exact
        { id := he.id
          schedule := he.schedule
          rerun := .stopped (by simp [AgentCronJob.stopped]) rfl }
    | resume =>
      obtain ⟨next, hn, h⟩ := bind_ok.1 h
      cases h
      exact
        { id := he.id
          schedule := he.schedule
          rerun := .runs next _ _ rfl rfl (hreruns rfl) (recurringRun_ok hn) fun _ => rfl }

theorem open_of_ne (hcancelled : job.status ≠ .cancelled)
    (hcompleted : job.status ≠ .completed) : job.status = .active ∨ job.status = .paused := by
  cases hs : job.status with
  | active => exact .inl rfl
  | paused => exact .inr rfl
  | completed => exact absurd hs hcompleted
  | cancelled => exact absurd hs hcancelled

theorem updateRlmHeartbeatJob_edited {s id : String} {update : RlmHeartbeatUpdate} (htest : UpdatesRlm s id job)
    (h : updateRlmHeartbeatJob host update now job = .ok job') :
    Edited host now (.updateRlmHeartbeat s id update) jobs job job' := by
  obtain ⟨label, mode, text, job₁, hs, hst⟩ := updateRlmHeartbeatJob_steps h
  have hopen := open_of_ne htest.2.2.1 htest.2.2.2
  obtain ⟨htext, rfl⟩ | ⟨text, parsed, htext, hp, hrec, hcase⟩ := updateSchedule_cases hs
  · have hkept : Edited host now (.updateRlmHeartbeat s id update) jobs job
        { job with label := label, deliveryMode := mode, prompt := text } :=
      { id := rfl
        schedule := .inl rfl
        rerun := .kept rfl rfl rfl }
    exact hkept.updateStatus (fun hresume => .updated s id update htest htext hresume) hst
  · have hacc := parseAgentCronSchedule_accepted hp
    have hreruns : Reruns host now jobs job (.updateRlmHeartbeat s id update) parsed.schedule (some now) :=
      .rescheduled s id update text parsed htest htext hp
    obtain ⟨hpaused, rfl⟩ | ⟨hnot, next, hrun, rfl⟩ := hcase
    · refine Edited.updateStatus ?_ (fun _ => hreruns) hst
      exact
        { id := rfl
          schedule := .inr ⟨hacc, hrec⟩
          rerun := .stopped (fun h => nomatch hpaused.symm.trans h) rfl }
    · refine Edited.updateStatus ?_ (fun _ => hreruns) hst
      exact
        { id := rfl
          schedule := .inr ⟨hacc, hrec⟩
          rerun := .runs next _ _ (hopen.resolve_right hnot) rfl hreruns hrun fun _ => rfl }

theorem edits_updateRlmHeartbeat (activeSessionId id : String) (update : RlmHeartbeatUpdate) :
    Edits host now (.updateRlmHeartbeat activeSessionId id update)
      (updateRlmHeartbeat host activeSessionId id update now) := by
  refine edits_editPlan fun jobs job job' he => ?_
  split at he
  · rename_i htest
    obtain ⟨job'', hj, hs⟩ := map_ok.1 he
    cases hs
    exact updateRlmHeartbeatJob_edited htest hj
  · cases he

theorem edits_rebindSessionJobs (input : RebindInput) : Edits host now op (rebindSessionJobs host input) := by
  refine edits_editPlan fun jobs job job' he => ?_
  have hr : rebindJob host input job = some job' := by simpa using he
  unfold rebindJob at hr
  simp only [] at hr
  split at hr
  · cases hr
  · split at hr
    · cases hr
    · cases hr
      exact
        { id := rfl
          schedule := .inl rfl
          rerun := .kept rfl rfl rfl }

/-! ## Heartbeats -/

theorem edits_pauseHeartbeat (activeSessionId : String) :
    Edits host now op fun jobs => pauseHeartbeat activeSessionId now jobs jobs := by
  refine edits_of_edited fun jobs p l hp hl => heartbeatPlan_edited ?_ hp hl
  intro current _ job _ job' _ he
  cases he
  exact edited_stopped job (by decide)

theorem edits_clearHeartbeat (activeSessionId : String) :
    Edits host now op fun jobs => clearHeartbeat activeSessionId now jobs jobs := by
  refine edits_of_edited fun jobs p l hp hl => heartbeatPlan_edited ?_ hp hl
  intro current _ job _ job' _ he
  cases he
  exact edited_stopped job (by decide)

theorem edits_resumeHeartbeat (activeSessionId : String) : Edits host now (.resumeHeartbeat activeSessionId)
      fun jobs => resumeHeartbeat host activeSessionId now jobs jobs := by
  refine edits_of_edited fun jobs p l hp hl => ?_
  unfold resumeHeartbeat at hp
  cases hc : getHeartbeat activeSessionId jobs with
  | none =>
    simp only [hc] at hp
    cases hp
    cases hl
  | some current =>
    simp only [hc] at hp
    obtain ⟨next, hn, hp⟩ := bind_ok.1 hp
    refine heartbeatPlan_edited ?_ hp hl
    intro current' hc' job hj job' hid he
    obtain rfl := Option.some.inj (hc.symm.trans hc')
    cases he
    have hsame : UniqueIds jobs → job.schedule = current.schedule :=
      fun hu => congrArg AgentCronJob.schedule (hu.eq hj (getHeartbeat_mem hc) hid)
    exact
      { id := rfl
        schedule := .inl rfl
        rerun := .runs next current.schedule _ rfl rfl (.resumed activeSessionId current hc hid)
          (recurringRun_ok hn) hsame }

theorem edits_manageHeartbeat (activeSessionId id : String) (action : AgentHeartbeatManagementAction) :
    Edits host now (.manageHeartbeat activeSessionId id action)
      (manageHeartbeat host activeSessionId id action now) := by
  refine edits_editPlan fun jobs job job' he => ?_
  split at he
  · rename_i htest
    cases action with
    | pause =>
      cases he
      exact edited_stopped job (by decide)
    | stop =>
      cases he
      exact edited_stopped job (by decide)
    | resume =>
      obtain ⟨job'', hj, hs⟩ := map_ok.1 he
      cases hs
      obtain ⟨next, hn, hj⟩ := bind_ok.1 hj
      cases hj
      exact
        { id := rfl
          schedule := .inl rfl
          rerun := .runs next _ _ rfl rfl (.managed activeSessionId id htest) (recurringRun_ok hn)
            fun _ => rfl }
  · cases he

/-! ## Results of runs -/

theorem nextRun_once {zone : Zone} {after : Date}
    {next : Option Instant} (h : nextRun zone schedule after = .ok next) :
    next = none ↔ schedule.isOnce = true := by
  cases schedule with
  | once expression =>
    cases h
    exact iff_of_true rfl rfl
  | interval expression ms =>
    refine iff_of_false ?_ (by simp [AgentCronSchedule.isOnce])
    obtain ⟨run, hr, h⟩ := bind_ok.1 h
    unfold nextRunAtForSchedule at hr
    simp only [] at hr
    split at hr
    · cases hr
    · cases hr
      obtain ⟨t, -, rfl⟩ := map_ok.1 h
      simp
  | cron expression =>
    refine iff_of_false ?_ (by simp [AgentCronSchedule.isOnce])
    obtain ⟨run, hr, h⟩ := bind_ok.1 h
    obtain ⟨t, -, rfl⟩ := map_ok.1 hr
    obtain ⟨t, -, rfl⟩ := map_ok.1 h
    simp

theorem afterRun_once (h : job.schedule.isOnce = true) : afterRun job = .completed := by rw [afterRun, if_pos h]

theorem afterRun_recurring (h : job.schedule.isOnce = false) :
    afterRun job = .active := by rw [afterRun, if_neg (by simp [h])]

theorem edits_recordRunResult (id : String) (error : Option String) :
    Edits host now (.recordRunResult id error) (recordRunResult host id now error) := by
  refine edits_editPlan fun jobs job job' he => ?_
  split at he
  · cases he
  · rename_i hid
    split at he
    · cases he
      exact Edited.refl job
    · rename_i hactive
      obtain ⟨next, hn, he⟩ := bind_ok.1 he
      cases he
      obtain rfl := not_not.1 hid
      have honce := nextRun_once hn
      refine { id := rfl, schedule := .inl rfl, rerun := ?_ }
      cases next with
      | none => exact .stopped (by simp [afterRun_once (honce.1 rfl)]) rfl
      | some next =>
        have hrec : job.schedule.isOnce = false := by simpa using honce
        exact .runs next _ _ (afterRun_recurring hrec) rfl (.ran error (not_not.1 hactive)) hn fun _ => rfl

theorem edits_recordSkipResult (id : String) :
    Edits host now (.recordSkipResult id) (recordSkipResult host id now) := by
  refine edits_editPlan fun jobs job job' he => ?_
  split at he
  · cases he
  · rename_i hid
    split at he
    · cases he
      exact Edited.refl job
    · rename_i hactive
      obtain ⟨next, hn, he⟩ := bind_ok.1 he
      cases he
      have hactive : job.status = .active := not_not.1 hactive
      have honce := nextRun_once hn
      obtain rfl := not_not.1 hid
      refine { id := rfl, schedule := .inl rfl, rerun := ?_ }
      cases next with
      | none => exact .skipped rfl hactive hactive rfl (honce.1 rfl) rfl
      | some next => exact .runs next _ _ hactive rfl (.skipped hactive) hn fun _ => rfl

/-! ## All operations -/

/-- Each operation that writes jobs back has edited the jobs it read, and created one at most. -/
theorem plan_edits {op : Op} {plan : List AgentCronJob → Except String Plan}
    (h : op.plan? host now = some plan) : Edits host now op plan := by
  cases op with
  | create input id => cases h; exact edits_create input id
  | rebindSessionJobs input => cases h; exact edits_rebindSessionJobs input
  | createHeartbeat input id => cases h; exact edits_createHeartbeat input id
  | createRlmHeartbeat input id => cases h; exact edits_createRlmHeartbeat input id
  | updateRlmHeartbeat s id update => cases h; exact edits_updateRlmHeartbeat s id update
  | pauseHeartbeat s => cases h; exact edits_pauseHeartbeat s
  | resumeHeartbeat s => cases h; exact edits_resumeHeartbeat s
  | clearHeartbeat s => cases h; exact edits_clearHeartbeat s
  | manageHeartbeat s id action => cases h; exact edits_manageHeartbeat s id action
  | recordRunResult id error => cases h; exact edits_recordRunResult id error
  | recordSkipResult id => cases h; exact edits_recordSkipResult id
  | claimDue | recordDispatchResult | recoverInterruptedDispatches | recoverInterruptedDispatchesById
  | registerSessionArtifact | recoverSessionArtifact => cases h
  | _ => cases h; exact edits_stopPlan _ (by decide)

end

end Cron
end RePrime
