import RePrime.Cron.Placed

/-!
# RePrime.Cron.Status

What the status of a job says about its runs.

* `StatusInvariant`: a job that is not active has no next run; an active one has a next run, or a
  dispatch that is outstanding.
* `StatusOf`: the inductive form of it, for one job of a state.
* `reachable_statusInvariant`: it holds in every run in which no one-shot job is skipped by
  `recordSkipResult` while it has no dispatch.
-/

namespace RePrime
namespace Cron

open List

def StatusInvariant (w : StoreWorld) : Prop :=
  ∀ path, ∀ job ∈ (w.files path).jobs, (job.status ≠ .active → job.nextRunAt = none) ∧
      (job.status = .active → (∃ next, job.nextRunAt = some next) ∨
        ∃ d ∈ (w.files path).dispatches, d.jobId = job.id)

/-- A store that has just been made, over no files. -/
structure NewStore (w : StoreWorld) : Prop where
  mode : (∃ path, w.mode = .file path) ∨ w.mode = .sessionArtifacts .empty
  files : ∀ path, w.files path = .empty

/-- No active one-shot job is skipped with `recordSkipResult` while it has no dispatch. -/
def SkipsDispatched (op : Op) (w : StoreWorld) : Prop :=
  ∀ id, op = .recordSkipResult id → ∀ path ∈ w.mode.paths, ∀ job ∈ (w.files path).jobs, job.id = id →
    job.status = .active → job.schedule.isOnce = true → ∃ d ∈ (w.files path).dispatches, d.jobId = id

/-! ## One job -/

/-- A dispatch of the job is outstanding. -/
def Dispatched (s : CronJobsState) (id : String) : Prop := ∃ d ∈ s.dispatches, d.jobId = id

structure StatusOf (s : CronJobsState) (job : AgentCronJob) : Prop where
  stopped : job.status ≠ .active → job.nextRunAt = none
  waiting : job.status = .active → job.nextRunAt = none → job.schedule.isOnce = true ∧ Dispatched s job.id
  once : job.schedule.isOnce = true → Dispatched s job.id → job.nextRunAt = none

section

variable {host : Host} {now : Instant} {op : Op} {s s' : CronJobsState} {job job' : AgentCronJob}

theorem StatusOf.of_dispatched (h : StatusOf s job) (hd : Dispatched s' job.id ↔ Dispatched s job.id) :
    StatusOf s' job := by
  refine ⟨h.stopped, ?_, ?_⟩
  · rw [hd]
    exact h.waiting
  · rw [hd]
    exact h.once

theorem StatusOf.edited {jobs : List AgentCronJob} (h : StatusOf s job)
    (he : Edited host now op jobs job job') (hu : UniqueIds jobs) (hd : Dispatched s' job'.id ↔ Dispatched s job.id)
    (hskip : op = .recordSkipResult job.id → job.status = .active → job.schedule.isOnce = true →
      Dispatched s job.id) : StatusOf s' job' := by
  cases he.rerun with
  | kept hstatus hschedule hnext =>
    refine ⟨?_, ?_, ?_⟩
    · rw [hstatus, hnext]
      exact h.stopped
    · rw [hstatus, hnext, hschedule, hd]
      exact h.waiting
    · rw [hschedule, hnext, hd]
      exact h.once
  | stopped hstatus hnext =>
    exact ⟨fun _ => hnext, fun hactive => absurd hactive hstatus, fun _ _ => hnext⟩
  | runs next schedule after hstatus hnext _ hrun hschedule =>
    have hrec : job'.schedule.isOnce ≠ true := by
      rw [hschedule hu]
      exact fun honce => nomatch (nextRun_once hrun).2 honce
    refine ⟨fun hnot => absurd hstatus hnot, ?_, ?_⟩
    · intro _ hnone
      rw [hnext] at hnone
      cases hnone
    · intro honce
      exact absurd honce hrec
  | skipped hop hactive hstatus hschedule honce hnext =>
    refine ⟨fun _ => hnext, fun _ _ => ⟨?_, ?_⟩, fun _ _ => hnext⟩
    · rwa [hschedule]
    · rw [hd]
      exact hskip hop hactive honce

theorem Created.statusOf (h : Created op job) (hd : ¬ Dispatched s job.id) : StatusOf s job := by
  obtain ⟨next, hn⟩ := h.runs
  refine ⟨fun hnot => absurd h.active hnot, ?_, fun _ hdisp => absurd hdisp hd⟩
  intro _ hnone
  rw [hn] at hnone
  cases hnone

theorem ClaimOf.statusOf {zone : Zone} {dueAt claimedAt : Instant} {draw : Nat → String}
    {claimed : List Claimed} (h : ClaimOf zone dueAt claimedAt draw s s' claimed)
    (hu : UniqueIds s.jobs) (hs : ∀ job ∈ s.jobs, StatusOf s job) : ∀ job' ∈ s'.jobs, StatusOf s' job' := by
  intro job' hj'
  obtain ⟨job, hj, id, c, hpass, hsub⟩ := exists_of_forall₂ h.jobs.flip hj'
  have hjob := hs job hj
  have hkeep : Dispatched s job.id → Dispatched s' job'.id := by
    rintro ⟨d, hd, hid⟩
    refine ⟨d, ?_, hid.trans hpass.id.symm⟩
    rw [h.dispatches]
    exact mem_append_left _ hd
  obtain ⟨hnot, rfl, -⟩ | ⟨hdue, hclaims⟩ := hpass
  · refine ⟨hjob.stopped, ?_, ?_⟩
    · intro hactive hnone
      exact ⟨(hjob.waiting hactive hnone).1, hkeep (hjob.waiting hactive hnone).2⟩
    · rintro honce ⟨d, hd, hid⟩
      rw [h.dispatches] at hd
      obtain hold | hnew := mem_append.1 hd
      · exact hjob.once honce ⟨d, hold, hid⟩
      · -- a claim is of a due job, and this one is not due
        obtain ⟨c, hc, rfl⟩ := mem_map.1 hnew
        obtain ⟨other, ho, hdue, hother, -⟩ := h.claim hc
        rw [hu.eq ho hj (hother.symm.trans hid), hnot] at hdue
        cases hdue
  · have hactive := isDueJob_active hdue
    cases hclaims with
    | skipped next hrun hout =>
      have honce := nextRun_once hrun
      obtain ⟨d, hd, hid⟩ := mem_map.1 hout
      exact ⟨fun hn => absurd hactive hn, fun _ hnone => ⟨honce.1 hnone, hkeep ⟨d, hd, hid⟩⟩,
        fun ho _ => honce.2 ho⟩
    | claimed scheduledFor next hnext hrun hout =>
      have honce := nextRun_once hrun
      have hmem := hsub mem_cons_self
      refine ⟨fun hn => absurd hactive hn, fun _ hnone => ⟨honce.1 hnone, ?_⟩, fun ho _ => honce.2 ho⟩
      refine ⟨dispatchFor job scheduledFor claimedAt id, ?_, rfl⟩
      rw [h.dispatches]
      exact mem_append_right _ (mem_map_of_mem hmem)

theorem EndsSome.statusOf {zone : Zone} {skips : AgentCronDispatchRecord → Prop} (h : EndsSome zone now skips s s')
    (hnamed : ∀ d ∈ s.dispatches, ∀ d' ∈ s.dispatches, d.id = d'.id → d = d')
    (hs : ∀ job ∈ s.jobs, StatusOf s job) : ∀ job' ∈ s'.jobs, StatusOf s' job' := by
  obtain rfl | ⟨_, ended, jobIds, hends, hcover, hsource⟩ := h
  · exact hs
  · intro job' hj'
    obtain ⟨job, hj, hf⟩ := exists_of_forall₂ hends.jobs.flip hj'
    have hjob := hs job hj
    have hleft : Dispatched s' job.id → Dispatched s job.id := by
      rintro ⟨d, hd, hid⟩
      rw [hends.dispatches] at hd
      exact ⟨d, mem_of_mem_filter hd, hid⟩
    obtain ⟨hout, rfl⟩ | ⟨hin, hactive, hfin⟩ := hf
    · refine ⟨hjob.stopped, ?_, fun honce hd => hjob.once honce (hleft hd)⟩
      intro hactive hnone
      obtain ⟨honce, d, hd, hid⟩ := hjob.waiting hactive hnone
      refine ⟨honce, d, ?_, hid⟩
      rw [hends.dispatches]
      refine mem_filter.2 ⟨hd, ?_⟩
      -- the dispatch has not ended: its job would be among those that are finished
      cases he : ended d with
      | false => rfl
      | true =>
        obtain ⟨d', hd', hid', hin⟩ := hcover d hd he
        rw [hnamed d' hd' d hd hid', hid] at hin
        exact absurd hactive (hout.resolve_left (not_not.2 hin))
    · obtain ⟨d, hd, hid, -⟩ := hsource job.id hin
      have hnone : job.schedule.isOnce = true → job.nextRunAt = none :=
        fun honce => hjob.once honce ⟨d, hd, hid⟩
      have hsome : job.schedule.isOnce = false → ∀ next, job.nextRunAt = next → next ≠ none := by
        intro hrec next hnext he
        have := (hjob.waiting hactive (hnext.trans he)).1
        rw [hrec] at this
        cases this
      cases hrec : job.schedule.isOnce with
      | true =>
        have hcompleted := afterRun_once hrec
        cases hfin with
        | skipped _ next hrun =>
          have hn := (nextRun_once hrun).2 hrec
          exact ⟨fun _ => hn, fun ha => absurd (hcompleted.symm.trans ha) (by decide), fun _ _ => hn⟩
        | ran error =>
          exact ⟨fun _ => hnone hrec, fun ha => absurd (hcompleted.symm.trans ha) (by decide),
            fun _ _ => hnone hrec⟩
        | interrupted =>
          exact ⟨fun _ => hnone hrec, fun ha => absurd (hcompleted.symm.trans ha) (by decide),
            fun _ _ => hnone hrec⟩
      | false =>
        have hactive' := afterRun_recurring hrec
        have hnot : ∀ p : Prop, job.schedule.isOnce = true → p := by
          intro p honce
          rw [hrec] at honce
          cases honce
        cases hfin with
        | skipped _ next hrun =>
          exact ⟨fun hn => absurd hactive' hn,
            fun _ hn => hnot _ ((nextRun_once hrun).1 hn), fun ho _ => hnot _ ho⟩
        | ran error =>
          exact ⟨fun hn => absurd hactive' hn, fun _ hn => absurd hn (hsome hrec _ rfl),
            fun ho _ => hnot _ ho⟩
        | interrupted =>
          exact ⟨fun hn => absurd hactive' hn, fun _ hn => absurd hn (hsome hrec _ rfl),
            fun ho _ => hnot _ ho⟩

end

/-! ## All jobs -/

def AllStatus (w : StoreWorld) : Prop :=
  ∀ path, ∀ job ∈ (w.files path).jobs, StatusOf (w.files path) job

section

variable {host : Host} {now : Instant} {op : Op} {w w' : StoreWorld}

theorem Follows.dispatched (h : Follows host now op w w') (hp : Placed w) {path p : String} {id : String}
    (hid : id ∈ ids (w.files p).jobs)
    (hmoves : ∀ d ∈ (w.files p).dispatches, d.jobId = id → d ∈ (w'.files path).dispatches) :
    Dispatched (w'.files path) id ↔ Dispatched (w.files p) id := by
  constructor
  · rintro ⟨d, hd, he⟩
    obtain ⟨q, hq⟩ := h.dispatches path d hd
    have hplace := hp.dispatched q d hq
    rw [he] at hplace
    rw [hp.apart q p id hplace hid] at hq
    exact ⟨d, hq, he⟩
  · rintro ⟨d, hd, he⟩
    exact ⟨d, hmoves d hd he, he⟩

theorem Follows.status (h : Follows host now op w w') (hp : Placed w) (hf : Fresh op w)
    (hskip : SkipsDispatched op w) (hs : AllStatus w) : AllStatus w' := by
  intro path job' hj'
  obtain ⟨p, job, hj, hedit, hmoves⟩ | hc := h.jobs path job' hj'
  · have hd := h.dispatched hp (mem_ids_of_mem hj) hmoves
    obtain rfl | ⟨hpath, he⟩ := hedit
    · exact (hs p job' hj).of_dispatched hd
    · refine (hs p job hj).edited he hp.readJobs_unique ?_ ?_
      · rw [he.id]
        exact hd
      · intro hop hactive honce
        exact hskip job.id hop p hpath job hj rfl hactive honce
  · refine hc.statusOf ?_
    rintro ⟨d, hd, hid⟩
    obtain ⟨q, hq⟩ := h.dispatches path d hd
    have hplace := hp.dispatched q d hq
    rw [hid] at hplace
    exact hf.job job'.id hc.id q hplace

theorem runs_status (hp : Placed w) (hf : Fresh op w) (hskip : SkipsDispatched op w) (hs : AllStatus w)
    (hr : Runs host now op w w') : AllStatus w' := by
  cases hr with
  | plan plan he => exact (runPlan_follows he hp hf).2.status hp hf hskip hs
  | claim dueAt draw _ =>
    intro path
    obtain h | ⟨claimed, hc⟩ := @claimDue_files host now w dueAt draw hp path
    · rw [h]
      exact hs path
    · exact hc.statusOf (hp.unique path) (hs path)
  | settle _ hset =>
    obtain ⟨mutator, paths, -, hm, rfl⟩ := hset
    -- the dispatches of a file only become fewer, so that their ids stay apart
    have hfiles := @mutatePaths_files _ (fun _ => mutator)
      (fun p s => s.dispatches ⊆ (w.files p).dispatches ∧ ∀ job ∈ s.jobs, StatusOf s job) paths
    refine fun path => (hfiles ?_ (fun p => ⟨fun _ h => h, hs p⟩) path).2
    intro p _ s r hr hs
    have hends := hm s r hr
    refine ⟨fun d hd => hs.1 (hends.dispatches.subset hd), hends.statusOf ?_ hs.2⟩
    intro d hd d' hd'
    exact hp.named p p d (hs.1 hd) d' (hs.1 hd')
  | register sessionId path _ =>
    unfold AllStatus
    rw [registerSessionArtifact_files]
    exact hs

theorem NewStore.placed (h : NewStore w) : Placed w := by
  have hempty : ∀ path, (w.files path).jobs = [] ∧ (w.files path).dispatches = [] := by
    intro path
    rw [h.files path]
    exact ⟨rfl, rfl⟩
  refine ⟨?_, ?_, ?_, ?_, ?_, ?_⟩
  · obtain ⟨path, hm⟩ | hm := h.mode
    · rw [hm]
      exact nodup_singleton path
    · rw [hm]
      exact nodup_nil
  · intro path
    rw [(hempty path).1]
    exact nodup_nil
  · intro p q id hid
    rw [(hempty p).1] at hid
    cases hid
  · intro path d hd
    rw [(hempty path).2] at hd
    cases hd
  · intro path
    rw [(hempty path).2]
    exact nodup_nil
  · intro p q d hd
    rw [(hempty p).2] at hd
    cases hd

theorem NewStore.status (h : NewStore w) : AllStatus w := by
  intro path job hj
  rw [h.files path] at hj
  cases hj

/-- The runs with new ids in which no waiting one-shot job is skipped. -/
abbrev StatusRun (host : Host) : StoreWorld → Prop :=
  ReachableFrom host NewStore fun op _ w => Fresh op w ∧ SkipsDispatched op w

theorem StatusRun.placed (h : StatusRun host w) : Placed w ∧ AllStatus w := by
  induction h with
  | start w hs => exact ⟨hs.placed, hs.status⟩
  | @run v op now _ ha ih =>
    have hr := op.runs host now v
    exact ⟨runs_placed ih.1 ha.1 hr, runs_status ih.1 ha.1 ha.2 ih.2 hr⟩

/-- No job stays active while nothing will run or finish it, and no other job has a next run. -/
theorem reachable_statusInvariant (h : StatusRun host w) : StatusInvariant w := by
  intro path job hj
  have hjob := h.placed.2 path job hj
  refine ⟨hjob.stopped, fun hactive => ?_⟩
  cases hn : job.nextRunAt with
  | none => exact .inr (hjob.waiting hactive hn).2
  | some next => exact .inl ⟨next, rfl⟩

end

/-! ## A one-shot job that is skipped -/

/-- A store over one file. -/
def fileWorld (s : CronJobsState) : StoreWorld where
  mode := .file "jobs.json"
  files path := if path = "jobs.json" then s else .empty

theorem put_fileWorld (s s' : CronJobsState) : (fileWorld s).put "jobs.json" s' = fileWorld s' := by
  unfold StoreWorld.put fileWorld
  congr 1
  funext path
  simp only []
  split <;> rfl

theorem readJobs_fileWorld (s : CronJobsState) : readJobs (fileWorld s) = s.jobs :=
  append_nil s.jobs

theorem runPlan_fileWorld {plan : List AgentCronJob → Except String Plan} {s : CronJobsState}
    {l answer jobs : List AgentCronJob} (hp : plan s.jobs = .ok { write := some l, answer })
    (hm : mergeFreshJobs s.jobs l = jobs) :
    (runPlan plan (fileWorld s)).2 = fileWorld { jobs, dispatches := s.dispatches } := by
  have hw : writeJobs l (fileWorld s) = (.ok (), fileWorld { jobs, dispatches := s.dispatches }) := by
    rw [← hm]
    exact congrArg (Except.ok (), ·) (put_fileWorld s _)
  unfold runPlan
  rw [readJobs_fileWorld]
  simp only [hp, hw]

theorem claimDue_fileWorld {host : Host} {dueAt now : Instant} {draw : String → Nat → String}
    {s s' : CronJobsState} {ds : List AgentCronDispatch}
    (h : claimDueInState host.zone dueAt now (draw "jobs.json") s = .ok (s', ds)) :
    (claimDue host dueAt now draw (fileWorld s)).2 = fileWorld s' := by
  have hworld := @mutatePaths_world_ok _ (fun path => claimDueInState host.zone dueAt now (draw path))
    "jobs.json" [] (fileWorld s) (s', ds) h
  exact hworld.trans (put_fileWorld s s')

theorem recordDispatchResult_fileWorld {host : Host} {id : String} {now : Instant}
    {outcome : AgentCronJobRunResult} {error : Option String} {s s' : CronJobsState} {jobs : List AgentCronJob}
    (h : recordDispatchInState host.zone id now outcome error s = .ok (s', jobs)) :
    (recordDispatchResult host id now outcome error (fileWorld s)).2 = fileWorld s' := by
  have hworld := @mutatePaths_world_ok _ (fun _ => recordDispatchInState host.zone id now outcome error)
    "jobs.json" [] (fileWorld s) (s', jobs) h
  exact hworld.trans (put_fileWorld s s')

theorem newStore_fileWorld : NewStore (fileWorld .empty) := by
  refine ⟨.inl ⟨_, rfl⟩, fun path => ?_⟩
  show (if path = "jobs.json" then CronJobsState.empty else .empty) = _
  split <;> rfl

theorem fresh_create (input : CreateAgentCronJobInput) {id : String} {s : CronJobsState}
    (h : id ∉ ids s.jobs) : Fresh (.create input id) (fileWorld s) where
  job := by
    intro id' hid path
    cases hid
    show _ ∉ ids (if path = "jobs.json" then s else .empty).jobs
    split
    · exact h
    · exact not_mem_nil
  dispatch := by
    intro dueAt draw hop
    cases hop
  path := by
    intro sessionId path hop
    cases hop

theorem fresh_plain {op : Op} (w : StoreWorld) (hid : op.newId = none)
    (hclaim : ∀ dueAt draw, op ≠ .claimDue dueAt draw)
    (hreg : ∀ sessionId path, op ≠ .registerSessionArtifact sessionId path) : Fresh op w where
  job := by
    intro id' h
    rw [hid] at h
    cases h
  dispatch := fun dueAt draw hop => absurd hop (hclaim dueAt draw)
  path := fun sessionId path hop => absurd hop (hreg sessionId path)

/-- Distinct ids for the dispatches of all files. -/
def drawn (path : String) (n : Nat) : String :=
  String.ofList (List.replicate n 'a' ++ 'b' :: path.toList)

theorem drawn_inj {path path' : String} {n n' : Nat} (h : drawn path n = drawn path' n') :
    path = path' ∧ n = n' := by
  have hlist : ∀ n n', List.replicate n 'a' ++ 'b' :: path.toList =
      List.replicate n' 'a' ++ 'b' :: path'.toList → path.toList = path'.toList ∧ n = n' := by
    intro n
    induction n with
    | zero =>
      intro n' h
      cases n' with
      | zero => exact ⟨by simpa using h, rfl⟩
      | succ n' => simp [replicate_succ] at h
    | succ n ih =>
      intro n' h
      cases n' with
      | zero => simp [replicate_succ] at h
      | succ n' =>
        rw [replicate_succ, replicate_succ, cons_append, cons_append, List.cons.injEq] at h
        obtain ⟨hp, hn⟩ := ih n' h.2
        exact ⟨hp, by rw [hn]⟩
  obtain ⟨hp, hn⟩ := hlist n n' (String.ofList_injective h)
  exact ⟨String.toList_inj.1 hp, hn⟩

theorem fresh_claimDue (dueAt : Instant) {s : CronJobsState} (h : s.dispatches = []) :
    Fresh (.claimDue dueAt drawn) (fileWorld s) where
  job := by
    intro id' hid
    cases hid
  dispatch := by
    intro dueAt' draw hop
    cases hop
    refine ⟨fun p d hd => ?_, fun path n path' n' => drawn_inj⟩
    have hnone : ((fileWorld s).files p).dispatches = [] := by
      show (if p = "jobs.json" then s else .empty).dispatches = []
      split
      · exact h
      · rfl
    rw [hnone] at hd
    cases hd
  path := by
    intro sessionId path hop
    cases hop

/-- A job in ten minutes. -/
def onceInput : CreateAgentCronJobInput where
  activeSessionId := "a"
  sessionId := "s"
  sessionFile := "/s.jsonl"
  cwd := "/"
  label := none
  prompt := "go"
  scheduleText := "in 10m"
  source := none
  runtimeKind := none
  deliveryMode := none

instance neZero_atTime : NeZero 1000000 := ⟨by decide⟩

/-- Milliseconds after the epoch. -/
def atTime (n : Fin 1000000) : Instant :=
  ⟨n, by simp only [maxTime]; omega, by simp only [maxTime]; omega⟩

def onceJob : AgentCronJob where
  id := "j"
  status := .active
  source := some .cron
  runtimeKind := none
  deliveryMode := none
  activeSessionId := "a"
  sessionId := "s"
  sessionFile := "/s.jsonl"
  cwd := "/"
  label := none
  prompt := "go"
  schedule := .once "in 10m"
  createdAt := atTime 0
  updatedAt := atTime 0
  nextRunAt := some (atTime 600000)
  lastRunAt := none
  lastSkippedAt := none
  lastError := none
  runCount := 0

def createdState : CronJobsState := { jobs := [onceJob], dispatches := [] }

def skippedState : CronJobsState where
  jobs := [{ onceJob with
    nextRunAt := none, lastSkippedAt := some (atTime 1000), updatedAt := atTime 1000 }]
  dispatches := []

def claimedState : CronJobsState where
  jobs := [{ onceJob with nextRunAt := none, updatedAt := atTime 600000 }]
  dispatches := [dispatchFor onceJob (atTime 600000) (atTime 600000) (drawn "jobs.json" 0)]

theorem run_create : (Op.create onceInput "j").run utcHost (atTime 0) (fileWorld .empty) = fileWorld createdState :=
  @runPlan_fileWorld (create utcHost onceInput "j" (atTime 0)) .empty [onceJob] [onceJob] [onceJob]
    (by decide) (by decide)

theorem run_skip : (Op.recordSkipResult "j").run utcHost (atTime 1000) (fileWorld createdState) =
    fileWorld skippedState :=
  @runPlan_fileWorld (recordSkipResult utcHost "j" (atTime 1000)) createdState skippedState.jobs
    skippedState.jobs skippedState.jobs (by decide) (by decide)

theorem run_claim : (Op.claimDue (atTime 600000) drawn).run utcHost (atTime 600000) (fileWorld createdState) =
      fileWorld claimedState :=
  @claimDue_fileWorld utcHost (atTime 600000) (atTime 600000) drawn createdState claimedState
    [{ id := drawn "jobs.json" 0, job := { onceJob with nextRunAt := none, updatedAt := atTime 600000 } }]
    (by decide)

/-- The job is active, it has no next run and no dispatch, and no operation was out of order. -/
theorem skip_strands_job : ReachableFrom utcHost NewStore (fun op _ w => Fresh op w) (fileWorld skippedState) ∧
      ¬ StatusInvariant (fileWorld skippedState) := by
  constructor
  · rw [← run_skip, ← run_create]
    refine .run _ _ (.run _ _ (.start _ newStore_fileWorld)
      (fresh_create onceInput (by simp [ids, CronJobsState.empty]))) ?_
    exact fresh_plain _ rfl (by simp) (by simp)
  · intro h
    obtain ⟨next, hn⟩ | ⟨d, hd, -⟩ := (h "jobs.json" _ mem_cons_self).2 rfl
    · cases hn
    · cases hd

/-- A one-shot job that is claimed may be skipped. -/
theorem reachable_statusInvariant_claimed : StatusInvariant
    ((Op.recordSkipResult "j").run utcHost (atTime 700000) (fileWorld claimedState)) := by
  have hcreated : StatusRun utcHost (fileWorld createdState) := by
    rw [← run_create]
    refine .run _ _ (.start _ newStore_fileWorld) ⟨fresh_create onceInput ?_, fun id hop => by cases hop⟩
    simp [ids, CronJobsState.empty]
  have hclaimed : StatusRun utcHost (fileWorld claimedState) := by
    rw [← run_claim]
    exact .run _ _ hcreated ⟨fresh_claimDue _ rfl, fun id hop => by cases hop⟩
  refine reachable_statusInvariant (.run _ _ hclaimed ⟨?_, ?_⟩)
  · exact fresh_plain _ rfl (by simp) (by simp)
  · intro id hop path hpath _ _ _ _ _
    cases hop
    obtain rfl : path = "jobs.json" := mem_singleton.1 hpath
    exact ⟨_, mem_cons_self, rfl⟩

end Cron
end RePrime
