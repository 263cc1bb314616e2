import RePrime.Cron.Changes

/-!
# RePrime.Cron.Claim

Claiming the due jobs.

* `Reachable.accepted`: every schedule in a reachable store is one that `parseAgentCronSchedule`
  accepts.
* `claimDue_handles_iff`: all due jobs of a store are claimed, or skipped while a dispatch is
  outstanding, exactly when each of them has a next run; one that has none stops them all.
-/

namespace RePrime
namespace Cron

open Fallible List
open Calendar

/-! ## Schedules in a store -/

def AcceptedJobs (jobs : List AgentCronJob) : Prop := ∀ job ∈ jobs, Accepted job.schedule

theorem AcceptedJobs.forall₂ {R : AgentCronJob → AgentCronJob → Prop} {l l' : List AgentCronJob}
    (h : AcceptedJobs l) (hr : List.Forall₂ R l l')
    (hR : ∀ job job', R job job' → Accepted job.schedule → Accepted job'.schedule) : AcceptedJobs l' := by
  induction hr with
  | nil => exact h
  | cons hjob _ ih =>
    unfold AcceptedJobs at h ih ⊢
    rw [forall_mem_cons] at h ⊢
    exact ⟨hR _ _ hjob h.1, ih h.2⟩

variable {host : Host}

theorem Edited.accepted {now : Instant} {op : Op} {jobs : List AgentCronJob}
    {job job' : AgentCronJob} (he : Edited host now op jobs job job') (h : Accepted job.schedule) :
    Accepted job'.schedule := by
  cases he.schedule with
  | inl hs => rwa [hs]
  | inr hs => exact hs.1

/-- The schedules of all files. -/
def AllAccepted (w : StoreWorld) : Prop := ∀ path, AcceptedJobs (w.files path).jobs

theorem runs_accepted {now : Instant} {op : Op} {w w' : StoreWorld} (h : AllAccepted w)
    (hr : Runs host now op w w') : AllAccepted w' := by
  cases hr with
  | plan plan he =>
    intro path job hj
    obtain ⟨p, hp⟩ | ⟨p, l, hp, hl, hj⟩ := mem_runPlan hj
    · exact h p job hp
    · obtain ⟨old, created, rfl, hold, hcreated⟩ := he _ p l hp hl
      have hread : AcceptedJobs (readJobs w) := by
        intro job hj
        obtain ⟨path, -, hj⟩ := mem_flatMap.1 hj
        exact h path job hj
      cases mem_append.1 hj with
      | inl ho => exact hread.forall₂ hold (fun _ _ he => he.accepted) job ho
      | inr hc => exact (hcreated job (Option.mem_toList.1 hc)).accepted
  | claim dueAt ids _ =>
    refine mutatePaths_files (P := fun _ s => AcceptedJobs s.jobs) (fun path _ s r hr hs => ?_) h
    obtain ⟨c, hc, rfl⟩ := claimDueInState_ok.1 hr
    refine AcceptedJobs.forall₂ hs (claimJobs_forall₂ hc) ?_
    rintro job job' ⟨id, claimed, hp, -⟩ hjob
    rwa [hp.schedule]
  | settle w' hset =>
    obtain ⟨mutator, paths, -, hm, rfl⟩ := hset
    refine mutatePaths_files (P := fun _ s => AcceptedJobs s.jobs) (fun path _ s r hr hs => ?_) h
    obtain heq | ⟨_, _, _, hends, -⟩ := hm s r hr
    · rwa [heq]
    · refine AcceptedJobs.forall₂ hs hends.jobs ?_
      intro job job' hf hjob
      rwa [hf.schedule]
  | register sessionId path _ =>
    intro p
    have hfiles : (registerSessionArtifact sessionId path w).2.files = w.files := by
      unfold registerSessionArtifact
      split
      · rfl
      · split <;> rfl
    rw [hfiles]
    exact h p

theorem Reachable.accepted {w : StoreWorld} (h : Reachable host w) : AllAccepted w := by
  induction h with
  | start w hs =>
    intro path job hj
    obtain ⟨input, now, p, hp, hsched⟩ := hs path job hj
    rw [← hsched]
    exact parseAgentCronSchedule_accepted hp
  | run op now _ _ ih => exact runs_accepted ih (op.runs host now _)

/-! ## Claiming a store -/

/-- A due job is claimed, with a dispatch that is returned, or skipped while one is outstanding. -/
def Handled (claimedAt : Instant) (ds : List AgentCronDispatch) (old new : CronJobsState)
    (job : AgentCronJob) : Prop :=
  if job.id ∈ old.dispatches.map AgentCronDispatchRecord.jobId then
    ∃ job' ∈ new.jobs, job'.id = job.id ∧ job'.lastSkippedAt = some claimedAt
  else
    ∃ d ∈ new.dispatches, d.jobId = job.id ∧ job.nextRunAt = some d.scheduledFor ∧
      d.claimedAt = claimedAt ∧ ∃ dispatch ∈ ds, dispatch.id = d.id ∧ dispatch.job.id = job.id

/-- Every due job of every file is handled. -/
def HandledDue (dueAt claimedAt : Instant) (ds : List AgentCronDispatch) (w w' : StoreWorld)
    (paths : List String) : Prop :=
  ∀ path ∈ paths, ∀ job ∈ (w.files path).jobs, isDueJob job dueAt = true →
    Handled claimedAt ds (w.files path) (w'.files path) job

/-- What later claims of a state keep of the earlier ones. -/
structure Later (claimedAt : Instant) (s s' : CronJobsState) : Prop where
  dispatches : s.dispatches ⊆ s'.dispatches
  skipped : ∀ job ∈ s.jobs, job.lastSkippedAt = some claimedAt →
    ∃ job' ∈ s'.jobs, job'.id = job.id ∧ job'.lastSkippedAt = some claimedAt

section

variable {claimedAt : Instant} {s s' s'' : CronJobsState}

theorem Later.refl (s : CronJobsState) : Later claimedAt s s where
  dispatches := fun _ h => h
  skipped := fun job hj hl => ⟨job, hj, rfl, hl⟩

theorem Later.trans (h : Later claimedAt s s') (h' : Later claimedAt s' s'') : Later claimedAt s s'' where
  dispatches := fun _ hd => h'.dispatches (h.dispatches hd)
  skipped := by
    intro job hj hl
    obtain ⟨job₁, hj₁, hid₁, hl₁⟩ := h.skipped job hj hl
    obtain ⟨job₂, hj₂, hid₂, hl₂⟩ := h'.skipped job₁ hj₁ hl₁
    exact ⟨job₂, hj₂, hid₂.trans hid₁, hl₂⟩

theorem Handled.later {ds ds' : List AgentCronDispatch} {old : CronJobsState} {job : AgentCronJob}
    (h : Handled claimedAt ds old s job) (hl : Later claimedAt s s') (hds : ds ⊆ ds') :
    Handled claimedAt ds' old s' job := by
  unfold Handled at h ⊢
  split at h
  · rename_i hout
    rw [if_pos hout]
    obtain ⟨job₁, hj₁, hid₁, hs₁⟩ := h
    obtain ⟨job₂, hj₂, hid₂, hs₂⟩ := hl.skipped job₁ hj₁ hs₁
    exact ⟨job₂, hj₂, hid₂.trans hid₁, hs₂⟩
  · rename_i hout
    rw [if_neg hout]
    obtain ⟨d, hd, hid, hs, hc, dispatch, hdisp, hrest⟩ := h
    exact ⟨d, hl.dispatches hd, hid, hs, hc, dispatch, hds hdisp, hrest⟩

variable {zone : Zone} {dueAt : Instant} {ids : Nat → String}

variable {r : CronJobsState × List AgentCronDispatch}

theorem claimDueInState_later (h : claimDueInState zone dueAt claimedAt ids s = .ok r) : Later claimedAt s r.1 := by
  obtain ⟨c, hc, rfl⟩ := claimDueInState_ok.1 h
  refine ⟨subset_append_left _ _, ?_⟩
  intro job hj hl
  obtain ⟨job', hj', id, claimed, hp, -⟩ := exists_of_forall₂ (claimJobs_forall₂ hc) hj
  refine ⟨job', hj', hp.id, ?_⟩
  obtain ⟨-, rfl, -⟩ | ⟨-, hclaims⟩ := hp
  · exact hl
  · cases hclaims with
    | skipped => rfl
    | claimed => exact hl

theorem claimDueInState_handles
    (h : claimDueInState zone dueAt claimedAt ids s = .ok r) {job : AgentCronJob} (hj : job ∈ s.jobs)
    (hd : isDueJob job dueAt = true) : Handled claimedAt r.2 s r.1 job := by
  obtain ⟨c, hc, rfl⟩ := claimDueInState_ok.1 h
  obtain ⟨job', hj', id, claimed, hp, hsub⟩ := exists_of_forall₂ (claimJobs_forall₂ hc) hj
  unfold Handled
  obtain ⟨hnot, -⟩ | ⟨-, hclaims⟩ := hp
  · rw [hd] at hnot
    cases hnot
  · cases hclaims with
    | skipped next hrun hout =>
      rw [if_pos hout]
      exact ⟨_, hj', rfl, rfl⟩
    | claimed scheduledFor next hnext hrun hout =>
      rw [if_neg hout]
      have hmem := hsub mem_cons_self
      exact ⟨_, mem_append_right _ (mem_map_of_mem hmem), rfl, hnext, rfl, _, mem_map_of_mem hmem, rfl, rfl⟩

theorem claimDueInState_ok_iff (ids : Nat → String) : (∃ r, claimDueInState zone dueAt claimedAt ids s = .ok r) ↔
      ∀ job ∈ s.jobs, isDueJob job dueAt = true →
        ∃ next, nextRun zone job.schedule (some claimedAt) = .ok next := by
  rw [← @claimJobs_ok_iff zone dueAt claimedAt (s.dispatches.map AgentCronDispatchRecord.jobId) ids 0]
  constructor
  · rintro ⟨r, hr⟩
    obtain ⟨c, hc, -⟩ := claimDueInState_ok.1 hr
    exact ⟨c, hc⟩
  · rintro ⟨c, hc⟩
    exact ⟨_, claimDueInState_ok.2 ⟨c, hc, rfl⟩⟩

/-- Each due job has a next run, or needs none. -/
def Ready (zone : Zone) (dueAt claimedAt : Instant) (jobs : List AgentCronJob) : Prop :=
  ∀ job ∈ jobs, isDueJob job dueAt = true → Continues zone job.schedule claimedAt

/-- A state is claimed exactly when its due jobs are ready. -/
theorem claimDueInState_ok_iff_ready (ids : Nat → String) (ha : AcceptedJobs s.jobs) :
    (∃ r, claimDueInState zone dueAt claimedAt ids s = .ok r) ↔ Ready zone dueAt claimedAt s.jobs := by
  rw [claimDueInState_ok_iff]
  constructor
  · intro h job hj hd
    exact (nextRun_ok_iff (ha job hj) claimedAt).1 (h job hj hd)
  · intro h job hj hd
    exact (nextRun_ok_iff (ha job hj) claimedAt).2 (h job hj hd)

theorem claimDueInState_accepted
    (h : claimDueInState zone dueAt claimedAt ids s = .ok r) (ha : AcceptedJobs s.jobs) :
    AcceptedJobs r.1.jobs := by
  obtain ⟨c, hc, rfl⟩ := claimDueInState_ok.1 h
  refine AcceptedJobs.forall₂ ha (claimJobs_forall₂ hc) ?_
  rintro job job' ⟨id, claimed, hp, -⟩ hjob
  rwa [hp.schedule]

/-- Jobs that are due again after a claim were due before it, with the same schedule. -/
theorem claimDueInState_ready
    (h : claimDueInState zone dueAt claimedAt ids s = .ok r) (hr : Ready zone dueAt claimedAt s.jobs) :
    Ready zone dueAt claimedAt r.1.jobs := by
  obtain ⟨c, hc, rfl⟩ := claimDueInState_ok.1 h
  intro job' hj' hd'
  obtain ⟨job, hj, id, claimed, hp, -⟩ := exists_of_forall₂ (claimJobs_forall₂ hc).flip hj'
  rw [hp.schedule]
  refine hr job hj ?_
  obtain ⟨-, rfl, -⟩ | ⟨hd, -⟩ := hp
  · exact hd'
  · exact hd

end

section

variable {zone : Zone} {dueAt claimedAt : Instant} {ids : String → Nat → String}

theorem put_accepted {w : StoreWorld} (h : AllAccepted w) {path : String} {state : CronJobsState}
    (hs : AcceptedJobs state.jobs) : AllAccepted (w.put path state) := by
  intro p
  rw [put_files]
  split
  · exact hs
  · exact h p

theorem claimPaths_ok (ids : String → Nat → String) {paths : List String} : ∀ {w : StoreWorld}, AllAccepted w →
    (∀ path ∈ paths, Ready zone dueAt claimedAt (w.files path).jobs) →
    ∃ ds w', mutatePaths (fun path => claimDueInState zone dueAt claimedAt (ids path)) paths w = (.ok ds, w') := by
  induction paths with
  | nil =>
    intro w _ _
    exact ⟨[], w, rfl⟩
  | cons path rest ih =>
    intro w ha hready
    obtain ⟨r, hr⟩ := (claimDueInState_ok_iff_ready (ids path) (ha path)).2
      (hready path mem_cons_self)
    have hput : ∀ p ∈ rest, Ready zone dueAt claimedAt ((w.put path r.1).files p).jobs := by
      intro p hp
      rw [put_files]
      split
      · exact claimDueInState_ready hr (hready path mem_cons_self)
      · exact hready p (mem_cons_of_mem _ hp)
    obtain ⟨ds, w', hrest⟩ := ih (put_accepted ha (claimDueInState_accepted hr (ha path))) hput
    exact ⟨_, w', mutatePaths_cons_ok.2 ⟨r, ds, hr, hrest, rfl⟩⟩

/-- A claim that does not throw has found the due jobs ready, and has handled them. -/
theorem claimPaths_sound {paths : List String} : ∀ {w w' : StoreWorld} {ds : List AgentCronDispatch},
    AllAccepted w →
    mutatePaths (fun path => claimDueInState zone dueAt claimedAt (ids path)) paths w = (.ok ds, w') →
    (∀ path ∈ paths, Ready zone dueAt claimedAt (w.files path).jobs) ∧ HandledDue dueAt claimedAt ds w w' paths ∧
      ∀ path, Later claimedAt (w.files path) (w'.files path) := by
  induction paths with
  | nil =>
    intro w w' ds _ h
    cases h
    exact ⟨by simp, by simp [HandledDue], fun path => Later.refl _⟩
  | cons path rest ih =>
    intro w w' ds ha h
    obtain ⟨r, ds', hr, hrest, rfl⟩ := mutatePaths_cons_ok.1 h
    have hready := (claimDueInState_ok_iff_ready (ids path) (ha path)).1 ⟨r, hr⟩
    obtain ⟨hready', hhandled, hlater⟩ := ih (put_accepted ha (claimDueInState_accepted hr (ha path))) hrest
    have hlast : Later claimedAt r.1 (w'.files path) := by
      have := hlater path
      rwa [put_files_self] at this
    refine ⟨?_, ?_, ?_⟩
    · intro p hp
      by_cases hpath : p = path
      · rwa [hpath]
      · have := hready' p ((mem_cons.1 hp).resolve_left hpath)
        rwa [put_files_ne w hpath] at this
    · intro p hp job hj hd
      by_cases hpath : p = path
      · rw [hpath] at hj ⊢
        exact (claimDueInState_handles hr hj hd).later hlast (subset_append_left _ _)
      · have := hhandled p ((mem_cons.1 hp).resolve_left hpath) job
        rw [put_files_ne w hpath] at this
        exact (this hj hd).later (Later.refl _) (subset_append_right _ _)
    · intro p
      by_cases hpath : p = path
      · rw [hpath]
        exact (claimDueInState_later hr).trans hlast
      · have := hlater p
        rwa [put_files_ne w hpath] at this

/-- In a reachable store a claim returns, with every due job claimed or skipped, exactly when each due
job has a next run after the time of the claim. -/
theorem claimDue_handles_iff {host : Host} {w : StoreWorld} (h : Reachable host w)
    (dueAt claimedAt : Instant) (ids : String → Nat → String) :
    (∃ ds w', claimDue host dueAt claimedAt ids w = (.ok ds, w') ∧
      HandledDue dueAt claimedAt ds w w' w.mode.paths) ↔
      ∀ path ∈ w.mode.paths, Ready host.zone dueAt claimedAt (w.files path).jobs := by
  constructor
  · rintro ⟨ds, w', hc, -⟩
    exact (claimPaths_sound h.accepted hc).1
  · intro hready
    obtain ⟨ds, w', hc⟩ := claimPaths_ok ids h.accepted hready
    exact ⟨ds, w', hc, (claimPaths_sound h.accepted hc).2.1⟩

end

/-! ## A leap day -/

/-- 2028-02-29T00:00Z. -/
def leapDay : Instant := ⟨1835395200000, by decide, by decide⟩

def leapSchedule : AgentCronSchedule := .cron "0 0 29 2 *"

def leapFields : CronFields where
  minute := [0]
  hour := [0]
  dayOfMonth := [29]
  month := [2]
  dayOfWeek := [0, 1, 2, 3, 4, 5, 6, 7]

theorem localAfter_utc (l : Int) (k : Nat) : localAfter (Zone.fixed 0) l k = l + 60000 * k := by
  induction k with
  | zero => simp [localAfter]
  | succ k ih =>
    rw [localAfter, ih]
    simp only [Zone.localTime, Zone.utc, Zone.fixed]
    omega

theorem no_leap_day : ∀ n < 366, (civilFromDays (21244 + (n : Nat))).month = 2 →
    (civilFromDays (21244 + n)).day ≠ 29 := by decide +kernel

theorem searchAfter_leapDay : searchAfter (Zone.fixed 0) leapFields (some leapDay) = none := by
  rw [← Option.not_isSome_iff_eq_none, searchAfter_isSome]
  rintro ⟨l, hl, k, hdeadline, -, hmatch⟩
  obtain rfl : 1835395260000 = l := Option.some.inj hl
  rw [localAfter_utc] at hdeadline hmatch
  simp only [Zone.localTime, Zone.utc, Zone.fixed, searchWindow] at hdeadline hmatch
  generalize ht : (1835395260000 : Int) + 60000 * k = t at hdeadline hmatch
  rw [show t - 0 + 0 = t by omega] at hmatch
  simp only [matchesLocal, leapFields, mem_singleton, Bool.and_eq_true, decide_eq_true_eq] at hmatch
  obtain ⟨⟨⟨⟨hminute, hhour⟩, hdate⟩, hmonth⟩, -⟩ := hmatch
  rw [minuteOf] at hminute
  rw [hourOf] at hhour
  rw [dateOf, dayOf] at hdate
  rw [monthOf, dayOf] at hmonth
  -- midnight of the day itself is over
  have hday : 21243 < t / 86400000 := by omega
  obtain ⟨n, hn⟩ := Int.eq_ofNat_of_zero_le (show 0 ≤ t / 86400000 - 21244 by omega)
  have hbound : n < 366 := by omega
  rw [show t / 86400000 = 21244 + (n : Int) by omega] at hdate hmonth
  exact no_leap_day n hbound hmonth hdate

def leapMessage : String := "Cron schedule did not match within one year: " ++ "0 0 29 2 *"

theorem nextCronRunAfter_none {zone : Zone} {expression : String} {fields : CronFields} {after : Date}
    (hparse : parseCronExpression expression = .ok fields)
    (hsearch : searchAfter zone fields after = none) : nextCronRunAfter zone expression after =
      .error ("Cron schedule did not match within one year: " ++ expression) := by
  unfold nextCronRunAfter
  rw [hparse]
  simp only [bind, Except.bind, hsearch]

theorem nextCronRunAfter_leapDay :
    nextCronRunAfter (Zone.fixed 0) "0 0 29 2 *" (some leapDay) = .error leapMessage :=
  @nextCronRunAfter_none _ _ leapFields _ (by decide) searchAfter_leapDay

theorem nextRun_leapDay : nextRun (Zone.fixed 0) leapSchedule (some leapDay) = .error leapMessage := by
  simp only [nextRun, nextRunAtForSchedule, leapSchedule, nextCronRunAfter_leapDay]
  rfl

/-- 2028-02-28T23:50Z and 23:45Z, when the jobs were created. -/
def leapEve : Instant := ⟨1835394600000, by decide, by decide⟩

def leapEvening : Instant := ⟨1835394300000, by decide, by decide⟩

def everySchedule : AgentCronSchedule := .interval "every 10m" 600000

/-- A job of a session, due on the leap day. -/
def leapDayJob (id : String) (schedule : AgentCronSchedule) (createdAt nextRunAt : Instant) :
    AgentCronJob :=
  { id
    status := .active
    source := some .cron
    runtimeKind := none
    deliveryMode := none
    activeSessionId := "a"
    sessionId := "s"
    sessionFile := "/s.jsonl"
    cwd := "/"
    label := none
    prompt := "go"
    schedule
    createdAt
    updatedAt := createdAt
    nextRunAt := some nextRunAt
    lastRunAt := none
    lastSkippedAt := none
    lastError := none
    runCount := 0 }

def everyRun : Instant := ⟨1835394900000, by decide, by decide⟩

def everyJob : AgentCronJob := leapDayJob "every" everySchedule leapEvening everyRun

def leapJob : AgentCronJob := leapDayJob "leap" leapSchedule leapEve leapDay

def leapWorld : StoreWorld where
  mode := .file "jobs.json"
  files path :=
    if path = "jobs.json" then { jobs := [everyJob, leapJob], dispatches := [] } else .empty

theorem leapSchedule_parsed : Parsed utcHost leapSchedule := by
  refine ⟨"0 0 29 2 *", leapEve, ⟨leapSchedule, some leapDay⟩, ?_, rfl⟩
  decide

theorem everySchedule_parsed : Parsed utcHost everySchedule := by
  refine ⟨"every 10m", leapEvening, ⟨everySchedule, some everyRun⟩, ?_, rfl⟩
  decide

theorem reachable_leapWorld : Reachable utcHost leapWorld := by
  refine .start leapWorld fun path job hj => ?_
  by_cases hp : path = "jobs.json"
  · rw [show leapWorld.files path = { jobs := [everyJob, leapJob], dispatches := [] } from if_pos hp,
      mem_cons, mem_singleton] at hj
    obtain rfl | rfl := hj
    · exact everySchedule_parsed
    · exact leapSchedule_parsed
  · rw [show leapWorld.files path = .empty from if_neg hp] at hj
    cases hj

theorem claimDue_handles_iff_leapWorld :
    (∃ ds w', claimDue utcHost leapDay leapDay (fun _ _ => "d") leapWorld = (.ok ds, w') ∧
      HandledDue leapDay leapDay ds leapWorld w' leapWorld.mode.paths) ↔
      ∀ path ∈ leapWorld.mode.paths, Ready utcHost.zone leapDay leapDay (leapWorld.files path).jobs :=
  claimDue_handles_iff reachable_leapWorld leapDay leapDay fun _ _ => "d"

/-- The job of every ten minutes is due, and the one of the leap day stops it: nothing is claimed. -/
theorem leap_day_stops_claims : Reachable utcHost leapWorld ∧
    everyJob ∈ (leapWorld.files "jobs.json").jobs ∧ isDueJob everyJob leapDay = true ∧
    ∃ e, claimDue utcHost leapDay leapDay (fun _ _ => "d") leapWorld = (.error e, leapWorld) := by
  refine ⟨reachable_leapWorld, mem_cons_self, rfl, ?_⟩
  have hfails : ¬ ∃ r, claimDueInState utcHost.zone leapDay leapDay (fun _ => "d")
      (leapWorld.files "jobs.json") = .ok r := by
    rw [claimDueInState_ok_iff]
    intro h
    obtain ⟨next, hn⟩ := h leapJob (mem_cons_of_mem _ mem_cons_self) rfl
    rw [show leapJob.schedule = leapSchedule from rfl, show utcHost.zone = Zone.fixed 0 from rfl,
      nextRun_leapDay] at hn
    cases hn
  cases hc : claimDueInState utcHost.zone leapDay leapDay (fun _ => "d")
      (leapWorld.files "jobs.json") with
  | ok r => exact absurd ⟨r, hc⟩ hfails
  | error e =>
    refine ⟨e, ?_⟩
    rw [claimDue, mutateStates, show leapWorld.mode.paths = ["jobs.json"] from rfl]
    exact mutatePaths_error hc

end Cron
end RePrime
