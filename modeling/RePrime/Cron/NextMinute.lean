import RePrime.Cron.Ticks

/-!
# RePrime.Cron.NextMinute

The minute that a cron job runs at next, in a zone of a fixed offset.

* `NextMinute`: the least minute after a time that satisfies all fields.
* `nextCronRunAfter_eq`: the search finds it.
* `Op.jobsAfter`, `Advances`: the jobs that an operation leaves of those it has read, and which of them it
  gives a new run.
* `advances_iff`: the run is that minute, but not when `recordRunResult` is called a millisecond before it.
-/

namespace RePrime
namespace Cron

open Calendar Fallible

/-! ## The least minute -/

/-- The fields of a local time are among those of the expression; 7 and 0 are Sunday. -/
structure Satisfies (fields : CronFields) (l : Int) : Prop where
  minute : minuteOf l ∈ fields.minute
  hour : hourOf l ∈ fields.hour
  dayOfMonth : dateOf l ∈ fields.dayOfMonth
  month : monthOf l ∈ fields.month
  dayOfWeek : weekDayOf l ∈ fields.dayOfWeek ∨ weekDayOf l = 0 ∧ 7 ∈ fields.dayOfWeek

theorem matchesLocal_iff {fields : CronFields} {l : Int} : matchesLocal fields l = true ↔ Satisfies fields l := by
  simp only [matchesLocal, Bool.and_eq_true, Bool.or_eq_true, decide_eq_true_iff, beq_iff_eq]
  constructor
  · rintro ⟨⟨⟨⟨hminute, hhour⟩, hday⟩, hmonth⟩, hweekday⟩
    exact ⟨hminute, hhour, hday, hmonth, hweekday⟩
  · intro h
    exact ⟨⟨⟨⟨h.minute, h.hour⟩, h.dayOfMonth⟩, h.month⟩, h.dayOfWeek⟩

/-- The zone that many minutes ahead of UTC. -/
def zoneAhead (offset : Int) : Zone := Zone.fixed (60000 * offset)

/-- The first minute after a time. -/
def minuteAfter (t : Int) : Int := t - t % 60000 + 60000

/-- The least minute after `t` that satisfies the fields, when it is within the search window. -/
structure NextMinute (offset : Int) (fields : CronFields) (t next : Instant) : Prop where
  minute : next.time % 60000 = 0
  later : t.time < next.time
  satisfies : Satisfies fields (next.time + 60000 * offset)
  least : ∀ u, u % 60000 = 0 → t.time < u → Satisfies fields (u + 60000 * offset) → next.time ≤ u
  within : next.time ≤ minuteAfter t.time + searchWindow

section

variable {offset : Int} {fields : CronFields} {t next : Instant}

theorem timeClip_eq (i : Instant) : timeClip i.time = some i := dif_pos ⟨i.lower, i.upper⟩

theorem timeClip_some {u : Int} (hlower : -maxTime ≤ u) (hupper : u ≤ maxTime) :
    timeClip u = some ⟨u, hlower, hupper⟩ := dif_pos ⟨hlower, hupper⟩

theorem candidateAt_ahead (offset u : Int) : candidateAt (zoneAhead offset) (u + 60000 * offset) = timeClip u :=
  congrArg timeClip (Int.add_sub_cancel u (60000 * offset))

theorem nextLocal_ahead (offset : Int) (date : Instant) :
    nextLocal (zoneAhead offset) date = date.time + 60000 + 60000 * offset := by
  show date.time + 60000 * offset + 60000 = _
  omega

/-- The search from `k` minutes before the first minute that satisfies the fields. -/
theorem search_eq {deadline : Int} (hsatisfies : Satisfies fields (next.time + 60000 * offset))
    (hdeadline : next.time ≤ deadline) {k : Nat} :
    ∀ {n : Nat} {u : Int}, u + 60000 * k = next.time → k < n → -maxTime ≤ u →
      (∀ j < k, ¬Satisfies fields (u + 60000 * j + 60000 * offset)) →
      search (zoneAhead offset) fields deadline n (u + 60000 * offset) = some next := by
  induction k with
  | zero =>
    intro n u hu hn _ _
    obtain ⟨n, rfl⟩ := Nat.exists_eq_succ_of_ne_zero (Nat.ne_of_gt hn)
    have hu : u = next.time := by omega
    have hmatch : matchesCronFields (zoneAhead offset) next fields = true := matchesLocal_iff.2 hsatisfies
    rw [search, candidateAt_ahead, hu, timeClip_eq]
    simp only []
    rw [if_pos hdeadline, if_pos hmatch]
  | succ k ih =>
    intro n u hu hn hlower hbefore
    obtain ⟨n, rfl⟩ := Nat.exists_eq_succ_of_ne_zero (Nat.ne_of_gt (Nat.lt_of_le_of_lt (Nat.zero_le _) hn))
    have hupper := next.upper
    have hmatch : ¬matchesCronFields (zoneAhead offset) ⟨u, hlower, by omega⟩ fields = true := by
      intro hmatch
      refine hbefore 0 (Nat.succ_pos k) ?_
      rw [Int.natCast_zero, Int.mul_zero, Int.add_zero]
      exact matchesLocal_iff.1 hmatch
    have hnext : nextLocal (zoneAhead offset) ⟨u, hlower, by omega⟩ = u + 60000 + 60000 * offset :=
      nextLocal_ahead offset _
    have hle : u ≤ deadline := by omega
    rw [search, candidateAt_ahead, timeClip_some hlower (by omega)]
    simp only []
    rw [if_pos hle, if_neg hmatch, hnext]
    refine ih (by omega) (by omega) (by omega) fun j hj hsat => ?_
    refine hbefore (j + 1) (Nat.succ_lt_succ hj) ?_
    have heq : u + 60000 + 60000 * (j : Int) = u + 60000 * ((j + 1 : Nat) : Int) := by omega
    rw [heq] at hsat
    exact hsat

theorem searchAfter_eq {zone : Zone} {l : Int} {first : Instant} (hl : firstLocal zone (some t) = some l)
    (hfirst : candidateAt zone l = some first) :
    searchAfter zone fields (some t) = search zone fields (first.time + searchWindow) searchSteps l := by
  rw [searchAfter, hl]
  simp only [Option.bind_eq_bind, Option.bind_some, hfirst]

theorem nextCronRunAfter_eq {expression : String} (hparse : parseCronExpression expression = .ok fields)
    (h : NextMinute offset fields t next) : nextCronRunAfter (zoneAhead offset) expression (some t) = .ok next := by
  have hlower := t.lower
  have hupper := next.upper
  have hminute := h.minute
  have hlater := h.later
  have hwithin := h.within
  -- the first candidate is the minute after `t`, and `k` minutes later is the one we look for
  obtain ⟨k, hk⟩ : ∃ k : Nat, minuteAfter t.time + 60000 * k = next.time := by
    refine ⟨((next.time - minuteAfter t.time) / 60000).toNat, ?_⟩
    unfold minuteAfter at *
    omega
  have hfloor : floorMinute (zoneAhead offset) t =
      some ⟨t.time - t.time % 60000, by unfold maxTime at *; omega, by unfold minuteAfter at *; omega⟩ := by
    have heq : t.time + 60000 * offset - (t.time + 60000 * offset) % 60000 - 60000 * offset =
        t.time - t.time % 60000 := by omega
    show timeClip (t.time + 60000 * offset - (t.time + 60000 * offset) % 60000 - 60000 * offset) = _
    rw [heq]
    exact timeClip_some _ _
  have hfirst : firstLocal (zoneAhead offset) (some t) = some (minuteAfter t.time + 60000 * offset) := by
    rw [firstLocal, Option.bind_some, hfloor, Option.map_some, nextLocal_ahead]
    rfl
  have hcandidate : candidateAt (zoneAhead offset) (minuteAfter t.time + 60000 * offset) =
      some ⟨minuteAfter t.time, by unfold minuteAfter maxTime at *; omega, by omega⟩ := by
    rw [candidateAt_ahead]
    exact timeClip_some _ _
  have hsteps : k < searchSteps := by
    simp only [searchWindow, searchSteps] at *
    omega
  have hsearch : searchAfter (zoneAhead offset) fields (some t) = some next := by
    rw [searchAfter_eq hfirst hcandidate]
    generalize searchSteps = n at hsteps
    refine search_eq h.satisfies hwithin hk hsteps ?_ fun j hj hsat => ?_
    · unfold minuteAfter maxTime at *
      omega
    · have hle := h.least (minuteAfter t.time + 60000 * j) (by unfold minuteAfter; omega)
        (by unfold minuteAfter; omega) hsat
      omega
  exact bind_ok.2 ⟨fields, hparse, by simp only [hsearch]⟩

end

/-! ## Operations -/

/-- The jobs that an operation leaves of those it has read, of a file or of all files. -/
def Op.jobsAfter (host : Host) (now : Instant) (op : Op) (path : String) (state : CronJobsState) :
    Except String (List AgentCronJob) :=
  match op with
  | .claimDue dueAt ids => (claimDueInState host.zone dueAt now (ids path) state).map fun r => r.1.jobs
  | .recordRunResult id error =>
    (Cron.recordRunResult host id now error state.jobs).map fun plan => plan.write.getD state.jobs
  | .recordSkipResult id => (Cron.recordSkipResult host id now state.jobs).map fun plan => plan.write.getD state.jobs
  | .recordDispatchResult id outcome error =>
    (recordDispatchInState host.zone id now outcome error state).map fun r => r.1.jobs
  | _ => .ok state.jobs

/-- The operation gives the job a new run. -/
def Advances (op : Op) (state : CronJobsState) (job : AgentCronJob) : Prop :=
  match op with
  | .claimDue dueAt _ => isDueJob job dueAt = true
  | .recordRunResult id _ => job.id = id ∧ job.status = .active
  | .recordSkipResult id => job.id = id ∧ job.status = .active
  | .recordDispatchResult id outcome error =>
    outcome = .skipped ∧ error = none ∧ job.status = .active ∧
      ∃ dispatch, (state.dispatches.find? fun d => d.id = id) = some dispatch ∧ job.id = dispatch.jobId
  | _ => False

/-- The time that the new run is searched from. -/
def Op.searchesFrom (now : Instant) (op : Op) (job : AgentCronJob) : Date :=
  match op with
  | .recordRunResult _ _ => runFrom job.schedule now
  | _ => some now

theorem editJobs_nil {edit : AgentCronJob → Except String (Option AgentCronJob)} {jobs jobs' : List AgentCronJob}
    (h : editJobs edit jobs = .ok (jobs', [])) : jobs' = jobs := by
  induction jobs generalizing jobs' with
  | nil =>
    cases h
    rfl
  | cons job rest ih =>
    obtain ⟨edited, -, h⟩ := bind_ok.1 h
    obtain ⟨⟨jobs, updated⟩, hr, h⟩ := bind_ok.1 h
    cases edited with
    | none =>
      cases h
      rw [ih hr]
    | some job' => cases h

theorem editPlan_jobs {edit : AgentCronJob → Except String (Option AgentCronJob)} {jobs jobs' : List AgentCronJob}
    (h : ((editPlan edit jobs).map fun plan => plan.write.getD jobs) = .ok jobs') :
    ∃ updated, editJobs edit jobs = .ok (jobs', updated) := by
  obtain ⟨plan, hplan, rfl⟩ := map_ok.1 h
  obtain ⟨⟨edited, updated⟩, hedited, hplan⟩ := bind_ok.1 hplan
  cases hplan
  refine ⟨updated, ?_⟩
  rw [hedited]
  cases updated with
  | nil =>
    rw [editJobs_nil hedited]
    rfl
  | cons job updated => rfl

section

variable {host : Host} {now : Instant} {path : String} {state : CronJobsState} {jobs' : List AgentCronJob}

theorem editJobs_next {edit : AgentCronJob → Except String (Option AgentCronJob)} {adv : AgentCronJob → Prop}
    {run : AgentCronJob → Except String (Option Instant)} {jobs updated : List AgentCronJob}
    (hedit : ∀ job edited, adv job → edit job = .ok edited →
      ∃ job', edited = some job' ∧ run job = .ok job'.nextRunAt) (h : editJobs edit jobs = .ok (jobs', updated)) :
    List.Forall₂ (fun job job' => adv job → run job = .ok job'.nextRunAt) jobs jobs' := by
  refine editJobs_forall₂ (r := (jobs', updated)) ?_ ?_ h
  · intro job _ hnone hadv
    obtain ⟨job', hsome, -⟩ := hedit job none hadv hnone
    cases hsome
  · intro job _ job' hsome hadv
    obtain ⟨job'', heq, hrun⟩ := hedit job (some job') hadv hsome
    cases heq
    exact hrun

theorem jobsAfter_next {op : Op} (h : op.jobsAfter host now path state = .ok jobs') :
    List.Forall₂ (fun job job' => Advances op state job →
      nextRun host.zone job.schedule (op.searchesFrom now job) = .ok job'.nextRunAt) state.jobs jobs' := by
  have hother : (∀ job, ¬Advances op state job) → .ok state.jobs = (.ok jobs' : Except String _) →
      List.Forall₂ (fun job job' => Advances op state job →
        nextRun host.zone job.schedule (op.searchesFrom now job) = .ok job'.nextRunAt) state.jobs jobs' := by
    intro hnone hok
    cases hok
    exact List.forall₂_same.2 fun job _ hadv => absurd hadv (hnone job)
  cases op with
  | claimDue dueAt ids =>
    obtain ⟨r, hr, rfl⟩ := map_ok.1 h
    obtain ⟨c, hc, rfl⟩ := claimDueInState_ok.1 hr
    refine (claimJobs_forall₂ hc).imp ?_
    rintro job job' ⟨id, claimed, hpass, -⟩ hdue
    obtain ⟨hnot, -, -⟩ | ⟨-, hclaims⟩ := hpass
    · rw [show isDueJob job dueAt = true from hdue] at hnot
      cases hnot
    · cases hclaims with
      | skipped next hrun => exact hrun
      | claimed _ next _ hrun => exact hrun
  | recordRunResult id error =>
    obtain ⟨updated, hjobs⟩ := editPlan_jobs h
    refine editJobs_next ?_ hjobs
    rintro job edited ⟨hid, hactive⟩ hedit
    rw [if_neg (not_not.2 hid), if_neg (not_not.2 hactive)] at hedit
    obtain ⟨next, hnext, hedit⟩ := bind_ok.1 hedit
    cases hedit
    exact ⟨_, rfl, hnext⟩
  | recordSkipResult id =>
    obtain ⟨updated, hjobs⟩ := editPlan_jobs h
    refine editJobs_next ?_ hjobs
    rintro job edited ⟨hid, hactive⟩ hedit
    rw [if_neg (not_not.2 hid), if_neg (not_not.2 hactive)] at hedit
    obtain ⟨next, hnext, hedit⟩ := bind_ok.1 hedit
    cases hedit
    exact ⟨_, rfl, hnext⟩
  | recordDispatchResult id outcome error =>
    obtain ⟨r, hr, rfl⟩ := map_ok.1 h
    rw [recordDispatchInState] at hr
    cases hfind : state.dispatches.find? fun d => d.id = id with
    | none =>
      rw [hfind] at hr
      cases hr
      refine List.forall₂_same.2 ?_
      rintro job - ⟨-, -, -, dispatch, hdispatch, -⟩
      rw [hfind] at hdispatch
      cases hdispatch
    | some dispatch =>
      rw [hfind] at hr
      obtain ⟨⟨jobs, updated⟩, hjobs, hr⟩ := bind_ok.1 hr
      cases hr
      refine editJobs_next ?_ hjobs
      rintro job edited ⟨houtcome, herror, hactive, dispatch', hdispatch, hid⟩ hedit
      rw [hfind] at hdispatch
      cases hdispatch
      rw [finishJob, if_neg (not_or.2 ⟨not_not.2 hid, not_not.2 hactive⟩), if_pos ⟨houtcome, herror⟩] at hedit
      obtain ⟨next, hnext, hedit⟩ := bind_ok.1 hedit
      cases hedit
      exact ⟨_, rfl, hnext⟩
  | _ => exact hother (fun _ => id) h

end

/-! ## The law -/

/-- `recordRunResult` is called in the last millisecond before a minute that satisfies the fields. -/
def Op.PassesMinute (offset : Int) (fields : CronFields) (now : Instant) (op : Op) : Prop :=
  match op with
  | .recordRunResult _ _ => (now.time + 1) % 60000 = 0 ∧ Satisfies fields (now.time + 1 + 60000 * offset)
  | _ => False

section

variable {offset : Int} {fields : CronFields} {now next : Instant} {expression : String}

theorem nextRun_eq (hparse : parseCronExpression expression = .ok fields) {t : Instant}
    (h : NextMinute offset fields t next) :
    nextRun (zoneAhead offset) (.cron expression) (some t) = .ok (some next) :=
  bind_ok.2 ⟨some (some next), map_ok.2 ⟨next, nextCronRunAfter_eq hparse h, rfl⟩, rfl⟩

/-- What a millisecond more does to the next minute: nothing, unless it is that minute. -/
theorem NextMinute.succ (h : NextMinute offset fields now next) {t : Instant} (ht : t.time = now.time + 1)
    (hne : next.time ≠ t.time) : NextMinute offset fields t next := by
  have hlater := h.later
  have hwithin := h.within
  refine ⟨h.minute, by omega, h.satisfies, fun u hu hlt hsat => h.least u hu (by omega) hsat, ?_⟩
  unfold minuteAfter at *
  omega

theorem NextMinute.eq_succ_iff (h : NextMinute offset fields now next) : next.time = now.time + 1 ↔
      (now.time + 1) % 60000 = 0 ∧ Satisfies fields (now.time + 1 + 60000 * offset) := by
  constructor
  · intro heq
    rw [← heq]
    exact ⟨h.minute, h.satisfies⟩
  · rintro ⟨hminute, hsat⟩
    have hle := h.least (now.time + 1) hminute (by omega) hsat
    have hlater := h.later
    omega

theorem nextRun_plus_iff (hparse : parseCronExpression expression = .ok fields)
    (h : NextMinute offset fields now next) {run : Option Instant}
    (hrun : nextRun (zoneAhead offset) (.cron expression) (Date.plus (some now) 1) = .ok run) :
    run = some next ↔ ¬next.time = now.time + 1 := by
  have hlater := h.later
  have hlower := now.lower
  have hupper := next.upper
  have hplus : Date.plus (some now) 1 = some ⟨now.time + 1, by omega, by omega⟩ := timeClip_some _ _
  rw [hplus] at hrun
  constructor
  · rintro rfl heq
    have hafter := nextRun_after (fun _ => keepsMinute_fixed _ _) hrun
    rw [heq] at hafter
    exact absurd hafter (Int.lt_irrefl _)
  · intro hne
    rw [nextRun_eq hparse (h.succ rfl hne)] at hrun
    exact (Except.ok.inj hrun).symm

/-- In a zone of a fixed offset the search returns the least minute after a time that satisfies all fields, and
every operation gives a job that it advances this minute, but for `recordRunResult` in the last millisecond
before it, which searches from a millisecond later. -/
theorem advances_iff {host : Host} (hzone : host.zone = zoneAhead offset)
    (hparse : parseCronExpression expression = .ok fields) (hnext : NextMinute offset fields now next) :
    nextCronRunAfter host.zone expression (some now) = .ok next ∧
    ∀ op path state jobs', op.jobsAfter host now path state = .ok jobs' →
      List.Forall₂ (fun job job' => Advances op state job → job.schedule = .cron expression →
        (job'.nextRunAt = some next ↔ ¬op.PassesMinute offset fields now)) state.jobs jobs' := by
  refine ⟨hzone ▸ nextCronRunAfter_eq hparse hnext, fun op path state jobs' h => ?_⟩
  refine (jobsAfter_next h).imp fun job job' hrun hadv hschedule => ?_
  have hrun := hrun hadv
  rw [hzone, hschedule] at hrun
  have hplain : nextRun (zoneAhead offset) (.cron expression) (some now) = .ok job'.nextRunAt →
      job'.nextRunAt = some next := by
    intro hrun
    rw [nextRun_eq hparse hnext] at hrun
    exact (Except.ok.inj hrun).symm
  cases op with
  | recordRunResult id error =>
    rw [Op.searchesFrom, hschedule] at hrun
    rw [nextRun_plus_iff hparse hnext hrun, hnext.eq_succ_iff]
    rfl
  | _ => exact iff_of_true (hplain hrun) id

end

def everyMinute : CronFields where
  minute := List.range' 0 60
  hour := List.range' 0 24
  dayOfMonth := List.range' 1 31
  month := List.range' 1 12
  dayOfWeek := List.range' 0 8

theorem parse_everyMinute : parseCronExpression "* * * * *" = .ok everyMinute := by decide

theorem nextMinute_everyMinute : NextMinute 0 everyMinute (atTime 59999) (atTime 60000) where
  minute := by decide
  later := by decide
  satisfies := matchesLocal_iff.1 (by decide)
  least u hu hlt _ := by
    have hlt : (59999 : Int) < u := hlt
    show 60000 ≤ u
    omega
  within := by decide

def everyMinuteState : CronJobsState :=
  { jobs := [minuteJob (atTime 0) (atTime 60000) none 0], dispatches := [] }

/-- A skip in the last millisecond of a minute: the run is the next minute. -/
theorem advances_iff_skip : ∃ job', (Op.recordSkipResult "m").jobsAfter utcHost (atTime 59999) "jobs.json"
    everyMinuteState = .ok [job'] ∧ job'.nextRunAt = some (atTime 60000) := by
  have hrun : (Op.recordSkipResult "m").jobsAfter utcHost (atTime 59999) "jobs.json" everyMinuteState =
      .ok [{ minuteJob (atTime 0) (atTime 60000) none 0 with
        lastSkippedAt := some (atTime 59999), updatedAt := atTime 59999 }] := by decide
  refine ⟨_, hrun, ?_⟩
  have hall := (@advances_iff 0 everyMinute (atTime 59999) (atTime 60000) "* * * * *" utcHost rfl
    parse_everyMinute nextMinute_everyMinute).2 _ _ _ _ hrun
  exact ((List.forall₂_cons.1 hall).1 ⟨rfl, rfl⟩ rfl).2 id

/-- The result of a run at the same time: the job runs a minute later. -/
theorem result_passes_minute : ∃ job job', everyMinuteState.jobs = [job] ∧
    Advances (.recordRunResult "m" none) everyMinuteState job ∧
    (Op.recordRunResult "m" none).jobsAfter utcHost (atTime 59999) "jobs.json" everyMinuteState = .ok [job'] ∧
    NextMinute 0 everyMinute (atTime 59999) (atTime 60000) ∧ job'.nextRunAt = some (atTime 120000) := by
  refine ⟨_, { minuteJob (atTime 0) (atTime 120000) (some (atTime 59999)) 1 with updatedAt := atTime 59999 }, rfl,
    ⟨rfl, rfl⟩, by decide, nextMinute_everyMinute, rfl⟩

end Cron
end RePrime
