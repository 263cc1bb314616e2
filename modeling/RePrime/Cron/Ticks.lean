import RePrime.Cron.Status

/-!
# RePrime.Cron.Ticks

Each tick of a job is dispatched once at most.

* `KeepsMinute`: a time from which `setSeconds(0, 0)` does not go back to an earlier hour.
* `nextRun_after`: from such a time the next run is a later one.
* `TickRun`: the runs of a store under a clock that does not go back, with the ticks dispatched.
* `tickRun_atMostOnce`: in a run that computes the runs of cron schedules from such times only, each
  job has one outstanding dispatch at most, and no tick is dispatched twice.
* `stored_once`: no job is in two places.
-/

namespace RePrime
namespace Cron

open Fallible List
open AgentCronDispatchRecord

def AgentCronSchedule.isCron : AgentCronSchedule → Bool
  | .cron _ => true
  | _ => false

/-! ## The next run is a later one -/

/-- The local minute of the time is not read back as that of an earlier hour. -/
def KeepsMinute (zone : Zone) (t : Instant) : Prop :=
  t.time < zone.utc (zone.localTime t.time - zone.localTime t.time % 60000) + 60000

/-- In a zone with one offset every time keeps its minute. -/
theorem keepsMinute_fixed (ms : Int) (t : Instant) : KeepsMinute (Zone.fixed ms) t := by
  simp only [KeepsMinute, Zone.utc, Zone.localTime, Zone.fixed]
  omega

section

variable {zone : Zone}

theorem search_lower {fields : CronFields} {deadline : Int} {n : Nat} : ∀ {l : Int} {found : Instant},
    search zone fields deadline n l = some found → zone.utc l ≤ found.time := by
  induction n with
  | zero =>
    intro l found h
    cases h
  | succ n ih =>
    intro l found h
    rw [search] at h
    cases hc : candidateAt zone l with
    | none =>
      simp only [hc] at h
      cases h
    | some candidate =>
      have htime := candidateAt_eq hc
      simp only [hc] at h
      split at h
      · split at h
        · cases h
          omega
        · have hstep := zone.utc_advances l
          have hrest := ih h
          rw [nextLocal, htime] at hrest
          omega
      · cases h

variable {next : Instant}

theorem nextCronRunAfter_after {expression : String} {t : Instant} (hk : KeepsMinute zone t)
    (h : nextCronRunAfter zone expression (some t) = .ok next) : t.time < next.time := by
  obtain ⟨fields, -, h⟩ := bind_ok.1 h
  cases hs : searchAfter zone fields (some t) with
  | none =>
    simp only [hs] at h
    cases h
  | some found =>
    simp only [hs] at h
    cases h
    obtain ⟨l, hl, hs⟩ := Option.bind_eq_some_iff.1 hs
    obtain ⟨first, -, hs⟩ := Option.bind_eq_some_iff.1 hs
    have hlower := search_lower hs
    obtain ⟨floor, hf, rfl⟩ := Option.map_eq_some_iff.1 hl
    have htime := timeClip_time hf
    have hstep := zone.utc_advances (zone.localTime t.time - zone.localTime t.time % 60000)
    rw [← htime] at hstep
    unfold KeepsMinute at hk
    rw [nextLocal] at hlower
    omega

/-- A next run that is computed from a time that keeps its minute is later than it. -/
theorem nextRun_after {schedule : AgentCronSchedule} {t : Instant}
    (hk : schedule.isCron = true → KeepsMinute zone t)
    (h : nextRun zone schedule (some t) = .ok (some next)) : t.time < next.time := by
  cases schedule with
  | once expression => cases h
  | interval expression ms =>
    obtain ⟨run, hr, h⟩ := bind_ok.1 h
    unfold nextRunAtForSchedule at hr
    simp only [] at hr
    split at hr
    · cases hr
    · rename_i hpos
      cases hr
      obtain ⟨next', hn, he⟩ := map_ok.1 h
      cases he
      simp only [Date.plus, Option.bind_some] at hn
      cases hc : timeClip (t.time + ms) with
      | none =>
        rw [hc] at hn
        cases hn
      | some u =>
        rw [hc] at hn
        cases hn
        have := timeClip_time hc
        omega
  | cron expression =>
    obtain ⟨run, hr, h⟩ := bind_ok.1 h
    obtain ⟨t', ht, rfl⟩ := map_ok.1 hr
    obtain ⟨next', hn, he⟩ := map_ok.1 h
    cases hn
    cases he
    exact nextCronRunAfter_after (hk rfl) ht

theorem nextRun_none {schedule : AgentCronSchedule} : nextRun zone schedule none ≠ .ok (some next) := by
  intro h
  cases schedule with
  | once expression => cases h
  | interval expression ms =>
    obtain ⟨run, hr, h⟩ := bind_ok.1 h
    unfold nextRunAtForSchedule at hr
    simp only [] at hr
    split at hr
    · cases hr
    · cases hr
      cases h
  | cron expression =>
    obtain ⟨run, hr, h⟩ := bind_ok.1 h
    obtain ⟨t, ht, -⟩ := map_ok.1 hr
    obtain ⟨fields, -, ht⟩ := bind_ok.1 ht
    cases ht

end

/-! ## Times of a step -/

/-- The runs of cron schedules that a step computes are computed from times that keep their minute. -/
structure KeepsMinutes (host : Host) (op : Op) (now : Instant) (w : StoreWorld) : Prop where
  reruns : ∀ job ∈ readJobs w, ∀ schedule t, Reruns host now (readJobs w) job op schedule (some t) →
    schedule.isCron = true → KeepsMinute host.zone t
  claims : ∀ dueAt draw, op = .claimDue dueAt draw → ∀ job ∈ readJobs w, isDueJob job dueAt = true →
    job.schedule.isCron = true → KeepsMinute host.zone now
  skips : ∀ path ∈ w.mode.paths, ∀ d ∈ (w.files path).dispatches, SkippedDispatch op d →
    ∀ job ∈ (w.files path).jobs, job.id = d.jobId → job.status = .active →
      job.schedule.isCron = true → KeepsMinute host.zone now

/-- Where the next run of a job comes from. -/
def NextFrom (now : Instant) (op : Op) (w : StoreWorld) (job' : AgentCronJob) : Prop :=
  ∀ next, job'.nextRunAt = some next →
    (∃ p, ∃ job ∈ (w.files p).jobs, job.id = job'.id ∧ job.nextRunAt = some next) ∨
      now.time < next.time ∨ op.newId = some job'.id

section

variable {host : Host} {now : Instant} {op : Op} {w w' : StoreWorld}

theorem Reruns.after {jobs : List AgentCronJob} {job : AgentCronJob} {schedule : AgentCronSchedule}
    {t : Instant} (h : Reruns host now jobs job op schedule (some t)) : now.time ≤ t.time := by
  generalize ha : (some t : Date) = after at h
  cases h with
  | ran error hactive =>
    cases hs : job.schedule with
    | cron expression =>
      rw [hs] at ha
      have := timeClip_time ha.symm
      omega
    | _ =>
      rw [hs] at ha
      cases ha
      exact le_refl _
  | _ =>
    cases ha
    exact le_refl _

variable {job' : AgentCronJob}

theorem Follows.nextFrom (h : Follows host now op w w') (hk : KeepsMinutes host op now w) (path : String)
    (hj' : job' ∈ (w'.files path).jobs) : NextFrom now op w job' := by
  intro next hnext
  obtain ⟨p, job, hj, hedit, -⟩ | hc := h.jobs path job' hj'
  · obtain rfl | ⟨hp, he⟩ := hedit
    · exact .inl ⟨p, job', hj, rfl, hnext⟩
    · cases he.rerun with
      | kept _ _ hn => exact .inl ⟨p, job, hj, he.id.symm, hn.symm.trans hnext⟩
      | stopped _ hn =>
        rw [hn] at hnext
        cases hnext
      | runs next' schedule after _ hn hreruns hrun _ =>
        obtain rfl := Option.some.inj (hn.symm.trans hnext)
        cases after with
        | none => exact absurd hrun nextRun_none
        | some t =>
          have hlater := nextRun_after (hk.reruns job (mem_readJobs.2 ⟨p, hp, hj⟩) schedule t hreruns) hrun
          have := hreruns.after
          exact .inr (.inl (by omega))
      | skipped _ _ _ _ _ hn =>
        rw [hn] at hnext
        cases hnext
  · exact .inr (.inr hc.id)

theorem ClaimOf.next {dueAt : Instant} {draw : Nat → String} {s s' : CronJobsState}
    {claimed : List Claimed} (h : ClaimOf host.zone dueAt now draw s s' claimed)
    (hk : ∀ job ∈ s.jobs, isDueJob job dueAt = true → job.schedule.isCron = true →
      KeepsMinute host.zone now) (hj' : job' ∈ s'.jobs) {next : Instant} (hnext : job'.nextRunAt = some next) :
    job' ∈ s.jobs ∧ isDueJob job' dueAt = false ∨ now.time < next.time := by
  obtain ⟨job, hj, id, c, hpass, -⟩ := exists_of_forall₂ h.jobs.flip hj'
  obtain ⟨hnot, rfl, -⟩ | ⟨hdue, hclaims⟩ := hpass
  · exact .inl ⟨hj, hnot⟩
  · right
    cases hclaims with
    | skipped next' hrun _ =>
      obtain rfl : next' = some next := hnext
      exact nextRun_after (hk job hj hdue) hrun
    | claimed _ next' _ hrun _ =>
      obtain rfl : next' = some next := hnext
      exact nextRun_after (hk job hj hdue) hrun

/-- A job while dispatches end: its next run is as before, or later than now. -/
structure Settled (now : Instant) (job job' : AgentCronJob) : Prop where
  id : job'.id = job.id
  schedule : job'.schedule = job.schedule
  active : job'.status = .active → job.status = .active
  next : ∀ next, job'.nextRunAt = some next → job.nextRunAt = some next ∨ now.time < next.time

theorem Settled.finishedBy {job job₁ : AgentCronJob} {skips : Prop} {jobIds : List String}
    (h : Settled now job job₁) (hf : FinishedBy host.zone now skips jobIds job₁ job')
    (hk : skips → job₁.id ∈ jobIds → job₁.status = .active → job₁.schedule.isCron = true →
      KeepsMinute host.zone now) : Settled now job job' := by
  obtain ⟨-, rfl⟩ | ⟨hin, hactive, hfin⟩ := hf
  · exact h
  · have hjob := h.active hactive
    cases hfin with
    | skipped hskips next hrun =>
      refine ⟨h.id, h.schedule, fun _ => hjob, fun next' hn => .inr ?_⟩
      obtain rfl : next = some next' := hn
      exact nextRun_after (hk hskips hin hactive) hrun
    | ran | interrupted => exact ⟨h.id, h.schedule, fun _ => hjob, h.next⟩

theorem Settles.nextFrom (h : Settles host now op w w') (hk : KeepsMinutes host op now w) (path : String)
    (hj' : job' ∈ (w'.files path).jobs) : NextFrom now op w job' := by
  obtain ⟨mutator, paths, hpaths, hm, rfl⟩ := h
  have hfiles := @mutatePaths_files _ (fun _ => mutator)
    (fun p s => s.dispatches ⊆ (w.files p).dispatches ∧
      ∀ job' ∈ s.jobs, ∃ job ∈ (w.files p).jobs, Settled now job job') paths
  have hsettled := (hfiles ?_ (fun p => ⟨fun _ h => h, fun job hj =>
    ⟨job, hj, rfl, rfl, fun h => h, fun _ hn => .inl hn⟩⟩) path).2
  · intro next hnext
    obtain ⟨job, hj, hset⟩ := hsettled job' hj'
    obtain hn | hn := hset.next next hnext
    · exact .inl ⟨path, job, hj, hset.id.symm, hn⟩
    · exact .inr (.inl hn)
  · intro p hp s r hr hs
    have hends := hm s r hr
    refine ⟨fun d hd => hs.1 (hends.dispatches.subset hd), ?_⟩
    obtain heq | ⟨skipped, _, jobIds, hends, -, hsource⟩ := hends
    · rw [heq]
      exact hs.2
    · intro job₂ hj₂
      obtain ⟨job₁, hj₁, hf⟩ := exists_of_forall₂ hends.jobs.flip hj₂
      obtain ⟨job, hj, hset⟩ := hs.2 job₁ hj₁
      refine ⟨job, hj, hset.finishedBy hf ?_⟩
      intro hskip hin hactive hcron
      obtain ⟨d, hd, hid, hskips⟩ := hsource job₁.id hin
      rw [hset.schedule] at hcron
      exact hk.skips p (hpaths hp) d (hs.1 hd) (hskips hskip) job hj (hset.id.symm.trans hid.symm)
        (hset.active hactive) hcron

theorem runs_keeps (hp : Placed w) (hf : Fresh op w) (hr : Runs host now op w w') {p id : String}
    (hid : id ∈ ids (w.files p).jobs) : ∃ path, id ∈ ids (w'.files path).jobs := by
  cases hr with
  | plan plan he => exact (runPlan_follows he hp hf).2.keeps p id hid
  | claim dueAt draw _ =>
    refine ⟨p, ?_⟩
    rwa [claimDue_ids hp]
  | settle _ h =>
    refine ⟨p, ?_⟩
    rwa [(h.files p).1]
  | register sessionId path _ =>
    refine ⟨p, ?_⟩
    rwa [registerSessionArtifact_files]

end

/-! ## Ticks -/

/-- A job and the time it is scheduled for. -/
abbrev Tick := String × Instant

def tickOf (d : AgentCronDispatchRecord) : Tick := (d.jobId, d.scheduledFor)

/-- The ticks a step dispatches: a claim appends its records to those of each file. -/
def newTicks (op : Op) (w w' : StoreWorld) : List Tick :=
  match op with
  | .claimDue _ _ => w.mode.paths.flatMap fun path =>
      ((w'.files path).dispatches.drop (w.files path).dispatches.length).map tickOf
  | _ => []

/-- A new process over the files: it knows no session. -/
def restarted (w : StoreWorld) : StoreWorld :=
  match w.mode with
  | .file path => { w with mode := .file path }
  | .sessionArtifacts _ => { w with mode := .sessionArtifacts .empty }

/-- The runs of a store under a clock, with the ticks that have been dispatched. -/
inductive TickRun (host : Host) (Allowed : Op → Instant → StoreWorld → Prop) :
    StoreWorld → Instant → List Tick → Prop where
  | start {w : StoreWorld} (now : Instant) (h : NewStore w) : TickRun host Allowed w now []
  | step {w : StoreWorld} {clock : Instant} {ticks : List Tick} (op : Op) (now : Instant)
      (h : TickRun host Allowed w clock ticks) (hclock : clock.time ≤ now.time)
      (hdue : ∀ dueAt draw, op = .claimDue dueAt draw → dueAt.time ≤ now.time)
      (hf : Fresh op w) (ha : Allowed op now w) :
      TickRun host Allowed (op.run host now w) now (ticks ++ newTicks op w (op.run host now w))
  | restart {w : StoreWorld} {clock : Instant} {ticks : List Tick}
      (h : TickRun host Allowed w clock ticks) : TickRun host Allowed (restarted w) clock ticks

/-- One outstanding dispatch of a job at most, in whichever files, and no tick twice. -/
structure AtMostOnce (w : StoreWorld) (ticks : List Tick) : Prop where
  outstanding : ∀ paths : List String, paths.Nodup →
    ((paths.flatMap fun path => (w.files path).dispatches).map jobId).Nodup
  ticks : ticks.Nodup

/-- What links the dispatched ticks to the jobs and the clock. -/
structure Issued (w : StoreWorld) (clock : Instant) (ticks : List Tick) : Prop where
  past : ∀ tick ∈ ticks, tick.2.time ≤ clock.time
  known : ∀ tick ∈ ticks, ∃ path, tick.1 ∈ ids (w.files path).jobs
  ahead : ∀ tick ∈ ticks, ∀ path, ∀ job ∈ (w.files path).jobs, job.id = tick.1 →
    ∀ next, job.nextRunAt = some next → tick.2.time < next.time
  once : ticks.Nodup

section

variable {host : Host} {now clock : Instant} {op : Op} {w w' : StoreWorld} {ticks : List Tick}

theorem Placed.outstanding (h : Placed w) {paths : List String} (hn : paths.Nodup) :
    ((paths.flatMap fun path => (w.files path).dispatches).map jobId).Nodup := by
  rw [map_flatMap, nodup_flatMap]
  refine ⟨fun path _ => h.single path, hn.imp ?_⟩
  intro p q hpq jobId hp hq
  obtain ⟨d, hd, rfl⟩ := mem_map.1 hp
  obtain ⟨d', hd', hid⟩ := mem_map.1 hq
  have hjob := h.dispatched q d' hd'
  rw [hid] at hjob
  exact hpq (h.apart p q d.jobId (h.dispatched p d hd) hjob)

theorem Issued.quiet (h : Issued w clock ticks) (hclock : clock.time ≤ now.time) (hf : Fresh op w)
    (hkeeps : ∀ p id, id ∈ ids (w.files p).jobs → ∃ path, id ∈ ids (w'.files path).jobs)
    (hnext : ∀ path, ∀ job' ∈ (w'.files path).jobs, NextFrom now op w job') : Issued w' now ticks := by
  refine ⟨?_, ?_, ?_, h.once⟩
  · intro tick ht
    have := h.past tick ht
    omega
  · intro tick ht
    obtain ⟨p, hid⟩ := h.known tick ht
    exact hkeeps p tick.1 hid
  · intro tick ht path job' hj' hid next hn
    obtain ⟨p, job, hj, hjob, hn'⟩ | hlater | hnew := hnext path job' hj' next hn
    · exact h.ahead tick ht p job hj (hjob.trans hid) next hn'
    · have := h.past tick ht
      omega
    · obtain ⟨p, hknown⟩ := h.known tick ht
      rw [← hid] at hknown
      exact absurd hknown (hf.job job'.id hnew p)

/-! ## Claims -/

variable {dueAt : Instant} {draw : String → Nat → String}

/-- The records a claim appends to those of a file: of due jobs, and one for a job at most. -/
theorem claimDue_appends (hp : Placed w) (path : String) :
    ∃ new, (((claimDue host dueAt now draw w).2.files path).dispatches.drop
        (w.files path).dispatches.length) = new ∧
      (∀ d ∈ new, ∃ job ∈ (w.files path).jobs, isDueJob job dueAt = true ∧ d.jobId = job.id ∧
        job.nextRunAt = some d.scheduledFor) ∧
      (new.map jobId).Sublist (ids (w.files path).jobs) := by
  obtain h | ⟨claimed, hc⟩ := @claimDue_files host now w dueAt draw hp path
  · refine ⟨[], ?_, by simp, by simp⟩
    rw [h, drop_length]
  · refine ⟨claimed.map Prod.fst, ?_, ?_, ?_⟩
    · rw [hc.dispatches, drop_left]
    · intro d hd
      obtain ⟨c, hmem, rfl⟩ := mem_map.1 hd
      obtain ⟨job, hj, hdue, hid, hnext, -⟩ := hc.claim hmem
      exact ⟨job, hj, hdue, hid, hnext⟩
    · rw [map_map]
      exact hc.once

theorem mem_newTicks (hp : Placed w) {tick : Tick}
    (h : tick ∈ newTicks (.claimDue dueAt draw) w (claimDue host dueAt now draw w).2) :
    ∃ path ∈ w.mode.paths, ∃ job ∈ (w.files path).jobs, isDueJob job dueAt = true ∧
      tick.1 = job.id ∧ job.nextRunAt = some tick.2 := by
  obtain ⟨path, hpath, h⟩ := mem_flatMap.1 h
  obtain ⟨new, hnew, hsource, -⟩ := @claimDue_appends host now w dueAt draw hp path
  rw [hnew] at h
  obtain ⟨d, hd, rfl⟩ := mem_map.1 h
  obtain ⟨job, hj, hdue, hid, hnext⟩ := hsource d hd
  exact ⟨path, hpath, job, hj, hdue, hid, hnext⟩

theorem newTicks_nodup (hp : Placed w) :
    (newTicks (.claimDue dueAt draw) w (claimDue host dueAt now draw w).2).Nodup := by
  refine List.Nodup.of_map Prod.fst ?_
  rw [newTicks, map_flatMap, nodup_flatMap]
  have hids : ∀ path, ((((claimDue host dueAt now draw w).2.files path).dispatches.drop
      (w.files path).dispatches.length).map tickOf).map Prod.fst |>.Sublist (ids (w.files path).jobs) := by
    intro path
    obtain ⟨new, hnew, -, hsub⟩ := @claimDue_appends host now w dueAt draw hp path
    rw [hnew, map_map]
    exact hsub
  refine ⟨fun path _ => (hp.unique path).sublist (hids path), hp.paths.imp ?_⟩
  intro p q hpq id hidp hidq
  exact hpq (hp.apart p q id ((hids p).subset hidp) ((hids q).subset hidq))

theorem claimDue_next (hp : Placed w) (hk : KeepsMinutes host (.claimDue dueAt draw) now w)
    {path : String} {job' : AgentCronJob}
    (hj' : job' ∈ ((claimDue host dueAt now draw w).2.files path).jobs) {next : Instant}
    (hn : job'.nextRunAt = some next) : job' ∈ (w.files path).jobs ∨ now.time < next.time := by
  obtain hsame | ⟨hpath, r, hr, hfile⟩ := @mutatePaths_once _
    (fun path => claimDueInState host.zone dueAt now (draw path)) w.mode.paths hp.paths w path
  · rw [claimDue, mutateStates, hsame] at hj'
    exact .inl hj'
  · rw [claimDue, mutateStates, hfile] at hj'
    obtain ⟨claimed, hc⟩ := claimDueInState_claimOf hr
    refine (hc.next ?_ hj' hn).imp_left And.left
    intro job hj
    exact hk.claims dueAt draw rfl job (mem_readJobs.2 ⟨path, hpath, hj⟩)

theorem claimDue_next_of_tick (hp : Placed w) (hk : KeepsMinutes host (.claimDue dueAt draw) now w)
    {tick : Tick} (h : tick ∈ newTicks (.claimDue dueAt draw) w (claimDue host dueAt now draw w).2)
    {path : String} {job' : AgentCronJob}
    (hj' : job' ∈ ((claimDue host dueAt now draw w).2.files path).jobs) (hid : job'.id = tick.1)
    {next : Instant} (hn : job'.nextRunAt = some next) : now.time < next.time := by
  obtain ⟨p, hp', h⟩ := mem_flatMap.1 h
  obtain ⟨d, hd, rfl⟩ := mem_map.1 h
  obtain hsame | ⟨-, r, hr, hfile⟩ := @mutatePaths_once _
    (fun path => claimDueInState host.zone dueAt now (draw path)) w.mode.paths hp.paths w p
  · rw [claimDue, mutateStates, hsame, drop_length] at hd
    cases hd
  · obtain ⟨claimed, hc⟩ := claimDueInState_claimOf hr
    rw [claimDue, mutateStates, hfile, hc.dispatches, drop_left] at hd
    obtain ⟨c, hmem, rfl⟩ := mem_map.1 hd
    obtain ⟨job, hj, hdue, hjob, -⟩ := hc.claim hmem
    have hsameId : job'.id = job.id := hid.trans hjob
    obtain rfl : path = p := by
      refine hp.apart path p job.id ?_ (mem_ids_of_mem hj)
      rw [← hsameId, ← claimDue_ids hp]
      exact mem_ids_of_mem hj'
    rw [claimDue, mutateStates, hfile] at hj'
    obtain ⟨hold, hnot⟩ | hlater := hc.next (fun job hj =>
      hk.claims dueAt draw rfl job (mem_readJobs.2 ⟨path, hp', hj⟩)) hj' hn
    · rw [(hp.unique path).eq hold hj hsameId, hdue] at hnot
      cases hnot
    · exact hlater

/-- A claim dispatches ticks that have come and were not dispatched, and gives their jobs later runs. -/
theorem Issued.claimed (h : Issued w clock ticks) (hp : Placed w) (hclock : clock.time ≤ now.time)
    (hdue : dueAt.time ≤ now.time) (hk : KeepsMinutes host (.claimDue dueAt draw) now w) :
    Issued (claimDue host dueAt now draw w).2 now
      (ticks ++ newTicks (Op.claimDue dueAt draw) w (claimDue host dueAt now draw w).2) := by
  have hpast : ∀ tick ∈ newTicks (.claimDue dueAt draw) w (claimDue host dueAt now draw w).2,
      tick.2.time ≤ now.time := by
    intro tick ht
    obtain ⟨path, -, job, -, hd, -, hnext⟩ := mem_newTicks hp ht
    obtain ⟨next, hn, hle⟩ := isDueJob_next hd
    rw [hnext] at hn
    cases hn
    omega
  refine ⟨?_, ?_, ?_, ?_⟩
  · intro tick ht
    obtain ht | ht := mem_append.1 ht
    · have := h.past tick ht
      omega
    · exact hpast tick ht
  · intro tick ht
    obtain ht | ht := mem_append.1 ht
    · obtain ⟨path, hid⟩ := h.known tick ht
      refine ⟨path, ?_⟩
      rwa [claimDue_ids hp]
    · obtain ⟨path, -, job, hj, -, hid, -⟩ := mem_newTicks hp ht
      refine ⟨path, ?_⟩
      rw [claimDue_ids hp, hid]
      exact mem_ids_of_mem hj
  · intro tick ht path job' hj' hid next hn
    obtain ht | ht := mem_append.1 ht
    · obtain hold | hlater := claimDue_next hp hk hj' hn
      · exact h.ahead tick ht path job' hold hid next hn
      · have := h.past tick ht
        omega
    · have := hpast tick ht
      have := claimDue_next_of_tick hp hk ht hj' hid hn
      omega
  · refine nodup_append'.2 ⟨h.once, newTicks_nodup hp, ?_⟩
    intro tick hold hnew
    obtain ⟨path, -, job, hj, -, hid, hn⟩ := mem_newTicks hp hnew
    have := h.ahead tick hold path job hj hid.symm tick.2 hn
    omega

/-! ## Runs -/

theorem runs_issued (h : Issued w clock ticks) (hp : Placed w) (hclock : clock.time ≤ now.time)
    (hdue : ∀ dueAt draw, op = .claimDue dueAt draw → dueAt.time ≤ now.time) (hf : Fresh op w)
    (hk : KeepsMinutes host op now w) :
    Issued (op.run host now w) now (ticks ++ newTicks op w (op.run host now w)) := by
  have hquiet (hr : Runs host now op w (op.run host now w))
      (hnext : ∀ path, ∀ job' ∈ ((op.run host now w).files path).jobs, NextFrom now op w job') :
      Issued (op.run host now w) now ticks :=
    h.quiet hclock hf (fun p id hid => runs_keeps hp hf hr hid) hnext
  by_cases hclaim : ∃ dueAt draw, op = .claimDue dueAt draw
  · obtain ⟨dueAt, draw, rfl⟩ := hclaim
    exact h.claimed hp hclock (hdue dueAt draw rfl) hk
  · have hnone : newTicks op w (op.run host now w) = [] := by
      unfold newTicks
      split
      · exact absurd ⟨_, _, rfl⟩ hclaim
      · rfl
    rw [hnone, append_nil]
    have hr := op.runs host now w
    refine hquiet hr ?_
    generalize op.run host now w = w' at hr
    intro path job' hj'
    cases hr with
    | plan plan he => exact (runPlan_follows he hp hf).2.nextFrom hk path hj'
    | claim dueAt draw hop => exact absurd ⟨dueAt, draw, hop⟩ hclaim
    | settle _ hs => exact hs.nextFrom hk path hj'
    | register sessionId p _ =>
      rw [registerSessionArtifact_files] at hj'
      exact fun next hn => .inl ⟨path, job', hj', rfl, hn⟩

theorem restarted_files (w : StoreWorld) : (restarted w).files = w.files := by
  unfold restarted
  split <;> rfl

theorem restarted_placed (h : Placed w) : Placed (restarted w) := by
  refine h.of_files (restarted_files w) ?_
  unfold restarted
  split
  · exact nodup_singleton _
  · exact nodup_nil

theorem Issued.restarted (h : Issued w clock ticks) : Issued (restarted w) clock ticks := by
  refine ⟨h.past, ?_, ?_, h.once⟩ <;> rw [restarted_files]
  · exact h.known
  · exact h.ahead

/-- The invariant of a run whose cron runs are computed from times that keep their minute. -/
theorem TickRun.issued (h : TickRun host (KeepsMinutes host) w clock ticks) : Placed w ∧ Issued w clock ticks := by
  induction h with
  | start now hs => exact ⟨hs.placed, by simp, by simp, by simp, nodup_nil⟩
  | @step v clock ticks op now _ hclock hdue hf hk ih =>
    exact ⟨runs_placed ih.1 hf (op.runs host now v), runs_issued ih.2 ih.1 hclock hdue hf hk⟩
  | restart _ ih => exact ⟨restarted_placed ih.1, ih.2.restarted⟩

/-- Each job has one outstanding dispatch at most, and no tick is dispatched twice. -/
theorem tickRun_atMostOnce (h : TickRun host (KeepsMinutes host) w clock ticks) : AtMostOnce w ticks where
  outstanding := fun _ hn => h.issued.1.outstanding hn
  ticks := h.issued.2.once

end

/-! ## Zones with one offset -/

theorem keepsMinutes_fixed {host : Host} {ms : Int} (h : host.zone = Zone.fixed ms) (op : Op)
    (now : Instant) (w : StoreWorld) : KeepsMinutes host op now w := by
  refine ⟨?_, ?_, ?_⟩
  · intro _ _ _ t _ _
    rw [h]
    exact keepsMinute_fixed ms t
  · intro _ _ _ _ _ _ _
    rw [h]
    exact keepsMinute_fixed ms now
  · intro _ _ _ _ _ _ _ _ _ _
    rw [h]
    exact keepsMinute_fixed ms now

/-! ## An hour that is repeated -/

/-- 2026-10-25T01:00Z, when a clock in the zone goes from 03:00 back to 02:00. -/
def clockBack : Int := 1792890000000

/-- The first of two passes is read, as `Date` does. -/
def berlin : Zone where
  offset t := if t < clockBack then 7200000 else 3600000
  localOffset l := if l < clockBack + 7200000 then 7200000 else 3600000
  advances l := by
    simp only [clockBack]
    split_ifs <;> omega

def berlinHost : Host where
  zone := berlin
  parseDate _ := none
  resolve path := path

/-- Minutes after the clock goes back. -/
def minutesAfter (n : Int) (h : -60 ≤ n ∧ n ≤ 60) : Instant :=
  ⟨clockBack + 60000 * n, by simp only [clockBack, maxTime]; omega, by simp only [clockBack, maxTime]; omega⟩

/-- A job every minute. -/
def minuteInput : CreateAgentCronJobInput := { onceInput with scheduleText := "* * * * *" }

/-- Twenty minutes and nineteen minutes before the clock goes back, forty and more after it. -/
def firstPass20 : Instant := minutesAfter (-20) (by decide)

def firstPass21 : Instant := minutesAfter (-19) (by decide)

def firstPass22 : Instant := minutesAfter (-18) (by decide)

def firstPass23 : Instant := minutesAfter (-17) (by decide)

def secondPass40 : Instant := minutesAfter 40 (by decide)

def secondPass41 : Instant := minutesAfter 41 (by decide)

def minuteJob (updatedAt nextRunAt : Instant) (lastRunAt : Option Instant) (runCount : Nat) :
    AgentCronJob :=
  { onceJob with
    id := "m"
    schedule := .cron "* * * * *"
    createdAt := firstPass20
    updatedAt
    nextRunAt := some nextRunAt
    lastRunAt
    runCount }

def minuteDispatch (claimedAt scheduledFor : Instant) : AgentCronDispatchRecord :=
  { id := drawn "jobs.json" 0, jobId := "m", claimedAt, scheduledFor }

def minuteState (updatedAt nextRunAt : Instant) (lastRunAt : Option Instant) (runCount : Nat)
    (dispatches : List AgentCronDispatchRecord) : StoreWorld :=
  fileWorld { jobs := [minuteJob updatedAt nextRunAt lastRunAt runCount], dispatches }

section

variable {host : Host} {Allowed : Op → Instant → StoreWorld → Prop}
variable {updatedAt now scheduledFor next : Instant} {lastRunAt : Option Instant} {runCount : Nat}

theorem create_minute (h : create host minuteInput "m" firstPass20 [] =
      .ok { write := some [minuteJob firstPass20 firstPass21 none 0],
            answer := [minuteJob firstPass20 firstPass21 none 0] }) :
    (Op.create minuteInput "m").run host firstPass20 (fileWorld .empty) =
      minuteState firstPass20 firstPass21 none 0 [] :=
  @runPlan_fileWorld (create host minuteInput "m" firstPass20) .empty _ _ _ h (by decide)

theorem claim_minute (hdue : scheduledFor.time ≤ now.time)
    (hnext : nextRun host.zone (.cron "* * * * *") (some now) = .ok (some next)) :
    (Op.claimDue now drawn).run host now (minuteState updatedAt scheduledFor lastRunAt runCount []) =
      minuteState now next lastRunAt runCount [minuteDispatch now scheduledFor] := by
  have hjob : isDueJob (minuteJob updatedAt scheduledFor lastRunAt runCount) now = true := by
    simp [isDueJob, minuteJob, onceJob, hdue]
  have hclaim := (@claimJob_due host.zone now now [] _ _ _ (drawn "jobs.json" 0) hjob).2
    (.claimed scheduledFor (some next) rfl hnext not_mem_nil)
  exact claimDue_fileWorld (claimDueInState_ok.2 ⟨_, claimJobs_cons.2 ⟨_, _, hclaim, rfl, rfl⟩, rfl⟩)

theorem record_minute : (Op.recordDispatchResult (drawn "jobs.json" 0) .ran none).run host now
        (minuteState now next lastRunAt runCount [minuteDispatch now scheduledFor]) =
      minuteState now next (some now) (runCount + 1) [] := by
  refine @recordDispatchResult_fileWorld _ _ _ _ _ _ _ [minuteJob now next (some now) (runCount + 1)] ?_
  simp only [recordDispatchInState, minuteDispatch, find?_cons, decide_true, editJobs, finishJob]
  rfl

theorem minute_created (hall : ∀ op now w, Allowed op now w) (h : create host minuteInput "m" firstPass20 [] =
      .ok { write := some [minuteJob firstPass20 firstPass21 none 0],
            answer := [minuteJob firstPass20 firstPass21 none 0] }) :
    TickRun host Allowed (minuteState firstPass20 firstPass21 none 0 []) firstPass20 [] := by
  have hstep := TickRun.step (.create minuteInput "m") firstPass20
    (@TickRun.start host Allowed _ firstPass20 newStore_fileWorld) (le_refl _)
    (fun _ _ h => nomatch h) (fresh_create minuteInput (by simp [ids, CronJobsState.empty])) (hall _ _ _)
  rwa [create_minute h] at hstep

theorem minute_claimed (hall : ∀ op now w, Allowed op now w) {clock : Instant} {ticks : List Tick}
    (h : TickRun host Allowed (minuteState updatedAt scheduledFor lastRunAt runCount []) clock ticks)
    (hclock : clock.time ≤ now.time) (hdue : scheduledFor.time ≤ now.time)
    (hnext : nextRun host.zone (.cron "* * * * *") (some now) = .ok (some next)) :
    TickRun host Allowed (minuteState now next (some now) (runCount + 1) []) now
      (ticks ++ [("m", scheduledFor)]) := by
  have hclaimed := TickRun.step (.claimDue now drawn) now h hclock
    (fun dueAt draw h => by cases h; exact le_refl _) (fresh_claimDue now rfl) (hall _ _ _)
  rw [claim_minute hdue hnext] at hclaimed
  have hrecorded := TickRun.step (.recordDispatchResult (drawn "jobs.json" 0) .ran none) now hclaimed
    (le_refl _) (fun _ _ h => nomatch h)
    (fresh_plain _ rfl (fun _ _ h => nomatch h) (fun _ _ h => nomatch h)) (hall _ _ _)
  rw [record_minute] at hrecorded
  have hticks : newTicks (.claimDue now drawn) (minuteState updatedAt scheduledFor lastRunAt runCount [])
      (minuteState now next lastRunAt runCount [minuteDispatch now scheduledFor]) =
      [("m", scheduledFor)] := rfl
  rw [hticks] at hrecorded
  exact (append_nil (ticks ++ [("m", scheduledFor)])) ▸ hrecorded

end

/-- Two claims of a job of every minute. -/
theorem tickRun_atMostOnce_claimed : AtMostOnce (minuteState firstPass22 firstPass23 (some firstPass22) 2 [])
    [("m", firstPass21), ("m", firstPass22)] := by
  have hall : ∀ op now w, KeepsMinutes utcHost op now w := keepsMinutes_fixed rfl
  have h₁ := minute_claimed hall (minute_created hall (by decide)) (by decide : firstPass20.time ≤ firstPass21.time)
    (le_refl _) (show nextRun utcHost.zone (.cron "* * * * *") (some firstPass21) = .ok (some firstPass22) by decide)
  have h₂ := minute_claimed hall h₁ (by decide : firstPass21.time ≤ firstPass22.time) (le_refl _)
    (show nextRun utcHost.zone (.cron "* * * * *") (some firstPass22) = .ok (some firstPass23) by decide)
  exact tickRun_atMostOnce h₂

/-- In every run with new ids, also under a clock that goes back: each job is in one file, with its dispatch, if any. -/
theorem stored_once {host : Host} {w : StoreWorld} (h : ReachableFrom host NewStore (fun op _ w => Fresh op w) w) :
    Placed w := by
  induction h with
  | start w hs => exact hs.placed
  | @run v op now _ ha ih => exact runs_placed ih ha (op.runs host now v)

theorem stored_once_claimed :
    Placed (minuteState firstPass22 firstPass23 (some firstPass21) 1 [minuteDispatch firstPass22 firstPass22]) := by
  have hcreate := @create_minute utcHost (by decide)
  have hclaim := @claim_minute utcHost firstPass20 firstPass21 firstPass21 firstPass22 none 0 (le_refl _) (by decide)
  have hrecord := @record_minute utcHost firstPass21 firstPass21 firstPass22 none 0
  have hagain := @claim_minute utcHost firstPass21 firstPass22 firstPass22 firstPass23 (some firstPass21) 1 (le_refl _)
    (by decide)
  rw [← hagain, ← hrecord, ← hclaim, ← hcreate]
  refine stored_once (.run _ _ (.run _ _ (.run _ _ (.run _ _ (.start _ newStore_fileWorld)
    (fresh_create minuteInput (by simp [ids, CronJobsState.empty]))) ?_) ?_) ?_)
  · exact hcreate ▸ fresh_claimDue firstPass21 rfl
  · exact fresh_plain _ rfl (fun _ _ h => by cases h) (fun _ _ h => by cases h)
  · rw [hcreate, hclaim, hrecord]
    exact fresh_claimDue firstPass22 rfl

/-- The runs of a store under a clock, with new ids and at any times. -/
abbrev AnyTickRun (host : Host) : StoreWorld → Instant → List Tick → Prop :=
  TickRun host fun _ _ _ => True

/-- The tick of the first pass is dispatched again in the second pass. -/
theorem tick_dispatched_twice : ∃ w clock ticks, AnyTickRun berlinHost w clock ticks ∧ ¬ AtMostOnce w ticks := by
  have hall : ∀ (_ : Op) (_ : Instant) (_ : StoreWorld), True := fun _ _ _ => trivial
  have h₀ : AnyTickRun berlinHost (minuteState firstPass20 firstPass21 none 0 []) firstPass20 [] :=
    minute_created hall (by decide)
  have h₁ := minute_claimed hall h₀ (by decide : firstPass20.time ≤ firstPass21.time)
    (le_refl _) (show nextRun berlin (.cron "* * * * *") (some firstPass21) = .ok (some firstPass22) by decide)
  have h₂ := minute_claimed hall h₁ (by decide : firstPass21.time ≤ secondPass40.time) (by decide)
    (show nextRun berlin (.cron "* * * * *") (some secondPass40) = .ok (some firstPass21) by decide)
  have h₃ := minute_claimed hall h₂ (by decide : secondPass40.time ≤ secondPass41.time) (by decide)
    (show nextRun berlin (.cron "* * * * *") (some secondPass41) = .ok (some firstPass22) by decide)
  exact ⟨_, _, _, h₃, fun h => absurd h.ticks (by decide)⟩

end Cron
end RePrime
