import RePrime.Cron.Files

/-!
# RePrime.Cron.Changes

What claiming, results of dispatches and recovery do to the state in a file, said once.

* `Claims`, `claimJob_passes`, `claimJobs_forall₂`: claiming, job by job.
* `Finishes`, `FinishedBy`: the job of a dispatch that has ended.
-/

namespace RePrime
namespace Cron

open Fallible List

/-! ## Lists -/

theorem exists_of_forall₂ {α : Type} {R : α → α → Prop} {l l' : List α} (h : List.Forall₂ R l l')
    {a : α} (ha : a ∈ l) : ∃ a' ∈ l', R a a' := by
  induction h with
  | nil => cases ha
  | cons hr _ ih =>
    cases mem_cons.1 ha with
    | inl he => exact ⟨_, mem_cons_self, he ▸ hr⟩
    | inr ht =>
      obtain ⟨a', ha', hr'⟩ := ih ht
      exact ⟨a', mem_cons_of_mem _ ha', hr'⟩

/-! ## Claiming -/

/-- A claimed job with its dispatch. -/
abbrev Claimed := AgentCronDispatchRecord × AgentCronDispatch

section

variable {zone : Zone} {dueAt claimedAt : Instant} {claimedJobIds : List String}

/-- A due job before and after it is claimed, or skipped while a dispatch is outstanding. -/
inductive Claims (zone : Zone) (claimedAt : Instant) (claimedJobIds : List String) (id : String)
    (job : AgentCronJob) : AgentCronJob → List Claimed → Prop where
  | skipped (next : Option Instant) (hrun : nextRun zone job.schedule (some claimedAt) = .ok next)
      (hout : job.id ∈ claimedJobIds) :
      Claims zone claimedAt claimedJobIds id job
        { advanced job next claimedAt with lastSkippedAt := some claimedAt } []
  | claimed (scheduledFor : Instant) (next : Option Instant)
      (hnext : job.nextRunAt = some scheduledFor)
      (hrun : nextRun zone job.schedule (some claimedAt) = .ok next) (hout : job.id ∉ claimedJobIds) :
      Claims zone claimedAt claimedJobIds id job (advanced job next claimedAt)
        [(dispatchFor job scheduledFor claimedAt id, { id, job := advanced job next claimedAt })]

variable {job : AgentCronJob}

theorem isDueJob_next {now : Instant} (h : isDueJob job now = true) :
    ∃ next, job.nextRunAt = some next ∧ next.time ≤ now.time := by
  rw [isDueJob, Bool.and_eq_true, Option.any_eq_true] at h
  obtain ⟨next, hn, ht⟩ := h.2
  exact ⟨next, hn, of_decide_eq_true ht⟩

theorem isDueJob_active {now : Instant} (h : isDueJob job now = true) : job.status = .active := by
  rw [isDueJob, Bool.and_eq_true] at h
  exact of_decide_eq_true h.1

theorem claimJob_not_due (id : String) (h : isDueJob job dueAt = false) :
    claimJob zone dueAt claimedAt claimedJobIds id job = .ok (job, []) := by
  unfold claimJob
  cases job.nextRunAt with
  | none => rfl
  | some scheduledFor => simp only [h, Bool.false_eq_true, if_false]

variable {job' : AgentCronJob} {claimed : List Claimed}

theorem claimJob_due {id : String} (h : isDueJob job dueAt = true) :
    claimJob zone dueAt claimedAt claimedJobIds id job = .ok (job', claimed) ↔
      Claims zone claimedAt claimedJobIds id job job' claimed := by
  obtain ⟨scheduledFor, hs, -⟩ := isDueJob_next h
  unfold claimJob
  simp only [hs, h, if_true]
  by_cases hout : job.id ∈ claimedJobIds
  · simp only [if_pos hout, bind_ok]
    constructor
    · rintro ⟨next, hn, hr⟩
      cases hr
      exact .skipped next hn hout
    · intro hc
      cases hc with
      | skipped next hn _ => exact ⟨next, hn, rfl⟩
      | claimed _ _ _ _ hnot => exact absurd hout hnot
  · simp only [if_neg hout, bind_ok]
    constructor
    · rintro ⟨next, hn, hr⟩
      cases hr
      exact .claimed scheduledFor next hs hn hout
    · intro hc
      cases hc with
      | skipped _ _ hmem => exact absurd hmem hout
      | claimed scheduledFor' next hs' hn _ =>
        obtain rfl := Option.some.inj (hs.symm.trans hs')
        exact ⟨next, hn, rfl⟩

/-- A job before and after the claim of a state. -/
def Passes (zone : Zone) (dueAt claimedAt : Instant) (claimedJobIds : List String) (id : String)
    (job job' : AgentCronJob) (claimed : List Claimed) : Prop :=
  isDueJob job dueAt = false ∧ job' = job ∧ claimed = [] ∨
    isDueJob job dueAt = true ∧ Claims zone claimedAt claimedJobIds id job job' claimed

theorem claimJob_passes {id : String} {r : AgentCronJob × List Claimed}
    (h : claimJob zone dueAt claimedAt claimedJobIds id job = .ok r) :
    Passes zone dueAt claimedAt claimedJobIds id job r.1 r.2 := by
  cases hd : isDueJob job dueAt with
  | false =>
    rw [claimJob_not_due id hd] at h
    cases h
    exact .inl ⟨hd, rfl, rfl⟩
  | true => exact .inr ⟨hd, (claimJob_due hd).1 h⟩

theorem Passes.id {id : String}
    (h : Passes zone dueAt claimedAt claimedJobIds id job job' claimed) : job'.id = job.id := by
  obtain ⟨-, rfl, -⟩ | ⟨-, hc⟩ := h
  · rfl
  · cases hc with
    | skipped | claimed => rfl

theorem Passes.schedule {id : String} (h : Passes zone dueAt claimedAt claimedJobIds id job job' claimed) :
    job'.schedule = job.schedule := by
  obtain ⟨-, rfl, -⟩ | ⟨-, hc⟩ := h
  · rfl
  · cases hc with
    | skipped | claimed => rfl

variable {ids : Nat → String} {n : Nat} {jobs : List AgentCronJob}
  {r : List AgentCronJob × List Claimed}

theorem claimJobs_cons {rest : List AgentCronJob} :
    claimJobs zone dueAt claimedAt claimedJobIds ids n (job :: rest) = .ok r ↔
      ∃ first others, claimJob zone dueAt claimedAt claimedJobIds (ids n) job = .ok first ∧
        claimJobs zone dueAt claimedAt claimedJobIds ids (n + first.2.length) rest = .ok others ∧
        r = (first.1 :: others.1, first.2 ++ others.2) := by
  rw [claimJobs, bind_ok]
  constructor
  · rintro ⟨first, hf, h⟩
    obtain ⟨others, ho, h⟩ := bind_ok.1 h
    cases h
    exact ⟨first, others, hf, ho, rfl⟩
  · rintro ⟨first, others, hf, ho, rfl⟩
    exact ⟨first, hf, bind_ok.2 ⟨others, ho, rfl⟩⟩

variable (h : claimJobs zone dueAt claimedAt claimedJobIds ids n jobs = .ok r)

include h

theorem claimJobs_forall₂ : List.Forall₂ (fun job job' => ∃ id claimed,
      Passes zone dueAt claimedAt claimedJobIds id job job' claimed ∧ claimed ⊆ r.2) jobs r.1 := by
  induction jobs generalizing n r with
  | nil =>
    cases h
    exact .nil
  | cons job rest ih =>
    obtain ⟨first, others, hf, ho, rfl⟩ := claimJobs_cons.1 h
    refine .cons ⟨ids n, first.2, claimJob_passes hf, subset_append_left _ _⟩ ?_
    refine (ih ho).imp ?_
    rintro job job' ⟨id, claimed, hp, hsub⟩
    exact ⟨id, claimed, hp, fun c hc => mem_append_right _ (hsub hc)⟩

theorem claimJobs_source {c : Claimed} (hc : c ∈ r.2) : ∃ job ∈ jobs, ∃ job' ∈ r.1, ∃ id,
      isDueJob job dueAt = true ∧ Claims zone claimedAt claimedJobIds id job job' [c] := by
  induction jobs generalizing n r with
  | nil =>
    cases h
    cases hc
  | cons job rest ih =>
    obtain ⟨first, others, hf, ho, rfl⟩ := claimJobs_cons.1 h
    cases mem_append.1 hc with
    | inl hfirst =>
      obtain ⟨-, -, hnil⟩ | ⟨hd, hclaims⟩ := claimJob_passes hf
      · rw [hnil] at hfirst
        cases hfirst
      · refine ⟨job, mem_cons_self, first.1, mem_cons_self, ids n, hd, ?_⟩
        obtain ⟨job', claimed⟩ := first
        cases hclaims with
        | skipped => cases hfirst
        | claimed scheduledFor next hs hn hout =>
          rw [mem_singleton.1 hfirst]
          exact .claimed scheduledFor next hs hn hout
    | inr hothers =>
      obtain ⟨job₁, hj, job₂, hj', id, hd⟩ := ih ho hothers
      exact ⟨job₁, mem_cons_of_mem _ hj, job₂, mem_cons_of_mem _ hj', id, hd⟩

theorem claimJobs_sublist : (r.2.map fun c => c.1.jobId).Sublist (Cron.ids jobs) := by
  induction jobs generalizing n r with
  | nil =>
    cases h
    exact List.Sublist.refl _
  | cons job rest ih =>
    obtain ⟨first, others, hf, ho, rfl⟩ := claimJobs_cons.1 h
    rw [map_append]
    show List.Sublist _ ([job.id] ++ Cron.ids rest)
    refine List.Sublist.append ?_ (ih ho)
    obtain ⟨-, -, hnil⟩ | ⟨-, hclaims⟩ := claimJob_passes hf
    · simp [hnil]
    · obtain ⟨job', claimed⟩ := first
      cases hclaims with
      | skipped => simp
      | claimed => exact List.Sublist.refl _

theorem claimJobs_ids : (r.2.map fun c => c.1.id) = (List.range' n r.2.length).map ids := by
  induction jobs generalizing n r with
  | nil =>
    cases h
    rfl
  | cons job rest ih =>
    obtain ⟨first, others, hf, ho, rfl⟩ := claimJobs_cons.1 h
    have hfirst : (first.2.map fun c => c.1.id) = (List.range' n first.2.length).map ids := by
      obtain ⟨-, -, hnil⟩ | ⟨-, hclaims⟩ := claimJob_passes hf
      · simp [hnil]
      · obtain ⟨job', claimed⟩ := first
        cases hclaims with
        | skipped | claimed => rfl
    rw [map_append, hfirst, ih ho, ← map_append, length_append, ← range'_append_1]

omit h

theorem claimJobs_ok_iff : (∃ r, claimJobs zone dueAt claimedAt claimedJobIds ids n jobs = .ok r) ↔
      ∀ job ∈ jobs, isDueJob job dueAt = true → ∃ next, nextRun zone job.schedule (some claimedAt) = .ok next := by
  have hjob : ∀ (job : AgentCronJob) (id : String),
      (∃ r, claimJob zone dueAt claimedAt claimedJobIds id job = .ok r) ↔
        (isDueJob job dueAt = true → ∃ next, nextRun zone job.schedule (some claimedAt) = .ok next) := by
    intro job id
    cases hd : isDueJob job dueAt with
    | false => exact iff_of_true ⟨_, claimJob_not_due id hd⟩ (by simp)
    | true =>
      obtain ⟨scheduledFor, hs, -⟩ := isDueJob_next hd
      simp only [forall_const]
      constructor
      · rintro ⟨r, hr⟩
        obtain ⟨job', claimed⟩ := r
        cases (claimJob_due hd).1 hr with
        | skipped next hn => exact ⟨next, hn⟩
        | claimed _ next _ hn => exact ⟨next, hn⟩
      · rintro ⟨next, hn⟩
        by_cases hout : job.id ∈ claimedJobIds
        · exact ⟨_, (claimJob_due hd).2 (.skipped next hn hout)⟩
        · exact ⟨_, (claimJob_due hd).2 (.claimed scheduledFor next hs hn hout)⟩
  induction jobs generalizing n with
  | nil => exact iff_of_true ⟨_, rfl⟩ (by simp)
  | cons job rest ih =>
    rw [forall_mem_cons, ← hjob job (ids n)]
    constructor
    · rintro ⟨r, hr⟩
      obtain ⟨first, others, hf, ho, -⟩ := claimJobs_cons.1 hr
      exact ⟨⟨first, hf⟩, ih.1 ⟨others, ho⟩⟩
    · rintro ⟨⟨first, hf⟩, hrest⟩
      obtain ⟨others, ho⟩ := (ih (n := n + first.2.length)).2 hrest
      exact ⟨_, claimJobs_cons.2 ⟨first, others, hf, ho, rfl⟩⟩

end

variable {zone : Zone} {state : CronJobsState}

theorem claimDueInState_ok {dueAt claimedAt : Instant} {ids : Nat → String}
    {r : CronJobsState × List AgentCronDispatch} : claimDueInState zone dueAt claimedAt ids state = .ok r ↔
      ∃ c, claimJobs zone dueAt claimedAt (state.dispatches.map AgentCronDispatchRecord.jobId) ids 0
          state.jobs = .ok c ∧
        r = ({ jobs := c.1, dispatches := state.dispatches ++ c.2.map Prod.fst }, c.2.map Prod.snd) := by
  unfold claimDueInState
  rw [bind_ok]
  constructor
  · rintro ⟨c, hc, h⟩
    cases h
    exact ⟨c, hc, rfl⟩
  · rintro ⟨c, hc, rfl⟩
    exact ⟨c, hc, rfl⟩

/-! ## Results and recovery -/

/-- The job of a dispatch before and after its result; `skips` when the run was skipped. -/
inductive Finishes (zone : Zone) (now : Instant) (skips : Prop) (job : AgentCronJob) :
    AgentCronJob → Prop where
  | skipped (hskips : skips) (next : Option Instant)
      (hrun : nextRun zone job.schedule (some now) = .ok next) :
      Finishes zone now skips job
        { job with
          status := afterRun job
          nextRunAt := next
          lastSkippedAt := some now
          updatedAt := now }
  | ran (error : Option String) :
      Finishes zone now skips job
        { job with
          status := afterRun job
          lastRunAt := some now
          lastError := error
          runCount := job.runCount + 1
          updatedAt := now }
  | interrupted :
      Finishes zone now skips job
        { job with
          status := afterRun job
          lastError := some interruptedMessage
          updatedAt := now }

/-- The active jobs with certain ids are finished; the others stay. -/
def FinishedBy (zone : Zone) (now : Instant) (skips : Prop) (jobIds : List String)
    (job job' : AgentCronJob) : Prop :=
  (job.id ∉ jobIds ∨ job.status ≠ .active) ∧ job' = job ∨
    job.id ∈ jobIds ∧ job.status = .active ∧ Finishes zone now skips job job'

/-- What the end of some dispatches does to a state. -/
structure Ends (zone : Zone) (now : Instant) (skips : Prop) (ended : AgentCronDispatchRecord → Bool)
    (jobIds : List String) (state state' : CronJobsState) : Prop where
  jobs : List.Forall₂ (FinishedBy zone now skips jobIds) state.jobs state'.jobs
  dispatches : state'.dispatches = state.dispatches.filter fun d => !ended d

section

variable {zone : Zone} {now : Instant} {state : CronJobsState}
  {r : CronJobsState × List AgentCronJob}

theorem recordDispatchInState_ends {dispatchId : String} {outcome : AgentCronJobRunResult} {error : Option String}
    (h : recordDispatchInState zone dispatchId now outcome error state = .ok r) :
    r.1 = state ∨ ∃ d ∈ state.dispatches, d.id = dispatchId ∧
      Ends zone now (outcome = .skipped ∧ error = none) (fun d => decide (d.id = dispatchId)) [d.jobId]
        state r.1 := by
  unfold recordDispatchInState at h
  cases hf : state.dispatches.find? fun d => d.id = dispatchId with
  | none =>
    simp only [hf] at h
    cases h
    exact .inl rfl
  | some d =>
    simp only [hf] at h
    obtain ⟨jobs, hjobs, h⟩ := bind_ok.1 h
    cases h
    refine .inr ⟨d, mem_of_find?_eq_some hf, by simpa using find?_some hf, ?_, ?_⟩
    · refine editJobs_forall₂ ?_ ?_ hjobs
      · intro job _ he
        unfold finishJob at he
        split at he
        · rename_i htest
          exact .inl ⟨htest.imp_left fun hne => by simpa using hne, rfl⟩
        · split at he
          · obtain ⟨next, -, he⟩ := bind_ok.1 he
            cases he
          · cases he
      · intro job _ job' he
        unfold finishJob at he
        split at he
        · cases he
        · rename_i htest
          rw [not_or, not_not, not_not] at htest
          refine .inr ⟨by simp [htest.1], htest.2, ?_⟩
          split at he
          · rename_i hskips
            obtain ⟨next, hn, he⟩ := bind_ok.1 he
            cases he
            exact .skipped hskips next hn
          · cases he
            exact .ran error
    · exact filter_congr fun d' _ => by simp

theorem recoverInterruptedInState_ends {isInterrupted : AgentCronDispatchRecord → Bool}
    (h : recoverInterruptedInState isInterrupted now state = .ok r) :
    r.1 = state ∨ Ends zone now False isInterrupted
      ((state.dispatches.filter isInterrupted).map AgentCronDispatchRecord.jobId) state r.1 := by
  unfold recoverInterruptedInState at h
  simp only [] at h
  split at h
  · cases h
    exact .inl rfl
  · obtain ⟨jobs, hjobs, h⟩ := bind_ok.1 h
    cases h
    refine .inr ⟨editJobs_forall₂ ?_ ?_ hjobs, rfl⟩
    · intro job _ he
      unfold recoverJob at he
      split at he
      · rename_i htest
        exact .inl ⟨htest, rfl⟩
      · cases he
    · intro job _ job' he
      unfold recoverJob at he
      split at he
      · cases he
      · rename_i htest
        rw [not_or, not_not, not_not] at htest
        cases he
        exact .inr ⟨htest.1, htest.2, .interrupted⟩

theorem FinishedBy.id {skips : Prop} {jobIds : List String} {job job' : AgentCronJob}
    (h : FinishedBy zone now skips jobIds job job') : job'.id = job.id := by
  obtain ⟨-, rfl⟩ | ⟨-, -, hf⟩ := h
  · rfl
  · cases hf with
    | _ => rfl

theorem FinishedBy.schedule {skips : Prop} {jobIds : List String} {job job' : AgentCronJob}
    (h : FinishedBy zone now skips jobIds job job') : job'.schedule = job.schedule := by
  obtain ⟨-, rfl⟩ | ⟨-, -, hf⟩ := h
  · rfl
  · cases hf with
    | _ => rfl

end

/-! ## All operations -/

/-- Some dispatches of a state end, and the jobs they are of are finished. -/
def EndsSome (zone : Zone) (now : Instant) (skips : AgentCronDispatchRecord → Prop)
    (state state' : CronJobsState) : Prop :=
  state' = state ∨ ∃ skipped ended jobIds, Ends zone now skipped ended jobIds state state' ∧
    (∀ d ∈ state.dispatches, ended d = true → ∃ d' ∈ state.dispatches, d'.id = d.id ∧ d'.jobId ∈ jobIds) ∧
    ∀ jobId ∈ jobIds, ∃ d ∈ state.dispatches, d.jobId = jobId ∧ (skipped → skips d)

/-- The dispatch of a run that was skipped. -/
def SkippedDispatch (op : Op) (d : AgentCronDispatchRecord) : Prop :=
  op = .recordDispatchResult d.id .skipped none

theorem recordDispatchInState_endsSome {now : Instant}
    {r : CronJobsState × List AgentCronJob} {dispatchId : String} {outcome : AgentCronJobRunResult}
    {error : Option String} (h : recordDispatchInState zone dispatchId now outcome error state = .ok r) :
    EndsSome zone now (SkippedDispatch (.recordDispatchResult dispatchId outcome error)) state r.1 := by
  refine (recordDispatchInState_ends h).imp_right ?_
  rintro ⟨d, hd, hid, hends⟩
  refine ⟨_, _, _, hends, ?_, ?_⟩
  · intro d' _ he
    exact ⟨d, hd, hid.trans (of_decide_eq_true he).symm, mem_cons_self⟩
  · intro jobId hj
    refine ⟨d, hd, (mem_singleton.1 hj).symm, ?_⟩
    rintro ⟨rfl, rfl⟩
    rw [SkippedDispatch, hid]

theorem recoverInterruptedInState_endsSome {now : Instant}
    {r : CronJobsState × List AgentCronJob} {isInterrupted : AgentCronDispatchRecord → Bool}
    {skips : AgentCronDispatchRecord → Prop} (h : recoverInterruptedInState isInterrupted now state = .ok r) :
    EndsSome zone now skips state r.1 := by
  refine (@recoverInterruptedInState_ends zone now state r isInterrupted h).imp_right fun hends => ?_
  refine ⟨_, _, _, hends, ?_, ?_⟩
  · intro d hd he
    exact ⟨d, hd, rfl, mem_map_of_mem (mem_filter.2 ⟨hd, he⟩)⟩
  · intro jobId hj
    obtain ⟨d, hd, rfl⟩ := mem_map.1 hj
    exact ⟨d, (mem_filter.1 hd).1, rfl, False.elim⟩

/-- A change of the states in which dispatches end, one file after the other. -/
def Settles (host : Host) (now : Instant) (op : Op) (w w' : StoreWorld) : Prop :=
  ∃ mutator : CronJobsState → Except String (CronJobsState × List AgentCronJob), ∃ paths ⊆ w.mode.paths,
    (∀ s r, mutator s = .ok r → EndsSome host.zone now (SkippedDispatch op) s r.1) ∧
      w' = (mutatePaths (fun _ => mutator) paths w).2

/-- What an operation does to the files. -/
inductive Runs (host : Host) (now : Instant) (op : Op) (w : StoreWorld) : StoreWorld → Prop where
  | plan (plan : List AgentCronJob → Except String Plan) (h : Edits host now op plan) :
      Runs host now op w (runPlan plan w).2
  | claim (dueAt : Instant) (ids : String → Nat → String) (h : op = .claimDue dueAt ids) :
      Runs host now op w (claimDue host dueAt now ids w).2
  | settle (w' : StoreWorld) (h : Settles host now op w w') : Runs host now op w w'
  | register (sessionId path : String) (h : op = .registerSessionArtifact sessionId path) :
      Runs host now op w (registerSessionArtifact sessionId path w).2

theorem Op.runs (host : Host) (now : Instant) (op : Op) (w : StoreWorld) :
    Runs host now op w (op.run host now w) := by
  have hplan : ∀ plan, op.plan? host now = some plan → op.run host now w = (runPlan plan w).2 →
      Runs host now op w (op.run host now w) := by
    intro plan hp hr
    rw [hr]
    exact .plan plan (plan_edits hp)
  cases op with
  | claimDue dueAt ids => exact .claim dueAt ids rfl
  | recordDispatchResult id outcome error =>
    exact .settle _ ⟨_, _, fun _ h => h, fun s r h => recordDispatchInState_endsSome h, rfl⟩
  | recoverInterruptedDispatches =>
    exact .settle _ ⟨_, _, fun _ h => h, fun s r h => recoverInterruptedInState_endsSome h, rfl⟩
  | recoverInterruptedDispatchesById ids =>
    exact .settle _ ⟨_, _, fun _ h => h, fun s r h => recoverInterruptedInState_endsSome h, rfl⟩
  | registerSessionArtifact sessionId path => exact .register sessionId path rfl
  | recoverSessionArtifact sessionId =>
    have hnone : Settles host now (.recoverSessionArtifact sessionId) w w :=
      ⟨recoverInterruptedInState (fun _ => true) now, [], by simp, fun s r h =>
        recoverInterruptedInState_endsSome h, rfl⟩
    refine .settle _ ?_
    show Settles host now _ w (Cron.recoverSessionArtifact sessionId now w).2
    unfold Cron.recoverSessionArtifact
    cases hm : w.mode with
    | file path => exact hnone
    | sessionArtifacts files =>
      cases hf : files.get? sessionId with
      | none =>
        simp only [hf]
        exact hnone
      | some path =>
        simp only [hf]
        refine ⟨_, _, ?_, fun s r h => recoverInterruptedInState_endsSome h, rfl⟩
        intro p hp
        rw [mem_singleton.1 hp, hm]
        exact mem_map_of_mem (f := Prod.snd) (OrderedMap.mem_entries_of_get? hf)
  | _ => exact hplan _ rfl rfl

end Cron
end RePrime
