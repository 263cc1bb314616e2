import RePrime.Cron.Edits

/-!
# RePrime.Cron.Touches

What an operation writes of the jobs it has read, when it may have read them twice.

* `Touches`: a job that was read and what is written of it; its session, its date and its status.
* `planFrom_touches`: the jobs of the second read, edited, and the one that is created.
-/

namespace RePrime
namespace Cron

open Fallible

/-! ## Kinds of operations -/

/-- The session whose heartbeat an operation finds in a first read. -/
def Op.heartbeatOf : Op → Option String
  | .pauseHeartbeat s => some s
  | .resumeHeartbeat s => some s
  | .clearHeartbeat s => some s
  | _ => none

/-- The operations that cancel the jobs they edit. -/
def Op.cancels : Op → Bool
  | .createHeartbeat _ _ => true
  | .deleteRlmHeartbeat _ _ => true
  | .cancelRlmHeartbeatsForSession _ => true
  | .cancelJobsForSession _ => true
  | .clearHeartbeat _ => true
  | .manageHeartbeat _ _ .stop => true
  | .cancel _ => true
  | _ => false

/-- The session an edited job is in. -/
def Op.sessionOf : Op → AgentCronJob → String
  | .rebindSessionJobs input, _ => input.sessionId
  | _, job => job.sessionId

/-- When an edited job was updated: `rebindSessionJobs` leaves the date. -/
def Op.stamp : Op → Instant → AgentCronJob → Instant
  | .rebindSessionJobs _, _, job => job.updatedAt
  | _, now, _ => now

/-! ## What an operation has edited -/

/-- A job that was read, and what is written of it. -/
def Touches (op : Op) (now : Instant) (first : List AgentCronJob) (job job' : AgentCronJob) : Prop :=
  job' = job ∨ job'.sessionId = op.sessionOf job ∧ job'.updatedAt = op.stamp now job ∧
    (op.cancels = true → job'.status = .cancelled) ∧
    (job.status = .cancelled → job'.status = .cancelled ∨
      ∃ s current, op.heartbeatOf = some s ∧ getHeartbeat s first = some current ∧ current.id = job.id)

/-- What a plan writes: the jobs of the second read, edited, and the one it creates. -/
def TouchesAll (op : Op) (now : Instant) (plan : List AgentCronJob → List AgentCronJob → Except String Plan) :
    Prop :=
  ∀ first jobs p l, plan first jobs = .ok p → p.write = some l →
    ∃ old, ∃ created : Option AgentCronJob, l = old ++ created.toList ∧
      List.Forall₂ (fun job job' => job'.id = job.id ∧ Touches op now first job job') jobs old ∧
      ∀ job ∈ created, op.newId = some job.id

section

variable {host : Host} {now : Instant} {op : Op} {first : List AgentCronJob}

theorem Touches.refl (job : AgentCronJob) : Touches op now first job job := .inl rfl

variable {job : AgentCronJob}

theorem Touches.stopped {status : AgentCronJobStatus}
    (hs : status = .cancelled ∨ job.status ≠ .cancelled ∧ op.cancels = false)
    (hsession : op.sessionOf job = job.sessionId) (hstamp : op.stamp now job = now) :
    Touches op now first job (job.stopped status now) := by
  refine .inr ⟨hsession.symm, hstamp.symm, ?_, ?_⟩
  · intro hc
    exact hs.elim id fun h => by simp [h.2] at hc
  · intro hc
    exact .inl (hs.elim id fun h => absurd hc h.1)

theorem touches_editPlan {edit : AgentCronJob → Except String (Option AgentCronJob)}
    (hedit : ∀ first job job', edit job = .ok (some job') → job'.id = job.id ∧ Touches op now first job job') :
    TouchesAll op now fun _ => editPlan edit := by
  intro first jobs p l hp hl
  obtain ⟨r, hr, h⟩ := bind_ok.1 hp
  cases h
  by_cases hu : r.2 = []
  · simp only [hu, if_true] at hl
    cases hl
  · simp only [hu, if_false] at hl
    cases hl
    refine ⟨r.1, none, (List.append_nil _).symm, ?_, by simp⟩
    exact editJobs_forall₂ (fun job _ _ => ⟨rfl, Touches.refl job⟩) (fun job _ => hedit first job) hr

theorem touches_stopPlan (test : AgentCronJob → Bool) (hsession : ∀ job, op.sessionOf job = job.sessionId)
    (hstamp : ∀ job, op.stamp now job = now) : TouchesAll op now fun _ => stopPlan test .cancelled now := by
  refine touches_editPlan fun first job job' he => ?_
  cases ht : test job with
  | false => simp [ht] at he
  | true =>
    simp only [ht, if_true, Except.ok.injEq, Option.some.injEq] at he
    rw [← he]
    exact ⟨rfl, .stopped (.inl rfl) (hsession job) (hstamp job)⟩

theorem touches_heartbeatPlan {s : String} {f : AgentCronJob → AgentCronJob}
    {jobs : List AgentCronJob} {p : Plan} {l : List AgentCronJob} (hop : op.heartbeatOf = some s)
    (hedit : ∀ job, (f job).id = job.id ∧ (f job).sessionId = op.sessionOf job ∧
      (f job).updatedAt = op.stamp now job ∧ (op.cancels = true → (f job).status = .cancelled))
    (hp : heartbeatPlan s (fun job => .ok (f job)) first jobs = .ok p) (hl : p.write = some l) :
    List.Forall₂ (fun job job' => job'.id = job.id ∧ Touches op now first job job') jobs l := by
  unfold heartbeatPlan at hp
  cases hc : getHeartbeat s first with
  | none =>
    simp only [hc] at hp
    cases hp
    cases hl
  | some current =>
    simp only [hc] at hp
    obtain ⟨r, hr, h⟩ := bind_ok.1 hp
    cases h
    cases hl
    refine editJobs_forall₂ (fun job _ _ => ⟨rfl, Touches.refl job⟩) ?_ hr
    intro job _ job' he
    by_cases hid : job.id = current.id
    · rw [if_pos hid] at he
      cases he
      obtain ⟨heid, hsession, hstamp, hcancel⟩ := hedit job
      exact ⟨heid, .inr ⟨hsession, hstamp, hcancel, fun _ => .inr ⟨s, current, hop, hc, hid.symm⟩⟩⟩
    · rw [if_neg hid] at he
      cases he

variable {plan : List AgentCronJob → List AgentCronJob → Except String Plan}

theorem touches_created (h : ∀ first jobs p l, plan first jobs = .ok p → p.write = some l →
      ∃ old job, l = old ++ [job] ∧ op.newId = some job.id ∧
        List.Forall₂ (fun job job' => job'.id = job.id ∧ Touches op now first job job') jobs old) :
    TouchesAll op now plan := by
  intro first jobs p l hp hl
  obtain ⟨old, job, rfl, hid, hold⟩ := h first jobs p l hp hl
  refine ⟨old, some job, rfl, hold, ?_⟩
  intro job' hj
  cases hj
  exact hid

theorem forall₂_touches_refl (jobs : List AgentCronJob) :
    List.Forall₂ (fun job job' => job'.id = job.id ∧ Touches op now first job job') jobs jobs :=
  List.forall₂_same.2 fun job _ => ⟨rfl, Touches.refl job⟩

theorem touches_create (input : CreateAgentCronJobInput) (id : String) :
    TouchesAll (.create input id) now fun _ => create host input id now := by
  refine touches_created fun first jobs p l hp hl => ?_
  unfold create at hp
  simp only [] at hp
  split at hp
  · cases hp
  · obtain ⟨parsed, -, hp⟩ := bind_ok.1 hp
    obtain ⟨next, -, hp⟩ := bind_ok.1 hp
    cases hp
    cases hl
    exact ⟨jobs, _, rfl, rfl, forall₂_touches_refl jobs⟩

theorem touches_createHeartbeat (input : CreateAgentCronJobInput) (id : String) :
    TouchesAll (.createHeartbeat input id) now fun _ => createHeartbeat host input id now := by
  refine touches_created fun first jobs p l hp hl => ?_
  obtain ⟨parsed, -, hp⟩ := bind_ok.1 hp
  split at hp
  · cases hp
  · simp only [] at hp
    split at hp
    · cases hp
    · obtain ⟨next, -, hp⟩ := bind_ok.1 hp
      cases hp
      cases hl
      refine ⟨_, _, rfl, rfl, ?_⟩
      rw [List.forall₂_map_right_iff, List.forall₂_same]
      intro job _
      unfold cancelOpenHeartbeat
      split
      · exact ⟨rfl, .stopped (.inl rfl) rfl rfl⟩
      · exact ⟨rfl, .refl job⟩

theorem touches_createRlmHeartbeat (input : CreateAgentCronJobInput) (id : String) :
    TouchesAll (.createRlmHeartbeat input id) now fun _ => createRlmHeartbeat host input id now := by
  refine touches_created fun first jobs p l hp hl => ?_
  obtain ⟨parsed, -, hp⟩ := bind_ok.1 hp
  split at hp
  · cases hp
  · simp only [] at hp
    split at hp
    · cases hp
    · obtain ⟨next, -, hp⟩ := bind_ok.1 hp
      cases hp
      cases hl
      exact ⟨jobs, _, rfl, rfl, forall₂_touches_refl jobs⟩

theorem touches_rebindSessionJobs (input : RebindInput) :
    TouchesAll (.rebindSessionJobs input) now fun _ => rebindSessionJobs host input := by
  refine touches_editPlan fun first job job' he => ?_
  have hr : rebindJob host input job = some job' := by simpa using he
  unfold rebindJob at hr
  simp only [] at hr
  split at hr
  · cases hr
  · split at hr
    · cases hr
    · cases hr
      refine ⟨rfl, .inr ⟨rfl, rfl, ?_, fun hc => .inl hc⟩⟩
      intro hc
      cases hc

variable {job' : AgentCronJob}

theorem updateSchedule_kept {scheduleText : Option String}
    (h : updateSchedule host scheduleText now job = .ok job') :
    job'.id = job.id ∧ job'.sessionId = job.sessionId := by
  obtain ⟨-, rfl⟩ | ⟨text, parsed, -, -, -, ⟨-, rfl⟩ | ⟨-, next, -, rfl⟩⟩ := updateSchedule_cases h
  · exact ⟨rfl, rfl⟩
  · exact ⟨rfl, rfl⟩
  · exact ⟨rfl, rfl⟩

theorem updateRlmHeartbeatJob_kept {update : RlmHeartbeatUpdate}
    (h : updateRlmHeartbeatJob host update now job = .ok job') :
    job'.id = job.id ∧ job'.sessionId = job.sessionId ∧ job'.updatedAt = now := by
  obtain ⟨label, mode, text, job₁, hs, hst⟩ := updateRlmHeartbeatJob_steps h
  obtain ⟨hid, hsession⟩ := updateSchedule_kept hs
  unfold updateStatus at hst
  split at hst
  · cases hst
    exact ⟨hid, hsession, rfl⟩
  · cases hst
    exact ⟨hid, hsession, rfl⟩
  · obtain ⟨next, -, hst⟩ := bind_ok.1 hst
    cases hst
    exact ⟨hid, hsession, rfl⟩

theorem touches_updateRlmHeartbeat (s id : String) (update : RlmHeartbeatUpdate) :
    TouchesAll (.updateRlmHeartbeat s id update) now fun _ => updateRlmHeartbeat host s id update now := by
  refine touches_editPlan fun first job job' he => ?_
  split at he
  · rename_i htest
    obtain ⟨job'', hj, hs⟩ := map_ok.1 he
    cases hs
    obtain ⟨hid, hsession, hstamp⟩ := updateRlmHeartbeatJob_kept hj
    refine ⟨hid, .inr ⟨hsession, hstamp, ?_, fun hc => absurd hc htest.2.2.1⟩⟩
    intro hc
    cases hc
  · cases he

theorem touches_manageHeartbeat (s id : String) (action : AgentHeartbeatManagementAction) :
    TouchesAll (.manageHeartbeat s id action) now fun _ => manageHeartbeat host s id action now := by
  refine touches_editPlan fun first job job' he => ?_
  split at he
  · rename_i htest
    have hopen := htest.2.2.2.1
    cases action with
    | pause =>
      cases he
      exact ⟨rfl, .stopped (.inr ⟨hopen, rfl⟩) rfl rfl⟩
    | stop =>
      cases he
      exact ⟨rfl, .stopped (.inl rfl) rfl rfl⟩
    | resume =>
      obtain ⟨job'', hj, hs⟩ := map_ok.1 he
      cases hs
      obtain ⟨next, -, hj⟩ := bind_ok.1 hj
      cases hj
      refine ⟨rfl, .inr ⟨rfl, rfl, ?_, fun hc => absurd hc hopen⟩⟩
      intro hc
      cases hc
  · cases he

theorem touches_active (hid : job'.id = job.id)
    (hsession : job'.sessionId = op.sessionOf job) (hstamp : job'.updatedAt = op.stamp now job)
    (hcancels : op.cancels = false) (hactive : job.status = .active) :
    job'.id = job.id ∧ Touches op now first job job' := by
  refine ⟨hid, .inr ⟨hsession, hstamp, fun hc => ?_, fun hc => ?_⟩⟩
  · simp [hcancels] at hc
  · cases hactive.symm.trans hc

theorem touches_recordRunResult (id : String) (error : Option String) :
    TouchesAll (.recordRunResult id error) now fun _ => recordRunResult host id now error := by
  refine touches_editPlan fun first job job' he => ?_
  split at he
  · cases he
  · split at he
    · cases he
      exact ⟨rfl, .refl job⟩
    · rename_i hactive
      obtain ⟨next, -, he⟩ := bind_ok.1 he
      cases he
      exact touches_active rfl rfl rfl rfl (not_not.1 hactive)

theorem touches_recordSkipResult (id : String) :
    TouchesAll (.recordSkipResult id) now fun _ => recordSkipResult host id now := by
  refine touches_editPlan fun first job job' he => ?_
  split at he
  · cases he
  · split at he
    · cases he
      exact ⟨rfl, .refl job⟩
    · rename_i hactive
      obtain ⟨next, -, he⟩ := bind_ok.1 he
      cases he
      exact touches_active rfl rfl rfl rfl (not_not.1 hactive)

theorem touches_of_heartbeatPlan (h : ∀ first jobs p l, plan first jobs = .ok p → p.write = some l →
      List.Forall₂ (fun job job' => job'.id = job.id ∧ Touches op now first job job') jobs l) :
    TouchesAll op now plan := by
  intro first jobs p l hp hl
  exact ⟨l, none, (List.append_nil l).symm, h first jobs p l hp hl, by simp⟩

theorem touches_resumeHeartbeat (s : String) :
    TouchesAll (.resumeHeartbeat s) now (resumeHeartbeat host s now) := by
  refine touches_of_heartbeatPlan fun first jobs p l hp hl => ?_
  unfold resumeHeartbeat at hp
  cases hc : getHeartbeat s first with
  | none =>
    simp only [hc] at hp
    cases hp
    cases hl
  | some current =>
    simp only [hc] at hp
    obtain ⟨next, -, hp⟩ := bind_ok.1 hp
    refine touches_heartbeatPlan rfl ?_ hp hl
    intro job
    exact ⟨rfl, rfl, rfl, by simp [Op.cancels]⟩

theorem touches_pauseHeartbeat (s : String) : TouchesAll (.pauseHeartbeat s) now (pauseHeartbeat s now) := by
  refine touches_of_heartbeatPlan fun first jobs p l hp hl => ?_
  refine touches_heartbeatPlan (f := fun job => job.stopped .paused now) rfl ?_ hp hl
  intro job
  exact ⟨rfl, rfl, rfl, by simp [Op.cancels]⟩

theorem touches_clearHeartbeat (s : String) : TouchesAll (.clearHeartbeat s) now (clearHeartbeat s now) := by
  refine touches_of_heartbeatPlan fun first jobs p l hp hl => ?_
  refine touches_heartbeatPlan (f := fun job => job.stopped .cancelled now) rfl ?_ hp hl
  intro job
  exact ⟨rfl, rfl, rfl, fun _ => rfl⟩

/-- Each operation that writes jobs back has edited the jobs of its second read. -/
theorem planFrom_touches (h : op.planFrom host now = some plan) : TouchesAll op now plan := by
  cases op with
  | create input id => cases h; exact touches_create input id
  | rebindSessionJobs input => cases h; exact touches_rebindSessionJobs input
  | createHeartbeat input id => cases h; exact touches_createHeartbeat input id
  | createRlmHeartbeat input id => cases h; exact touches_createRlmHeartbeat input id
  | updateRlmHeartbeat s id update => cases h; exact touches_updateRlmHeartbeat s id update
  | pauseHeartbeat s => cases h; exact touches_pauseHeartbeat s
  | resumeHeartbeat s => cases h; exact touches_resumeHeartbeat s
  | clearHeartbeat s => cases h; exact touches_clearHeartbeat s
  | manageHeartbeat s id action => cases h; exact touches_manageHeartbeat s id action
  | recordRunResult id error => cases h; exact touches_recordRunResult id error
  | recordSkipResult id => cases h; exact touches_recordSkipResult id
  | claimDue | recordDispatchResult | recoverInterruptedDispatches | recoverInterruptedDispatchesById
  | registerSessionArtifact | recoverSessionArtifact => cases h
  | _ => cases h; exact touches_stopPlan _ (fun _ => rfl) fun _ => rfl

end

end Cron
end RePrime
