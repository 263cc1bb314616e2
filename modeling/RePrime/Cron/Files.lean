import RePrime.Cron.Edits

/-!
# RePrime.Cron.Files

What a write of jobs leaves in the files.

* `mem_mergeFreshJobs`, `mergeFreshJobs_unique`, `mem_ids_mergeFreshJobs`: the merge of two lists.
* `mem_mergedSessionJobs`: which jobs a session has after a write.
* `runPlan_cases`: the files after an operation that reads, edits and writes back.
* `mutatePaths_files`, `mutatePaths_once`: the files after a change of their states.
-/

namespace RePrime
namespace Cron

open Fallible List OrderedMap

def ids (jobs : List AgentCronJob) : List String := jobs.map AgentCronJob.id

theorem ids_append (a b : List AgentCronJob) : ids (a ++ b) = ids a ++ ids b := map_append

variable {job : AgentCronJob}

theorem mem_ids_singleton {id : String} : id ∈ ids [job] ↔ id = job.id :=
  mem_singleton

theorem mem_ids_of_mem {jobs : List AgentCronJob} (h : job ∈ jobs) : job.id ∈ ids jobs := mem_map_of_mem h

/-! ## Merging two lists -/

/-- Each job is under its own id. -/
def Keyed (m : OrderedMap String AgentCronJob) : Prop := ∀ e ∈ m.entries, e.1 = e.2.id

variable {m : OrderedMap String AgentCronJob}

theorem Keyed.set (h : Keyed m) (job : AgentCronJob) : Keyed (m.set job.id job) := by
  intro e he
  cases mem_entries_set he with
  | inl he => rw [he]
  | inr he => exact h e he

theorem jobsById_keyed (jobs : List AgentCronJob) : Keyed (jobsById jobs) := by
  intro e he
  obtain ⟨job, -, rfl⟩ := mem_map.1 (mem_of_mem_entries_ofList he)
  rfl

theorem Keyed.ids (h : Keyed m) : ids (m.entries.map Prod.snd) = m.keys := by
  rw [Cron.ids, map_map, OrderedMap.keys]
  exact map_congr_left fun e he => (h e he).symm

theorem Keyed.mergeFreshJob (h : Keyed m) (job : AgentCronJob) : Keyed (mergeFreshJob m job) := by
  unfold Cron.mergeFreshJob
  split
  · exact h.set job
  · split
    · exact h.set job
    · exact h

theorem mem_mergeFreshJob {e : String × AgentCronJob} (h : e ∈ (mergeFreshJob m job).entries) :
    e.2 = job ∨ e ∈ m.entries := by
  have hset : e ∈ (m.set job.id job).entries → e.2 = job ∨ e ∈ m.entries := by
    intro he
    cases mem_entries_set he with
    | inl he => exact .inl (by rw [he])
    | inr he => exact .inr he
  unfold mergeFreshJob at h
  split at h
  · exact hset h
  · split at h
    · exact hset h
    · exact .inr h

theorem mem_keys_mergeFreshJob {id : String} : id ∈ (mergeFreshJob m job).keys ↔ id = job.id ∨ id ∈ m.keys := by
  unfold mergeFreshJob
  split
  · exact mem_keys_set
  · rename_i current hc
    split
    · exact mem_keys_set
    · refine (or_iff_right_of_imp fun hid => ?_).symm
      rw [hid]
      by_contra hn
      rw [OrderedMap.get?_eq_none.2 hn] at hc
      cases hc

section

variable {currentJobs nextJobs : List AgentCronJob}

theorem mergeFreshJobs_keyed (currentJobs nextJobs : List AgentCronJob) :
    Keyed (nextJobs.foldl mergeFreshJob (jobsById currentJobs)) := by
  induction nextJobs using reverseRecOn with
  | nil => exact jobsById_keyed currentJobs
  | append_singleton rest job ih =>
    rw [foldl_append]
    exact ih.mergeFreshJob job

theorem mem_mergeFreshJobs {job : AgentCronJob} (h : job ∈ mergeFreshJobs currentJobs nextJobs) :
    job ∈ currentJobs ∨ job ∈ nextJobs := by
  obtain ⟨e, he, rfl⟩ := mem_map.1 h
  clear h
  induction nextJobs using reverseRecOn with
  | nil =>
    obtain ⟨job, hj, rfl⟩ := mem_map.1 (mem_of_mem_entries_ofList he)
    exact .inl hj
  | append_singleton rest job ih =>
    rw [foldl_append] at he
    cases mem_mergeFreshJob he with
    | inl hj => exact .inr (mem_append_right _ (mem_singleton.2 hj))
    | inr he =>
      cases ih he with
      | inl hc => exact .inl hc
      | inr hn => exact .inr (mem_append_left _ hn)

theorem mergeFreshJobs_unique (currentJobs nextJobs : List AgentCronJob) :
    UniqueIds (mergeFreshJobs currentJobs nextJobs) := by
  show (ids _).Nodup
  rw [mergeFreshJobs, (mergeFreshJobs_keyed currentJobs nextJobs).ids]
  exact (nextJobs.foldl mergeFreshJob (jobsById currentJobs)).nodup

theorem mem_keys_jobsById {jobs : List AgentCronJob} {id : String} : id ∈ (jobsById jobs).keys ↔ id ∈ ids jobs := by
  rw [← not_iff_not, ← OrderedMap.get?_eq_none, jobsById, OrderedMap.get?_ofList_eq_none]
  simp [ids]

theorem mem_ids_mergeFreshJobs {id : String} :
    id ∈ ids (mergeFreshJobs currentJobs nextJobs) ↔ id ∈ ids currentJobs ∨ id ∈ ids nextJobs := by
  rw [mergeFreshJobs, (mergeFreshJobs_keyed currentJobs nextJobs).ids]
  induction nextJobs using reverseRecOn with
  | nil => simp [mem_keys_jobsById, ids]
  | append_singleton rest job ih =>
    rw [foldl_append]
    simp only [foldl_cons, foldl_nil, mem_keys_mergeFreshJob, ih, ids_append, mem_append, mem_ids_singleton]
    tauto

end

/-! ## One file -/

theorem put_files (w : StoreWorld) (path p : String) (state : CronJobsState) :
    (w.put path state).files p = if p = path then state else w.files p := rfl

@[simp] theorem put_files_self (w : StoreWorld) (path : String) (state : CronJobsState) :
    (w.put path state).files path = state := by rw [put_files, if_pos rfl]

variable {path : String}

theorem put_files_ne (w : StoreWorld) {p : String} (h : p ≠ path) (state : CronJobsState) :
    (w.put path state).files p = w.files p := by rw [put_files, if_neg h]

@[simp] theorem put_mode (w : StoreWorld) (path : String) (state : CronJobsState) :
    (w.put path state).mode = w.mode := rfl

/-! ## The files of all sessions -/

/-- A write of several files, one after the other. -/
def putAll (states : String × String → CronJobsState) (l : List (String × String)) (w : StoreWorld) :
    StoreWorld := l.foldl (fun w' f => w'.put f.2 (states f)) w

theorem putAll_mode (states : String × String → CronJobsState) (l : List (String × String)) :
    ∀ w : StoreWorld, (putAll states l w).mode = w.mode := by
  induction l with
  | nil => intro w; rfl
  | cons f l ih =>
    intro w
    exact ih (w.put f.2 (states f))

theorem putAll_files_of_not_mem {states : String × String → CronJobsState}
    {l : List (String × String)} (h : path ∉ l.map Prod.snd) :
    ∀ w : StoreWorld, (putAll states l w).files path = w.files path := by
  induction l with
  | nil => intro w; rfl
  | cons f l ih =>
    intro w
    rw [map_cons, mem_cons, not_or] at h
    exact (ih h.2 (w.put f.2 (states f))).trans (put_files_ne w h.1 (states f))

theorem putAll_files_of_mem {states : String × String → CronJobsState} {l : List (String × String)}
    (h : path ∈ l.map Prod.snd) :
    ∀ w : StoreWorld, ∃ f ∈ l, f.2 = path ∧ (putAll states l w).files path = states f := by
  induction l with
  | nil => cases h
  | cons f l ih =>
    intro w
    by_cases hl : path ∈ l.map Prod.snd
    · obtain ⟨f', hf', hp, hs⟩ := ih hl (w.put f.2 (states f))
      exact ⟨f', mem_cons_of_mem _ hf', hp, hs⟩
    · have hp : path = f.2 := by
        rw [map_cons, mem_cons] at h
        exact h.resolve_right hl
      refine ⟨f, mem_cons_self, hp.symm, ?_⟩
      refine (putAll_files_of_not_mem hl (w.put f.2 (states f))).trans ?_
      rw [hp, put_files_self]

/-- The jobs of each session after a write. -/
def mergedJobs (files : OrderedMap String String) (jobs : List AgentCronJob) (w : StoreWorld) :
    List (String × List AgentCronJob) :=
  files.entries.map fun f => (f.1, mergedSessionJobs (w.files f.2) jobs f.1)

/-- All outstanding dispatches of the sessions. -/
def allDispatches (files : OrderedMap String String) (w : StoreWorld) : List AgentCronDispatchRecord :=
  files.entries.flatMap fun f => (w.files f.2).dispatches

/-- The state of a session after a write. -/
def mergedState (files : OrderedMap String String) (jobs : List AgentCronJob) (w : StoreWorld)
    (f : String × String) : CronJobsState :=
  { jobs := mergedSessionJobs (w.files f.2) jobs f.1
    dispatches := (allDispatches files w).filter fun d =>
      (sessionIdByJobId (mergedJobs files jobs w)).get? d.jobId = some f.1 }

theorem writeSessionArtifacts_eq (files : OrderedMap String String) (jobs : List AgentCronJob) (w : StoreWorld) :
    writeSessionArtifacts files jobs w = putAll (mergedState files jobs w) files.entries w := by
  show files.entries.foldl _ w = files.entries.foldl _ w
  refine foldl_ext _ _ w fun w' f hf => ?_
  have hl : (mergedJobs files jobs w).lookup f.1 = some (mergedSessionJobs (w.files f.2) jobs f.1) := by
    refine lookup_of_mem ?_ (mem_map_of_mem hf)
    rw [mergedJobs, map_map]
    exact files.nodup
  show w'.put f.2 { jobs := ((mergedJobs files jobs w).lookup f.1).getD [], dispatches := _ } = _
  rw [hl]
  rfl

section

variable {current : CronJobsState} {jobs : List AgentCronJob} {sessionId : String}

/-- A job of a session is one that no incoming job names, or the incoming one of this session, or
the fresher one it has kept in its place. -/
theorem mem_mergedSessionJobs {job : AgentCronJob} (h : job ∈ mergedSessionJobs current jobs sessionId) :
    (job ∈ current.jobs ∧ job.id ∉ ids jobs) ∨
      ∃ incoming ∈ jobs, incoming.id = job.id ∧ incoming.sessionId = sessionId ∧
        (job = incoming ∨ job ∈ current.jobs) := by
  cases mem_mergeFreshJobs h with
  | inl hr =>
    obtain ⟨hc, ht⟩ := mem_filter.1 hr
    cases hg : (jobsById jobs).get? job.id with
    | none => exact .inl ⟨hc, fun hid => OrderedMap.get?_eq_none.1 hg (mem_keys_jobsById.2 hid)⟩
    | some incoming =>
      simp only [hg, decide_eq_true_eq] at ht
      obtain ⟨i, hi, he⟩ := mem_map.1 (mem_of_get?_ofList hg)
      obtain ⟨hid, rfl⟩ := Prod.mk.inj he
      exact .inr ⟨i, hi, hid, ht, .inr hc⟩
  | inr hn =>
    obtain ⟨hj, ht⟩ := mem_filter.1 hn
    exact .inr ⟨job, hj, rfl, of_decide_eq_true ht, .inl rfl⟩

theorem jobsById_get? (hu : UniqueIds jobs) {job : AgentCronJob} (h : job ∈ jobs) :
    (jobsById jobs).get? job.id = some job := by
  refine OrderedMap.get?_ofList_of_mem (mem_map_of_mem h) ?_
  intro e he hid
  obtain ⟨other, ho, rfl⟩ := mem_map.1 he
  exact hu.eq ho h hid

theorem mem_ids_mergedSessionJobs {id : String} (h : id ∈ ids current.jobs ∧ id ∉ ids jobs ∨
    ∃ incoming ∈ jobs, incoming.id = id ∧ incoming.sessionId = sessionId) :
    id ∈ ids (mergedSessionJobs current jobs sessionId) := by
  refine mem_ids_mergeFreshJobs.2 ?_
  obtain ⟨hc, hn⟩ | ⟨incoming, hi, rfl, hs⟩ := h
  · left
    obtain ⟨job, hj, rfl⟩ := mem_map.1 hc
    have hg : (jobsById jobs).get? job.id = none :=
      OrderedMap.get?_eq_none.2 fun hk => hn (mem_keys_jobsById.1 hk)
    exact mem_ids_of_mem (mem_filter.2 ⟨hj, by simp only [hg]⟩)
  · right
    exact mem_ids_of_mem (mem_filter.2 ⟨hi, decide_eq_true hs⟩)

end

/-! ## Running a plan -/

theorem runPlan_cases (plan : List AgentCronJob → Except String Plan) (w : StoreWorld) :
    (runPlan plan w).2 = w ∨ ∃ p l, plan (readJobs w) = .ok p ∧ p.write = some l ∧
      ((∃ path, w.mode = .file path ∧ (runPlan plan w).2 = writeJobsFile path l w) ∨
        ∃ files, w.mode = .sessionArtifacts files ∧ (∀ job ∈ l, files.has job.sessionId = true) ∧
          (runPlan plan w).2 = writeSessionArtifacts files l w) := by
  unfold runPlan
  cases hp : plan (readJobs w) with
  | error e => exact .inl rfl
  | ok p =>
    cases hw : p.write with
    | none =>
      left
      simp only [hw]
    | some l =>
      simp only [hw]
      unfold writeJobs
      cases hm : w.mode with
      | file path => exact .inr ⟨p, l, rfl, hw, .inl ⟨path, rfl, rfl⟩⟩
      | sessionArtifacts files =>
        simp only []
        cases hf : l.find? fun job => !files.has job.sessionId with
        | some job => exact .inl rfl
        | none =>
          refine .inr ⟨p, l, rfl, hw, .inr ⟨files, rfl, ?_, rfl⟩⟩
          intro job hj
          simpa using find?_eq_none.1 hf job hj

theorem mem_runPlan {plan : List AgentCronJob → Except String Plan} {w : StoreWorld}
    (h : job ∈ ((runPlan plan w).2.files path).jobs) : (∃ p, job ∈ (w.files p).jobs) ∨
      ∃ p l, plan (readJobs w) = .ok p ∧ p.write = some l ∧ job ∈ l := by
  obtain hw | ⟨p, l, hp, hl, ⟨path', -, hw⟩ | ⟨files, -, -, hw⟩⟩ := runPlan_cases plan w
  · rw [hw] at h
    exact .inl ⟨path, h⟩
  · rw [hw, writeJobsFile, put_files] at h
    by_cases hpath : path = path'
    · rw [if_pos hpath] at h
      cases mem_mergeFreshJobs h with
      | inl hc => exact .inl ⟨path', hc⟩
      | inr hn => exact .inr ⟨p, l, hp, hl, hn⟩
    · rw [if_neg hpath] at h
      exact .inl ⟨path, h⟩
  · rw [hw, writeSessionArtifacts_eq] at h
    by_cases hpath : path ∈ files.entries.map Prod.snd
    · obtain ⟨f, -, -, hs⟩ := putAll_files_of_mem hpath w
      rw [hs] at h
      obtain ⟨hc, -⟩ | ⟨incoming, hi, -, -, rfl | hc⟩ := mem_mergedSessionJobs h
      · exact .inl ⟨_, hc⟩
      · exact .inr ⟨p, l, hp, hl, hi⟩
      · exact .inl ⟨_, hc⟩
    · rw [putAll_files_of_not_mem hpath] at h
      exact .inl ⟨path, h⟩

/-! ## Changing the states -/

section

variable {α : Type} {mutator : String → CronJobsState → Except String (CronJobsState × List α)}

variable {path : String} {rest : List String} {w : StoreWorld}

theorem mutatePaths_error {e : String} (h : mutator path (w.files path) = .error e) :
    mutatePaths mutator (path :: rest) w = (.error e, w) := by
  simp only [mutatePaths, h]

theorem mutatePaths_world_ok {r : CronJobsState × List α} (h : mutator path (w.files path) = .ok r) :
    (mutatePaths mutator (path :: rest) w).2 = (mutatePaths mutator rest (w.put path r.1)).2 := by
  rw [mutatePaths]
  cases hr : mutatePaths mutator rest (w.put path r.1) with
  | mk res w' =>
    cases res with
    | error | ok => simp only [h, hr]

theorem mutatePaths_mode (mutator : String → CronJobsState → Except String (CronJobsState × List α))
    (paths : List String) : ∀ w : StoreWorld, (mutatePaths mutator paths w).2.mode = w.mode := by
  induction paths with
  | nil => intro w; rfl
  | cons path rest ih =>
    intro w
    cases hm : mutator path (w.files path) with
    | error e => rw [mutatePaths_error hm]
    | ok r => rw [mutatePaths_world_ok hm, ih, put_mode]

/-- What each change of a state keeps, a change of all states keeps, also one that throws. -/
theorem mutatePaths_files {P : String → CronJobsState → Prop} {paths : List String}
    (hstep : ∀ path ∈ paths, ∀ s r, mutator path s = .ok r → P path s → P path r.1) :
    ∀ {w : StoreWorld}, (∀ path, P path (w.files path)) →
      ∀ path, P path ((mutatePaths mutator paths w).2.files path) := by
  induction paths with
  | nil =>
    intro w h
    exact h
  | cons path rest ih =>
    intro w h
    cases hm : mutator path (w.files path) with
    | error e => rwa [mutatePaths_error hm]
    | ok r =>
      rw [mutatePaths_world_ok hm]
      refine ih (fun p hp => hstep p (mem_cons_of_mem _ hp)) fun p => ?_
      rw [put_files]
      by_cases hp : p = path
      · rw [if_pos hp, hp]
        exact hstep path mem_cons_self _ r hm (h path)
      · rw [if_neg hp]
        exact h p

theorem mutatePaths_once {paths : List String} (hn : paths.Nodup) : ∀ (w : StoreWorld) (path : String),
    (mutatePaths mutator paths w).2.files path = w.files path ∨
      path ∈ paths ∧ ∃ r, mutator path (w.files path) = .ok r ∧
        (mutatePaths mutator paths w).2.files path = r.1 := by
  induction paths with
  | nil =>
    intro w path
    exact .inl rfl
  | cons first rest ih =>
    intro w path
    rw [nodup_cons] at hn
    cases hm : mutator first (w.files first) with
    | error e =>
      rw [mutatePaths_error hm]
      exact .inl rfl
    | ok r =>
      rw [mutatePaths_world_ok hm]
      by_cases hp : path = first
      · subst hp
        refine .inr ⟨mem_cons_self, r, hm, ?_⟩
        cases ih hn.2 (w.put path r.1) path with
        | inl h => rw [h, put_files_self]
        | inr h => exact absurd h.1 hn.1
      · have h := ih hn.2 (w.put first r.1) path
        rw [put_files_ne w hp] at h
        exact h.imp_right fun h => ⟨mem_cons_of_mem _ h.1, h.2⟩

theorem mutatePaths_cons_ok {w' : StoreWorld} {as : List α} : mutatePaths mutator (path :: rest) w = (.ok as, w') ↔
      ∃ r as', mutator path (w.files path) = .ok r ∧
        mutatePaths mutator rest (w.put path r.1) = (.ok as', w') ∧ as = r.2 ++ as' := by
  rw [mutatePaths]
  cases hm : mutator path (w.files path) with
  | error e => simp
  | ok r =>
    cases hr : mutatePaths mutator rest (w.put path r.1) with
    | mk res w'' =>
      cases res with
      | error e => simp [hr]
      | ok as' =>
        simp only [hr, Prod.mk.injEq, Except.ok.injEq]
        constructor
        · rintro ⟨rfl, rfl⟩
          exact ⟨r, as', rfl, hr.trans rfl, rfl⟩
        · rintro ⟨r', as'', rfl, hr', rfl⟩
          rw [hr] at hr'
          cases hr'
          exact ⟨rfl, rfl⟩

end

end Cron
end RePrime
