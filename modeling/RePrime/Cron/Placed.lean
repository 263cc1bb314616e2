import RePrime.Cron.Changes

/-!
# RePrime.Cron.Placed

Where jobs and dispatches are.

* `Placed`: each job is in one file, and its dispatch, of which there is one at most, is there too.
* `Follows`: each job after an operation is one from before, with its dispatches, or a new one.
* `runs_placed`: operations that draw new ids keep each job in its place.
-/

namespace RePrime
namespace Cron

open List
open OrderedMap
open AgentCronDispatchRecord

/-- An operation that draws new ids, and gives no session the file of another. -/
structure Fresh (op : Op) (w : StoreWorld) : Prop where
  job : ∀ id, op.newId = some id → ∀ path, id ∉ ids (w.files path).jobs
  dispatch : ∀ dueAt ids, op = .claimDue dueAt ids →
    (∀ p, ∀ d ∈ (w.files p).dispatches, ∀ path n, ids path n ≠ d.id) ∧
      ∀ path n path' n', ids path n = ids path' n' → path = path' ∧ n = n'
  path : ∀ sessionId path, op = .registerSessionArtifact sessionId path →
    ∀ files, w.mode = .sessionArtifacts files → ∀ f ∈ files.entries, f.2 = path → f.1 = sessionId

structure Placed (w : StoreWorld) : Prop where
  paths : w.mode.paths.Nodup
  unique : ∀ path, UniqueIds (w.files path).jobs
  apart : ∀ p q id, id ∈ ids (w.files p).jobs → id ∈ ids (w.files q).jobs → p = q
  dispatched : ∀ path, ∀ d ∈ (w.files path).dispatches, d.jobId ∈ ids (w.files path).jobs
  single : ∀ path, ((w.files path).dispatches.map jobId).Nodup
  named : ∀ p q, ∀ d ∈ (w.files p).dispatches, ∀ d' ∈ (w.files q).dispatches, d.id = d'.id → d = d'

variable {w : StoreWorld}

theorem Placed.readJobs_unique (h : Placed w) : UniqueIds (readJobs w) := by
  unfold UniqueIds readJobs
  rw [map_flatMap, nodup_flatMap]
  refine ⟨fun path _ => h.unique path, h.paths.imp ?_⟩
  intro p q hpq id hp hq
  exact hpq (h.apart p q id hp hq)

theorem mem_readJobs {job : AgentCronJob} :
    job ∈ readJobs w ↔ ∃ path ∈ w.mode.paths, job ∈ (w.files path).jobs := mem_flatMap

theorem mem_ids_readJobs {id : String} :
    id ∈ ids (readJobs w) ↔ ∃ path ∈ w.mode.paths, id ∈ ids (w.files path).jobs := by
  simp only [ids, mem_map, mem_readJobs]
  constructor
  · rintro ⟨job, ⟨path, hp, hj⟩, rfl⟩
    exact ⟨path, hp, job, hj, rfl⟩
  · rintro ⟨path, hp, job, hj, rfl⟩
    exact ⟨job, ⟨path, hp, hj⟩, rfl⟩

/-! ## What an operation writes -/

/-- The jobs an operation writes, edited from those it has read. -/
structure Writes (host : Host) (now : Instant) (op : Op) (w : StoreWorld) (l : List AgentCronJob) :
    Prop where
  unique : UniqueIds l
  source : ∀ job' ∈ l, (∃ path ∈ w.mode.paths, ∃ job ∈ (w.files path).jobs,
    Edited host now op (readJobs w) job job') ∨ Created op job'
  covers : ∀ path ∈ w.mode.paths, ∀ id ∈ ids (w.files path).jobs, id ∈ ids l

theorem ids_forall₂ {R : AgentCronJob → AgentCronJob → Prop} (hR : ∀ job job', R job job' → job'.id = job.id)
    {l l' : List AgentCronJob} (h : List.Forall₂ R l l') : ids l' = ids l := by
  induction h with
  | nil => rfl
  | cons hr _ ih =>
    show _ :: ids _ = _ :: ids _
    rw [ih, hR _ _ hr]

section

variable {host : Host} {now : Instant} {op : Op} {w : StoreWorld}

theorem Edits.writes {plan : List AgentCronJob → Except String Plan} (he : Edits host now op plan)
    (hp : Placed w) (hf : Fresh op w) {p : Plan} {l : List AgentCronJob}
    (hplan : plan (readJobs w) = .ok p) (hl : p.write = some l) : Writes host now op w l := by
  obtain ⟨old, created, rfl, hold, hcreated⟩ := he _ p _ hplan hl
  have hids : ids old = ids (readJobs w) := ids_forall₂ (fun _ _ h => h.id) hold
  have hnew : ∀ job ∈ created, job.id ∉ ids old := by
    intro job hj hid
    rw [hids] at hid
    obtain ⟨path, -, hid⟩ := mem_ids_readJobs.1 hid
    exact hf.job job.id (hcreated job hj).id path hid
  refine ⟨?_, ?_, ?_⟩
  · show (ids _).Nodup
    rw [ids_append, nodup_append', hids]
    refine ⟨hp.readJobs_unique, ?_, ?_⟩
    · cases created <;> simp [ids]
    · intro id hold' hc
      obtain ⟨job, hj, rfl⟩ := mem_map.1 hc
      rw [← hids] at hold'
      exact hnew job (Option.mem_toList.1 hj) hold'
  · intro job' hj'
    cases mem_append.1 hj' with
    | inl ho =>
      obtain ⟨job, hj, hedit⟩ := exists_of_forall₂ hold.flip ho
      obtain ⟨path, hpath, hj⟩ := mem_readJobs.1 hj
      exact .inl ⟨path, hpath, job, hj, hedit⟩
    | inr hc => exact .inr (hcreated job' (Option.mem_toList.1 hc))
  · intro path hpath id hid
    rw [ids_append, hids]
    exact mem_append_left _ (mem_ids_readJobs.2 ⟨path, hpath, hid⟩)

/-- What the jobs after an operation come from. -/
structure Follows (host : Host) (now : Instant) (op : Op) (w w' : StoreWorld) : Prop where
  jobs : ∀ path, ∀ job' ∈ (w'.files path).jobs,
    (∃ p, ∃ job ∈ (w.files p).jobs, (job' = job ∨
        p ∈ w.mode.paths ∧ Edited host now op (readJobs w) job job') ∧
      ∀ d ∈ (w.files p).dispatches, d.jobId = job.id → d ∈ (w'.files path).dispatches) ∨ Created op job'
  dispatches : ∀ path, ∀ d ∈ (w'.files path).dispatches, ∃ p, d ∈ (w.files p).dispatches
  keeps : ∀ p, ∀ id ∈ ids (w.files p).jobs, ∃ path, id ∈ ids (w'.files path).jobs

theorem Follows.refl (w : StoreWorld) : Follows host now op w w where
  jobs := fun path job hj => .inl ⟨path, job, hj, .inl rfl, fun _ hd _ => hd⟩
  dispatches := fun path _ hd => ⟨path, hd⟩
  keeps := fun p _ hid => ⟨p, hid⟩

/-! ## One file for all jobs -/

variable {l : List AgentCronJob} {path : String}

theorem writeJobsFile_files (p : String) : (writeJobsFile path l w).files p =
    if p = path then
      { jobs := mergeFreshJobs (w.files path).jobs l, dispatches := (w.files path).dispatches }
    else w.files p := put_files w path p _

theorem writeJobsFile_follows (hm : w.mode = .file path) (hw : Writes host now op w l) :
    Follows host now op w (writeJobsFile path l w) := by
  refine ⟨?_, ?_, ?_⟩
  · intro p job' hj'
    rw [writeJobsFile_files] at hj' ⊢
    by_cases hpath : p = path
    · rw [if_pos hpath] at hj' ⊢
      cases mem_mergeFreshJobs hj' with
      | inl hc => exact .inl ⟨path, job', hc, .inl rfl, fun _ hd _ => hd⟩
      | inr hn =>
        refine (hw.source job' hn).imp_left ?_
        rintro ⟨q, hq, job, hj, he⟩
        have hpath : q = path := by
          rw [hm, StoreMode.paths, mem_singleton] at hq
          exact hq
        rw [hpath] at hj hq
        exact ⟨path, job, hj, .inr ⟨hq, he⟩, fun _ hd _ => hd⟩
    · rw [if_neg hpath] at hj' ⊢
      exact .inl ⟨p, job', hj', .inl rfl, fun _ hd _ => hd⟩
  · intro p d hd
    rw [writeJobsFile_files] at hd
    by_cases hpath : p = path
    · rw [if_pos hpath] at hd
      exact ⟨path, hd⟩
    · rw [if_neg hpath] at hd
      exact ⟨p, hd⟩
  · intro p id hid
    refine ⟨p, ?_⟩
    rw [writeJobsFile_files]
    by_cases hpath : p = path
    · rw [if_pos hpath]
      rw [hpath] at hid
      exact mem_ids_mergeFreshJobs.2 (.inl hid)
    · rwa [if_neg hpath]

variable {id : String}

theorem Writes.mem_ids (hm : w.mode = .file path) (hf : Fresh op w) (hw : Writes host now op w l)
    (h : id ∈ ids l) :
    id ∈ ids (w.files path).jobs ∨ ∀ p, id ∉ ids (w.files p).jobs := by
  obtain ⟨job', hj', rfl⟩ := mem_map.1 h
  obtain ⟨q, hq, job, hj, he⟩ | hc := hw.source job' hj'
  · left
    rw [hm, StoreMode.paths, mem_singleton] at hq
    rw [he.id, ← hq]
    exact mem_ids_of_mem hj
  · exact .inr (hf.job job'.id hc.id)

theorem writeJobsFile_placed (hm : w.mode = .file path) (hp : Placed w) (hf : Fresh op w)
    (hw : Writes host now op w l) : Placed (writeJobsFile path l w) := by
  have hids : ∀ q id, id ∈ ids ((writeJobsFile path l w).files q).jobs →
      id ∈ ids (w.files q).jobs ∨ q = path ∧ ∀ p, id ∉ ids (w.files p).jobs := by
    intro q id hid
    rw [writeJobsFile_files] at hid
    by_cases hq : q = path
    · rw [if_pos hq] at hid
      rw [hq]
      cases mem_ids_mergeFreshJobs.1 hid with
      | inl hc => exact .inl hc
      | inr hn => exact (hw.mem_ids hm hf hn).imp_right fun h => ⟨rfl, h⟩
    · rw [if_neg hq] at hid
      exact .inl hid
  have hdisp : ∀ q, ((writeJobsFile path l w).files q).dispatches = (w.files q).dispatches := by
    intro q
    rw [writeJobsFile_files]
    split
    · rename_i hq
      rw [hq]
    · rfl
  refine ⟨hp.paths, ?_, ?_, ?_, ?_, ?_⟩
  · intro q
    rw [writeJobsFile_files]
    split
    · exact mergeFreshJobs_unique _ _
    · exact hp.unique q
  · intro p q id hidp hidq
    obtain hidp | ⟨rfl, hnew⟩ := hids p id hidp
    · obtain hidq | ⟨-, hnew⟩ := hids q id hidq
      · exact hp.apart p q id hidp hidq
      · exact absurd hidp (hnew p)
    · obtain hidq | ⟨rfl, -⟩ := hids q id hidq
      · exact absurd hidq (hnew q)
      · rfl
  · intro q d hd
    rw [hdisp] at hd
    have hid := hp.dispatched q d hd
    rw [writeJobsFile_files]
    split
    · rename_i hq
      rw [hq] at hid
      exact mem_ids_mergeFreshJobs.2 (.inl hid)
    · exact hid
  · intro q
    rw [hdisp]
    exact hp.single q
  · intro p q d hd d' hd'
    rw [hdisp] at hd hd'
    exact hp.named p q d hd d' hd'

/-! ## A file for each session -/

variable {files : OrderedMap String String}

variable {f : String × String}

theorem mem_paths (hm : w.mode = .sessionArtifacts files) (hf : f ∈ files.entries) :
    f.2 ∈ w.mode.paths := by
  rw [hm]
  exact mem_map_of_mem hf

theorem entry_of_path (hm : w.mode = .sessionArtifacts files) (hp : Placed w) {f' : String × String}
    (hf : f ∈ files.entries) (hf' : f' ∈ files.entries) (h : f.2 = f'.2) : f = f' := by
  have hn := hp.paths
  rw [hm] at hn
  exact inj_on_of_nodup_map hn hf hf' h

theorem entry_of_session {f' : String × String} (hf : f ∈ files.entries) (hf' : f' ∈ files.entries)
    (h : f.1 = f'.1) : f = f' := inj_on_of_nodup_map files.nodup hf hf' h

variable (hm : w.mode = .sessionArtifacts files)

include hm

theorem artifact_files (path : String) :
    (∃ f ∈ files.entries, f.2 = path ∧
      (writeSessionArtifacts files l w).files path = mergedState files l w f) ∨
      path ∉ w.mode.paths ∧ (writeSessionArtifacts files l w).files path = w.files path := by
  rw [writeSessionArtifacts_eq, hm]
  by_cases hpath : path ∈ files.entries.map Prod.snd
  · exact .inl (putAll_files_of_mem hpath w)
  · exact .inr ⟨hpath, putAll_files_of_not_mem hpath w⟩

theorem artifact_file (hp : Placed w)
    (hf : f ∈ files.entries) :
    (writeSessionArtifacts files l w).files f.2 = mergedState files l w f := by
  obtain ⟨f', hf', hpath, h⟩ | ⟨hnot, -⟩ := artifact_files (l := l) hm f.2
  · rwa [entry_of_path hm hp hf' hf hpath] at h
  · exact absurd (mem_paths hm hf) hnot

theorem mem_merged (hw : Writes host now op w l)
    (hf : f ∈ files.entries) {job' : AgentCronJob}
    (h : job' ∈ mergedSessionJobs (w.files f.2) l f.1) :
    ∃ incoming ∈ l, incoming.id = job'.id ∧ incoming.sessionId = f.1 ∧
      (job' = incoming ∨ job' ∈ (w.files f.2).jobs) := by
  obtain ⟨hc, hn⟩ | h := mem_mergedSessionJobs h
  · exact absurd (hw.covers f.2 (mem_paths hm hf) _ (mem_ids_of_mem hc)) hn
  · exact h

theorem mem_ids_merged (hw : Writes host now op w l)
    (hf : f ∈ files.entries) :
    id ∈ ids (mergedSessionJobs (w.files f.2) l f.1) ↔
      ∃ incoming ∈ l, incoming.id = id ∧ incoming.sessionId = f.1 := by
  constructor
  · intro h
    obtain ⟨job', hj', rfl⟩ := mem_map.1 h
    obtain ⟨incoming, hi, hid, hs, -⟩ := mem_merged hm hw hf hj'
    exact ⟨incoming, hi, hid, hs⟩
  · intro h
    exact mem_ids_mergedSessionJobs (.inr h)

theorem sessionIdByJobId_get? (hw : Writes host now op w l)
    (hf : f ∈ files.entries) :
    (sessionIdByJobId (mergedJobs files l w)).get? id = some f.1 ↔
      id ∈ ids (mergedSessionJobs (w.files f.2) l f.1) := by
  constructor
  · intro h
    obtain ⟨m, hmem, hpair⟩ := mem_flatMap.1 (mem_of_get?_ofList h)
    obtain ⟨f', hf', rfl⟩ := mem_map.1 hmem
    obtain ⟨job, hj, he⟩ := mem_map.1 hpair
    obtain ⟨hid, hs⟩ := Prod.mk.inj he
    rw [entry_of_session hf' hf hs] at hj
    rw [← hid]
    exact mem_ids_of_mem hj
  · intro h
    obtain ⟨job, hj, rfl⟩ := mem_map.1 h
    refine get?_ofList_of_mem ?_ ?_
    · exact mem_flatMap.2 ⟨_, mem_map_of_mem hf, mem_map_of_mem hj⟩
    · intro e he hid
      obtain ⟨m, hmem, hpair⟩ := mem_flatMap.1 he
      obtain ⟨f', hf', rfl⟩ := mem_map.1 hmem
      obtain ⟨job₁, hj₁, rfl⟩ := mem_map.1 hpair
      obtain ⟨i, hi, hid₁, hs₁, -⟩ := mem_merged hm hw hf hj
      obtain ⟨i', hi', hid₂, hs₂, -⟩ := mem_merged hm hw hf' hj₁
      rw [hw.unique.eq hi' hi (hid₂.trans (hid.trans hid₁.symm))] at hs₂
      exact hs₂.symm.trans hs₁

theorem mem_allDispatches {d : AgentCronDispatchRecord} :
    d ∈ allDispatches files w ↔ ∃ path ∈ w.mode.paths, d ∈ (w.files path).dispatches := by
  rw [hm, allDispatches, mem_flatMap]
  constructor
  · rintro ⟨f, hf, hd⟩
    exact ⟨f.2, mem_map_of_mem hf, hd⟩
  · rintro ⟨path, hp, hd⟩
    obtain ⟨f, hf, rfl⟩ := mem_map.1 hp
    exact ⟨f, hf, hd⟩

theorem mem_mergedState_dispatches (hw : Writes host now op w l)
    (hf : f ∈ files.entries) {d : AgentCronDispatchRecord} :
    d ∈ (mergedState files l w f).dispatches ↔
      (∃ path ∈ w.mode.paths, d ∈ (w.files path).dispatches) ∧
        d.jobId ∈ ids (mergedSessionJobs (w.files f.2) l f.1) := by
  rw [mergedState, mem_filter, decide_eq_true_eq, mem_allDispatches hm,
    sessionIdByJobId_get? hm hw hf]

theorem writeSessionArtifacts_follows (hp : Placed w)
    (hreg : ∀ job ∈ l, files.has job.sessionId = true)
    (hw : Writes host now op w l) : Follows host now op w (writeSessionArtifacts files l w) := by
  refine ⟨?_, ?_, ?_⟩
  · intro path job' hj'
    obtain ⟨f, hf, rfl, h⟩ | ⟨-, h⟩ := artifact_files (l := l) hm path
    · rw [h] at hj' ⊢
      -- the dispatches of the job come with it
      have hmoves : ∀ p ∈ w.mode.paths, ∀ d ∈ (w.files p).dispatches, d.jobId = job'.id →
          d ∈ (mergedState files l w f).dispatches := by
        intro p hpath d hd hid
        refine (mem_mergedState_dispatches hm hw hf).2 ⟨⟨p, hpath, hd⟩, ?_⟩
        rw [hid]
        exact mem_ids_of_mem hj'
      obtain ⟨incoming, hi, hid, hs, rfl | hc⟩ := mem_merged hm hw hf hj'
      · refine (hw.source job' hi).imp_left ?_
        rintro ⟨p, hpath, job, hj, he⟩
        exact ⟨p, job, hj, .inr ⟨hpath, he⟩, fun d hd hid => hmoves p hpath d hd (hid.trans he.id.symm)⟩
      · exact .inl ⟨f.2, job', hc, .inl rfl, fun d hd hid => hmoves f.2 (mem_paths hm hf) d hd hid⟩
    · rw [h] at hj' ⊢
      exact .inl ⟨path, job', hj', .inl rfl, fun _ hd _ => hd⟩
  · intro path d hd
    obtain ⟨f, hf, rfl, h⟩ | ⟨-, h⟩ := artifact_files (l := l) hm path
    · rw [h] at hd
      obtain ⟨⟨p, -, hd⟩, -⟩ := (mem_mergedState_dispatches hm hw hf).1 hd
      exact ⟨p, hd⟩
    · rw [h] at hd
      exact ⟨path, hd⟩
  · intro p id hid
    by_cases hpath : p ∈ w.mode.paths
    · obtain ⟨incoming, hi, rfl⟩ := mem_map.1 (hw.covers p hpath id hid)
      obtain ⟨target, htarget⟩ := has_iff_get?.1 (hreg incoming hi)
      have hentry : (incoming.sessionId, target) ∈ files.entries := mem_entries_of_get? htarget
      refine ⟨target, ?_⟩
      rw [artifact_file (l := l) hm hp hentry]
      exact (mem_ids_merged hm hw hentry).2 ⟨incoming, hi, rfl, rfl⟩
    · refine ⟨p, ?_⟩
      obtain ⟨f, hf, rfl, -⟩ | ⟨-, h⟩ := artifact_files (l := l) hm p
      · exact absurd (mem_paths hm hf) hpath
      · rwa [h]

theorem allDispatches_single (hp : Placed w) :
    ((allDispatches files w).map jobId).Nodup := by
  have hn := hp.paths
  rw [hm] at hn
  rw [allDispatches, map_flatMap, nodup_flatMap]
  refine ⟨fun f _ => hp.single f.2, (pairwise_map.1 hn).imp ?_⟩
  intro f g hfg jobId hf hg
  obtain ⟨d, hd, rfl⟩ := mem_map.1 hf
  obtain ⟨d', hd', hid⟩ := mem_map.1 hg
  have hjob := hp.dispatched g.2 d' hd'
  rw [hid] at hjob
  exact hfg (hp.apart f.2 g.2 d.jobId (hp.dispatched f.2 d hd) hjob)

theorem writeSessionArtifacts_placed (hp : Placed w)
    (hf : Fresh op w) (hw : Writes host now op w l) : Placed (writeSessionArtifacts files l w) := by
  -- a written id is in one session, and in no file of no session
  have hwritten : ∀ f ∈ files.entries, ∀ id ∈ ids (mergedSessionJobs (w.files f.2) l f.1),
      ∀ p, p ∉ w.mode.paths → id ∉ ids (w.files p).jobs := by
    intro f hfile id hid p hpath hother
    obtain ⟨incoming, hi, rfl, -⟩ := (mem_ids_merged hm hw hfile).1 hid
    obtain ⟨q, hq, job, hj, he⟩ | hc := hw.source incoming hi
    · rw [he.id] at hother
      exact hpath (hp.apart q p job.id (mem_ids_of_mem hj) hother ▸ hq)
    · exact hf.job incoming.id hc.id p hother
  refine ⟨?_, ?_, ?_, ?_, ?_, ?_⟩
  · rw [writeSessionArtifacts_eq, putAll_mode]
    exact hp.paths
  · intro path
    obtain ⟨f, -, -, h⟩ | ⟨-, h⟩ := artifact_files (l := l) hm path
    · rw [h]
      exact mergeFreshJobs_unique _ _
    · rw [h]
      exact hp.unique path
  · intro p q id hidp hidq
    obtain ⟨f, hfp, rfl, h⟩ | ⟨hnp, h⟩ := artifact_files (l := l) hm p
    · rw [h] at hidp
      obtain ⟨g, hgq, rfl, h'⟩ | ⟨hnq, h'⟩ := artifact_files (l := l) hm q
      · rw [h'] at hidq
        obtain ⟨i, hi, hid, hs⟩ := (mem_ids_merged hm hw hfp).1 hidp
        obtain ⟨j, hj, hid', hs'⟩ := (mem_ids_merged hm hw hgq).1 hidq
        rw [hw.unique.eq hj hi (hid'.trans hid.symm)] at hs'
        rw [entry_of_session hfp hgq (hs.symm.trans hs')]
      · rw [h'] at hidq
        exact absurd hidq (hwritten f hfp id hidp q hnq)
    · rw [h] at hidp
      obtain ⟨g, hgq, rfl, h'⟩ | ⟨-, h'⟩ := artifact_files (l := l) hm q
      · rw [h'] at hidq
        exact absurd hidp (hwritten g hgq id hidq p hnp)
      · rw [h'] at hidq
        exact hp.apart p q id hidp hidq
  · intro path d hd
    obtain ⟨f, hfile, -, h⟩ | ⟨-, h⟩ := artifact_files (l := l) hm path
    · rw [h] at hd ⊢
      exact ((mem_mergedState_dispatches hm hw hfile).1 hd).2
    · rw [h] at hd ⊢
      exact hp.dispatched path d hd
  · intro path
    obtain ⟨f, hfile, -, h⟩ | ⟨-, h⟩ := artifact_files (l := l) hm path
    · rw [h]
      exact (allDispatches_single hm hp).sublist (filter_sublist.map _)
    · rw [h]
      exact hp.single path
  · intro p q d hd d' hd'
    have hfollow : ∀ path, ∀ d ∈ ((writeSessionArtifacts files l w).files path).dispatches,
        ∃ p, d ∈ (w.files p).dispatches := by
      intro path d hd
      obtain ⟨f, hfile, -, h⟩ | ⟨-, h⟩ := artifact_files (l := l) hm path
      · rw [h] at hd
        obtain ⟨⟨p, -, hd⟩, -⟩ := (mem_mergedState_dispatches hm hw hfile).1 hd
        exact ⟨p, hd⟩
      · rw [h] at hd
        exact ⟨path, hd⟩
    obtain ⟨p', hp'⟩ := hfollow p d hd
    obtain ⟨q', hq'⟩ := hfollow q d' hd'
    exact hp.named p' q' d hp' d' hq'

/-! ## Operations that read, edit and write back -/

omit hm

theorem runPlan_follows {plan : List AgentCronJob → Except String Plan} (he : Edits host now op plan)
    (hp : Placed w) (hf : Fresh op w) :
    Placed (runPlan plan w).2 ∧ Follows host now op w (runPlan plan w).2 := by
  obtain hw | ⟨p, l, hplan, hl, ⟨path, hm, hw⟩ | ⟨files, hm, hreg, hw⟩⟩ := runPlan_cases plan w
  · rw [hw]
    exact ⟨hp, Follows.refl w⟩
  · have hwrites := he.writes hp hf hplan hl
    rw [hw]
    exact ⟨writeJobsFile_placed hm hp hf hwrites, writeJobsFile_follows hm hwrites⟩
  · have hwrites := he.writes hp hf hplan hl
    rw [hw]
    exact ⟨writeSessionArtifacts_placed hm hp hf hwrites,
      writeSessionArtifacts_follows hm hp hreg hwrites⟩

end

/-! ## Claims -/

/-- What a claim does to a state: the same jobs, and dispatches of jobs that have none. -/
structure ClaimOf (zone : Zone) (dueAt claimedAt : Instant) (ids : Nat → String)
    (s s' : CronJobsState) (claimed : List Claimed) : Prop where
  jobs : List.Forall₂ (fun job job' => ∃ id c,
    Passes zone dueAt claimedAt (s.dispatches.map jobId) id job job' c ∧
      c ⊆ claimed) s.jobs s'.jobs
  dispatches : s'.dispatches = s.dispatches ++ claimed.map Prod.fst
  source : ∀ c ∈ claimed, ∃ job ∈ s.jobs, ∃ job' ∈ s'.jobs, ∃ id, isDueJob job dueAt = true ∧
    Claims zone claimedAt (s.dispatches.map jobId) id job job' [c]
  once : (claimed.map fun c => c.1.jobId).Sublist (Cron.ids s.jobs)
  drawn : (claimed.map fun c => c.1.id) = (List.range' 0 claimed.length).map ids

theorem claimDueInState_claimOf {zone : Zone} {dueAt claimedAt : Instant} {ids : Nat → String}
    {s : CronJobsState} {r : CronJobsState × List AgentCronDispatch}
    (h : claimDueInState zone dueAt claimedAt ids s = .ok r) :
    ∃ claimed, ClaimOf zone dueAt claimedAt ids s r.1 claimed := by
  obtain ⟨c, hc, rfl⟩ := claimDueInState_ok.1 h
  exact ⟨c.2,
    { jobs := claimJobs_forall₂ hc
      dispatches := rfl
      source := fun d hd => claimJobs_source hc hd
      once := claimJobs_sublist hc
      drawn := claimJobs_ids hc }⟩

section

variable {zone : Zone} {dueAt claimedAt : Instant} {draw : Nat → String} {s s' : CronJobsState}
  {claimed : List Claimed}

theorem ClaimOf.ids (h : ClaimOf zone dueAt claimedAt draw s s' claimed) : ids s'.jobs = ids s.jobs := by
  refine ids_forall₂ ?_ h.jobs
  rintro job job' ⟨id, c, hp, -⟩
  exact hp.id

variable {c : Claimed}

variable (h : ClaimOf zone dueAt claimedAt draw s s' claimed)

include h

theorem ClaimOf.claim
    (hc : c ∈ claimed) : ∃ job ∈ s.jobs, isDueJob job dueAt = true ∧ c.1.jobId = job.id ∧
      job.nextRunAt = some c.1.scheduledFor ∧
      job.id ∉ s.dispatches.map jobId := by
  obtain ⟨job, hj, job', -, id, hd, hclaims⟩ := h.source c hc
  cases hclaims with
  | claimed scheduledFor next hnext hrun hout => exact ⟨job, hj, hd, rfl, hnext, hout⟩

theorem ClaimOf.drawn_mem (hc : c ∈ claimed) : ∃ n, c.1.id = draw n := by
  have hmem : c.1.id ∈ claimed.map fun c => c.1.id := mem_map_of_mem hc
  rw [h.drawn] at hmem
  obtain ⟨n, -, hn⟩ := mem_map.1 hmem
  exact ⟨n, hn.symm⟩

theorem ClaimOf.named
    (hdraw : ∀ m n, draw m = draw n → m = n) {c' : Claimed} (hc : c ∈ claimed) (hc' : c' ∈ claimed)
    (hid : c.1.id = c'.1.id) : c = c' := by
  refine inj_on_of_nodup_map (f := fun c => c.1.id) ?_ hc hc' hid
  rw [h.drawn]
  exact List.Nodup.map (fun m n => hdraw m n) nodup_range'

theorem ClaimOf.single (hu : UniqueIds s.jobs)
    (hs : (s.dispatches.map jobId).Nodup) :
    (s'.dispatches.map jobId).Nodup := by
  have hclaimed : (claimed.map Prod.fst).map jobId =
      claimed.map fun c => c.1.jobId := map_map
  rw [h.dispatches, map_append, nodup_append', hclaimed]
  refine ⟨hs, hu.sublist h.once, ?_⟩
  intro jobId hold hnew
  obtain ⟨c, hc, rfl⟩ := mem_map.1 hnew
  obtain ⟨job, -, -, hid, -, hout⟩ := h.claim hc
  rw [hid] at hold
  exact hout hold

end

section

variable {host : Host} {now : Instant} {op : Op} {w : StoreWorld}

variable {dueAt : Instant}

theorem claimDue_files {ids : String → Nat → String} (hp : Placed w) (path : String) :
    ((claimDue host dueAt now ids w).2.files path = w.files path) ∨
      ∃ claimed, ClaimOf host.zone dueAt now (ids path) (w.files path)
        ((claimDue host dueAt now ids w).2.files path) claimed := by
  obtain h | ⟨-, r, hr, h⟩ := @mutatePaths_once _
    (fun path => claimDueInState host.zone dueAt now (ids path)) w.mode.paths hp.paths w path
  · exact .inl h
  · refine .inr ?_
    obtain ⟨claimed, hc⟩ := claimDueInState_claimOf hr
    rw [← h] at hc
    exact ⟨claimed, hc⟩

theorem claimDue_ids {ids : String → Nat → String} (hp : Placed w) (path : String) :
    Cron.ids ((claimDue host dueAt now ids w).2.files path).jobs = Cron.ids (w.files path).jobs := by
  obtain h | ⟨claimed, hc⟩ := @claimDue_files host now w dueAt ids hp path
  · rw [h]
  · exact hc.ids

variable {path : String}

/-- A dispatch after a claim was there, or is that of a due job, with an id drawn for its file. -/
theorem mem_claimDue_dispatches {ids : String → Nat → String} (hp : Placed w)
    {d : AgentCronDispatchRecord}
    (hd : d ∈ ((claimDue host dueAt now ids w).2.files path).dispatches) :
    d ∈ (w.files path).dispatches ∨
      (∃ n, d.id = ids path n) ∧ d.jobId ∈ Cron.ids (w.files path).jobs := by
  obtain h | ⟨claimed, hc⟩ := @claimDue_files host now w dueAt ids hp path
  · rw [h] at hd
    exact .inl hd
  · rw [hc.dispatches] at hd
    refine (mem_append.1 hd).imp_right fun hn => ?_
    obtain ⟨c, hmem, rfl⟩ := mem_map.1 hn
    obtain ⟨job, hj, -, hid, -⟩ := hc.claim hmem
    rw [hid]
    exact ⟨hc.drawn_mem hmem, mem_ids_of_mem hj⟩

theorem claimDue_placed {ids : String → Nat → String} (hp : Placed w)
    (hf : Fresh (.claimDue dueAt ids) w) : Placed (claimDue host dueAt now ids w).2 := by
  obtain ⟨hnew, hinj⟩ := hf.dispatch dueAt ids rfl
  refine ⟨?_, ?_, ?_, ?_, ?_, ?_⟩
  · rw [claimDue, mutateStates, mutatePaths_mode]
    exact hp.paths
  · intro path
    show (Cron.ids _).Nodup
    rw [claimDue_ids hp]
    exact hp.unique path
  · intro p q id hidp hidq
    rw [claimDue_ids hp] at hidp hidq
    exact hp.apart p q id hidp hidq
  · intro path d hd
    rw [claimDue_ids hp]
    obtain hold | ⟨-, hid⟩ := mem_claimDue_dispatches hp hd
    · exact hp.dispatched path d hold
    · exact hid
  · intro path
    obtain h | ⟨claimed, hc⟩ := @claimDue_files host now w dueAt ids hp path
    · rw [h]
      exact hp.single path
    · exact hc.single (hp.unique path) (hp.single path)
  · intro p q d hd d' hd' hid
    obtain hold | ⟨⟨n, hn⟩, -⟩ := mem_claimDue_dispatches hp hd
    · obtain hold' | ⟨⟨n', hn'⟩, -⟩ := mem_claimDue_dispatches hp hd'
      · exact hp.named p q d hold d' hold' hid
      · exact absurd (hn'.symm.trans hid.symm) (hnew p d hold q n')
    · obtain hold' | ⟨⟨n', hn'⟩, -⟩ := mem_claimDue_dispatches hp hd'
      · exact absurd (hn.symm.trans hid) (hnew q d' hold' p n)
      · -- both are new: they are of one file, and drawn together
        obtain ⟨rfl, -⟩ := hinj p n q n' (hn.symm.trans (hid.trans hn'))
        obtain h | ⟨claimed, hc⟩ := @claimDue_files host now w dueAt ids hp p
        · rw [h] at hd hd'
          exact hp.named p p d hd d' hd' hid
        · rw [hc.dispatches] at hd hd'
          obtain hd | hd := mem_append.1 hd
          · exact absurd hn.symm (hnew p d hd p n)
          · obtain hd' | hd' := mem_append.1 hd'
            · exact absurd hn'.symm (hnew p d' hd' p n')
            · obtain ⟨c, hmem, rfl⟩ := mem_map.1 hd
              obtain ⟨c', hmem', rfl⟩ := mem_map.1 hd'
              rw [hc.named (fun a b h => (hinj p a p b h).2) hmem hmem' hid]

/-! ## Results, recovery and registration -/

theorem EndsSome.ids {zone : Zone} {skips : AgentCronDispatchRecord → Prop} {s s' : CronJobsState}
    (h : EndsSome zone now skips s s') :
    ids s'.jobs = ids s.jobs := by
  obtain rfl | ⟨_, _, _, hends, -⟩ := h
  · rfl
  · exact ids_forall₂ (fun _ _ hf => hf.id) hends.jobs

theorem EndsSome.dispatches {zone : Zone} {skips : AgentCronDispatchRecord → Prop} {s s' : CronJobsState}
    (h : EndsSome zone now skips s s') :
    s'.dispatches.Sublist s.dispatches := by
  obtain rfl | ⟨_, _, _, hends, -⟩ := h
  · exact List.Sublist.refl _
  · rw [hends.dispatches]
    exact filter_sublist

variable {w' : StoreWorld}

theorem Settles.files (h : Settles host now op w w') (path : String) :
    ids (w'.files path).jobs = ids (w.files path).jobs ∧
      (w'.files path).dispatches.Sublist (w.files path).dispatches := by
  obtain ⟨mutator, paths, -, hm, rfl⟩ := h
  refine mutatePaths_files
    (P := fun p s => ids s.jobs = ids (w.files p).jobs ∧ s.dispatches.Sublist (w.files p).dispatches)
    ?_ (fun p => ⟨rfl, List.Sublist.refl _⟩) path
  intro p _ s r hr hs
  have hends := hm s r hr
  exact ⟨hends.ids.trans hs.1, hends.dispatches.trans hs.2⟩

theorem Settles.mode (h : Settles host now op w w') : w'.mode = w.mode := by
  obtain ⟨mutator, paths, -, -, rfl⟩ := h
  exact mutatePaths_mode _ paths w

theorem Settles.placed (h : Settles host now op w w') (hp : Placed w) : Placed w' := by
  refine ⟨?_, ?_, ?_, ?_, ?_, ?_⟩
  · rw [h.mode]
    exact hp.paths
  · intro path
    show (ids _).Nodup
    rw [(h.files path).1]
    exact hp.unique path
  · intro p q id hidp hidq
    rw [(h.files p).1] at hidp
    rw [(h.files q).1] at hidq
    exact hp.apart p q id hidp hidq
  · intro path d hd
    rw [(h.files path).1]
    exact hp.dispatched path d ((h.files path).2.subset hd)
  · intro path
    exact (hp.single path).sublist ((h.files path).2.map _)
  · intro p q d hd d' hd'
    exact hp.named p q d ((h.files p).2.subset hd) d' ((h.files q).2.subset hd')

theorem registerSessionArtifact_files (sessionId path : String) (w : StoreWorld) :
    (registerSessionArtifact sessionId path w).2.files = w.files := by
  unfold registerSessionArtifact
  split
  · rfl
  · split <;> rfl

theorem Placed.of_files (hp : Placed w) (hfiles : w'.files = w.files)
    (hpaths : w'.mode.paths.Nodup) : Placed w' := by
  refine ⟨hpaths, ?_, ?_, ?_, ?_, ?_⟩ <;> rw [hfiles]
  · exact hp.unique
  · exact hp.apart
  · exact hp.dispatched
  · exact hp.single
  · exact hp.named

theorem registerSessionArtifact_paths {sessionId : String} (hn : w.mode.paths.Nodup)
    (h : ∀ files, w.mode = .sessionArtifacts files → ∀ f ∈ files.entries, f.2 = path → f.1 = sessionId) :
    (registerSessionArtifact sessionId path w).2.mode.paths.Nodup := by
  unfold registerSessionArtifact
  cases hm : w.mode with
  | file p =>
    rw [hm] at hn
    simpa only [hm] using hn
  | sessionArtifacts files =>
    rw [hm] at hn
    simp only []
    split
    · simpa only [hm] using hn
    · rename_i hnot
      refine nodup_values_set hn (fun hmem => hnot ?_) sessionId
      obtain ⟨f, hfile, he⟩ := mem_map.1 hmem
      have hs := h files hm f hfile he
      rw [← hs, ← he]
      exact get?_of_mem_entries hfile

theorem registerSessionArtifact_placed {sessionId : String} (hp : Placed w)
    (hf : Fresh (.registerSessionArtifact sessionId path) w) :
    Placed (registerSessionArtifact sessionId path w).2 :=
  hp.of_files (registerSessionArtifact_files sessionId path w)
    (registerSessionArtifact_paths hp.paths (hf.path sessionId path rfl))

/-- Every operation that draws new ids keeps jobs and dispatches in their places. -/
theorem runs_placed (hp : Placed w) (hf : Fresh op w) (hr : Runs host now op w w') :
    Placed w' := by
  cases hr with
  | plan plan he => exact (runPlan_follows he hp hf).1
  | claim dueAt ids hop =>
    subst hop
    exact claimDue_placed hp hf
  | settle _ hs => exact hs.placed hp
  | register sessionId path hop =>
    subst hop
    exact registerSessionArtifact_placed hp hf

end

end Cron
end RePrime
