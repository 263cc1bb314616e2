import RePrime.Session.Attribution

/-!
# RePrime.Session.Steps

What one operation can do, said once.

* `Op.plainAppend?`: most operations are one call of `_appendEntry`, in the world they prepare for
  it. `Op.run_plain` is that equation, `Op.prepared` what the preparation leaves alone.
* `PersistStep`, `FlushStep`: every way a `_persist` or a `flushNow` can end.
* `entries_run`: the entries after an operation.
-/

namespace RePrime
namespace Session

/-! ## The plain route -/

/-- The body of the entry an operation appends with no rollback, and the world it appends in. -/
def Op.plainAppend? : Op → World → Option (EntryBody × World)
  | .appendMessage m, w => some (.message m, w)
  | .appendThinkingLevelChange l, w => some (.thinkingLevelChange l, w)
  | .appendServiceTierChange t, w => some (.serviceTierChange t, w)
  | .appendModelChange p m, w => some (.modelChange p m, w)
  | .appendCompaction c, w => some (.compaction c, w)
  | .appendCustomEntry t d, w => some (.custom t d, w)
  | .appendChildUsageAttribution t c a o, w =>
    match w.sm.byId.get? t with
    | some target =>
      if target.assistant?.isSome then
        some (.childUsageAttributed
          { targetId := t, childUsage := cloneUsage c, aggregateUsage := cloneUsage a, origin := o },
          { w with sm := w.sm.setUsage target (cloneUsage a) })
      else none
    | none => none
  | .appendSessionInfo n, w => some (.sessionInfo (some (Text.trim n)), w)
  | .appendSessionState s, w => some (.sessionState s, w)
  | .appendAgentStatus s, w => some (.agentStatus s, w)
  | .appendGitState g, w => some (.gitState g, w)
  | .appendCustomMessageEntry c, w => some (.customMessage c, w)
  | .appendLabelChange t l, w => if w.sm.byId.has t = false then none else some (.label t l, w)
  | .branchWithSummary b s d h u, w =>
    if b.any (fun id => !w.sm.byId.has id) then none
    else some (.branchSummary
      { fromId := b.getD "root", summary := s, details := d, fromHook := h, usage := u },
      { w with sm := { w.sm with leafId := b } })
  | _, _ => none

open Op

/-- What is left to do in memory when the append has succeeded. -/
def Op.afterAppend : Op → Env → SessionManager → SessionManager
  | .appendLabelChange t l, env, sm => sm.applyLabel t l env.now
  | _, _, sm => sm

def Op.finish (op : Op) (env : Env) : Result String → Result Unit
  | (.ok _, w) => (.ok (), { w with sm := op.afterAppend env w.sm })
  | (.error e, w) => (.error e, w)

variable {op : Op} {env : Env}

theorem void_eq_finish (h : ∀ sm, op.afterAppend env sm = sm) (r : Result String) : r.void = op.finish env r := by
  obtain ⟨v, w⟩ := r
  cases v with
  | error e => rfl
  | ok id => simp [Result.void, finish, h, Except.map]

variable {w w₁ : World} {body : EntryBody}

theorem Op.run_plain (h : op.plainAppend? w = some (body, w₁)) :
    op.run env w = op.finish env (appendBody body env w₁) := by
  cases op with
  | appendChildUsageAttribution t c a o =>
    simp only [plainAppend?] at h
    split at h
    · rename_i target ht
      split at h
      · rename_i ha
        cases h
        simp only [run, Session.appendChildUsageAttribution, ht, ha, if_true]
        exact void_eq_finish (fun _ => rfl) _
      · cases h
    · cases h
  | appendLabelChange t l =>
    simp only [plainAppend?] at h
    split at h
    · cases h
    · rename_i ht
      cases h
      simp only [run, Session.appendLabelChange, if_neg ht]
      cases hr : appendBody (.label t l) env w with
      | mk v w' => cases v <;> rfl
  | branchWithSummary b s d f u =>
    simp only [plainAppend?] at h
    split at h
    · cases h
    · rename_i hb
      cases h
      simp only [run, Session.branchWithSummary, if_neg hb]
      exact void_eq_finish (fun _ => rfl) _
  | branch | resetLeaf | flushNow | materializeSessionFile | newSession | appendCustomEntryWithRollback
  | appendCustomMessageEntryWithRollback => cases h
  | _ =>
    cases h
    exact void_eq_finish (fun _ => rfl) _

/-- The world an operation has prepared for its append. -/
structure Prepared (env : Env) (w w₁ : World) (e : SessionEntry) : Prop where
  files : w₁.files = w.files
  outcomes : w₁.outcomes = w.outcomes
  persist : w₁.sm.persist = w.sm.persist
  sessionFile : w₁.sm.sessionFile = w.sm.sessionFile
  flushed : w₁.sm.flushed = w.sm.flushed
  labels : w₁.sm.labelsById = w.sm.labelsById ∧ w₁.sm.labelTimestampsById = w.sm.labelTimestampsById
  header : w₁.sm.getHeader = w.sm.getHeader
  entries : w₁.sm.entries = w.sm.entries.map (attributedBy e.attribution?.toList)
  wellFormed : WellFormed w₁.sm
  fresh : env.Fresh w₁.sm
  target : ∀ a, e.attribution? = some a → a.targetId ∈ w.sm.entries.map SessionEntry.id

theorem Prepared.of_leaf {e : SessionEntry} {leaf : Option String}
    (h : WellFormed { w.sm with leafId := leaf }) (hf : env.Fresh w.sm) (he : e.attribution? = none) :
    Prepared env w { w with sm := { w.sm with leafId := leaf } } e := by
  refine ⟨rfl, rfl, rfl, rfl, rfl, ⟨rfl, rfl⟩, rfl, ?_, h, hf, fun a ha => ?_⟩
  · rw [he]
    exact (List.map_id _).symm
  · rw [he] at ha
    cases ha

theorem fresh_setUsage {sm : SessionManager} (h : WellFormed sm) (hf : env.Fresh sm)
    {target : SessionEntry} (ht : target ∈ sm.entries) (u : Usage) : env.Fresh (sm.setUsage target u) := by
  have hk : (sm.setUsage target u).byId.has (env.uuid 0 100).text = sm.byId.has (env.uuid 0 100).text := by
    rw [(h.setUsage ht u).index, entries_setUsage, h.index, Bool.eq_iff_iff, has_indexById, has_indexById]
    simp [List.map_map, Function.comp_def]
  rw [Env.Fresh, hk]
  exact hf

theorem getHeader_setUsage (sm : SessionManager) (target : SessionEntry) (u : Usage) :
    (sm.setUsage target u).getHeader = sm.getHeader := by
  simp only [SessionManager.getHeader, SessionManager.setUsage]
  induction sm.fileEntries with
  | nil => rfl
  | cons f fs ih =>
    cases f with
    | session h => rfl
    | entry e => exact ih

theorem Op.prepared (h : WellFormed w.sm) (hf : env.Fresh w.sm) (hp : op.plainAppend? w = some (body, w₁)) :
    Prepared env w w₁ (w₁.sm.newEntry body env) := by
  cases op with
  | appendChildUsageAttribution t c a o =>
    simp only [plainAppend?] at hp
    split at hp
    · rename_i target ht
      split at hp
      · cases hp
        rw [h.index] at ht
        obtain ⟨hmem, hid⟩ := mem_of_get?_indexById ht
        refine ⟨rfl, rfl, rfl, rfl, rfl, ⟨rfl, rfl⟩, getHeader_setUsage _ _ _, ?_, h.setUsage hmem _,
          fresh_setUsage h hf hmem _, fun b hb => ?_⟩
        · rw [entries_setUsage, hid]
          rfl
        · cases hb
          exact hid ▸ List.mem_map_of_mem hmem
      · cases hp
    · cases hp
  | appendLabelChange t l =>
    simp only [plainAppend?] at hp
    split at hp
    · cases hp
    · cases hp
      exact .of_leaf h hf rfl
  | branchWithSummary b s d f u =>
    simp only [plainAppend?] at hp
    split at hp
    · cases hp
    · rename_i hb
      cases hp
      refine .of_leaf (h.setLeaf fun k hk => ?_) hf rfl
      rw [← has_indexById, ← h.index]
      simpa [hk] using hb
  | branch | resetLeaf | flushNow | materializeSessionFile | newSession | appendCustomEntryWithRollback
  | appendCustomMessageEntryWithRollback => cases hp
  | _ =>
    cases hp
    exact .of_leaf h hf rfl

/-! ## The ways a write can end -/

/-- `entry` is the last one in memory already. -/
inductive PersistStep (entry : SessionEntry) (w : World) : Result Unit → Prop where
  | skipped (h : w.sm.persist = false ∨ w.sm.sessionFile = none) : PersistStep entry w (.ok (), w)
  | deferred (h : w.sm.hasAssistantEntry = false) : PersistStep entry w (.ok (), w.setFlushed false)
  | rewritten (path : String) (hp : w.sm.sessionFile = some path) :
      PersistStep entry w (.ok (), (w.put path (contentOf w.sm.fileEntries)).setFlushed true)
  | rewriteFailed (path : String) (hp : w.sm.sessionFile = some path)
      (hn : w.sm.flushed = false ∨ w.files path = none) (ho : w.nextOutcome ≠ .ok) :
      PersistStep entry w (.error "write failed", { w with outcomes := w.outcomes.tail })
  | appended (path : String) (old : Bytes) (hp : w.sm.sessionFile = some path)
      (hf : w.sm.flushed = true) (hold : w.files path = some old) :
      PersistStep entry w (.ok (), w.put path (old ++ (lineOf (FileEntry.entry entry) ++ [10])))
  | appendFailed (path : String) (old : Bytes) (n : Nat) (hpersist : w.sm.persist = true)
      (hp : w.sm.sessionFile = some path) (hf : w.sm.flushed = true) (hold : w.files path = some old)
      (hr : w.sm.hasAssistantEntry = true ∨ shouldPersistWithoutAssistant entry = true)
      (ho : w.nextOutcome = .fail n) :
      PersistStep entry w
        (.error "write failed", w.put path (old ++ (lineOf (FileEntry.entry entry) ++ [10]).take n))

theorem rewriteAndFlush_eq {path : String} (hpersist : w.sm.persist = true) (hp : w.sm.sessionFile = some path) :
    rewriteAndFlush w = match w.nextOutcome with
      | .ok => (.ok (), (w.put path (contentOf w.sm.fileEntries)).setFlushed true)
      | .fail _ => (.error "write failed", { w with outcomes := w.outcomes.tail }) := by
  simp only [rewriteAndFlush, rewriteFile, hpersist, hp, World.writeFileAtomic]
  cases w.nextOutcome <;> rfl

theorem persist_step (entry : SessionEntry) (w : World) : PersistStep entry w (persist entry w) := by
  unfold persist
  split
  · rename_i h
    exact .skipped (.inl h)
  rename_i hpersist
  rw [Bool.not_eq_false] at hpersist
  split
  · rename_i h
    exact .skipped (.inr h)
  rename_i path hp
  split
  · rename_i h
    exact .deferred h.1
  rename_i hd
  split
  · rename_i hr
    rw [rewriteAndFlush_eq hpersist hp]
    cases ho : w.nextOutcome with
    | ok => exact .rewritten path hp
    | fail n =>
      refine .rewriteFailed path hp ?_ (by rw [ho]; exact Outcome.noConfusion)
      simpa [World.existsSync] using hr
  · rename_i hr
    rw [not_or, Bool.not_eq_false, World.existsSync, Bool.not_eq_false, Option.isSome_iff_exists] at hr
    obtain ⟨hf, old, hold⟩ := hr
    simp only [World.appendFile, hold, Option.getD_some]
    cases ho : w.nextOutcome with
    | ok => exact .appended path old hp hf hold
    | fail n =>
      refine .appendFailed path old n hpersist hp hf hold ?_ ho
      rw [not_and_or, Bool.not_eq_false, Bool.not_eq_false] at hd
      exact hd

inductive FlushStep (w : World) : Result Unit → Prop where
  | skipped (h : w.sm.persist = false ∨ w.sm.sessionFile = none) : FlushStep w (.ok (), w)
  | kept (path : String) (hp : w.sm.sessionFile = some path) (hf : w.sm.flushed = true)
      (he : w.files path ≠ none) : FlushStep w (.ok (), w)
  | rewritten (path : String) (hp : w.sm.sessionFile = some path) :
      FlushStep w (.ok (), (w.put path (contentOf w.sm.fileEntries)).setFlushed true)
  | failed (path : String) (hp : w.sm.sessionFile = some path)
      (hn : w.sm.flushed = false ∨ w.files path = none) (ho : w.nextOutcome ≠ .ok) :
      FlushStep w (.error "write failed", { w with outcomes := w.outcomes.tail })

theorem flushNow_step (w : World) : FlushStep w (flushNow w) := by
  unfold flushNow
  split
  · rename_i h
    exact .skipped (.inl h)
  rename_i hpersist
  rw [Bool.not_eq_false] at hpersist
  split
  · rename_i h
    exact .skipped (.inr h)
  rename_i path hp
  split
  · rename_i h
    refine .kept path hp h.1 fun hn => ?_
    simp [World.existsSync, hn] at h
  · rename_i hr
    rw [rewriteAndFlush_eq hpersist hp]
    cases ho : w.nextOutcome with
    | ok => exact .rewritten path hp
    | fail n =>
      refine .failed path hp ?_ (by rw [ho]; exact Outcome.noConfusion)
      rw [not_and_or] at hr
      simpa [World.existsSync] using hr

/-! ## Appends with rollback -/

def Op.rollbackBody? : Op → Option EntryBody
  | .appendCustomEntryWithRollback t d => some (.custom t d)
  | .appendCustomMessageEntryWithRollback c => some (.customMessage c)
  | _ => none

theorem Op.run_rollback (h : op.rollbackBody? = some body) (env : Env)
    (w : World) : op.run env w = (appendEntryWithRollback (appendBody body env) w).void := by
  cases op <;> cases h <;> rfl

theorem Op.attribution?_rollback (h : op.rollbackBody? = some body)
    (env : Env) (sm : SessionManager) : (sm.newEntry body env).attribution? = none := by
  cases op <;> cases h <;> rfl

/-! ## The memory after an operation -/

theorem entries_of_same {sm sm' : SessionManager} (h : SameMemory sm sm') : sm'.entries = sm.entries := by
  obtain ⟨b, rfl⟩ := h
  rfl

theorem entries_finish (op : Op) (env : Env) (r : Result String) :
    (op.finish env r).2.sm.entries = r.2.sm.entries := by
  obtain ⟨v, w⟩ := r
  cases v with
  | error e => rfl
  | ok id => cases op <;> rfl

theorem Prepared.entries_push (h : Prepared env w w₁ (w₁.sm.newEntry body env)) :
    (w₁.sm.push (w₁.sm.newEntry body env)).entries = recorded w.sm.entries (w₁.sm.newEntry body env) := by
  rw [Session.entries_push, h.entries, recorded]

theorem Prepared.fresh_id (h : Prepared env w w₁ (w₁.sm.newEntry body env)) :
    (w₁.sm.newEntry body env).id ∉ w.sm.entries.map SessionEntry.id := by
  have hfresh := newEntry_fresh h.fresh body
  rw [h.wellFormed.index, has_indexById_eq_false, h.entries, map_id_attributedBy] at hfresh
  exact hfresh

/-- An entry an operation may record: its id is new, and what it attributes has a target. -/
structure Recordable (es : List SessionEntry) (e : SessionEntry) : Prop where
  fresh : e.id ∉ es.map SessionEntry.id
  target : ∀ a, e.attribution? = some a → a.targetId ∈ es.map SessionEntry.id

theorem Prepared.recordable (h : Prepared env w w₁ (w₁.sm.newEntry body env)) :
    Recordable w.sm.entries (w₁.sm.newEntry body env) := ⟨h.fresh_id, h.target⟩

theorem Op.run_other (hp : op.plainAppend? w = none) (hb : op.rollbackBody? = none) (env : Env) :
    (∃ leaf, (op.run env w).2 = { w with sm := { w.sm with leafId := leaf } }) ∨ op = .flushNow ∨
      (∃ dir, op = .materializeSessionFile dir) ∨ ∃ options, op = .newSession options := by
  cases op with
  | branch id =>
    simp only [run, Session.branch]
    split
    · exact .inl ⟨some id, rfl⟩
    · exact .inl ⟨w.sm.leafId, rfl⟩
  | resetLeaf => exact .inl ⟨none, rfl⟩
  | flushNow => exact .inr (.inl rfl)
  | materializeSessionFile dir => exact .inr (.inr (.inl ⟨dir, rfl⟩))
  | newSession options => exact .inr (.inr (.inr ⟨options, rfl⟩))
  | appendChildUsageAttribution t c a o =>
    refine .inl ⟨w.sm.leafId, ?_⟩
    cases ht : w.sm.byId.get? t with
    | none =>
      simp only [run, Session.appendChildUsageAttribution, ht]
      rfl
    | some target =>
      by_cases ha : target.assistant?.isSome = true
      · simp only [plainAppend?, ht, if_pos ha] at hp
        cases hp
      · simp only [run, Session.appendChildUsageAttribution, ht, if_neg ha]
        rfl
  | appendLabelChange t l =>
    refine .inl ⟨w.sm.leafId, ?_⟩
    simp only [plainAppend?] at hp
    split at hp
    · rename_i ht
      simp only [run, Session.appendLabelChange, ht, if_true]
      rfl
    · cases hp
  | branchWithSummary b s d f u =>
    refine .inl ⟨w.sm.leafId, ?_⟩
    simp only [plainAppend?] at hp
    split at hp
    · rename_i hbad
      simp only [run, Session.branchWithSummary, hbad, if_true]
      rfl
    · cases hp
  | appendCustomEntryWithRollback | appendCustomMessageEntryWithRollback => cases hb
  | _ => cases hp

/-- **The entries after an operation**: one more, as they were, or none. -/
theorem entries_run (op : Op) (h : WellFormed w.sm) (hf : env.Fresh w.sm) :
    (∃ e, Recordable w.sm.entries e ∧ (op.run env w).2.sm.entries = recorded w.sm.entries e) ∨
      (op.run env w).2.sm.entries = w.sm.entries ∨ (op.run env w).2.sm.entries = [] := by
  cases hp : op.plainAppend? w with
  | some p =>
    obtain ⟨body, w₁⟩ := p
    have hpre := prepared h hf hp
    refine .inl ⟨_, hpre.recordable, ?_⟩
    rw [run_plain hp, entries_finish, entries_of_same (appendBody_same w₁ body env), hpre.entries_push]
  | none =>
    cases hb : op.rollbackBody? with
    | some body =>
      have hnone := attribution?_rollback hb env w.sm
      rw [run_rollback hb]
      cases appendEntryWithRollback_same h hf body with
      | inl hs =>
        refine .inl ⟨w.sm.newEntry body env, ⟨?_, fun a ha => ?_⟩, (entries_of_same hs).trans ?_⟩
        · have hfresh := newEntry_fresh hf body
          rwa [h.index, has_indexById_eq_false] at hfresh
        · rw [hnone] at ha
          cases ha
        · rw [entries_push, recorded_of_none hnone]
      | inr hs => exact .inr (.inl (entries_of_same hs))
    | none =>
      refine .inr ?_
      rcases run_other hp hb env with ⟨leaf, hl⟩ | rfl | ⟨dir, rfl⟩ | ⟨options, rfl⟩
      · rw [hl]
        exact .inl rfl
      · exact .inl (entries_of_same (flushNow_same w))
      · refine .inl ?_
        show (materializeSessionFile dir env w).2.sm.entries = _
        rcases materialize_cases dir env w with hm | ⟨id, path, _, hm⟩
        · rw [hm]
        · rw [hm, entries_of_same (rewriteAndFlush_same _)]
          exact entries_materialized _ _ _ _ _
      · simp only [run]
        rcases newSession_cases options env w with ⟨e, hn⟩ | ⟨id, file, _, hn⟩
        · rw [hn]
          exact .inl rfl
        · rw [hn]
          exact .inr rfl

theorem settled_run (op : Op) (h : WellFormed w.sm) (hf : env.Fresh w.sm)
    (hs : Settled w.sm.entries) : Settled (op.run env w).2.sm.entries := by
  rcases entries_run op h hf with ⟨e, hr, he⟩ | he | he
  · rw [he]
    exact hs.recorded hr.fresh hr.target
  · rw [he]
    exact hs
  · rw [he]
    exact settled_nil

theorem entries_create {cwd dir : String} {persist : Bool} {files : String → Option Bytes} :
    (create cwd dir persist env files).2.sm.entries = [] := by
  unfold create
  cases newSession_cases { id := none, parentSession := none } env
      { sm := .blank cwd dir persist, files, outcomes := [] } with
  | inl hn => obtain ⟨e, hn⟩ := hn; rw [hn]; rfl
  | inr hn => obtain ⟨id, file, _, hn⟩ := hn; rw [hn]; rfl

/-- In every run the memory is what its own attributions make of it. -/
theorem ReachableBy.settled {A : Op → Env → World → Prop} (h : ReachableBy A w) : Settled w.sm.entries := by
  induction h with
  | create cwd dir persist env files h => rw [entries_create]; exact settled_nil
  | run op env outcomes hw hf _ ih => exact settled_run op hw.wellFormed hf ih
  | unlink path _ ih => exact ih

end Session
end RePrime
