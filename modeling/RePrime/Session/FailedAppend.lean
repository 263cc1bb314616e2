import RePrime.Session.Torn

/-!
# RePrime.Session.FailedAppend

What an append with rollback that fails leaves behind. The entry is in memory before it is written, and what was
written of it may be in the file.

* `Restored`: the memory is as it was, and either the file loads to it or the manager knows that it is behind.
* `appendEntryWithRollback_failed`: an append with rollback that fails restores.
* `next_persist_waits`: before the first answer the next persist need not write at all.
-/

namespace RePrime
namespace Session

/-- A persist of the next entry writes the whole file, or nothing while it waits for the first answer. -/
def RewritesNext (w : World) : Prop :=
  ∀ (entry : SessionEntry) (outcomes : List Outcome),
    let pushed : World := { w.withOutcomes outcomes with sm := w.sm.push entry }
    persist entry pushed =
      if pushed.sm.hasAssistantEntry = false ∧ shouldPersistWithoutAssistant entry = false then
        (.ok (), pushed.setFlushed false)
      else rewriteAndFlush pushed

structure Restored (sm : SessionManager) (w : World) : Prop where
  fileEntries : w.sm.fileEntries = sm.fileEntries
  byId : w.sm.byId = sm.byId
  leafId : w.sm.leafId = sm.leafId
  hasAssistantEntry : w.sm.hasAssistantEntry = sm.hasAssistantEntry
  file : (∃ path, w.sm.sessionFile = some path ∧ loadEntriesFromFile w.files path = sm.fileEntries) ∨ RewritesNext w

/-! ## What can fail -/

theorem persist_skipped {w : World} (h : w.sm.persist = false ∨ w.sm.sessionFile = none) (entry : SessionEntry) :
    persist entry w = (.ok (), w) := by
  unfold persist
  split
  · rfl
  · rename_i hp
    rw [h.resolve_left hp]

theorem flushNow_skipped {w : World} (h : w.sm.persist = false ∨ w.sm.sessionFile = none) :
    flushNow w = (.ok (), w) := by
  unfold flushNow
  split
  · rfl
  · rename_i hp
    rw [h.resolve_left hp]

theorem persisted_of_failed {w w' : World} {env : Env} {body : EntryBody} {e : String}
    (h : appendAndFlush (appendBody body env) w = (.error e, w')) :
    w.sm.persist = true ∧ ∃ path, w.sm.sessionFile = some path := by
  have hwrites : ¬ (w.sm.persist = false ∨ w.sm.sessionFile = none) := by
    intro hskip
    have hpersist := @persist_skipped { w with sm := w.sm.push (w.sm.newEntry body env) } hskip (w.sm.newEntry body env)
    have hflush := @flushNow_skipped { w with sm := w.sm.push (w.sm.newEntry body env) } hskip
    have happend : appendBody body env w =
        (.ok (w.sm.newEntry body env).id, { w with sm := w.sm.push (w.sm.newEntry body env) }) := by
      simp only [appendBody, appendEntry, hpersist]
    rw [appendAndFlush, happend] at h
    simp only [hflush] at h
    cases h
  rw [not_or, Bool.not_eq_false] at hwrites
  exact ⟨hwrites.1, Option.ne_none_iff_exists'.mp hwrites.2⟩

theorem rewritesNext_of_not_flushed {w : World} (hpersist : w.sm.persist = true) {path : String}
    (hpath : w.sm.sessionFile = some path) (hflushed : w.sm.flushed = false) : RewritesNext w := by
  intro entry outcomes pushed
  have hp : ¬ pushed.sm.persist = false := by
    show ¬ w.sm.persist = false
    rw [hpersist]
    decide
  have hfile : pushed.sm.sessionFile = some path := hpath
  have hbehind : pushed.sm.flushed = false ∨ pushed.existsSync path = false := .inl hflushed
  simp only [persist, if_neg hp, hfile, if_pos hbehind]

/-! ## The restored state -/

/-- The `catch` block flushes a memory that is behind: the file is its content, or it stays behind. -/
theorem flushNow_restores {w : World} (hw : WellFormed w.sm) (hs : Settled w.sm.entries)
    (hpersist : w.sm.persist = true) {path : String} (hpath : w.sm.sessionFile = some path)
    (hflushed : w.sm.flushed = false) :
    (∃ w', flushNow w = (.ok (), w') ∧ loadEntriesFromFile w'.files path = w.sm.fileEntries) ∨
      ∃ e w', flushNow w = (.error e, w') := by
  have hstep := flushNow_step w
  generalize hr : flushNow w = r at hstep
  cases hstep with
  | skipped hskip =>
    rcases hskip with hskip | hskip
    · exact absurd (hpersist.symm.trans hskip) (by decide)
    · exact absurd (hpath.symm.trans hskip) (by simp)
  | kept p hp hf he => exact absurd (hflushed.symm.trans hf) (by decide)
  | rewritten p hp =>
    obtain rfl : path = p := Option.some.inj (hpath.symm.trans hp)
    exact .inl ⟨_, rfl, (holds_rewrite hw hs).load hw (put_files _ _ _)⟩
  | failed p hp hn ho => exact .inr ⟨_, _, rfl⟩

/-- **An append with rollback that fails** leaves the memory as it was, and a file that loads to it or is written anew
by the next persist that writes. -/
theorem appendEntryWithRollback_failed {w w' : World} (hw : WellFormed w.sm) (hs : Settled w.sm.entries) {env : Env}
    (hf : env.Fresh w.sm) {body : EntryBody} {e : String}
    (h : appendEntryWithRollback (appendBody body env) w = (.error e, w')) : Restored w.sm w' := by
  unfold appendEntryWithRollback at h
  split at h
  · cases h
  rename_i e₁ w₁ hfailed
  obtain ⟨hpersist, path, hpath⟩ := persisted_of_failed hfailed
  have hmemory := appendAndFlush_memory hfailed
  have hsame := undoAppend_same hw hf hmemory e₁
  rw [h] at hsame
  obtain ⟨b, hb⟩ := hsame
  refine ⟨by rw [hb], by rw [hb], by rw [hb], by rw [hb], ?_⟩
  have hpath' : w'.sm.sessionFile = some path := by rw [hb]; exact hpath
  have hpersist' : w'.sm.persist = true := by rw [hb]; exact hpersist
  rw [undoAppend_eq hw hf hmemory] at h
  have hbehind : WellFormed { w.sm with flushed := false } := hw.of_same ⟨false, rfl⟩
  rcases @flushNow_restores { w₁ with sm := { w.sm with flushed := false } } hbehind hs hpersist path hpath rfl with
    ⟨w₂, hflush, hload⟩ | ⟨e₂, w₂, hflush⟩
  · rw [hflush] at h
    cases h
    exact .inl ⟨path, hpath', hload⟩
  · rw [hflush] at h
    cases h
    exact .inr (rewritesNext_of_not_flushed hpersist' hpath' rfl)

/-- The line of the entry is torn, and the rewrite that restores the file fails too. -/
theorem restored_rolledBackWorld : Restored beforeTorn.sm rolledBackWorld := by
  have hfresh : beforeTorn.sm.byId.has (Uuid.ofChar 'b').text = false := by decide
  exact @appendEntryWithRollback_failed (beforeTorn.withOutcomes [.fail 5, .fail 0]) rolledBackWorld
    reachable_beforeTorn.wellFormed reachable_beforeTorn.settled (.ofChar 'b') hfresh (.custom "note" none)
    "write failed" (Prod.ext (by rfl) (by rfl))

/-! ### Before the first answer -/

/-- The entry is not written, as there is no answer yet, and the flush and the restoring flush fail. -/
def failedEarly : Result String :=
  appendEntryWithRollback (appendBody (.custom "note" none) (.ofChar 'b'))
    (newWorld.withOutcomes [.fail 0, .fail 0])

def afterFailedEarly : Result String :=
  appendBody (.message (userMessage "next")) (.ofChar 'c') (failedEarly.2.withOutcomes [])

/-- There is no file, and the next persist makes none: it waits for the first answer. -/
theorem next_persist_waits : Reachable newWorld ∧ failedEarly.1 = .error "write failed" ∧
      failedEarly.2.sm.sessionFile = some "/sessions/0.jsonl" ∧ failedEarly.2.sm.fileEntries.length = 1 ∧
      (loadEntriesFromFile failedEarly.2.files "/sessions/0.jsonl").length = 0 ∧
      afterFailedEarly.1 = .ok "cccccccc" ∧ afterFailedEarly.2.existsSync "/sessions/0.jsonl" = false :=
  ⟨reachable_newWorld, by rfl, by rfl, by rfl, by decide, by rfl, by rfl⟩

end Session
end RePrime
