import RePrime.Session.Durable

/-!
# RePrime.Session.Torn

Failing writes. An append with rollback that fails restores its file, or marks it as behind. The
plain route does neither: after a torn append the manager still counts as flushed, and the next
append continues the torn line.

* `Op.untorn_of_ok`: an operation that returns was not torn.
* `loads_after_append`: in every run without a torn append on the plain route, an append that has
  written its entry leaves a file that loads to the memory.
* `torn_append_loses_entries`: a run with one.
-/

namespace RePrime
namespace Session

variable {w : World}

theorem persist_of_torn {e : SessionEntry} (h : TornAppend w e) : (persist e w).1 = .error "write failed" := by
  obtain ⟨path, n, hpath, hex, ho, _⟩ := h.torn
  have hd : ¬ (w.sm.hasAssistantEntry = false ∧ shouldPersistWithoutAssistant e = false) := by
    rw [not_and_or, Bool.not_eq_false, Bool.not_eq_false]
    exact h.reaches
  have hr : ¬ (w.sm.flushed = false ∨ w.existsSync path = false) := by
    rw [not_or, Bool.not_eq_false, Bool.not_eq_false]
    exact ⟨h.flushed, hex⟩
  have hp : ¬ w.sm.persist = false := by
    rw [h.persist]
    decide
  simp only [persist, if_neg hp, hpath, if_neg hd, if_neg hr, World.appendFile, ho]

variable {env : Env}

theorem appendBody_of_torn {body : EntryBody}
    (h : TornAppend { w with sm := w.sm.push (w.sm.newEntry body env) } (w.sm.newEntry body env)) :
    ∃ w', appendBody body env w = (.error "write failed", w') := by
  have herr := persist_of_torn h
  simp only [appendBody, appendEntry]
  cases hp : persist (w.sm.newEntry body env) { w with sm := w.sm.push (w.sm.newEntry body env) } with
  | mk v w' =>
    rw [hp] at herr
    cases herr
    exact ⟨w', rfl⟩

variable {w' : World}

theorem Op.untorn_of_ok {op : Op} (h : op.run env w = (.ok (), w')) : Untorn op env w := by
  rintro ⟨body, w₁, hp, ht⟩
  obtain ⟨w₂, hw₂⟩ := appendBody_of_torn ht
  rw [Op.run_plain hp, hw₂] at h
  cases h

/-! ## An append that has written -/

variable {path : String}

theorem PersistStep.exists_file {e : SessionEntry} (h : PersistStep e w (.ok (), w'))
    (hp : w'.sm.persist = true) (hf : w'.sm.flushed = true)
    (hpath : w'.sm.sessionFile = some path) : ∃ bytes, w'.files path = some bytes := by
  cases h with
  | skipped h =>
    cases h with
    | inl h => exact absurd (hp.symm.trans h) (by decide)
    | inr h => exact absurd (hpath.symm.trans h) (by simp)
  | deferred _ => cases hf
  | rewritten p hp' =>
    obtain rfl : p = path := Option.some.inj (hp'.symm.trans hpath)
    exact ⟨_, put_files _ _ _⟩
  | appended p old hp' _ _ =>
    obtain rfl : p = path := Option.some.inj (hp'.symm.trans hpath)
    exact ⟨_, put_files _ _ _⟩

theorem FlushStep.exists_file (h : FlushStep w (.ok (), w'))
    (hp : w'.sm.persist = true) (hpath : w'.sm.sessionFile = some path) : ∃ bytes, w'.files path = some bytes := by
  cases h with
  | skipped h =>
    cases h with
    | inl h => exact absurd (hp.symm.trans h) (by decide)
    | inr h => exact absurd (hpath.symm.trans h) (by simp)
  | kept p hp' _ hne =>
    obtain rfl : p = path := Option.some.inj (hp'.symm.trans hpath)
    exact Option.ne_none_iff_exists'.1 hne
  | rewritten p hp' =>
    obtain rfl : p = path := Option.some.inj (hp'.symm.trans hpath)
    exact ⟨_, put_files _ _ _⟩

theorem undoAppend_error (e : String) (previousLeafId : Option String) (w : World) :
    (undoAppend e previousLeafId w).1 = .error e := by
  unfold undoAppend
  split
  · rfl
  split
  · rfl
  split <;> rfl

theorem appendEntryWithRollback_ok {append : World → Result String} {id : String}
    (h : appendEntryWithRollback append w = (.ok id, w')) :
    ∃ w₁, append w = (.ok id, w₁) ∧ flushNow w₁ = (.ok (), w') := by
  unfold appendEntryWithRollback at h
  split at h
  · rename_i id₁ w₁ hq
    cases h
    unfold appendAndFlush at hq
    split at hq
    · cases hq
    · rename_i id₂ w₂ hap
      split at hq
      · rename_i u w₃ hfl
        cases hq
        exact ⟨w₂, hap, hfl⟩
      · cases hq
  · rename_i e w₁ _
    have herr := undoAppend_error e w.sm.leafId w₁
    rw [h] at herr
    cases herr

/-- An operation that appends an entry, on either route. -/
def Op.Appends (op : Op) (w : World) : Prop :=
  (op.plainAppend? w).isSome = true ∨ op.rollbackBody?.isSome = true

theorem Op.exists_file {op : Op} (ha : op.Appends w)
    (h : op.run env w = (.ok (), w')) (hp : w'.sm.persist = true) (hf : w'.sm.flushed = true)
    (hpath : w'.sm.sessionFile = some path) : ∃ bytes, w'.files path = some bytes := by
  cases ha with
  | inl ha =>
    obtain ⟨⟨body, w₁⟩, hplain⟩ := Option.isSome_iff_exists.1 ha
    rw [Op.run_plain hplain] at h
    cases hap : appendBody body env w₁ with
    | mk v w₂ =>
      rw [hap] at h
      cases v with
      | error e => cases h
      | ok id =>
        have hstep := persist_step (w₁.sm.newEntry body env)
          { w₁ with sm := w₁.sm.push (w₁.sm.newEntry body env) }
        rw [appendBody_ok hap] at hstep
        have hafter : w' = { w₂ with sm := op.afterAppend env w₂.sm } := by
          rw [Op.finish, Prod.mk.injEq] at h
          exact h.2.symm
        subst hafter
        have hsame : (op.afterAppend env w₂.sm).persist = w₂.sm.persist ∧
            (op.afterAppend env w₂.sm).flushed = w₂.sm.flushed ∧
            (op.afterAppend env w₂.sm).sessionFile = w₂.sm.sessionFile := by
          cases op <;> exact ⟨rfl, rfl, rfl⟩
        exact hstep.exists_file (hsame.1 ▸ hp) (hsame.2.1 ▸ hf) (hsame.2.2 ▸ hpath)
  | inr ha =>
    obtain ⟨body, hb⟩ := Option.isSome_iff_exists.1 ha
    rw [Op.run_rollback hb] at h
    cases hap : appendEntryWithRollback (appendBody body env) w with
    | mk v w₁ =>
      rw [hap] at h
      cases v with
      | error e => cases h
      | ok id =>
        cases h
        obtain ⟨w₂, _, hfl⟩ := appendEntryWithRollback_ok hap
        have hstep := flushNow_step w₂
        rw [hfl] at hstep
        exact hstep.exists_file hp hpath

/-- **In every run whose appends on the plain route are not torn**, after an append that has written
its entry the file loads to the memory, and there is nothing to repair. -/
theorem loads_after_append {w w' : World} (hw : ReachableBy Untorn w) {op : Op} {env : Env}
    {outcomes : List Outcome} (hf : env.Fresh w.sm) (ha : op.Appends (w.withOutcomes outcomes))
    (hr : op.run env (w.withOutcomes outcomes) = (.ok (), w')) (hpersist : w'.sm.persist = true)
    (hflushed : w'.sm.flushed = true) {path : String} (hpath : w'.sm.sessionFile = some path) :
    loadEntriesFromFile w'.files path = w'.sm.fileEntries ∧ repairJsonlDamage path w' = (.ok (), w') := by
  have hreach : ReachableBy Untorn w' := by
    have := ReachableBy.run op env outcomes hw hf (Op.untorn_of_ok hr)
    rwa [hr] at this
  obtain ⟨bytes, hb⟩ := Op.exists_file ha hr hpersist hflushed hpath
  exact hreach.reads_own hpersist hflushed hpath hb

def beforeTorn : World := newWorld.after [(.appendMessage (assistantMessage "answer"), .ofChar 'a')]

theorem reachable_beforeTorn : ReachableBy AllOk beforeTorn :=
  reachable_newWorld.after (fun _ _ _ o ho => absurd ho List.not_mem_nil) (by decide)

/-- An append with rollback tears its line, and the restoring rewrite fails too. -/
def rolledBackWorld : World :=
  ((Op.appendCustomEntryWithRollback "note" none).run (.ofChar 'b')
    (beforeTorn.withOutcomes [.fail 5, .fail 0])).2

theorem loads_after_append_rolledBackWorld :
    let r := (Op.appendMessage (userMessage "next")).run (.ofChar 'c') (rolledBackWorld.withOutcomes [])
    loadEntriesFromFile r.2.files "/sessions/0.jsonl" = r.2.sm.fileEntries ∧
      repairJsonlDamage "/sessions/0.jsonl" r.2 = (.ok (), r.2) := by
  have hreach : ReachableBy Untorn rolledBackWorld := by
    refine .run _ (.ofChar 'b') [.fail 5, .fail 0] (reachable_beforeTorn.mono fun _ _ _ => AllOk.untorn)
      ?_ fun ht => ?_
    · show beforeTorn.sm.byId.has (Uuid.ofChar 'b').text = false
      decide
    · obtain ⟨body, w₁, hp, _⟩ := ht
      cases hp
  exact @loads_after_append _ _ hreach (.appendMessage (userMessage "next")) (.ofChar 'c') []
    (by show rolledBackWorld.sm.byId.has (Uuid.ofChar 'c').text = false; decide)
    (.inl rfl) (by rfl) (by decide) (by decide) _ (by decide)

/-! ### A torn append -/

/-- Five bytes of the second message reach the file. -/
def tornWorld : World :=
  ((Op.appendMessage (userMessage "lost")).run (.ofChar 'b') (beforeTorn.withOutcomes [.fail 5])).2

def afterTorn : Result Unit :=
  (Op.appendMessage (userMessage "next")).run (.ofChar 'c') (tornWorld.withOutcomes [])

def idsOf (entries : List FileEntry) : List String :=
  (entries.filterMap FileEntry.entry?).map SessionEntry.id

/-- What the file has for the line of the next message. -/
def tornLine : Bytes :=
  (lineOf (.entry (beforeTorn.sm.newEntry (.message (userMessage "lost")) (.ofChar 'b')))).take 5 ++
    lineOf (FileEntry.entry (tornWorld.sm.newEntry (.message (userMessage "next")) (.ofChar 'c')))

theorem files_afterTorn : afterTorn.2.files "/sessions/0.jsonl" =
    some (contentOf beforeTorn.sm.fileEntries ++ (tornLine ++ [10])) := by decide +kernel

theorem load_afterTorn : loadEntriesFromFile afterTorn.2.files "/sessions/0.jsonl" =
    finalizeLoadedEntries beforeTorn.sm.fileEntries := by
  have hline : parseLine tornLine = none := by decide +kernel
  have hsep : (10 : UInt8) ∉ tornLine := by decide
  have hne : beforeTorn.sm.fileEntries ≠ [] := by
    obtain ⟨h, hf⟩ := reachable_beforeTorn.wellFormed.files
    rw [hf]
    exact List.cons_ne_nil _ _
  rw [loadEntriesFromFile, files_afterTorn]
  simp only [parseEntries_contentOf_line hne hsep, hline, Option.toList_none, List.append_nil]

/-- The next append succeeds, and both messages are gone from the file. -/
theorem torn_append_loses_entries : Reachable tornWorld ∧ afterTorn.1 = .ok () ∧ afterTorn.2.sm.flushed = true ∧
      afterTorn.2.sm.sessionFile = some "/sessions/0.jsonl" ∧
      idsOf afterTorn.2.sm.fileEntries = ["aaaaaaaa", "bbbbbbbb", "cccccccc"] ∧
      idsOf (loadEntriesFromFile afterTorn.2.files "/sessions/0.jsonl") = ["aaaaaaaa"] := by
  refine ⟨?_, by rfl, by decide, by decide, by decide, by rw [load_afterTorn]; decide⟩
  refine .run _ (.ofChar 'b') [.fail 5] (reachable_beforeTorn.mono fun _ _ _ _ _ _ => trivial) ?_ trivial
  show beforeTorn.sm.byId.has (Uuid.ofChar 'b').text = false
  decide

end Session
end RePrime
