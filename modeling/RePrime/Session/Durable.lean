import RePrime.Session.Steps

/-!
# RePrime.Session.Durable

The session file against the memory. A flushed manager appends single lines to its file; an
attribution changes the memory of an older entry, and the file only when it is next rewritten. So
the file holds a list of entries whose own attributions give the memory.

* `Stored`: what the file of a flushed manager holds. `PersistStep.stored`, `stored_run`: every
  operation keeps it, as long as no append on the plain route is torn (`Op.Tears`).
* `LabelsKept`: the labels are those of the entries, as long as every write succeeds.
* `setSessionFile_agrees`: reading the file back gives the memory.
-/

namespace RePrime
namespace Session

/-! ## What a file holds -/

/-- The file has the header and a list of entries whose own attributions give the memory. -/
def Holds (bytes : Bytes) (sm : SessionManager) : Prop :=
  ∃ h raw, sm.getHeader = some h ∧ bytes = contentOf (.session h :: raw.map .entry) ∧
    settle raw = sm.entries

/-- What the file of a flushed manager holds. -/
def Stored (w : World) : Prop :=
  w.sm.persist = true → w.sm.flushed = true →
    ∀ path bytes, w.sm.sessionFile = some path → w.files path = some bytes → Holds bytes w.sm

variable {sm : SessionManager} {h : SessionHeader}

theorem WellFormed.fileEntries (hw : WellFormed sm)
    (hh : sm.getHeader = some h) : sm.fileEntries = .session h :: sm.entries.map .entry := by
  obtain ⟨h', hf⟩ := hw.files
  rw [(getHeader_of_files hf).1, Option.some.injEq] at hh
  rw [hf, hh]

theorem WellFormed.header (hw : WellFormed sm) : ∃ h, sm.getHeader = some h := by
  obtain ⟨h, hf⟩ := hw.files
  exact ⟨h, (getHeader_of_files hf).1⟩

/-- A rewrite writes the memory, and a settled memory loads as it is. -/
theorem holds_rewrite (hw : WellFormed sm) (hs : Settled sm.entries) : Holds (contentOf sm.fileEntries) sm := by
  obtain ⟨h, hh⟩ := hw.header
  exact ⟨h, sm.entries, hh, by rw [hw.fileEntries hh], hs.fixed⟩

theorem targetIds_settle (raw : List SessionEntry) : targetIds (settle raw) = targetIds raw := by
  rw [targetIds, targetIds, settle, attributions_map]

variable {bytes : Bytes} {sm' : SessionManager} {e : SessionEntry}

theorem Holds.append (h : Holds bytes sm)
    (hs : Settled sm.entries) (hr : Recordable sm.entries e) (hh : sm'.getHeader = sm.getHeader)
    (he : sm'.entries = recorded sm.entries e) : Holds (bytes ++ (lineOf (FileEntry.entry e) ++ [10])) sm' := by
  obtain ⟨hd, raw, hhead, hb, hraw⟩ := h
  refine ⟨hd, raw ++ [e], by rw [hh, hhead], ?_, ?_⟩
  · rw [hb, contentOf_append (by simp)]
    simp
  · have hnot : e.id ∉ targetIds raw := by
      rw [← targetIds_settle, hraw]
      exact fun hm => hr.fresh (hs.targets _ hm)
    rw [settle_append hnot, hraw, he]

/-! ## One write -/

/-- An append that fails in `appendFileSync` with less than its line written. -/
structure TornAppend (w : World) (entry : SessionEntry) : Prop where
  persist : w.sm.persist = true
  flushed : w.sm.flushed = true
  reaches : w.sm.hasAssistantEntry = true ∨ shouldPersistWithoutAssistant entry = true
  torn : ∃ path n, w.sm.sessionFile = some path ∧ w.existsSync path = true ∧
    w.nextOutcome = .fail n ∧ n < (lineOf (.entry entry)).length + 1

/-- `w` is `w₀` with the entry in memory and nothing written yet. -/
structure Appending (w₀ w : World) (e : SessionEntry) : Prop where
  files : w.files = w₀.files
  persist : w.sm.persist = w₀.sm.persist
  flushed : w.sm.flushed = w₀.sm.flushed
  sessionFile : w.sm.sessionFile = w₀.sm.sessionFile
  header : w.sm.getHeader = w₀.sm.getHeader
  recordable : Recordable w₀.sm.entries e
  entries : w.sm.entries = recorded w₀.sm.entries e
  wellFormed : WellFormed w.sm

variable {w : World}

theorem Appending.settled {w₀ : World} (h : Appending w₀ w e)
    (hs : Settled w₀.sm.entries) : Settled w.sm.entries := by
  rw [h.entries]
  exact hs.recorded h.recordable.fresh h.recordable.target

@[simp] theorem put_files (w : World) (path : String) (bytes : Bytes) :
    (w.put path bytes).files path = some bytes := by
  simp [World.put]

theorem holds_of_flushed (h : Holds bytes sm) (b : Bool) : Holds bytes { sm with flushed := b } := h

variable {path : String}

theorem stored_rewritten (hp : w.sm.sessionFile = some path) (hw : WellFormed w.sm) (hs : Settled w.sm.entries) :
    Stored ((w.put path (contentOf w.sm.fileEntries)).setFlushed true) := by
  intro _ _ p bytes hp' hb
  obtain rfl : path = p := Option.some.inj (hp.symm.trans hp')
  have hb' : (w.put path (contentOf w.sm.fileEntries)).files path = some bytes := hb
  rw [put_files, Option.some.injEq] at hb'
  rw [← hb']
  exact holds_of_flushed (holds_rewrite hw hs) true

variable {r : Result Unit}

/-- **One write**: the file keeps up with the memory unless the append is torn. -/
theorem PersistStep.stored {w₀ : World} (hp : PersistStep e w r)
    (ha : Appending w₀ w e) (hs : Settled w₀.sm.entries) (hst : Stored w₀)
    (ht : r.1 ≠ .ok () → ¬ TornAppend w e) : Stored r.2 := by
  cases hp with
  | skipped h =>
    intro hpersist _ path bytes hpath _
    cases h with
    | inl h => exact absurd (hpersist.symm.trans h) (by decide)
    | inr h => exact absurd (hpath.symm.trans h) (by simp)
  | deferred _ => exact fun _ hf => Bool.noConfusion hf
  | rewritten path hpath => exact stored_rewritten hpath ha.wellFormed (ha.settled hs)
  | rewriteFailed path hpath hn _ =>
    -- either the flag says that the file is behind, or there is no file
    intro _ hf p bytes hp' hb
    cases hn with
    | inl hn => exact absurd (hn.symm.trans hf) (by decide)
    | inr hn =>
      obtain rfl : path = p := Option.some.inj (hpath.symm.trans hp')
      exact absurd (hn.symm.trans hb) (by simp)
  | appended path old hpath hf hold =>
    intro hpersist _ p bytes hp' hb
    obtain rfl : path = p := Option.some.inj (hpath.symm.trans hp')
    have hheld : Holds old w₀.sm :=
      hst (ha.persist ▸ hpersist) (ha.flushed ▸ hf) path old (ha.sessionFile ▸ hpath) (ha.files ▸ hold)
    rw [put_files, Option.some.injEq] at hb
    rw [← hb]
    exact hheld.append hs ha.recordable ha.header ha.entries
  | appendFailed path old n hpersist hpath hf hold hr ho =>
    -- the whole line is in the file although the call failed
    have hn : (lineOf (.entry e)).length + 1 ≤ n := by
      by_contra hlt
      exact ht (by simp) ⟨hpersist, hf, hr, path, n, hpath, by simp [World.existsSync, hold], ho, by omega⟩
    intro _ _ p bytes hp' hb
    obtain rfl : path = p := Option.some.inj (hpath.symm.trans hp')
    have hheld : Holds old w₀.sm :=
      hst (ha.persist ▸ hpersist) (ha.flushed ▸ hf) path old (ha.sessionFile ▸ hpath) (ha.files ▸ hold)
    rw [put_files, Option.some.injEq, List.take_of_length_le (by simpa using hn)] at hb
    rw [← hb]
    exact hheld.append hs ha.recordable ha.header ha.entries

theorem FlushStep.stored (hp : FlushStep w r) (hw : WellFormed w.sm)
    (hs : Settled w.sm.entries) (hst : Stored w) : Stored r.2 := by
  cases hp with
  | rewritten path hpath => exact stored_rewritten hpath hw hs
  | _ => exact hst

/-! ## Every operation -/

theorem stored_of_not_flushed (h : w.sm.flushed = false) : Stored w :=
  fun _ hf => absurd (h.symm.trans hf) (by decide)

theorem getHeader_push (sm : SessionManager) (e : SessionEntry) : (sm.push e).getHeader = sm.getHeader := by
  simp [SessionManager.getHeader, SessionManager.push, FileEntry.header?]

variable {w₁ : World} {body : EntryBody}

theorem Prepared.appending {env : Env} (h : Prepared env w w₁ (w₁.sm.newEntry body env)) :
    Appending w { w₁ with sm := w₁.sm.push (w₁.sm.newEntry body env) } (w₁.sm.newEntry body env) where
  files := h.files
  persist := h.persist
  flushed := h.flushed
  sessionFile := h.sessionFile
  header := (getHeader_push _ _).trans h.header
  recordable := h.recordable
  entries := h.entries_push
  wellFormed := h.wellFormed.pushNew h.fresh body

theorem prepared_self (h : WellFormed w.sm) {env : Env} (hf : env.Fresh w.sm)
    (hb : (w.sm.newEntry body env).attribution? = none) :
    Prepared env w w (w.sm.newEntry body env) := Prepared.of_leaf h hf hb

theorem appendBody_snd (body : EntryBody) (env : Env) (w : World) : (appendBody body env w).2 =
      (persist (w.sm.newEntry body env) { w with sm := w.sm.push (w.sm.newEntry body env) }).2 := by
  simp only [appendBody, appendEntry]
  cases persist (w.sm.newEntry body env) { w with sm := w.sm.push (w.sm.newEntry body env) } with
  | mk v w' => cases v <;> rfl

theorem stored_finish {op : Op} {env : Env} {r : Result String} (h : Stored r.2) : Stored (op.finish env r).2 := by
  obtain ⟨v, w⟩ := r
  cases v with
  | error e => exact h
  | ok id => cases op <;> exact h

/-- The append of an operation on the plain route is torn. -/
def Op.Tears (op : Op) (env : Env) (w : World) : Prop :=
  ∃ body w₁, op.plainAppend? w = some (body, w₁) ∧
    TornAppend { w₁ with sm := w₁.sm.push (w₁.sm.newEntry body env) } (w₁.sm.newEntry body env)

open Op

/-- No append on the plain route is torn; every other write may fail. -/
def Untorn (op : Op) (env : Env) (w : World) : Prop := ¬ op.Tears env w

variable {w' : World}

/-- After the `catch` block the file is that of the restored memory, or the flag says it is behind. -/
theorem stored_undoAppend (h : WellFormed w.sm) {env : Env} (hf : env.Fresh w.sm)
    (hs : SameMemory (w.sm.push (w.sm.newEntry body env)) w'.sm)
    (hset : Settled w.sm.entries) (e : String) : Stored (undoAppend e w.sm.leafId w').2 := by
  have hstep := flushNow_step { w' with sm := { w.sm with flushed := false } }
  have hst := hstep.stored (h.of_same ⟨false, rfl⟩) hset (stored_of_not_flushed rfl)
  rw [undoAppend_eq h hf hs]
  split
  · rename_i hq; rw [hq] at hst; exact hst
  · exact stored_of_not_flushed rfl

theorem appendAndFlush_memory {env : Env} {r : Except String String}
    (h : appendAndFlush (appendBody body env) w = (r, w')) :
    SameMemory (w.sm.push (w.sm.newEntry body env)) w'.sm := by
  have hs := appendAndFlush_same w body env
  rw [h] at hs
  exact hs

theorem appendBody_ok {env : Env} {id : String} (h : appendBody body env w = (.ok id, w')) :
    persist (w.sm.newEntry body env) { w with sm := w.sm.push (w.sm.newEntry body env) } = (.ok (), w') := by
  simp only [appendBody, appendEntry] at h
  split at h
  · rename_i w'' hp
    cases h
    exact hp
  · cases h

theorem stored_withRollback (h : WellFormed w.sm) {env : Env} (hf : env.Fresh w.sm)
    (hb : (w.sm.newEntry body env).attribution? = none) (hset : Settled w.sm.entries)
    (hst : Stored w) : Stored (appendEntryWithRollback (appendBody body env) w).2 := by
  have ha := (prepared_self h hf hb).appending
  unfold appendEntryWithRollback
  split
  · rename_i id w'' hq
    have hq' := hq
    unfold appendAndFlush at hq
    split at hq
    · cases hq
    · -- the append has succeeded, so it was not torn
      rename_i entryId w' hap
      have hstep := persist_step (w.sm.newEntry body env)
        { w with sm := w.sm.push (w.sm.newEntry body env) }
      rw [appendBody_ok hap] at hstep
      have hst' : Stored w' := hstep.stored ha hset hst fun hne => absurd rfl hne
      have hsame := appendBody_same w body env
      rw [hap] at hsame
      have hset' : Settled w'.sm.entries := by
        rw [entries_of_same hsame]
        exact ha.settled hset
      have hfl := (flushNow_step w').stored ((h.pushNew hf body).of_same hsame) hset' hst'
      split at hq
      · rename_i hq'
        rw [hq'] at hfl
        cases hq
        exact hfl
      · cases hq
  · rename_i e w' hq
    exact stored_undoAppend h hf (appendAndFlush_memory hq) hset e

/-- **One step.** -/
theorem stored_run (op : Op) {env : Env} (h : WellFormed w.sm) (hf : env.Fresh w.sm)
    (hset : Settled w.sm.entries) (hst : Stored w) (ht : Untorn op env w) : Stored (op.run env w).2 := by
  cases hp : op.plainAppend? w with
  | some p =>
    obtain ⟨body, w₁⟩ := p
    rw [run_plain hp]
    refine stored_finish ?_
    rw [appendBody_snd]
    exact (persist_step _ _).stored (prepared h hf hp).appending hset hst
      fun _ htorn => ht ⟨body, w₁, hp, htorn⟩
  | none =>
    cases hb : op.rollbackBody? with
    | some body =>
      rw [run_rollback hb]
      exact stored_withRollback h hf (attribution?_rollback hb env w.sm) hset hst
    | none =>
      rcases run_other hp hb env with ⟨leaf, hl⟩ | rfl | ⟨dir, rfl⟩ | ⟨options, rfl⟩
      · rw [hl]
        exact hst
      · exact (flushNow_step w).stored h hset hst
      · show Stored (materializeSessionFile dir env w).2
        rcases materialize_cases dir env w with hm | ⟨id, path, hnone, hm⟩
        · rw [hm]
          exact hst
        · rw [hm]
          have hw := h.materialized dir id path env
          have hs' : Settled (w.sm.materialized dir id path env).entries := by
            rw [entries_materialized]
            exact hset
          rw [@rewriteAndFlush_eq { w with sm := w.sm.materialized dir id path env } path rfl rfl]
          split
          · exact stored_rewritten rfl hw hs'
          · intro _ _ p bytes hp' hbytes
            obtain rfl : path = p := Option.some.inj hp'
            exact absurd (hnone.symm.trans hbytes) (by simp)
      · simp only [run]
        rcases newSession_cases options env w with ⟨e, hn⟩ | ⟨id, file, _, hn⟩
        · rw [hn]
          exact hst
        · rw [hn]
          exact stored_of_not_flushed rfl

/-- **Every run** in which no append on the plain route is torn. -/
theorem ReachableBy.stored (h : ReachableBy Untorn w) : Stored w := by
  induction h with
  | create cwd dir persist env files h =>
    refine stored_of_not_flushed ?_
    unfold Session.create at h ⊢
    rcases newSession_cases { id := none, parentSession := none } env
      { sm := .blank cwd dir persist, files, outcomes := [] } with ⟨e, hn⟩ | ⟨id, file, _, hn⟩
    · rw [hn] at h
      cases h
    · rw [hn]
      rfl
  | @run w op env outcomes hw hf ha ih =>
    exact @stored_run (w.withOutcomes outcomes) op env hw.wellFormed hf hw.settled ih ha
  | @unlink w path _ ih =>
    intro hp hf p bytes hpath hb
    refine ih hp hf p bytes hpath ?_
    simp only [World.unlink] at hb
    split at hb
    · cases hb
    · exact hb

/-! ## The labels -/

/-- The two label maps. -/
abbrev Labels := OrderedMap String String × OrderedMap String String

def labelStep (m : Labels) (e : SessionEntry) : Labels :=
  match e.body with
  | .label targetId label =>
    (setLabel targetId (labelValue label) m.1,
      setLabel targetId ((labelValue label).map fun _ => e.timestamp) m.2)
  | _ => m

def labelsOf (es : List SessionEntry) : Labels := es.foldl labelStep (.empty, .empty)

def SessionManager.labels (sm : SessionManager) : Labels := (sm.labelsById, sm.labelTimestampsById)

theorem buildIndex_labels (sm : SessionManager) : sm.buildIndex.labels = labelsOf sm.entries := by
  have hscan : ∀ (es : List SessionEntry) (s : IndexScan),
      ((es.foldl IndexScan.step s).labelsById, (es.foldl IndexScan.step s).labelTimestampsById) =
        es.foldl labelStep (s.labelsById, s.labelTimestampsById) := by
    intro es
    induction es with
    | nil => exact fun s => rfl
    | cons e es ih =>
      intro s
      rw [List.foldl_cons, List.foldl_cons, ih]
      cases hb : e.body <;> simp only [IndexScan.step, labelStep, hb]
  exact hscan sm.entries .init

theorem labelsOf_append (es : List SessionEntry) (e : SessionEntry) :
    labelsOf (es ++ [e]) = labelStep (labelsOf es) e := by
  simp [labelsOf]

theorem labelStep_attributed (m : Labels) (t : String) (u : Usage) (e : SessionEntry) :
    labelStep m (attributed t u e) = labelStep m e := by
  unfold attributed
  split
  · unfold SessionEntry.withUsage
    split
    · rename_i hb
      simp [labelStep, hb]
    · rfl
  · rfl

theorem labelStep_attributedBy (m : Labels) (as : List ChildUsageAttribution) (e : SessionEntry) :
    labelStep m (attributedBy as e) = labelStep m e := by
  induction as generalizing e with
  | nil => rfl
  | cons a as ih => rw [attributedBy_cons, ih, labelStep_attributed]

theorem labelsOf_recorded (es : List SessionEntry) (e : SessionEntry) :
    labelsOf (recorded es e) = labelStep (labelsOf es) e := by
  rw [recorded, labelsOf_append, labelsOf, List.foldl_map]
  congr 1
  exact List.foldl_ext _ _ _ fun m x _ => labelStep_attributedBy m _ x

/-- The label maps are those of the entries. -/
def LabelsKept (sm : SessionManager) : Prop := sm.labels = labelsOf sm.entries

/-- Every write of the operation succeeds. -/
def AllOk (_ : Op) (_ : Env) (w : World) : Prop := ∀ o ∈ w.outcomes, o = .ok

theorem AllOk.nextOutcome {op : Op} {env : Env} {w : World} (h : AllOk op env w) : w.nextOutcome = .ok := by
  unfold World.nextOutcome
  cases ho : w.outcomes with
  | nil => rfl
  | cons o os => exact h o (by rw [ho]; exact List.mem_cons_self)

theorem AllOk.untorn {op : Op} {env : Env} (hw : WellFormed w.sm) (hf : env.Fresh w.sm)
    (h : AllOk op env w) : Untorn op env w := by
  rintro ⟨body, w₁, hp, ht⟩
  obtain ⟨path, n, _, _, ho, _⟩ := ht.torn
  have hnext : w₁.nextOutcome = .ok := by
    rw [World.nextOutcome, (prepared hw hf hp).outcomes]
    exact h.nextOutcome
  exact absurd (hnext.symm.trans ho) (by simp)

theorem persist_ok (h : w.nextOutcome = .ok) (e : SessionEntry) : ∃ w', persist e w = (.ok (), w') := by
  generalize hr : persist e w = r
  have hstep := persist_step e w
  rw [hr] at hstep
  cases hstep with
  | rewriteFailed _ _ _ ho => exact absurd h ho
  | appendFailed _ _ _ _ _ _ _ _ ho => exact absurd (h.symm.trans ho) (by simp)
  | _ => exact ⟨_, rfl⟩

theorem appendBody_of_ok (h : w.nextOutcome = .ok) (body : EntryBody) (env : Env) :
    ∃ w', appendBody body env w = (.ok (w.sm.newEntry body env).id, w') := by
  obtain ⟨w', hw'⟩ := @persist_ok { w with sm := w.sm.push (w.sm.newEntry body env) } h
    (w.sm.newEntry body env)
  exact ⟨w', by simp only [appendBody, appendEntry, hw']⟩

theorem labels_of_same (h : SameMemory sm sm') : sm'.labels = sm.labels := by
  obtain ⟨b, rfl⟩ := h
  rfl

theorem labels_afterAppend {op : Op} (hp : op.plainAppend? w = some (body, w₁)) (env : Env) (sm : SessionManager) :
    (op.afterAppend env sm).labels = labelStep sm.labels (w₁.sm.newEntry body env) := by
  cases op with
  | appendChildUsageAttribution t c a o =>
    simp only [plainAppend?] at hp
    split at hp
    · split at hp
      · cases hp
        rfl
      · cases hp
    · cases hp
  | appendLabelChange t l =>
    simp only [plainAppend?] at hp
    split at hp
    · cases hp
    · cases hp
      rfl
  | branchWithSummary b s d f u =>
    simp only [plainAppend?] at hp
    split at hp
    · cases hp
    · cases hp
      rfl
  | branch | resetLeaf | flushNow | materializeSessionFile | newSession | appendCustomEntryWithRollback
  | appendCustomMessageEntryWithRollback => cases hp
  | _ =>
    cases hp
    rfl

theorem labelStep_rollback {op : Op} (hb : op.rollbackBody? = some body) (env : Env)
    (sm : SessionManager) (m : Labels) : labelStep m (sm.newEntry body env) = m := by
  cases op <;> cases hb <;> rfl

theorem labelsKept_run (op : Op) {env : Env} (h : WellFormed w.sm) (hf : env.Fresh w.sm)
    (hok : AllOk op env w) (hl : LabelsKept w.sm) : LabelsKept (op.run env w).2.sm := by
  cases hp : op.plainAppend? w with
  | some p =>
    obtain ⟨body, w₁⟩ := p
    have hpre := prepared h hf hp
    have hnext : w₁.nextOutcome = .ok := by
      rw [World.nextOutcome, hpre.outcomes]
      exact hok.nextOutcome
    obtain ⟨w', hap⟩ := appendBody_of_ok hnext body env
    have hsame := appendBody_same w₁ body env
    rw [hap] at hsame
    have hlab : w'.sm.labels = w.sm.labels := by
      rw [labels_of_same hsame]
      exact Prod.ext hpre.labels.1 hpre.labels.2
    have hent := entries_finish op env (appendBody body env w₁)
    rw [LabelsKept, run_plain hp, hent, hap, entries_of_same hsame, hpre.entries_push,
      labelsOf_recorded, ← hl, ← hlab]
    exact labels_afterAppend hp env w'.sm
  | none =>
    cases hb : op.rollbackBody? with
    | some body =>
      rw [run_rollback hb]
      show LabelsKept (appendEntryWithRollback (appendBody body env) w).2.sm
      rcases appendEntryWithRollback_same h hf body with hs | hs
      · rw [LabelsKept, labels_of_same hs, entries_of_same hs, entries_push, labelsOf_append, ← hl,
          labelStep_rollback hb]
        rfl
      · rw [LabelsKept, labels_of_same hs, entries_of_same hs]
        exact hl
    | none =>
      rcases run_other hp hb env with ⟨leaf, hleaf⟩ | rfl | ⟨dir, rfl⟩ | ⟨options, rfl⟩
      · rw [hleaf]
        exact hl
      · have hs := flushNow_same w
        show LabelsKept (flushNow w).2.sm
        rw [LabelsKept, labels_of_same hs, entries_of_same hs]
        exact hl
      · show LabelsKept (materializeSessionFile dir env w).2.sm
        rcases materialize_cases dir env w with hm | ⟨id, path, _, hm⟩
        · rw [hm]
          exact hl
        · have hs := rewriteAndFlush_same { w with sm := w.sm.materialized dir id path env }
          rw [hm, LabelsKept, labels_of_same hs, entries_of_same hs, entries_materialized]
          exact hl
      · simp only [run]
        rcases newSession_cases options env w with ⟨e, hn⟩ | ⟨id, file, _, hn⟩
        · rw [hn]
          exact hl
        · rw [hn]
          rfl

theorem ReachableBy.labelsKept (h : ReachableBy AllOk w) : LabelsKept w.sm := by
  induction h with
  | create cwd dir persist env files h =>
    unfold Session.create at h ⊢
    rcases newSession_cases { id := none, parentSession := none } env
      { sm := .blank cwd dir persist, files, outcomes := [] } with ⟨e, hn⟩ | ⟨id, file, _, hn⟩
    · rw [hn]
      rfl
    · rw [hn]
      rfl
  | @run w op env outcomes hw hf ha ih =>
    exact @labelsKept_run (w.withOutcomes outcomes) op env hw.wellFormed hf ha ih
  | unlink path _ ih => exact ih

/-! ## The header -/

/-- The header has the current version. -/
def CurrentHeader (sm : SessionManager) : Prop :=
  ∃ h, sm.getHeader = some h ∧ h.version = some currentVersion

theorem CurrentHeader.of_eq (h : CurrentHeader sm) (he : sm'.getHeader = sm.getHeader) : CurrentHeader sm' := by
  obtain ⟨hd, hh, hv⟩ := h
  exact ⟨hd, he.trans hh, hv⟩

theorem getHeader_of_same (h : SameMemory sm sm') : sm'.getHeader = sm.getHeader := by
  obtain ⟨b, rfl⟩ := h
  rfl

theorem getHeader_finish (op : Op) (env : Env) (r : Result String) :
    (op.finish env r).2.sm.getHeader = r.2.sm.getHeader := by
  obtain ⟨v, w⟩ := r
  cases v with
  | error e => rfl
  | ok id => cases op <;> rfl

theorem currentHeader_run (op : Op) {env : Env} (h : WellFormed w.sm)
    (hf : env.Fresh w.sm) (hc : CurrentHeader w.sm) : CurrentHeader (op.run env w).2.sm := by
  cases hp : op.plainAppend? w with
  | some p =>
    obtain ⟨body, w₁⟩ := p
    refine hc.of_eq ?_
    rw [run_plain hp, getHeader_finish, getHeader_of_same (appendBody_same w₁ body env), getHeader_push]
    exact (prepared h hf hp).header
  | none =>
    cases hb : op.rollbackBody? with
    | some body =>
      rw [run_rollback hb]
      refine hc.of_eq ?_
      rcases appendEntryWithRollback_same h hf body with hs | hs
      · exact (getHeader_of_same hs).trans (getHeader_push _ _)
      · exact getHeader_of_same hs
    | none =>
      rcases run_other hp hb env with ⟨leaf, hleaf⟩ | rfl | ⟨dir, rfl⟩ | ⟨options, rfl⟩
      · rw [hleaf]
        exact hc
      · exact hc.of_eq (getHeader_of_same (flushNow_same w))
      · show CurrentHeader (materializeSessionFile dir env w).2.sm
        rcases materialize_cases dir env w with hm | ⟨id, path, _, hm⟩
        · rw [hm]
          exact hc
        · rw [hm]
          exact CurrentHeader.of_eq ⟨_, rfl, rfl⟩ (getHeader_of_same (rewriteAndFlush_same _))
      · simp only [run]
        rcases newSession_cases options env w with ⟨e, hn⟩ | ⟨id, file, _, hn⟩
        · rw [hn]
          exact hc
        · rw [hn]
          exact ⟨_, rfl, rfl⟩

theorem ReachableBy.currentHeader {A : Op → Env → World → Prop} (h : ReachableBy A w) : CurrentHeader w.sm := by
  induction h with
  | create cwd dir persist env files h =>
    unfold Session.create at h ⊢
    rcases newSession_cases { id := none, parentSession := none } env
      { sm := .blank cwd dir persist, files, outcomes := [] } with ⟨e, hn⟩ | ⟨id, file, _, hn⟩
    · rw [hn] at h
      cases h
    · rw [hn]
      exact ⟨_, rfl, rfl⟩
  | @run w op env outcomes hw hf _ ih =>
    exact @currentHeader_run (w.withOutcomes outcomes) op env hw.wellFormed hf ih
  | unlink path _ ih => exact ih

/-! ## Reading the file back -/

theorem Holds.load (h : Holds bytes sm) (hw : WellFormed sm)
    {files : String → Option Bytes} (hf : files path = some bytes) :
    loadEntriesFromFile files path = sm.fileEntries := by
  obtain ⟨hd, raw, hh, hb, hraw⟩ := h
  have hn : (raw.map SessionEntry.id).Nodup := by
    have := hw.nodup
    rwa [← hraw, settle, map_id_attributedBy] at this
  rw [loadEntriesFromFile, hf, hb]
  simp only [parseEntries_contentOf (List.cons_ne_nil _ _), finalizeLoadedEntries]
  rw [applyChildUsageAttributions_eq hd hn, hraw, hw.fileEntries hh]

theorem Holds.repair (h : Holds bytes sm)
    (hf : w.files path = some bytes) : repairJsonlDamage path w = (.ok (), w) := by
  obtain ⟨hd, raw, _, hb, _⟩ := h
  exact repairJsonlDamage_contentOf (List.cons_ne_nil _ _) (hb ▸ hf)

/-- The file of a flushed manager loads to the memory, and there is nothing to repair. -/
theorem ReachableBy.reads_own (hw : ReachableBy Untorn w) (hpersist : w.sm.persist = true)
    (hflushed : w.sm.flushed = true) (hpath : w.sm.sessionFile = some path) (hb : w.files path = some bytes) :
    loadEntriesFromFile w.files path = w.sm.fileEntries ∧ repairJsonlDamage path w = (.ok (), w) := by
  have hheld := hw.stored hpersist hflushed path bytes hpath hb
  exact ⟨hheld.load hw.wellFormed hb, hheld.repair hb⟩

/-- The memory after reading a file: the entries, their index and labels, the last one as leaf. -/
structure ReadBack (env : Env) (sm sm' : SessionManager) : Prop where
  entries : sm'.entries = sm.entries
  header : sm'.getHeader = sm.getHeader.map fun h => (resolveHeader env h).getD h
  byId : sm'.byId = sm.byId
  labels : sm'.labels = labelsOf sm.entries
  leaf : sm'.leafId = sm.entries.getLast?.map SessionEntry.id
  flushed : sm'.flushed = true

theorem readBack_buildIndex {env : Env} (hw : WellFormed sm) (hh : sm.getHeader = some h)
    (hfiles : sm'.fileEntries = .session ((resolveHeader env h).getD h) :: sm.entries.map .entry) :
    ReadBack env sm { sm'.buildIndex with flushed := true } := by
  obtain ⟨hhead, hent⟩ := getHeader_of_files hfiles
  refine ⟨hent, ?_, ?_, ?_, ?_, rfl⟩
  · rw [hh]
    exact hhead
  · rw [hw.index, ← hent]
    exact buildIndex_byId sm'
  · rw [← hent]
    exact buildIndex_labels sm'
  · rw [← hent]
    exact buildIndex_leafId sm'

theorem rewriteFile_of_ok (h : w.nextOutcome = .ok) : ∃ w', rewriteFile w = (.ok (), w') ∧ w'.sm = w.sm := by
  have hsm := rewriteFile_sm w
  cases hr : rewriteFile w with
  | mk v w' =>
    rw [hr] at hsm
    cases v with
    | ok _ => exact ⟨w', rfl, hsm⟩
    | error e =>
      simp only [rewriteFile, World.writeFileAtomic, h] at hr
      split at hr
      · cases hr
      · split at hr <;> cases hr

theorem setSessionFile_of_load (hf : w.files path = some bytes)
    (hrep : repairJsonlDamage path { w with sm := w.sm.setPath path } =
      (.ok (), { w with sm := w.sm.setPath path }))
    (hload : loadEntriesFromFile w.files path = .session h :: sm.entries.map .entry)
    (hver : h.version = some currentVersion) (env : Env) :
    setSessionFile path env w = some (openSession h (.session h :: sm.entries.map .entry) env
      { w with sm := w.sm.setPath path }) := by
  have hex : w.existsSync path = true := by simp [World.existsSync, hf]
  have hnew : ¬ h.version.getD 1 < currentVersion := by rw [hver]; simp [currentVersion]
  unfold setSessionFile openExisting
  simp only [hex, if_true, hrep, ite_self, hload, if_neg hnew]

theorem readBack_openSession {env : Env} (hw : WellFormed sm) (hh : sm.getHeader = some h)
    (ho : openSession h (.session h :: sm.entries.map .entry) env w = (.ok (), w')) : ReadBack env sm w'.sm := by
  unfold openSession at ho
  cases hr : resolveHeader env h with
  | none =>
    simp only [hr] at ho
    cases ho
    refine readBack_buildIndex hw hh ?_
    rw [hr]
    rfl
  | some h' =>
    simp only [hr] at ho
    have hsm := rewriteFile_sm { w with sm := w.sm.loaded h (.session h' :: sm.entries.map .entry) }
    split at ho
    · cases ho
    · rename_i w₂ hq
      have hw₂ : w₂.sm = w.sm.loaded h (.session h' :: sm.entries.map .entry) := by
        have hq₂ := congrArg (fun r : Result Unit => r.2.sm) hq
        exact hq₂.symm.trans hsm
      cases ho
      show ReadBack env sm { w₂.sm.buildIndex with flushed := true }
      rw [hw₂]
      refine readBack_buildIndex hw hh ?_
      rw [hr]
      rfl

theorem setSessionFile_eq_openSession (h : Holds bytes sm)
    (hw : WellFormed sm) {hd : SessionHeader} (hh : sm.getHeader = some hd) (hv : hd.version = some currentVersion)
    (hf : w.files path = some bytes) (env : Env) :
    setSessionFile path env w = some (openSession hd (.session hd :: sm.entries.map .entry) env
      { w with sm := w.sm.setPath path }) := by
  have hload : loadEntriesFromFile w.files path = .session hd :: sm.entries.map .entry := by
    rw [h.load hw hf, hw.fileEntries hh]
  exact setSessionFile_of_load hf (h.repair hf) hload hv env

theorem readBack_of_holds (h : Holds bytes sm) (hw : WellFormed sm) (hc : CurrentHeader sm)
    (hf : w.files path = some bytes) {env : Env}
    (hset : setSessionFile path env w = some (.ok (), w')) : ReadBack env sm w'.sm := by
  obtain ⟨hd, hh, hv⟩ := hc
  rw [setSessionFile_eq_openSession h hw hh hv hf env, Option.some.injEq] at hset
  exact readBack_openSession hw hh hset

theorem openSession_of_ok {h : SessionHeader} {entries : List FileEntry} {w : World}
    (ho : w.nextOutcome = .ok) (env : Env) : ∃ w', openSession h entries env w = (.ok (), w') := by
  unfold openSession
  cases resolveHeader env h with
  | none => exact ⟨_, rfl⟩
  | some h' =>
    obtain ⟨w₂, hw₂, _⟩ := @rewriteFile_of_ok
      { w with sm := w.sm.loaded h (.session h' :: entries.tail) } ho
    simp only [hw₂]
    exact ⟨_, rfl⟩

/-- It does, if the rewrite of a header without its depth succeeds. -/
theorem setSessionFile_of_holds (h : Holds bytes sm) (hw : WellFormed sm) (hc : CurrentHeader sm)
    (hf : w.files path = some bytes) (ho : w.nextOutcome = .ok) (env : Env) :
    ∃ w', setSessionFile path env w = some (.ok (), w') ∧ ReadBack env sm w'.sm := by
  obtain ⟨hd, hh, hv⟩ := hc
  obtain ⟨w', hopen⟩ := @openSession_of_ok hd (.session hd :: sm.entries.map .entry)
    { w with sm := w.sm.setPath path } ho env
  refine ⟨w', ?_, readBack_openSession hw hh hopen⟩
  rw [setSessionFile_eq_openSession h hw hh hv hf env, hopen]

/-- **Durability**: in every run whose writes succeed, the file of a flushed manager reads back as
the memory, through any manager. -/
theorem setSessionFile_agrees {w : World} (hw : ReachableBy AllOk w) (hpersist : w.sm.persist = true)
    (hflushed : w.sm.flushed = true) {path : String} (hpath : w.sm.sessionFile = some path)
    (hex : w.existsSync path = true) (env : Env) (reader : SessionManager) :
    ∃ w', setSessionFile path env { sm := reader, files := w.files, outcomes := [] } = some (.ok (), w') ∧
      ReadBack env w.sm w'.sm ∧ w'.sm.labels = w.sm.labels := by
  obtain ⟨bytes, hb⟩ := Option.isSome_iff_exists.1 hex
  have hheld := (hw.mono fun _ _ _ => AllOk.untorn).stored hpersist hflushed path bytes hpath hb
  obtain ⟨w', hset, hread⟩ := setSessionFile_of_holds hheld hw.wellFormed hw.currentHeader
    (w := { sm := reader, files := w.files, outcomes := [] }) hb rfl env
  exact ⟨w', hset, hread, hread.labels.trans hw.labelsKept.symm⟩

/-! ## Every session file -/

/-- The session file, also that of a manager that has not flushed yet, is the file of some flushed
state. -/
def Filed (w : World) : Prop :=
  w.sm.persist = true → ∀ path bytes, w.sm.sessionFile = some path → w.files path = some bytes →
    ∃ sm, WellFormed sm ∧ CurrentHeader sm ∧ Settled sm.entries ∧ Holds bytes sm

/-- An operation whose writes succeed leaves the manager flushed, or the file as it was, or none. -/
inductive FileStep (w w' : World) : Prop where
  | flushed (h : w'.sm.flushed = true)
  | untouched (hf : w'.files = w.files) (hp : w'.sm.sessionFile = w.sm.sessionFile)
      (hpersist : w'.sm.persist = w.sm.persist)
  | absent (h : w'.sm.persist = true → ∀ path, w'.sm.sessionFile = some path → w'.files path = none)

theorem FileStep.refl (w : World) : FileStep w w := .untouched rfl rfl rfl

theorem FileStep.of_eq (h : FileStep w₁ w') (hf : w₁.files = w.files)
    (hp : w₁.sm.sessionFile = w.sm.sessionFile) (hpersist : w₁.sm.persist = w.sm.persist) : FileStep w w' := by
  cases h with
  | flushed h => exact .flushed h
  | untouched hf' hp' hpersist' =>
    exact .untouched (hf'.trans hf) (hp'.trans hp) (hpersist'.trans hpersist)
  | absent h => exact .absent h

theorem PersistStep.fileStep (h : PersistStep e w (.ok (), w')) : FileStep w w' := by
  cases h with
  | skipped _ => exact .refl w
  | deferred _ => exact .untouched rfl rfl rfl
  | rewritten _ _ => exact .flushed rfl
  | appended _ _ _ hf _ => exact .flushed hf

theorem FlushStep.fileStep (h : FlushStep w r) : FileStep w r.2 := by
  cases h with
  | skipped | kept => exact .refl w
  | rewritten _ _ => exact .flushed rfl
  | failed _ _ _ _ => exact .untouched rfl rfl rfl

theorem FileStep.trans_flush (h : FileStep w w') (hs : FlushStep w' r) (hok : r.1 = .ok ()) : FileStep w r.2 := by
  cases hs with
  | skipped | kept => exact h
  | rewritten _ _ => exact .flushed rfl
  | failed _ _ _ _ => cases hok

theorem PersistStep.outcomes (h : PersistStep e w r) :
    r.2.outcomes = w.outcomes ∨ r.2.outcomes = w.outcomes.tail := by
  cases h <;> first | exact .inl rfl | exact .inr rfl

theorem fileStep_withRollback (hok : ∀ o ∈ w.outcomes, o = .ok) (body : EntryBody)
    (env : Env) : FileStep w (appendEntryWithRollback (appendBody body env) w).2 := by
  have hnext : w.nextOutcome = .ok := @AllOk.nextOutcome .flushNow env _ hok
  obtain ⟨w', hap⟩ := appendBody_of_ok hnext body env
  have hstep := persist_step (w.sm.newEntry body env) { w with sm := w.sm.push (w.sm.newEntry body env) }
  have hout := hstep.outcomes
  rw [appendBody_ok hap] at hstep hout
  have hok' : ∀ o ∈ w'.outcomes, o = .ok := by
    intro o ho
    cases hout with
    | inl h => exact hok o (h ▸ ho)
    | inr h => exact hok o (List.mem_of_mem_tail (h ▸ ho))
  have hflush := flushNow_step w'
  have hfile : FileStep w w' := hstep.fileStep.of_eq rfl rfl rfl
  cases hr : flushNow w' with
  | mk v w'' =>
    rw [hr] at hflush
    cases v with
    | ok u =>
      simp only [appendEntryWithRollback, appendAndFlush, hap, hr]
      exact hfile.trans_flush hflush rfl
    | error e =>
      have hn : w'.nextOutcome = .ok := @AllOk.nextOutcome .flushNow env _ hok'
      cases hflush with
      | failed _ _ _ ho => exact absurd hn ho

theorem fileStep_run (op : Op) {env : Env} (h : WellFormed w.sm) (hf : env.Fresh w.sm)
    (hok : AllOk op env w) : FileStep w (op.run env w).2 := by
  cases hp : op.plainAppend? w with
  | some p =>
    obtain ⟨body, w₁⟩ := p
    have hpre := prepared h hf hp
    have hnext : w₁.nextOutcome = .ok := by
      rw [World.nextOutcome, hpre.outcomes]
      exact hok.nextOutcome
    obtain ⟨w', hap⟩ := appendBody_of_ok hnext body env
    have hstep := persist_step (w₁.sm.newEntry body env)
      { w₁ with sm := w₁.sm.push (w₁.sm.newEntry body env) }
    rw [appendBody_ok hap] at hstep
    have hfile : FileStep w w' := hstep.fileStep.of_eq hpre.files hpre.sessionFile hpre.persist
    rw [run_plain hp, hap]
    cases hfile with
    | flushed h => exact .flushed (by cases op <;> exact h)
    | untouched hfs hpath hpersist =>
      exact .untouched hfs (by cases op <;> exact hpath) (by cases op <;> exact hpersist)
    | absent h => exact .absent (by cases op <;> exact h)
  | none =>
    cases hb : op.rollbackBody? with
    | some body =>
      rw [run_rollback hb]
      exact fileStep_withRollback hok body env
    | none =>
      rcases run_other hp hb env with ⟨leaf, hleaf⟩ | rfl | ⟨dir, rfl⟩ | ⟨options, rfl⟩
      · rw [hleaf]
        exact .untouched rfl rfl rfl
      · exact (flushNow_step w).fileStep
      · show FileStep w (materializeSessionFile dir env w).2
        rcases materialize_cases dir env w with hm | ⟨id, path, hnone, hm⟩
        · rw [hm]
          exact .refl w
        · rw [hm, @rewriteAndFlush_eq { w with sm := w.sm.materialized dir id path env } path rfl rfl]
          split
          · exact .flushed rfl
          · exact .absent fun _ p hp => (Option.some.inj hp) ▸ hnone
      · simp only [run]
        rcases newSession_cases options env w with ⟨e, hn⟩ | ⟨id, file, hfile, hn⟩
        · rw [hn]
          exact .refl w
        · rw [hn]
          refine .absent fun hpersist p hpath => ?_
          have hpersist' : w.sm.persist = true := hpersist
          obtain ⟨path, rfl, hnone⟩ := hfile hpersist'
          have hpath' : (if w.sm.persist then some path else w.sm.sessionFile) = some p := hpath
          rw [if_pos hpersist', Option.some.injEq] at hpath'
          exact hpath' ▸ hnone

theorem ReachableBy.filed (h : ReachableBy AllOk w) : Filed w := by
  induction h with
  | create cwd dir persist env files h =>
    unfold Session.create at h ⊢
    rcases newSession_cases { id := none, parentSession := none } env
      { sm := .blank cwd dir persist, files, outcomes := [] } with ⟨e, hn⟩ | ⟨id, file, hfile, hn⟩
    · rw [hn] at h
      cases h
    · rw [hn]
      intro hpersist p bytes hpath hb
      have hpersist' : persist = true := hpersist
      obtain ⟨path, rfl, hnone⟩ := hfile hpersist'
      have hpath' : (if persist then some path else none) = some p := hpath
      rw [if_pos hpersist', Option.some.injEq] at hpath'
      exact absurd ((hpath' ▸ hnone).symm.trans hb) (by simp)
  | @run w op env outcomes hw hf ha ih =>
    have hw' : ReachableBy AllOk (op.run env (w.withOutcomes outcomes)).2 := .run op env outcomes hw hf ha
    intro hpersist path bytes hpath hb
    cases @fileStep_run (w.withOutcomes outcomes) op env hw.wellFormed hf ha with
    | flushed hfl =>
      exact ⟨_, hw'.wellFormed, hw'.currentHeader, hw'.settled,
        (hw'.mono fun _ _ _ => AllOk.untorn).stored hpersist hfl path bytes hpath hb⟩
    | untouched hfs hp hpersist' =>
      exact ih (hpersist'.symm.trans hpersist) path bytes (hp.symm.trans hpath) (hfs ▸ hb)
    | absent habs => exact absurd ((habs hpersist path hpath).symm.trans hb) (by simp)
  | @unlink w path _ ih =>
    intro hp p bytes hpath hb
    refine ih hp p bytes hpath ?_
    simp only [World.unlink] at hb
    split at hb
    · cases hb
    · exact hb

/-- A message, an answer, the usage of a child, and a label. -/
def durableOps : List (Op × Env) :=
  [(.appendMessage (userMessage "ask"), .ofChar 'a'),
    (.appendMessage (assistantMessage "answer"), .ofChar 'b'),
    (.appendChildUsageAttribution "bbbbbbbb" (zeroUsage 2) (zeroUsage 3) none, .ofChar 'c'),
    (.appendLabelChange "aaaaaaaa" (some "start"), .ofChar 'd')]

def durableWorld : World := newWorld.after durableOps

theorem setSessionFile_agrees_durableWorld : ∃ w', setSessionFile "/sessions/0.jsonl" (.ofChar 'e')
        { sm := .blank "/repo" "/sessions" true, files := durableWorld.files, outcomes := [] } =
          some (.ok (), w') ∧
      ReadBack (.ofChar 'e') durableWorld.sm w'.sm ∧ w'.sm.labels = durableWorld.sm.labels :=
  setSessionFile_agrees
    (reachable_newWorld.after (fun _ _ _ o ho => absurd ho List.not_mem_nil) (by decide))
    (by decide) (by decide) (by decide) (by decide) _ _

end Session
end RePrime
