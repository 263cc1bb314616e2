import RePrime.Session.Manager

/-!
# RePrime.Session.Invariant

The operations as one step relation, and what holds of the memory in every reachable state.

* `WellFormed`: one header first, ids distinct and not empty, every parent an earlier entry, the
  index and the assistant flag those of the entries, the leaf an entry.
* `wellFormed_run`: every operation keeps it, whether its writes succeed or fail.
* `ReachableBy.wellFormed`: so it holds in every reachable state.
-/

namespace RePrime
namespace Session

open ParentChain List
open FileEntry
open OrderedMap

/-! ## Operations -/

inductive Op where
  | appendMessage (message : AgentMessage)
  | appendThinkingLevelChange (thinkingLevel : String)
  | appendServiceTierChange (serviceTier : ServiceTier)
  | appendModelChange (provider modelId : String)
  | appendCompaction (c : Compaction)
  | appendCustomEntry (customType : String) (data : Option Json.Value)
  | appendCustomEntryWithRollback (customType : String) (data : Option Json.Value)
  | appendChildUsageAttribution (targetId : String) (childUsage aggregateUsage : Usage)
      (origin : Option AttributionOrigin)
  | appendSessionInfo (name : String)
  | appendSessionState (status : SessionStateStatus)
  | appendAgentStatus (status : AgentStatus)
  | appendGitState (git : GitContext)
  | appendCustomMessageEntry (c : CustomMessageContent)
  | appendCustomMessageEntryWithRollback (c : CustomMessageContent)
  | appendLabelChange (targetId : String) (label : Option String)
  | branch (branchFromId : String)
  | resetLeaf
  | branchWithSummary (branchFromId : Option String) (summary : String) (details : Option Json.Value)
      (fromHook : Option Bool) (usage : Option Usage)
  | flushNow
  | materializeSessionFile (sessionDir : String)
  | newSession (options : NewSessionOptions)

/-- A result without its value. -/
def Result.void {α : Type} (r : Result α) : Result Unit := (r.1.map fun _ => (), r.2)

def Op.run : Op → Env → World → Result Unit
  | .appendMessage m, env, w => (Session.appendMessage m env w).void
  | .appendThinkingLevelChange l, env, w => (Session.appendThinkingLevelChange l env w).void
  | .appendServiceTierChange t, env, w => (Session.appendServiceTierChange t env w).void
  | .appendModelChange p m, env, w => (Session.appendModelChange p m env w).void
  | .appendCompaction c, env, w => (Session.appendCompaction c env w).void
  | .appendCustomEntry t d, env, w => (Session.appendCustomEntry t d env w).void
  | .appendCustomEntryWithRollback t d, env, w => (Session.appendCustomEntryWithRollback t d env w).void
  | .appendChildUsageAttribution t c a o, env, w =>
    (Session.appendChildUsageAttribution t c a o env w).void
  | .appendSessionInfo n, env, w => (Session.appendSessionInfo n env w).void
  | .appendSessionState s, env, w => (Session.appendSessionState s env w).void
  | .appendAgentStatus s, env, w => (Session.appendAgentStatus s env w).void
  | .appendGitState g, env, w => (Session.appendGitState g env w).void
  | .appendCustomMessageEntry c, env, w => (Session.appendCustomMessageEntry c env w).void
  | .appendCustomMessageEntryWithRollback c, env, w =>
    (Session.appendCustomMessageEntryWithRollback c env w).void
  | .appendLabelChange t l, env, w => (Session.appendLabelChange t l env w).void
  | .branch id, _, w => Session.branch id w
  | .resetLeaf, _, w => Session.resetLeaf w
  | .branchWithSummary id s d h u, env, w => (Session.branchWithSummary id s d h u env w).void
  | .flushNow, _, w => Session.flushNow w
  | .materializeSessionFile dir, env, w => (Session.materializeSessionFile dir env w).void
  | .newSession options, env, w => Session.newSession options env w

/-- A whole UUID, drawn after a hundred short ids were taken, is new. -/
def Env.Fresh (env : Env) (sm : SessionManager) : Prop := sm.byId.has (env.uuid 0 100).text = false

/-- The file system before an operation: the outcomes it has in store for the writes. -/
def World.withOutcomes (w : World) (outcomes : List Outcome) : World := { w with outcomes }

/-- The session file may disappear underneath a live session. -/
def World.unlink (w : World) (path : String) : World :=
  { w with files := fun p => if p = path then none else w.files p }

/-- The worlds of the runs whose operations are all allowed in the world they start from. -/
inductive ReachableBy (Allowed : Op → Env → World → Prop) : World → Prop where
  | create (cwd sessionDir : String) (persist : Bool) (env : Env) (files : String → Option Bytes)
      (h : (create cwd sessionDir persist env files).1 = .ok ()) :
      ReachableBy Allowed (create cwd sessionDir persist env files).2
  | run {w : World} (op : Op) (env : Env) (outcomes : List Outcome) (hw : ReachableBy Allowed w)
      (hf : env.Fresh w.sm) (ha : Allowed op env (w.withOutcomes outcomes)) :
      ReachableBy Allowed (op.run env (w.withOutcomes outcomes)).2
  | unlink {w : World} (path : String) (hw : ReachableBy Allowed w) :
      ReachableBy Allowed (w.unlink path)

/-- Any operation, whatever becomes of its writes. -/
abbrev Reachable : World → Prop := ReachableBy fun _ _ _ => True

/-! ## Ids -/

theorem Uuid.short_ne_empty (u : Uuid) : u.short ≠ "" := by
  intro h
  have hl : u.short.toList.length = 8 := by simp [Uuid.short, u.length_text]
  rw [h] at hl
  simp at hl

theorem Uuid.text_ne_empty (u : Uuid) : u.text ≠ "" := by
  intro h
  have hl := u.length_text
  rw [h] at hl
  simp at hl

theorem generateId_cases (has : String → Bool) (draw : Nat → Uuid) :
    (∃ i, generateId has draw = (draw i).short ∧ has (draw i).short = false) ∨
      generateId has draw = (draw 100).text := by
  unfold generateId
  cases hf : ((List.range 100).map fun i => (draw i).short).find? fun id => !has id with
  | none => exact .inr rfl
  | some id =>
    obtain ⟨i, _, rfl⟩ := mem_map.1 (mem_of_find?_eq_some hf)
    exact .inl ⟨i, rfl, by simpa using find?_some hf⟩

theorem generateId_fresh {has : String → Bool} {draw : Nat → Uuid} (h : has (draw 100).text = false) :
    has (generateId has draw) = false := by
  cases generateId_cases has draw with
  | inl hs => obtain ⟨i, he, hi⟩ := hs; rw [he]; exact hi
  | inr hl => rw [hl]; exact h

theorem generateId_ne_empty (has : String → Bool) (draw : Nat → Uuid) : generateId has draw ≠ "" := by
  cases generateId_cases has draw with
  | inl hs => obtain ⟨i, he, _⟩ := hs; rw [he]; exact Uuid.short_ne_empty _
  | inr hl => rw [hl]; exact Uuid.text_ne_empty _

/-! ## The index of a list of entries -/

theorem indexById_append (es : List SessionEntry) (e : SessionEntry) :
    indexById (es ++ [e]) = (indexById es).set e.id e := by
  simp [indexById]

variable {es : List SessionEntry} {k : String}

theorem mem_keys_indexById : k ∈ (indexById es).keys ↔ k ∈ es.map SessionEntry.id := by
  rw [← not_iff_not, ← get?_eq_none, get?_indexById, find_eq_none]
  simp

theorem has_indexById : (indexById es).has k = true ↔ k ∈ es.map SessionEntry.id := by
  rw [has, decide_eq_true_iff, mem_keys_indexById]

theorem has_indexById_eq_false : (indexById es).has k = false ↔ k ∉ es.map SessionEntry.id := by
  rw [← Bool.not_eq_true, has_indexById]

theorem entries_indexById (h : (es.map SessionEntry.id).Nodup) :
    (indexById es).entries = es.map fun e => (e.id, e) := by
  induction es using reverseRecOn with
  | nil => rfl
  | append_singleton es e ih =>
    rw [map_append, nodup_append] at h
    have hfresh : (indexById es).has e.id = false :=
      has_indexById_eq_false.2 fun hm => h.2.2 _ hm e.id (by simp) rfl
    rw [indexById_append, set_of_not_has hfresh, ih h.1]
    simp

theorem eq_of_id_eq (h : (es.map SessionEntry.id).Nodup) {a b : SessionEntry}
    (ha : a ∈ es) (hb : b ∈ es) (hab : a.id = b.id) : a = b :=
  inj_on_of_nodup_map h ha hb hab

variable {e : SessionEntry}

theorem get?_indexById_of_mem (h : (es.map SessionEntry.id).Nodup)
    (he : e ∈ es) : (indexById es).get? e.id = some e := by
  obtain ⟨x, hx⟩ := has_iff_get?.1 (has_indexById.2 (mem_map_of_mem he))
  have hx' := hx
  rw [get?_indexById] at hx'
  have hmem : x ∈ es := by simpa using mem_of_find hx'
  rw [hx, eq_of_id_eq h hmem he (key_of_find hx')]

theorem mem_of_get?_indexById (h : (indexById es).get? k = some e) : e ∈ es ∧ e.id = k := by
  rw [get?_indexById] at h
  exact ⟨by simpa using mem_of_find h, key_of_find h⟩

theorem foldl_indexScan (es : List SessionEntry) (s : IndexScan) :
    (es.foldl IndexScan.step s).byId = es.foldl (fun m e => m.set e.id e) s.byId ∧
      (es.foldl IndexScan.step s).leafId = (es.getLast?.map SessionEntry.id).or s.leafId := by
  induction es generalizing s with
  | nil => simp
  | cons e es ih =>
    obtain ⟨hb, hl⟩ := ih (s.step e)
    have hstep : (s.step e).byId = s.byId.set e.id e ∧ (s.step e).leafId = some e.id := by
      unfold IndexScan.step
      split <;> exact ⟨rfl, rfl⟩
    rw [foldl_cons, foldl_cons, hb, hl, hstep.1, hstep.2]
    refine ⟨rfl, ?_⟩
    cases es with
    | nil => simp
    | cons a l => simp [getLast?_eq_some_getLast]

theorem buildIndex_byId (sm : SessionManager) : sm.buildIndex.byId = indexById sm.entries :=
  (foldl_indexScan sm.entries .init).1

theorem buildIndex_leafId (sm : SessionManager) :
    sm.buildIndex.leafId = sm.entries.getLast?.map SessionEntry.id := by
  exact (foldl_indexScan sm.entries .init).2.trans (by simp [IndexScan.init])

/-! ## The invariant -/

structure WellFormed (sm : SessionManager) : Prop where
  files : ∃ h, sm.fileEntries = .session h :: sm.entries.map .entry
  index : sm.byId = indexById sm.entries
  nodup : (sm.entries.map SessionEntry.id).Nodup
  linked : Linked SessionEntry.id SessionEntry.parent sm.entries.reverse
  ids_ne : ∀ e ∈ sm.entries, e.id ≠ ""
  leaf : ∀ l, sm.leafId = some l → l ∈ sm.entries.map SessionEntry.id
  assistant : sm.hasAssistantEntry = someAssistant sm.fileEntries

/-- Two states with the same memory; only `flushed` may differ. -/
def SameMemory (sm sm' : SessionManager) : Prop := ∃ b, sm' = { sm with flushed := b }

theorem SameMemory.refl (sm : SessionManager) : SameMemory sm sm := ⟨sm.flushed, rfl⟩

theorem SameMemory.trans {a b c : SessionManager} (h : SameMemory a b) (h' : SameMemory b c) : SameMemory a c := by
  obtain ⟨x, rfl⟩ := h
  obtain ⟨y, rfl⟩ := h'
  exact ⟨y, rfl⟩

variable {sm : SessionManager}

theorem WellFormed.of_same {sm' : SessionManager} (h : WellFormed sm) (hs : SameMemory sm sm') :
    WellFormed sm' := by
  obtain ⟨b, rfl⟩ := hs
  exact ⟨h.files, h.index, h.nodup, h.linked, h.ids_ne, h.leaf, h.assistant⟩

theorem WellFormed.ordered (h : WellFormed sm) : Ordered sm.entries := by
  refine backward_of_linked h.linked ?_
  rw [map_reverse, nodup_reverse]
  exact h.nodup

/-! ### What the memory operations do to it -/

section Memory

variable {sm : SessionManager}

theorem entries_push (sm : SessionManager) (entry : SessionEntry) :
    (sm.push entry).entries = sm.entries ++ [entry] := by
  simp [SessionManager.push, SessionManager.entries, entry?]

theorem WellFormed.setLeaf (h : WellFormed sm) {l : Option String}
    (hl : ∀ k, l = some k → k ∈ sm.entries.map SessionEntry.id) : WellFormed { sm with leafId := l } :=
  ⟨h.files, h.index, h.nodup, h.linked, h.ids_ne, hl, h.assistant⟩

theorem WellFormed.push (h : WellFormed sm) {entry : SessionEntry} (hid : entry.id ≠ "")
    (hfresh : sm.byId.has entry.id = false) (hp : ∀ p, entry.parent = some p → p ∈ sm.entries.map SessionEntry.id) :
    WellFormed (sm.push entry) := by
  have he := entries_push sm entry
  obtain ⟨hd, hfiles⟩ := h.files
  rw [h.index, has_indexById_eq_false] at hfresh
  refine ⟨⟨hd, ?_⟩, ?_, ?_, ?_, ?_, ?_, ?_⟩
  · rw [he]
    simp [SessionManager.push, hfiles]
  · rw [he, indexById_append, ← h.index]
    rfl
  · rw [he, map_append, nodup_append]
    refine ⟨h.nodup, by simp, fun a ha b hb hab => hfresh ?_⟩
    obtain rfl := mem_singleton.1 hb
    exact hab ▸ ha
  · rw [he, reverse_append]
    refine ⟨fun p hpp => ?_, h.linked⟩
    obtain ⟨x, hx, hxp⟩ := mem_map.1 (hp p hpp)
    exact ⟨x, by simpa using hx, hxp⟩
  · intro e hmem
    rw [he, mem_append, mem_singleton] at hmem
    cases hmem with
    | inl hmem => exact h.ids_ne e hmem
    | inr hmem => rw [hmem]; exact hid
  · intro l hl
    rw [he]
    simp only [SessionManager.push, Option.some.injEq] at hl
    simp [hl]
  · simp [SessionManager.push, someAssistant, h.assistant, isAssistant]

theorem WellFormed.applyLabel (h : WellFormed sm) (targetId : String) (label : Option String)
    (timestamp : String) : WellFormed (sm.applyLabel targetId label timestamp) :=
  ⟨h.files, h.index, h.nodup, h.linked, h.ids_ne, h.leaf, h.assistant⟩

@[simp] theorem withUsage_id (u : Usage) (e : SessionEntry) : (e.withUsage u).id = e.id := by
  unfold SessionEntry.withUsage
  split <;> rfl

@[simp] theorem withUsage_parentId (u : Usage) (e : SessionEntry) : (e.withUsage u).parentId = e.parentId := by
  unfold SessionEntry.withUsage
  split <;> rfl

@[simp] theorem withUsage_parent (u : Usage) (e : SessionEntry) : (e.withUsage u).parent = e.parent := by
  simp [SessionEntry.parent]

theorem withUsage_isAssistant (u : Usage) (e : SessionEntry) :
    (e.withUsage u).assistant?.isSome = e.assistant?.isSome := by
  unfold SessionEntry.withUsage
  split
  · rename_i m hb
    simp [SessionEntry.assistant?, hb, AgentMessage.assistant?]
  · rfl

/-- The entries after an attribution. -/
def attributed (targetId : String) (u : Usage) (e : SessionEntry) : SessionEntry :=
  if e.id = targetId then e.withUsage u else e

@[simp] theorem attributed_id (t : String) (u : Usage) (e : SessionEntry) : (attributed t u e).id = e.id := by
  unfold attributed
  split <;> simp

@[simp] theorem attributed_parent (t : String) (u : Usage) (e : SessionEntry) :
    (attributed t u e).parent = e.parent := by
  unfold attributed
  split <;> simp

theorem entries_setUsage (sm : SessionManager) (target : SessionEntry) (u : Usage) :
    (sm.setUsage target u).entries = sm.entries.map (attributed target.id u) := by
  simp only [SessionManager.setUsage, SessionManager.entries, filterMap_map, map_filterMap]
  refine filterMap_congr fun f _ => ?_
  cases f <;> rfl

theorem linked_map {f : SessionEntry → SessionEntry} (hid : ∀ e, (f e).id = e.id)
    (hp : ∀ e, (f e).parent = e.parent) {es : List SessionEntry}
    (h : Linked SessionEntry.id SessionEntry.parent es) :
    Linked SessionEntry.id SessionEntry.parent (es.map f) := by
  induction es with
  | nil => trivial
  | cons e older ih =>
    refine ⟨fun p hpp => ?_, ih h.2⟩
    obtain ⟨x, hx, hk⟩ := h.1 p (by rw [← hp]; exact hpp)
    exact ⟨f x, mem_map_of_mem hx, by rw [hid, hk]⟩

theorem index_setUsage {es : List SessionEntry} (hn : (es.map SessionEntry.id).Nodup)
    {target : SessionEntry} (ht : target ∈ es) (u : Usage) :
    (indexById es).set target.id (target.withUsage u) = indexById (es.map (attributed target.id u)) := by
  have hids : (es.map (attributed target.id u)).map SessionEntry.id = es.map SessionEntry.id := by
    simp [map_map, Function.comp_def]
  have hkey : (indexById es).has target.id = true := has_indexById.2 (mem_map_of_mem ht)
  refine ext_entries ?_
  rw [entries_indexById (by rw [hids]; exact hn), OrderedMap.set_of_has hkey, entries_indexById hn]
  simp only [OrderedMap.replace, map_map]
  refine map_congr_left fun e he => ?_
  by_cases hid : e.id = target.id
  · have := eq_of_id_eq hn he ht hid
    subst this
    simp [attributed]
  · simp [attributed, hid]

theorem WellFormed.setUsage (h : WellFormed sm) {target : SessionEntry} (ht : target ∈ sm.entries)
    (u : Usage) : WellFormed (sm.setUsage target u) := by
  have he := entries_setUsage sm target u
  have hids : (sm.entries.map (attributed target.id u)).map SessionEntry.id =
      sm.entries.map SessionEntry.id := by
    simp [map_map, Function.comp_def]
  obtain ⟨hd, hfiles⟩ := h.files
  refine ⟨⟨hd, ?_⟩, ?_, ?_, ?_, ?_, ?_, ?_⟩
  · rw [he]
    simp only [SessionManager.setUsage, hfiles, map_cons, withUsage, map_map]
    rfl
  · rw [he, ← index_setUsage h.nodup ht, ← h.index]
    rfl
  · rw [he, hids]; exact h.nodup
  · rw [he, ← map_reverse]
    exact linked_map (attributed_id _ _) (attributed_parent _ _) h.linked
  · intro e hmem
    rw [he] at hmem
    obtain ⟨x, hx, rfl⟩ := mem_map.1 hmem
    rw [attributed_id]
    exact h.ids_ne x hx
  · intro l hl
    rw [he, hids]
    exact h.leaf l hl
  · simp only [SessionManager.setUsage, h.assistant, someAssistant, any_map]
    congr 1
    funext f
    cases f with
    | session hd => rfl
    | entry e =>
      simp only [Function.comp_apply, withUsage, isAssistant]
      split
      · rw [withUsage_isAssistant]
      · rfl

/-- Undoing an append that was indexed gives the memory before it. -/
theorem rollback_push (h : WellFormed sm) {entry : SessionEntry}
    (hfresh : sm.byId.has entry.id = false) (b : Bool) :
    ({ sm.push entry with flushed := b } : SessionManager).rollback entry.id sm.leafId =
      { sm with flushed := false } := by
  have hidx : (sm.push entry).byId.delete entry.id = sm.byId := delete_set hfresh entry
  have hfiles : (sm.push entry).fileEntries.dropLast = sm.fileEntries := by simp [SessionManager.push]
  simp only [SessionManager.rollback, SessionManager.refreshHasAssistantEntry, hidx, hfiles, ← h.assistant]
  rfl

end Memory

/-! ## Writes leave the memory as it is -/

section Writes

variable (w : World)

theorem appendFile_sm (path : String) (bytes : Bytes) : (w.appendFile path bytes).2.sm = w.sm := by
  unfold World.appendFile
  cases w.nextOutcome <;> rfl

theorem writeFileAtomic_sm (path : String) (bytes : Bytes) : (w.writeFileAtomic path bytes).2.sm = w.sm := by
  unfold World.writeFileAtomic
  cases w.nextOutcome <;> rfl

theorem rewriteFile_sm : (rewriteFile w).2.sm = w.sm := by
  unfold rewriteFile
  split
  · rfl
  split
  · rfl
  · exact writeFileAtomic_sm w _ _

theorem rewriteAndFlush_same : SameMemory w.sm (rewriteAndFlush w).2.sm := by
  have h := rewriteFile_sm w
  unfold rewriteAndFlush
  split
  · rename_i hr
    rw [hr] at h
    exact ⟨true, by rw [← h]; rfl⟩
  · rename_i hr
    rw [hr] at h
    exact ⟨w.sm.flushed, h⟩

theorem persist_same (entry : SessionEntry) : SameMemory w.sm (persist entry w).2.sm := by
  unfold persist
  split
  · exact .refl _
  split
  · exact .refl _
  split
  · exact ⟨false, rfl⟩
  split
  · exact rewriteAndFlush_same w
  · rw [appendFile_sm]
    exact .refl _

theorem flushNow_same : SameMemory w.sm (flushNow w).2.sm := by
  unfold flushNow
  split
  · exact .refl _
  split
  · exact .refl _
  split
  · exact .refl _
  · exact rewriteAndFlush_same w

theorem appendBody_same (body : EntryBody) (env : Env) :
    SameMemory (w.sm.push (w.sm.newEntry body env)) (appendBody body env w).2.sm := by
  have h := persist_same { w with sm := w.sm.push (w.sm.newEntry body env) } (w.sm.newEntry body env)
  unfold appendBody appendEntry
  simp only []
  split <;> (rename_i hr; rw [hr] at h; exact h)

theorem appendAndFlush_same (body : EntryBody) (env : Env) :
    SameMemory (w.sm.push (w.sm.newEntry body env)) (appendAndFlush (appendBody body env) w).2.sm := by
  have h := appendBody_same w body env
  unfold appendAndFlush
  split
  · rename_i hr; rw [hr] at h; exact h
  · rename_i w' hr
    rw [hr] at h
    have hfl := flushNow_same w'
    split <;> (rename_i hq; rw [hq] at hfl; exact h.trans hfl)

end Writes

/-! ## Every operation keeps the invariant -/

variable {env : Env}

theorem newEntry_fresh (hf : env.Fresh sm) (body : EntryBody) :
    sm.byId.has (sm.newEntry body env).id = false := generateId_fresh hf

theorem parent_of_parentId {p : String} (h : e.parent = some p) : e.parentId = some p := by
  unfold SessionEntry.parent at h
  split at h
  · cases h
  · rename_i q hq
    split at h
    · cases h
    · rw [hq, ← h]

theorem WellFormed.pushNew (h : WellFormed sm) (hf : env.Fresh sm)
    (body : EntryBody) : WellFormed (sm.push (sm.newEntry body env)) := by
  refine h.push (generateId_ne_empty _ _) (newEntry_fresh hf body) fun p hp => ?_
  exact h.leaf p (parent_of_parentId hp)

variable {w : World}

theorem WellFormed.appendBody (h : WellFormed w.sm) (hf : env.Fresh w.sm)
    (body : EntryBody) : WellFormed (appendBody body env w).2.sm :=
  (h.pushNew hf body).of_same (appendBody_same w body env)

/-- The `catch` block flushes the memory from before the append. -/
theorem undoAppend_eq (h : WellFormed sm) (hf : env.Fresh sm)
    {body : EntryBody} (hs : SameMemory (sm.push (sm.newEntry body env)) w.sm) (e : String) :
    undoAppend e sm.leafId w = match flushNow { w with sm := { sm with flushed := false } } with
      | (.ok _, w') => (.error e, w')
      | (.error _, w') => (.error e, w'.setFlushed false) := by
  have hfresh := newEntry_fresh hf body
  have hne : some (sm.newEntry body env).id ≠ sm.leafId := by
    intro he
    rw [h.index, has_indexById_eq_false] at hfresh
    exact hfresh (h.leaf _ he.symm)
  obtain ⟨b, hb⟩ := hs
  have hleaf : w.sm.leafId = some (sm.newEntry body env).id := by rw [hb]; rfl
  have hroll : w.sm.rollback (sm.newEntry body env).id sm.leafId = { sm with flushed := false } := by
    rw [hb]
    exact rollback_push h hfresh b
  cases hq : flushNow { w with sm := { sm with flushed := false } } with
  | mk v w' => cases v <;> simp only [undoAppend, hleaf, if_neg hne, hroll, hq]

theorem undoAppend_same (h : WellFormed sm) (hf : env.Fresh sm)
    {body : EntryBody} (hs : SameMemory (sm.push (sm.newEntry body env)) w.sm)
    (e : String) : SameMemory sm (undoAppend e sm.leafId w).2.sm := by
  have hr := flushNow_same { w with sm := { sm with flushed := false } }
  have hz : SameMemory sm { sm with flushed := false } := ⟨false, rfl⟩
  rw [undoAppend_eq h hf hs]
  split
  · rename_i hq; rw [hq] at hr; exact hz.trans hr
  · rename_i hq; rw [hq] at hr; exact (hz.trans hr).trans ⟨false, rfl⟩

/-- The memory after an append with rollback: with the new entry, or as it was. -/
theorem appendEntryWithRollback_same (h : WellFormed w.sm) (hf : env.Fresh w.sm) (body : EntryBody) :
    SameMemory (w.sm.push (w.sm.newEntry body env)) (appendEntryWithRollback (Session.appendBody body env) w).2.sm ∨
      SameMemory w.sm (appendEntryWithRollback (Session.appendBody body env) w).2.sm := by
  have ha := appendAndFlush_same w body env
  unfold appendEntryWithRollback
  split
  · rename_i hq; rw [hq] at ha; exact .inl ha
  · rename_i hq; rw [hq] at ha; exact .inr (undoAppend_same h hf ha _)

theorem WellFormed.withRollback (h : WellFormed w.sm) (hf : env.Fresh w.sm) (body : EntryBody) :
    WellFormed (appendEntryWithRollback (Session.appendBody body env) w).2.sm := by
  cases appendEntryWithRollback_same h hf body with
  | inl hs => exact (h.pushNew hf body).of_same hs
  | inr hs => exact h.of_same hs

theorem WellFormed.appendChildUsageAttribution (h : WellFormed w.sm)
    (hf : env.Fresh w.sm) (targetId : String) (childUsage aggregateUsage : Usage)
    (origin : Option AttributionOrigin) :
    WellFormed (appendChildUsageAttribution targetId childUsage aggregateUsage origin env w).2.sm := by
  unfold Session.appendChildUsageAttribution
  split
  · rename_i target ht
    split
    · rw [h.index] at ht
      obtain ⟨hmem, hid⟩ := mem_of_get?_indexById ht
      have hset := h.setUsage hmem (cloneUsage aggregateUsage)
      refine WellFormed.appendBody (w := { w with sm := w.sm.setUsage target _ }) hset ?_ _
      have hk : (w.sm.setUsage target (cloneUsage aggregateUsage)).byId.has (env.uuid 0 100).text =
          w.sm.byId.has (env.uuid 0 100).text := by
        rw [hset.index, entries_setUsage, h.index, Bool.eq_iff_iff, has_indexById, has_indexById]
        simp [map_map, Function.comp_def]
      rw [Env.Fresh, hk]
      exact hf
    · exact h
  · exact h

theorem WellFormed.appendLabelChange (h : WellFormed w.sm)
    (hf : env.Fresh w.sm) (targetId : String) (label : Option String) :
    WellFormed (appendLabelChange targetId label env w).2.sm := by
  have ha := h.appendBody hf (.label targetId label)
  unfold Session.appendLabelChange
  split
  · exact h
  split
  · rename_i hq; rw [hq] at ha; exact ha.applyLabel _ _ _
  · rename_i hq; rw [hq] at ha; exact ha

theorem WellFormed.branchWithSummary (h : WellFormed w.sm)
    (hf : env.Fresh w.sm) (branchFromId : Option String) (summary : String)
    (details : Option Json.Value) (fromHook : Option Bool) (usage : Option Usage) :
    WellFormed (branchWithSummary branchFromId summary details fromHook usage env w).2.sm := by
  unfold Session.branchWithSummary
  split
  · exact h
  · rename_i hb
    refine WellFormed.appendBody (w := { w with sm := { w.sm with leafId := branchFromId } })
      (h.setLeaf fun k hk => ?_) hf _
    rw [← has_indexById, ← h.index]
    simpa [hk] using hb

theorem getHeader_of_files {hd : SessionHeader}
    (h : sm.fileEntries = .session hd :: es.map .entry) : sm.getHeader = some hd ∧ sm.entries = es := by
  constructor
  · rw [SessionManager.getHeader, h]
    rfl
  · rw [SessionManager.entries, h]
    show (es.map entry).filterMap entry? = es
    rw [filterMap_map]
    exact filterMap_some

/-- The memory a materialization writes. -/
def SessionManager.materialized (sm : SessionManager) (dir id path : String) (env : Env) :
    SessionManager :=
  ({ sm with
      sessionDir := dir
      sessionId := id
      sessionFile := some path
      persist := true
      fileEntries := .session
        { version := some currentVersion
          id
          timestamp := env.now
          cwd := sm.cwd
          parentSession := sm.getHeader.bind fun h => h.parentSession
          rlmDepth := env.rlmDepth
          git := env.git } :: sm.entries.map .entry } : SessionManager).refreshHasAssistantEntry

theorem materialize_cases (dir : String) (env : Env) (w : World) : (materializeSessionFile dir env w).2 = w ∨
      ∃ id path, w.files path = none ∧ (materializeSessionFile dir env w).2 =
        (rewriteAndFlush { w with sm := w.sm.materialized dir id path env }).2 := by
  unfold materializeSessionFile
  split
  · exact .inl rfl
  split
  · exact .inl rfl
  · rename_i id path ht
    refine .inr ⟨id, path, ?_, ?_⟩
    · have hno := find?_some ht
      simpa [World.existsSync] using hno
    · show (match rewriteAndFlush { w with sm := w.sm.materialized dir id path env } with
        | (.ok _, w') => ((.ok path, w') : Result String)
        | (.error e, w') => (.error e, w')).2 = _
      cases rewriteAndFlush { w with sm := w.sm.materialized dir id path env } with
      | mk v w' => cases v <;> rfl

theorem entries_materialized (sm : SessionManager) (dir id path : String) (env : Env) :
    (sm.materialized dir id path env).entries = sm.entries := (getHeader_of_files rfl).2

theorem WellFormed.materialized (h : WellFormed sm) (dir id path : String)
    (env : Env) : WellFormed (sm.materialized dir id path env) := by
  have he := entries_materialized sm dir id path env
  exact ⟨⟨_, by rw [he]; rfl⟩, he ▸ h.index, he ▸ h.nodup, he ▸ h.linked, he ▸ h.ids_ne,
    fun l hl => he ▸ h.leaf l hl, rfl⟩

theorem WellFormed.materializeSessionFile (h : WellFormed w.sm) (dir : String) (env : Env) :
    WellFormed (materializeSessionFile dir env w).2.sm := by
  rcases materialize_cases dir env w with hm | ⟨id, path, _, hm⟩
  · rw [hm]
    exact h
  · rw [hm]
    exact (h.materialized dir id path env).of_same (rewriteAndFlush_same _)

theorem wellFormed_start (sm : SessionManager) (sessionId : String) (sessionFile : Option String)
    (options : NewSessionOptions) (env : Env) : WellFormed (sm.start sessionId sessionFile options env) := by
  refine ⟨⟨_, rfl⟩, rfl, nodup_nil, trivial, ?_, ?_, rfl⟩
  · intro e he
    simp [SessionManager.start, SessionManager.entries, entry?] at he
  · intro l hl
    cases hl

theorem newSession_cases (options : NewSessionOptions) (env : Env) (w : World) :
    (∃ e, newSession options env w = (.error e, w)) ∨
      ∃ id file, (w.sm.persist = true → ∃ path, file = some path ∧ w.files path = none) ∧
        newSession options env w = (.ok (), { w with sm := w.sm.start id file options env }) := by
  unfold newSession
  split
  · split
    · simp only []
      split
      · exact .inl ⟨_, rfl⟩
      · rename_i hno
        exact .inr ⟨_, _, fun _ => ⟨_, rfl, by simpa [World.existsSync] using hno⟩, rfl⟩
    · split
      · rename_i ht
        have hno := find?_some ht
        exact .inr ⟨_, _, fun _ => ⟨_, rfl, by simpa [World.existsSync] using hno⟩, rfl⟩
      · exact .inl ⟨_, rfl⟩
  · rename_i hp
    exact .inr ⟨_, none, fun h => absurd h hp, rfl⟩

theorem WellFormed.newSession (h : WellFormed w.sm) (options : NewSessionOptions)
    (env : Env) : WellFormed (newSession options env w).2.sm := by
  cases newSession_cases options env w with
  | inl hn => obtain ⟨e, hn⟩ := hn; rw [hn]; exact h
  | inr hn => obtain ⟨id, file, _, hn⟩ := hn; rw [hn]; exact wellFormed_start _ _ _ _ _

/-- **One step.** -/
theorem wellFormed_run (op : Op) (h : WellFormed w.sm) (hf : env.Fresh w.sm) : WellFormed (op.run env w).2.sm := by
  cases op with
  | appendChildUsageAttribution t c a o => exact h.appendChildUsageAttribution hf t c a o
  | appendCustomEntryWithRollback | appendCustomMessageEntryWithRollback => exact h.withRollback hf _
  | appendLabelChange t l => exact h.appendLabelChange hf t l
  | branch id =>
    simp only [Op.run, Session.branch]
    split
    · rename_i hb
      refine h.setLeaf fun k hk => ?_
      rw [Option.some.injEq] at hk
      rw [← has_indexById, ← h.index, ← hk]
      exact hb
    · exact h
  | resetLeaf => exact h.setLeaf fun k hk => by cases hk
  | branchWithSummary b s d f u => exact h.branchWithSummary hf b s d f u
  | flushNow => exact h.of_same (flushNow_same w)
  | materializeSessionFile dir => exact h.materializeSessionFile dir env
  | newSession options => exact h.newSession options env
  | _ => exact h.appendBody hf _

theorem wellFormed_create {cwd dir : String} {persist : Bool}
    {files : String → Option Bytes} (h : (create cwd dir persist env files).1 = .ok ()) :
    WellFormed (create cwd dir persist env files).2.sm := by
  unfold create at h ⊢
  cases newSession_cases { id := none, parentSession := none } env
      { sm := .blank cwd dir persist, files, outcomes := [] } with
  | inl hn => obtain ⟨e, hn⟩ := hn; rw [hn] at h; cases h
  | inr hn => obtain ⟨id, file, _, hn⟩ := hn; rw [hn]; exact wellFormed_start _ _ _ _ _

variable {A : Op → Env → World → Prop}

/-- **Every run.** -/
theorem ReachableBy.wellFormed (h : ReachableBy A w) : WellFormed w.sm := by
  induction h with
  | create cwd dir persist env files h => exact wellFormed_create h
  | run op env outcomes _ hf _ ih => exact wellFormed_run op ih hf
  | unlink path _ ih => exact ih

theorem ReachableBy.mono {B : Op → Env → World → Prop}
    (h : ∀ op env w, WellFormed w.sm → env.Fresh w.sm → A op env w → B op env w)
    (hw : ReachableBy A w) : ReachableBy B w := by
  induction hw with
  | create cwd dir persist env files hc => exact .create cwd dir persist env files hc
  | @run w op env outcomes hw hf ha ih =>
    exact .run op env outcomes ih hf (h op env (w.withOutcomes outcomes) hw.wellFormed hf ha)
  | unlink path _ ih => exact .unlink path ih

/-! ## Paths -/

/-- What `getBranch` gives in a well-formed state. -/
structure PathFacts (path : List SessionEntry) : Prop where
  nodup : (path.map SessionEntry.id).Nodup
  ids_ne : ∀ e ∈ path, e.id ≠ ""
  chain : path.IsChain fun a b => b.parent = some a.id
  root : ∀ y ∈ path.head?, y.parent = none

theorem branchOf_sublist (es : List SessionEntry) (k : String) : (branchOf es k).Sublist es := by
  have := (@climb_sublist _ _ _ SessionEntry.id SessionEntry.parent es.reverse k).reverse
  rwa [reverse_reverse] at this

theorem WellFormed.has_branchOf (h : WellFormed sm) (k : String) :
    ∀ e ∈ branchOf sm.entries k, sm.byId.has e.id = true := by
  intro e he
  rw [h.index, has_indexById]
  exact mem_map_of_mem ((branchOf_sublist sm.entries k).subset he)

theorem WellFormed.pathFacts (h : WellFormed sm) (k : String) : PathFacts (branchOf sm.entries k) := by
  have hsub := branchOf_sublist sm.entries k
  refine ⟨h.nodup.sublist (hsub.map _), fun e he => h.ids_ne e (hsub.subset he), ?_, ?_⟩
  · rw [branchOf, isChain_reverse]
    exact climb_isChain _ _
  · intro y hy
    rw [branchOf, head?_reverse] at hy
    exact climb_root h.linked k y hy

theorem parentEntry_of_mem (hn : (es.map SessionEntry.id).Nodup)
    {a b : SessionEntry} (hb : b ∈ es) (hp : a.parent = some b.id) : parentEntry (indexById es) a = some b := by
  rw [parentEntry, hp]
  exact get?_indexById_of_mem hn hb

/-- Over its own entries, the walk from the end of such a path is the path. -/
theorem PathFacts.pathTo {path : List SessionEntry} (h : PathFacts path) {leaf : SessionEntry}
    (hl : path.getLast? = some leaf) : pathTo (indexById path) leaf = some path := by
  obtain ⟨r, hr⟩ : ∃ r, path.reverse = leaf :: r := by
    have hh : path.reverse.head? = some leaf := by rw [head?_reverse]; exact hl
    exact ⟨_, eq_cons_of_mem_head? hh⟩
  have hchain : (leaf :: r).IsChain fun a b => parentEntry (indexById path) a = some b := by
    rw [← hr, isChain_reverse]
    exact List.IsChain.imp_of_mem_imp (fun a b ha _ hab => parentEntry_of_mem h.nodup ha hab) h.chain
  have hroot : ∀ y ∈ (leaf :: r).getLast?, parentEntry (indexById path) y = none := by
    intro y hy
    rw [← hr, getLast?_reverse] at hy
    rw [parentEntry, h.root y hy]
    rfl
  rw [pathTo_of_walk (walk_of_chain hchain hroot), ← hr, reverse_reverse]

/-! ## Runs on given inputs -/

def Uuid.ofChar (c : Char) : Uuid := ⟨String.ofList (List.replicate 36 c), by simp⟩

/-- Every draw gives the same text: enough where nothing is taken yet. -/
def Env.ofChar (c : Char) : Env :=
  { now := "2026-01-01T00:00:00.000Z"
    uuid := fun _ _ => .ofChar c
    sessionId := fun _ => String.ofList [c]
    git := none
    rlmDepth := some 0 }

/-- The world after operations whose writes all succeed. -/
def World.after (w : World) : List (Op × Env) → World
  | [] => w
  | (op, env) :: rest => ((op.run env (w.withOutcomes [])).2).after rest

def World.freshAlong (w : World) : List (Op × Env) → Bool
  | [] => true
  | (op, env) :: rest =>
    !w.sm.byId.has (env.uuid 0 100).text && ((op.run env (w.withOutcomes [])).2).freshAlong rest

theorem ReachableBy.after (hA : ∀ op env (w : World), A op env (w.withOutcomes [])) (h : ReachableBy A w)
    {l : List (Op × Env)} (hf : w.freshAlong l = true) : ReachableBy A (w.after l) := by
  induction l generalizing w with
  | nil => exact h
  | cons p rest ih =>
    obtain ⟨op, env⟩ := p
    simp only [World.freshAlong, Bool.and_eq_true, Bool.not_eq_true'] at hf
    exact ih (.run op env [] h hf.1 (hA op env w)) hf.2

def userMessage (text : String) : AgentMessage := .user { content := .text text, timestamp := 0 }

def zeroUsage (tokens : Int) : Usage :=
  { input := tokens
    output := 0
    cacheRead := 0
    cacheWrite := 0
    totalTokens := tokens
    cost :=
      { input := ⟨['0'], rfl⟩
        output := ⟨['0'], rfl⟩
        cacheRead := ⟨['0'], rfl⟩
        cacheWrite := ⟨['0'], rfl⟩
        total := ⟨['0'], rfl⟩ } }

def assistantMessage (text : String) : AgentMessage :=
  .assistant
    { content := [.text { text, textSignature := none }]
      api := "api"
      provider := "provider"
      model := "model"
      responseModel := none
      responseId := none
      diagnostics := none
      usage := zeroUsage 1
      stopReason := .stop
      stopReasonRaw := none
      errorMessage := none
      timestamp := 0 }

def newWorld : World := (create "/repo" "/sessions" true (.ofChar '0') fun _ => none).2

theorem reachable_newWorld : ReachableBy A newWorld :=
  .create _ _ _ _ _ rfl

end Session
end RePrime
