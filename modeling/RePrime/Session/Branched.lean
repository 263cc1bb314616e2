import RePrime.Session.Invariant

/-!
# RePrime.Session.Branched

`createBranchedSession`: the path to an entry becomes a session of its own. Its label entries are
dropped and re-created at the end, while the entries that stay keep their old parent ids.

* `contextOfPath_drop_iff`: when a path may lose its first part without a change of context.
* `branched_walk`, `branched_walk_cycle`: the walk in the new session ends below the last dropped
  label that an entry still names as its parent, or never, if a new label got that label's id.
* `createBranchedSession_context_iff`: when the new session has the context of the old one.
-/

namespace RePrime
namespace Session

open ParentChain List Option

/-! ## The operation -/

structure LabelToWrite where
  targetId : String
  label : String
  timestamp : String

def labelsToWrite (sm : SessionManager) (pathEntryIds : List String) : List LabelToWrite :=
  sm.labelsById.entries.filterMap fun (targetId, label) =>
    if targetId ∈ pathEntryIds then
      some { targetId, label, timestamp := (sm.labelTimestampsById.get? targetId).getD "" }
    else none

/-- The loop over `labelsToWrite`; `taken` are the ids a new label must not have. -/
def labelEntries (env : Env) : Nat → List String → Option String → List LabelToWrite → List SessionEntry
  | _, _, _, [] => []
  | n, taken, parentId, l :: rest =>
    let id := generateId (fun id => decide (id ∈ taken)) (env.uuid n)
    { id, parentId, timestamp := l.timestamp, body := .label l.targetId (some l.label) } ::
      labelEntries env (n + 1) (taken ++ [id]) (some id) rest

/-- The entries of the new session. -/
def branchedEntries (sm : SessionManager) (path : List SessionEntry) (env : Env) : List SessionEntry :=
  let pathWithoutLabels := path.filter fun e => !e.isLabel
  let pathEntryIds := pathWithoutLabels.map SessionEntry.id
  let lastEntryId := (pathWithoutLabels.getLast?.map SessionEntry.id).filter fun id => id != ""
  pathWithoutLabels ++ labelEntries env 0 pathEntryIds lastEntryId (labelsToWrite sm pathEntryIds)

/-- The memory of the new session. -/
def SessionManager.branched (sm : SessionManager) (path : List SessionEntry) (newSessionId : String)
    (newSessionFile : Option String) (env : Env) : SessionManager :=
  let header : SessionHeader :=
    { version := some currentVersion
      id := newSessionId
      timestamp := env.now
      cwd := sm.cwd
      parentSession := if sm.persist then sm.sessionFile else none
      rlmDepth := env.rlmDepth
      git := if sm.persist then env.git else none }
  let sm' : SessionManager :=
    { sm with
      sessionId := newSessionId
      sessionFile := if sm.persist then newSessionFile else sm.sessionFile
      fileEntries := .session header :: (branchedEntries sm path env).map .entry }
  sm'.refreshHasAssistantEntry.buildIndex

/-- The file is written now only if it holds an assistant message. -/
def writeBranched (newSessionFile : Option String) (w : World) : Result (Option String) :=
  if w.sm.hasAssistantEntry then
    match rewriteAndFlush w with
    | (.ok _, w') => (.ok newSessionFile, w')
    | (.error e, w') => (.error e, w')
  else (.ok newSessionFile, w.setFlushed false)

/-- `none` when the walk for the path never ends. -/
def createBranchedSession (leafId : String) (env : Env) (w : World) :
    Option (Result (Option String)) :=
  match getBranch w.sm leafId with
  | none => none
  | some [] => some (.error ("Entry " ++ leafId ++ " not found"), w)
  | some path =>
    if w.sm.persist then
      match createUniqueSessionFileTarget w.existsSync w.sm.sessionDir env.sessionId with
      | none => some (.error "Unable to create a unique session file", w)
      | some (newSessionId, newSessionFile) =>
        some (writeBranched (some newSessionFile)
          { w with sm := w.sm.branched path newSessionId (some newSessionFile) env })
    else some (.ok none, { w with sm := w.sm.branched path (env.sessionId 0) none env })

/-- `buildSessionContext(entries, leafId)`. -/
def contextAt (sm : SessionManager) (leafId : String) : Option SessionContext :=
  Session.buildSessionContext sm.fileEntries (.id leafId) (indexById sm.entries)

/-! ## When a path may lose its first part -/

/-- The first part of a path decides nothing of its context. -/
structure CutHarmless (head tail : List SessionEntry) : Prop where
  thinkingLevel : (∃ e ∈ tail, (thinkingLevelOf? e).isSome) ∨ lastOf thinkingLevelOf? "off" head = "off"
  serviceTier : (∃ e ∈ tail, (serviceTierOf? e).isSome) ∨
    lastOf serviceTierOf? ServiceTier.default head = .default
  model : (∃ e ∈ tail, (modelOf? e).isSome) ∨ ∀ e ∈ head, modelOf? e = none
  /-- With a compaction in the second part: it names no entry of the first part, or what it keeps
  carries no message. -/
  kept : ∀ pre entry c post, tail = pre ++ entry :: post → entry.compaction? = some c →
    (∀ e ∈ post, e.compaction? = none) → c.firstKeptEntryId ∈ head.map SessionEntry.id →
      keptBefore c (head ++ pre) = []
  /-- Without one: the first part holds neither a compaction nor a message. -/
  messages : (∀ e ∈ tail, e.compaction? = none) → ∀ e ∈ head, e.compaction? = none ∧ messageOf e = none

theorem lastOf_append_eq_iff {α β : Type} {f : α → Option β} {d : β} {l r : List α} :
    lastOf f d (l ++ r) = lastOf f d r ↔ (∃ a ∈ r, (f a).isSome) ∨ lastOf f d l = d := by
  rw [lastOf_append]
  by_cases h : ∃ a ∈ r, (f a).isSome
  · obtain ⟨a, ha, hs⟩ := h
    exact iff_of_true (lastOf_eq_of_some ha hs _ _) (.inl ⟨a, ha, hs⟩)
  · have hnone : ∀ a ∈ r, f a = none := fun a ha => by
      by_contra hne
      exact h ⟨a, ha, isSome_iff_ne_none.2 hne⟩
    rw [lastOf_eq_of_none hnone, lastOf_eq_of_none hnone]
    simp only [h, false_or]

theorem lastOf_some_eq_none {α β : Type} {f : α → Option β} {l : List α} :
    lastOf (fun a => (f a).map some) none l = none ↔ ∀ a ∈ l, f a = none := by
  constructor
  · intro h a ha
    by_contra hne
    have hl : lastOf (fun a => (f a).map some) none l ∈ (l.filterMap fun a => (f a).map some) := by
      have hmem : l.filterMap (fun a => (f a).map some) ≠ [] := by
        obtain ⟨b, hb⟩ := ne_none_iff_exists'.1 hne
        exact ne_nil_of_mem (mem_filterMap.2 ⟨a, ha, by rw [hb]; rfl⟩)
      rw [lastOf, getLast?_eq_some_getLast hmem]
      exact getLast_mem hmem
    rw [h] at hl
    obtain ⟨b, _, hb⟩ := mem_filterMap.1 hl
    cases hf : f b <;> simp [hf] at hb
  · intro h
    exact lastOf_eq_of_none (fun a ha => by simp [h a ha]) _

variable {c : Compaction} {head pre : List SessionEntry}

theorem keptBefore_append_of_not_mem (h : c.firstKeptEntryId ∉ head.map SessionEntry.id) :
    keptBefore c (head ++ pre) = keptBefore c pre := by
  have hall : ∀ e ∈ head, (e.id != c.firstKeptEntryId) = true := fun e he =>
    bne_iff_ne.2 fun heq => h (heq ▸ mem_map_of_mem he)
  rw [keptBefore, dropWhile_append_of_pos hall]
  rfl

theorem keptBefore_of_not_mem (h : c.firstKeptEntryId ∉ pre.map SessionEntry.id) : keptBefore c pre = [] := by
  have := @keptBefore_append_of_not_mem c pre [] h
  rw [append_nil] at this
  rw [this]
  rfl

/-- Behind a compaction the context keeps, it is what the compaction kept that may be lost. -/
theorem messages_drop_iff_of_compaction {post : List SessionEntry} {entry : SessionEntry}
    (hn : ((head ++ (pre ++ entry :: post)).map SessionEntry.id).Nodup)
    (hc : entry.compaction? = some c) (hpost : ∀ e ∈ post, e.compaction? = none) :
    (contextOfPath (head ++ (pre ++ entry :: post))).messages = (contextOfPath (pre ++ entry :: post)).messages ↔
      (c.firstKeptEntryId ∈ head.map SessionEntry.id → keptBefore c (head ++ pre) = []) := by
  rw [← append_assoc, map_append, nodup_append] at hn
  have hids : ∀ e ∈ head ++ pre, e.id ≠ entry.id := fun e he heq =>
    hn.2.2 _ (mem_map_of_mem he) entry.id (by simp) heq
  have hpre : ∀ e ∈ pre, e.id ≠ entry.id := fun e he => hids e (mem_append_right head he)
  rw [← append_assoc, messages_of_compaction hc hids hpost, messages_of_compaction hc hpre hpost]
  have hkept : keptBefore c (head ++ pre) = keptBefore c pre ↔
      (c.firstKeptEntryId ∈ head.map SessionEntry.id → keptBefore c (head ++ pre) = []) := by
    by_cases hk : c.firstKeptEntryId ∈ head.map SessionEntry.id
    · have hnot : c.firstKeptEntryId ∉ pre.map SessionEntry.id := fun hp => by
        rw [map_append, nodup_append] at hn
        exact hn.1.2.2 _ hk _ hp rfl
      rw [keptBefore_of_not_mem hnot]
      simp [hk]
    · rw [keptBefore_append_of_not_mem hk]
      simp [hk]
  rw [← hkept]
  constructor
  · intro h
    exact append_cancel_right (List.cons.inj h).2
  · intro h
    rw [h]

theorem messages_drop_iff {tail : List SessionEntry} (hn : ((head ++ tail).map SessionEntry.id).Nodup) :
    (contextOfPath (head ++ tail)).messages = (contextOfPath tail).messages ↔
      (∀ pre entry c post, tail = pre ++ entry :: post → entry.compaction? = some c →
        (∀ e ∈ post, e.compaction? = none) → c.firstKeptEntryId ∈ head.map SessionEntry.id →
          keptBefore c (head ++ pre) = []) ∧ ((∀ e ∈ tail, e.compaction? = none) →
        ∀ e ∈ head, e.compaction? = none ∧ messageOf e = none) := by
  cases exists_last_compaction tail with
  | inr ht =>
    obtain ⟨pre, entry, c, post, rfl, hc, hpost⟩ := ht
    have hsome : ¬ ∀ e ∈ pre ++ entry :: post, e.compaction? = none := fun h => by
      have := h entry (by simp)
      rw [hc] at this
      cases this
    constructor
    · intro h
      refine ⟨fun pre' entry' c' post' heq hc' hpost' => ?_, fun h => absurd h hsome⟩
      rw [heq] at h hn
      exact (messages_drop_iff_of_compaction hn hc' hpost').1 h
    · intro h
      exact (messages_drop_iff_of_compaction hn hc hpost).2 (h.1 pre entry c post rfl hc hpost)
  | inl ht =>
    have hvac : ∀ pre entry c post, tail = pre ++ entry :: post → entry.compaction? = some c → False := by
      intro pre entry c post heq hc
      have := ht entry (by rw [heq]; simp)
      rw [hc] at this
      cases this
    have hmain : (contextOfPath (head ++ tail)).messages = (contextOfPath tail).messages ↔
        ∀ e ∈ head, e.compaction? = none ∧ messageOf e = none := by
      rw [messages_of_no_compaction ht]
      cases exists_last_compaction head with
      | inl hh =>
        have hall : ∀ e ∈ head ++ tail, e.compaction? = none := fun e he =>
          (mem_append.1 he).elim (hh e) (ht e)
        rw [messages_of_no_compaction hall, filterMap_append, append_left_eq_self, filterMap_eq_nil_iff]
        exact ⟨fun h e he => ⟨hh e he, h e he⟩, fun h e he => (h e he).2⟩
      | inr hh =>
        obtain ⟨pre, entry, c, post, rfl, hc, hpost⟩ := hh
        refine iff_of_false (fun h => ?_) fun h => ?_
        · have hpre : ∀ e ∈ pre, e.id ≠ entry.id := fun e he heq => by
            rw [append_assoc, map_append, nodup_append] at hn
            exact hn.2.2 _ (mem_map_of_mem he) entry.id (by simp) heq
          have hall : ∀ e ∈ post ++ tail, e.compaction? = none := fun e he =>
            (mem_append.1 he).elim (hpost e) (ht e)
          have hlen := congrArg List.length h
          rw [append_assoc, cons_append, messages_of_compaction_length hc hpre hall,
            filterMap_append, length_append] at hlen
          omega
        · have := (h entry (by simp)).1
          rw [hc] at this
          cases this
    rw [hmain]
    exact ⟨fun h => ⟨fun pre entry c post heq hc => (hvac pre entry c post heq hc).elim, fun _ => h⟩,
      fun h => h.2 ht⟩

/-- **When a path may lose its first part.** -/
theorem contextOfPath_drop_iff {tail : List SessionEntry} (hn : ((head ++ tail).map SessionEntry.id).Nodup) :
    contextOfPath (head ++ tail) = contextOfPath tail ↔ CutHarmless head tail := by
  have hmodel : (contextOfPath (head ++ tail)).model = (contextOfPath tail).model ↔
      (∃ e ∈ tail, (modelOf? e).isSome) ∨ ∀ e ∈ head, modelOf? e = none := by
    rw [model_contextOfPath, model_contextOfPath, lastOf_append_eq_iff, lastOf_some_eq_none]
    simp
  rw [SessionContext.ext_iff', messages_drop_iff hn, hmodel, thinkingLevel_contextOfPath,
    thinkingLevel_contextOfPath, lastOf_append_eq_iff, serviceTier_contextOfPath,
    serviceTier_contextOfPath, lastOf_append_eq_iff]
  constructor
  · rintro ⟨⟨hk, hm⟩, ht, hs, hmo⟩
    exact ⟨ht, hs, hmo, hk, hm⟩
  · rintro ⟨ht, hs, hmo, hk, hm⟩
    exact ⟨⟨hk, hm⟩, ht, hs, hmo⟩

/-! ## The parts of the path -/

/-- The path without the labels at its end, newest first. -/
def upFromLeaf (path : List SessionEntry) : List SessionEntry :=
  path.reverse.dropWhile SessionEntry.isLabel

/-- The entries after the last label that another entry follows. -/
def keptTail (path : List SessionEntry) : List SessionEntry :=
  ((upFromLeaf path).takeWhile fun e => !e.isLabel).reverse

/-- The path up to and including that label. -/
def lostHead (path : List SessionEntry) : List SessionEntry :=
  ((upFromLeaf path).dropWhile fun e => !e.isLabel).reverse

/-- The labels at the end of the path. -/
def lastLabels (path : List SessionEntry) : List SessionEntry :=
  (path.reverse.takeWhile SessionEntry.isLabel).reverse

theorem path_parts (path : List SessionEntry) : path = lostHead path ++ (keptTail path ++ lastLabels path) := by
  have h : path.reverse = path.reverse.takeWhile SessionEntry.isLabel ++
      ((upFromLeaf path).takeWhile (fun e => !e.isLabel) ++
        (upFromLeaf path).dropWhile fun e => !e.isLabel) := by
    rw [takeWhile_append_dropWhile]
    exact takeWhile_append_dropWhile.symm
  calc path = (path.reverse.takeWhile SessionEntry.isLabel ++
      ((upFromLeaf path).takeWhile (fun e => !e.isLabel) ++
        (upFromLeaf path).dropWhile fun e => !e.isLabel)).reverse := by
        rw [← h, reverse_reverse]
    _ = lostHead path ++ (keptTail path ++ lastLabels path) := by
        rw [reverse_append, reverse_append, append_assoc]
        rfl

variable {path : List SessionEntry} {e : SessionEntry}

theorem isLabel_of_mem_lastLabels (h : e ∈ lastLabels path) : e.isLabel = true :=
  mem_takeWhile_imp (mem_reverse.1 h)

theorem not_isLabel_of_mem_keptTail (h : e ∈ keptTail path) : e.isLabel = false := by
  simpa using mem_takeWhile_imp (mem_reverse.1 h)

/-- The lost part ends with the label the first entry of the kept part names as its parent. -/
theorem isLabel_of_lostHead_getLast (h : e ∈ (lostHead path).getLast?) : e.isLabel = true := by
  rw [lostHead, getLast?_reverse] at h
  have := head?_dropWhile_not (fun e : SessionEntry => !e.isLabel) (upFromLeaf path)
  rw [mem_def.1 h] at this
  simpa using this

theorem lostHead_of_keptTail_nil (h : keptTail path = []) : lostHead path = [] := by
  rw [keptTail, reverse_eq_nil_iff] at h
  cases hu : upFromLeaf path with
  | nil => simp [lostHead, hu]
  | cons e l =>
    have hl : e.isLabel = false := by
      have := head?_dropWhile_not SessionEntry.isLabel path.reverse
      rw [upFromLeaf] at hu
      rw [hu] at this
      simpa using this
    simp [hu, hl] at h

theorem filter_path (path : List SessionEntry) :
    path.filter (fun e => !e.isLabel) = (lostHead path).filter (fun e => !e.isLabel) ++ keptTail path := by
  conv_lhs => rw [path_parts path]
  have hk : (keptTail path).filter (fun e => !e.isLabel) = keptTail path :=
    filter_eq_self.2 fun e he => by simp [not_isLabel_of_mem_keptTail he]
  have hl : (lastLabels path).filter (fun e => !e.isLabel) = [] :=
    filter_eq_nil_iff.2 fun e he => by simp [isLabel_of_mem_lastLabels he]
  rw [filter_append, filter_append, hk, hl, append_nil]

/-! ## Ids of the new labels -/

/-- Whole UUIDs are new: not yet in the session and not drawn twice for its labels. -/
structure Env.AllFresh (env : Env) (sm : SessionManager) : Prop where
  unused : ∀ n < sm.labelsById.size, sm.byId.has (env.uuid n 100).text = false
  distinct : ∀ n < sm.labelsById.size, ∀ m < sm.labelsById.size,
    (env.uuid n 100).text = (env.uuid m 100).text → n = m

/-- The ids `generateId` picks one after another, each added to the taken ones. -/
def pickIds (draw : Nat → Nat → Uuid) : Nat → List String → Nat → List String
  | _, _, 0 => []
  | n, taken, count + 1 =>
    let id := generateId (fun id => decide (id ∈ taken)) (draw n)
    id :: pickIds draw (n + 1) (taken ++ [id]) count

theorem map_id_labelEntries (env : Env) (ls : List LabelToWrite) :
    ∀ n taken parentId, (labelEntries env n taken parentId ls).map SessionEntry.id =
      pickIds env.uuid n taken ls.length := by
  induction ls with
  | nil => intro n taken parentId; rfl
  | cons l ls ih =>
    intro n taken parentId
    simp only [labelEntries, map_cons, length_cons, pickIds, ih]

theorem short_ne_text (u v : Uuid) : u.short ≠ v.text := by
  intro h
  have hl : u.short.toList.length = 8 := by simp [Uuid.short, u.length_text]
  rw [h, v.length_text] at hl
  cases hl

theorem pickIds_nodup {draw : Nat → Nat → Uuid} {calls : Nat}
    (hd : ∀ n < calls, ∀ m < calls, (draw n 100).text = (draw m 100).text → n = m) (count : Nat) :
    ∀ (n : Nat) (taken : List String), n + count ≤ calls → taken.Nodup →
      (∀ m < calls, n ≤ m → (draw m 100).text ∉ taken) → (taken ++ pickIds draw n taken count).Nodup := by
  induction count with
  | zero => intro n taken _ ht _; simpa [pickIds] using ht
  | succ count ih =>
    intro n taken hn ht hf
    have hfresh : generateId (fun id => decide (id ∈ taken)) (draw n) ∉ taken := by
      have := @generateId_fresh (fun id => decide (id ∈ taken)) (draw n)
        (by simpa using hf n (by omega) (Nat.le_refl n))
      simpa using this
    set id := generateId (fun id => decide (id ∈ taken)) (draw n) with hid
    have hnodup : (taken ++ [id]).Nodup := by
      rw [nodup_append]
      refine ⟨ht, by simp, fun a ha b hb hab => hfresh ?_⟩
      rw [← mem_singleton.1 hb, ← hab]
      exact ha
    have hrest : ∀ m < calls, n + 1 ≤ m → (draw m 100).text ∉ taken ++ [id] := by
      intro m hmc hm hmem
      cases mem_append.1 hmem with
      | inl hmem => exact hf m hmc (by omega) hmem
      | inr hmem =>
        rw [mem_singleton] at hmem
        cases generateId_cases (fun id => decide (id ∈ taken)) (draw n) with
        | inl hs =>
          obtain ⟨i, he, _⟩ := hs
          exact short_ne_text (draw n i) (draw m 100) (by rw [hmem, hid, he])
        | inr hl =>
          have := hd m hmc n (by omega) (by rw [hmem, hid, hl])
          omega
    have hnext := ih (n + 1) (taken ++ [id]) (by omega) hnodup hrest
    simpa [pickIds, ← hid] using hnext

theorem length_labelsToWrite_le (sm : SessionManager) (ids : List String) :
    (labelsToWrite sm ids).length ≤ sm.labelsById.size := length_filterMap_le _ _

theorem labelEntries_isChain (env : Env) (ls : List LabelToWrite) :
    ∀ (n : Nat) (taken : List String) (x : SessionEntry), x.id ≠ "" →
      (x :: labelEntries env n taken (some x.id) ls).IsChain fun a b => b.parent = some a.id := by
  induction ls with
  | nil => intro n taken x _; exact isChain_singleton x
  | cons l ls ih =>
    intro n taken x hx
    refine isChain_cons_cons.2 ⟨by simp [SessionEntry.parent, hx], ?_⟩
    exact ih (n + 1) _ _ (generateId_ne_empty _ _)

theorem isLabel_of_mem_labelEntries {env : Env} {ls : List LabelToWrite} :
    ∀ {n : Nat} {taken : List String} {parentId : Option String},
      e ∈ labelEntries env n taken parentId ls → e.isLabel = true := by
  induction ls with
  | nil => intro n taken parentId h; simp [labelEntries] at h
  | cons l ls ih =>
    intro n taken parentId h
    cases mem_cons.1 h with
    | inl h => rw [h]; rfl
    | inr h => exact ih h

/-! ## The walk in the new session -/

/-- The entries the new walk meets: the kept part of the path and the new labels. -/
def newPath (sm : SessionManager) (path : List SessionEntry) (env : Env) : List SessionEntry :=
  let pathEntryIds := (path.filter fun e => !e.isLabel).map SessionEntry.id
  keptTail path ++ labelEntries env 0 pathEntryIds ((keptTail path).getLast?.map SessionEntry.id)
    (labelsToWrite sm pathEntryIds)

/-- The ids of the new labels. -/
def newLabelIds (sm : SessionManager) (path : List SessionEntry) (env : Env) : List String :=
  let pathEntryIds := (path.filter fun e => !e.isLabel).map SessionEntry.id
  pickIds env.uuid 0 pathEntryIds (labelsToWrite sm pathEntryIds).length

section

variable {sm : SessionManager} {path : List SessionEntry} {env : Env}

variable (hf : PathFacts path)

include hf

theorem branchedEntries_eq (hk : keptTail path ≠ []) : branchedEntries sm path env =
      (lostHead path).filter (fun e => !e.isLabel) ++ newPath sm path env := by
  obtain ⟨t, ht⟩ : ∃ t, (keptTail path).getLast? = some t :=
    ne_none_iff_exists'.1 (by simpa using hk)
  have hmem : t ∈ path := by
    rw [path_parts path]
    simp [mem_of_getLast? ht]
  have hlast : (path.filter fun e => !e.isLabel).getLast? = some t := by
    rw [filter_path, getLast?_append, ht]
    rfl
  simp only [branchedEntries, newPath, hlast, ht, map_some, filter_some]
  rw [if_pos (by simpa using hf.ids_ne t hmem), ← append_assoc, ← filter_path]

theorem ids_branchedEntries_nodup (hfr : env.AllFresh sm) (hsub : ∀ e ∈ path, sm.byId.has e.id = true) :
    ((branchedEntries sm path env).map SessionEntry.id).Nodup := by
  simp only [branchedEntries, map_append, map_id_labelEntries]
  refine pickIds_nodup hfr.distinct _ 0 _ (by simpa using length_labelsToWrite_le sm _) ?_
    fun m hmc _ hm => ?_
  · exact hf.nodup.sublist (filter_sublist.map _)
  · obtain ⟨e, he, heq⟩ := mem_map.1 hm
    have := hsub e (mem_filter.1 he).1
    rw [heq, hfr.unused m hmc] at this
    cases this

theorem newPath_isChain : (newPath sm path env).IsChain fun a b => b.parent = some a.id := by
  have hchain := hf.chain
  rw [path_parts path] at hchain
  have hkept := (hchain.right_of_append).left_of_append
  cases ht : (keptTail path).getLast? with
  | none =>
    rw [getLast?_eq_none_iff] at ht
    simp only [newPath, ht, getLast?_nil, map_none, nil_append]
    -- without kept entries the first new label has no parent
    cases labelsToWrite sm ((path.filter fun e => !e.isLabel).map SessionEntry.id) with
    | nil => exact isChain_nil
    | cons l ls => exact labelEntries_isChain env ls 1 _ _ (generateId_ne_empty _ _)
  | some t =>
    obtain ⟨pre, hpre⟩ : ∃ pre, keptTail path = pre ++ [t] := by
      have := dropLast_append_getLast? t ht
      exact ⟨_, this.symm⟩
    have hne : t.id ≠ "" := hf.ids_ne t (by rw [path_parts path, hpre]; simp)
    simp only [newPath, ht, map_some]
    rw [hpre] at hkept ⊢
    exact List.IsChain.append_overlap hkept (labelEntries_isChain env _ 0 _ t hne) (by simp)

theorem newPath_walkChain (hk : keptTail path ≠ []) (hfr : env.AllFresh sm)
    (hsub : ∀ e ∈ path, sm.byId.has e.id = true) : (newPath sm path env).reverse.IsChain fun a b =>
      parentEntry (indexById (branchedEntries sm path env)) a = some b := by
  rw [isChain_reverse]
  refine List.IsChain.imp_of_mem_imp (fun a b ha hb hab => ?_) (newPath_isChain hf)
  have hmem : a ∈ branchedEntries sm path env := by
    rw [branchedEntries_eq hf hk]
    exact mem_append_right _ ha
  exact parentEntry_of_mem (ids_branchedEntries_nodup hf hfr hsub) hmem hab

theorem parent_keptTail_head {y : SessionEntry} (hy : y ∈ (keptTail path).head?) :
    y.parent = (lostHead path).getLast?.map SessionEntry.id := by
  have hy' : y ∈ (keptTail path ++ lastLabels path).head? := by
    cases hk : keptTail path with
    | nil => rw [hk] at hy; cases hy
    | cons a l => rw [hk] at hy; simpa using hy
  have hparts := path_parts path
  cases hl : (lostHead path).getLast? with
  | none =>
    rw [getLast?_eq_none_iff.1 hl, nil_append] at hparts
    rw [← hparts] at hy'
    exact hf.root y hy'
  | some lab =>
    have hchain := hf.chain
    rw [hparts] at hchain
    exact (isChain_append.1 hchain).2.2 lab hl y hy'

theorem lostLabel_not_kept {lab : SessionEntry} (hl : lab ∈ (lostHead path).getLast?) :
    lab.id ∉ (path.filter fun e => !e.isLabel).map SessionEntry.id := by
  intro hm
  obtain ⟨e, he, heq⟩ := mem_map.1 hm
  obtain ⟨hep, hne⟩ := mem_filter.1 he
  have hlp : lab ∈ path := by
    rw [path_parts path]
    exact mem_append_left _ (mem_of_getLast? hl)
  rw [eq_of_id_eq hf.nodup hep hlp heq, isLabel_of_lostHead_getLast hl] at hne
  cases hne

omit hf

theorem ids_branchedEntries (sm : SessionManager) (path : List SessionEntry) (env : Env) :
    (branchedEntries sm path env).map SessionEntry.id =
      (path.filter fun e => !e.isLabel).map SessionEntry.id ++ newLabelIds sm path env := by
  simp only [branchedEntries, newLabelIds, map_append, map_id_labelEntries]

theorem pickIds_ne_empty {draw : Nat → Nat → Uuid} {count : Nat} {id : String} :
    ∀ {n : Nat} {taken : List String}, id ∈ pickIds draw n taken count → id ≠ "" := by
  induction count with
  | zero => intro n taken h; simp [pickIds] at h
  | succ count ih =>
    intro n taken h
    cases mem_cons.1 h with
    | inl h => rw [h]; exact generateId_ne_empty _ _
    | inr h => exact ih h

theorem id_ne_of_mem_branchedEntries (hf : PathFacts path) {e : SessionEntry}
    (he : e ∈ branchedEntries sm path env) : e.id ≠ "" := by
  have hm : e.id ∈ (branchedEntries sm path env).map SessionEntry.id := mem_map_of_mem he
  rw [ids_branchedEntries, mem_append] at hm
  cases hm with
  | inl hm =>
    obtain ⟨x, hx, heq⟩ := mem_map.1 hm
    rw [← heq]
    exact hf.ids_ne x (mem_filter.1 hx).1
  | inr hm => exact pickIds_ne_empty hm

theorem newPath_ne_nil (hk : keptTail path ≠ []) : newPath sm path env ≠ [] := by
  simp [newPath, hk]

theorem head_newPath (hk : keptTail path ≠ []) : (newPath sm path env).head? = (keptTail path).head? := by
  cases h : keptTail path with
  | nil => exact absurd h hk
  | cons a l => simp [newPath, h]

/-- Without a redrawn id the walk ends at the first kept entry. -/
theorem branched_walk (hf : PathFacts path) (hk : keptTail path ≠ []) (hfr : env.AllFresh sm)
    (hsub : ∀ e ∈ path, sm.byId.has e.id = true)
    (hno : ∀ lab ∈ (lostHead path).getLast?, lab.id ∉ newLabelIds sm path env)
    {leaf : SessionEntry} (hleaf : (newPath sm path env).getLast? = some leaf) :
    pathTo (indexById (branchedEntries sm path env)) leaf = some (newPath sm path env) := by
  have hchain := newPath_walkChain hf hk hfr hsub
  obtain ⟨r, hr⟩ : ∃ r, (newPath sm path env).reverse = leaf :: r := by
    have hh : (newPath sm path env).reverse.head? = some leaf := by rw [head?_reverse]; exact hleaf
    exact ⟨_, eq_cons_of_mem_head? hh⟩
  rw [hr] at hchain
  have hend : ∀ z ∈ (leaf :: r).getLast?,
      parentEntry (indexById (branchedEntries sm path env)) z = none := by
    intro z hz
    rw [← hr, getLast?_reverse, head_newPath hk] at hz
    rw [parentEntry, parent_keptTail_head hf hz]
    cases hl : (lostHead path).getLast? with
    | none => rfl
    | some lab =>
      refine OrderedMap.get?_eq_none.2 fun hm => ?_
      rw [mem_keys_indexById, ids_branchedEntries, mem_append] at hm
      exact hm.elim (lostLabel_not_kept hf hl) (hno lab hl)
  have hw := pathTo_of_walk (walk_of_chain hchain hend)
  rw [hw, ← hr, reverse_reverse]

/-- A new label with the id of that lost label closes the chain to a circle. -/
theorem branched_walk_cycle (hf : PathFacts path) (hk : keptTail path ≠ []) (hfr : env.AllFresh sm)
    (hsub : ∀ e ∈ path, sm.byId.has e.id = true) {lab : SessionEntry}
    (hl : lab ∈ (lostHead path).getLast?) (hre : lab.id ∈ newLabelIds sm path env)
    {leaf : SessionEntry} (hleaf : (newPath sm path env).getLast? = some leaf) :
    pathTo (indexById (branchedEntries sm path env)) leaf = none := by
  have hchain := newPath_walkChain hf hk hfr hsub
  obtain ⟨r, hr⟩ : ∃ r, (newPath sm path env).reverse = leaf :: r := by
    have hh : (newPath sm path env).reverse.head? = some leaf := by rw [head?_reverse]; exact hleaf
    exact ⟨_, eq_cons_of_mem_head? hh⟩
  obtain ⟨d, hd, hdid⟩ : ∃ d ∈ newPath sm path env, d.id = lab.id := by
    rw [newLabelIds, ← map_id_labelEntries env _ 0 _ ((keptTail path).getLast?.map SessionEntry.id)] at hre
    obtain ⟨d, hd, hdid⟩ := mem_map.1 hre
    exact ⟨d, mem_append_right _ hd, hdid⟩
  have hcycle : (leaf :: (r ++ [d])).IsChain fun a b =>
      parentEntry (indexById (branchedEntries sm path env)) a = some b := by
    rw [← cons_append, ← hr]
    refine isChain_append.2 ⟨hchain, isChain_singleton d, fun z hz y hy => ?_⟩
    obtain rfl : d = y := by simpa using hy
    rw [getLast?_reverse, head_newPath hk] at hz
    have hmem : d ∈ branchedEntries sm path env := by
      rw [branchedEntries_eq hf hk]
      exact mem_append_right _ hd
    refine parentEntry_of_mem (ids_branchedEntries_nodup hf hfr hsub) hmem ?_
    rw [parent_keptTail_head hf hz, mem_def.1 hl, hdid]
    rfl
  have hdr : d ∈ leaf :: r := by rw [← hr]; simpa using hd
  rw [pathTo, walk_of_cycle hcycle hdr]
  rfl

end

/-! ## The context of the new session -/

section

variable {w w' : World} {L : String} {env : Env}

theorem leaf_of_has (h : WellFormed w.sm) (hL : w.sm.byId.has L = true) :
    ∃ leaf, w.sm.byId.get? L = some leaf ∧ pathTo w.sm.byId leaf = some (branchOf w.sm.entries L) ∧
      leaf ∈ branchOf w.sm.entries L := by
  obtain ⟨leaf, hleaf⟩ := OrderedMap.has_iff_get?.1 hL
  have hi := hleaf
  rw [h.index] at hi
  refine ⟨leaf, hleaf, by rw [h.index]; exact pathTo_indexById h.ordered hi, ?_⟩
  rw [get?_indexById] at hi
  obtain ⟨l, hl⟩ := @climb_head _ _ _ SessionEntry.id SessionEntry.parent _ _ _ hi
  simp [branchOf, hl]

theorem writeBranched_same (newSessionFile : Option String) (w : World) :
    SameMemory w.sm (writeBranched newSessionFile w).2.sm := by
  have h := rewriteAndFlush_same w
  unfold writeBranched
  split
  · split <;> (rename_i hq; rw [hq] at h; exact h)
  · exact ⟨false, rfl⟩

theorem branched_byId (sm : SessionManager) (path : List SessionEntry) (id : String)
    (file : Option String) (env : Env) :
    (sm.branched path id file env).byId = indexById (branchedEntries sm path env) ∧
      (sm.branched path id file env).leafId = (branchedEntries sm path env).getLast?.map SessionEntry.id := by
  unfold SessionManager.branched
  simp only [buildIndex_byId, buildIndex_leafId]
  rw [(getHeader_of_files rfl).2]
  exact ⟨rfl, rfl⟩

variable {r : Option String}

theorem createBranchedSession_sm (h : WellFormed w.sm) (hL : w.sm.byId.has L = true)
    (hc : createBranchedSession L env w = some (.ok r, w')) :
    w'.sm.byId = indexById (branchedEntries w.sm (branchOf w.sm.entries L) env) ∧ w'.sm.leafId =
        (branchedEntries w.sm (branchOf w.sm.entries L) env).getLast?.map SessionEntry.id := by
  obtain ⟨leaf, hleaf, hpath, hmem⟩ := leaf_of_has h hL
  unfold createBranchedSession at hc
  simp only [getBranch, hleaf, hpath] at hc
  cases hb : branchOf w.sm.entries L with
  | nil => rw [hb] at hmem; cases hmem
  | cons e p =>
    rw [hb] at hc
    simp only at hc
    split at hc
    · split at hc
      · cases hc
      · rename_i id file _
        have hs := writeBranched_same (some file)
          { w with sm := w.sm.branched (e :: p) id (some file) env }
        rw [Option.some.inj hc] at hs
        obtain ⟨b, hs⟩ := hs
        rw [hs]
        exact branched_byId w.sm (e :: p) id (some file) env
    · cases hc
      exact branched_byId w.sm (e :: p) _ none env

/-- The old context is that of the lost and the kept part: the labels at the end are not read. -/
theorem contextAt_eq (h : WellFormed w.sm) (hL : w.sm.byId.has L = true) : contextAt w.sm L = some (contextOfPath
      (lostHead (branchOf w.sm.entries L) ++ keptTail (branchOf w.sm.entries L))) := by
  obtain ⟨leaf, hleaf, hpath, _⟩ := leaf_of_has h hL
  have hne : L ≠ "" := by
    rintro rfl
    rw [h.index, has_indexById] at hL
    obtain ⟨e, he, heq⟩ := mem_map.1 hL
    exact h.ids_ne e he heq
  have hparts := path_parts (branchOf w.sm.entries L)
  have hn := (h.pathFacts L).nodup
  rw [hparts, ← append_assoc] at hn
  have hinert := contextOfPath_append_inert hn fun e he => inert_of_label (isLabel_of_mem_lastLabels he)
  rw [append_assoc, ← hparts] at hinert
  rw [contextAt, buildSessionContext, ← h.index]
  simp only [hne, if_false, hleaf, some_or, hpath, map_some, hinert]

theorem newContext_of_keptTail (h : WellFormed w.sm) (hL : w.sm.byId.has L = true)
    (hc : createBranchedSession L env w = some (.ok r, w'))
    (hfr : env.AllFresh w.sm) (hk : keptTail (branchOf w.sm.entries L) ≠ []) :
    ∃ leaf, (newPath w.sm (branchOf w.sm.entries L) env).getLast? = some leaf ∧ w'.sm.buildSessionContext =
        (pathTo (indexById (branchedEntries w.sm (branchOf w.sm.entries L) env)) leaf).map contextOfPath := by
  obtain ⟨hbyId, hleafId⟩ := createBranchedSession_sm h hL hc
  have hf := h.pathFacts L
  obtain ⟨leaf, hleaf⟩ : ∃ leaf, (newPath w.sm (branchOf w.sm.entries L) env).getLast? = some leaf :=
    ne_none_iff_exists'.1 (by simpa using newPath_ne_nil hk)
  have hlast : (branchedEntries w.sm (branchOf w.sm.entries L) env).getLast? = some leaf := by
    rw [branchedEntries_eq hf hk, getLast?_append, hleaf]
    rfl
  have hmem := mem_of_getLast? hlast
  have hget := get?_indexById_of_mem (ids_branchedEntries_nodup hf hfr (h.has_branchOf L)) hmem
  have hne : leaf.id ≠ "" := id_ne_of_mem_branchedEntries hf hmem
  refine ⟨leaf, hleaf, ?_⟩
  rw [SessionManager.buildSessionContext, hleafId, hlast, hbyId]
  simp only [map_some, buildSessionContext, hne, if_false, hget, some_or]

/-- The condition on a path, the labels on it and the ids drawn for the new labels. -/
structure KeepsContext (sm : SessionManager) (path : List SessionEntry) (env : Env) : Prop where
  cut : CutHarmless (lostHead path) (keptTail path)
  ids : ∀ lab ∈ (lostHead path).getLast?, lab.id ∉ newLabelIds sm path env

theorem createBranchedSession_context_of_nil (h : WellFormed w.sm) (hL : w.sm.byId.has L = true)
    (hc : createBranchedSession L env w = some (.ok r, w')) (hk : keptTail (branchOf w.sm.entries L) = []) :
    w'.sm.buildSessionContext = contextAt w.sm L := by
  have hh := lostHead_of_keptTail_nil hk
  have hfil : (branchOf w.sm.entries L).filter (fun e => !e.isLabel) = [] := by
    rw [filter_path, hh, hk]
    rfl
  have hnil : branchedEntries w.sm (branchOf w.sm.entries L) env = [] := by
    simp [branchedEntries, hfil, labelsToWrite, labelEntries]
  obtain ⟨_, hleafId⟩ := createBranchedSession_sm h hL hc
  rw [hnil] at hleafId
  rw [contextAt_eq h hL, hh, hk, SessionManager.buildSessionContext, hleafId]
  rfl

/-- **The new session has the context of the old one at `L` exactly when the condition holds.** -/
theorem createBranchedSession_context_iff (hw : Reachable w) (hL : w.sm.byId.has L = true)
    (hfr : env.AllFresh w.sm) {r : Option String} (hc : createBranchedSession L env w = some (.ok r, w')) :
    w'.sm.buildSessionContext = contextAt w.sm L ↔ KeepsContext w.sm (branchOf w.sm.entries L) env := by
  have h := hw.wellFormed
  have hf := h.pathFacts L
  have hn : ((lostHead (branchOf w.sm.entries L) ++ keptTail (branchOf w.sm.entries L)).map
      SessionEntry.id).Nodup := by
    have hn := hf.nodup
    rw [path_parts (branchOf w.sm.entries L), ← append_assoc, map_append, nodup_append] at hn
    exact hn.1
  by_cases hk : keptTail (branchOf w.sm.entries L) = []
  · refine iff_of_true (createBranchedSession_context_of_nil h hL hc hk) ⟨?_, ?_⟩
    · rw [← contextOfPath_drop_iff hn, lostHead_of_keptTail_nil hk]
      rfl
    · rw [lostHead_of_keptTail_nil hk]
      intro lab hlab
      cases hlab
  · obtain ⟨leaf, hleaf, hctx⟩ := newContext_of_keptTail h hL hc hfr hk
    rw [hctx, contextAt_eq h hL]
    by_cases hre : ∀ lab ∈ (lostHead (branchOf w.sm.entries L)).getLast?,
        lab.id ∉ newLabelIds w.sm (branchOf w.sm.entries L) env
    · -- the walk ends at the first kept entry: the labels after the kept part are not read
      have hinert : contextOfPath (newPath w.sm (branchOf w.sm.entries L) env) =
          contextOfPath (keptTail (branchOf w.sm.entries L)) := by
        refine contextOfPath_append_inert ?_ fun e he => inert_of_label (isLabel_of_mem_labelEntries he)
        have hnd := ids_branchedEntries_nodup hf hfr (h.has_branchOf L)
        rw [branchedEntries_eq hf hk, map_append, nodup_append] at hnd
        exact hnd.2.1
      rw [branched_walk hf hk hfr (h.has_branchOf L) hre hleaf, map_some, hinert,
        Option.some.injEq, eq_comm, contextOfPath_drop_iff hn]
      exact ⟨fun hcut => ⟨hcut, hre⟩, fun hkeep => hkeep.cut⟩
    · refine iff_of_false (fun heq => ?_) fun hkeep => hre hkeep.ids
      push Not at hre
      obtain ⟨lab, hl, hlab⟩ := hre
      rw [branched_walk_cycle hf hk hfr (h.has_branchOf L) hl hlab hleaf] at heq
      cases heq

end

/-! ### A label between two messages -/

def labelledOps : List (Op × Env) :=
  [(.appendMessage (userMessage "first"), .ofChar 'a'),
    (.appendLabelChange "aaaaaaaa" (some "keep"), .ofChar 'b'),
    (.appendMessage (userMessage "second"), .ofChar 'c')]

def labelledWorld : World := newWorld.after labelledOps

theorem reachable_labelledWorld : Reachable labelledWorld :=
  reachable_newWorld.after (fun _ _ _ => trivial) (by decide)

theorem branch_labelledWorld : ∃ r w',
    createBranchedSession "cccccccc" (.ofChar 'd') labelledWorld = some (.ok r, w') ∧
      (w'.sm.buildSessionContext.map fun c => c.messages.length) = some 1 := by
  have hok : (createBranchedSession "cccccccc" (.ofChar 'd') labelledWorld).any
      (fun r => r.1.isOk) = true := by decide
  have hlen : (createBranchedSession "cccccccc" (.ofChar 'd') labelledWorld).bind
      (fun r => r.2.sm.buildSessionContext.map fun c => c.messages.length) = some 1 := by decide
  cases hc : createBranchedSession "cccccccc" (.ofChar 'd') labelledWorld with
  | none => rw [hc] at hok; cases hok
  | some p =>
    rw [hc] at hok hlen
    obtain ⟨r, w'⟩ := p
    cases r with
    | error e => cases hok
    | ok r => exact ⟨r, w', rfl, hlen⟩

theorem length_contextAt_labelledWorld :
    ((contextAt labelledWorld.sm "cccccccc").map fun c => c.messages.length) = some 2 := by
  decide

/-- The message before the label is lost. -/
theorem createBranchedSession_loses_message : Reachable labelledWorld ∧ labelledWorld.sm.persist = true ∧
      labelledWorld.sm.byId.has "cccccccc" = true ∧
      ∃ r w', createBranchedSession "cccccccc" (.ofChar 'd') labelledWorld = some (.ok r, w') ∧
        w'.sm.buildSessionContext ≠ contextAt labelledWorld.sm "cccccccc" := by
  refine ⟨reachable_labelledWorld, by decide, by decide, ?_⟩
  obtain ⟨r, w', hc, hlen⟩ := branch_labelledWorld
  refine ⟨r, w', hc, fun heq => ?_⟩
  rw [heq, length_contextAt_labelledWorld] at hlen
  cases hlen

theorem not_keepsContext_labelledWorld :
    ¬ KeepsContext labelledWorld.sm (branchOf labelledWorld.sm.entries "cccccccc") (.ofChar 'd') := by
  obtain ⟨r, w', hc, hlen⟩ := branch_labelledWorld
  have hfr : (Env.ofChar 'd').AllFresh labelledWorld.sm := by
    have hsize : labelledWorld.sm.labelsById.size = 1 := by decide
    refine ⟨fun n _ => ?_, fun n hn m hm _ => by omega⟩
    show labelledWorld.sm.byId.has (Uuid.ofChar 'd').text = false
    decide
  intro hkeep
  have heq := (createBranchedSession_context_iff reachable_labelledWorld (by decide) hfr hc).2 hkeep
  rw [heq, length_contextAt_labelledWorld] at hlen
  cases hlen

end Session
end RePrime
