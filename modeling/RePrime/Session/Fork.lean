import RePrime.Compact.CutPoint
import RePrime.Session.Durable

/-!
# RePrime.Session.Fork

`forkFrom`: a copy of a session file for another directory. The `git_state` entries are dropped,
and their children re-linked to the nearest entry that stays.

* `liveParent_spec`: the loop that looks for that entry ends, and finds it.
* `branchOf_forked`: so the paths of the fork are the old ones without their `git_state` entries.
* `messages_filter_iff`: what such a path loses is what a compaction keeps from a `git_state` on.
* `forkFrom_keeps_messages`: when the fork has the messages of its source.
-/

namespace RePrime
namespace Session

open ParentChain List
open SessionContext
open FileEntry

/-! ## The operation -/

def droppedParent (entries : List FileEntry) : OrderedMap String (Option String) :=
  entries.foldl
    (fun m f =>
      match f with
      | .entry e => if e.isGitState then m.set e.id e.parentId else m
      | .session _ => m)
    .empty

/-- One round of `while (pid !== null && droppedParent.has(pid))`. -/
def nextLive (dropped : OrderedMap String (Option String)) (pid : Option String) :
    Option (Option String) := pid.bind dropped.get?

/-- `none` when the loop never ends. -/
def liveParent (dropped : OrderedMap String (Option String)) (parentId : Option String) :
    Option (Option String) :=
  (walk (nextLive dropped) (dropped.size + 1) parentId).bind List.getLast?

def forkedEntry (dropped : OrderedMap String (Option String)) (e : SessionEntry) : Option SessionEntry :=
  (liveParent dropped e.parentId).map fun parentId => { e with parentId }

def forkedEntries (sourceEntries : List FileEntry) : Option (List SessionEntry) :=
  ((sourceEntries.filterMap entry?).filter fun e => !e.isGitState).mapM
    (forkedEntry (droppedParent sourceEntries))

/-- `openSync(path, "w")`. -/
def World.openForWriting (w : World) (path : String) : Result Unit :=
  match w.nextOutcome with
  | .ok => (.ok (), w.put path [])
  | .fail _ => (.error "open failed", { w with outcomes := w.outcomes.tail })

def writeLines (path : String) : List FileEntry → World → Result Unit
  | [], w => (.ok (), w)
  | f :: fs, w =>
    match w.appendFile path (lineOf f ++ [10]) with
    | (.error e, w) => (.error e, w)
    | (.ok _, w) => writeLines path fs w

def writeFork (path : String) (entries : List FileEntry) (w : World) : Result Unit :=
  match w.openForWriting path with
  | (.error e, w) => (.error e, w)
  | (.ok _, w) => writeLines path entries w

def forkHeader (id targetCwd sourcePath : String) (env : Env) : SessionHeader :=
  { version := some currentVersion
    id
    timestamp := env.now
    cwd := targetCwd
    parentSession := some sourcePath
    rlmDepth := env.rlmDepth
    git := env.git }

/-- The part of `forkFrom` for a source that has been loaded. -/
def forkLoaded (sourcePath targetCwd sessionDir : String) (sourceEntries : List FileEntry) (env : Env)
    (w : World) : Option (Result Unit) :=
  match createUniqueSessionFileTarget w.existsSync sessionDir env.sessionId with
  | none => some (.error "Unable to create a unique session file", w)
  | some (newSessionId, newSessionFile) =>
    match forkedEntries sourceEntries with
    | none => none
    | some entries =>
      match writeFork newSessionFile
        (.session (forkHeader newSessionId targetCwd sourcePath env) :: entries.map .entry) w with
      | (.error e, w) => some (.error e, w)
      | (.ok _, w) => setSessionFile newSessionFile env w

/-- `none` for a source of an older version, or a loop that never ends. -/
def forkFrom (sourcePath targetCwd sessionDir : String) (env : Env) (files : String → Option Bytes)
    (outcomes : List Outcome) : Option (Result Unit) :=
  let w : World := { sm := .blank targetCwd sessionDir true, files, outcomes }
  match loadEntriesFromFile files sourcePath with
  | [] => some (.error ("Cannot fork: source session file is empty or invalid: " ++ sourcePath), w)
  | f :: fs =>
    match (f :: fs).findSome? header? with
    | none => some (.error ("Cannot fork: source session has no header: " ++ sourcePath), w)
    | some sourceHeader =>
      if sourceHeader.version.getD 1 < currentVersion then none
      else forkLoaded sourcePath targetCwd sessionDir (f :: fs) env w

/-! ## The loop finds the nearest entry that stays -/

/-- An empty id counts as no parent. -/
def truthyId (parentId : Option String) : Option String := parentId.filter fun p => p != ""

theorem parent_eq_truthyId (e : SessionEntry) : e.parent = truthyId e.parentId := by
  unfold SessionEntry.parent truthyId
  cases e.parentId with
  | none => rfl
  | some p => by_cases hp : p = "" <;> simp [hp, Option.filter]

theorem truthyId_some {p : String} (h : p ≠ "") : truthyId (some p) = some p := by
  simp [truthyId, Option.filter, h]

/-- The nearest entry that stays, newest entry first. -/
abbrev liveId : List SessionEntry → String → Option String :=
  live SessionEntry.id SessionEntry.parent SessionEntry.isGitState

/-- What `droppedParent` holds, newest entry first. -/
def droppedIn (es : List SessionEntry) (k : String) : Option (Option String) :=
  (find SessionEntry.id k (es.filter SessionEntry.isGitState)).map SessionEntry.parentId

theorem get?_droppedParent (h : SessionHeader) (es : List SessionEntry) (k : String) :
    (droppedParent (.session h :: es.map .entry)).get? k = droppedIn es.reverse k := by
  simp only [droppedParent, foldl_cons, foldl_map]
  induction es using reverseRecOn with
  | nil => rfl
  | append_singleton es e ih =>
    rw [foldl_append, foldl_cons, foldl_nil, reverse_append, reverse_singleton, singleton_append]
    cases hg : e.isGitState with
    | false =>
      simp only [Bool.false_eq_true, if_false, ih]
      simp [droppedIn, hg]
    | true =>
      simp only [if_true, OrderedMap.get?_set, ih]
      by_cases hk : k = e.id
      · subst hk
        simp [droppedIn, hg, find_cons_self]
      · simp [droppedIn, hg, hk, find_cons_of_ne (Ne.symm hk)]

variable {es : List SessionEntry}

theorem walk_live (hl : Linked SessionEntry.id SessionEntry.parent es)
    (hn : (es.map SessionEntry.id).Nodup) (hne : ∀ e ∈ es, e.id ≠ "") :
    ∀ pid, ∃ n p q, walk (fun o => o.bind (droppedIn es)) n pid = some p ∧ p.getLast? = some q ∧
      truthyId q = (truthyId pid).bind (liveId es) ∧ ∀ x ∈ p, x = pid ∨ ∃ e ∈ es, x = e.parentId := by
  induction es with
  | nil =>
    intro pid
    refine ⟨1, [pid], pid, walk_of_none ?_ 0, rfl, ?_, by simp⟩
    · cases pid <;> rfl
    · cases truthyId pid <;> rfl
  | cons e older ih =>
    obtain ⟨hnew, hold⟩ := nodup_cons.1 hn
    have ih := ih hl.2 hold fun x hx => hne x (mem_cons_of_mem e hx)
    cases hg : e.isGitState with
    | false =>
      intro pid
      obtain ⟨n, p, q, hw, hlast, hq, hmem⟩ := ih pid
      have hdrop : droppedIn (e :: older) = droppedIn older := by
        funext k
        simp [droppedIn, hg]
      refine ⟨n, p, q, by rw [hdrop]; exact hw, hlast, ?_, fun x hx => ?_⟩
      · rw [hq]
        congr 1
        funext k
        exact (live_cons_of_stays hg older k).symm
      · obtain h | ⟨y, hy, h⟩ := hmem x hx
        · exact .inl h
        · exact .inr ⟨y, mem_cons_of_mem e hy, h⟩
    | true =>
      -- nothing older names the entry as its parent, so the walk from elsewhere does not meet it
      have hparent : ∀ x ∈ e :: older, x.parentId ≠ some e.id := by
        intro x hx hp
        have hp' : x.parent = some e.id := by
          rw [parent_eq_truthyId, hp, truthyId_some (hne e (by simp))]
        obtain ⟨y, hy, hk⟩ : ∃ y ∈ older, y.id = e.id := by
          cases mem_cons.1 hx with
          | inl he => exact hl.1 _ (he ▸ hp')
          | inr hx => exact parent_mem_of_linked hl.2 hx hp'
        exact hnew (hk ▸ mem_map_of_mem hy)
      have helse : ∀ pid, pid ≠ some e.id → ∃ n p q,
          walk (fun o => o.bind (droppedIn (e :: older))) n pid = some p ∧ p.getLast? = some q ∧
            truthyId q = (truthyId pid).bind (liveId older) ∧
            ∀ x ∈ p, x = pid ∨ ∃ y ∈ e :: older, x = y.parentId := by
        intro pid hpid
        obtain ⟨n, p, q, hw, hlast, hq, hmem⟩ := ih pid
        refine ⟨n, p, q, walk_congr hw fun x hx => ?_, hlast, hq, fun x hx => ?_⟩
        · have hx' : x ≠ some e.id := by
            obtain h | ⟨y, hy, h⟩ := hmem x hx
            · rw [h]
              exact hpid
            · rw [h]
              exact hparent y (mem_cons_of_mem e hy)
          cases x with
          | none => rfl
          | some k =>
            have hk : e.id ≠ k := fun heq => hx' (by rw [heq])
            simp [droppedIn, hg, find_cons_of_ne hk]
        · obtain h | ⟨y, hy, h⟩ := hmem x hx
          · exact .inl h
          · exact .inr ⟨y, mem_cons_of_mem e hy, h⟩
      intro pid
      by_cases hpid : pid = some e.id
      · obtain ⟨n, p, q, hw, hlast, hq, hmem⟩ := helse e.parentId (hparent e (by simp))
        refine ⟨n + 1, pid :: p, q, ?_, ?_, ?_, ?_⟩
        · have hstep : pid.bind (droppedIn (e :: older)) = some e.parentId := by
            simp [hpid, droppedIn, hg, find_cons_self]
          rw [walk_of_some hstep, hw]
          rfl
        · obtain ⟨r, rfl⟩ := walk_head hw
          simpa using hlast
        · rw [hq, hpid, truthyId_some (hne e (by simp)), Option.bind_some, liveId,
            live_cons_of_gone rfl hg, parent_eq_truthyId]
        · intro x hx
          cases mem_cons.1 hx with
          | inl h => exact .inl h
          | inr hx =>
            obtain h | h := hmem x hx
            · exact .inr ⟨e, by simp, h⟩
            · exact .inr h
      · obtain ⟨n, p, q, hw, hlast, hq, hmem⟩ := helse pid hpid
        refine ⟨n, p, q, hw, hlast, ?_, hmem⟩
        rw [hq]
        cases ht : truthyId pid with
        | none => rfl
        | some k =>
          have hk : e.id ≠ k := by
            intro heq
            rw [truthyId, Option.filter_eq_some_iff] at ht
            exact hpid (by rw [ht.1, heq])
          exact (live_cons_of_ne hk older).symm

/-- Distinct ids that are not empty, and every parent an earlier entry; oldest entry first. -/
structure Sound (es : List SessionEntry) : Prop where
  nodup : (es.map SessionEntry.id).Nodup
  linked : Linked SessionEntry.id SessionEntry.parent es.reverse
  ids_ne : ∀ e ∈ es, e.id ≠ ""

theorem WellFormed.sound {sm : SessionManager} (h : WellFormed sm) : Sound sm.entries :=
  ⟨h.nodup, h.linked, h.ids_ne⟩

theorem Sound.nodup_reverse (h : Sound es) : (es.reverse.map SessionEntry.id).Nodup := by
  rw [List.map_reverse, List.nodup_reverse]
  exact h.nodup

section Loop

variable {h : SessionHeader} {es : List SessionEntry}

/-- What the loop looks up for a source. -/
abbrev dropped (h : SessionHeader) (es : List SessionEntry) : OrderedMap String (Option String) :=
  droppedParent (.session h :: es.map .entry)

theorem liveParent_spec (hs : Sound es) (pid : Option String) : ∃ q, liveParent (dropped h es) pid = some q ∧
      truthyId q = (truthyId pid).bind (liveId es.reverse) := by
  obtain ⟨n, p, q, hw, hlast, hq, _⟩ := walk_live hs.linked hs.nodup_reverse
    (fun e he => hs.ids_ne e (mem_reverse.1 he)) pid
  have hnext : nextLive (dropped h es) = fun o => o.bind (droppedIn es.reverse) := by
    funext o
    cases o with
    | none => rfl
    | some k => exact get?_droppedParent h es k
  rw [← hnext] at hw
  -- the values the walk can meet: where it starts, and what the map holds
  have hclosed : ∀ a ∈ pid :: (dropped h es).entries.map Prod.snd, ∀ b,
      nextLive (dropped h es) a = some b → b ∈ pid :: (dropped h es).entries.map Prod.snd := by
    intro a _ b hb
    obtain ⟨k, _, hk⟩ := Option.bind_eq_some_iff.1 hb
    exact mem_cons_of_mem _ (OrderedMap.mem_values_of_lookup hk)
  have hfuel := walk_of_closed hclosed (by simp) hw
  have hlen : (pid :: (dropped h es).entries.map Prod.snd).length = (dropped h es).size + 1 := by
    simp [OrderedMap.size]
  rw [hlen] at hfuel
  exact ⟨q, by rw [liveParent, hfuel]; exact hlast, hq⟩

/-- An entry as the fork has it. -/
def relinked (dropped : OrderedMap String (Option String)) (e : SessionEntry) : SessionEntry :=
  { e with parentId := (liveParent dropped e.parentId).getD none }

theorem forkedEntry_eq (hs : Sound es) (e : SessionEntry) :
    forkedEntry (dropped h es) e = some (relinked (dropped h es) e) := by
  obtain ⟨q, hq, _⟩ := @liveParent_spec h es hs e.parentId
  simp [forkedEntry, relinked, hq]

theorem parent_relinked (hs : Sound es) (e : SessionEntry) :
    (relinked (dropped h es) e).parent = e.parent.bind (liveId es.reverse) := by
  obtain ⟨q, hq, hlive⟩ := @liveParent_spec h es hs e.parentId
  rw [parent_eq_truthyId, parent_eq_truthyId, ← hlive]
  simp [relinked, hq]

/-- The entries of the fork, oldest first. -/
def forkOf (h : SessionHeader) (es : List SessionEntry) : List SessionEntry :=
  (es.filter fun e => !e.isGitState).map (relinked (dropped h es))

theorem forkedEntries_eq (hs : Sound es) : forkedEntries (.session h :: es.map .entry) = some (forkOf h es) := by
  have hent : (session h :: es.map entry).filterMap entry? = es := by
    show (es.map entry).filterMap entry? = es
    rw [filterMap_map]
    exact filterMap_some
  have hf : forkedEntry (dropped h es) = fun e => some (relinked (dropped h es) e) := by
    funext e
    exact forkedEntry_eq hs e
  rw [forkedEntries, hent, hf]
  exact mapM_pure

theorem forkOf_reverse (h : SessionHeader) (es : List SessionEntry) :
    (forkOf h es).reverse = (es.reverse.filter fun e => !e.isGitState).map (relinked (dropped h es)) := by
  rw [forkOf, ← List.map_reverse, filter_reverse]

theorem sound_forkOf (hs : Sound es) : Sound (forkOf h es) := by
  refine ⟨?_, ?_, ?_⟩
  · rw [forkOf, map_map]
    exact hs.nodup.sublist (filter_sublist.map SessionEntry.id)
  · rw [forkOf_reverse]
    exact linked_relinked (f := relinked (dropped h es)) (fun _ => rfl) hs.linked hs.nodup_reverse
      fun x _ => parent_relinked hs x
  · intro e he
    obtain ⟨x, hx, rfl⟩ := mem_map.1 he
    exact hs.ids_ne x (mem_filter.1 hx).1

/-- **The paths of the fork** are those of the source without their `git_state` entries. -/
theorem branchOf_forked (hs : Sound es) {e : SessionEntry} (he : e ∈ es) (hg : e.isGitState = false) :
    branchOf (forkOf h es) e.id =
      ((branchOf es e.id).filter fun x => !x.isGitState).map (relinked (dropped h es)) := by
  have hlive : liveId es.reverse e.id = some e.id := live_of_stays hs.nodup_reverse (mem_reverse.2 he) hg
  have hclimb := climb_relinked (f := relinked (dropped h es)) (fun _ => rfl) hs.linked
    hs.nodup_reverse (fun x _ => parent_relinked hs x) e.id
  rw [show live SessionEntry.id SessionEntry.parent SessionEntry.isGitState es.reverse e.id =
    some e.id from hlive] at hclimb
  rw [branchOf, forkOf_reverse]
  rw [show climb SessionEntry.id SessionEntry.parent e.id
      ((es.reverse.filter fun e => !e.isGitState).map (relinked (dropped h es))) = _ from hclimb,
    ← List.map_reverse, ← filter_reverse, branchOf]

end Loop

/-! ## What a path loses with its `git_state` entries -/

theorem message_of_isGitState {e : SessionEntry} (h : e.isGitState = true) :
    messageOf e = none ∧ e.compaction? = none := by
  unfold SessionEntry.isGitState at h
  split at h
  · rename_i hb
    simp [messageOf, SessionEntry.compaction?, hb]
  · cases h

theorem filterMap_of_filter {α β : Type} {q : α → Bool} {f : α → Option β} {l : List α}
    (h : ∀ a ∈ l, q a = false → f a = none) : (l.filter q).filterMap f = l.filterMap f := by
  rw [filterMap_filter]
  refine filterMap_congr fun a ha => ?_
  cases hq : q a with
  | true => rfl
  | false => simp [h a ha hq]

theorem dropWhile_filter {α : Type} {p q : α → Bool} {l : List α} (h : ∀ a ∈ l, p a = false → q a = true) :
    (l.filter q).dropWhile p = (l.dropWhile p).filter q := by
  induction l with
  | nil => rfl
  | cons a l ih =>
    have ih := ih fun b hb => h b (mem_cons_of_mem a hb)
    cases hp : p a with
    | true =>
      cases hq : q a <;> simp [hp, hq, ih]
    | false =>
      simp [hp, h a (by simp) hp]

/-- The last compaction of a path keeps its messages from an entry on that stays, or keeps none. -/
def FirstKeptStays (path : List SessionEntry) : Prop :=
  ∀ pre entry c post, path = pre ++ entry :: post → entry.compaction? = some c →
    (∀ e ∈ post, e.compaction? = none) →
    (∃ g ∈ pre, g.isGitState = true ∧ g.id = c.firstKeptEntryId) → keptBefore c pre = []

theorem keptBefore_filter {c : Compaction} {pre : List SessionEntry}
    (h : ∀ g ∈ pre, g.isGitState = true → g.id ≠ c.firstKeptEntryId) :
    keptBefore c (pre.filter fun e => !e.isGitState) = keptBefore c pre := by
  have hkept : ∀ e ∈ pre, (e.id != c.firstKeptEntryId) = false → (!e.isGitState) = true := by
    intro e he hid
    cases hg : e.isGitState with
    | false => rfl
    | true => exact absurd (by simpa using hid) (h e he hg)
  rw [keptBefore, dropWhile_filter hkept, filterMap_of_filter]
  · rfl
  · intro e _ hg
    exact (message_of_isGitState (by simpa using hg)).1

/-- Once the entry a compaction names is dropped, it keeps nothing. -/
theorem keptBefore_filter_of_gone {c : Compaction} {pre : List SessionEntry}
    (hn : (pre.map SessionEntry.id).Nodup) {g : SessionEntry} (hg : g ∈ pre) (hgit : g.isGitState = true)
    (hid : g.id = c.firstKeptEntryId) : keptBefore c (pre.filter fun e => !e.isGitState) = [] := by
  have hall : ∀ e ∈ pre.filter fun e => !e.isGitState, (e.id != c.firstKeptEntryId) = true := by
    intro e he
    obtain ⟨hmem, hstay⟩ := mem_filter.1 he
    rw [bne_iff_ne]
    intro heq
    have := inj_on_of_nodup_map hn hmem hg (heq.trans hid.symm)
    simp [this, hgit] at hstay
  rw [keptBefore, dropWhile_eq_nil_iff.2 hall]
  rfl

theorem messages_filter_iff {path : List SessionEntry} (hn : (path.map SessionEntry.id).Nodup) :
    (contextOfPath (path.filter fun e => !e.isGitState)).messages = (contextOfPath path).messages ↔
      FirstKeptStays path := by
  rcases exists_last_compaction path with hno | ⟨pre, entry, c, post, rfl, hc, hpost⟩
  · refine iff_of_true ?_ ?_
    · rw [messages_of_no_compaction hno, messages_of_no_compaction fun e he => hno e (mem_filter.1 he).1,
        filterMap_of_filter fun e _ hg => (message_of_isGitState (by simpa using hg)).1]
    · intro pre entry c post hp hc
      have := hno entry (by rw [hp]; simp)
      rw [this] at hc
      cases hc
  · have hentry : entry.isGitState = false := by
      cases hg : entry.isGitState with
      | false => rfl
      | true => rw [(message_of_isGitState hg).2] at hc; cases hc
    rw [map_append, nodup_append] at hn
    have hpre : ∀ e ∈ pre, e.id ≠ entry.id := fun e he heq =>
      hn.2.2 _ (mem_map_of_mem he) entry.id (by simp) heq
    have hfil : (pre ++ entry :: post).filter (fun e => !e.isGitState) =
        pre.filter (fun e => !e.isGitState) ++ entry :: post.filter fun e => !e.isGitState := by
      simp [hentry]
    have hrest : (post.filter fun e => !e.isGitState).filterMap messageOf = post.filterMap messageOf :=
      filterMap_of_filter fun e _ hg => (message_of_isGitState (by simpa using hg)).1
    rw [hfil, messages_of_compaction hc (fun e he => hpre e (mem_filter.1 he).1)
      fun e he => hpost e (mem_filter.1 he).1, messages_of_compaction hc hpre hpost, hrest]
    have hsame : (summaryMessage entry c (keptBefore c (pre.filter fun e => !e.isGitState)).length ::
          (keptBefore c (pre.filter fun e => !e.isGitState) ++ post.filterMap messageOf) =
        summaryMessage entry c (keptBefore c pre).length ::
          (keptBefore c pre ++ post.filterMap messageOf)) ↔
        keptBefore c (pre.filter fun e => !e.isGitState) = keptBefore c pre := by
      constructor
      · intro heq
        exact append_cancel_right (List.cons.inj heq).2
      · intro heq
        rw [heq]
    rw [hsame]
    constructor
    · intro heq pre' entry' c' post' hp' hc' hpost' hg
      obtain ⟨rfl, rfl, rfl⟩ : pre' = pre ∧ entry' = entry ∧ post' = post :=
        last_compaction_unique hp'.symm (by simp [hc']) hpost' (by simp [hc]) hpost
      obtain rfl : c' = c := Option.some.inj (hc'.symm.trans hc)
      obtain ⟨g, hmem, hgit, hid⟩ := hg
      rw [← heq, keptBefore_filter_of_gone hn.1 hmem hgit hid]
    · intro hstay
      by_cases hg : ∃ g ∈ pre, g.isGitState = true ∧ g.id = c.firstKeptEntryId
      · rw [hstay pre entry c post rfl hc hpost hg]
        obtain ⟨g, hmem, hgit, hid⟩ := hg
        exact keptBefore_filter_of_gone hn.1 hmem hgit hid
      · exact keptBefore_filter fun g hmem hgit hid => hg ⟨g, hmem, hgit, hid⟩

/-! ## Paths and leaves -/

/-- The path to the last of the entries. -/
def leafPath (es : List SessionEntry) : List SessionEntry :=
  match es.getLast? with
  | none => []
  | some e => branchOf es e.id

/-- The path to the last entry that the fork keeps. -/
def keptLeafPath (es : List SessionEntry) : List SessionEntry :=
  match (es.filter fun e => !e.isGitState).getLast? with
  | none => []
  | some e => branchOf es e.id

/-- The last entry that the fork keeps is the nearest one to the leaf. -/
def LeafStays (es : List SessionEntry) : Prop :=
  ∀ leaf ∈ es.getLast?,
    liveId es.reverse leaf.id = (es.filter fun e => !e.isGitState).getLast?.map SessionEntry.id

/-- The messages of `buildSessionContext(entries)`, which starts at the last entry. -/
def messagesAtLeaf (entries : List FileEntry) : Option (List AgentMessage) :=
  (buildSessionContext entries .undefined (indexById (entries.filterMap entry?))).map
    messages

section Leaves

variable {h : SessionHeader} {es : List SessionEntry}

theorem Sound.ordered (hs : Sound es) : Ordered es := backward_of_linked hs.linked hs.nodup_reverse

theorem Sound.nodup_branchOf (hs : Sound es) (k : String) : ((branchOf es k).map SessionEntry.id).Nodup := by
  rw [branchOf, List.map_reverse, List.nodup_reverse]
  exact hs.nodup_reverse.sublist ((climb_sublist es.reverse k).map SessionEntry.id)

theorem pathTo_last (hs : Sound es) {e : SessionEntry} (he : e ∈ es) :
    pathTo (indexById es) e = some (branchOf es e.id) :=
  pathTo_indexById hs.ordered (get?_indexById_of_mem hs.nodup he)

theorem Sound.nodup_keptLeafPath (hs : Sound es) : ((keptLeafPath es).map SessionEntry.id).Nodup := by
  unfold keptLeafPath
  split
  · exact nodup_nil
  · exact hs.nodup_branchOf _

theorem messagesAtLeaf_eq (hs : Sound es) :
    messagesAtLeaf (.session h :: es.map .entry) = some (contextOfPath (leafPath es)).messages := by
  have hent : (session h :: es.map entry).filterMap entry? = es := by
    show (es.map entry).filterMap entry? = es
    rw [filterMap_map]
    exact filterMap_some
  have hlast : (session h :: es.map entry).getLast?.bind entry? = es.getLast? := by
    cases es using reverseRecOn with
    | nil => rfl
    | append_singleton es e =>
      rw [map_append, map_singleton, ← cons_append, getLast?_concat, getLast?_concat]
      rfl
  rw [messagesAtLeaf, buildSessionContext, hent, leafPath]
  simp only [hlast]
  cases hl : es.getLast? with
  | none => rfl
  | some e => simp only [pathTo_last hs (mem_of_getLast? hl), Option.map_some]

theorem inert_of_isGitState {e : SessionEntry} (hg : e.isGitState = true) : Inert e := by
  unfold SessionEntry.isGitState at hg
  split at hg
  · rename_i hb
    constructor <;>
      simp [SessionEntry.compaction?, messageOf, thinkingLevelOf?, serviceTierOf?, modelOf?, hb]
  · cases hg

/-- A leaf that is dropped carries nothing, nor does what is dropped before it. -/
theorem context_keptLeafPath (hs : Sound es) (hleaf : LeafStays es) :
    contextOfPath (leafPath es) = contextOfPath (keptLeafPath es) := by
  cases hl : es.getLast? with
  | none =>
    have hnil : es = [] := getLast?_eq_none_iff.1 hl
    subst hnil
    rfl
  | some leaf =>
    have hmem : leaf ∈ es := mem_of_getLast? hl
    have hlive := hleaf leaf hl
    obtain ⟨g, hclimb, hall⟩ := @climb_live _ _ _ _ _ _ SessionEntry.isGitState hs.linked
      hs.nodup_reverse leaf.id (by simpa using mem_map_of_mem hmem)
    have hkept : keptLeafPath es =
        (climbFrom SessionEntry.id SessionEntry.parent (liveId es.reverse leaf.id) es.reverse).reverse := by
      rw [hlive, keptLeafPath]
      cases (es.filter fun e => !e.isGitState).getLast? <;> rfl
    have hpath : leafPath es = keptLeafPath es ++ g.reverse := by
      rw [leafPath, hl]
      show branchOf es leaf.id = _
      rw [branchOf, hclimb, reverse_append, hkept]
    have hn := hs.nodup_branchOf leaf.id
    have hpath' : branchOf es leaf.id = keptLeafPath es ++ g.reverse := by
      rw [← hpath, leafPath, hl]
    rw [hpath, contextOfPath_append_inert (hpath' ▸ hn)]
    exact fun e he => inert_of_isGitState (hall e (mem_reverse.1 he))

theorem leafPath_forkOf (hs : Sound es) : leafPath (forkOf h es) =
      ((keptLeafPath es).filter fun x => !x.isGitState).map (relinked (dropped h es)) := by
  rw [leafPath, keptLeafPath, forkOf, getLast?_map]
  cases hl : (es.filter fun e => !e.isGitState).getLast? with
  | none => rfl
  | some e =>
    obtain ⟨hmem, hg⟩ := mem_filter.1 (mem_of_getLast? hl)
    exact @branchOf_forked h es hs e hmem (by simpa using hg)

theorem messages_relinked (d : OrderedMap String (Option String)) {path : List SessionEntry}
    (hn : (path.map SessionEntry.id).Nodup) :
    (contextOfPath (path.map (relinked d))).messages = (contextOfPath path).messages := by
  have hmsg : ∀ l : List SessionEntry, (l.map (relinked d)).filterMap messageOf = l.filterMap messageOf := by
    intro l
    rw [filterMap_map]
    rfl
  have hno : ∀ l : List SessionEntry, (∀ e ∈ l, e.compaction? = none) →
      ∀ e ∈ l.map (relinked d), e.compaction? = none := by
    intro l hl e he
    obtain ⟨x, hx, rfl⟩ := mem_map.1 he
    exact hl x hx
  rcases exists_last_compaction path with hnone | ⟨pre, entry, c, post, rfl, hc, hpost⟩
  · rw [messages_of_no_compaction hnone, messages_of_no_compaction (hno path hnone), hmsg]
  · rw [map_append, nodup_append] at hn
    have hpre : ∀ e ∈ pre, e.id ≠ entry.id := fun e he heq =>
      hn.2.2 _ (mem_map_of_mem he) entry.id (by simp) heq
    have hpre' : ∀ e ∈ pre.map (relinked d), e.id ≠ (relinked d entry).id := by
      intro e he
      obtain ⟨x, hx, rfl⟩ := mem_map.1 he
      exact hpre x hx
    have hkept : keptBefore c (pre.map (relinked d)) = keptBefore c pre := by
      rw [keptBefore, dropWhile_map, hmsg]
      rfl
    have hc' : (relinked d entry).compaction? = some c := hc
    rw [map_append, map_cons, messages_of_compaction hc' hpre' (hno post hpost),
      messages_of_compaction hc hpre hpost, hkept, hmsg]
    rfl

end Leaves

/-! ## The written file -/

/-- The memory of a manager that has loaded a header and entries. -/
def memoryOf (h : SessionHeader) (es : List SessionEntry) : SessionManager :=
  ({ SessionManager.blank "" "" true with
      fileEntries := .session h :: es.map .entry } : SessionManager).refreshHasAssistantEntry.buildIndex

theorem memoryOf_eq (h : SessionHeader) (es : List SessionEntry) :
    (memoryOf h es).getHeader = some h ∧ (memoryOf h es).entries = es :=
  getHeader_of_files rfl

theorem wellFormed_memoryOf (h : SessionHeader) (hs : Sound es) :
    WellFormed (memoryOf h es) := by
  obtain ⟨_, he⟩ := memoryOf_eq h es
  refine ⟨⟨h, by rw [he]; rfl⟩, ?_, by rw [he]; exact hs.nodup, by rw [he]; exact hs.linked,
    by rw [he]; exact hs.ids_ne, ?_, rfl⟩
  · rw [he]
    have hidx := buildIndex_byId ({ SessionManager.blank "" "" true with
      fileEntries := .session h :: es.map .entry } : SessionManager).refreshHasAssistantEntry
    rw [(getHeader_of_files rfl).2] at hidx
    exact hidx
  · intro l hl
    have hleaf := buildIndex_leafId ({ SessionManager.blank "" "" true with
      fileEntries := .session h :: es.map .entry } : SessionManager).refreshHasAssistantEntry
    rw [(getHeader_of_files rfl).2] at hleaf
    have hl' : es.getLast?.map SessionEntry.id = some l := hleaf.symm.trans hl
    obtain ⟨e, hlast, rfl⟩ := Option.map_eq_some_iff.1 hl'
    rw [he]
    exact mem_map_of_mem (mem_of_getLast? hlast)

theorem attributed_parentId (t : String) (u : Usage) (e : SessionEntry) (p : Option String) :
    attributed t u { e with parentId := p } = { attributed t u e with parentId := p } := by
  unfold attributed
  split
  · obtain ⟨id, parentId, timestamp, body⟩ := e
    cases body with
    | message m => cases m <;> rfl
    | _ => rfl
  · rfl

theorem attributedBy_relinked (d : OrderedMap String (Option String)) (as : List ChildUsageAttribution)
    (e : SessionEntry) : attributedBy as (relinked d e) = { attributedBy as e with
      parentId := (liveParent d e.parentId).getD none } := by
  unfold relinked
  generalize (liveParent d e.parentId).getD none = p
  induction as generalizing e with
  | nil => rfl
  | cons a as ih => rw [attributedBy_cons, attributedBy_cons, attributed_parentId, ih]

theorem settle_forkOf (h : SessionHeader) (hset : settle es = es) :
    settle (forkOf h es) = forkOf h es := by
  have hatt : attributions (forkOf h es) = attributions es := by
    rw [attributions, forkOf, filterMap_map]
    show (es.filter fun e => !e.isGitState).filterMap SessionEntry.attribution? = _
    rw [filterMap_of_filter, attributions]
    intro e _ hg
    have hg' : e.isGitState = true := by simpa using hg
    unfold SessionEntry.isGitState at hg'
    split at hg'
    · rename_i hb
      simp [SessionEntry.attribution?, hb]
    · cases hg'
  rw [settle, hatt]
  refine (map_congr_left fun x hx => ?_).trans (map_id' _)
  obtain ⟨e, he, rfl⟩ := mem_map.1 hx
  have hfix : attributedBy (attributions es) e = e :=
    map_eq_map_iff.1 (hset.trans (map_id' es).symm) e (mem_filter.1 he).1
  rw [attributedBy_relinked, hfix]
  rfl

theorem holds_memoryOf (h : SessionHeader) (hset : settle es = es) :
    Holds (contentOf (.session h :: es.map .entry)) (memoryOf h es) :=
  ⟨h, es, (memoryOf_eq h es).1, rfl, by rw [(memoryOf_eq h es).2, hset]⟩

theorem writeLines_ok {path : String} {entries : List FileEntry} :
    ∀ {w w' : World} {old : Bytes}, w.files path = some old → writeLines path entries w = (.ok (), w') →
      w'.files path = some (old ++ (entries.map lineOf).flatMap fun line => line ++ [10]) := by
  induction entries with
  | nil =>
    intro w w' old hold hw
    cases hw
    simpa using hold
  | cons f fs ih =>
    intro w w' old hold hw
    rw [writeLines] at hw
    split at hw
    · cases hw
    · rename_i w₁ ha
      have hfile : w₁.files path = some (old ++ (lineOf f ++ [10])) := by
        simp only [World.appendFile, hold, Option.getD_some] at ha
        split at ha
        · cases ha
          exact put_files _ _ _
        · cases ha
      rw [ih hfile hw]
      simp

theorem writeFork_ok {path : String} {entries : List FileEntry} (hne : entries ≠ []) {w w' : World}
    (hw : writeFork path entries w = (.ok (), w')) : w'.files path = some (contentOf entries) := by
  unfold writeFork at hw
  split at hw
  · cases hw
  · rename_i w₁ hopen
    have hfile : w₁.files path = some [] := by
      unfold World.openForWriting at hopen
      split at hopen
      · cases hopen
        exact put_files _ _ _
      · cases hopen
    rw [writeLines_ok hfile hw, contentOf_eq hne]
    rfl

theorem readBack_forkLoaded {sourcePath targetCwd sessionDir : String} {h : SessionHeader}
    (hs : Sound es) (hset : settle es = es) {env : Env} {w w' : World}
    (hf : forkLoaded sourcePath targetCwd sessionDir (.session h :: es.map .entry) env w = some (.ok (), w')) :
    ∃ header, ReadBack env (memoryOf header (forkOf h es)) w'.sm := by
  unfold forkLoaded at hf
  split at hf
  · cases hf
  · rename_i newSessionId newSessionFile _
    simp only [forkedEntries_eq hs] at hf
    split at hf
    · cases hf
    · rename_i w₁ hw₁
      exact ⟨_, readBack_of_holds (holds_memoryOf _ (settle_forkOf h hset))
        (wellFormed_memoryOf _ (sound_forkOf hs)) ⟨_, (memoryOf_eq _ _).1, rfl⟩
        (writeFork_ok (cons_ne_nil _ _) hw₁) hf⟩

theorem messages_of_readBack {env : Env} {header : SessionHeader}
    (hs : Sound es) {sm : SessionManager} (hr : ReadBack env (memoryOf header es) sm) :
    sm.buildSessionContext.map messages = some (contextOfPath (leafPath es)).messages := by
  obtain ⟨hh, he⟩ := memoryOf_eq header es
  have hw := wellFormed_memoryOf header hs
  have hleaf := hr.leaf
  rw [he] at hleaf
  rw [SessionManager.buildSessionContext, hleaf, hr.byId, hw.index, he, leafPath]
  cases hl : es.getLast? with
  | none => rfl
  | some e =>
    have hmem := mem_of_getLast? hl
    have hne := hs.ids_ne e hmem
    simp only [Option.map_some, buildSessionContext, hne, if_false, get?_indexById_of_mem hs.nodup hmem,
      Option.some_or, pathTo_last hs hmem]

/-- The entries a session file holds. -/
def storedEntries (files : String → Option Bytes) (path : String) : List SessionEntry :=
  (loadEntriesFromFile files path).filterMap entry?

theorem storedEntries_of_load {files : String → Option Bytes} {path : String} {h : SessionHeader}
    (hload : loadEntriesFromFile files path = .session h :: es.map .entry) :
    storedEntries files path = es := by
  rw [storedEntries, hload]
  show (es.map entry).filterMap entry? = es
  rw [filterMap_map]
  exact filterMap_some

theorem forkFrom_eq {files : String → Option Bytes} {path : String} {h : SessionHeader}
    (hload : loadEntriesFromFile files path = .session h :: es.map .entry)
    (hv : h.version = some currentVersion) {targetCwd sessionDir : String} {env : Env} {outcomes : List Outcome} :
    forkFrom path targetCwd sessionDir env files outcomes =
      forkLoaded path targetCwd sessionDir (.session h :: es.map .entry) env
        { sm := .blank targetCwd sessionDir true, files, outcomes } := by
  have hnew : ¬ h.version.getD 1 < currentVersion := by rw [hv]; simp [currentVersion]
  rw [forkFrom, hload]
  simp only [findSome?_cons, header?, if_neg hnew]

theorem load_of_filed {w : World} (hw : ReachableBy AllOk w) (hpersist : w.sm.persist = true)
    {path : String} (hpath : w.sm.sessionFile = some path) (hex : w.existsSync path = true) :
    ∃ h es, loadEntriesFromFile w.files path = .session h :: es.map .entry ∧
      h.version = some currentVersion ∧ Sound es ∧ settle es = es := by
  obtain ⟨bytes, hb⟩ := Option.isSome_iff_exists.1 hex
  obtain ⟨sm, hwf, ⟨h, hh, hv⟩, hset, hheld⟩ := hw.filed hpersist path bytes hpath hb
  exact ⟨h, sm.entries, by rw [hheld.load hwf hb, hwf.fileEntries hh], hv, hwf.sound, hset.fixed⟩

/-- The messages of the fork of a file are those of the path to the last kept entry, without the
dropped ones. -/
theorem messages_forkFrom {w : World} (hw : ReachableBy AllOk w) (hpersist : w.sm.persist = true)
    {path : String} (hpath : w.sm.sessionFile = some path) (hex : w.existsSync path = true)
    {targetCwd sessionDir : String} {env : Env} {outcomes : List Outcome} {w' : World}
    (hf : forkFrom path targetCwd sessionDir env w.files outcomes = some (.ok (), w')) :
    w'.sm.buildSessionContext.map messages =
      some (contextOfPath ((keptLeafPath (storedEntries w.files path)).filter fun x => !x.isGitState)).messages := by
  obtain ⟨h, es, hload, hv, hs, hset⟩ := load_of_filed hw hpersist hpath hex
  have hfork : forkLoaded path targetCwd sessionDir (.session h :: es.map .entry) env
      { sm := .blank targetCwd sessionDir true, files := w.files, outcomes } = some (.ok (), w') := by
    rw [← hf, forkFrom_eq hload hv]
  obtain ⟨header, hr⟩ := readBack_forkLoaded hs hset hfork
  rw [storedEntries_of_load hload, messages_of_readBack (sound_forkOf hs) hr, leafPath_forkOf hs,
    messages_relinked _ ((hs.nodup_keptLeafPath).sublist (filter_sublist.map SessionEntry.id))]

/-- The leaf stays, and the last compaction before it names an entry that stays. -/
def ForkKeeps (es : List SessionEntry) : Prop :=
  LeafStays es ∧ FirstKeptStays (keptLeafPath es)

/-- **For every session file** a run has written: the fork has the messages of its source when `ForkKeeps` holds of
the entries in the file, and where the leaf stays only then. -/
theorem forkFrom_keeps_messages {w : World} (hw : ReachableBy AllOk w) (hpersist : w.sm.persist = true)
    {path : String} (hpath : w.sm.sessionFile = some path) (hex : w.existsSync path = true)
    {targetCwd sessionDir : String} {env : Env} {outcomes : List Outcome} {w' : World}
    (hf : forkFrom path targetCwd sessionDir env w.files outcomes = some (.ok (), w')) :
    (ForkKeeps (storedEntries w.files path) →
      w'.sm.buildSessionContext.map messages = messagesAtLeaf (loadEntriesFromFile w.files path)) ∧
    (LeafStays (storedEntries w.files path) →
      w'.sm.buildSessionContext.map messages = messagesAtLeaf (loadEntriesFromFile w.files path) →
      ForkKeeps (storedEntries w.files path)) := by
  obtain ⟨h, es, hload, hv, hs, hset⟩ := load_of_filed hw hpersist hpath hex
  have hent := storedEntries_of_load hload
  have hiff : LeafStays es → (w'.sm.buildSessionContext.map messages =
      messagesAtLeaf (loadEntriesFromFile w.files path) ↔ FirstKeptStays (keptLeafPath es)) := by
    intro hleaf
    rw [messages_forkFrom hw hpersist hpath hex hf, hload, messagesAtLeaf_eq hs, hent, Option.some.injEq,
      context_keptLeafPath hs hleaf, messages_filter_iff hs.nodup_keptLeafPath]
  rw [hent]
  constructor
  · intro hkeeps
    exact (hiff hkeeps.1).mpr hkeeps.2
  · intro hleaf heq
    exact ⟨hleaf, (hiff hleaf).mp heq⟩

/-! ### A cut on a `git_state` -/

theorem writeLines_of_ok (path : String) (entries : List FileEntry) : ∀ w : World, w.outcomes = [] →
      ∃ w', writeLines path entries w = (.ok (), w') ∧ w'.outcomes = [] := by
  induction entries with
  | nil =>
    intro w ho
    exact ⟨w, rfl, ho⟩
  | cons f fs ih =>
    intro w ho
    have happ : w.appendFile path (lineOf f ++ [10]) =
        (.ok (), w.put path ((w.files path).getD [] ++ (lineOf f ++ [10]))) := by
      simp only [World.appendFile, World.nextOutcome, ho, headD_nil]
    obtain ⟨w', hw', ho'⟩ := ih (w.put path ((w.files path).getD [] ++ (lineOf f ++ [10])))
      (by simp [World.put, ho])
    exact ⟨w', by rw [writeLines, happ]; exact hw', ho'⟩

/-- A fork whose writes succeed succeeds, if one of its hundred session ids is free. -/
theorem forkFrom_succeeds {w : World} (hw : ReachableBy AllOk w) (hpersist : w.sm.persist = true)
    {path : String} (hpath : w.sm.sessionFile = some path) (hex : w.existsSync path = true)
    (targetCwd : String) {sessionDir : String} {env : Env} {target : String × String}
    (htarget : createUniqueSessionFileTarget w.existsSync sessionDir env.sessionId = some target) :
    ∃ w', forkFrom path targetCwd sessionDir env w.files [] = some (.ok (), w') := by
  obtain ⟨h, es, hload, hv, hs, hset⟩ := load_of_filed hw hpersist hpath hex
  obtain ⟨id, file⟩ := target
  have hopen : ∀ w₀ : World, w₀.outcomes = [] → w₀.openForWriting file = (.ok (), w₀.put file []) := by
    intro w₀ ho
    simp only [World.openForWriting, World.nextOutcome, ho, headD_nil]
  let w₀ : World := { sm := .blank targetCwd sessionDir true, files := w.files, outcomes := [] }
  let header := forkHeader id targetCwd path env
  obtain ⟨w₁, hw₁, ho₁⟩ := writeLines_of_ok file (.session header :: (forkOf h es).map .entry)
    (w₀.put file []) rfl
  have hwrite : writeFork file (.session header :: (forkOf h es).map .entry) w₀ = (.ok (), w₁) := by
    rw [writeFork, hopen w₀ rfl]
    exact hw₁
  obtain ⟨w', hset', _⟩ := setSessionFile_of_holds (holds_memoryOf header (settle_forkOf h hset))
    (wellFormed_memoryOf header (sound_forkOf hs)) ⟨header, (memoryOf_eq header _).1, rfl⟩
    (writeFork_ok (cons_ne_nil _ _) hwrite) (by rw [World.nextOutcome, ho₁]; rfl) env
  have htarget' : createUniqueSessionFileTarget w₀.existsSync sessionDir env.sessionId = some (id, file) :=
    htarget
  refine ⟨w', ?_⟩
  rw [forkFrom_eq hload hv, forkLoaded, htarget']
  simp only [forkedEntries_eq hs]
  rw [hwrite]
  exact hset'

/-- The compaction keeps from the index that `findCutPoint` gives, which has moved back over the
`git_state`. -/
def gitCutWorld : World :=
  newWorld.after
    [(.appendMessage (userMessage "one"), .ofChar 'a'),
      (.appendMessage (assistantMessage "two"), .ofChar 'b'),
      (.appendGitState { repoUrl := none, commit := some "0f", branch := none }, .ofChar 'c'),
      (.appendMessage (userMessage "three"), .ofChar 'd'),
      (.appendCompaction
        { summary := "summary", firstKeptEntryId := "cccccccc", tokensBefore := 3, details := none
          fromHook := none, customInstructions := none, usage := none, harnessDigest := none
          harnessStateFingerprint := none }, .ofChar 'e')]

theorem reachable_gitCutWorld : ReachableBy AllOk gitCutWorld :=
  reachable_newWorld.after (fun _ _ _ o ho => absurd ho not_mem_nil) (by decide)

theorem fork_gitCutWorld : ∃ w', forkFrom "/sessions/0.jsonl" "/other" "/forks" (.ofChar '1')
    gitCutWorld.files [] = some (.ok (), w') :=
  @forkFrom_succeeds _ reachable_gitCutWorld (by decide) "/sessions/0.jsonl"
    (by decide) (by decide) "/other" "/forks" (.ofChar '1') ("1", "/forks/1.jsonl")
    (by decide)

theorem forkFrom_keeps_messages_gitCutWorld :
    ∃ w', forkFrom "/sessions/0.jsonl" "/other" "/forks" (.ofChar '1') gitCutWorld.files [] = some (.ok (), w') ∧
      (ForkKeeps (storedEntries gitCutWorld.files "/sessions/0.jsonl") →
        w'.sm.buildSessionContext.map messages =
          messagesAtLeaf (loadEntriesFromFile gitCutWorld.files "/sessions/0.jsonl")) ∧
      (LeafStays (storedEntries gitCutWorld.files "/sessions/0.jsonl") →
        w'.sm.buildSessionContext.map messages =
          messagesAtLeaf (loadEntriesFromFile gitCutWorld.files "/sessions/0.jsonl") →
        ForkKeeps (storedEntries gitCutWorld.files "/sessions/0.jsonl")) := by
  obtain ⟨w', hw'⟩ := fork_gitCutWorld
  exact ⟨w', hw', forkFrom_keeps_messages reachable_gitCutWorld (by decide)
    (by decide) (by decide) hw'⟩

theorem load_gitCutWorld :
    loadEntriesFromFile gitCutWorld.files "/sessions/0.jsonl" = gitCutWorld.sm.fileEntries := by
  have hreach : ReachableBy Untorn gitCutWorld := reachable_gitCutWorld.mono fun _ _ _ => AllOk.untorn
  have hex : (gitCutWorld.files "/sessions/0.jsonl").isSome = true := by decide
  obtain ⟨bytes, hb⟩ := Option.isSome_iff_exists.1 hex
  exact (hreach.reads_own (by decide) (by decide) (by decide) hb).1

/-- The message behind the `git_state` is retained in the source only. -/
theorem forkFrom_loses_message : ReachableBy AllOk gitCutWorld ∧
      (gitCutWorld.sm.entries[(Compact.findCutPoint (gitCutWorld.sm.entries.take 4) 0 4 1).firstKeptEntryIndex]?).map
        SessionEntry.id = some "cccccccc" ∧
      ∃ w', forkFrom "/sessions/0.jsonl" "/other" "/forks" (.ofChar '1') gitCutWorld.files [] = some (.ok (), w') ∧
        w'.sm.buildSessionContext.map messages ≠
          messagesAtLeaf (loadEntriesFromFile gitCutWorld.files "/sessions/0.jsonl") := by
  obtain ⟨w', hw'⟩ := fork_gitCutWorld
  refine ⟨reachable_gitCutWorld, by decide, w', hw', ?_⟩
  rw [messages_forkFrom reachable_gitCutWorld (by decide) (by decide)
    (by decide) hw', storedEntries, load_gitCutWorld]
  intro heq
  have hlen := congrArg (fun ms => ms.map List.length) heq
  revert hlen
  decide

end Session
end RePrime
