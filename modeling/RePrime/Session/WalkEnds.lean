import RePrime.Session.Fork

/-!
# RePrime.Session.WalkEnds

Whether the walks along parent links end. None of the three loops looks for an entry it has passed:
`buildSessionContext` and `getBranch` follow the index, `forkFrom` the dropped `git_state` entries.

* `pathTo_isSome_iff`, `liveParent_isSome_iff`: a loop ends when no record it meets leads back to
  itself.
* `walks_end_iff`: so for every list of entries, however its parents point.
* `walks_never_end`: a file with an entry that is its own parent.
-/

namespace RePrime
namespace Session

open ParentChain

theorem pathTo_isSome_iff (byId : Index) (leaf : SessionEntry) :
    (pathTo byId leaf).isSome = true ↔ Acyclic (parentEntry byId) leaf := by
  rw [pathTo, Option.isSome_map, ← length_reachable byId leaf]
  exact walk_isSome_iff reachable_closed (by simp [reachable])

theorem getBranch_isSome_iff (sm : SessionManager) (fromId : String) : (getBranch sm fromId).isSome = true ↔
      ∀ leaf, sm.byId.get? fromId = some leaf → Acyclic (parentEntry sm.byId) leaf := by
  unfold getBranch
  cases hleaf : sm.byId.get? fromId with
  | none => simp
  | some leaf => simp [pathTo_isSome_iff]

/-- The entry `buildSessionContext` walks from. -/
def contextLeaf (entries : List FileEntry) (leafId : LeafArg) (byId : Index) : Option SessionEntry :=
  let fallback := entries.getLast?.bind FileEntry.entry?
  match leafId with
  | .null => none
  | .undefined => fallback
  | .id leafId => if leafId = "" then fallback else (byId.get? leafId).or fallback

theorem buildSessionContext_isSome_iff (entries : List FileEntry) (leafId : LeafArg) (byId : Index) :
    (buildSessionContext entries leafId byId).isSome = true ↔
      ∀ leaf, contextLeaf entries leafId byId = some leaf → Acyclic (parentEntry byId) leaf := by
  unfold buildSessionContext
  dsimp only
  split
  · rename_i hnone
    have hleaf : contextLeaf entries leafId byId = none := hnone
    simp [hleaf]
  · rename_i leaf hsome
    have hleaf : contextLeaf entries leafId byId = some leaf := hsome
    simp [hleaf, pathTo_isSome_iff]

/-! ## The live parent -/

theorem nextLive_closed {dropped : OrderedMap String (Option String)} {parentId : Option String} :
    ∀ a ∈ parentId :: dropped.entries.map Prod.snd, ∀ b, nextLive dropped a = some b →
      b ∈ parentId :: dropped.entries.map Prod.snd := by
  intro a _ b hb
  obtain ⟨k, _, hk⟩ := Option.bind_eq_some_iff.1 hb
  exact List.mem_cons_of_mem _ (OrderedMap.mem_values_of_lookup hk)

theorem liveParent_isSome_iff (dropped : OrderedMap String (Option String)) (parentId : Option String) :
    (liveParent dropped parentId).isSome = true ↔ Acyclic (nextLive dropped) parentId := by
  have hwalk := walk_isSome_iff (@nextLive_closed dropped parentId) List.mem_cons_self
  have hsize : (parentId :: dropped.entries.map Prod.snd).length = dropped.size + 1 := by
    simp [OrderedMap.size]
  rw [hsize] at hwalk
  rw [← hwalk, liveParent]
  cases hp : walk (nextLive dropped) (dropped.size + 1) parentId with
  | none => simp
  | some p =>
    obtain ⟨q, rfl⟩ := walk_head hp
    simp

theorem mapM_isSome_iff {α β : Type} (f : α → Option β) (l : List α) :
    (l.mapM f).isSome = true ↔ ∀ a ∈ l, (f a).isSome = true := by
  induction l with
  | nil => simp
  | cons a l ih =>
    rw [List.forall_mem_cons, ← ih, List.mapM_cons]
    cases f a with
    | none => simp
    | some b => cases l.mapM f <;> simp

theorem forkedEntries_isSome_iff (sourceEntries : List FileEntry) : (forkedEntries sourceEntries).isSome = true ↔
      ∀ e, .entry e ∈ sourceEntries → e.isGitState = false →
        Acyclic (nextLive (droppedParent sourceEntries)) e.parentId := by
  rw [forkedEntries, mapM_isSome_iff]
  have hentry : ∀ e, (forkedEntry (droppedParent sourceEntries) e).isSome = true ↔
      Acyclic (nextLive (droppedParent sourceEntries)) e.parentId := by
    intro e
    rw [forkedEntry, Option.isSome_map, liveParent_isSome_iff]
  constructor
  · intro h e he hgit
    refine (hentry e).1 (h e (List.mem_filter.2 ⟨List.mem_filterMap.2 ⟨_, he, rfl⟩, ?_⟩))
    rw [hgit]
    rfl
  · intro h e he
    obtain ⟨hmem, hgit⟩ := List.mem_filter.1 he
    obtain ⟨f, hf, hfe⟩ := List.mem_filterMap.1 hmem
    cases f with
    | session header => cases hfe
    | entry x =>
      cases hfe
      exact (hentry _).2 (h _ hf (by simpa using hgit))

/-- **A walk along parent links ends exactly when no entry it meets leads back to itself**: the walk
for the context and the one for a branch over the index, the search of a fork over the entries it
drops. -/
theorem walks_end_iff (entries : List FileEntry) (leafId : LeafArg) (byId : Index) (sm : SessionManager)
    (fromId : String) : ((buildSessionContext entries leafId byId).isSome = true ↔
        ∀ leaf, contextLeaf entries leafId byId = some leaf → Acyclic (parentEntry byId) leaf) ∧
      ((getBranch sm fromId).isSome = true ↔
        ∀ leaf, sm.byId.get? fromId = some leaf → Acyclic (parentEntry sm.byId) leaf) ∧
      ((forkedEntries entries).isSome = true ↔ ∀ e, .entry e ∈ entries → e.isGitState = false →
          Acyclic (nextLive (droppedParent entries)) e.parentId) :=
  ⟨buildSessionContext_isSome_iff entries leafId byId, getBranch_isSome_iff sm fromId, forkedEntries_isSome_iff entries⟩

/-! ### A file edited by hand -/

/-- A header, a `git_state` that is its own parent, and a message behind it. -/
def loopedEntries : List FileEntry :=
  [.session (forkHeader "1" "/repo" "" (.ofChar '0')),
    .entry { id := "g", parentId := some "g", timestamp := "", body := .gitState ⟨none, none, none⟩ },
    .entry { id := "m", parentId := some "g", timestamp := "", body := .message (userMessage "one") }]

def loopedFile (path : String) : Option Bytes :=
  if path = "/sessions/1.jsonl" then some (contentOf loopedEntries) else none

theorem load_loopedFile : loadEntriesFromFile loopedFile "/sessions/1.jsonl" = loopedEntries := by
  rw [loadEntriesFromFile, loopedFile, if_pos rfl]
  show finalizeLoadedEntries (parseEntriesFromBuffer (contentOf loopedEntries)) = loopedEntries
  rw [parseEntries_contentOf (by simp [loopedEntries])]
  rfl

theorem walks_never_end : ∃ entries, loadEntriesFromFile loopedFile "/sessions/1.jsonl" = entries ∧
      buildSessionContext entries .undefined (indexById (entries.filterMap FileEntry.entry?)) = none ∧
      getBranch (memoryOf (forkHeader "1" "/repo" "" (.ofChar '0')) (entries.filterMap FileEntry.entry?)) "m" =
        none ∧ forkFrom "/sessions/1.jsonl" "/other" "/forks" (.ofChar '2') loopedFile [] = none := by
  refine ⟨loopedEntries, load_loopedFile, by rfl, by rfl, ?_⟩
  rw [forkFrom, load_loopedFile]
  rfl

end Session
end RePrime
