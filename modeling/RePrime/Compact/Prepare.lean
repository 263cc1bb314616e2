import RePrime.Compact.CutPoint
import RePrime.Session.Invariant

/-!
# RePrime.Compact.Prepare

`prepareCompaction`: what a compaction of a path summarizes, and from which entry on it keeps.

* `prepareCompaction_cases`: what a preparation holds, read off the cut.
* `history_turnPrefix`: the summarized messages and the turn prefix go from the boundary to the cut, without
  gap or overlap.
* `prepareCompaction_partition`: those parts are the context before the compaction.
-/

namespace RePrime
namespace Compact

open Session List
open Json (Value)

/-! ## File operations -/

/-- The sets of the source, in insertion order. -/
structure FileOperations where
  read : List String
  written : List String
  edited : List String

def createFileOps : FileOperations := { read := [], written := [], edited := [] }

/-- `Set.add`. -/
def add (set : List String) (s : String) : List String := if s ∈ set then set else set ++ [s]

def FileOperations.addRead (ops : FileOperations) (s : String) : FileOperations :=
  { ops with read := add ops.read s }

def FileOperations.addEdited (ops : FileOperations) (s : String) : FileOperations :=
  { ops with edited := add ops.edited s }

def string? : Value → Option String
  | .string s => some s
  | _ => none

def array? : Value → List Value
  | .array vs => vs
  | _ => []

/-- The non-empty string `path` of an object. -/
def pathOf (v : Value) : Option String :=
  ((Json.field "path" v).bind string?).filter fun path => path ≠ ""

/-- The path a tool call edits. -/
def editedPath : AssistantBlock → Option String
  | .toolCall t => if t.name = "edit" then pathOf (.object t.arguments) else none
  | _ => none

def extractFileOpsFromToolResult (m : ToolResultMessage) (ops : FileOperations) : FileOperations :=
  if m.toolName = "ipython" then
    let diffs := (m.details.bind (Json.field "diffs")).elim [] array?
    (diffs.filterMap pathOf).foldl .addEdited ops
  else ops

def extractFileOpsFromMessage (message : AgentMessage) (ops : FileOperations) : FileOperations :=
  match message with
  | .toolResult m => extractFileOpsFromToolResult m ops
  | .assistant m => (m.content.filterMap editedPath).foldl .addEdited ops
  | _ => ops

/-- The strings of a list field that an earlier compaction stored. -/
def storedFiles (key : String) (details : Value) : List String :=
  ((Json.field key details).elim [] array?).filterMap string?

/-- A previous compaction's own lists count unless a hook wrote it. -/
def previousFileOps (previous : Option Compaction) : FileOperations :=
  match previous with
  | none => createFileOps
  | some c =>
    match c.details with
    | none => createFileOps
    | some details =>
      if c.fromHook = some true then createFileOps
      else
        (storedFiles "modifiedFiles" details).foldl .addEdited
          ((storedFiles "readFiles" details).foldl .addRead createFileOps)

def extractFileOperations (messages : List AgentMessage) (previous : Option Compaction) :
    FileOperations :=
  messages.foldl (fun ops m => extractFileOpsFromMessage m ops) (previousFileOps previous)

def fileListMaxEntries : Nat := 200

def modifiedSet (ops : FileOperations) : List String := ops.written.foldl add ops.edited

structure FileLists where
  readFiles : List String
  modifiedFiles : List String

def computeFileLists (ops : FileOperations) : FileLists :=
  { readFiles := (Text.sort (ops.read.filter fun f => f ∉ modifiedSet ops)).take fileListMaxEntries
    modifiedFiles := (Text.sort (modifiedSet ops)).take fileListMaxEntries }

def fileSection (tag : String) (files : List String) : List String :=
  if files = [] then []
  else ["<" ++ tag ++ ">\n" ++ "\n".intercalate files ++ "\n</" ++ tag ++ ">"]

def formatFileOperations (lists : FileLists) : String :=
  let sections :=
    fileSection "read-files" lists.readFiles ++ fileSection "modified-files" lists.modifiedFiles
  if sections = [] then "" else "\n\n" ++ "\n\n".intercalate sections

/-! ## Messages of entries -/

def harnessDigestCustomType : String := "harness_digest"

def getMessageFromEntry (entry : SessionEntry) : Option AgentMessage :=
  match entry.body with
  | .message m => some m
  | .customMessage c =>
    some (createCustomMessage c.customType c.content c.display c.details entry.timestamp)
  | .branchSummary b => some (createBranchSummaryMessage b.summary b.fromId entry.timestamp)
  | .compaction c =>
    some (createCompactionSummaryMessage c.summary c.tokensBefore entry.timestamp
      c.customInstructions none none none)
  | _ => none

def isHarnessDigest (entry : SessionEntry) : Bool :=
  match entry.body with
  | .customMessage c => c.customType == harnessDigestCustomType
  | _ => false

def getMessageFromEntryForCompaction (entry : SessionEntry) : Option AgentMessage :=
  if entry.compaction?.isSome then none
  else if isHarnessDigest entry then none
  else getMessageFromEntry entry

/-! ## The preparation -/

structure CompactionSettings where
  enabled : Bool
  reserveTokens : Int
  keepRecentTokens : Int

structure CompactionPreparation where
  firstKeptEntryId : String
  messagesToSummarize : List AgentMessage
  turnPrefixMessages : List AgentMessage
  isSplitTurn : Bool
  tokensBefore : Int
  previousSummary : Option String
  fileOps : FileOperations
  settings : CompactionSettings

/-- The newest compaction of a path, with its index. -/
def lastCompaction (path : List SessionEntry) : Option (Nat × Compaction) :=
  path.zipIdx.reverse.findSome? fun e => e.1.compaction?.map fun c => (e.2, c)

/-- What an earlier compaction left summarized ends here. -/
def boundaryStart (path : List SessionEntry) : Nat :=
  match lastCompaction path with
  | none => 0
  | some (i, c) => (path.findIdx? fun e => e.id == c.firstKeptEntryId).getD (i + 1)

def previousCompaction (path : List SessionEntry) : Option Compaction :=
  (lastCompaction path).map Prod.snd

/-- `pathEntries[i]` for `from ≤ i < to`. -/
def entriesBetween (path : List SessionEntry) (start stop : Nat) : List SessionEntry :=
  (path.take stop).drop start

def messagesBetween (path : List SessionEntry) (start stop : Nat) : List AgentMessage :=
  (entriesBetween path start stop).filterMap getMessageFromEntryForCompaction

def cutOf (path : List SessionEntry) (settings : CompactionSettings) : CutPointResult :=
  findCutPoint path (boundaryStart path) path.length settings.keepRecentTokens

/-- Where the history ends and the split turn starts; the cut itself when no turn is split. -/
def historyEnd (cut : CutPointResult) : Nat :=
  if cut.isSplitTurn then cut.turnStartIndex.getD cut.firstKeptEntryIndex else cut.firstKeptEntryIndex

def historyOf (path : List SessionEntry) (cut : CutPointResult) : List AgentMessage :=
  messagesBetween path (boundaryStart path) (historyEnd cut)

def turnPrefixOf (path : List SessionEntry) (cut : CutPointResult) : List AgentMessage :=
  if cut.isSplitTurn then messagesBetween path (historyEnd cut) cut.firstKeptEntryIndex else []

/-- Split turns retain their suffix, but the file operations of their prefix count. -/
def fileOpsOf (path : List SessionEntry) (cut : CutPointResult) : FileOperations :=
  (turnPrefixOf path cut).foldl (fun ops m => extractFileOpsFromMessage m ops)
    (extractFileOperations (historyOf path cut) (previousCompaction path))

/-- `prepareCompaction` once the context is known. -/
def preparation (path : List SessionEntry) (settings : CompactionSettings) (tokensBefore : Int) :
    Option CompactionPreparation :=
  let cut := cutOf path settings
  match path[cut.firstKeptEntryIndex]? with
  | none => none
  | some firstKept =>
    if firstKept.id = "" then none
    else
      let previousSummary := (previousCompaction path).map Compaction.summary
      let messagesToSummarize := historyOf path cut
      let turnPrefixMessages := turnPrefixOf path cut
      if messagesToSummarize.isEmpty ∧ turnPrefixMessages.isEmpty ∧ previousSummary.getD "" = "" then none
      else
        some
          { firstKeptEntryId := firstKept.id
            messagesToSummarize
            turnPrefixMessages
            isSplitTurn := cut.isSplitTurn
            tokensBefore
            previousSummary
            fileOps := fileOpsOf path cut
            settings }

/-- The outer `none` is a walk to the root that never ends. -/
def prepareCompaction (path : List SessionEntry) (settings : CompactionSettings) :
    Option (Option CompactionPreparation) :=
  if (path.getLast?.bind SessionEntry.compaction?).isSome then some none
  else
    (buildSessionContext (path.map .entry) .undefined (indexById path)).map fun context =>
      preparation path settings (estimateContextTokens context.messages)

/-! ## The last compaction -/

variable {entry : SessionEntry} {c : Compaction}

theorem lastCompaction_append {pre post : List SessionEntry}
    (hc : entry.compaction? = some c) (hpost : ∀ e ∈ post, e.compaction? = none) :
    lastCompaction (pre ++ entry :: post) = some (pre.length, c) := by
  have hnone : (post.zipIdx (pre.length + 1)).reverse.findSome?
      (fun e => e.1.compaction?.map fun c => (e.2, c)) = none := by
    rw [findSome?_eq_none_iff]
    intro e he
    rw [hpost e.1 (fst_mem_of_mem_zipIdx (mem_reverse.1 he))]
    rfl
  rw [lastCompaction, zipIdx_append, zipIdx_cons, reverse_append, reverse_cons,
    findSome?_append, findSome?_append, Nat.zero_add, hnone]
  simp [hc]

variable {path : List SessionEntry}

theorem lastCompaction_none (h : ∀ e ∈ path, e.compaction? = none) :
    lastCompaction path = none := by
  rw [lastCompaction, findSome?_eq_none_iff]
  intro e he
  rw [h e.1 (fst_mem_of_mem_zipIdx (mem_reverse.1 he))]
  rfl

/-- A path on which parents link, ids differ, and a compaction names no later entry as its first kept
one. -/
structure WellFormedPath (path : List SessionEntry) : Prop extends PathFacts path where
  firstKept : ∀ pre entry c post, path = pre ++ entry :: post → entry.compaction? = some c →
    ∀ e ∈ post, e.id ≠ c.firstKeptEntryId

theorem dropWhile_ne (path : List SessionEntry) (k : String) :
    path.dropWhile (fun e => e.id != k) = path.drop (path.findIdx fun e => e.id == k) := by
  rw [dropWhile_eq_drop_findIdx_not]
  simp [bne]

/-- From the boundary on, a path carries what its context retains. -/
theorem drop_boundaryStart {pre post : List SessionEntry}
    (hc : entry.compaction? = some c) (hpost : ∀ e ∈ post, e.compaction? = none)
    (hkept : ∀ e ∈ post, e.id ≠ c.firstKeptEntryId) :
    ((pre ++ entry :: post).drop (boundaryStart (pre ++ entry :: post))).filterMap messageOf =
      keptBefore c pre ++ post.filterMap messageOf := by
  have hentry : messageOf entry = none := messageOf_of_compaction hc
  have hnone : post.findIdx? (fun e => e.id == c.firstKeptEntryId) = none := by
    rw [findIdx?_eq_none_iff]
    intro e he
    simpa using hkept e he
  rw [boundaryStart, lastCompaction_append hc hpost, keptBefore, dropWhile_ne]
  simp only [findIdx?_append, findIdx?_cons, hnone]
  cases hpre : pre.findIdx? fun e => e.id == c.firstKeptEntryId with
  | some i =>
    obtain ⟨hlt, hi⟩ := findIdx?_eq_some_iff_findIdx_eq.1 hpre
    rw [hi, Option.some_or, Option.getD_some, drop_append_of_le_length (by omega),
      filterMap_append, filterMap_cons_none hentry]
  | none =>
    have hi : pre.findIdx (fun e => e.id == c.firstKeptEntryId) = pre.length :=
      findIdx_eq_length_of_false (findIdx?_eq_none_iff.1 hpre)
    rw [hi, drop_length, filterMap_nil, nil_append, Option.none_or]
    cases hid : entry.id == c.firstKeptEntryId with
    | true =>
      simp only [if_true, Option.map_some, Option.getD_some, Nat.zero_add, drop_left]
      rw [filterMap_cons_none hentry]
    | false =>
      simp only [Bool.false_eq_true, if_false, Option.map_none, Option.getD_none]
      rw [← drop_drop, drop_left]
      rfl

/-! ## Contexts of paths -/

/-- The messages `buildSessionContext` gives for a path, without the summary they open with after a
compaction. -/
def contextWithoutSummary (path : List SessionEntry) : Option (List AgentMessage) :=
  (buildSessionContext (path.map .entry) .undefined (indexById path)).map fun context =>
    if path.any fun e => e.compaction?.isSome then context.messages.tail else context.messages

theorem buildSessionContext_path (h : PathFacts path) :
    buildSessionContext (path.map .entry) .undefined (indexById path) = some (contextOfPath path) := by
  cases hl : path.getLast? with
  | none =>
    rw [getLast?_eq_none_iff.1 hl]
    rfl
  | some leaf =>
    have hfall : (path.map FileEntry.entry).getLast?.bind FileEntry.entry? = some leaf := by
      rw [getLast?_map, hl]
      rfl
    simp only [buildSessionContext, hfall, h.pathTo hl, Option.map_some]

theorem contextWithoutSummary_eq (h : WellFormedPath path) :
    contextWithoutSummary path = some ((path.drop (boundaryStart path)).filterMap messageOf) := by
  rw [contextWithoutSummary, buildSessionContext_path h.toPathFacts, Option.map_some]
  cases exists_last_compaction path with
  | inl hnone =>
    have hany : (path.any fun e => e.compaction?.isSome) = false := by
      rw [any_eq_false]
      intro e he
      simp [hnone e he]
    rw [hany, boundaryStart, lastCompaction_none hnone, messages_of_no_compaction hnone]
    rfl
  | inr hsome =>
    obtain ⟨pre, entry, c, post, rfl, hc, hpost⟩ := hsome
    have hany : ((pre ++ entry :: post).any fun e => e.compaction?.isSome) = true := by
      simp [hc]
    have hpre : ∀ e ∈ pre, e.id ≠ entry.id := by
      intro e he heq
      have hn := h.nodup
      rw [map_append, nodup_append] at hn
      exact hn.2.2 _ (mem_map_of_mem he) entry.id (by simp) heq
    rw [hany, if_pos rfl, messages_of_compaction hc hpre hpost, tail_cons,
      drop_boundaryStart hc hpost (h.firstKept pre entry c post rfl hc)]

/-- The context after a compaction is appended: the messages from its first kept entry on. -/
theorem contextWithoutSummary_compacted {firstKept : SessionEntry}
    {k : Nat} (h : PathFacts (path ++ [entry])) (hc : entry.compaction? = some c)
    (hk : path[k]? = some firstKept) (hid : c.firstKeptEntryId = firstKept.id) :
    contextWithoutSummary (path ++ [entry]) = some ((path.drop k).filterMap messageOf) := by
  have hpre : ∀ e ∈ path, e.id ≠ entry.id := by
    intro e he heq
    have hn := h.nodup
    rw [map_append, nodup_append] at hn
    exact hn.2.2 _ (mem_map_of_mem he) entry.id (by simp) heq
  have hn : (path.map SessionEntry.id).Nodup := by
    have hn := h.nodup
    rw [map_append, nodup_append] at hn
    exact hn.1
  have hidx : path.findIdx (fun e => e.id == firstKept.id) = k := by
    obtain ⟨hlt, hget⟩ := List.getElem?_eq_some_iff.1 hk
    rw [findIdx_eq hlt]
    refine ⟨by simp [hget], fun j hj => ?_⟩
    have hne := nodup_iff_getElem?_ne_getElem?.1 hn j k hj (by simpa using hlt)
    have hj' : j < path.length := by omega
    simpa [hk, hj', hget] using hne
  have hany : ((path ++ [entry]).any fun e => e.compaction?.isSome) = true := by simp [hc]
  rw [contextWithoutSummary, buildSessionContext_path h, Option.map_some, hany, if_pos rfl,
    messages_of_compaction hc hpre (by simp), tail_cons, filterMap_nil, append_nil,
    keptBefore, hid, dropWhile_ne, hidx]

/-! ## The parts meet -/

theorem entriesBetween_append (path : List SessionEntry) {start mid stop : Nat} (h : start ≤ mid)
    (h' : mid ≤ stop) :
    entriesBetween path start mid ++ entriesBetween path mid stop = entriesBetween path start stop := by
  have hdrop : path.drop mid = (path.drop start).drop (mid - start) := by
    rw [drop_drop]
    congr 1
    omega
  have hlen : stop - start = (mid - start) + (stop - mid) := by omega
  simp only [entriesBetween, drop_take]
  rw [hdrop, hlen, take_add]

theorem entriesBetween_drop (path : List SessionEntry) {start stop : Nat} (h : start ≤ stop) :
    entriesBetween path start stop ++ path.drop stop = path.drop start := by
  have hdrop : path.drop stop = (path.drop start).drop (stop - start) := by
    rw [drop_drop]
    congr 1
    omega
  rw [entriesBetween, drop_take, hdrop, take_append_drop]

theorem cutOf_range (h : boundaryStart path ≤ path.length)
    (settings : CompactionSettings) :
    boundaryStart path ≤ historyEnd (cutOf path settings) ∧
      historyEnd (cutOf path settings) ≤ (cutOf path settings).firstKeptEntryIndex := by
  have hrange := findCutPoint_range path h settings.keepRecentTokens
  unfold historyEnd
  cases hs : (cutOf path settings).isSplitTurn with
  | false =>
    rw [if_neg (by simp)]
    exact ⟨hrange.1, Nat.le_refl _⟩
  | true =>
    obtain ⟨t, ht, hlo, hhi⟩ := turnStart_range hs
    rw [if_pos rfl, show (cutOf path settings).turnStartIndex = some t from ht]
    exact ⟨hlo, hhi⟩

theorem boundaryStart_le (path : List SessionEntry) : boundaryStart path ≤ path.length := by
  cases exists_last_compaction path with
  | inl h =>
    rw [boundaryStart, lastCompaction_none h]
    exact Nat.zero_le _
  | inr h =>
    obtain ⟨pre, entry, c, post, rfl, hc, hpost⟩ := h
    cases hi : (pre ++ entry :: post).findIdx? fun e => e.id == c.firstKeptEntryId with
    | none =>
      simp only [boundaryStart, lastCompaction_append hc hpost, hi, Option.getD_none,
        length_append, length_cons]
      omega
    | some i =>
      obtain ⟨hlt, -⟩ := findIdx?_eq_some_iff_findIdx_eq.1 hi
      simp only [boundaryStart, lastCompaction_append hc hpost, hi, Option.getD_some]
      exact Nat.le_of_lt hlt

/-- What is summarized: history and turn prefix are the messages from the boundary to the cut. -/
theorem history_turnPrefix (path : List SessionEntry) (settings : CompactionSettings) :
    historyOf path (cutOf path settings) ++ turnPrefixOf path (cutOf path settings) =
      messagesBetween path (boundaryStart path) (cutOf path settings).firstKeptEntryIndex := by
  have hrange := cutOf_range (boundaryStart_le path) settings
  unfold historyOf turnPrefixOf
  cases hs : (cutOf path settings).isSplitTurn with
  | false =>
    rw [if_neg (by simp), append_nil, historyEnd, hs, if_neg (by simp)]
  | true =>
    rw [if_pos rfl, messagesBetween, messagesBetween, ← filterMap_append,
      entriesBetween_append path hrange.1 hrange.2]
    rfl

/-! ## What a preparation holds -/

theorem preparation_cases {settings : CompactionSettings} {tokens : Int}
    {p : CompactionPreparation} (h : preparation path settings tokens = some p) :
    ∃ firstKept, path[(cutOf path settings).firstKeptEntryIndex]? = some firstKept ∧
      firstKept.id ≠ "" ∧
      ¬(historyOf path (cutOf path settings) = [] ∧ turnPrefixOf path (cutOf path settings) = [] ∧
        ((previousCompaction path).map Compaction.summary).getD "" = "") ∧
      p =
        { firstKeptEntryId := firstKept.id
          messagesToSummarize := historyOf path (cutOf path settings)
          turnPrefixMessages := turnPrefixOf path (cutOf path settings)
          isSplitTurn := (cutOf path settings).isSplitTurn
          tokensBefore := tokens
          previousSummary := (previousCompaction path).map Compaction.summary
          fileOps := fileOpsOf path (cutOf path settings)
          settings } := by
  unfold preparation at h
  cases hk : path[(cutOf path settings).firstKeptEntryIndex]? with
  | none =>
    simp only [hk] at h
    cases h
  | some firstKept =>
    simp only [hk] at h
    by_cases hid : firstKept.id = ""
    · rw [if_pos hid] at h
      cases h
    · rw [if_neg hid] at h
      split at h
      · cases h
      · rename_i hsome
        simp only [List.isEmpty_iff] at hsome
        exact ⟨firstKept, rfl, hid, hsome, (Option.some.inj h).symm⟩

theorem prepareCompaction_cases {settings : CompactionSettings}
    {p : CompactionPreparation} (h : prepareCompaction path settings = some (some p)) :
    ∃ tokens, preparation path settings tokens = some p := by
  unfold prepareCompaction at h
  split at h
  · cases h
  · obtain ⟨context, -, hprep⟩ := Option.map_eq_some_iff.1 h
    exact ⟨_, hprep⟩

/-! ## The partition -/

/-- Without a branch summary that is empty, the compaction's messages are the context's, harness
digests apart. -/
theorem getMessageFromEntryForCompaction_eq {e : SessionEntry}
    (h : ∀ b, e.body = .branchSummary b → b.summary ≠ "") :
    getMessageFromEntryForCompaction e = if isHarnessDigest e then none else messageOf e := by
  unfold getMessageFromEntryForCompaction getMessageFromEntry messageOf
  cases hb : e.body with
  | compaction c => simp [SessionEntry.compaction?, hb]
  | branchSummary b => simp [SessionEntry.compaction?, isHarnessDigest, hb, h b hb]
  | _ => simp [SessionEntry.compaction?, hb]

theorem messages_summarized {l : List SessionEntry}
    (h : ∀ e ∈ l, ∀ b, e.body = .branchSummary b → b.summary ≠ "") :
    l.filterMap getMessageFromEntryForCompaction =
      (l.filter fun e => !isHarnessDigest e).filterMap messageOf := by
  induction l with
  | nil => rfl
  | cons e l ih =>
    have he := getMessageFromEntryForCompaction_eq (h e (by simp))
    have ih := ih fun x hx => h x (by simp [hx])
    cases hd : isHarnessDigest e with
    | true => simp [he, hd, ih]
    | false => simp [filterMap_cons, he, hd, ih]

/-- A compaction splits what the context holds behind its summary: the entries in front of the first
kept one are summarized, the others stay. Harness digests in front of the cut are left out. -/
theorem prepareCompaction_partition {path : List SessionEntry} {settings : CompactionSettings}
    {p : CompactionPreparation} {entry : SessionEntry} {c : Compaction} (hpath : WellFormedPath path)
    (hsummaries : ∀ e ∈ path, ∀ b, e.body = .branchSummary b → b.summary ≠ "")
    (hp : prepareCompaction path settings = some (some p)) (hc : entry.compaction? = some c)
    (hkept : c.firstKeptEntryId = p.firstKeptEntryId) (hnext : PathFacts (path ++ [entry])) :
    ∃ summarized kept, summarized ++ kept <:+ path ∧
      kept.head?.map SessionEntry.id = some p.firstKeptEntryId ∧
      contextWithoutSummary path = some ((summarized ++ kept).filterMap messageOf) ∧
      p.messagesToSummarize ++ p.turnPrefixMessages =
        (summarized.filter fun e => !isHarnessDigest e).filterMap messageOf ∧
      contextWithoutSummary (path ++ [entry]) = some (kept.filterMap messageOf) := by
  obtain ⟨tokens, hprep⟩ := prepareCompaction_cases hp
  obtain ⟨firstKept, hk, -, -, rfl⟩ := preparation_cases hprep
  have hrange := cutOf_range (boundaryStart_le path) settings
  have hparts := entriesBetween_drop path (hrange.1.trans hrange.2)
  refine ⟨entriesBetween path (boundaryStart path) (cutOf path settings).firstKeptEntryIndex,
    path.drop (cutOf path settings).firstKeptEntryIndex, ?_, ?_, ?_, ?_, ?_⟩
  · rw [hparts]
    exact drop_suffix _ _
  · rw [head?_drop, hk]
    rfl
  · rw [hparts]
    exact contextWithoutSummary_eq hpath
  · rw [history_turnPrefix, messagesBetween, messages_summarized]
    intro e he
    exact hsummaries e (mem_of_mem_take (mem_of_mem_drop he))
  · exact contextWithoutSummary_compacted hnext hc hk hkept

/-! ## A path with a harness digest -/

def pathEntry (id : String) (parentId : Option String) (body : EntryBody) : SessionEntry :=
  { id, parentId, timestamp := "2026-01-01T00:00:00.000Z", body }

/-- A request, a harness digest, and a turn behind it. -/
def digestPath : List SessionEntry :=
  [pathEntry "a" none (.message (userMessage "one")),
    pathEntry "b" (some "a") (.customMessage
      { customType := harnessDigestCustomType, content := .text "digest", details := none, display := false }),
    pathEntry "c" (some "b") (.message (userMessage "two")),
    pathEntry "d" (some "c") (.message (assistantMessage "three"))]

def keepNewest : CompactionSettings := { enabled := true, reserveTokens := 16384, keepRecentTokens := 1 }

def compactionEntry (id : String) (parentId : Option String) (summary firstKeptEntryId : String) :
    SessionEntry :=
  pathEntry id parentId (.compaction
    { summary, firstKeptEntryId, tokensBefore := 0, details := none, fromHook := none
      customInstructions := none, usage := none, harnessDigest := none
      harnessStateFingerprint := none })

/-- The compaction of `digestPath`. -/
def digestCompaction : SessionEntry := compactionEntry "e" (some "d") "summary" "d"

theorem wellFormedPath_of_no_compaction (h : PathFacts path)
    (hnone : ∀ e ∈ path, e.compaction? = none) : WellFormedPath path := by
  refine ⟨h, fun pre entry c post heq hc => ?_⟩
  rw [hnone entry (by simp [heq])] at hc
  cases hc

theorem wellFormedPath_digestPath : WellFormedPath digestPath := by
  refine wellFormedPath_of_no_compaction ⟨by decide, by decide, by decide, by decide⟩ ?_
  have hall : digestPath.all (fun e => e.compaction?.isNone) = true := rfl
  intro e he
  simpa using all_eq_true.1 hall e he

theorem pathFacts_digestCompaction : PathFacts (digestPath ++ [digestCompaction]) :=
  ⟨by decide, by decide, by decide, by decide⟩

theorem prepareCompaction_partition_digestPath :
    ∃ p, prepareCompaction digestPath keepNewest = some (some p) ∧
      ∃ summarized kept, summarized ++ kept <:+ digestPath ∧
        kept.head?.map SessionEntry.id = some p.firstKeptEntryId ∧
        contextWithoutSummary digestPath = some ((summarized ++ kept).filterMap messageOf) ∧
        p.messagesToSummarize ++ p.turnPrefixMessages =
          (summarized.filter fun e => !isHarnessDigest e).filterMap messageOf ∧
        contextWithoutSummary (digestPath ++ [digestCompaction]) = some (kept.filterMap messageOf) := by
  have hsummaries : ∀ e ∈ digestPath, ∀ b, e.body = .branchSummary b → b.summary ≠ "" := by
    intro e he b hb
    simp only [digestPath, mem_cons, not_mem_nil, or_false] at he
    obtain rfl | rfl | rfl | rfl := he <;> cases hb
  exact ⟨_, rfl, @prepareCompaction_partition digestPath keepNewest _ digestCompaction _
    wellFormedPath_digestPath hsummaries rfl rfl rfl pathFacts_digestCompaction⟩

/-- The digest in front of the cut is in no part: three messages where the context had four. -/
theorem prepareCompaction_leaves_digest :
    WellFormedPath digestPath ∧ PathFacts (digestPath ++ [digestCompaction]) ∧
      ∃ p before after, prepareCompaction digestPath keepNewest = some (some p) ∧
        digestCompaction.compaction?.map Compaction.firstKeptEntryId = some p.firstKeptEntryId ∧
        contextWithoutSummary digestPath = some before ∧
        contextWithoutSummary (digestPath ++ [digestCompaction]) = some after ∧
        p.messagesToSummarize ++ p.turnPrefixMessages ++ after ≠ before := by
  refine ⟨wellFormedPath_digestPath, pathFacts_digestCompaction, _, _, _, rfl, rfl, rfl, rfl, ?_⟩
  intro h
  exact absurd (congrArg List.length h) (by decide)

end Compact
end RePrime
