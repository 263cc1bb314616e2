import RePrime.Compact.Summary

/-!
# RePrime.Compact.FileLists

The file lists that go from one compaction to the next through its details.

* `modifiedBy`: the files a message modifies; folding messages adds exactly these.
* `Accumulates`: what a compaction reports, against the lists it starts from and the messages it
  summarizes.
* `Reports`, `fileLists_accumulate`: over a run of compactions.
-/

namespace RePrime
namespace Compact

open Session List
open Json (Value)

/-! ## File operations of messages -/

variable {f : String}

theorem mem_add {set : List String} {s : String} : f ∈ add set s ↔ f ∈ set ∨ f = s := by
  unfold add
  split
  · rename_i hs
    constructor
    · exact .inl
    · rintro (h | rfl)
      · exact h
      · exact hs
  · rw [mem_append, mem_singleton]

theorem mem_foldl_add {set fs : List String} : f ∈ fs.foldl add set ↔ f ∈ set ∨ f ∈ fs := by
  induction fs generalizing set with
  | nil => simp
  | cons s fs ih => rw [foldl_cons, ih, mem_add, mem_cons, or_assoc]

theorem nodup_foldl_add {set : List String} (h : set.Nodup) (fs : List String) : (fs.foldl add set).Nodup := by
  induction fs generalizing set with
  | nil => exact h
  | cons s fs ih =>
    refine ih ?_
    unfold add
    split
    · exact h
    · rename_i hs
      exact nodup_append'.2 ⟨h, nodup_singleton s, by simpa using hs⟩

theorem foldl_addRead (fs : List String) (ops : FileOperations) :
    fs.foldl .addRead ops = { ops with read := fs.foldl add ops.read } := by
  induction fs generalizing ops with
  | nil => rfl
  | cons s fs ih =>
    rw [foldl_cons, ih]
    rfl

theorem foldl_addEdited (fs : List String) (ops : FileOperations) :
    fs.foldl .addEdited ops = { ops with edited := fs.foldl add ops.edited } := by
  induction fs generalizing ops with
  | nil => rfl
  | cons s fs ih =>
    rw [foldl_cons, ih]
    rfl

variable {ops : FileOperations}

theorem mem_modifiedSet : f ∈ modifiedSet ops ↔ f ∈ ops.edited ∨ f ∈ ops.written := mem_foldl_add

/-- The diffs a tool result of the kernel reports. -/
def kernelEdits (m : ToolResultMessage) : List String :=
  if m.toolName = "ipython" then ((m.details.bind (Json.field "diffs")).elim [] array?).filterMap pathOf
  else []

/-- The files a message modifies: by edit calls, or as the kernel reports. -/
def modifiedBy : AgentMessage → List String
  | .toolResult m => kernelEdits m
  | .assistant m => m.content.filterMap editedPath
  | _ => []

theorem extractFileOpsFromMessage_eq (m : AgentMessage) (ops : FileOperations) :
    extractFileOpsFromMessage m ops = { ops with edited := (modifiedBy m).foldl add ops.edited } := by
  cases m with
  | toolResult m =>
    simp only [extractFileOpsFromMessage, extractFileOpsFromToolResult, modifiedBy, kernelEdits]
    split
    · exact foldl_addEdited _ ops
    · rfl
  | assistant m => exact foldl_addEdited _ ops
  | _ => rfl

theorem mem_edited_extract {m : AgentMessage} :
    f ∈ (extractFileOpsFromMessage m ops).edited ↔ f ∈ ops.edited ∨ f ∈ modifiedBy m := by
  rw [extractFileOpsFromMessage_eq]
  exact mem_foldl_add

section

variable (ms : List AgentMessage) (ops : FileOperations)

theorem read_foldl_extract : (ms.foldl (fun ops m => extractFileOpsFromMessage m ops) ops).read = ops.read := by
  induction ms generalizing ops with
  | nil => rfl
  | cons m ms ih => rw [foldl_cons, ih, extractFileOpsFromMessage_eq]

theorem written_foldl_extract :
    (ms.foldl (fun ops m => extractFileOpsFromMessage m ops) ops).written = ops.written := by
  induction ms generalizing ops with
  | nil => rfl
  | cons m ms ih => rw [foldl_cons, ih, extractFileOpsFromMessage_eq]

theorem mem_edited_foldl_extract {f : String} :
    f ∈ (ms.foldl (fun ops m => extractFileOpsFromMessage m ops) ops).edited ↔
      f ∈ ops.edited ∨ ∃ m ∈ ms, f ∈ modifiedBy m := by
  induction ms generalizing ops with
  | nil => simp
  | cons m ms ih =>
    rw [foldl_cons, ih, mem_edited_extract, or_assoc]
    simp only [mem_cons, exists_eq_or_imp]

theorem nodup_edited_foldl_extract (h : ops.edited.Nodup) :
    (ms.foldl (fun ops m => extractFileOpsFromMessage m ops) ops).edited.Nodup := by
  induction ms generalizing ops with
  | nil => exact h
  | cons m ms ih =>
    rw [foldl_cons, extractFileOpsFromMessage_eq]
    exact ih _ (nodup_foldl_add h _)

end

/-! ## What a compaction reports -/

/-- The lists in the details of an entry. -/
def storedLists (details : Option Value) : FileLists :=
  { readFiles := details.elim [] (storedFiles "readFiles")
    modifiedFiles := details.elim [] (storedFiles "modifiedFiles") }

def noFiles : FileLists := { readFiles := [], modifiedFiles := [] }

/-- The lists a compaction starts from: those of the previous one, unless a hook wrote it. -/
def countedLists : Option Compaction → FileLists
  | none => noFiles
  | some c => if c.fromHook = some true then noFiles else storedLists c.details

theorem previousFileOps_eq (previous : Option Compaction) : previousFileOps previous =
      { read := (countedLists previous).readFiles.foldl add []
        written := []
        edited := (countedLists previous).modifiedFiles.foldl add [] } := by
  cases previous with
  | none => rfl
  | some c =>
    cases hd : c.details with
    | none =>
      simp only [previousFileOps, countedLists, hd]
      split <;> rfl
    | some details =>
      simp only [previousFileOps, countedLists, hd]
      split
      · rfl
      · rw [foldl_addEdited, foldl_addRead]
        rfl

/-- `lists` add what the summarized messages modify to the previous lists, sorted, without duplicates and up to the
cap; a file that is cut off comes behind all that are reported. -/
structure Accumulates (previous : FileLists) (summarized : List AgentMessage) (lists : FileLists) :
    Prop where
  kept : ∀ f, f ∈ previous.modifiedFiles ∨ (∃ m ∈ summarized, f ∈ modifiedBy m) → f ∈ lists.modifiedFiles ∨
      lists.modifiedFiles.length = fileListMaxEntries ∧
        ∀ g ∈ lists.modifiedFiles, Text.unitsLe (Text.utf16 g) (Text.utf16 f) = true
  modified : ∀ f ∈ lists.modifiedFiles, f ∈ previous.modifiedFiles ∨ ∃ m ∈ summarized, f ∈ modifiedBy m
  reported : ∃ files : List String, files.Nodup ∧
    (∀ f, f ∈ files ↔ f ∈ previous.modifiedFiles ∨ ∃ m ∈ summarized, f ∈ modifiedBy m) ∧
      lists.modifiedFiles = (Text.sort files).take fileListMaxEntries
  onlyRead : ∀ f ∈ lists.readFiles, f ∈ previous.readFiles ∧ f ∉ lists.modifiedFiles
  capped : lists.modifiedFiles.length ≤ fileListMaxEntries ∧ lists.readFiles.length ≤ fileListMaxEntries

theorem accumulates_computeFileLists {previous : FileLists} {summarized : List AgentMessage}
    (hread : ∀ f ∈ ops.read, f ∈ previous.readFiles) (hnodup : ops.edited.Nodup) (hmodified : ∀ f, f ∈ modifiedSet ops ↔
      f ∈ previous.modifiedFiles ∨ ∃ m ∈ summarized, f ∈ modifiedBy m) :
    Accumulates previous summarized (computeFileLists ops) where
  kept f hf := Text.mem_take_sort ((hmodified f).2 hf) fileListMaxEntries
  modified f hf := (hmodified f).1 (Text.mem_sort.1 (mem_of_mem_take hf))
  reported := ⟨modifiedSet ops, nodup_foldl_add hnodup _, hmodified, rfl⟩
  onlyRead f hf := by
    have hmem := Text.mem_sort.1 (mem_of_mem_take hf)
    rw [mem_filter, decide_eq_true_iff] at hmem
    exact ⟨hread f hmem.1, fun hmod => hmem.2 (Text.mem_sort.1 (mem_of_mem_take hmod))⟩
  capped := ⟨length_take_le _ _, length_take_le _ _⟩

theorem accumulates_fileOpsOf (path : List SessionEntry) (cut : CutPointResult) :
    Accumulates (countedLists (previousCompaction path)) (historyOf path cut ++ turnPrefixOf path cut)
      (computeFileLists (fileOpsOf path cut)) := by
  refine accumulates_computeFileLists (fun f hf => ?_) ?_ fun f => ?_
  · rw [fileOpsOf, read_foldl_extract, extractFileOperations, read_foldl_extract, previousFileOps_eq,
      mem_foldl_add] at hf
    exact hf.resolve_left (not_mem_nil)
  · refine nodup_edited_foldl_extract _ _ (nodup_edited_foldl_extract _ _ ?_)
    rw [previousFileOps_eq]
    exact nodup_foldl_add nodup_nil _
  · rw [mem_modifiedSet, fileOpsOf, written_foldl_extract, mem_edited_foldl_extract,
      extractFileOperations, written_foldl_extract, mem_edited_foldl_extract, previousFileOps_eq,
      mem_foldl_add]
    simp only [not_mem_nil, false_or, or_false, mem_append, or_assoc, or_and_right, exists_or]

/-! ## Details -/

/-- The details an appended compaction stores. -/
def detailsOf (lists : FileLists) : Value :=
  .object
    [("readFiles", .array (lists.readFiles.map .string)),
      ("modifiedFiles", .array (lists.modifiedFiles.map .string))]

theorem filterMap_string (fs : List String) : (fs.map Value.string).filterMap string? = fs := by
  rw [filterMap_map]
  exact filterMap_some

theorem storedLists_detailsOf (lists : FileLists) : storedLists (some (detailsOf lists)) = lists := by
  have hread : storedFiles "readFiles" (detailsOf lists) = lists.readFiles := filterMap_string _
  have hmodified : storedFiles "modifiedFiles" (detailsOf lists) = lists.modifiedFiles := filterMap_string _
  simp only [storedLists, Option.elim_some, hread, hmodified]

variable {p : CompactionPreparation}

theorem details_finish {summary : String} {result : CompactionResult}
    (h : p.finish summary = .ok result) : result.details = computeFileLists p.fileOps := by
  unfold CompactionPreparation.finish at h
  by_cases hid : p.firstKeptEntryId = ""
  · simp only [hid, if_true] at h
    cases h
  · simp only [hid, if_false] at h
    cases h
    rfl

theorem details_compact {serialize : List AgentMessage → String}
    {complete : String → Except String String} {customInstructions : Option String}
    {calls : List SummaryCall} {result : CompactionResult}
    (h : compact serialize complete customInstructions p = (calls, .ok result)) :
    result.details = computeFileLists p.fileOps := by
  have bind_finish : ∀ {call : SummaryCall} {f : String → String},
      (generate serialize complete call >>= fun text => p.finish (f text)) = .ok result →
        result.details = computeFileLists p.fileOps := by
    intro call f hf
    cases hg : generate serialize complete call with
    | error message =>
      rw [hg] at hf
      cases hf
    | ok text =>
      rw [hg] at hf
      exact details_finish hf
  unfold compact at h
  split at h
  · split at h
    · have h := (Prod.mk.inj h).2
      cases hg : generate serialize complete (p.historyCall customInstructions) with
      | error message =>
        rw [hg] at h
        cases h
      | ok text =>
        rw [hg] at h
        exact bind_finish h
    · exact bind_finish (Prod.mk.inj h).2
  · exact @bind_finish _ id (Prod.mk.inj h).2

/-! ## Runs of compactions -/

/-- A compaction of a run: the messages it summarizes and the lists it reports, or one a hook wrote. -/
inductive Report where
  | compacted (summarized : List AgentMessage) (lists : FileLists)
  | hooked

/-- What the next compaction starts from. -/
def Report.lists : Report → FileLists
  | .compacted _ lists => lists
  | .hooked => noFiles

/-- Compactions of one growing path. What a hook writes as a compaction is its own. -/
inductive Reports (serialize : List AgentMessage → String) : List SessionEntry → List Report → Prop
  | done (path : List SessionEntry) : Reports serialize path []
  | compacted {path more : List SessionEntry} {settings : CompactionSettings}
      {customInstructions : Option String} {complete : String → Except String String}
      {p : CompactionPreparation} {calls : List SummaryCall} {result : CompactionResult}
      {entry : SessionEntry} {c : Compaction} {log : List Report}
      (plain : ∀ e ∈ more, e.compaction? = none)
      (prepared : prepareCompaction (path ++ more) settings = some (some p))
      (result_eq : compact serialize complete customInstructions p = (calls, .ok result))
      (entry_eq : entry.compaction? = some c) (details : c.details = some (detailsOf result.details))
      (fromHook : c.fromHook ≠ some true)
      (rest : Reports serialize (path ++ more ++ [entry]) log) :
      Reports serialize path
        (.compacted (p.messagesToSummarize ++ p.turnPrefixMessages) result.details :: log)
  | hooked {path more : List SessionEntry} {entry : SessionEntry} {c : Compaction} {log : List Report}
      (plain : ∀ e ∈ more, e.compaction? = none)
      (entry_eq : entry.compaction? = some c) (fromHook : c.fromHook = some true)
      (rest : Reports serialize (path ++ more ++ [entry]) log) :
      Reports serialize path (.hooked :: log)

/-- Every compaction accumulates on the one before it. -/
def Accumulating : FileLists → List Report → Prop
  | _, [] => True
  | previous, .compacted summarized lists :: rest =>
    Accumulates previous summarized lists ∧ Accumulating lists rest
  | _, .hooked :: rest => Accumulating noFiles rest

theorem accumulates_prepared {path : List SessionEntry} {settings : CompactionSettings}
    (h : prepareCompaction path settings = some (some p)) :
    Accumulates (countedLists (previousCompaction path)) (p.messagesToSummarize ++ p.turnPrefixMessages)
      (computeFileLists p.fileOps) := by
  obtain ⟨tokens, hprep⟩ := prepareCompaction_cases h
  obtain ⟨firstKept, -, -, -, rfl⟩ := preparation_cases hprep
  exact accumulates_fileOpsOf path _

section

variable {serialize : List AgentMessage → String}

variable {log : List Report}

theorem accumulating_of_reports {path : List SessionEntry}
    (h : Reports serialize path log) : Accumulating (countedLists (previousCompaction path)) log := by
  induction h with
  | done path => trivial
  | @compacted path more settings customInstructions complete p calls result entry c log plain prepared
      result_eq entry_eq details fromHook rest ih =>
    rw [previousCompaction_append_compaction entry_eq, countedLists, if_neg fromHook, details,
      storedLists_detailsOf] at ih
    refine ⟨?_, ih⟩
    rw [details_compact result_eq, ← previousCompaction_append_plain plain]
    exact accumulates_prepared prepared
  | @hooked path more entry c log plain entry_eq fromHook rest ih =>
    rw [previousCompaction_append_compaction entry_eq, countedLists, if_pos fromHook] at ih
    exact ih

/-- A run reports no file as only read that it did not start from. -/
theorem read_of_accumulating {previous : FileLists} (h : Accumulating previous log) :
    ∀ r ∈ log, ∀ f ∈ r.lists.readFiles, f ∈ previous.readFiles := by
  induction log generalizing previous with
  | nil => simp
  | cons r log ih =>
    intro r' hr' f hf
    cases r with
    | compacted summarized lists =>
      have hread := fun hf => (h.1.onlyRead f hf).1
      obtain rfl | hr' := mem_cons.1 hr'
      · exact hread hf
      · exact hread (ih h.2 r' hr' f hf)
    | hooked =>
      obtain rfl | hr' := mem_cons.1 hr'
      · cases hf
      · cases ih h r' hr' f hf

theorem disjoint_of_accumulating {previous : FileLists} (h : Accumulating previous log) :
    (∀ r ∈ log, ∀ f ∈ r.lists.modifiedFiles, f ∉ r.lists.readFiles) ∧
      log.Pairwise fun r r' => ∀ f ∈ r.lists.modifiedFiles, f ∉ r'.lists.readFiles := by
  induction log generalizing previous with
  | nil => exact ⟨by simp, .nil⟩
  | cons r log ih =>
    cases r with
    | compacted summarized lists =>
      obtain ⟨hself, hpair⟩ := ih h.2
      have hdisjoint : ∀ f ∈ lists.modifiedFiles, f ∉ lists.readFiles :=
        fun f hf hread => (h.1.onlyRead f hread).2 hf
      refine ⟨forall_mem_cons.2 ⟨hdisjoint, hself⟩, pairwise_cons.2 ⟨?_, hpair⟩⟩
      intro r' hr' f hf hread
      exact hdisjoint f hf (read_of_accumulating h.2 r' hr' f hread)
    | hooked =>
      obtain ⟨hself, hpair⟩ := ih h
      refine ⟨forall_mem_cons.2 ⟨?_, hself⟩, pairwise_cons.2 ⟨?_, hpair⟩⟩
      · intro f hf
        cases hf
      · intro r' hr' f hf
        cases hf

/-- The file lists of a run of compactions: each one adds what its summarized messages modify to what
the one before it reported, up to the cap, unless a hook wrote that one; and a file that was reported
as modified is never reported as only read. -/
theorem fileLists_accumulate {path : List SessionEntry} {log : List Report} (h : Reports serialize path log) :
    Accumulating (countedLists (previousCompaction path)) log ∧
      (∀ r ∈ log, ∀ f ∈ r.lists.modifiedFiles, f ∉ r.lists.readFiles) ∧
      log.Pairwise fun r r' => ∀ f ∈ r.lists.modifiedFiles, f ∉ r'.lists.readFiles :=
  ⟨accumulating_of_reports h, disjoint_of_accumulating (accumulating_of_reports h)⟩

end

/-! ## A path behind a compaction with lists -/

def listedCompaction (id : String) (parentId : Option String) (lists : FileLists)
    (firstKeptEntryId : String) (fromHook : Option Bool) : SessionEntry :=
  pathEntry id parentId (.compaction
    { summary := "summary", firstKeptEntryId, tokensBefore := 0, details := some (detailsOf lists)
      fromHook, customInstructions := none, usage := none, harnessDigest := none
      harnessStateFingerprint := none })

def earlierLists : FileLists := { readFiles := [], modifiedFiles := ["a.ts"] }

/-- Two turns behind a compaction that reported `a.ts`. -/
def listedPath (fromHook : Option Bool) : List SessionEntry :=
  [pathEntry "a" none (.message (userMessage "one")),
    listedCompaction "b" (some "a") earlierLists "" fromHook,
    pathEntry "c" (some "b") (.message (userMessage "two")),
    pathEntry "d" (some "c") (.message (userMessage "three"))]

theorem fileLists_accumulate_listedPath : ∃ summarized lists,
      Reports (fun _ => "") (listedPath none) [.compacted summarized lists] ∧
        Accumulates earlierLists summarized lists ∧
        (∀ r ∈ [Report.compacted summarized lists], ∀ f ∈ r.lists.modifiedFiles, f ∉ r.lists.readFiles) := by
  obtain ⟨p, calls, result, hp, hres⟩ : ∃ p calls result,
      prepareCompaction (listedPath none ++ []) keepNewest = some (some p) ∧
      compact (fun _ => "") (fun _ => .ok "both") none p = (calls, .ok result) :=
    ⟨_, _, _, rfl, rfl⟩
  have hrun : Reports (fun _ => "") (listedPath none)
      [.compacted (p.messagesToSummarize ++ p.turnPrefixMessages) result.details] :=
    .compacted (by simp) hp hres
      (@rfl _ (listedCompaction "e" (some "d") result.details result.firstKeptEntryId none).compaction?)
      rfl nofun (.done _)
  have hprevious : countedLists (previousCompaction (listedPath none)) = earlierLists := rfl
  have hacc := fileLists_accumulate hrun
  rw [hprevious] at hacc
  exact ⟨_, _, hrun, hacc.1.1, hacc.2.1⟩

/-- Lists a hook wrote go no further: `a.ts` is gone, far below the cap. -/
theorem fileLists_drop_hooked :
    ∃ p c calls result, prepareCompaction (listedPath (some true)) keepNewest = some (some p) ∧
      previousCompaction (listedPath (some true)) = some c ∧
      compact (fun _ => "") (fun _ => .ok "both") none p = (calls, .ok result) ∧
      "a.ts" ∈ (storedLists c.details).modifiedFiles ∧ "a.ts" ∉ result.details.modifiedFiles ∧
      result.details.modifiedFiles.length < fileListMaxEntries := by
  obtain ⟨p, calls, result, hp, hres, hops⟩ : ∃ p calls result,
      prepareCompaction (listedPath (some true)) keepNewest = some (some p) ∧
      compact (fun _ => "") (fun _ => .ok "both") none p = (calls, .ok result) ∧
      p.fileOps = createFileOps :=
    ⟨_, _, _, rfl, rfl, rfl⟩
  have hdetails : result.details.modifiedFiles = [] := by
    rw [details_compact hres, hops]
    simp [computeFileLists, createFileOps, modifiedSet, Text.sort]
  refine ⟨p, _, calls, result, hp, rfl, hres, ?_, ?_, ?_⟩
  · rw [show (storedLists _).modifiedFiles = ["a.ts"] from rfl]
    exact mem_singleton_self _
  · rw [hdetails]
    exact not_mem_nil
  · rw [hdetails]
    decide

end Compact
end RePrime
