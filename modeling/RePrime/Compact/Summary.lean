import RePrime.Compact.Prepare

/-!
# RePrime.Compact.Summary

`compact`: the summarization calls of a compaction, and the summary it puts together from them.

* `compact_calls`, `compact_answering`: which calls are made and what the summary is.
* `Compactions`, `KeepsSummary`: a run of compactions on one path; when the previous summary goes
  into the next one.

How messages are written out for the prompt is `serialize`, any function; `complete` is the model:
a text or an error for every prompt.
-/

namespace RePrime
namespace Compact

open Session List

/-! ## Prompts -/

def summarizationPrompt : String :=
  "The messages above are a conversation to summarize. Create a structured context " ++
  "checkpoint summary that another LLM will use to continue the work.\n" ++
  "\nUse this EXACT format:\n\n## Goal\n" ++
  "[What is the user trying to accomplish? Can be multiple items if the session covers " ++
  "different tasks.]\n" ++
  "\n## Constraints & Preferences\n" ++
  "- [Any constraints, preferences, or requirements mentioned by user]\n" ++
  "- [Or \"(none)\" if none were mentioned]\n\n## Progress\n### Done\n" ++
  "- [x] [Completed tasks/changes]\n\n### In Progress\n- [ ] [Current work]\n\n" ++
  "### Blocked\n- [Issues preventing progress, if any]\n\n## Key Decisions\n" ++
  "- **[Decision]**: [Brief rationale]\n\n## Next Steps\n" ++
  "1. [Ordered list of what should happen next]\n\n## Critical Context\n" ++
  "- [Any data, examples, or references needed to continue]\n" ++
  "- [Or \"(none)\" if not applicable]\n\n" ++
  "Keep each section concise. Preserve exact file paths, function names, and error " ++
  "messages."

def updateSummarizationPrompt : String :=
  "The messages above are NEW conversation messages to incorporate into the existing " ++
  "summary provided in <previous-summary> tags.\n" ++
  "\nUpdate the existing structured summary with new information. RULES:\n" ++
  "- PRESERVE all existing information from the previous summary\n" ++
  "- ADD new progress, decisions, and context from the new messages\n" ++
  "- UPDATE the Progress section: move items from \"In Progress\" to \"Done\" when " ++
  "completed\n" ++
  "- UPDATE \"Next Steps\" based on what was accomplished\n" ++
  "- PRESERVE exact file paths, function names, and error messages\n" ++
  "- If something is no longer relevant, you may remove it\n\nUse this EXACT format:\n" ++
  "\n## Goal\n[Preserve existing goals, add new ones if the task expanded]\n\n" ++
  "## Constraints & Preferences\n- [Preserve existing, add new ones discovered]\n\n" ++
  "## Progress\n### Done\n" ++
  "- [x] [Include previously done items AND newly completed items]\n\n### In Progress\n" ++
  "- [ ] [Current work - update based on progress]\n\n### Blocked\n" ++
  "- [Current blockers - remove if resolved]\n\n## Key Decisions\n" ++
  "- **[Decision]**: [Brief rationale] (preserve all previous, add new)\n\n" ++
  "## Next Steps\n1. [Update based on current state]\n\n## Critical Context\n" ++
  "- [Preserve important context, add new if needed]\n\n" ++
  "Keep each section concise. Preserve exact file paths, function names, and error " ++
  "messages."

def turnPrefixSummarizationPrompt : String :=
  "This is the PREFIX of a turn that was too large to keep. The SUFFIX (recent work) is " ++
  "retained.\n" ++
  "\nSummarize the prefix to provide context for the retained suffix:\n\n" ++
  "## Original Request\n[What did the user ask for in this turn?]\n\n" ++
  "## Early Progress\n- [Key decisions and work done in the prefix]\n\n" ++
  "## Context for Suffix\n" ++
  "- [Information needed to understand the retained recent work]\n\n" ++
  "Be concise. Focus on what's needed to understand the kept suffix."

def kernelPersistSummaryNote : String :=
  "Note: the Python kernel keeps running after this summary — every Python variable, " ++
  "import, and helper you defined stays available. The cells that defined them won't " ++
  "appear above, so record in the summary any names worth remembering so you reuse them " ++
  "instead of redefining them."

/-- A string that is absent or empty counts as none. -/
def truthy (s : Option String) : Option String := s.filter fun s => s ≠ ""

def buildSummarizationPrompt (customInstructions previousSummary : Option String) : String :=
  let basePrompt :=
    match truthy previousSummary with
    | some _ => updateSummarizationPrompt
    | none => summarizationPrompt
  let instructions :=
    match truthy customInstructions with
    | some text =>
      "\n\n<user-instructions>\nThe user provided these instructions for this summary. Follow them " ++
        "with high priority while keeping the section format above: emphasize what they ask to " ++
        "focus on, and preserve verbatim anything they ask to remember.\n" ++ text ++
        "\n</user-instructions>"
    | none => ""
  basePrompt ++ instructions ++ "\n\n" ++ kernelPersistSummaryNote

/-- One wire call: `generateSummary` or `generateTurnPrefixSummary`. -/
inductive SummaryCall where
  | history (messages : List AgentMessage) (customInstructions previousSummary : Option String)
  | turnPrefix (messages : List AgentMessage)

def SummaryCall.messages : SummaryCall → List AgentMessage
  | .history messages _ _ => messages
  | .turnPrefix messages => messages

def SummaryCall.previousSummary : SummaryCall → Option String
  | .history _ _ previousSummary => previousSummary
  | .turnPrefix _ => none

def conversationBlock (conversationText : String) : String :=
  "<conversation>\n" ++ conversationText ++ "\n</conversation>\n\n"

def previousSummaryBlock (previousSummary : Option String) : String :=
  match truthy previousSummary with
  | some s => "<previous-summary>\n" ++ s ++ "\n</previous-summary>\n\n"
  | none => ""

def SummaryCall.promptText (conversationText : String) : SummaryCall → String
  | .history _ customInstructions previousSummary =>
    conversationBlock conversationText ++ previousSummaryBlock previousSummary ++
      buildSummarizationPrompt customInstructions previousSummary
  | .turnPrefix _ => conversationBlock conversationText ++ turnPrefixSummarizationPrompt

def SummaryCall.failure : SummaryCall → String
  | .history .. => "Summarization failed: "
  | .turnPrefix _ => "Turn prefix summarization failed: "

theorem includes_append_left {t u s : String} (h : Text.Includes t s) : Text.Includes (t ++ u) s := by
  rw [Text.Includes, String.toList_append]
  exact h.trans infix_append_left

theorem includes_append_right {t u s : String} (h : Text.Includes u s) : Text.Includes (t ++ u) s := by
  rw [Text.Includes, String.toList_append]
  exact h.trans infix_append_right

/-! ## The compaction -/

structure CompactionResult where
  summary : String
  firstKeptEntryId : String
  tokensBefore : Int
  details : FileLists

section

variable (serialize : List AgentMessage → String) (complete : String → Except String String)

/-- The text of the answer to a call. -/
def generate (call : SummaryCall) : Except String String :=
  match complete (call.promptText (serialize call.messages)) with
  | .ok text => .ok text
  | .error message => .error (call.failure ++ message)

/-- The two calls of a split turn are joined under one heading. -/
def splitSummary (history turnPrefix : String) : String :=
  history ++ "\n\n---\n\n**Turn Context (split turn):**\n\n" ++ turnPrefix

def CompactionPreparation.historyCall (p : CompactionPreparation) (customInstructions : Option String) :
    SummaryCall :=
  .history p.messagesToSummarize customInstructions p.previousSummary

def CompactionPreparation.turnPrefixCall (p : CompactionPreparation) : SummaryCall :=
  .turnPrefix p.turnPrefixMessages

def CompactionPreparation.finish (p : CompactionPreparation) (summary : String) :
    Except String CompactionResult :=
  let lists := computeFileLists p.fileOps
  if p.firstKeptEntryId = "" then
    .error "First kept entry has no UUID - session may need migration"
  else
    .ok
      { summary := summary ++ formatFileOperations lists
        firstKeptEntryId := p.firstKeptEntryId
        tokensBefore := p.tokensBefore
        details := lists }

/-- The calls, and the result. Both calls of a split turn are made before either is awaited. -/
def compact (customInstructions : Option String) (p : CompactionPreparation) :
    List SummaryCall × Except String CompactionResult :=
  if p.isSplitTurn ∧ 0 < p.turnPrefixMessages.length then
    if 0 < p.messagesToSummarize.length then
      ([p.historyCall customInstructions, p.turnPrefixCall], do
        let history ← generate serialize complete (p.historyCall customInstructions)
        let turnPrefix ← generate serialize complete p.turnPrefixCall
        p.finish (splitSummary history turnPrefix))
    else
      ([p.turnPrefixCall], do
        let turnPrefix ← generate serialize complete p.turnPrefixCall
        p.finish (splitSummary "No prior history." turnPrefix))
  else
    ([p.historyCall customInstructions], do
      let summary ← generate serialize complete (p.historyCall customInstructions)
      p.finish summary)

/-! ## What happens to the previous summary -/

variable {p : CompactionPreparation}

theorem finish_ok {summary : String} {result : CompactionResult} (h : p.finish summary = .ok result) :
    result.summary = summary ++ formatFileOperations (computeFileLists p.fileOps) ∧
      result.firstKeptEntryId = p.firstKeptEntryId := by
  unfold CompactionPreparation.finish at h
  by_cases hid : p.firstKeptEntryId = ""
  · simp only [hid, if_true] at h
    cases h
  · simp only [hid, if_false] at h
    cases h
    exact ⟨rfl, rfl⟩

theorem finish_of_ne (h : p.firstKeptEntryId ≠ "") (summary : String) : p.finish summary = .ok
        { summary := summary ++ formatFileOperations (computeFileLists p.fileOps)
          firstKeptEntryId := p.firstKeptEntryId
          tokensBefore := p.tokensBefore
          details := computeFileLists p.fileOps } := by
  simp [CompactionPreparation.finish, h]

/-- The history call is made unless a split turn has no history in front of it. -/
def DropsHistory (p : CompactionPreparation) : Prop :=
  p.isSplitTurn = true ∧ p.messagesToSummarize = [] ∧ p.turnPrefixMessages ≠ []

theorem compact_calls {customInstructions : Option String} {p : CompactionPreparation} (h : ¬DropsHistory p) :
    p.historyCall customInstructions ∈ (compact serialize complete customInstructions p).1 := by
  unfold compact
  split
  · rename_i hsplit
    split
    · exact mem_cons_self
    · rename_i hhistory
      refine absurd ⟨hsplit.1, ?_, ?_⟩ h
      · exact length_eq_zero_iff.1 (Nat.eq_zero_of_not_pos hhistory)
      · exact ne_nil_of_length_pos hsplit.2
  · exact mem_cons_self

theorem compact_of_dropsHistory {customInstructions : Option String} (h : DropsHistory p) :
    compact serialize complete customInstructions p = ([p.turnPrefixCall], do
        let turnPrefix ← generate serialize complete p.turnPrefixCall
        p.finish (splitSummary "No prior history." turnPrefix)) := by
  obtain ⟨hsplit, hhistory, hprefix⟩ := h
  rw [compact, if_pos ⟨hsplit, length_pos_iff.2 hprefix⟩, hhistory, if_neg (by simp)]

/-- What the summary holds beside the answer for the turn prefix when there is no history call. -/
def noHistoryText : String := splitSummary "No prior history." ""

theorem splitSummary_eq (t : String) : splitSummary "No prior history." t = noHistoryText ++ t := by
  rw [noHistoryText, splitSummary, splitSummary, String.append_empty]

theorem compact_result_of_dropsHistory {customInstructions : Option String}
    {calls : List SummaryCall} {result : CompactionResult} (h : DropsHistory p)
    (hc : compact serialize complete customInstructions p = (calls, .ok result)) : calls = [p.turnPrefixCall] ∧
      ∃ t, result.summary = noHistoryText ++ t ++ formatFileOperations (computeFileLists p.fileOps) := by
  rw [compact_of_dropsHistory serialize complete h] at hc
  obtain ⟨rfl, hres⟩ := Prod.mk.inj hc
  refine ⟨rfl, ?_⟩
  cases hg : generate serialize complete p.turnPrefixCall with
  | error message =>
    rw [hg] at hres
    cases hres
  | ok t =>
    rw [hg] at hres
    exact ⟨t, by rw [(finish_ok hres).1, splitSummary_eq]⟩

/-- A model that always answers `t` gives that summary. -/
theorem compact_answering {customInstructions : Option String} {p : CompactionPreparation}
    (h : DropsHistory p) (hid : p.firstKeptEntryId ≠ "") (t : String) :
    ∃ result, compact serialize (fun _ => .ok t) customInstructions p = ([p.turnPrefixCall], .ok result) ∧
      result.summary = noHistoryText ++ t ++ formatFileOperations (computeFileLists p.fileOps) := by
  have hcall : generate serialize (fun _ => .ok t) p.turnPrefixCall = .ok t := rfl
  have hres : compact serialize (fun _ => .ok t) customInstructions p =
      ([p.turnPrefixCall], p.finish (splitSummary "No prior history." t)) := by
    rw [compact_of_dropsHistory serialize _ h, hcall]
    rfl
  rw [hres, finish_of_ne hid, splitSummary_eq]
  exact ⟨_, rfl, rfl⟩

end

/-- A summary goes into the next compaction: a call is given it, or the new summary has it. -/
def HandedOn (s : String) (calls : List SummaryCall) (result : CompactionResult) : Prop :=
  (∃ call ∈ calls, call.previousSummary = some s) ∨ Text.Includes result.summary s

/-- The cut splits a turn with nothing to summarize in front of it. -/
def CutsFirstTurn (path : List SessionEntry) (settings : CompactionSettings) : Prop :=
  (cutOf path settings).isSplitTurn = true ∧ historyOf path (cutOf path settings) = [] ∧
    turnPrefixOf path (cutOf path settings) ≠ []

/-- The file lists at the end of the summary. -/
def filesText (path : List SessionEntry) (settings : CompactionSettings) : String :=
  formatFileOperations (computeFileLists (fileOpsOf path (cutOf path settings)))

/-- `s` survives a compaction, if only because it is part of what stands in every such summary. -/
def KeepsSummary (s : String) (path : List SessionEntry) (settings : CompactionSettings) : Prop :=
  CutsFirstTurn path settings → Text.Includes noHistoryText s ∨ Text.Includes (filesText path settings) s

/-- An answer around which `s` can only occur in the fixed texts. -/
theorem exists_separating (s : String) : ∃ t : String, ∀ a b : String, Text.Includes (a ++ t ++ b) s →
      Text.Includes a s ∨ Text.Includes b s := by
  obtain ⟨x, hhead, hlast⟩ : ∃ x, s.toList.head? ≠ some x ∧ s.toList.getLast? ≠ some x := by
    by_contra hno
    have hone : ∀ x, s.toList.head? = some x ∨ s.toList.getLast? = some x := by
      intro x
      by_contra hx
      exact hno ⟨x, fun h => hx (.inl h), fun h => hx (.inr h)⟩
    have ha := hone 'a'
    have hb := hone 'b'
    have hc := hone 'c'
    grind
  refine ⟨String.ofList (List.replicate (s.toList.length + 1) x), fun a b h => ?_⟩
  rw [Text.Includes, String.toList_append, String.toList_append, String.toList_ofList] at h
  exact (Text.infix_around_run hhead hlast (Nat.lt_succ_self _)).1 h

/-! ## Runs of compactions -/

structure Compacted where
  path : List SessionEntry
  settings : CompactionSettings
  calls : List SummaryCall
  result : CompactionResult

/-- Compactions of one growing path: entries that are no compactions come in between, and every
result is appended as the next compaction entry. -/
inductive Compactions (serialize : List AgentMessage → String) :
    List SessionEntry → List Compacted → Prop
  | done (path : List SessionEntry) : Compactions serialize path []
  | compacted {path more : List SessionEntry} {settings : CompactionSettings}
      {customInstructions : Option String} {complete : String → Except String String}
      {p : CompactionPreparation} {calls : List SummaryCall} {result : CompactionResult}
      {entry : SessionEntry} {c : Compaction} {log : List Compacted}
      (plain : ∀ e ∈ more, e.compaction? = none)
      (prepared : prepareCompaction (path ++ more) settings = some (some p))
      (result_eq : compact serialize complete customInstructions p = (calls, .ok result))
      (entry_eq : entry.compaction? = some c) (summary : c.summary = result.summary)
      (firstKept : c.firstKeptEntryId = result.firstKeptEntryId)
      (rest : Compactions serialize (path ++ more ++ [entry]) log) :
      Compactions serialize path ({ path := path ++ more, settings, calls, result } :: log)

/-- Each summary goes into the compaction after it. -/
def HandedAlong : Option String → List Compacted → Prop
  | _, [] => True
  | previous, step :: rest =>
    (∀ s ∈ previous, s ≠ "" → HandedOn s step.calls step.result) ∧
      HandedAlong (some step.result.summary) rest

variable {path : List SessionEntry}

theorem previousCompaction_append_plain {more : List SessionEntry} (h : ∀ e ∈ more, e.compaction? = none) :
    previousCompaction (path ++ more) = previousCompaction path := by
  cases exists_last_compaction path with
  | inl hnone =>
    have hall : ∀ e ∈ path ++ more, e.compaction? = none := by
      intro e he
      cases mem_append.1 he with
      | inl he => exact hnone e he
      | inr he => exact h e he
    rw [previousCompaction, previousCompaction, lastCompaction_none hnone, lastCompaction_none hall]
  | inr hsome =>
    obtain ⟨pre, entry, c, post, rfl, hc, hpost⟩ := hsome
    have hall : ∀ e ∈ post ++ more, e.compaction? = none := by
      intro e he
      cases mem_append.1 he with
      | inl he => exact hpost e he
      | inr he => exact h e he
    rw [previousCompaction, previousCompaction, append_assoc, cons_append,
      lastCompaction_append hc hpost, lastCompaction_append hc hall]

theorem previousCompaction_append_compaction {entry : SessionEntry}
    {c : Compaction} (h : entry.compaction? = some c) : previousCompaction (path ++ [entry]) = some c := by
  rw [previousCompaction, lastCompaction_append h (by simp)]
  rfl

theorem prepared_fields {settings : CompactionSettings}
    {p : CompactionPreparation} (h : prepareCompaction path settings = some (some p)) :
    p.firstKeptEntryId ≠ "" ∧ p.previousSummary = (previousCompaction path).map Compaction.summary ∧
      formatFileOperations (computeFileLists p.fileOps) = filesText path settings ∧
      (DropsHistory p ↔ CutsFirstTurn path settings) := by
  obtain ⟨tokens, hprep⟩ := prepareCompaction_cases h
  obtain ⟨firstKept, -, hid, -, rfl⟩ := preparation_cases hprep
  exact ⟨hid, rfl, rfl, .rfl⟩

section

variable {serialize : List AgentMessage → String}

variable {path : List SessionEntry}

/-- One compaction: where `KeepsSummary` holds, the previous summary goes on. -/
theorem handedOn_of_keepsSummary {settings : CompactionSettings}
    {p : CompactionPreparation} {c : Compaction} {complete : String → Except String String}
    {customInstructions : Option String} {calls : List SummaryCall} {result : CompactionResult}
    (hp : prepareCompaction path settings = some (some p)) (hc : previousCompaction path = some c)
    (hkeep : KeepsSummary c.summary path settings)
    (hres : compact serialize complete customInstructions p = (calls, .ok result)) :
    HandedOn c.summary calls result := by
  obtain ⟨-, hprevious, hfiles, hdrops⟩ := prepared_fields hp
  by_cases hd : DropsHistory p
  · obtain ⟨-, t, hsummary⟩ := compact_result_of_dropsHistory serialize complete hd hres
    right
    rw [hsummary, hfiles]
    cases hkeep (hdrops.1 hd) with
    | inl h => exact includes_append_left (includes_append_left h)
    | inr h => exact includes_append_right h
  · left
    have hmem := @compact_calls serialize complete customInstructions p hd
    rw [hres] at hmem
    refine ⟨_, hmem, ?_⟩
    rw [hc] at hprevious
    exact hprevious

theorem keepsSummary_of_handedOn {settings : CompactionSettings}
    {p : CompactionPreparation} {s : String} (customInstructions : Option String)
    (hp : prepareCompaction path settings = some (some p))
    (h : ∀ complete calls result, compact serialize complete customInstructions p = (calls, .ok result) →
      HandedOn s calls result) : KeepsSummary s path settings := by
  intro hcuts
  obtain ⟨hid, -, hfiles, hdrops⟩ := prepared_fields hp
  obtain ⟨t, ht⟩ := exists_separating s
  obtain ⟨result, hres, hsummary⟩ := @compact_answering serialize customInstructions p (hdrops.2 hcuts) hid t
  cases h _ _ _ hres with
  | inl hcall =>
    obtain ⟨call, hmem, hprev⟩ := hcall
    rw [mem_singleton.1 hmem] at hprev
    cases hprev
  | inr hinc =>
    rw [hsummary, hfiles] at hinc
    exact ht _ _ hinc

theorem handedAlong_of_keepsSummary {log : List Compacted} (h : Compactions serialize path log)
    (hkeep : ∀ step ∈ log, ∀ c, previousCompaction step.path = some c →
      KeepsSummary c.summary step.path step.settings) :
    HandedAlong ((previousCompaction path).map Compaction.summary) log := by
  induction h with
  | done path => trivial
  | @compacted path more settings customInstructions complete p calls result entry c log plain prepared
      result_eq entry_eq summary firstKept rest ih =>
    have ih := ih fun step hstep => hkeep step (mem_cons_of_mem _ hstep)
    rw [previousCompaction_append_compaction entry_eq, Option.map_some, summary] at ih
    refine ⟨fun s hs _ => ?_, ih⟩
    obtain ⟨c', hc', rfl⟩ := Option.map_eq_some_iff.1 hs
    rw [← previousCompaction_append_plain plain] at hc'
    exact handedOn_of_keepsSummary prepared hc' (hkeep _ mem_cons_self c' hc') result_eq

/-- A compaction hands the previous summary on, whatever the model answers, exactly when the cut does
not split the first turn behind the last compaction; in a run of such compactions no summary is
dropped. -/
theorem compact_handsOn_iff :
    (∀ {path : List SessionEntry} {settings : CompactionSettings} {p : CompactionPreparation}
      {c : Compaction} (customInstructions : Option String),
      prepareCompaction path settings = some (some p) → previousCompaction path = some c → c.summary ≠ "" →
      ((∀ complete calls result, compact serialize complete customInstructions p = (calls, .ok result) →
            HandedOn c.summary calls result) ↔ KeepsSummary c.summary path settings)) ∧
      ∀ {path : List SessionEntry} {log : List Compacted}, Compactions serialize path log →
        (∀ step ∈ log, ∀ c, previousCompaction step.path = some c →
          KeepsSummary c.summary step.path step.settings) →
        HandedAlong ((previousCompaction path).map Compaction.summary) log :=
  ⟨fun customInstructions hp hc _ =>
    ⟨keepsSummary_of_handedOn customInstructions hp,
      fun hkeep _ _ _ hres => handedOn_of_keepsSummary hp hc hkeep hres⟩,
    handedAlong_of_keepsSummary⟩

end

/-! ## Two paths behind a compaction -/

/-- Two turns, of which a compaction summarized the first. -/
def compactedPath : List SessionEntry :=
  [pathEntry "a" none (.message (userMessage "one")),
    pathEntry "b" (some "a") (.message (assistantMessage "two")),
    pathEntry "c" (some "b") (.message (userMessage "three")),
    compactionEntry "d" (some "c") "Goal: ship" "c"]

/-- The kept turn goes on: a cut at its answer splits it. -/
def answeredPath : List SessionEntry :=
  compactedPath ++ [pathEntry "e" (some "d") (.message (assistantMessage "four"))]

/-- The kept turn is followed by another one. -/
def nextTurnPath : List SessionEntry :=
  compactedPath ++ [pathEntry "e" (some "d") (.message (userMessage "four")),
      pathEntry "f" (some "e") (.message (assistantMessage "five"))]

theorem formatFileOperations_createFileOps : formatFileOperations (computeFileLists createFileOps) = "" := by
  simp [computeFileLists, createFileOps, modifiedSet, Text.sort, formatFileOperations, fileSection]

theorem compact_drops_summary : ∃ p calls result, prepareCompaction answeredPath keepNewest = some (some p) ∧
      (previousCompaction answeredPath).map Compaction.summary = some "Goal: ship" ∧
      compact (fun _ => "") (fun _ => .ok "prefix") none p = (calls, .ok result) ∧
      ¬HandedOn "Goal: ship" calls result := by
  refine ⟨_, _, _, rfl, rfl, rfl, ?_⟩
  intro h
  cases h with
  | inl hcall =>
    obtain ⟨call, hmem, hprev⟩ := hcall
    rw [mem_singleton.1 hmem] at hprev
    cases hprev
  | inr hinc =>
    have hops : fileOpsOf answeredPath (cutOf answeredPath keepNewest) = createFileOps := rfl
    replace hinc : Text.Includes (splitSummary "No prior history." "prefix" ++
        formatFileOperations (computeFileLists (fileOpsOf answeredPath (cutOf answeredPath keepNewest))))
        "Goal: ship" := hinc
    rw [hops, formatFileOperations_createFileOps] at hinc
    have hmem : 'G' ∈ (splitSummary "No prior history." "prefix" ++ "").toList := hinc.subset (by decide)
    simp [splitSummary] at hmem

theorem compact_handsOn_iff_nextTurnPath :
    ∃ p calls result, prepareCompaction nextTurnPath keepNewest = some (some p) ∧
      compact (fun _ => "") (fun _ => .ok "both") none p = (calls, .ok result) ∧
      HandedOn "Goal: ship" calls result ∧ HandedAlong ((previousCompaction nextTurnPath).map Compaction.summary)
        [{ path := nextTurnPath ++ [], settings := keepNewest, calls, result }] := by
  obtain ⟨p, result, hp, hres⟩ : ∃ p result, prepareCompaction nextTurnPath keepNewest = some (some p) ∧
      compact (fun _ => "") (fun _ => .ok "both") none p =
        ([p.historyCall none, p.turnPrefixCall], .ok result) :=
    ⟨_, _, rfl, rfl⟩
  have hkeep : ∀ c, previousCompaction nextTurnPath = some c →
      KeepsSummary c.summary nextTurnPath keepNewest := by
    intro c _ hcuts
    exact absurd (congrArg List.length hcuts.2.1) (by decide)
  refine ⟨p, _, result, hp, hres, ?_, ?_⟩
  · exact ((@compact_handsOn_iff fun _ => "").1 none hp rfl (by decide)).2 (hkeep _ rfl) _ _ _ hres
  · have hp' : prepareCompaction (nextTurnPath ++ []) keepNewest = some (some p) := hp
    refine (@compact_handsOn_iff fun _ => "").2
      (.compacted (by simp) hp' hres (@rfl _ (compactionEntry "g" (some "f") result.summary
        result.firstKeptEntryId).compaction?) rfl rfl (.done _)) ?_
    intro step hstep c hc
    rw [mem_singleton.1 hstep] at hc ⊢
    exact hkeep c hc

end Compact
end RePrime
