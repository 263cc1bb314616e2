import RePrime.Compact.CutPoint
import RePrime.Lib.JsNumber
import RePrime.Session.Invariant

/-!
# RePrime.Budget.ContextJanitor

The results of tool calls that are of no use any more are replaced by short texts: runs of failures that
a success followed, and large outputs of calls that were made again.

* `failureRuns`, `successDumps`: the two passes over the messages before the protected window.
* `failureRuns_run`: what the first pass does to one run.
* `Safe`: only contents of tool results change, the newest output of a call stays, and a run of failures
  goes as a whole. `planContextJanitor_safe_iff`: when this is so.
-/

namespace RePrime
namespace Budget

open Session RePrime.Compact List Option

/-! ## Categories of errors -/

/-- Folding of case, as far as it reaches ASCII letters. -/
def foldChar (c : Char) : Char :=
  if c.isUpper then c.toLower
  else if c.toNat = 0x17F then 's'
  else if c.toNat = 0x212A then 'k'
  else c

def isWordChar (c : Char) : Bool := c.isAlphanum || c == '_' || c.toNat == 0x17F || c.toNat == 0x212A

/-- The text has the word in it, in any case. -/
def includesFolded (word : String) (text : List Char) : Bool :=
  text.tails.any fun rest => (word.toList.map foldChar).isPrefixOf (rest.map foldChar)

/-- The text has one of the numbers in it, with nothing of a word beside it. -/
def includesNumber (numbers : List String) : Option Char → List Char → Bool
  | _, [] => false
  | before, c :: rest =>
    (!before.any isWordChar &&
      numbers.any fun n =>
        n.toList.isPrefixOf (c :: rest) && !((c :: rest).drop n.length).head?.any isWordChar) ||
      includesNumber numbers (some c) rest

def transientErrorWords : List String :=
  ["ETIMEDOUT", "ECONNRESET", "ECONNREFUSED", "EAI_AGAIN", "ENETUNREACH", "EPIPE", "socket hang up",
    "rate limit", "too many requests", "timed out", "timeout", "temporarily unavailable", "resource busy",
    "try again", "lock wait"]

def deterministicErrorWords : List String :=
  ["SyntaxError", "NameError", "TypeError", "ReferenceError", "ValueError", "IndentationError",
    "ImportError", "ModuleNotFoundError", "command not found", "no such file", "ENOENT",
    "permission denied", "already exists"]

def classifyJevError (error : String) : String :=
  let text := error.toList
  if text = [] then "NONE"
  else if transientErrorWords.any (includesFolded · text) ||
      includesNumber ["429", "500", "502", "503", "504"] none text then "TRANSIENT"
  else if deterministicErrorWords.any (includesFolded · text) || includesNumber ["404"] none text then
    "DETERMINISTIC"
  else "NONE"

/-! ## Messages -/

structure ContextJanitorOptions where
  minTokens : JsNumber
  minTurns : JsNumber
  turnIndex : JsNumber
  lastPruneTurn : JsNumber
  minFailures : Option JsNumber
  activeWindowTurns : Option JsNumber
  successDumpMinBytes : Option JsNumber

def defaultMinFailures : JsNumber := .finite 2

def defaultActiveWindowTurns : JsNumber := .finite 6

def defaultSuccessDumpMinBytes : JsNumber := .finite 8192

def uniqueInOrder (values : List String) : List String :=
  values.foldl (fun result value => if value ∈ result then result else result ++ [value]) []

def blockTexts (bs : List Block) : List String :=
  bs.filterMap fun b => match b with
    | .text t => some t.text
    | .image _ => none

def contentText : Content → String
  | .text s => s
  | .blocks bs => "\n".intercalate (blockTexts bs)

def textOf : AgentMessage → String
  | .user m => contentText m.content
  | .assistant m => "\n".intercalate (m.content.filterMap fun b => match b with
    | .text t => some t.text
    | _ => none)
  | .toolResult m => "\n".intercalate (blockTexts m.content)
  | .custom m => contentText m.content
  | _ => ""

def isFailedToolResult : AgentMessage → Bool
  | .toolResult m => m.isError
  | _ => false

def isSuccessfulToolResult : AgentMessage → Bool
  | .toolResult m => !m.isError
  | _ => false

def isToolCall : AssistantBlock → Bool
  | .toolCall _ => true
  | _ => false

def isAssistantToolCall : AgentMessage → Bool
  | .assistant m => m.content.any isToolCall
  | _ => false

/-- The messages newest first. -/
def protectedFrom (activeWindowTurns : JsNumber) : Nat → List AgentMessage → Nat
  | _, [] => 0
  | assistantsSeen, .assistant _ :: older =>
    if activeWindowTurns.le (.finite (assistantsSeen + 1 : Nat)) then older.length
    else protectedFrom activeWindowTurns (assistantsSeen + 1) older
  | assistantsSeen, _ :: older => protectedFrom activeWindowTurns assistantsSeen older

def protectedStartIndex (messages : List AgentMessage) (activeWindowTurns : JsNumber) : Nat :=
  if activeWindowTurns.le (.finite 0) then messages.length
  else protectedFrom activeWindowTurns 0 messages.reverse

structure Failure where
  index : Nat
  toolName : String
  category : String

def trajectoryTombstone (failures : List Failure) (successTool : String) : String :=
  let tools := uniqueInOrder (failures.map Failure.toolName)
  let categories := uniqueInOrder ((failures.map Failure.category).filter fun c => c ≠ "NONE")
  let categoryText := if 0 < categories.length then " (" ++ ", ".intercalate categories ++ ")" else ""
  let plural := if failures.length = 1 then "attempt" else "attempts"
  "[Historical execution compressed: " ++ toString failures.length ++ " failed " ++
    "/".intercalate tools ++ " " ++ plural ++ categoryText ++ " superseded by a successful " ++
    successTool ++ " call; prior outputs omitted.]"

def attemptTombstone (toolName : String) : String := "[compressed: failed " ++ toolName ++ " attempt]"

/-- Only tool results are replaced. -/
def replaceToolResultContent (message : AgentMessage) (text : String) : AgentMessage :=
  match message with
  | .toolResult m => .toolResult { m with content := [.text { text, textSignature := none }] }
  | message => message

def messageTextBytes (message : AgentMessage) : Nat := (Utf8.encode (textOf message).toList).length

def callSignature (call : ToolCall) : String :=
  call.name ++ ":" ++ String.ofList (Json.stringify (.object call.arguments))

def messageCalls : AgentMessage → List ToolCall
  | .assistant m => m.content.filterMap fun b => match b with
    | .toolCall call => some call
    | _ => none
  | _ => []

def callSignaturesById (messages : List AgentMessage) : OrderedMap String String :=
  (messages.flatMap messageCalls).foldl (fun m call => m.set call.id (callSignature call)) .empty

def successDumpTombstone (toolName : String) (bytes : Nat) : String :=
  "[Historical execution compressed: superseded successful " ++ toolName ++ " output (" ++
    toString bytes ++ " bytes); a later identical call succeeded, prior output omitted.]"

/-! ## The two passes -/

/-- The run that is open, and what was decided. -/
structure Runs where
  runStart : Option Nat
  runFailures : List Failure
  replacements : OrderedMap Nat String
  trajectoriesCompressed : Nat

def Runs.none : Runs :=
  { runStart := .none, runFailures := [], replacements := .empty, trajectoriesCompressed := 0 }

/-- The first failure is replaced by the summary, the others by a short note. -/
def replaceRun (failures : List Failure) (summary : String) (replacements : OrderedMap Nat String) :
    OrderedMap Nat String :=
  match failures with
  | [] => replacements
  | first :: others =>
    others.foldl (fun m failure => m.set failure.index (attemptTombstone failure.toolName))
      (replacements.set first.index summary)

def closeRun (messages : List AgentMessage) (minFailures : JsNumber) (runEnd : Nat) (runs : Runs) : Runs :=
  let closed :=
    if runs.runStart.isSome ∧ minFailures.le (.finite runs.runFailures.length) then
      match (messages.drop runEnd).find? isSuccessfulToolResult with
      | some (.toolResult successTool) =>
        { runs with
          trajectoriesCompressed := runs.trajectoriesCompressed + 1
          replacements := replaceRun runs.runFailures
            (trajectoryTombstone runs.runFailures successTool.toolName) runs.replacements }
      | _ => runs
    else runs
  { closed with runStart := .none, runFailures := [] }

def failureOf (index : Nat) (message : AgentMessage) : List Failure :=
  match message with
  | .toolResult m =>
    if m.isError then [{ index, toolName := m.toolName, category := classifyJevError (textOf message) }]
    else []
  | _ => []

/-- One message of the loop. -/
def visit (messages : List AgentMessage) (minFailures : JsNumber) (index : Nat) (message : AgentMessage)
    (runs : Runs) : Runs :=
  if isAssistantToolCall message || isFailedToolResult message then
    { runs with
      runStart := if runs.runStart.isSome then runs.runStart else some index
      runFailures := runs.runFailures ++ failureOf index message }
  else closeRun messages minFailures index runs

/-- The loop over the messages from an index on. -/
def visitFrom (messages : List AgentMessage) (minFailures : JsNumber) : Nat → List AgentMessage → Runs → Runs
  | _, [], runs => runs
  | index, message :: rest, runs =>
    visitFrom messages minFailures (index + 1) rest (visit messages minFailures index message runs)

def failureRuns (messages : List AgentMessage) (minFailures : JsNumber) (boundary : Nat) : Runs :=
  closeRun messages minFailures boundary
    (visitFrom messages minFailures 0 (messages.take boundary) .none)

/-- A successful result of the call, among the messages after an index. -/
def supersededBy (signatures : OrderedMap String String) (signature : String) : AgentMessage → Bool
  | .toolResult m => !m.isError && decide (signatures.get? m.toolCallId = some signature)
  | _ => false

def dump (messages : List AgentMessage) (signatures : OrderedMap String String) (minBytes : JsNumber)
    (index : Nat) (message : AgentMessage) (st : OrderedMap Nat String × Nat) : OrderedMap Nat String × Nat :=
  match message with
  | .toolResult m =>
    if m.isError || st.1.has index then st
    else
      let bytes := messageTextBytes message
      if (JsNumber.finite bytes).lt minBytes then st
      else
        match signatures.get? m.toolCallId with
        | none => st
        | some signature =>
          if (messages.drop (index + 1)).any (supersededBy signatures signature) then
            (st.1.set index (successDumpTombstone m.toolName bytes), st.2 + 1)
          else st
  | _ => st

def dumpFrom (messages : List AgentMessage) (signatures : OrderedMap String String) (minBytes : JsNumber) :
    Nat → List AgentMessage → OrderedMap Nat String × Nat → OrderedMap Nat String × Nat
  | _, [], st => st
  | index, message :: rest, st =>
    dumpFrom messages signatures minBytes (index + 1) rest (dump messages signatures minBytes index message st)

def successDumps (messages : List AgentMessage) (minBytes : JsNumber) (boundary : Nat)
    (replacements : OrderedMap Nat String) : OrderedMap Nat String × Nat :=
  if (JsNumber.finite 0).lt minBytes then
    dumpFrom messages (callSignaturesById messages) minBytes 0 (messages.take boundary) (replacements, 0)
  else (replacements, 0)

/-! ## The plan -/

structure ContextJanitorPlan where
  messages : List AgentMessage
  changed : Bool
  trajectoriesCompressed : Nat
  successDumpsCompressed : Nat
  messagesCompressed : Nat
  estimatedTokensBefore : Int
  estimatedTokensAfter : Int

def replaceAll (messages : List AgentMessage) (replacements : OrderedMap Nat String) : List AgentMessage :=
  messages.mapIdx fun index message =>
    match replacements.get? index with
    | some text => replaceToolResultContent message text
    | none => message

def ContextJanitorOptions.boundary (options : ContextJanitorOptions) (messages : List AgentMessage) : Nat :=
  protectedStartIndex messages (options.activeWindowTurns.getD defaultActiveWindowTurns)

def planContextJanitor (messages : List AgentMessage) (options : ContextJanitorOptions) :
    ContextJanitorPlan :=
  let empty : ContextJanitorPlan :=
    { messages, changed := false, trajectoriesCompressed := 0, successDumpsCompressed := 0
      messagesCompressed := 0, estimatedTokensBefore := 0, estimatedTokensAfter := 0 }
  if (options.turnIndex.sub options.lastPruneTurn).lt options.minTurns then empty
  else
    let estimatedTokensBefore := estimateContextTokens messages
    if (JsNumber.finite estimatedTokensBefore).lt options.minTokens then empty
    else
      let boundary := options.boundary messages
      let runs := failureRuns messages (options.minFailures.getD defaultMinFailures) boundary
      let (replacements, successDumpsCompressed) := successDumps messages
        (options.successDumpMinBytes.getD defaultSuccessDumpMinBytes) boundary runs.replacements
      if replacements.size = 0 then { empty with estimatedTokensBefore }
      else
        let output := replaceAll messages replacements
        { messages := output
          changed := true
          trajectoriesCompressed := runs.trajectoriesCompressed
          successDumpsCompressed
          messagesCompressed := replacements.size
          estimatedTokensBefore
          estimatedTokensAfter := estimateContextTokens output }

/-! ## Lengths and indices -/

section

variable {messages : List AgentMessage} {minFailures minBytes : JsNumber} {runs : Runs}

theorem protectedFrom_le (turns : JsNumber) : ∀ (l : List AgentMessage) (seen : Nat),
    protectedFrom turns seen l ≤ l.length := by
  intro l
  induction l with
  | nil => exact fun _ => Nat.le_refl _
  | cons m older ih =>
    intro seen
    cases m with
    | assistant a =>
      rw [protectedFrom]
      split
      · exact Nat.le_succ _
      · exact (ih _).trans (Nat.le_succ _)
    | _ => exact (ih seen).trans (Nat.le_succ _)

theorem boundary_le (options : ContextJanitorOptions) (messages : List AgentMessage) :
    options.boundary messages ≤ messages.length := by
  rw [ContextJanitorOptions.boundary, protectedStartIndex]
  split
  · exact Nat.le_refl _
  · have h := protectedFrom_le (options.activeWindowTurns.getD defaultActiveWindowTurns) messages.reverse 0
    rwa [length_reverse] at h

/-! ## The replacements of one run -/

/-- The text that a closed run gives to an index. -/
def runText (failures : List Failure) (summary : String) (index : Nat) : Option String :=
  match failures with
  | [] => none
  | first :: others =>
    if index = first.index then some summary
    else (others.find? fun failure => failure.index = index).map fun failure =>
      attemptTombstone failure.toolName

variable {failures : List Failure}

theorem get?_foldl_attempts (hn : (failures.map Failure.index).Nodup) (i : Nat) : ∀ m : OrderedMap Nat String,
      (failures.foldl (fun m failure => m.set failure.index (attemptTombstone failure.toolName)) m).get? i =
        match failures.find? fun failure => failure.index = i with
        | some failure => some (attemptTombstone failure.toolName) | none => m.get? i := by
  induction failures with
  | nil => exact fun m => rfl
  | cons f failures ih =>
    intro m
    rw [map_cons, nodup_cons] at hn
    rw [foldl_cons, ih hn.2, OrderedMap.get?_set, find?_cons]
    by_cases hf : f.index = i
    · have hnone : failures.find? (fun failure => failure.index = i) = none := by
        refine find?_eq_none.2 fun g hg he => hn.1 ?_
        rw [hf, ← of_decide_eq_true he]
        exact mem_map_of_mem hg
      simp [hf, hnone]
    · simp [hf, Ne.symm hf]

theorem get?_replaceRun (hn : (failures.map Failure.index).Nodup)
    (summary : String) (m : OrderedMap Nat String) (i : Nat) :
    (replaceRun failures summary m).get? i = (runText failures summary i).or (m.get? i) := by
  cases failures with
  | nil => rfl
  | cons first others =>
    rw [map_cons, nodup_cons] at hn
    rw [replaceRun, get?_foldl_attempts hn.2, OrderedMap.get?_set, runText]
    by_cases hf : i = first.index
    · have hnone : others.find? (fun failure => failure.index = i) = none := by
        refine find?_eq_none.2 fun g hg he => hn.1 ?_
        rw [← hf, ← of_decide_eq_true he]
        exact mem_map_of_mem hg
      subst hf
      simp [hnone]
    · rw [if_neg hf, if_neg hf]
      cases others.find? fun failure => failure.index = i with
      | none => rfl
      | some failure => rfl

variable {i : Nat}

theorem exists_of_runText {summary text : String}
    (h : runText failures summary i = some text) : ∃ failure ∈ failures, failure.index = i := by
  cases failures with
  | nil => cases h
  | cons first others =>
    rw [runText] at h
    split at h
    · rename_i hi
      exact ⟨first, mem_cons_self, hi.symm⟩
    · obtain ⟨failure, hfind, -⟩ := map_eq_some_iff.1 h
      exact ⟨failure, mem_cons_of_mem _ (mem_of_find?_eq_some hfind), by simpa using find?_some hfind⟩

theorem runText_isSome {failure : Failure} (h : failure ∈ failures)
    (summary : String) : (runText failures summary failure.index).isSome = true := by
  cases failures with
  | nil => cases h
  | cons first others =>
    rw [runText]
    split
    · rfl
    · rename_i hne
      obtain rfl | h := mem_cons.1 h
      · exact absurd rfl hne
      · rw [isSome_map, find?_isSome]
        exact ⟨failure, h, decide_eq_true rfl⟩

/-- The tool that succeeded after a run that has enough failures. -/
def successAfter (messages : List AgentMessage) (minFailures : JsNumber) (runEnd : Nat)
    (failures : List Failure) : Option String :=
  if minFailures.le (.finite failures.length) then
    match (messages.drop runEnd).find? isSuccessfulToolResult with
    | some (.toolResult m) => some m.toolName
    | _ => none
  else none

theorem get?_closeRun (hn : (runs.runFailures.map Failure.index).Nodup)
    (hstart : runs.runFailures ≠ [] → runs.runStart.isSome = true) (runEnd i : Nat) :
    (closeRun messages minFailures runEnd runs).replacements.get? i =
      ((successAfter messages minFailures runEnd runs.runFailures).bind fun tool =>
        runText runs.runFailures (trajectoryTombstone runs.runFailures tool) i).or (runs.replacements.get? i) := by
  rw [closeRun, successAfter]
  simp only []
  by_cases hle : minFailures.le (.finite runs.runFailures.length) = true
  · by_cases hsome : runs.runStart.isSome = true
    · rw [if_pos ⟨hsome, hle⟩, if_pos hle]
      cases hfind : (messages.drop runEnd).find? isSuccessfulToolResult with
      | none => rfl
      | some m =>
        cases m with
        | toolResult m => exact get?_replaceRun hn _ _ i
        | _ => rfl
    · have hnil : runs.runFailures = [] := by
        by_contra hne
        exact hsome (hstart hne)
      rw [if_neg fun h => hsome h.1, if_pos hle, hnil]
      cases (messages.drop runEnd).find? isSuccessfulToolResult with
      | none => rfl
      | some m =>
        cases m with
        | _ => rfl
  · rw [if_neg fun h => hle h.2, if_neg hle]
    rfl

/-! ## The first pass -/

def inRun (message : AgentMessage) : Bool := isAssistantToolCall message || isFailedToolResult message

def failuresFrom : Nat → List AgentMessage → List Failure
  | _, [] => []
  | index, message :: rest => failureOf index message ++ failuresFrom (index + 1) rest

variable {index : Nat} {message : AgentMessage}

theorem mem_failureOf {failure : Failure} (h : failure ∈ failureOf index message) :
    failure.index = index ∧ isFailedToolResult message = true := by
  cases message with
  | toolResult m =>
    rw [failureOf] at h
    split at h
    · rename_i herror
      rw [mem_singleton] at h
      exact ⟨by rw [h], herror⟩
    · cases h
  | _ => cases h

theorem failureOf_failed {index : Nat} {message : AgentMessage} (h : isFailedToolResult message = true) :
    ∃ failure ∈ failureOf index message, failure.index = index := by
  cases message with
  | toolResult m =>
    have herror : m.isError = true := h
    rw [failureOf, if_pos herror]
    exact ⟨_, mem_cons_self, rfl⟩
  | _ => cases h

/-- The failures that wait for the end of their run, before an index. -/
structure Runs.Ok (messages : List AgentMessage) (index : Nat) (runs : Runs) : Prop where
  nodup : (runs.runFailures.map Failure.index).Nodup
  start : runs.runFailures ≠ [] → runs.runStart.isSome = true
  failed : ∀ failure ∈ runs.runFailures, failure.index < index ∧
    ∃ message, messages[failure.index]? = some message ∧ isFailedToolResult message = true
  replaced : ∀ i text, runs.replacements.get? i = some text → i < index ∧
    (∃ message, messages[i]? = some message ∧ isFailedToolResult message = true) ∧
    ∃ j message, i < j ∧ messages[j]? = some message ∧ isSuccessfulToolResult message = true

theorem ok_none : Runs.none.Ok messages 0 where
  nodup := nodup_nil
  start := fun h => absurd rfl h
  failed := fun _ h => by cases h
  replaced := fun _ _ h => by cases h

theorem success_of_successAfter {runEnd : Nat} {tool : String}
    (h : successAfter messages minFailures runEnd failures = some tool) :
    ∃ j message, runEnd ≤ j ∧ messages[j]? = some message ∧ isSuccessfulToolResult message = true := by
  rw [successAfter] at h
  split at h
  · cases hfind : (messages.drop runEnd).find? isSuccessfulToolResult with
    | none =>
      rw [hfind] at h
      cases h
    | some message =>
      obtain ⟨j, hj⟩ := mem_iff_getElem?.1 (mem_of_find?_eq_some hfind)
      rw [getElem?_drop] at hj
      exact ⟨runEnd + j, message, Nat.le_add_right _ _, hj, find?_some hfind⟩
  · cases h

theorem ok_closeRun {index : Nat} (h : runs.Ok messages index) :
    (closeRun messages minFailures index runs).Ok messages index where
  nodup := nodup_nil
  start := fun h => absurd rfl h
  failed := fun _ h => by cases h
  replaced := by
    intro i text hi
    rw [get?_closeRun h.nodup h.start] at hi
    cases hafter : successAfter messages minFailures index runs.runFailures with
    | none =>
      rw [hafter] at hi
      exact h.replaced i text hi
    | some tool =>
      rw [hafter, bind_some] at hi
      cases htext : runText runs.runFailures (trajectoryTombstone runs.runFailures tool) i with
      | none =>
        rw [htext] at hi
        exact h.replaced i text hi
      | some other =>
        obtain ⟨failure, hmem, rfl⟩ := exists_of_runText htext
        obtain ⟨hlt, hfailed⟩ := h.failed failure hmem
        obtain ⟨j, message, hle, hj, hsuccess⟩ := success_of_successAfter hafter
        exact ⟨hlt, hfailed, j, message, by omega, hj, hsuccess⟩

theorem Runs.Ok.mono {index' : Nat} (h : runs.Ok messages index) (hle : index ≤ index') :
    runs.Ok messages index' where
  nodup := h.nodup
  start := h.start
  failed := by
    intro failure hf
    obtain ⟨hlt, hfailed⟩ := h.failed failure hf
    exact ⟨by omega, hfailed⟩
  replaced := by
    intro i text hi
    obtain ⟨hlt, hrest⟩ := h.replaced i text hi
    exact ⟨by omega, hrest⟩

theorem ok_visit {index : Nat} {message : AgentMessage} (h : runs.Ok messages index)
    (hm : messages[index]? = some message) :
    (visit messages minFailures index message runs).Ok messages (index + 1) := by
  rw [visit]
  split
  · constructor
    · show ((runs.runFailures ++ failureOf index message).map Failure.index).Nodup
      rw [map_append, nodup_append']
      refine ⟨h.nodup, ?_, ?_⟩
      · cases message with
        | toolResult m =>
          rw [failureOf]
          split
          · exact nodup_singleton _
          · exact nodup_nil
        | _ => exact nodup_nil
      · intro i hi hi'
        obtain ⟨failure, hf, rfl⟩ := mem_map.1 hi
        obtain ⟨failure', hf', hsame⟩ := mem_map.1 hi'
        have hlt := (h.failed failure hf).1
        rw [(mem_failureOf hf').1] at hsame
        omega
    · intro _
      show (if runs.runStart.isSome then runs.runStart else some index).isSome = true
      split
      · assumption
      · rfl
    · intro failure hf
      obtain hf | hf := mem_append.1 hf
      · obtain ⟨hlt, hfailed⟩ := h.failed failure hf
        exact ⟨by omega, hfailed⟩
      · obtain ⟨hindex, hfailed⟩ := mem_failureOf hf
        rw [hindex]
        exact ⟨Nat.lt_succ_self _, message, hm, hfailed⟩
    · intro i text hi
      obtain ⟨hlt, hrest⟩ := h.replaced i text hi
      exact ⟨by omega, hrest⟩
  · exact (ok_closeRun h).mono (Nat.le_succ _)

theorem ok_visitFrom {l : List AgentMessage} : ∀ {index : Nat} {runs : Runs}, runs.Ok messages index →
    (∀ i, i < l.length → messages[index + i]? = l[i]?) →
    (visitFrom messages minFailures index l runs).Ok messages (index + l.length) := by
  induction l with
  | nil => exact fun h _ => h
  | cons message rest ih =>
    intro index runs h hl
    have hstep := @ok_visit _ minFailures _ _ _ h (hl 0 (by simp))
    have hrest := ih hstep fun i hi => by
      have hi' := hl (i + 1) (by simpa using hi)
      rwa [getElem?_cons_succ, ← Nat.add_assoc, Nat.add_right_comm] at hi'
    rw [visitFrom, length_cons, ← Nat.add_assoc, Nat.add_right_comm]
    exact hrest

variable {boundary : Nat}

theorem getElem?_take_of_lt (h : i < (messages.take boundary).length) :
    messages[0 + i]? = (messages.take boundary)[i]? := by
  rw [length_take] at h
  rw [List.getElem?_take_of_lt (by omega), Nat.zero_add]

theorem ok_failureRuns (hle : boundary ≤ messages.length) :
    (failureRuns messages minFailures boundary).Ok messages boundary := by
  have h := @ok_visitFrom _ minFailures (messages.take boundary) _ _ ok_none
    fun i hi => getElem?_take_of_lt hi
  rw [length_take, Nat.min_eq_left hle, Nat.zero_add] at h
  exact ok_closeRun h

/-! ## One run of failures -/

theorem visitFrom_append (a b : List AgentMessage) : ∀ (index : Nat) (runs : Runs),
    visitFrom messages minFailures index (a ++ b) runs =
      visitFrom messages minFailures (index + a.length) b (visitFrom messages minFailures index a runs) := by
  induction a with
  | nil => exact fun _ _ => rfl
  | cons message a ih =>
    intro index runs
    rw [cons_append, visitFrom, visitFrom, ih, length_cons, ← Nat.add_assoc, Nat.add_right_comm]

theorem visitFrom_run {l : List AgentMessage} (hl : ∀ message ∈ l, inRun message = true) :
    ∀ (index : Nat) (runs : Runs),
      (visitFrom messages minFailures index l runs).runFailures = runs.runFailures ++ failuresFrom index l ∧
      (visitFrom messages minFailures index l runs).replacements = runs.replacements := by
  induction l with
  | nil => exact fun _ runs => ⟨(append_nil _).symm, rfl⟩
  | cons message l ih =>
    intro index runs
    have hvisit : visit messages minFailures index message runs = { runs with
          runStart := if runs.runStart.isSome then runs.runStart else some index
          runFailures := runs.runFailures ++ failureOf index message } := by
      have hm := hl message mem_cons_self
      rw [inRun] at hm
      rw [visit, if_pos hm]
    obtain ⟨hfailures, hsame⟩ := ih (fun m hm => hl m (mem_cons_of_mem _ hm)) (index + 1)
      (visit messages minFailures index message runs)
    rw [visitFrom, hfailures, hsame, hvisit, failuresFrom, append_assoc]
    exact ⟨rfl, rfl⟩

theorem visitFrom_closed {l : List AgentMessage} (hl : ∀ message ∈ l.getLast?, inRun message = false)
    {index : Nat} (hruns : runs.runFailures = []) :
    (visitFrom messages minFailures index l runs).runFailures = [] := by
  induction l using reverseRecOn with
  | nil => exact hruns
  | append_singleton l message _ =>
    have hm := hl message (by rw [getLast?_append]; rfl)
    rw [inRun] at hm
    rw [visitFrom_append, visitFrom, visitFrom, visit, if_neg (by rw [hm]; exact Bool.false_ne_true)]
    rfl

theorem get?_closeRun_of_lt {lo : Nat} (h : runs.Ok messages index)
    (hlo : ∀ failure ∈ runs.runFailures, lo ≤ failure.index) (hi : i < lo) (runEnd : Nat) :
    (closeRun messages minFailures runEnd runs).replacements.get? i = runs.replacements.get? i := by
  rw [get?_closeRun h.nodup h.start]
  cases hafter : successAfter messages minFailures runEnd runs.runFailures with
  | none => rfl
  | some tool =>
    rw [bind_some]
    cases htext : runText runs.runFailures (trajectoryTombstone runs.runFailures tool) i with
    | none => rfl
    | some text =>
      obtain ⟨failure, hmem, rfl⟩ := exists_of_runText htext
      have hge := hlo failure hmem
      omega

theorem get?_visitFrom {lo : Nat} {l : List AgentMessage} : ∀ {index : Nat} {runs : Runs},
    runs.Ok messages index → (∀ i, i < l.length → messages[index + i]? = l[i]?) → lo ≤ index →
    (∀ failure ∈ runs.runFailures, lo ≤ failure.index) →
    (∀ failure ∈ (visitFrom messages minFailures index l runs).runFailures, lo ≤ failure.index) ∧
      ∀ i, i < lo → (visitFrom messages minFailures index l runs).replacements.get? i =
        runs.replacements.get? i := by
  induction l with
  | nil => exact fun _ _ _ hlo => ⟨hlo, fun _ _ => rfl⟩
  | cons message rest ih =>
    intro index runs h hl hle hlo
    have hhead := hl 0 (by simp)
    have hrest : ∀ i, i < rest.length → messages[index + 1 + i]? = rest[i]? := by
      intro i hi
      have hi' := hl (i + 1) (by simpa using hi)
      rwa [getElem?_cons_succ, ← Nat.add_assoc, Nat.add_right_comm] at hi'
    have hstep : (∀ failure ∈ (visit messages minFailures index message runs).runFailures,
        lo ≤ failure.index) ∧
        ∀ i, i < lo → (visit messages minFailures index message runs).replacements.get? i =
          runs.replacements.get? i := by
      rw [visit]
      split
      · refine ⟨fun failure hf => ?_, fun _ _ => rfl⟩
        obtain hf | hf := mem_append.1 hf
        · exact hlo failure hf
        · rw [(mem_failureOf hf).1]
          exact hle
      · exact ⟨fun failure hf => by (cases hf), fun i hi => get?_closeRun_of_lt h hlo hi index⟩
    obtain ⟨hlo', hsame⟩ := ih (ok_visit h hhead) hrest (by omega) hstep.1
    refine ⟨hlo', fun i hi => ?_⟩
    rw [visitFrom, hsame i hi, hstep.2 i hi]

variable {pre run post : List AgentMessage}

/-- What the first pass does to a run: all of its failures get their texts, or none. -/
theorem failureRuns_run (hle : boundary ≤ messages.length) (hsplit : messages.take boundary = pre ++ run ++ post)
    (hrun : ∀ message ∈ run, inRun message = true) (hpre : ∀ message ∈ pre.getLast?, inRun message = false)
    (hpost : ∀ message ∈ post.head?, inRun message = false) (hlo : pre.length ≤ i)
    (hhi : i < pre.length + run.length) : (failureRuns messages minFailures boundary).replacements.get? i =
      (successAfter messages minFailures (pre.length + run.length) (failuresFrom pre.length run)).bind
        fun tool => runText (failuresFrom pre.length run)
          (trajectoryTombstone (failuresFrom pre.length run) tool) i := by
  have hlen := congrArg List.length hsplit
  simp only [length_take, length_append, Nat.min_eq_left hle] at hlen
  have hget : ∀ i, i < (messages.take boundary).length → messages[0 + i]? = (pre ++ run ++ post)[i]? := by
    intro i hi
    rw [← hsplit]
    exact getElem?_take_of_lt hi
  rw [hsplit] at hget
  simp only [length_append] at hget
  -- the loop over the part before the run
  have hokPre : (visitFrom messages minFailures 0 pre .none).Ok messages (0 + pre.length) := by
    refine ok_visitFrom ok_none fun i hi => ?_
    rw [hget i (by omega), List.getElem?_append_left (by rw [length_append]; omega), List.getElem?_append_left hi]
  rw [Nat.zero_add] at hokPre
  have hclosed := @visitFrom_closed messages minFailures .none _ hpre 0 rfl
  -- the loop over the run
  have hokRun : (visitFrom messages minFailures pre.length run
      (visitFrom messages minFailures 0 pre .none)).Ok messages (pre.length + run.length) := by
    refine ok_visitFrom hokPre fun i hi => ?_
    rw [← Nat.zero_add (pre.length + i), hget _ (by omega),
      List.getElem?_append_left (by rw [length_append]; omega),
      getElem?_append_right (Nat.le_add_right _ _), Nat.add_sub_cancel_left]
  obtain ⟨hfailures, hsame⟩ := @visitFrom_run messages minFailures _ hrun
    pre.length (visitFrom messages minFailures 0 pre .none)
  rw [hclosed, nil_append] at hfailures
  generalize hatEnd : visitFrom messages minFailures pre.length run
    (visitFrom messages minFailures 0 pre .none) = atEnd at hokRun hfailures hsame
  have hbefore : atEnd.replacements.get? i = none := by
    rw [hsame]
    cases hi : (visitFrom messages minFailures 0 pre .none).replacements.get? i with
    | none => rfl
    | some text =>
      have hlt := (hokPre.replaced i text hi).1
      omega
  have hclose : (closeRun messages minFailures (pre.length + run.length) atEnd).replacements.get? i =
      (successAfter messages minFailures (pre.length + run.length) (failuresFrom pre.length run)).bind
        fun tool => runText (failuresFrom pre.length run)
          (trajectoryTombstone (failuresFrom pre.length run) tool) i := by
    rw [get?_closeRun hokRun.nodup hokRun.start, hbefore, or_none, hfailures]
  rw [← hclose, failureRuns, hsplit, visitFrom_append, visitFrom_append, length_append, Nat.zero_add,
    Nat.zero_add, hatEnd]
  cases post with
  | nil =>
    rw [visitFrom, hlen, length_nil, Nat.add_zero]
  | cons message rest =>
    have hm := hpost message rfl
    rw [inRun] at hm
    have hok := (@ok_closeRun _ minFailures _ _ hokRun).mono (Nat.le_succ _)
    have hafter : ∀ i, i < rest.length → messages[pre.length + run.length + 1 + i]? = rest[i]? := by
      intro i hi
      rw [← Nat.zero_add (pre.length + run.length + 1 + i), hget _ (by rw [length_cons]; omega),
        getElem?_append_right (by rw [length_append]; omega), length_append,
        show pre.length + run.length + 1 + i - (pre.length + run.length) = i + 1 by omega,
        getElem?_cons_succ]
    obtain ⟨hlater, hkept⟩ := @get?_visitFrom _ minFailures (pre.length + run.length) _ _ _
      hok hafter (Nat.le_succ _) fun failure hf => by (cases hf)
    rw [visitFrom, visit, if_neg (by rw [hm]; exact Bool.false_ne_true),
      get?_closeRun_of_lt (ok_visitFrom hok hafter) hlater hhi, hkept i hhi]

theorem failuresFrom_failed {l : List AgentMessage} {i : Nat} {message : AgentMessage} :
    ∀ {index : Nat}, l[i]? = some message → isFailedToolResult message = true →
      ∃ failure ∈ failuresFrom index l, failure.index = index + i := by
  induction l generalizing i with
  | nil => exact fun h => by cases h
  | cons m l ih =>
    intro index hi hfailed
    rw [failuresFrom]
    cases i with
    | zero =>
      cases hi
      obtain ⟨failure, hmem, hindex⟩ := @failureOf_failed index _ hfailed
      exact ⟨failure, mem_append_left _ hmem, hindex⟩
    | succ i =>
      obtain ⟨failure, hmem, hindex⟩ := @ih i (index + 1) hi hfailed
      exact ⟨failure, mem_append_right _ hmem, by omega⟩

/-! ## The second pass -/

/-- The newest result of a call is not one of these. -/
def Superseded (messages : List AgentMessage) (signatures : OrderedMap String String) (i : Nat) : Prop :=
  ∃ m signature, messages[i]? = some (.toolResult m) ∧ m.isError = false ∧
    signatures.get? m.toolCallId = some signature ∧
    (messages.drop (i + 1)).any (supersededBy signatures signature) = true

theorem dump_cases {signatures : OrderedMap String String} {index : Nat} {message : AgentMessage}
    (st : OrderedMap Nat String × Nat) (hm : messages[index]? = some message) :
    (dump messages signatures minBytes index message st).1 = st.1 ∨
      ∃ text, (dump messages signatures minBytes index message st).1 = st.1.set index text ∧
        st.1.get? index = none ∧ Superseded messages signatures index := by
  cases message with
  | toolResult m =>
    simp only [dump]
    split
    · exact .inl rfl
    · rename_i hskip
      split
      · exact .inl rfl
      · split
        · exact .inl rfl
        · rename_i signature hsignature
          split
          · rename_i hany
            rw [Bool.not_eq_true, Bool.or_eq_false_iff] at hskip
            exact .inr ⟨_, rfl, OrderedMap.has_eq_false_iff.1 hskip.2, m, signature, hm, hskip.1, hsignature, hany⟩
          · exact .inl rfl
  | _ => exact .inl rfl

theorem get?_dumpFrom {signatures : OrderedMap String String} {l : List AgentMessage} :
    ∀ {index : Nat} {st : OrderedMap Nat String × Nat}, (∀ i, i < l.length → messages[index + i]? = l[i]?) → ∀ i,
      (dumpFrom messages signatures minBytes index l st).1.get? i = st.1.get? i ∨
        i < index + l.length ∧ Superseded messages signatures i := by
  induction l with
  | nil => exact fun _ _ => .inl rfl
  | cons message rest ih =>
    intro index st hl i
    have hrest : ∀ i, i < rest.length → messages[index + 1 + i]? = rest[i]? := by
      intro i hi
      have hi' := hl (i + 1) (by simpa using hi)
      rwa [getElem?_cons_succ, ← Nat.add_assoc, Nat.add_right_comm] at hi'
    rw [dumpFrom, length_cons]
    obtain hsame | ⟨hlt, hsup⟩ := @ih _ (dump messages signatures minBytes index message st) hrest i
    · rw [hsame]
      obtain hkeep | ⟨text, hset, -, hsup⟩ :=
        @dump_cases messages minBytes signatures index message st (hl 0 (by simp))
      · rw [hkeep]
        exact .inl rfl
      · rw [hset, OrderedMap.get?_set]
        by_cases hi : i = index
        · rw [hi]
          exact .inr ⟨by omega, hsup⟩
        · rw [if_neg hi]
          exact .inl rfl
    · exact .inr ⟨by omega, hsup⟩

theorem get?_successDumps {boundary : Nat} (hle : boundary ≤ messages.length)
    (replacements : OrderedMap Nat String) (i : Nat) :
    (successDumps messages minBytes boundary replacements).1.get? i = replacements.get? i ∨
      i < boundary ∧ Superseded messages (callSignaturesById messages) i := by
  rw [successDumps]
  split
  · have h := @get?_dumpFrom messages minBytes (callSignaturesById messages) (messages.take boundary) 0
      (replacements, 0) (fun j hj => getElem?_take_of_lt hj) i
    rwa [length_take, Nat.min_eq_left hle, Nat.zero_add] at h
  · exact .inl rfl

/-! ## The plan -/

/-- The replacements that a plan makes when its gate is open. -/
def planned (messages : List AgentMessage) (options : ContextJanitorOptions) : OrderedMap Nat String :=
  (successDumps messages (options.successDumpMinBytes.getD defaultSuccessDumpMinBytes)
    (options.boundary messages)
    (failureRuns messages (options.minFailures.getD defaultMinFailures)
      (options.boundary messages)).replacements).1

theorem planContextJanitor_messages (messages : List AgentMessage) (options : ContextJanitorOptions) :
    (planContextJanitor messages options).messages = messages ∨ (planContextJanitor messages options).messages =
        replaceAll messages (planned messages options) := by
  rw [planContextJanitor]
  split
  · exact .inl rfl
  · simp only []
    split
    · exact .inl rfl
    · split
      · exact .inl rfl
      · exact .inr rfl

theorem getElem?_replaceAll {replacements : OrderedMap Nat String} (h : messages[i]? = some message) :
    (replaceAll messages replacements)[i]? = some (match replacements.get? i with
      | some text => replaceToolResultContent message text | none => message) := by
  rw [replaceAll, getElem?_mapIdx, h]
  rfl

variable {options : ContextJanitorOptions}

/-- What is planned for an index: a failure that a success follows, or a result that was superseded. -/
theorem planned_cases {text : String} (h : (planned messages options).get? i = some text) :
    i < options.boundary messages ∧ (((∃ message, messages[i]? = some message ∧ isFailedToolResult message = true) ∧
          ∃ j message, i < j ∧ messages[j]? = some message ∧ isSuccessfulToolResult message = true) ∨
        Superseded messages (callSignaturesById messages) i) := by
  have hle := boundary_le options messages
  obtain hsame | ⟨hlt, hsup⟩ := @get?_successDumps messages
    (options.successDumpMinBytes.getD defaultSuccessDumpMinBytes) _ hle
    (failureRuns messages (options.minFailures.getD defaultMinFailures)
      (options.boundary messages)).replacements i
  · rw [planned, hsame] at h
    obtain ⟨hlt, hfailed, hsuccess⟩ := (ok_failureRuns hle).replaced i text h
    exact ⟨hlt, .inl ⟨hfailed, hsuccess⟩⟩
  · exact ⟨hlt, .inr hsup⟩

theorem eq_toolResult_of_failed (h : isFailedToolResult message = true) :
    ∃ m, message = .toolResult m ∧ m.isError = true := by
  cases message with
  | toolResult m => exact ⟨m, rfl, h⟩
  | _ => cases h

theorem eq_toolResult_of_successful (h : isSuccessfulToolResult message = true) :
    ∃ m, message = .toolResult m ∧ m.isError = false := by
  cases message with
  | toolResult m => exact ⟨m, rfl, by simpa [isSuccessfulToolResult] using h⟩
  | _ => cases h

/-- Only contents of tool results before the protected window are replaced. -/
theorem plan_replaces (messages : List AgentMessage) (options : ContextJanitorOptions)
    (h : messages[i]? = some message) : ∃ new, (planContextJanitor messages options).messages[i]? = some new ∧
      (new = message ∨ i < options.boundary messages ∧ ∃ m text, message = .toolResult m ∧
        new = .toolResult { m with content := [.text { text, textSignature := none }] }) := by
  obtain hsame | hreplaced := planContextJanitor_messages messages options
  · rw [hsame]
    exact ⟨message, h, .inl rfl⟩
  · rw [hreplaced, getElem?_replaceAll h]
    refine ⟨_, rfl, ?_⟩
    cases hget : (planned messages options).get? i with
    | none => exact .inl rfl
    | some text =>
      obtain ⟨hlt, ⟨⟨message', hm', hfailed⟩, -⟩ | ⟨m, signature, hm', -⟩⟩ := planned_cases hget
      · obtain ⟨m, rfl, -⟩ := eq_toolResult_of_failed hfailed
        rw [h, Option.some.injEq] at hm'
        subst hm'
        exact .inr ⟨hlt, m, text, rfl, rfl⟩
      · rw [h, Option.some.injEq] at hm'
        subst hm'
        exact .inr ⟨hlt, m, text, rfl, rfl⟩

theorem plan_keeps (h : (planned messages options).get? i = none) :
    (planContextJanitor messages options).messages[i]? = messages[i]? := by
  obtain hsame | hreplaced := planContextJanitor_messages messages options
  · rw [hsame]
  · cases hm : messages[i]? with
    | none =>
      rw [hreplaced, replaceAll, getElem?_mapIdx, hm]
      rfl
    | some message => rw [hreplaced, getElem?_replaceAll hm, h]

theorem length_plan (messages : List AgentMessage) (options : ContextJanitorOptions) :
    (planContextJanitor messages options).messages.length = messages.length := by
  obtain hsame | hreplaced := planContextJanitor_messages messages options
  · rw [hsame]
  · rw [hreplaced, replaceAll, length_mapIdx]

/-- The note that takes the place of an output. -/
def dumpNote (m : ToolResultMessage) : String := successDumpTombstone m.toolName (messageTextBytes (.toolResult m))

/-- The threshold of a plan. -/
def ContextJanitorOptions.dumpBytes (options : ContextJanitorOptions) : JsNumber :=
  options.successDumpMinBytes.getD defaultSuccessDumpMinBytes

/-- What is told of the outputs at each index. -/
def Tells (minBytes : JsNumber) (messages : List AgentMessage) (replacements : OrderedMap Nat String) : Prop :=
  ∀ i text m, replacements.get? i = some text → messages[i]? = some (.toolResult m) → m.isError = false →
    (JsNumber.finite 0).lt minBytes = true ∧
      (JsNumber.finite (messageTextBytes (.toolResult m))).lt minBytes = false ∧ text = dumpNote m

theorem tells_dump {signatures : OrderedMap String String} (hmin : (JsNumber.finite 0).lt minBytes = true)
    {st : OrderedMap Nat String × Nat} (h : Tells minBytes messages st.1) (hm : messages[index]? = some message) :
    Tells minBytes messages (dump messages signatures minBytes index message st).1 := by
  cases message with
  | toolResult m =>
    simp only [dump]
    split
    · exact h
    · split
      · exact h
      · rename_i hbytes
        split
        · exact h
        · split
          · intro i text m' hi hm' hok
            rw [OrderedMap.get?_set] at hi
            split at hi
            · rename_i hindex
              cases hi
              rw [hindex, hm] at hm'
              cases hm'
              exact ⟨hmin, Bool.not_eq_true _ ▸ hbytes, rfl⟩
            · exact h i text m' hi hm' hok
          · exact h
  | _ => exact h

theorem tells_dumpFrom {signatures : OrderedMap String String} (hmin : (JsNumber.finite 0).lt minBytes = true)
    {l : List AgentMessage} :
    ∀ {index : Nat} {st : OrderedMap Nat String × Nat}, Tells minBytes messages st.1 →
      (∀ i, i < l.length → messages[index + i]? = l[i]?) →
      Tells minBytes messages (dumpFrom messages signatures minBytes index l st).1 := by
  induction l with
  | nil => exact fun h _ => h
  | cons message rest ih =>
    intro index st h hl
    rw [dumpFrom]
    refine ih (tells_dump hmin h (hl 0 (by simp))) fun i hi => ?_
    have hi' := hl (i + 1) (by simpa using hi)
    rwa [getElem?_cons_succ, ← Nat.add_assoc, Nat.add_right_comm] at hi'

theorem tells_planned (options : ContextJanitorOptions) :
    Tells options.dumpBytes messages (planned messages options) := by
  have hruns : Tells options.dumpBytes messages (failureRuns messages (options.minFailures.getD defaultMinFailures)
      (options.boundary messages)).replacements := by
    intro i text m hi hm hok
    obtain ⟨-, ⟨message, hm', hfailed⟩, -⟩ := (ok_failureRuns (boundary_le options messages)).replaced i text hi
    rw [hm] at hm'
    cases hm'
    rw [isFailedToolResult, hok] at hfailed
    cases hfailed
  rw [planned, successDumps]
  split
  · rename_i hmin
    exact tells_dumpFrom hmin hruns fun _ hi => getElem?_take_of_lt hi
  · exact hruns

/-- An output that is not kept is replaced by another one's sake, and by a text that it is not itself. -/
theorem plan_newest {m : ToolResultMessage} (h : messages[i]? = some (.toolResult m)) (hok : m.isError = false)
    (hne : (planContextJanitor messages options).messages[i]? ≠ some (.toolResult m)) :
    Superseded messages (callSignaturesById messages) i ∧ 0 < messageTextBytes (.toolResult m) ∧
      replaceToolResultContent (.toolResult m) (dumpNote m) ≠ .toolResult m := by
  cases hget : (planned messages options).get? i with
  | none => exact absurd ((plan_keeps hget).trans h) hne
  | some text =>
    obtain ⟨hmin, hbytes, rfl⟩ := tells_planned options i text m hget h hok
    refine ⟨?_, ?_, ?_⟩
    · obtain ⟨-, ⟨⟨message, hm, hfailed⟩, -⟩ | hsuperseded⟩ := planned_cases hget
      · rw [h, Option.some.injEq] at hm
        subst hm
        rw [isFailedToolResult, hok] at hfailed
        cases hfailed
      · exact hsuperseded
    · refine Nat.pos_of_ne_zero fun hzero => ?_
      rw [hzero, Nat.cast_zero, hmin] at hbytes
      cases hbytes
    · intro heq
      obtain hsame | hreplaced := planContextJanitor_messages messages options
      · rw [hsame] at hne
        exact hne h
      · rw [hreplaced, getElem?_replaceAll h, hget] at hne
        exact hne (congrArg some heq)

theorem plan_failed {m : ToolResultMessage} (h : messages[i]? = some (.toolResult m)) (hfail : m.isError = true)
    (hne : (planContextJanitor messages options).messages[i]? ≠ some (.toolResult m)) :
    ∃ j m', i < j ∧ messages[j]? = some (.toolResult m') ∧ m'.isError = false := by
  cases hget : (planned messages options).get? i with
  | none => exact absurd ((plan_keeps hget).trans h) hne
  | some text =>
    obtain ⟨-, ⟨-, j, message, hlt, hj, hsuccess⟩ | ⟨m', signature', hm', hok, -⟩⟩ := planned_cases hget
    · obtain ⟨m', rfl, hok⟩ := eq_toolResult_of_successful hsuccess
      exact ⟨j, m', hlt, hj, hok⟩
    · rw [h, Option.some.injEq, AgentMessage.toolResult.injEq] at hm'
      subst hm'
      rw [hfail] at hok
      cases hok

theorem planned_run (hsplit : messages.take (options.boundary messages) = pre ++ run ++ post)
    (hrun : ∀ message ∈ run, inRun message = true) (hpre : ∀ message ∈ pre.getLast?, inRun message = false)
    (hpost : ∀ message ∈ post.head?, inRun message = false)
    (hlo : pre.length ≤ i) (hm : run[i - pre.length]? = some message) :
    messages[i]? = some message ∧ (planned messages options).get? i =
      (successAfter messages (options.minFailures.getD defaultMinFailures) (pre.length + run.length)
        (failuresFrom pre.length run)).bind fun tool => runText (failuresFrom pre.length run)
          (trajectoryTombstone (failuresFrom pre.length run) tool) i := by
  have hle := boundary_le options messages
  have hhi : i < pre.length + run.length := by
    have hlt := (List.getElem?_eq_some_iff.1 hm).1
    omega
  have hlen := congrArg List.length hsplit
  simp only [length_take, length_append, Nat.min_eq_left hle] at hlen
  have hi : messages[i]? = some message := by
    rw [← List.getElem?_take_of_lt (j := options.boundary messages) (by omega), hsplit,
      List.getElem?_append_left (by rw [length_append]; exact hhi),
      getElem?_append_right hlo, hm]
  refine ⟨hi, ?_⟩
  rw [← failureRuns_run hle hsplit hrun hpre hpost hlo hhi]
  obtain hsame | ⟨-, m, signature, hm', hok, -⟩ := @get?_successDumps messages
    (options.successDumpMinBytes.getD defaultSuccessDumpMinBytes) _ hle
    (failureRuns messages (options.minFailures.getD defaultMinFailures)
      (options.boundary messages)).replacements i
  · exact hsame
  · rw [hi, Option.some.injEq] at hm'
    subst hm'
    have hin := hrun _ (mem_of_getElem? hm)
    have hout : inRun (.toolResult m) = false := by
      simp [inRun, isAssistantToolCall, isFailedToolResult, hok]
    rw [hout] at hin
    cases hin

/-- The failures of a run before the protected window are all replaced, or nothing of it is. -/
theorem plan_run (hsplit : messages.take (options.boundary messages) = pre ++ run ++ post)
    (hrun : ∀ message ∈ run, inRun message = true) (hpre : ∀ message ∈ pre.getLast?, inRun message = false)
    (hpost : ∀ message ∈ post.head?, inRun message = false) :
    (∀ i message, pre.length ≤ i → run[i - pre.length]? = some message →
        (planContextJanitor messages options).messages[i]? = some message) ∨
      ∃ tool, ∀ i message, pre.length ≤ i → run[i - pre.length]? = some message →
        isFailedToolResult message = true → ∃ text, runText (failuresFrom pre.length run)
            (trajectoryTombstone (failuresFrom pre.length run) tool) i = some text ∧
          (planContextJanitor messages options).messages[i]? = some (replaceToolResultContent message text) := by
  cases hafter : successAfter messages (options.minFailures.getD defaultMinFailures)
      (pre.length + run.length) (failuresFrom pre.length run) with
  | none =>
    refine .inl fun i message hlo hm => ?_
    obtain ⟨hi, hget⟩ := planned_run hsplit hrun hpre hpost hlo hm
    rw [hafter] at hget
    rw [plan_keeps hget, hi]
  | some tool =>
    obtain hsame | hreplaced := planContextJanitor_messages messages options
    · refine .inl fun i message hlo hm => ?_
      rw [hsame, (planned_run hsplit hrun hpre hpost hlo hm).1]
    · refine .inr ⟨tool, fun i message hlo hm hfailed => ?_⟩
      obtain ⟨hi, hget⟩ := planned_run hsplit hrun hpre hpost hlo hm
      rw [hafter, bind_some] at hget
      obtain ⟨failure, hmem, hindex⟩ := @failuresFrom_failed _ _ _ pre.length hm hfailed
      have hsome := runText_isSome hmem (trajectoryTombstone (failuresFrom pre.length run) tool)
      rw [hindex, show pre.length + (i - pre.length) = i by omega] at hsome
      obtain ⟨text, htext⟩ := isSome_iff_exists.1 hsome
      refine ⟨text, htext, ?_⟩
      rw [hreplaced, getElem?_replaceAll hi, hget, htext]

/-! ## The calls that results answer -/

/-- The signature of the call that a result at an index answers: the last one with its id before it. -/
def answeredCall (messages : List AgentMessage) (i : Nat) (m : ToolResultMessage) : Option String :=
  (callSignaturesById (messages.take i)).get? m.toolCallId

/-- What a prune keeps of the messages. -/
structure Safe (messages : List AgentMessage) (options : ContextJanitorOptions) : Prop where
  length : (planContextJanitor messages options).messages.length = messages.length
  contents : ∀ i message, messages[i]? = some message →
    ∃ new, (planContextJanitor messages options).messages[i]? = some new ∧
      (new = message ∨ i < options.boundary messages ∧ ∃ m text, message = .toolResult m ∧
        new = .toolResult { m with content := [.text { text, textSignature := none }] })
  newest : ∀ (i : Nat) (m : ToolResultMessage) (signature : String), messages[i]? = some (.toolResult m) →
    m.isError = false → answeredCall messages i m = some signature →
    (∀ (j : Nat) (m' : ToolResultMessage), i < j → messages[j]? = some (.toolResult m') → m'.isError = false →
      answeredCall messages j m' ≠ some signature) →
    (planContextJanitor messages options).messages[i]? = some (.toolResult m)
  failed : ∀ (i : Nat) (m : ToolResultMessage), messages[i]? = some (.toolResult m) → m.isError = true →
    (planContextJanitor messages options).messages[i]? ≠ some (.toolResult m) →
    ∃ (j : Nat) (m' : ToolResultMessage), i < j ∧ messages[j]? = some (.toolResult m') ∧ m'.isError = false
  whole : ∀ pre run post, messages.take (options.boundary messages) = pre ++ run ++ post →
    (∀ message ∈ run, inRun message = true) →
    (∀ message ∈ pre.getLast?, inRun message = false) →
    (∀ message ∈ post.head?, inRun message = false) →
    (∀ i message, pre.length ≤ i → run[i - pre.length]? = some message →
        (planContextJanitor messages options).messages[i]? = some message) ∨
      ∃ tool, ∀ i message, pre.length ≤ i → run[i - pre.length]? = some message →
        isFailedToolResult message = true →
        ∃ text, runText (failuresFrom pre.length run)
            (trajectoryTombstone (failuresFrom pre.length run) tool) i = some text ∧
          (planContextJanitor messages options).messages[i]? =
            some (replaceToolResultContent message text)

/-- An output that has a later one by the ids of the calls has a later one by the calls. Left out are an output without
text, which is never replaced, and one that is its own note. -/
def Attributed (messages : List AgentMessage) : Prop :=
  ∀ (i : Nat) (m : ToolResultMessage) (signature : String), messages[i]? = some (.toolResult m) →
    0 < messageTextBytes (.toolResult m) → replaceToolResultContent (.toolResult m) (dumpNote m) ≠ .toolResult m →
    Superseded messages (callSignaturesById messages) i → answeredCall messages i m = some signature →
    ∃ (j : Nat) (m' : ToolResultMessage), i < j ∧ messages[j]? = some (.toolResult m') ∧ m'.isError = false ∧
      answeredCall messages j m' = some signature

theorem callSignaturesById_eq (messages : List AgentMessage) : callSignaturesById messages =
    OrderedMap.ofList ((messages.flatMap messageCalls).map fun call => (call.id, callSignature call)) := by
  rw [callSignaturesById, OrderedMap.ofList, foldl_map]

theorem call_of_get? {id signature : String} (h : (callSignaturesById messages).get? id = some signature) :
    ∃ call ∈ messages.flatMap messageCalls, call.id = id ∧ callSignature call = signature := by
  rw [callSignaturesById_eq] at h
  obtain ⟨call, hcall, heq⟩ := mem_map.1 (OrderedMap.mem_of_get?_ofList h)
  rw [Prod.mk.injEq] at heq
  exact ⟨call, hcall, heq⟩

/-- It is enough that every id has one signature, and that results come after their calls. -/
theorem attributed_of_ids (hone : ∀ call ∈ messages.flatMap messageCalls, ∀ call' ∈ messages.flatMap messageCalls,
      call.id = call'.id → callSignature call = callSignature call')
    (hafter : ∀ (i : Nat) (m : ToolResultMessage), messages[i]? = some (.toolResult m) →
      (answeredCall messages i m).isSome = true) : Attributed messages := by
  have hsame : ∀ {i : Nat} {m : ToolResultMessage} {signature signature' : String},
      answeredCall messages i m = some signature →
      (callSignaturesById messages).get? m.toolCallId = some signature' → signature = signature' := by
    intro i m signature signature' hanswered hget
    obtain ⟨call, hcall, hid, rfl⟩ := call_of_get? hanswered
    obtain ⟨call', hcall', hid', rfl⟩ := call_of_get? hget
    obtain ⟨message, hmessage, hmem⟩ := mem_flatMap.1 hcall
    exact hone call (mem_flatMap.2 ⟨message, mem_of_mem_take hmessage, hmem⟩) call' hcall' (hid.trans hid'.symm)
  rintro i m signature hm - - ⟨m₀, signature', hm₀, -, hget, hany⟩ hanswered
  rw [hm, Option.some.injEq, AgentMessage.toolResult.injEq] at hm₀
  subst hm₀
  obtain ⟨later, hlater, hsup⟩ := any_eq_true.1 hany
  obtain ⟨j, hj⟩ := mem_iff_getElem?.1 hlater
  rw [getElem?_drop] at hj
  cases later with
  | toolResult m' =>
    rw [supersededBy, Bool.and_eq_true, Bool.not_eq_true'] at hsup
    obtain ⟨signature'', hanswered'⟩ := isSome_iff_exists.1 (hafter _ m' hj)
    refine ⟨i + 1 + j, m', by omega, hj, hsup.1, ?_⟩
    rw [hanswered', hsame hanswered' (of_decide_eq_true hsup.2), hsame hanswered hget]
  | _ => cases hsup

/-! ## Outputs that are replaced -/

theorem dumpFrom_keeps {signatures : OrderedMap String String} {l : List AgentMessage} :
    ∀ {index : Nat} {st : OrderedMap Nat String × Nat}, (∀ k, k < l.length → messages[index + k]? = l[k]?) →
      i < index → (dumpFrom messages signatures minBytes index l st).1.get? i = st.1.get? i := by
  induction l with
  | nil => exact fun _ _ => rfl
  | cons message rest ih =>
    intro index st hl hi
    have hrest : ∀ k, k < rest.length → messages[index + 1 + k]? = rest[k]? := by
      intro k hk
      have hk' := hl (k + 1) (by simpa using hk)
      rwa [getElem?_cons_succ, ← Nat.add_assoc, Nat.add_right_comm] at hk'
    rw [dumpFrom, ih hrest (by omega)]
    obtain hkeep | ⟨text, hset, -, -⟩ :=
      @dump_cases messages minBytes signatures index message st (hl 0 (by simp))
    · rw [hkeep]
    · rw [hset, OrderedMap.get?_set, if_neg (by omega)]

theorem dumpFrom_replaces {signatures : OrderedMap String String} {m : ToolResultMessage} {signature : String}
    (hok : m.isError = false) (hbytes : (JsNumber.finite (messageTextBytes (.toolResult m))).lt minBytes = false)
    (hsignature : signatures.get? m.toolCallId = some signature)
    (hany : (messages.drop (i + 1)).any (supersededBy signatures signature) = true) {l : List AgentMessage} :
    ∀ {index : Nat} {st : OrderedMap Nat String × Nat}, (∀ k, k < l.length → messages[index + k]? = l[k]?) →
      index ≤ i → l[i - index]? = some (.toolResult m) → st.1.get? i = none →
      (dumpFrom messages signatures minBytes index l st).1.get? i = some (dumpNote m) := by
  induction l with
  | nil => exact fun _ _ h => by simp at h
  | cons message rest ih =>
    intro index st hl hle hm hnone
    have hrest : ∀ k, k < rest.length → messages[index + 1 + k]? = rest[k]? := by
      intro k hk
      have hk' := hl (k + 1) (by simpa using hk)
      rwa [getElem?_cons_succ, ← Nat.add_assoc, Nat.add_right_comm] at hk'
    rw [dumpFrom]
    obtain rfl | hlt := Nat.eq_or_lt_of_le hle
    · rw [Nat.sub_self, getElem?_cons_zero, Option.some.injEq] at hm
      subst hm
      rw [dumpFrom_keeps hrest (Nat.lt_succ_self _), dump]
      simp only [hok, OrderedMap.has_eq_false_iff.2 hnone, hbytes, hsignature, hany, Bool.or_self, Bool.false_eq_true,
        if_false, if_true]
      rw [OrderedMap.get?_set, if_pos rfl, dumpNote]
    · refine ih hrest hlt ?_ ?_
      · rwa [show i - index = (i - (index + 1)) + 1 by omega, getElem?_cons_succ] at hm
      · obtain hkeep | ⟨text, hset, -, -⟩ :=
          @dump_cases messages minBytes signatures index message st (hl 0 (by simp))
        · rw [hkeep, hnone]
        · rw [hset, OrderedMap.get?_set, if_neg (by omega), hnone]

/-- Nothing is protected, the gate is open, and an output of one byte is large. -/
def eagerJanitor : ContextJanitorOptions :=
  { minTokens := .negInfinity
    minTurns := .finite 0
    turnIndex := .finite 0
    lastPruneTurn := .negInfinity
    minFailures := none
    activeWindowTurns := some (.finite 0)
    successDumpMinBytes := some (.finite 1) }

theorem eagerJanitor_replaces {m : ToolResultMessage} (hm : messages[i]? = some (.toolResult m))
    (htext : 0 < messageTextBytes (.toolResult m)) (hsuperseded : Superseded messages (callSignaturesById messages) i) :
    (planContextJanitor messages eagerJanitor).messages[i]? =
      some (replaceToolResultContent (.toolResult m) (dumpNote m)) := by
  obtain ⟨m₀, signature, hm₀, hok, hsignature, hany⟩ := hsuperseded
  rw [hm, Option.some.injEq, AgentMessage.toolResult.injEq] at hm₀
  subst hm₀
  have hboundary : eagerJanitor.boundary messages = messages.length := by
    rw [ContextJanitorOptions.boundary, protectedStartIndex, if_pos (by decide)]
  have hbytes : (JsNumber.finite (messageTextBytes (.toolResult m))).lt (.finite 1) = false := by
    refine decide_eq_false (not_lt.2 ?_)
    exact_mod_cast htext
  have hget : (planned messages eagerJanitor).get? i = some (dumpNote m) := by
    rw [planned, hboundary, successDumps, if_pos (by decide)]
    refine dumpFrom_replaces hok hbytes hsignature hany (fun k hk => getElem?_take_of_lt hk) (Nat.zero_le _) ?_ ?_
    · rw [take_length, Nat.sub_zero, hm]
    · cases hfailed : (failureRuns messages (eagerJanitor.minFailures.getD defaultMinFailures)
          messages.length).replacements.get? i with
      | none => rfl
      | some text =>
        obtain ⟨-, ⟨message, hmessage, herror⟩, -⟩ := (ok_failureRuns (Nat.le_refl _)).replaced i text hfailed
        rw [hm, Option.some.injEq] at hmessage
        subst hmessage
        rw [isFailedToolResult, hok] at herror
        cases herror
  have hsize : (planned messages eagerJanitor).size ≠ 0 := by
    intro hsize
    rw [OrderedMap.get?, length_eq_zero_iff.1 hsize] at hget
    cases hget
  have hplan : (planContextJanitor messages eagerJanitor).messages =
      replaceAll messages (planned messages eagerJanitor) := by
    rw [planContextJanitor, if_neg (by decide)]
    simp only []
    rw [planned] at hsize ⊢
    rw [if_neg (by simp [eagerJanitor, JsNumber.lt]), if_neg hsize]
  rw [hplan, getElem?_replaceAll hm, hget]

/-- A prune is safe under all options exactly if the ids of the calls do not mix up their outputs. -/
theorem planContextJanitor_safe_iff (messages : List AgentMessage) :
    (∀ options, Safe messages options) ↔ Attributed messages := by
  constructor
  · intro h i m signature hm htext hnote hsuperseded hanswered
    by_contra hnone
    refine hnote (Option.some.inj ?_)
    rw [← eagerJanitor_replaces hm htext hsuperseded]
    obtain ⟨m₀, -, hm₀, hok, -⟩ := hsuperseded
    rw [hm, Option.some.injEq, AgentMessage.toolResult.injEq] at hm₀
    subst hm₀
    exact (h eagerJanitor).newest i m signature hm hok hanswered fun j m' hlt hj hok' hsame =>
      hnone ⟨j, m', hlt, hj, hok', hsame⟩
  · intro h options
    refine ⟨length_plan messages options, fun _ _ h => plan_replaces messages options h, ?_,
      fun _ _ h hfail hne => plan_failed h hfail hne,
      fun _ _ _ hsplit hrun hpre hpost => plan_run hsplit hrun hpre hpost⟩
    intro i m signature hm hok hanswered hnewest
    by_contra hne
    obtain ⟨hsuperseded, htext, hnote⟩ := plan_newest hm hok hne
    obtain ⟨j, m', hlt, hj, hok', hsame⟩ := h i m signature hm htext hnote hsuperseded hanswered
    exact hnewest j m' hlt hj hok' hsame

end

/-! ## A tool-call id that is used twice -/

def readCall (path : String) : ToolCall :=
  { id := "call_0", name := "read", arguments := [("path", .string path)], thoughtSignature := none }

def readExchange (path text : String) : List AgentMessage :=
  [.assistant
      { content := [.toolCall (readCall path)]
        api := "api"
        provider := "provider"
        model := "model"
        responseModel := none
        responseId := none
        diagnostics := none
        usage := zeroUsage 1
        stopReason := .toolUse
        stopReasonRaw := none
        errorMessage := none
        timestamp := 0 },
    .toolResult
      { toolCallId := "call_0"
        toolName := "read"
        content := [.text { text, textSignature := none }]
        details := none
        isError := false
        timestamp := 0 }]

/-- Two calls with other arguments and the same id: the only result of the first is replaced. -/
theorem planContextJanitor_reused_id : callSignature (readCall "a") ≠ callSignature (readCall "b") ∧
      ((planContextJanitor (readExchange "a" "one" ++ readExchange "b" "two") eagerJanitor).messages[1]?).map
        textOf = some (successDumpTombstone "read" 3) := by
  constructor
  · decide
  · decide

end Budget
end RePrime
