import RePrime.Lib.JsonRoundTrip
import RePrime.Lib.Utf8
import RePrime.Session.Entry

/-!
# RePrime.Session.Codec

The JSON value of every record of a session file, in the key order its constructor writes, and
the record a parsed line is.

* A field that is `undefined` is not written, and a missing field is read as `undefined`.
* `decodeFileEntry_encode`: what is written is read back; it is assembled from one such lemma per
  record type.
* `lineOf`: the bytes of `JSON.stringify(entry)`; `parseLine_lineOf` and `le_of_mem_lineOf` are
  what the file format needs of them.
-/

namespace RePrime
namespace Session

open List
open Json (Value Number field)

/-! ## Fields -/

def optField {α : Type} (key : String) (enc : α → Value) : Option α → List (String × Value)
  | none => []
  | some a => [(key, enc a)]

def str? : Value → Option String
  | .string s => some s
  | _ => none

def bool? : Value → Option Bool
  | .bool b => some b
  | _ => none

def int? (v : Value) : Option Int := v.toInt?

def nat? (v : Value) : Option Nat := v.toInt?.bind fun i => if 0 ≤ i then some i.toNat else none

def number? : Value → Option Number
  | .number n => some n
  | _ => none

def record? : Value → Option (List (String × Value))
  | .object fs => some fs
  | _ => none

def list? {α : Type} (dec : Value → Option α) : Value → Option (List α)
  | .array vs => vs.mapM dec
  | _ => none

/-- `null` or a value. -/
def nullOr {α : Type} (enc : α → Value) : Option α → Value
  | none => .null
  | some a => enc a

def nullOr? {α : Type} (dec : Value → Option α) : Value → Option (Option α)
  | .null => some none
  | v => (dec v).map some

def get {α : Type} (key : String) (dec : Value → Option α) (v : Value) : Option α :=
  (field key v).bind dec

def optOf {α : Type} (dec : Value → Option α) : Option Value → Option (Option α)
  | none => some none
  | some v => (dec v).map some

/-- A field that may be missing. -/
def getOpt {α : Type} (key : String) (dec : Value → Option α) (v : Value) : Option (Option α) :=
  optOf dec (field key v)

@[simp] theorem str?_string (s : String) : str? (.string s) = some s := rfl
@[simp] theorem bool?_bool (b : Bool) : bool? (.bool b) = some b := rfl
@[simp] theorem int?_int (i : Int) : int? (.int i) = some i := Json.toInt?_int i
@[simp] theorem nat?_int (n : Nat) : nat? (.int n) = some n := by simp [nat?]
@[simp] theorem number?_number (n : Number) : number? (.number n) = some n := rfl
@[simp] theorem record?_object (fs : List (String × Value)) : record? (.object fs) = some fs := rfl

variable {α : Type}

@[simp] theorem reverse_optField (key : String) (enc : α → Value) (o : Option α) :
    (optField key enc o).reverse = optField key enc o := by cases o <;> rfl

@[simp] theorem lookup_optField (k key : String) (enc : α → Value) (o : Option α) :
    (optField key enc o).lookup k = if k = key then o.map enc else none := by
  cases o with
  | none => simp [optField]
  | some a =>
    by_cases h : k = key
    · simp [optField, h]
    · simp [optField, lookup_cons, beq_eq_false_iff_ne.2 h, h]

theorem field_object (key : String) (fs : List (String × Value)) :
    field key (.object fs) = fs.reverse.lookup key := rfl

theorem mapM_map_some {β : Type} {enc : α → β} {dec : β → Option α}
    (h : ∀ a, dec (enc a) = some a) (l : List α) : (l.map enc).mapM dec = some l := by
  induction l with
  | nil => rfl
  | cons a l ih => simp [h, ih]

variable {enc : α → Value} {dec : Value → Option α}

theorem list?_array (h : ∀ a, dec (enc a) = some a) (l : List α) : list? dec (.array (l.map enc)) = some l :=
  mapM_map_some h l

theorem nullOr?_nullOr (h : ∀ a, dec (enc a) = some a) (hne : ∀ a, enc a ≠ .null) (o : Option α) :
    nullOr? dec (nullOr enc o) = some o := by
  cases o with
  | none => rfl
  | some a =>
    have ha := hne a
    show nullOr? dec (enc a) = _
    cases he : enc a with
    | null => exact absurd he ha
    | _ => simp [nullOr?, ← he, h]

@[simp] theorem nullOr?_string (o : Option String) : nullOr? str? (nullOr .string o) = some o :=
  nullOr?_nullOr str?_string (fun _ => by simp) o

@[simp] theorem nullOr?_int (o : Option Int) : nullOr? int? (nullOr .int o) = some o :=
  nullOr?_nullOr int?_int (fun _ => by simp [Value.int]) o

theorem optOf_map (h : ∀ a, dec (enc a) = some a) (o : Option α) : optOf dec (o.map enc) = some o := by
  cases o <;> simp [optOf, h]

@[simp] theorem optOf_string (o : Option String) : optOf str? (o.map .string) = some o :=
  optOf_map str?_string o

@[simp] theorem optOf_bool (o : Option Bool) : optOf bool? (o.map .bool) = some o :=
  optOf_map bool?_bool o

@[simp] theorem optOf_int (o : Option Int) : optOf int? (o.map .int) = some o :=
  optOf_map int?_int o

@[simp] theorem optOf_value (o : Option Value) : optOf some o = some o := by
  cases o <;> rfl

/-! ## Message parts -/

def encodeTextContent (t : TextContent) : Value :=
  .object ([("type", Value.string "text"), ("text", .string t.text)] ++
    optField "textSignature" .string t.textSignature)

def decodeTextContent (v : Value) : Option TextContent := do
  let text ← get "text" str? v
  let textSignature ← getOpt "textSignature" str? v
  return { text, textSignature }

def encodeThinkingContent (t : ThinkingContent) : Value :=
  .object ([("type", Value.string "thinking"), ("thinking", .string t.thinking)] ++
    optField "thinkingSignature" .string t.thinkingSignature ++ optField "redacted" .bool t.redacted)

def decodeThinkingContent (v : Value) : Option ThinkingContent := do
  let thinking ← get "thinking" str? v
  let thinkingSignature ← getOpt "thinkingSignature" str? v
  let redacted ← getOpt "redacted" bool? v
  return { thinking, thinkingSignature, redacted }

def encodeImageContent (i : ImageContent) : Value :=
  .object [("type", .string "image"), ("data", .string i.data), ("mimeType", .string i.mimeType)]

def decodeImageContent (v : Value) : Option ImageContent := do
  let data ← get "data" str? v
  let mimeType ← get "mimeType" str? v
  return { data, mimeType }

def encodeToolCall (t : ToolCall) : Value :=
  .object ([("type", Value.string "toolCall"), ("id", .string t.id), ("name", .string t.name),
    ("arguments", .object t.arguments)] ++ optField "thoughtSignature" .string t.thoughtSignature)

def decodeToolCall (v : Value) : Option ToolCall := do
  let id ← get "id" str? v
  let name ← get "name" str? v
  let arguments ← get "arguments" record? v
  let thoughtSignature ← getOpt "thoughtSignature" str? v
  return { id, name, arguments, thoughtSignature }

def encodeBlock : Block → Value
  | .text t => encodeTextContent t
  | .image i => encodeImageContent i

def decodeBlock (v : Value) : Option Block := do
  let type ← get "type" str? v
  if type = "text" then (decodeTextContent v).map .text
  else if type = "image" then (decodeImageContent v).map .image
  else none

def encodeContent : Content → Value
  | .text s => .string s
  | .blocks bs => .array (bs.map encodeBlock)

def decodeContent : Value → Option Content
  | .string s => some (.text s)
  | v => (list? decodeBlock v).map .blocks

def encodeAssistantBlock : AssistantBlock → Value
  | .text t => encodeTextContent t
  | .thinking t => encodeThinkingContent t
  | .toolCall t => encodeToolCall t

def decodeAssistantBlock (v : Value) : Option AssistantBlock := do
  let type ← get "type" str? v
  if type = "text" then (decodeTextContent v).map .text
  else if type = "thinking" then (decodeThinkingContent v).map .thinking
  else if type = "toolCall" then (decodeToolCall v).map .toolCall
  else none

def encodeCost (c : Cost) : Value :=
  .object [("input", .number c.input), ("output", .number c.output), ("cacheRead", .number c.cacheRead),
    ("cacheWrite", .number c.cacheWrite), ("total", .number c.total)]

def decodeCost (v : Value) : Option Cost := do
  let input ← get "input" number? v
  let output ← get "output" number? v
  let cacheRead ← get "cacheRead" number? v
  let cacheWrite ← get "cacheWrite" number? v
  let total ← get "total" number? v
  return { input, output, cacheRead, cacheWrite, total }

def encodeUsage (u : Usage) : Value :=
  .object [("input", .int u.input), ("output", .int u.output), ("cacheRead", .int u.cacheRead),
    ("cacheWrite", .int u.cacheWrite), ("totalTokens", .int u.totalTokens), ("cost", encodeCost u.cost)]

def decodeUsage (v : Value) : Option Usage := do
  let input ← get "input" int? v
  let output ← get "output" int? v
  let cacheRead ← get "cacheRead" int? v
  let cacheWrite ← get "cacheWrite" int? v
  let totalTokens ← get "totalTokens" int? v
  let cost ← get "cost" decodeCost v
  return { input, output, cacheRead, cacheWrite, totalTokens, cost }

def stopReasonName : StopReason → String
  | .stop => "stop"
  | .length => "length"
  | .toolUse => "toolUse"
  | .error => "error"
  | .aborted => "aborted"

def decodeStopReason (v : Value) : Option StopReason := do
  let s ← str? v
  [.stop, .length, .toolUse, .error, .aborted].find? fun r => stopReasonName r = s

@[simp] theorem decodeTextContent_encode (t : TextContent) : decodeTextContent (encodeTextContent t) = some t := by
  simp [decodeTextContent, encodeTextContent, get, getOpt, field_object, lookup_append, lookup_cons]

@[simp] theorem decodeThinkingContent_encode (t : ThinkingContent) :
    decodeThinkingContent (encodeThinkingContent t) = some t := by
  simp [decodeThinkingContent, encodeThinkingContent, get, getOpt, field_object, lookup_append, lookup_cons]

@[simp] theorem decodeImageContent_encode (i : ImageContent) :
    decodeImageContent (encodeImageContent i) = some i := by
  simp [decodeImageContent, encodeImageContent, get, field_object, lookup_cons]

@[simp] theorem decodeToolCall_encode (t : ToolCall) : decodeToolCall (encodeToolCall t) = some t := by
  simp [decodeToolCall, encodeToolCall, get, getOpt, field_object, lookup_append, lookup_cons]

@[simp] theorem type_encodeTextContent (t : TextContent) : get "type" str? (encodeTextContent t) = some "text" := by
  simp [encodeTextContent, get, field_object, lookup_append, lookup_cons]

@[simp] theorem type_encodeThinkingContent (t : ThinkingContent) :
    get "type" str? (encodeThinkingContent t) = some "thinking" := by
  simp [encodeThinkingContent, get, field_object, lookup_append, lookup_cons]

@[simp] theorem type_encodeImageContent (i : ImageContent) :
    get "type" str? (encodeImageContent i) = some "image" := by
  simp [encodeImageContent, get, field_object, lookup_cons]

@[simp] theorem type_encodeToolCall (t : ToolCall) : get "type" str? (encodeToolCall t) = some "toolCall" := by
  simp [encodeToolCall, get, field_object, lookup_append, lookup_cons]

@[simp] theorem decodeBlock_encode (b : Block) : decodeBlock (encodeBlock b) = some b := by
  cases b <;> simp [decodeBlock, encodeBlock]

@[simp] theorem decodeContent_encode (c : Content) : decodeContent (encodeContent c) = some c := by
  cases c with
  | text s => rfl
  | blocks bs => simp [decodeContent, encodeContent, list?_array decodeBlock_encode]

@[simp] theorem decodeAssistantBlock_encode (b : AssistantBlock) :
    decodeAssistantBlock (encodeAssistantBlock b) = some b := by
  cases b <;> simp [decodeAssistantBlock, encodeAssistantBlock]

@[simp] theorem decodeCost_encode (c : Cost) : decodeCost (encodeCost c) = some c := by
  simp [decodeCost, encodeCost, get, field_object, lookup_cons]

@[simp] theorem decodeUsage_encode (u : Usage) : decodeUsage (encodeUsage u) = some u := by
  simp [decodeUsage, encodeUsage, get, field_object, lookup_cons]

@[simp] theorem optOf_usage (o : Option Usage) : optOf decodeUsage (o.map encodeUsage) = some o :=
  optOf_map decodeUsage_encode o

@[simp] theorem decodeStopReason_name (r : StopReason) :
    decodeStopReason (.string (stopReasonName r)) = some r := by
  cases r <;> simp [decodeStopReason, stopReasonName]

/-! ## Messages -/

def encodeMessage : AgentMessage → Value
  | .user m =>
    .object [("role", .string "user"), ("content", encodeContent m.content), ("timestamp", .int m.timestamp)]
  | .assistant m =>
    .object ([("role", Value.string "assistant"), ("content", .array (m.content.map encodeAssistantBlock)),
      ("api", .string m.api), ("provider", .string m.provider), ("model", .string m.model)] ++
      optField "responseModel" .string m.responseModel ++ optField "responseId" .string m.responseId ++
      optField "diagnostics" .array m.diagnostics ++
      [("usage", encodeUsage m.usage), ("stopReason", .string (stopReasonName m.stopReason))] ++
      optField "stopReasonRaw" .string m.stopReasonRaw ++ optField "errorMessage" .string m.errorMessage ++
      [("timestamp", Value.int m.timestamp)])
  | .toolResult m =>
    .object ([("role", Value.string "toolResult"), ("toolCallId", .string m.toolCallId),
      ("toolName", .string m.toolName), ("content", .array (m.content.map encodeBlock))] ++
      optField "details" id m.details ++ [("isError", Value.bool m.isError), ("timestamp", .int m.timestamp)])
  | .bashExecution m =>
    .object ([("role", Value.string "bashExecution"), ("command", .string m.command),
      ("output", .string m.output)] ++ optField "exitCode" .int m.exitCode ++
      [("cancelled", Value.bool m.cancelled), ("truncated", .bool m.truncated)] ++
      optField "fullOutputPath" .string m.fullOutputPath ++ [("timestamp", Value.int m.timestamp)] ++
      optField "excludeFromContext" .bool m.excludeFromContext)
  | .custom m =>
    .object ([("role", Value.string "custom"), ("customType", .string m.customType),
      ("content", encodeContent m.content), ("display", .bool m.display)] ++
      optField "details" id m.details ++ [("timestamp", nullOr .int m.timestamp)])
  | .branchSummary m =>
    .object [("role", .string "branchSummary"), ("summary", .string m.summary),
      ("fromId", .string m.fromId), ("timestamp", nullOr .int m.timestamp)]
  | .compactionSummary m =>
    .object ([("role", Value.string "compactionSummary"), ("summary", .string m.summary),
      ("tokensBefore", .int m.tokensBefore)] ++
      optField "retainedMessageCount" (fun n : Nat => .int n) m.retainedMessageCount ++
      optField "customInstructions" .string m.customInstructions ++
      optField "harnessDigest" .string m.harnessDigest ++
      optField "harnessStateFingerprint" .string m.harnessStateFingerprint ++
      [("timestamp", nullOr .int m.timestamp)])

def array? : Value → Option (List Value)
  | .array vs => some vs
  | _ => none

def decodeUserMessage (v : Value) : Option UserMessage := do
  let content ← get "content" decodeContent v
  let timestamp ← get "timestamp" int? v
  return { content, timestamp }

def decodeAssistantMessage (v : Value) : Option AssistantMessage := do
  let content ← get "content" (list? decodeAssistantBlock) v
  let api ← get "api" str? v
  let provider ← get "provider" str? v
  let model ← get "model" str? v
  let responseModel ← getOpt "responseModel" str? v
  let responseId ← getOpt "responseId" str? v
  let diagnostics ← getOpt "diagnostics" array? v
  let usage ← get "usage" decodeUsage v
  let stopReason ← get "stopReason" decodeStopReason v
  let stopReasonRaw ← getOpt "stopReasonRaw" str? v
  let errorMessage ← getOpt "errorMessage" str? v
  let timestamp ← get "timestamp" int? v
  return { content, api, provider, model, responseModel, responseId, diagnostics, usage, stopReason,
           stopReasonRaw, errorMessage, timestamp }

def decodeToolResultMessage (v : Value) : Option ToolResultMessage := do
  let toolCallId ← get "toolCallId" str? v
  let toolName ← get "toolName" str? v
  let content ← get "content" (list? decodeBlock) v
  let details ← getOpt "details" some v
  let isError ← get "isError" bool? v
  let timestamp ← get "timestamp" int? v
  return { toolCallId, toolName, content, details, isError, timestamp }

def decodeBashExecutionMessage (v : Value) : Option BashExecutionMessage := do
  let command ← get "command" str? v
  let output ← get "output" str? v
  let exitCode ← getOpt "exitCode" int? v
  let cancelled ← get "cancelled" bool? v
  let truncated ← get "truncated" bool? v
  let fullOutputPath ← getOpt "fullOutputPath" str? v
  let timestamp ← get "timestamp" int? v
  let excludeFromContext ← getOpt "excludeFromContext" bool? v
  return { command, output, exitCode, cancelled, truncated, fullOutputPath, timestamp, excludeFromContext }

def decodeCustomMessage (v : Value) : Option CustomMessage := do
  let customType ← get "customType" str? v
  let content ← get "content" decodeContent v
  let display ← get "display" bool? v
  let details ← getOpt "details" some v
  let timestamp ← get "timestamp" (nullOr? int?) v
  return { customType, content, display, details, timestamp }

def decodeBranchSummaryMessage (v : Value) : Option BranchSummaryMessage := do
  let summary ← get "summary" str? v
  let fromId ← get "fromId" str? v
  let timestamp ← get "timestamp" (nullOr? int?) v
  return { summary, fromId, timestamp }

def decodeCompactionSummaryMessage (v : Value) : Option CompactionSummaryMessage := do
  let summary ← get "summary" str? v
  let tokensBefore ← get "tokensBefore" int? v
  let retainedMessageCount ← getOpt "retainedMessageCount" nat? v
  let customInstructions ← getOpt "customInstructions" str? v
  let harnessDigest ← getOpt "harnessDigest" str? v
  let harnessStateFingerprint ← getOpt "harnessStateFingerprint" str? v
  let timestamp ← get "timestamp" (nullOr? int?) v
  return { summary, tokensBefore, retainedMessageCount, customInstructions, harnessDigest,
           harnessStateFingerprint, timestamp }

def decodeMessage (v : Value) : Option AgentMessage := do
  let role ← get "role" str? v
  if role = "user" then (decodeUserMessage v).map .user
  else if role = "assistant" then (decodeAssistantMessage v).map .assistant
  else if role = "toolResult" then (decodeToolResultMessage v).map .toolResult
  else if role = "bashExecution" then (decodeBashExecutionMessage v).map .bashExecution
  else if role = "custom" then (decodeCustomMessage v).map .custom
  else if role = "branchSummary" then (decodeBranchSummaryMessage v).map .branchSummary
  else if role = "compactionSummary" then (decodeCompactionSummaryMessage v).map .compactionSummary
  else none

@[simp] theorem array?_array (vs : List Value) : array? (.array vs) = some vs := rfl

@[simp] theorem optOf_array (o : Option (List Value)) : optOf array? (o.map .array) = some o :=
  optOf_map array?_array o

@[simp] theorem optOf_nat (o : Option Nat) :
    optOf nat? (o.map fun n : Nat => Value.int n) = some o := optOf_map nat?_int o

@[simp] theorem decodeMessage_encode (m : AgentMessage) : decodeMessage (encodeMessage m) = some m := by
  cases m with
  | user m =>
    simp [decodeMessage, decodeUserMessage, encodeMessage, get, field_object, lookup_cons]
  | assistant m =>
    simp [decodeMessage, decodeAssistantMessage, encodeMessage, get, getOpt, field_object,
      lookup_append, lookup_cons, list?_array decodeAssistantBlock_encode]
  | toolResult m =>
    simp [decodeMessage, decodeToolResultMessage, encodeMessage, get, getOpt, field_object,
      lookup_append, lookup_cons, list?_array decodeBlock_encode]
  | bashExecution m =>
    simp [decodeMessage, decodeBashExecutionMessage, encodeMessage, get, getOpt, field_object,
      lookup_append, lookup_cons]
  | custom m =>
    simp [decodeMessage, decodeCustomMessage, encodeMessage, get, getOpt, field_object, lookup_append, lookup_cons]
  | branchSummary m =>
    simp [decodeMessage, decodeBranchSummaryMessage, encodeMessage, get, field_object, lookup_cons]
  | compactionSummary m =>
    simp [decodeMessage, decodeCompactionSummaryMessage, encodeMessage, get, getOpt, field_object,
      lookup_append, lookup_cons]

/-! ## Entries -/

def serviceTierValue : ServiceTier → Value
  | .auto => .string "auto"
  | .default => .string "default"
  | .flex => .string "flex"
  | .scale => .string "scale"
  | .priority => .string "priority"
  | .null => .null

def decodeServiceTier : Value → Option ServiceTier
  | .null => some .null
  | .string s =>
    if s = "auto" then some .auto
    else if s = "default" then some .default
    else if s = "flex" then some .flex
    else if s = "scale" then some .scale
    else if s = "priority" then some .priority
    else none
  | _ => none

def statusName : SessionStateStatus → String
  | .active => "active"
  | .archived => "archived"
  | .crash => "crash"

def decodeStatus (v : Value) : Option SessionStateStatus := do
  let s ← str? v
  [.active, .archived, .crash].find? fun r => statusName r = s

def taskStateName : AgentTaskState → String
  | .needsInput => "needs_input"
  | .completed => "completed"
  | .error => "error"

def decodeTaskState (v : Value) : Option AgentTaskState := do
  let s ← str? v
  [.needsInput, .completed, .error].find? fun r => taskStateName r = s

def originName : AttributionOrigin → String
  | .spawnTask => "spawn_task"
  | .agentMessage => "agent_message"
  | .directUser => "direct_user"

def decodeOrigin (v : Value) : Option AttributionOrigin := do
  let s ← str? v
  [.spawnTask, .agentMessage, .directUser].find? fun r => originName r = s

def encodeGit (g : GitContext) : Value :=
  .object (optField "repoUrl" .string g.repoUrl ++ optField "commit" .string g.commit ++
    optField "branch" .string g.branch)

def decodeGit (v : Value) : Option GitContext := do
  let repoUrl ← getOpt "repoUrl" str? v
  let commit ← getOpt "commit" str? v
  let branch ← getOpt "branch" str? v
  return { repoUrl, commit, branch }

def encodeAgentStatus (s : AgentStatus) : Value :=
  .object ([("summary", Value.string s.summary)] ++
    optField "taskState" (fun t => .string (taskStateName t)) s.taskState ++
    [("basedOnMessageCount", Value.int s.basedOnMessageCount)])

def decodeAgentStatus (v : Value) : Option AgentStatus := do
  let summary ← get "summary" str? v
  let taskState ← getOpt "taskState" decodeTaskState v
  let basedOnMessageCount ← get "basedOnMessageCount" int? v
  return { summary, taskState, basedOnMessageCount }

/-- The tree fields every entry has. -/
def baseFields (e : SessionEntry) : List (String × Value) :=
  [("id", .string e.id), ("parentId", nullOr .string e.parentId), ("timestamp", .string e.timestamp)]

def encodeEntry (e : SessionEntry) : Value :=
  match e.body with
  | .message m => .object ([("type", Value.string "message")] ++ baseFields e ++ [("message", encodeMessage m)])
  | .thinkingLevelChange level =>
    .object ([("type", Value.string "thinking_level_change")] ++ baseFields e ++
      [("thinkingLevel", Value.string level)])
  | .serviceTierChange tier =>
    .object ([("type", Value.string "service_tier_change")] ++ baseFields e ++
      [("serviceTier", serviceTierValue tier)])
  | .modelChange provider modelId =>
    .object ([("type", Value.string "model_change")] ++ baseFields e ++
      [("provider", Value.string provider), ("modelId", .string modelId)])
  | .compaction c =>
    .object ([("type", Value.string "compaction")] ++ baseFields e ++
      [("summary", Value.string c.summary), ("firstKeptEntryId", .string c.firstKeptEntryId),
        ("tokensBefore", .int c.tokensBefore)] ++
      optField "details" id c.details ++ optField "fromHook" .bool c.fromHook ++
      optField "customInstructions" .string c.customInstructions ++ optField "usage" encodeUsage c.usage ++
      optField "harnessDigest" .string c.harnessDigest ++
      optField "harnessStateFingerprint" .string c.harnessStateFingerprint)
  | .branchSummary b =>
    .object ([("type", Value.string "branch_summary")] ++ baseFields e ++
      [("fromId", Value.string b.fromId), ("summary", .string b.summary)] ++ optField "details" id b.details ++
      optField "fromHook" .bool b.fromHook ++ optField "usage" encodeUsage b.usage)
  | .custom customType data =>
    .object ([("type", Value.string "custom"), ("customType", .string customType)] ++ optField "data" id data ++
      baseFields e)
  | .childUsageAttributed a =>
    .object ([("type", Value.string "child_usage_attributed")] ++ baseFields e ++
      [("targetId", Value.string a.targetId), ("childUsage", encodeUsage a.childUsage),
        ("aggregateUsage", encodeUsage a.aggregateUsage)] ++
      optField "origin" (fun o => .string (originName o)) a.origin)
  | .customMessage c =>
    .object ([("type", Value.string "custom_message"), ("customType", .string c.customType),
      ("content", encodeContent c.content), ("display", .bool c.display)] ++
      optField "details" id c.details ++ baseFields e)
  | .label targetId label =>
    .object ([("type", Value.string "label")] ++ baseFields e ++ [("targetId", Value.string targetId)] ++
      optField "label" .string label)
  | .sessionInfo name =>
    .object ([("type", Value.string "session_info")] ++ baseFields e ++ optField "name" .string name)
  | .sessionState status =>
    .object ([("type", Value.string "session_state")] ++ baseFields e ++
      [("state", Value.object [("status", .string (statusName status))])])
  | .agentStatus status =>
    .object ([("type", Value.string "agent_status")] ++ baseFields e ++ [("status", encodeAgentStatus status)])
  | .gitState git => .object ([("type", Value.string "git_state")] ++ baseFields e ++ [("git", encodeGit git)])

def decodeModelChange (v : Value) : Option EntryBody := do
  let provider ← get "provider" str? v
  let modelId ← get "modelId" str? v
  return .modelChange provider modelId

def decodeCompaction (v : Value) : Option Compaction := do
  let summary ← get "summary" str? v
  let firstKeptEntryId ← get "firstKeptEntryId" str? v
  let tokensBefore ← get "tokensBefore" int? v
  let details ← getOpt "details" some v
  let fromHook ← getOpt "fromHook" bool? v
  let customInstructions ← getOpt "customInstructions" str? v
  let usage ← getOpt "usage" decodeUsage v
  let harnessDigest ← getOpt "harnessDigest" str? v
  let harnessStateFingerprint ← getOpt "harnessStateFingerprint" str? v
  return { summary, firstKeptEntryId, tokensBefore, details, fromHook, customInstructions, usage,
           harnessDigest, harnessStateFingerprint }

def decodeBranchSummary (v : Value) : Option BranchSummary := do
  let fromId ← get "fromId" str? v
  let summary ← get "summary" str? v
  let details ← getOpt "details" some v
  let fromHook ← getOpt "fromHook" bool? v
  let usage ← getOpt "usage" decodeUsage v
  return { fromId, summary, details, fromHook, usage }

def decodeCustom (v : Value) : Option EntryBody := do
  let customType ← get "customType" str? v
  let data ← getOpt "data" some v
  return .custom customType data

def decodeAttribution (v : Value) : Option ChildUsageAttribution := do
  let targetId ← get "targetId" str? v
  let childUsage ← get "childUsage" decodeUsage v
  let aggregateUsage ← get "aggregateUsage" decodeUsage v
  let origin ← getOpt "origin" decodeOrigin v
  return { targetId, childUsage, aggregateUsage, origin }

def decodeCustomMessageContent (v : Value) : Option CustomMessageContent := do
  let customType ← get "customType" str? v
  let content ← get "content" decodeContent v
  let details ← getOpt "details" some v
  let display ← get "display" bool? v
  return { customType, content, details, display }

def decodeLabel (v : Value) : Option EntryBody := do
  let targetId ← get "targetId" str? v
  let label ← getOpt "label" str? v
  return .label targetId label

def decodeBody (type : String) (v : Value) : Option EntryBody :=
  if type = "message" then (get "message" decodeMessage v).map .message
  else if type = "thinking_level_change" then (get "thinkingLevel" str? v).map .thinkingLevelChange
  else if type = "service_tier_change" then
    (get "serviceTier" decodeServiceTier v).map .serviceTierChange
  else if type = "model_change" then decodeModelChange v
  else if type = "compaction" then (decodeCompaction v).map .compaction
  else if type = "branch_summary" then (decodeBranchSummary v).map .branchSummary
  else if type = "custom" then decodeCustom v
  else if type = "child_usage_attributed" then (decodeAttribution v).map .childUsageAttributed
  else if type = "custom_message" then (decodeCustomMessageContent v).map .customMessage
  else if type = "label" then decodeLabel v
  else if type = "session_info" then (getOpt "name" str? v).map .sessionInfo
  else if type = "session_state" then (get "state" (get "status" decodeStatus) v).map .sessionState
  else if type = "agent_status" then (get "status" decodeAgentStatus v).map .agentStatus
  else if type = "git_state" then (get "git" decodeGit v).map .gitState
  else none

def decodeEntry (v : Value) : Option SessionEntry := do
  let type ← get "type" str? v
  let id ← get "id" str? v
  let parentId ← get "parentId" (nullOr? str?) v
  let timestamp ← get "timestamp" str? v
  let body ← decodeBody type v
  return { id, parentId, timestamp, body }

@[simp] theorem decodeServiceTier_value (t : ServiceTier) : decodeServiceTier (serviceTierValue t) = some t := by
  cases t <;> simp [decodeServiceTier, serviceTierValue]

@[simp] theorem decodeStatus_name (r : SessionStateStatus) : decodeStatus (.string (statusName r)) = some r := by
  cases r <;> simp [decodeStatus, statusName]

theorem decodeTaskState_name (r : AgentTaskState) : decodeTaskState (.string (taskStateName r)) = some r := by
  cases r <;> simp [decodeTaskState, taskStateName]

theorem decodeOrigin_name (r : AttributionOrigin) : decodeOrigin (.string (originName r)) = some r := by
  cases r <;> simp [decodeOrigin, originName]

@[simp] theorem optOf_taskState (o : Option AgentTaskState) :
    optOf decodeTaskState (o.map fun t => Value.string (taskStateName t)) = some o :=
  optOf_map decodeTaskState_name o

@[simp] theorem optOf_origin (o : Option AttributionOrigin) :
    optOf decodeOrigin (o.map fun t => Value.string (originName t)) = some o :=
  optOf_map decodeOrigin_name o

@[simp] theorem decodeGit_encode (g : GitContext) : decodeGit (encodeGit g) = some g := by
  simp [decodeGit, encodeGit, getOpt, field_object, lookup_append]

@[simp] theorem decodeAgentStatus_encode (s : AgentStatus) : decodeAgentStatus (encodeAgentStatus s) = some s := by
  simp [decodeAgentStatus, encodeAgentStatus, get, getOpt, field_object, lookup_append, lookup_cons]

@[simp] theorem decodeEntry_encode (e : SessionEntry) : decodeEntry (encodeEntry e) = some e := by
  obtain ⟨id, parentId, timestamp, body⟩ := e
  cases body <;>
    simp [decodeEntry, encodeEntry, decodeBody, decodeModelChange, decodeCompaction, decodeBranchSummary,
      decodeCustom, decodeAttribution, decodeCustomMessageContent, decodeLabel, baseFields, get, getOpt,
      field_object, lookup_append, lookup_cons]

/-! ## Lines of the file -/

def encodeHeader (h : SessionHeader) : Value :=
  .object ([("type", Value.string "session")] ++ optField "version" .int h.version ++
    [("id", Value.string h.id), ("timestamp", .string h.timestamp), ("cwd", .string h.cwd)] ++
    optField "parentSession" .string h.parentSession ++
    optField "rlmDepth" (fun n : Nat => .int n) h.rlmDepth ++ optField "git" encodeGit h.git)

def decodeHeader (v : Value) : Option SessionHeader := do
  let version ← getOpt "version" int? v
  let id ← get "id" str? v
  let timestamp ← get "timestamp" str? v
  let cwd ← get "cwd" str? v
  let parentSession ← getOpt "parentSession" str? v
  let rlmDepth ← getOpt "rlmDepth" nat? v
  let git ← getOpt "git" decodeGit v
  return { version, id, timestamp, cwd, parentSession, rlmDepth, git }

def encodeFileEntry : FileEntry → Value
  | .session h => encodeHeader h
  | .entry e => encodeEntry e

def decodeFileEntry (v : Value) : Option FileEntry := do
  let type ← get "type" str? v
  if type = "session" then (decodeHeader v).map .session else (decodeEntry v).map .entry

@[simp] theorem optOf_git (o : Option GitContext) : optOf decodeGit (o.map encodeGit) = some o :=
  optOf_map decodeGit_encode o

@[simp] theorem decodeHeader_encode (h : SessionHeader) : decodeHeader (encodeHeader h) = some h := by
  simp [decodeHeader, encodeHeader, get, getOpt, field_object, lookup_append, lookup_cons]

theorem type_encodeEntry (e : SessionEntry) : ∃ t, get "type" str? (encodeEntry e) = some t ∧ t ≠ "session" := by
  obtain ⟨id, parentId, timestamp, body⟩ := e
  cases body <;>
    simp [encodeEntry, baseFields, get, field_object, lookup_append, lookup_cons]

/-- **Round trip of a record.** -/
theorem decodeFileEntry_encode (f : FileEntry) : decodeFileEntry (encodeFileEntry f) = some f := by
  cases f with
  | session h =>
    have ht : get "type" str? (encodeHeader h) = some "session" := by
      simp [encodeHeader, get, field_object, lookup_append, lookup_cons]
    simp [decodeFileEntry, encodeFileEntry, ht]
  | entry e =>
    obtain ⟨t, ht, hne⟩ := type_encodeEntry e
    simp [decodeFileEntry, encodeFileEntry, ht, hne]

/-- The bytes of `JSON.stringify(entry)`. -/
def lineOf (f : FileEntry) : List UInt8 := Utf8.encode (Json.stringify (encodeFileEntry f))

/-- The record of a line; `none` for a line that is skipped. -/
def parseLine (line : List UInt8) : Option FileEntry :=
  (Json.parse (Utf8.decode line)).bind decodeFileEntry

def parsesAsJson (line : List UInt8) : Bool := (Json.parse (Utf8.decode line)).isSome

theorem parseLine_lineOf (f : FileEntry) : parseLine (lineOf f) = some f := by
  rw [parseLine, lineOf, Utf8.decode_encode, Json.parse_stringify]
  exact decodeFileEntry_encode f

theorem parsesAsJson_lineOf (f : FileEntry) : parsesAsJson (lineOf f) = true := by
  rw [parsesAsJson, lineOf, Utf8.decode_encode, Json.parse_stringify]
  rfl

theorem le_of_mem_lineOf {f : FileEntry} {b : UInt8} (h : b ∈ lineOf f) : 32 ≤ b.toNat := by
  by_contra hlt
  obtain ⟨c, hc, hcb⟩ := Utf8.ascii_mem_encode (by omega) h
  have := Json.stringify_printable _ c hc
  omega

theorem newline_not_mem_lineOf (f : FileEntry) : (10 : UInt8) ∉ lineOf f := by
  intro h
  have := le_of_mem_lineOf h
  simp at this

end Session
end RePrime
