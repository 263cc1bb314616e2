import RePrime.Lib.Calendar

/-!
# RePrime.Session.Entry

The records of a session file: the header and the fourteen kinds of tree entries, with the
messages they carry.

* Token counts and times are integers; costs are kept as the decimal text they are stored with.
* `details`, `data` and tool arguments are JSON values, which the session code never looks into.
* The time of a message made from an entry is `new Date(timestamp).getTime()`; `none` is `NaN`.
-/

namespace RePrime
namespace Session

open Json (Value Number)

/-! ## Messages -/

structure TextContent where
  text : String
  textSignature : Option String

structure ThinkingContent where
  thinking : String
  thinkingSignature : Option String
  redacted : Option Bool

structure ImageContent where
  data : String
  mimeType : String

structure ToolCall where
  id : String
  name : String
  arguments : List (String × Value)
  thoughtSignature : Option String

/-- `TextContent | ImageContent`. -/
inductive Block where
  | text (t : TextContent)
  | image (i : ImageContent)

/-- `string | (TextContent | ImageContent)[]`. -/
inductive Content where
  | text (s : String)
  | blocks (bs : List Block)

/-- `TextContent | ThinkingContent | ToolCall`. -/
inductive AssistantBlock where
  | text (t : TextContent)
  | thinking (t : ThinkingContent)
  | toolCall (t : ToolCall)

structure Cost where
  input : Number
  output : Number
  cacheRead : Number
  cacheWrite : Number
  total : Number

structure Usage where
  input : Int
  output : Int
  cacheRead : Int
  cacheWrite : Int
  totalTokens : Int
  cost : Cost

/-- A copy shares nothing with the original; as values they are the same. -/
def cloneUsage (usage : Usage) : Usage :=
  { input := usage.input
    output := usage.output
    cacheRead := usage.cacheRead
    cacheWrite := usage.cacheWrite
    totalTokens := usage.totalTokens
    cost :=
      { input := usage.cost.input
        output := usage.cost.output
        cacheRead := usage.cost.cacheRead
        cacheWrite := usage.cost.cacheWrite
        total := usage.cost.total } }

@[simp] theorem cloneUsage_eq (usage : Usage) : cloneUsage usage = usage := rfl

inductive StopReason where
  | stop | length | toolUse | error | aborted
  deriving DecidableEq, Repr

structure UserMessage where
  content : Content
  timestamp : Int

structure AssistantMessage where
  content : List AssistantBlock
  api : String
  provider : String
  model : String
  responseModel : Option String
  responseId : Option String
  diagnostics : Option (List Value)
  usage : Usage
  stopReason : StopReason
  stopReasonRaw : Option String
  errorMessage : Option String
  timestamp : Int

structure ToolResultMessage where
  toolCallId : String
  toolName : String
  content : List Block
  details : Option Value
  isError : Bool
  timestamp : Int

structure BashExecutionMessage where
  command : String
  output : String
  exitCode : Option Int
  cancelled : Bool
  truncated : Bool
  fullOutputPath : Option String
  timestamp : Int
  excludeFromContext : Option Bool

structure CustomMessage where
  customType : String
  content : Content
  display : Bool
  details : Option Value
  timestamp : Option Int

structure BranchSummaryMessage where
  summary : String
  fromId : String
  timestamp : Option Int

structure CompactionSummaryMessage where
  summary : String
  tokensBefore : Int
  retainedMessageCount : Option Nat
  customInstructions : Option String
  harnessDigest : Option String
  harnessStateFingerprint : Option String
  timestamp : Option Int

inductive AgentMessage where
  | user (m : UserMessage)
  | assistant (m : AssistantMessage)
  | toolResult (m : ToolResultMessage)
  | bashExecution (m : BashExecutionMessage)
  | custom (m : CustomMessage)
  | branchSummary (m : BranchSummaryMessage)
  | compactionSummary (m : CompactionSummaryMessage)

def createBranchSummaryMessage (summary fromId timestamp : String) : AgentMessage :=
  .branchSummary { summary, fromId, timestamp := Calendar.isoTime timestamp }

def createCompactionSummaryMessage (summary : String) (tokensBefore : Int) (timestamp : String)
    (customInstructions : Option String) (retainedMessageCount : Option Nat)
    (harnessDigest harnessStateFingerprint : Option String) : AgentMessage :=
  .compactionSummary
    { summary, tokensBefore, retainedMessageCount, customInstructions, harnessDigest,
      harnessStateFingerprint, timestamp := Calendar.isoTime timestamp }

def createCustomMessage (customType : String) (content : Content) (display : Bool)
    (details : Option Value) (timestamp : String) : AgentMessage :=
  .custom { customType, content, display, details, timestamp := Calendar.isoTime timestamp }

/-! ## Entries -/

structure GitContext where
  repoUrl : Option String
  commit : Option String
  branch : Option String
  deriving DecidableEq

/-- `rlmDepth` is a non-negative safe integer wherever the header carries it. -/
structure SessionHeader where
  version : Option Int
  id : String
  timestamp : String
  cwd : String
  parentSession : Option String
  rlmDepth : Option Nat
  git : Option GitContext
  deriving DecidableEq

inductive ServiceTier where
  | auto | default | flex | scale | priority | null
  deriving DecidableEq, Repr

inductive SessionStateStatus where
  | active | archived | crash
  deriving DecidableEq, Repr

inductive AgentTaskState where
  | needsInput | completed | error
  deriving DecidableEq, Repr

structure AgentStatus where
  summary : String
  taskState : Option AgentTaskState
  basedOnMessageCount : Int
  deriving DecidableEq

inductive AttributionOrigin where
  | spawnTask | agentMessage | directUser
  deriving DecidableEq, Repr

structure Compaction where
  summary : String
  firstKeptEntryId : String
  tokensBefore : Int
  details : Option Value
  fromHook : Option Bool
  customInstructions : Option String
  usage : Option Usage
  harnessDigest : Option String
  harnessStateFingerprint : Option String

structure BranchSummary where
  fromId : String
  summary : String
  details : Option Value
  fromHook : Option Bool
  usage : Option Usage

structure CustomMessageContent where
  customType : String
  content : Content
  details : Option Value
  display : Bool

structure ChildUsageAttribution where
  targetId : String
  childUsage : Usage
  aggregateUsage : Usage
  origin : Option AttributionOrigin

/-- What an entry holds beside its place in the tree, by its `type`. -/
inductive EntryBody where
  | message (m : AgentMessage)
  | thinkingLevelChange (thinkingLevel : String)
  | serviceTierChange (serviceTier : ServiceTier)
  | modelChange (provider modelId : String)
  | compaction (c : Compaction)
  | branchSummary (b : BranchSummary)
  | custom (customType : String) (data : Option Value)
  | childUsageAttributed (a : ChildUsageAttribution)
  | customMessage (c : CustomMessageContent)
  | label (targetId : String) (label : Option String)
  | sessionInfo (name : Option String)
  | sessionState (status : SessionStateStatus)
  | agentStatus (status : AgentStatus)
  | gitState (git : GitContext)

structure SessionEntry where
  id : String
  parentId : Option String
  timestamp : String
  body : EntryBody

inductive FileEntry where
  | session (h : SessionHeader)
  | entry (e : SessionEntry)

/-! ## Kinds -/

def SessionEntry.isLabel (e : SessionEntry) : Bool :=
  match e.body with
  | .label .. => true
  | _ => false

def SessionEntry.isGitState (e : SessionEntry) : Bool :=
  match e.body with
  | .gitState _ => true
  | _ => false

def SessionEntry.compaction? (e : SessionEntry) : Option Compaction :=
  match e.body with
  | .compaction c => some c
  | _ => none

def AgentMessage.assistant? : AgentMessage → Option AssistantMessage
  | .assistant m => some m
  | _ => none

def SessionEntry.assistant? (e : SessionEntry) : Option AssistantMessage :=
  match e.body with
  | .message m => m.assistant?
  | _ => none

def FileEntry.isAssistant : FileEntry → Bool
  | .session _ => false
  | .entry e => e.assistant?.isSome

def FileEntry.entry? : FileEntry → Option SessionEntry
  | .session _ => none
  | .entry e => some e

def FileEntry.header? : FileEntry → Option SessionHeader
  | .session h => some h
  | .entry _ => none

/-- The tree parent a walk follows: an empty id counts as no parent. -/
def SessionEntry.parent (e : SessionEntry) : Option String :=
  match e.parentId with
  | none => none
  | some p => if p = "" then none else some p

end Session
end RePrime
