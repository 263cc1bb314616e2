import RePrime.Lib.Effect

/-!
# RePrime.Agent.Types

Messages, tools and events of the agent loop, and what the loop asks of its host.

* `Hook`: one question to the host. It may change the state of the host, but an abort is never undone.
* `Outcome`: what a call returns: a promise that resolves or rejects, or it throws at once.
* `AgentLoopConfig`: all hooks of a run.
-/

namespace RePrime
namespace Agent

/-! ## Messages -/

structure AgentToolCall where
  id : String
  name : String
  arguments : String
  deriving DecidableEq

inductive Content where
  | text (text : String)
  | image (data : String)
  | thinking (thinking : String)
  | toolCall (call : AgentToolCall)
  deriving DecidableEq

inductive StopReason where
  | stop
  | length
  | toolUse
  | error
  | aborted
  deriving DecidableEq

structure Usage where
  input : Nat
  output : Nat
  cacheRead : Nat
  cacheWrite : Nat
  totalTokens : Nat
  deriving DecidableEq

def EMPTY_USAGE : Usage := ⟨0, 0, 0, 0, 0⟩

structure AssistantMessage where
  content : List Content
  api : String
  provider : String
  model : String
  usage : Usage
  stopReason : StopReason
  errorMessage : Option String
  timestamp : Nat
  deriving DecidableEq

structure ToolResultMessage where
  toolCallId : String
  toolName : String
  content : List Content
  details : String
  isError : Bool
  timestamp : Nat
  deriving DecidableEq

/-- `id` is the object as such. -/
inductive AgentMessage where
  | user (id : Nat) (content : List Content)
  | custom (id : Nat) (content : List Content)
  | assistant (message : AssistantMessage)
  | toolResult (message : ToolResultMessage)
  deriving DecidableEq

inductive Role where
  | user
  | custom
  | assistant
  | toolResult
  deriving DecidableEq

def AgentMessage.role : AgentMessage → Role
  | .user .. => .user
  | .custom .. => .custom
  | .assistant _ => .assistant
  | .toolResult _ => .toolResult

def Content.toolCall? : Content → Option AgentToolCall
  | .toolCall call => some call
  | _ => none

def AssistantMessage.toolCalls (m : AssistantMessage) : List AgentToolCall := m.content.filterMap Content.toolCall?

/-! ## Errors -/

inductive AgentError where
  | error (name message : String)
  | nonError (text : String)
  | outOfFuel

def ABORT_ERROR_MESSAGE : String := "Request was aborted"

namespace AgentError

def isAbortError : AgentError → Bool
  | .error name message => message == ABORT_ERROR_MESSAGE || name == "AbortError"
  | _ => false

def text : AgentError → String
  | .error _ message => message
  | .nonError text => text
  | .outOfFuel => ""

end AgentError

def createAbortError : AgentError := .error "Error" ABORT_ERROR_MESSAGE

/-! ## Tools -/

inductive ToolExecutionMode where
  | sequential
  | parallel
  deriving DecidableEq

structure AgentTool where
  name : String
  executionMode : Option ToolExecutionMode

structure AgentToolResult where
  content : List Content
  details : String
  terminate : Option Bool
  deriving DecidableEq

structure BeforeToolCallResult where
  block : Bool
  reason : Option String

structure AfterToolCallResult where
  content : Option (List Content)
  details : Option String
  isError : Option Bool
  terminate : Option Bool

structure PreTurnReflex where
  toolName : String
  arguments : Option String

/-! ## Events -/

inductive AssistantMessageEvent where
  | start (partialMessage : AssistantMessage)
  /-- The starts, deltas and ends of texts, thoughts and tool calls. -/
  | update (partialMessage : AssistantMessage)
  | done (message : AssistantMessage)
  | error (error : AssistantMessage)

inductive AgentEvent where
  | agentStart
  | agentEnd (messages : List AgentMessage)
  | turnStart
  | turnEnd (message : AgentMessage) (toolResults : List ToolResultMessage)
  | reflex (toolName : String) (turnIndex consecutiveReflexes : Nat)
  | messageStart (message : AgentMessage)
  | messageUpdate (message : AgentMessage)
  | messageEnd (message : AgentMessage)
  | toolExecutionStart (toolCallId toolName args : String)
  | toolExecutionUpdate (toolCallId toolName args : String) (partialResult : AgentToolResult)
  | toolExecutionEnd (toolCallId toolName : String) (result : AgentToolResult) (isError : Bool)
  deriving DecidableEq

/-! ## The host -/

inductive Outcome (α : Type) where
  | resolved (value : α)
  | rejected (error : AgentError)
  | thrown (error : AgentError)

section Host

variable {σ : Type}

/-- The answer of the host, and its state after it. The signal, once aborted, stays so. -/
structure Hook (aborted : σ → Bool) (α : Type) where
  ask : σ → α × σ
  keeps : ∀ s, aborted s = true → aborted (ask s).2 = true

/-- What a provider sends: events, and then it is done or fails. -/
structure Response where
  events : List AssistantMessageEvent
  failure : Option AgentError
  result : Outcome AssistantMessage

/-- What a tool does: updates before it returns its promise, and updates after. -/
structure Execution where
  syncUpdates : List AgentToolResult
  updates : List AgentToolResult
  outcome : Outcome AgentToolResult

structure LastTurn where
  message : AssistantMessage
  toolResults : List ToolResultMessage
  context : List AgentMessage
  newMessages : List AgentMessage

structure Model where
  id : String
  api : String
  provider : String

structure AgentLoopConfig (σ : Type) where
  model : Model
  tools : List AgentTool
  systemPrompt : String
  apiKey : Option String
  toolExecution : Option ToolExecutionMode
  maxConsecutiveReflexes : Option Nat
  aborted : σ → Bool
  /-- Time passes while an operation is under way. The answer says whether the abort came before its end. -/
  raced : Hook aborted Bool
  /-- Which of the parallel tool calls goes on. -/
  schedule : Hook aborted Nat
  sink : AgentEvent → Hook aborted (Except AgentError Unit)
  now : Hook aborted Nat
  randomUUID : Hook aborted String
  getSteeringMessages : Option (Hook aborted (Outcome (List AgentMessage)))
  getFollowUpMessages : Option (Hook aborted (Outcome (List AgentMessage)))
  getContinuationMessages : Option (LastTurn → Hook aborted (Outcome (List AgentMessage)))
  shouldStopAfterTurn : Option (LastTurn → Hook aborted (Outcome Bool))
  shouldStopBeforeTurn : Option (Hook aborted (Except AgentError Bool))
  preTurnRouter : Option (Nat → Nat → List AgentMessage → Hook aborted (Outcome (Option PreTurnReflex)))
  transformContext : Option (List AgentMessage → Hook aborted (Outcome (List AgentMessage)))
  convertToLlm : List AgentMessage → Hook aborted (Outcome (List AgentMessage))
  getApiKey : Option (String → Hook aborted (Outcome (Option String)))
  getSystemPrompt : Option (Hook aborted (Except AgentError String))
  streamFn : String → List AgentMessage → Option String → Hook aborted (Outcome Response)
  /-- The arguments of a call as the tool prepares and the schema checks them. -/
  prepareArguments : AgentTool → AgentToolCall → Hook aborted (Except AgentError String)
  execute : AgentTool → AgentToolCall → String → Hook aborted Execution
  beforeToolCall : Option (AssistantMessage → AgentToolCall → String → List AgentMessage →
    Hook aborted (Outcome (Option BeforeToolCallResult)))
  afterToolCall : Option (AssistantMessage → AgentToolCall → String → AgentToolResult → Bool → List AgentMessage →
    Hook aborted (Outcome (Option AfterToolCallResult)))

end Host

end Agent
end RePrime
