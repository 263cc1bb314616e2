import RePrime.Agent.Types

/-!
# RePrime.Agent.State

The state that an agent keeps of the events of its runs.
-/

namespace RePrime
namespace Agent

structure AgentState where
  messages : List AgentMessage
  streamingMessage : Option AgentMessage
  pendingToolCalls : List String
  errorMessage : Option String

namespace AgentState

def addPendingToolCall (ids : List String) (id : String) : List String := if id ∈ ids then ids else ids ++ [id]

/-- What an event changes before the listeners see it. -/
def processEvent (s : AgentState) : AgentEvent → AgentState
  | .messageStart m => { s with streamingMessage := some m }
  | .messageUpdate m => { s with streamingMessage := some m }
  | .messageEnd m => { s with streamingMessage := none, messages := s.messages ++ [m] }
  | .toolExecutionStart id .. => { s with pendingToolCalls := addPendingToolCall s.pendingToolCalls id }
  | .toolExecutionEnd id .. => { s with pendingToolCalls := s.pendingToolCalls.filter (· ≠ id) }
  | .turnEnd (.assistant m) _ =>
    match m.errorMessage.filter (· ≠ "") with
    | some text => { s with errorMessage := some text }
    | none => s
  | .agentEnd _ => { s with streamingMessage := none }
  | .agentStart | .turnStart | .reflex .. | .toolExecutionUpdate .. | .turnEnd .. => s

def processEvents (s : AgentState) (events : List AgentEvent) : AgentState := events.foldl processEvent s

end AgentState
end Agent
end RePrime
