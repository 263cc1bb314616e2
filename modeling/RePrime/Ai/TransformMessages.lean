import Mathlib.Logic.Function.Basic
import RePrime.Lib.Text

/-!
# RePrime.Ai.TransformMessages

`transformMessages` (`transform-messages.ts`): a history made ready for the provider of a model.

* `downgradeUnsupportedImages`: images as text for a model that reads none.
* `normalizeMessages`: the first pass, which rewrites blocks and the ids of tool calls.
* `replayStep`: the second pass, which drops what cannot be replayed and answers calls that have no result.
-/

namespace RePrime
namespace Ai

structure ToolCall where
  id : String
  name : String
  arguments : String
  thoughtSignature : Option String
deriving DecidableEq

inductive Content where
  | text (text : String) (textSignature : Option String)
  | thinking (thinking : String) (thinkingSignature : Option String) (redacted : Bool)
  | image (data mimeType : String)
  | toolCall (call : ToolCall)
deriving DecidableEq

inductive StopReason where
  | stop
  | length
  | toolUse
  | error
  | aborted
deriving DecidableEq

structure AssistantMessage where
  content : List Content
  api : String
  provider : String
  model : String
  stopReason : StopReason
  timestamp : Nat
deriving DecidableEq

structure ToolResultMessage where
  toolCallId : String
  toolName : String
  content : List Content
  details : Option String
  isError : Bool
  timestamp : Nat
deriving DecidableEq

inductive UserContent where
  | plain (text : String)
  | blocks (content : List Content)
deriving DecidableEq

/-- `other` is a message of a role that both passes hand on. -/
inductive Message where
  | user (content : UserContent) (timestamp : Nat)
  | assistant (message : AssistantMessage)
  | toolResult (message : ToolResultMessage)
  | other (role : String)
deriving DecidableEq

structure Model where
  id : String
  api : String
  provider : String
  input : List String

def Content.toolCall? : Content → Option ToolCall
  | .toolCall call => some call
  | _ => none

def AssistantMessage.toolCalls (m : AssistantMessage) : List ToolCall := m.content.filterMap Content.toolCall?

/-! ### Images -/

def NON_VISION_USER_IMAGE_PLACEHOLDER : String := "(image omitted: model does not support images)"

def NON_VISION_TOOL_IMAGE_PLACEHOLDER : String := "(tool image omitted: model does not support images)"

/-- The loop of `replaceImagesWithPlaceholder`: a run of images gives one placeholder. -/
def replaceImages (placeholder : String) : Bool → List Content → List Content
  | _, [] => []
  | previousWasPlaceholder, .image _ _ :: rest =>
    (if previousWasPlaceholder then [] else [.text placeholder none]) ++ replaceImages placeholder true rest
  | _, .text text signature :: rest =>
    .text text signature :: replaceImages placeholder (text == placeholder) rest
  | _, block :: rest => block :: replaceImages placeholder false rest

def replaceImagesWithPlaceholder (content : List Content) (placeholder : String) : List Content :=
  replaceImages placeholder false content

def downgradeMessage : Message → Message
  | .user (.blocks content) timestamp =>
    .user (.blocks (replaceImagesWithPlaceholder content NON_VISION_USER_IMAGE_PLACEHOLDER)) timestamp
  | .toolResult r =>
    .toolResult { r with content := replaceImagesWithPlaceholder r.content NON_VISION_TOOL_IMAGE_PLACEHOLDER }
  | msg => msg

def downgradeUnsupportedImages (messages : List Message) (model : Model) : List Message :=
  if "image" ∈ model.input then messages else messages.map downgradeMessage

/-! ### The first pass -/

abbrev NormalizeToolCallId : Type := String → Model → AssistantMessage → String

/-- `toolCallIdMap`. -/
abbrev IdMap : Type := String → Option String

def isTruthy : Option String → Bool
  | some s => s ≠ ""
  | none => false

def isSameModel (model : Model) (m : AssistantMessage) : Bool :=
  m.provider == model.provider && m.api == model.api && m.model == model.id

variable (model : Model) (normalizeToolCallId : Option NormalizeToolCallId)

/-- A tool call with the id the provider takes, and the map that results are looked up in. -/
def normalizeToolCall (m : AssistantMessage) (ids : IdMap) (toolCall : ToolCall) : ToolCall × IdMap :=
  if isSameModel model m then (toolCall, ids)
  else
    let unsigned : ToolCall :=
      if isTruthy toolCall.thoughtSignature then { toolCall with thoughtSignature := none } else toolCall
    match normalizeToolCallId with
    | none => (unsigned, ids)
    | some normalize =>
      let normalizedId := normalize toolCall.id model m
      if normalizedId ≠ toolCall.id then
        ({ unsigned with id := normalizedId }, Function.update ids toolCall.id (some normalizedId))
      else (unsigned, ids)

def normalizeBlock (m : AssistantMessage) (ids : IdMap) : Content → List Content × IdMap
  | .thinking thinking signature redacted =>
    if redacted then (if isSameModel model m then [.thinking thinking signature redacted] else [], ids)
    else if isSameModel model m && isTruthy signature then ([.thinking thinking signature redacted], ids)
    else if Text.trim thinking = "" then ([], ids)
    else if isSameModel model m then ([.thinking thinking signature redacted], ids)
    else ([.text thinking none], ids)
  | .text text signature => ([.text text (if isSameModel model m then signature else none)], ids)
  | .toolCall toolCall =>
    let normalized := normalizeToolCall model normalizeToolCallId m ids toolCall
    ([.toolCall normalized.1], normalized.2)
  | block => ([block], ids)

def normalizeContent (m : AssistantMessage) : IdMap → List Content → List Content × IdMap
  | ids, [] => ([], ids)
  | ids, block :: rest =>
    let head := normalizeBlock model normalizeToolCallId m ids block
    let tail := normalizeContent m head.2 rest
    (head.1 ++ tail.1, tail.2)

/-- A result follows the id of its call, as far as the map knows it. -/
def normalizeResult (ids : IdMap) (r : ToolResultMessage) : ToolResultMessage :=
  match ids r.toolCallId with
  | some normalizedId =>
    if normalizedId ≠ "" ∧ normalizedId ≠ r.toolCallId then { r with toolCallId := normalizedId } else r
  | none => r

def normalizeFrom : IdMap → List Message → List Message
  | _, [] => []
  | ids, .toolResult r :: rest => .toolResult (normalizeResult ids r) :: normalizeFrom ids rest
  | ids, .assistant m :: rest =>
    let normalized := normalizeContent model normalizeToolCallId m ids m.content
    .assistant { m with content := normalized.1 } :: normalizeFrom normalized.2 rest
  | ids, msg :: rest => msg :: normalizeFrom ids rest

def normalizeMessages (messages : List Message) : List Message :=
  normalizeFrom model normalizeToolCallId (fun _ => none) (downgradeUnsupportedImages messages model)

/-! ### The second pass -/

structure Replay where
  result : List Message
  pendingToolCalls : List ToolCall
  existingToolResultIds : List String

/-- `Date.now()` when the result has so many messages. -/
abbrev Clock : Type := Nat → Nat

variable (now : Clock)

def noResult (tc : ToolCall) (timestamp : Nat) : Message :=
  .toolResult
    { toolCallId := tc.id, toolName := tc.name, content := [.text "No result provided" none], details := none,
      isError := true, timestamp := timestamp }

def pushNoResult (existing : List String) (result : List Message) (tc : ToolCall) : List Message :=
  if tc.id ∈ existing then result else result ++ [noResult tc (now result.length)]

def insertSyntheticToolResults (st : Replay) : Replay :=
  if st.pendingToolCalls = [] then st
  else
    { result := st.pendingToolCalls.foldl (pushNoResult now st.existingToolResultIds) st.result
      pendingToolCalls := []
      existingToolResultIds := [] }

/-- An errored or aborted message is not replayed. -/
def AssistantMessage.isInterrupted (m : AssistantMessage) : Bool :=
  m.stopReason == .error || m.stopReason == .aborted

def replayStep (st : Replay) : Message → Replay
  | .assistant m =>
    let st := insertSyntheticToolResults now st
    if m.isInterrupted then st
    else
      { result := st.result ++ [Message.assistant m]
        pendingToolCalls := if m.toolCalls = [] then st.pendingToolCalls else m.toolCalls
        existingToolResultIds := if m.toolCalls = [] then st.existingToolResultIds else [] }
  | .toolResult r =>
    if r.toolCallId ∈ st.pendingToolCalls.map ToolCall.id then
      { st with
        result := st.result ++ [Message.toolResult r]
        existingToolResultIds := r.toolCallId :: st.existingToolResultIds }
    else st
  | .user content timestamp =>
    let st := insertSyntheticToolResults now st
    { st with result := st.result ++ [Message.user content timestamp] }
  | .other role => { st with result := st.result ++ [Message.other role] }

def transformMessages (messages : List Message) : List Message :=
  let st := (normalizeMessages model normalizeToolCallId messages).foldl (replayStep now) ⟨[], [], []⟩
  (insertSyntheticToolResults now st).result

end Ai
end RePrime
