import RePrime.Agent.Types

/-!
# RePrime.Agent.Loop

The agent loop: turns of a provider and its tools, with messages injected between them.

* `raceWithAbort`: an operation against the abort signal.
* `streamAssistantResponse`: one response, with the message that replaces it after an abort.
* `executeToolCalls`: the calls of a response, one after the other or all at once.
* `runLoop`, `runAgentLoop`, `runAgentLoopContinue`: the turns of a run. `fuel` bounds the loops.
-/

namespace RePrime
namespace Agent

variable {σ : Type}

/-- What the loop does: a poll for steering messages with its answer, a reflex, a turn of the provider. -/
inductive Mark where
  | polled (messages : List AgentMessage)
  | reflex
  | provider
  deriving DecidableEq

/-- `partialMessage` is the response as far as it has come. `trail` is no variable of the loop: it keeps what was done,
and the host at that time. -/
structure Run (σ : Type) where
  host : σ
  events : List AgentEvent
  context : List AgentMessage
  partialMessage : Option AssistantMessage
  trail : List (Mark × σ)

abbrev Loop (σ α : Type) : Type := Effect AgentError (Run σ) α

def pushContext (m : AgentMessage) : Loop σ Unit := modify fun r => { r with context := r.context ++ [m] }

def mark (m : Mark) : Loop σ Unit := modify fun r => { r with trail := r.trail ++ [(m, r.host)] }

/-- The last message of the context. -/
def replaceLast (m : AgentMessage) : Loop σ Unit := modify fun r => { r with context := r.context.dropLast ++ [m] }

namespace AgentLoopConfig

variable (config : AgentLoopConfig σ)

/-! ## The host and its signal -/

def hook {α : Type} (h : Hook config.aborted α) : Loop σ α :=
  fun r => .ok (h.ask r.host).1 { r with host := (h.ask r.host).2 }

/-- A hook that may throw. -/
def fallible {α : Type} (h : Hook config.aborted (Except AgentError α)) : Loop σ α := do
  match ← config.hook h with
  | .ok a => pure a
  | .error e => throw e

def signalAborted : Loop σ Bool := fun r => .ok (config.aborted r.host) r

def throwIfAborted : Loop σ Unit := do
  if ← config.signalAborted then throw createAbortError

/-- Time passes. The answer says whether the signal is aborted and that came first. -/
def abortWins : Loop σ Bool := do
  let first ← config.hook config.raced
  let aborted ← config.signalAborted
  pure (first && aborted)

/-- The operation has begun before the signal is looked at. -/
def raceWithAbort {α : Type} (operation : Hook config.aborted (Outcome α)) : Loop σ α := do
  match ← config.hook operation with
  | .thrown e => throw e
  | .resolved a => do
    config.throwIfAborted
    if ← config.abortWins then throw createAbortError else pure a
  | .rejected e => do
    config.throwIfAborted
    if ← config.abortWins then throw createAbortError else throw e

/-- Waiting for something that has begun already. -/
def waitWithAbort {α : Type} (outcome : Outcome α) : Loop σ α :=
  config.raceWithAbort ⟨fun s => (outcome, s), fun _ h => h⟩

def emit (event : AgentEvent) : Loop σ Unit := do
  modify fun r => { r with events := r.events ++ [event] }
  config.fallible (config.sink event)

/-- An operation after a turn: an abort ends the run without an error. -/
def settlePostTurn {α : Type} (operation : Loop σ α) : Loop σ (Option α) :=
  tryCatch (do let a ← operation; pure (some a)) fun e => do
    if (← config.signalAborted) && e.isAbortError then pure none else throw e

/-- A hook after a turn. What it throws at once, before there is a promise, is not settled. -/
def settleHook {α : Type} (hook : Option (Hook config.aborted (Outcome α))) (default : α) : Loop σ (Option α) := do
  let outcome ← (match hook with
    | none => pure (.resolved default)
    | some hook => config.hook hook)
  match outcome with
  | .thrown e => throw e
  | outcome => config.settlePostTurn (config.waitWithAbort outcome)

def pollMessagesUnlessAborted (poll : Option (Hook config.aborted (Outcome (List AgentMessage)))) :
    Loop σ (List AgentMessage) := do
  match poll with
  | none => pure []
  | some poll => if ← config.signalAborted then pure [] else config.raceWithAbort poll

/-- The poll for steering messages. -/
def pollSteering : Loop σ (List AgentMessage) := do
  let messages ← config.pollMessagesUnlessAborted config.getSteeringMessages
  if ← config.signalAborted then pure messages
  else do
    mark (.polled messages)
    pure messages

/-! ## One response -/

def createAbortedAssistantMessage (partialMessage : Option AssistantMessage) (timestamp : Nat) : AssistantMessage where
  content := (partialMessage.map AssistantMessage.content).getD [.text ""]
  api := (partialMessage.map AssistantMessage.api).getD config.model.api
  provider := (partialMessage.map AssistantMessage.provider).getD config.model.provider
  model := (partialMessage.map AssistantMessage.model).getD config.model.id
  usage := (partialMessage.map AssistantMessage.usage).getD EMPTY_USAGE
  stopReason := .aborted
  errorMessage := some ABORT_ERROR_MESSAGE
  timestamp := timestamp

/-- The message takes the place of the partial one, or is announced now. -/
def placeMessage (message : AssistantMessage) : Loop σ Unit := do
  let r ← get
  if r.partialMessage.isSome then replaceLast (.assistant message)
  else do
    pushContext (.assistant message)
    config.emit (.messageStart (.assistant message))

def finishMessage (message : AssistantMessage) : Loop σ AssistantMessage := do
  config.placeMessage message
  config.emit (.messageEnd (.assistant message))
  pure message

def finishAbortedMessage : Loop σ AssistantMessage := do
  let r ← get
  let timestamp ← config.hook config.now
  config.finishMessage (config.createAbortedAssistantMessage r.partialMessage timestamp)

/-- The result of a response that has sent its last event. An abort keeps the message of that event. -/
def terminalMessage (message : AssistantMessage) (result : Outcome AssistantMessage) : Loop σ AssistantMessage :=
  tryCatch (config.waitWithAbort result) fun e => do
    if (← config.signalAborted) && e.isAbortError then pure message else throw e

def startMessage (partialMessage : AssistantMessage) : Loop σ Unit := do
  modify fun r => { r with partialMessage := some partialMessage }
  pushContext (.assistant partialMessage)
  config.emit (.messageStart (.assistant partialMessage))

/-- An update before the start is ignored. -/
def updateMessage (partialMessage : AssistantMessage) : Loop σ Unit := do
  let r ← get
  if r.partialMessage.isSome then do
    modify fun r => { r with partialMessage := some partialMessage }
    replaceLast (.assistant partialMessage)
    config.emit (.messageUpdate (.assistant partialMessage))
  else pure ()

def consume (response : Response) : List AssistantMessageEvent → Loop σ AssistantMessage
  | [] => do
    config.waitWithAbort (match response.failure with
      | none => .resolved ()
      | some e => .rejected e)
    let message ← config.waitWithAbort response.result
    config.finishMessage message
  | event :: rest => do
    config.waitWithAbort (.resolved ())
    match event with
    | .start partialMessage => do
      config.startMessage partialMessage
      consume response rest
    | .update partialMessage => do
      config.updateMessage partialMessage
      consume response rest
    | .done message => do
      let message ← config.terminalMessage message response.result
      config.finishMessage message
    | .error message => do
      let message ← config.terminalMessage message response.result
      config.finishMessage message

/-- From the context to the response of the provider. -/
def request : Loop σ Response := do
  config.throwIfAborted
  let r ← get
  let messages ← (match config.transformContext with
    | none => pure r.context
    | some transform => config.raceWithAbort (transform r.context))
  let llmMessages ← config.raceWithAbort (config.convertToLlm messages)
  let resolvedApiKey ← (match config.getApiKey with
    | none => pure none
    | some getApiKey => config.raceWithAbort (getApiKey config.model.provider))
  let systemPrompt ← (match config.getSystemPrompt with
    | none => pure config.systemPrompt
    | some getSystemPrompt => config.fallible getSystemPrompt)
  config.raceWithAbort
    (config.streamFn systemPrompt llmMessages ((resolvedApiKey.filter (· ≠ "")).or config.apiKey))

def streamAssistantResponse : Loop σ AssistantMessage := do
  modify fun r => { r with partialMessage := none }
  tryCatch (do let response ← config.request; config.consume response response.events) fun e => do
    if (← config.signalAborted) && e.isAbortError then config.finishAbortedMessage else throw e

/-! ## Tool calls -/

def createErrorToolResult (message : String) : AgentToolResult := ⟨[.text message], "\x7b\x7d", none⟩

structure PreparedToolCall where
  toolCall : AgentToolCall
  tool : AgentTool
  args : String

structure FinalizedToolCallOutcome where
  toolCall : AgentToolCall
  result : AgentToolResult
  isError : Bool

inductive Preparation where
  | prepared (call : PreparedToolCall)
  | immediate (outcome : FinalizedToolCallOutcome)

def prepareToolCall (assistantMessage : AssistantMessage) (toolCall : AgentToolCall) : Loop σ Preparation := do
  match config.tools.find? fun tool => tool.name == toolCall.name with
  | none =>
    pure (.immediate ⟨toolCall, createErrorToolResult ("Tool " ++ toolCall.name ++ " not found"), true⟩)
  | some tool =>
    tryCatch (do
      let args ← config.fallible (config.prepareArguments tool toolCall)
      match config.beforeToolCall with
      | none => pure (.prepared ⟨toolCall, tool, args⟩)
      | some beforeToolCall => do
        let r ← get
        match ← config.raceWithAbort (beforeToolCall assistantMessage toolCall args r.context) with
        | some ⟨true, reason⟩ =>
          let text := (reason.filter (· ≠ "")).getD "Tool execution was blocked"
          pure (.immediate ⟨toolCall, createErrorToolResult text, true⟩)
        | _ => pure (.prepared ⟨toolCall, tool, args⟩))
      fun e => pure (.immediate ⟨toolCall, createErrorToolResult e.text, true⟩)

def emitToolExecutionEnd (finalized : FinalizedToolCallOutcome) : Loop σ Unit :=
  config.emit (.toolExecutionEnd finalized.toolCall.id finalized.toolCall.name finalized.result finalized.isError)

/-- How far the execution of a prepared call is. `failed` is what an update has thrown. -/
inductive Task where
  | executing (call : PreparedToolCall) (updates : List AgentToolResult) (outcome : Outcome AgentToolResult)
    (failed : Option AgentError)
  | flushing (call : PreparedToolCall) (result : AgentToolResult) (failed : Option AgentError)
  | failing (call : PreparedToolCall) (error : AgentError)
  | finalizing (call : PreparedToolCall) (result : AgentToolResult) (isError : Bool)
  | ending (finalized : FinalizedToolCallOutcome)
  | done (finalized : FinalizedToolCallOutcome)

def emitUpdate (call : PreparedToolCall) (partialResult : AgentToolResult) : Loop σ (Option AgentError) := do
  if ← config.signalAborted then pure none
  else
    tryCatch (do
      config.emit (.toolExecutionUpdate call.toolCall.id call.toolCall.name call.toolCall.arguments partialResult)
      pure none) fun e => pure (some e)

def emitUpdates (call : PreparedToolCall) : List AgentToolResult → Loop σ (Option AgentError)
  | [] => pure none
  | update :: rest => do
    let failed ← config.emitUpdate call update
    let later ← emitUpdates call rest
    pure (failed.or later)

/-- What a call does before it waits for the first time. -/
def startTask (call : PreparedToolCall) : Loop σ Task := do
  if ← config.signalAborted then pure (.failing call createAbortError)
  else do
    let execution ← config.hook (config.execute call.tool call.toolCall call.args)
    let failed ← config.emitUpdates call execution.syncUpdates
    match execution.outcome with
    | .thrown e => pure (.failing call e)
    | outcome => do
      if ← config.signalAborted then pure (.failing call createAbortError)
      else pure (.executing call execution.updates outcome failed)

def finalizeExecutedToolCall (assistantMessage : AssistantMessage) (call : PreparedToolCall) (result : AgentToolResult)
    (isError : Bool) : Loop σ FinalizedToolCallOutcome := do
  match config.afterToolCall with
  | none => pure ⟨call.toolCall, result, isError⟩
  | some afterToolCall =>
    tryCatch (do
      let r ← get
      match ← config.raceWithAbort
          (afterToolCall assistantMessage call.toolCall call.args result isError r.context) with
      | none => pure ⟨call.toolCall, result, isError⟩
      | some after =>
        pure ⟨call.toolCall, ⟨after.content.getD result.content, after.details.getD result.details,
          after.terminate.or result.terminate⟩, after.isError.getD isError⟩)
      fun e => pure ⟨call.toolCall, createErrorToolResult e.text, true⟩

def stepTask (assistantMessage : AssistantMessage) : Task → Loop σ Task
  | .executing call updates outcome failed => do
    if ← config.abortWins then pure (.failing call createAbortError)
    else
      match updates, outcome with
      | update :: rest, _ => do
        let failed' ← config.emitUpdate call update
        pure (.executing call rest outcome (failed.or failed'))
      | [], .resolved result => pure (.flushing call result failed)
      | [], .rejected e | [], .thrown e => pure (.failing call e)
  | .flushing call result failed => do
    if ← config.signalAborted then pure (.finalizing call result false)
    else if ← config.abortWins then pure (.finalizing call result false)
    else
      match failed with
      | none => pure (.finalizing call result false)
      | some e => do
        if (← config.signalAborted) && e.isAbortError then pure (.finalizing call result false)
        else pure (.failing call e)
  | .failing call e => do
    let _ ← config.abortWins
    let text := if ← config.signalAborted then "Tool execution aborted" else e.text
    pure (.finalizing call (createErrorToolResult text) true)
  | .finalizing call result isError => do
    let finalized ← config.finalizeExecutedToolCall assistantMessage call result isError
    pure (.ending finalized)
  | .ending finalized => do
    config.emitToolExecutionEnd finalized
    pure (.done finalized)
  | .done finalized => pure (.done finalized)

def Task.finalized? : Task → Option FinalizedToolCallOutcome
  | .done finalized => some finalized
  | _ => none

/-- One call to its end. -/
def finishTask (assistantMessage : AssistantMessage) : Nat → Task → Loop σ FinalizedToolCallOutcome
  | 0, _ => throw .outOfFuel
  | fuel + 1, task => do
    match task.finalized? with
    | some finalized => pure finalized
    | none => do
      let task ← config.stepTask assistantMessage task
      finishTask assistantMessage fuel task

def stepAt (assistantMessage : AssistantMessage) : List Task → Nat → Loop σ (List Task)
  | [], _ => pure []
  | task :: tasks, 0 => do
    let task ← config.stepTask assistantMessage task
    pure (task :: tasks)
  | task :: tasks, i + 1 => do
    let tasks ← stepAt assistantMessage tasks i
    pure (task :: tasks)

/-- All calls to their ends, in any order. -/
def settleAll (assistantMessage : AssistantMessage) : Nat → List Task → Loop σ (List FinalizedToolCallOutcome)
  | 0, _ => throw .outOfFuel
  | fuel + 1, tasks => do
    match tasks.mapM Task.finalized? with
    | some finalized => pure finalized
    | none => do
      let i ← config.hook config.schedule
      let tasks ← config.stepAt assistantMessage tasks i
      settleAll assistantMessage fuel tasks

def createToolResultMessage (finalized : FinalizedToolCallOutcome) (timestamp : Nat) : ToolResultMessage where
  toolCallId := finalized.toolCall.id
  toolName := finalized.toolCall.name
  content := finalized.result.content
  details := finalized.result.details
  isError := finalized.isError
  timestamp := timestamp

def emitToolResultMessage (finalized : FinalizedToolCallOutcome) : Loop σ ToolResultMessage := do
  let timestamp ← config.hook config.now
  let message := createToolResultMessage finalized timestamp
  config.emit (.messageStart (.toolResult message))
  config.emit (.messageEnd (.toolResult message))
  pure message

def beginToolCall (assistantMessage : AssistantMessage) (toolCall : AgentToolCall) : Loop σ Preparation := do
  config.emit (.toolExecutionStart toolCall.id toolCall.name toolCall.arguments)
  config.prepareToolCall assistantMessage toolCall

structure ExecutedToolCallBatch where
  messages : List ToolResultMessage
  terminate : Bool

def shouldTerminateToolBatch (finalizedCalls : List FinalizedToolCallOutcome) : Bool :=
  !finalizedCalls.isEmpty && finalizedCalls.all fun finalized => finalized.result.terminate == some true

def executeToolCall (fuel : Nat) (assistantMessage : AssistantMessage) :
    Preparation → Loop σ FinalizedToolCallOutcome
  | .immediate finalized => do
    config.emitToolExecutionEnd finalized
    pure finalized
  | .prepared call => do
    let task ← config.startTask call
    config.finishTask assistantMessage fuel task

def executeSequentially (fuel : Nat) (assistantMessage : AssistantMessage) :
    List AgentToolCall → Loop σ (List (FinalizedToolCallOutcome × ToolResultMessage))
  | [] => pure []
  | toolCall :: rest => do
    if ← config.signalAborted then pure []
    else do
      let preparation ← config.beginToolCall assistantMessage toolCall
      let finalized ← config.executeToolCall fuel assistantMessage preparation
      let message ← config.emitToolResultMessage finalized
      if ← config.signalAborted then pure [(finalized, message)]
      else do
        let others ← executeSequentially fuel assistantMessage rest
        pure ((finalized, message) :: others)

def executeToolCallsSequential (fuel : Nat) (assistantMessage : AssistantMessage) (toolCalls : List AgentToolCall) :
    Loop σ ExecutedToolCallBatch := do
  let executed ← config.executeSequentially fuel assistantMessage toolCalls
  pure ⟨executed.map Prod.snd, shouldTerminateToolBatch (executed.map Prod.fst)⟩

/-- A call that is decided ends at once, the others are kept. -/
def prepareParallel (assistantMessage : AssistantMessage) (toolCall : AgentToolCall) : Loop σ Preparation := do
  match ← config.beginToolCall assistantMessage toolCall with
  | .immediate finalized => do
    config.emitToolExecutionEnd finalized
    pure (.immediate finalized)
  | .prepared call => pure (.prepared call)

def startEntry : Preparation → Loop σ Task
  | .immediate finalized => pure (.done finalized)
  | .prepared call => config.startTask call

def executeToolCallsParallel (fuel : Nat) (assistantMessage : AssistantMessage) (toolCalls : List AgentToolCall) :
    Loop σ ExecutedToolCallBatch := do
  let finalizedCalls ← Effect.collect (config.prepareParallel assistantMessage) toolCalls
  let tasks ← Effect.collect config.startEntry finalizedCalls
  let orderedFinalizedCalls ← config.settleAll assistantMessage fuel tasks
  let messages ← Effect.collect config.emitToolResultMessage orderedFinalizedCalls
  pure ⟨messages, shouldTerminateToolBatch orderedFinalizedCalls⟩

/-- The calls are executed one after the other if the host or one of the tools wants that. -/
def isSequential (toolCalls : List AgentToolCall) : Bool :=
  config.toolExecution == some .sequential || toolCalls.any fun toolCall =>
    (config.tools.find? fun tool => tool.name == toolCall.name).bind AgentTool.executionMode == some .sequential

def executeToolCalls (fuel : Nat) (assistantMessage : AssistantMessage) : Loop σ ExecutedToolCallBatch :=
  let toolCalls := assistantMessage.toolCalls
  if config.isSequential toolCalls then config.executeToolCallsSequential fuel assistantMessage toolCalls
  else config.executeToolCallsParallel fuel assistantMessage toolCalls

/-! ## Turns -/

/-- The variables of the loop, and the messages of the run so far. -/
structure LoopState where
  newMessages : List AgentMessage
  firstTurn : Bool
  lastTurn : Option (AssistantMessage × List ToolResultMessage)
  turnIndex : Nat
  consecutiveReflexes : Nat
  pendingMessages : List AgentMessage
  hasMoreToolCalls : Bool

/-- What a part of the loop leads to. -/
inductive Progress where
  | ended (newMessages : List AgentMessage)
  | next (st : LoopState)

def DEFAULT_MAX_CONSECUTIVE_REFLEXES : Nat := 3

def createReflexAssistantMessage (reflex : PreTurnReflex) (uuid : String) (timestamp : Nat) : AssistantMessage where
  content := [.toolCall ⟨"reflex-" ++ uuid, reflex.toolName, reflex.arguments.getD "\x7b\x7d"⟩]
  api := config.model.api
  provider := config.model.provider
  model := config.model.id
  usage := EMPTY_USAGE
  stopReason := .toolUse
  errorMessage := none
  timestamp := timestamp

def resolvePreTurnReflex (turnIndex consecutiveReflexes : Nat) : Loop σ (Option PreTurnReflex) := do
  match config.preTurnRouter with
  | none => pure none
  | some preTurnRouter =>
    tryCatch (do
      let r ← get
      config.raceWithAbort (preTurnRouter turnIndex consecutiveReflexes r.context)) fun _ => pure none

def shouldStopBefore (st : LoopState) : Loop σ Bool := do
  if st.firstTurn then pure false
  else
    match config.shouldStopBeforeTurn with
    | none => pure false
    | some shouldStopBeforeTurn => config.fallible shouldStopBeforeTurn

/-- The end of the run. -/
def endRun (newMessages : List AgentMessage) : Loop σ Progress := do
  config.emit (.agentEnd newMessages)
  pure (.ended newMessages)

def openTurn (st : LoopState) : Loop σ Unit := if st.firstTurn then pure () else config.emit .turnStart

def announce (m : AgentMessage) : Loop σ Unit := do
  config.emit (.messageStart m)
  config.emit (.messageEnd m)

/-- A message of the queue comes into the context after it is announced. -/
def deliver (m : AgentMessage) : Loop σ Unit := do
  config.announce m
  pushContext m

def pushResults (results : List ToolResultMessage) : Loop σ Unit :=
  Effect.forEach (fun result => pushContext (.toolResult result)) results

def reflexTurn (fuel : Nat) (st : LoopState) (reflex : PreTurnReflex) : Loop σ Progress := do
  mark .reflex
  config.emit (.reflex reflex.toolName st.turnIndex (st.consecutiveReflexes + 1))
  config.openTurn st
  let uuid ← config.hook config.randomUUID
  let timestamp ← config.hook config.now
  let reflexMessage := config.createReflexAssistantMessage reflex uuid timestamp
  config.deliver (.assistant reflexMessage)
  let batch ← config.executeToolCalls fuel reflexMessage
  pushResults batch.messages
  let newMessages := st.newMessages ++ AgentMessage.assistant reflexMessage :: batch.messages.map .toolResult
  config.emit (.turnEnd (.assistant reflexMessage) batch.messages)
  if ← config.signalAborted then config.endRun newMessages
  else
    pure (.next { st with
      newMessages
      firstTurn := false
      turnIndex := st.turnIndex + 1
      consecutiveReflexes := st.consecutiveReflexes + 1
      hasMoreToolCalls := !batch.terminate })

/-- What comes after a turn: the run ends, or the steering messages are taken. -/
def afterTurn (st : LoopState) (message : AssistantMessage) (toolResults : List ToolResultMessage) :
    Loop σ Progress := do
  let r ← get
  let lastTurn := ⟨message, toolResults, r.context, st.newMessages⟩
  match ← config.settleHook (config.shouldStopAfterTurn.map fun hook => hook lastTurn) false with
  | none => config.endRun st.newMessages
  | some true => config.endRun st.newMessages
  | some false => do
    if ← config.shouldStopBefore st then config.endRun st.newMessages
    else do
      match ← config.settlePostTurn config.pollSteering with
      | none => config.endRun st.newMessages
      | some [] => do
        if ← config.shouldStopBefore st then config.endRun st.newMessages
        else pure (.next { st with pendingMessages := [] })
      | some pendingMessages => pure (.next { st with pendingMessages })

/-- The calls of a response that has some, and whether there is to be another turn. -/
def toolTurn (fuel : Nat) (message : AssistantMessage) : Loop σ (List ToolResultMessage × Bool) := do
  match message.toolCalls with
  | [] => pure ([], false)
  | _ => do
    let batch ← config.executeToolCalls fuel message
    pushResults batch.messages
    pure (batch.messages, !batch.terminate)

def providerTurn (fuel : Nat) (st : LoopState) : Loop σ Progress := do
  mark .provider
  config.openTurn st
  Effect.forEach config.deliver st.pendingMessages
  let message ← config.streamAssistantResponse
  let newMessages := st.newMessages ++ st.pendingMessages ++ [AgentMessage.assistant message]
  if message.stopReason = .error ∨ message.stopReason = .aborted then do
    config.emit (.turnEnd (.assistant message) [])
    config.endRun newMessages
  else do
    let (toolResults, hasMoreToolCalls) ← config.toolTurn fuel message
    let newMessages := newMessages ++ toolResults.map .toolResult
    config.emit (.turnEnd (.assistant message) toolResults)
    if ← config.signalAborted then config.endRun newMessages
    else
      config.afterTurn { st with
        newMessages
        firstTurn := false
        lastTurn := some (message, toolResults)
        turnIndex := st.turnIndex + 1
        consecutiveReflexes := 0
        pendingMessages := []
        hasMoreToolCalls } message toolResults

def turn (fuel : Nat) (st : LoopState) : Loop σ Progress := do
  config.throwIfAborted
  let reflex ←
    (if st.pendingMessages = [] ∧
        st.consecutiveReflexes < config.maxConsecutiveReflexes.getD DEFAULT_MAX_CONSECUTIVE_REFLEXES then
      config.resolvePreTurnReflex st.turnIndex st.consecutiveReflexes
    else pure none)
  match reflex with
  | some reflex => config.reflexTurn fuel st reflex
  | none => config.providerTurn fuel st

/-- Turns as long as there are tool calls or messages. -/
def turns (fuel : Nat) : Nat → LoopState → Loop σ Progress
  | 0, _ => throw .outOfFuel
  | n + 1, st => do
    if st.hasMoreToolCalls || !st.pendingMessages.isEmpty then
      match ← config.turn fuel st with
      | .ended newMessages => pure (.ended newMessages)
      | .next st => turns fuel n st
    else pure (.next st)

def continuation (st : LoopState) : Loop σ (Option (List AgentMessage)) := do
  let r ← get
  match st.lastTurn with
  | none => pure (some [])
  | some (message, toolResults) =>
    let lastTurn := ⟨message, toolResults, r.context, st.newMessages⟩
    config.settleHook (config.getContinuationMessages.map fun hook => hook lastTurn) []

/-- What comes when there is nothing more to do: the messages that wait for that, or the end of the run. -/
def followUps (st : LoopState) : Loop σ Progress := do
  if ← config.shouldStopBefore st then config.endRun st.newMessages
  else do
    match ← config.settlePostTurn (config.pollMessagesUnlessAborted config.getFollowUpMessages) with
    | none => config.endRun st.newMessages
    | some [] => do
      if ← config.shouldStopBefore st then config.endRun st.newMessages
      else do
        match ← config.continuation st with
        | none => config.endRun st.newMessages
        | some [] => config.endRun st.newMessages
        | some pendingMessages => pure (.next { st with pendingMessages })
    | some pendingMessages => pure (.next { st with pendingMessages })

/-- The rounds of a run: turns, and then the messages that wait for their end. -/
def rounds (fuel : Nat) : Nat → LoopState → Loop σ (List AgentMessage)
  | 0, _ => throw .outOfFuel
  | n + 1, st => do
    config.throwIfAborted
    match ← config.turns fuel fuel { st with hasMoreToolCalls := true } with
    | .ended newMessages => pure newMessages
    | .next st => do
      match ← config.followUps st with
      | .ended newMessages => pure newMessages
      | .next st => rounds fuel n st

def runLoop (fuel : Nat) (newMessages : List AgentMessage) : Loop σ (List AgentMessage) := do
  let pendingMessages ← config.pollSteering
  config.rounds fuel fuel ⟨newMessages, true, none, 0, 0, pendingMessages, true⟩

def runAgentLoop (fuel : Nat) (prompts : List AgentMessage) : Loop σ (List AgentMessage) := do
  modify fun r => { r with context := r.context ++ prompts }
  config.emit .agentStart
  config.emit .turnStart
  Effect.forEach config.announce prompts
  config.runLoop fuel prompts

def runAgentLoopContinue (fuel : Nat) : Loop σ (List AgentMessage) := do
  let r ← get
  match r.context.getLast? with
  | none => throw (.error "Error" "Cannot continue: no messages in context")
  | some (.assistant _) => throw (.error "Error" "Cannot continue from message role: assistant")
  | some _ => do
    config.emit .agentStart
    config.emit .turnStart
    config.runLoop fuel []

inductive Start where
  | prompts (messages : List AgentMessage)
  | continuation

def startRun (fuel : Nat) : Start → Loop σ (List AgentMessage)
  | .prompts messages => config.runAgentLoop fuel messages
  | .continuation => config.runAgentLoopContinue fuel

/-- Before a run. -/
def initial (host : σ) (context : List AgentMessage) : Run σ := ⟨host, [], context, none, []⟩

/-! ## Rules -/

/-- What holds stays when time passes: only the host changes, and an abort is not undone. -/
def Stable (P : Run σ → Prop) : Prop :=
  ∀ r host, (config.aborted r.host = true → config.aborted host = true) → P r → P { r with host }

section Rules

open Effect

variable {config} {α : Type} {P : Run σ → Prop} {E : AgentError → Run σ → Prop}

theorem hook_spec (hP : config.Stable P) (h : Hook config.aborted α) :
    Triple P (config.hook h) (fun _ => P) E := fun r hr => hP r _ (h.keeps r.host) hr

theorem hook_answer (hP : config.Stable P) (h : Hook config.aborted α) :
    Triple P (config.hook h) (fun a r => P r ∧ ∃ s, h.ask s = (a, r.host)) E :=
  fun r hr => ⟨hP r _ (h.keeps r.host) hr, r.host, rfl⟩

theorem fallible_throws (hP : config.Stable P) (h : Hook config.aborted (Except AgentError α))
    (hE : ∀ e r s, P r → h.ask s = (.error e, r.host) → E e r) : Triple P (config.fallible h) (fun _ => P) E := by
  refine Triple.bind (hook_answer hP h) fun answer => ?_
  cases answer with
  | ok a => exact Triple.pure fun _ hr => hr.1
  | error e =>
    refine Triple.throw ?_
    rintro r ⟨hr, s, hs⟩
    exact hE e r s hr hs

theorem fallible_spec (hP : config.Stable P) (hE : ∀ e r, P r → E e r)
    (h : Hook config.aborted (Except AgentError α)) : Triple P (config.fallible h) (fun _ => P) E :=
  fallible_throws hP h fun e r _ hr _ => hE e r hr

theorem signalAborted_spec : Triple P config.signalAborted (fun b r => P r ∧ b = config.aborted r.host) E :=
  fun _ hr => ⟨hr, rfl⟩

theorem throwIfAborted_spec (hE : ∀ e r, P r → E e r) : Triple P config.throwIfAborted (fun _ => P) E := by
  refine Triple.bind signalAborted_spec fun aborted => ?_
  cases aborted with
  | true => exact Triple.throw fun r hr => hE _ r hr.1
  | false => exact Triple.pure fun r hr => hr.1

theorem abortWins_spec (hP : config.Stable P) :
    Triple P config.abortWins (fun b r => P r ∧ (b = true → config.aborted r.host = true)) E := by
  refine Triple.bind (hook_spec hP config.raced) fun first => ?_
  refine Triple.bind signalAborted_spec fun aborted => ?_
  refine Triple.pure fun r hr => ⟨hr.1, ?_⟩
  intro h
  rw [Bool.and_eq_true] at h
  rw [← hr.2]
  exact h.2

theorem raceWithAbort_resolved (hP : config.Stable P) (hE : ∀ e r, P r → E e r)
    (operation : Hook config.aborted (Outcome α)) :
    Triple P (config.raceWithAbort operation) (fun a r => P r ∧ ∃ s s', operation.ask s = (.resolved a, s')) E := by
  refine Triple.bind (R := fun outcome r => P r ∧ ∃ s s', operation.ask s = (outcome, s')) ?_ fun outcome => ?_
  · refine (hook_answer hP operation).conseq (fun r hr => hr) ?_ fun e r he => he
    rintro outcome r ⟨hr, s, hs⟩
    exact ⟨hr, s, r.host, hs⟩
  cases outcome with
  | thrown e => exact Triple.throw fun r hr => hE e r hr.1
  | resolved a =>
    refine Triple.bind (R := fun _ r => P r ∧ ∃ s s', operation.ask s = (.resolved a, s')) ?_ fun _ => ?_
    · exact Triple.keep fun _ => throwIfAborted_spec hE
    · refine Triple.bind (Triple.keep fun _ => abortWins_spec hP) fun won => ?_
      cases won with
      | true => exact Triple.throw fun r hr => hE _ r hr.1.1
      | false => exact Triple.pure fun r hr => ⟨hr.1.1, hr.2⟩
  | rejected e =>
    refine Triple.bind ((throwIfAborted_spec hE).strengthen fun r hr => hr.1) fun _ => ?_
    refine Triple.bind (abortWins_spec hP) fun won => ?_
    split
    · exact Triple.throw fun r hr => hE _ r hr.1
    · exact Triple.throw fun r hr => hE _ r hr.1

theorem raceWithAbort_spec (hP : config.Stable P) (hE : ∀ e r, P r → E e r)
    (operation : Hook config.aborted (Outcome α)) : Triple P (config.raceWithAbort operation) (fun _ => P) E :=
  (raceWithAbort_resolved hP hE operation).conseq (fun _ hr => hr) (fun _ _ hr => hr.1) fun _ _ he => he

theorem waitWithAbort_spec (hP : config.Stable P) (hE : ∀ e r, P r → E e r) (outcome : Outcome α) :
    Triple P (config.waitWithAbort outcome) (fun _ => P) E := raceWithAbort_spec hP hE _

theorem emit_spec {Q : Run σ → Prop} {event : AgentEvent} (hQ : config.Stable Q)
    (hemit : ∀ r, P r → Q { r with events := r.events ++ [event] })
    (hE : ∀ e r s, Q r → (config.sink event).ask s = (.error e, r.host) → E e r) :
    Triple P (config.emit event) (fun _ => Q) E := by
  exact Triple.bind (R := fun _ => Q) (Triple.modify hemit) fun _ => fallible_throws hQ _ hE

theorem settlePostTurn_value {operation : Loop σ α} {p : α → Prop}
    (h : Triple P operation (fun a r => P r ∧ p a) fun _ => P) (hE : ∀ e r, P r → E e r) :
    Triple P (config.settlePostTurn operation) (fun answer r => P r ∧ ∀ a, answer = some a → p a) E := by
  refine Triple.tryCatch (Triple.bind h fun a => Triple.pure ?_) fun e => ?_
  · rintro r ⟨hr, ha⟩
    refine ⟨hr, ?_⟩
    rintro b ⟨⟩
    exact ha
  · refine Triple.bind signalAborted_spec fun aborted => ?_
    split
    · refine Triple.pure fun r hr => ⟨hr.1, ?_⟩
      rintro a ⟨⟩
    · exact Triple.throw fun r hr => hE e r hr.1

theorem settlePostTurn_spec {operation : Loop σ α} (h : Triple P operation (fun _ => P) fun _ => P)
    (hE : ∀ e r, P r → E e r) : Triple P (config.settlePostTurn operation) (fun _ => P) E := by
  have hvalue : Triple P operation (fun _ r => P r ∧ True) fun _ => P :=
    h.conseq (fun _ hr => hr) (fun _ _ hr => ⟨hr, trivial⟩) fun _ _ he => he
  exact (settlePostTurn_value hvalue hE).conseq (fun _ hr => hr) (fun _ _ hr => hr.1) fun _ _ he => he

/-- What a hook can give. -/
def Gives (hook : Option (Hook config.aborted (Outcome α))) (default a : α) : Prop :=
  a = default ∨ ∃ operation s s', hook = some operation ∧ operation.ask s = (.resolved a, s')

variable (hP : config.Stable P)

include hP

theorem settleHook_value (hE : ∀ e r, P r → E e r) (hook : Option (Hook config.aborted (Outcome α))) (default : α) :
    Triple P (config.settleHook hook default) (fun answer r =>
      P r ∧ ∀ a, answer = some a → Gives hook default a) E := by
  refine Triple.bind (R := fun outcome r => P r ∧ ∀ a, outcome = .resolved a → Gives hook default a) ?_
    fun outcome => ?_
  · cases hook with
    | none =>
      refine Triple.pure fun r hr => ⟨hr, ?_⟩
      rintro a ⟨⟩
      exact .inl rfl
    | some operation =>
      refine (hook_answer hP operation).conseq (fun r hr => hr) ?_ fun e r he => he
      rintro outcome r ⟨hr, s, hs⟩
      refine ⟨hr, ?_⟩
      rintro a rfl
      exact .inr ⟨operation, s, r.host, rfl, hs⟩
  have hwait : (∀ a, outcome = .resolved a → Gives hook default a) →
      Triple P (config.settlePostTurn (config.waitWithAbort outcome)) (fun answer r =>
        P r ∧ ∀ a, answer = some a → Gives hook default a) E := by
    intro houtcome
    refine settlePostTurn_value ((raceWithAbort_resolved hP (fun _ _ h => h) _).conseq (fun _ hr => hr) ?_
      fun _ _ he => he) hE
    rintro a r ⟨hr, s, s', hs⟩
    exact ⟨hr, houtcome a (congrArg Prod.fst hs)⟩
  split
  · exact Triple.throw fun r hr => hE _ r hr.1
  · exact fun r hr => hwait hr.2 r hr.1

theorem settleHook_spec (hE : ∀ e r, P r → E e r) (hook : Option (Hook config.aborted (Outcome α))) (default : α) :
    Triple P (config.settleHook hook default) (fun _ => P) E :=
  (settleHook_value hP hE hook default).conseq (fun _ hr => hr) (fun _ _ hr => hr.1) fun _ _ he => he

theorem pollMessages_value (hE : ∀ e r, P r → E e r)
    (poll : Option (Hook config.aborted (Outcome (List AgentMessage)))) :
    Triple P (config.pollMessagesUnlessAborted poll) (fun messages r => P r ∧ Gives poll [] messages) E := by
  cases poll with
  | none => exact Triple.pure fun _ hr => ⟨hr, .inl rfl⟩
  | some poll =>
    refine Triple.bind signalAborted_spec fun aborted => ?_
    cases aborted with
    | true => exact Triple.pure fun r hr => ⟨hr.1, .inl rfl⟩
    | false =>
      refine (raceWithAbort_resolved hP hE poll).conseq (fun r hr => hr.1) ?_ fun _ _ he => he
      rintro messages r ⟨hr, s, s', hs⟩
      exact ⟨hr, .inr ⟨poll, s, s', rfl, hs⟩⟩

theorem pollMessagesUnlessAborted_spec (hE : ∀ e r, P r → E e r)
    (poll : Option (Hook config.aborted (Outcome (List AgentMessage)))) :
    Triple P (config.pollMessagesUnlessAborted poll) (fun _ => P) E :=
  (pollMessages_value hP hE poll).conseq (fun _ hr => hr) (fun _ _ hr => hr.1) fun _ _ he => he

/-- A mark changes nothing else. -/
theorem pollSteering_value (hE : ∀ e r, P r → E e r) (hmark : ∀ r messages, P r →
    P { r with trail := r.trail ++ [(.polled messages, r.host)] }) : Triple P config.pollSteering (fun messages r =>
      P r ∧ Gives config.getSteeringMessages [] messages) E := by
  refine Triple.bind (pollMessages_value hP hE config.getSteeringMessages) fun messages => ?_
  refine Triple.bind signalAborted_spec fun aborted => ?_
  split
  · exact Triple.pure fun r hr => hr.1
  · refine Triple.bind (R := fun _ r => P r ∧ Gives config.getSteeringMessages [] messages) ?_ fun _ =>
      Triple.pure fun r hr => hr
    exact Triple.modify fun r hr => ⟨hmark r messages hr.1.1, hr.1.2⟩

theorem pollSteering_spec (hE : ∀ e r, P r → E e r) (hmark : ∀ r messages, P r →
    P { r with trail := r.trail ++ [(.polled messages, r.host)] }) : Triple P config.pollSteering (fun _ => P) E :=
  (pollSteering_value hP hE hmark).conseq (fun _ hr => hr) (fun _ _ hr => hr.1) fun _ _ he => he

theorem shouldStopBefore_spec (hE : ∀ e r, P r → E e r) (st : LoopState) :
    Triple P (config.shouldStopBefore st) (fun _ => P) E := by
  rw [shouldStopBefore]
  split
  · exact Triple.pure fun _ hr => hr
  · split
    · exact Triple.pure fun _ hr => hr
    · exact fallible_spec hP hE _

theorem resolvePreTurnReflex_spec (turnIndex consecutiveReflexes : Nat) :
    Triple P (config.resolvePreTurnReflex turnIndex consecutiveReflexes) (fun _ => P) E := by
  rw [resolvePreTurnReflex]
  split
  · exact Triple.pure fun _ hr => hr
  · refine @Triple.tryCatch _ _ _ P _ E (fun _ => P) _ _ ?_ fun e => Triple.pure fun _ hr => hr
    refine Triple.bind (Triple.get fun r hr => hr) fun r => ?_
    exact raceWithAbort_spec hP (fun _ _ h => h) _

theorem request_spec (hE : ∀ e r, P r → E e r) :
    Triple P config.request (fun response r => P r ∧ ∃ systemPrompt messages apiKey s s',
      (config.streamFn systemPrompt messages apiKey).ask s = (.resolved response, s')) E := by
  refine Triple.bind (throwIfAborted_spec hE) fun _ => ?_
  refine Triple.bind (R := fun _ => P) (Triple.get fun r hr => hr) fun r => ?_
  refine Triple.bind (R := fun _ => P) ?_ fun messages => ?_
  · split
    · exact Triple.pure fun _ hr => hr
    · exact raceWithAbort_spec hP hE _
  refine Triple.bind (raceWithAbort_spec hP hE _) fun llmMessages => ?_
  refine Triple.bind (R := fun _ => P) ?_ fun resolvedApiKey => ?_
  · split
    · exact Triple.pure fun _ hr => hr
    · exact raceWithAbort_spec hP hE _
  refine Triple.bind (R := fun _ => P) ?_ fun systemPrompt => ?_
  · split
    · exact Triple.pure fun _ hr => hr
    · exact fallible_spec hP hE _
  refine (raceWithAbort_resolved hP hE _).conseq (fun _ hr => hr) ?_ fun _ _ he => he
  rintro response r ⟨hr, s, s', hresponse⟩
  exact ⟨hr, systemPrompt, llmMessages, _, s, s', hresponse⟩

end Rules

/-! ## A host for examples -/

/-- The host answers, and nothing else happens. -/
def still {aborted : σ → Bool} {α : Type} (a : α) : Hook aborted α := ⟨fun s => (a, s), fun _ h => h⟩

/-- A host without tools and hooks, and a provider that always sends the same. -/
def plain (aborted : σ → Bool) (events : List AssistantMessageEvent) (message : AssistantMessage) :
    AgentLoopConfig σ where
  model := ⟨"m", "a", "p"⟩
  tools := []
  systemPrompt := ""
  apiKey := none
  toolExecution := none
  maxConsecutiveReflexes := none
  aborted := aborted
  raced := still false
  schedule := still 0
  sink := fun _ => still (.ok ())
  now := still 0
  randomUUID := still ""
  getSteeringMessages := none
  getFollowUpMessages := none
  getContinuationMessages := none
  shouldStopAfterTurn := none
  shouldStopBeforeTurn := none
  preTurnRouter := none
  transformContext := none
  convertToLlm := fun messages => still (.resolved messages)
  getApiKey := none
  getSystemPrompt := none
  streamFn := fun _ _ _ => still (.resolved ⟨events, none, .resolved message⟩)
  prepareArguments := fun _ call => still (.ok call.arguments)
  execute := fun _ _ _ => still ⟨[], [], .resolved ⟨[], "", none⟩⟩
  beforeToolCall := none
  afterToolCall := none

def reply : AssistantMessage := ⟨[.text "hello"], "a", "p", "m", EMPTY_USAGE, .stop, none, 0⟩

end AgentLoopConfig

end Agent
end RePrime
