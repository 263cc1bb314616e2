import Mathlib.Data.Rat.Floor
import RePrime.Lib.OrderedMap
import RePrime.Lib.Text

/-!
# RePrime.Core.Autonomous

Autonomous mode: after each answer the quality gates run, and a continuation is returned or not.

A call of `nextAutonomousContinuation` waits for git, for the gate commands and for promises, and other
code runs meanwhile. `State.step` is what happens between two such points, or a setter.
-/

namespace RePrime
namespace Core
namespace Autonomous

/-! ## Settings and runtime state -/

structure AutonomousLimits where
  maxContinuations : Nat
  maxTurns : Nat
  maxTokens : Nat
  timeoutMs : Nat
  deriving DecidableEq

structure AutonomousGates where
  commands : List String
  maxRetries : Nat
  timeoutMs : Nat
  deriving DecidableEq

/-- A number that is not finite stands for `none`. -/
structure AgentAutonomousGateConfig where
  commands : Option (List String)
  maxRetries : Option ℚ
  timeoutMs : Option ℚ
  deriving DecidableEq

structure AgentAutonomousConfig where
  enabled : Bool
  maxContinuations : Option ℚ
  maxTurns : Option ℚ
  maxTokens : Option ℚ
  timeoutMs : Option ℚ
  continuationPrompt : Option String
  gates : Option AgentAutonomousGateConfig
  deriving DecidableEq

def DEFAULT_AUTONOMOUS_CONTINUATION_PROMPT : String :=
  "No human input is available in autonomous mode. Continue working until the host evaluator, verifier, or configured autonomous limits stop the run. If you were asking the user a question, make a reasonable assumption and verify it. If you believe you are blocked, prove it with host-observable evidence, preserve that evidence, and keep looking for safe progress while budget remains. Do not end the session yourself; the verifier/evaluator decides completion when configured gates pass."

def DEFAULT_AUTONOMOUS_LIMITS : AutonomousLimits :=
  { maxContinuations := 3, maxTurns := 12, maxTokens := 80000, timeoutMs := 30 * 60 * 1000 }

def DEFAULT_AUTONOMOUS_GATES : AutonomousGates :=
  { commands := [], maxRetries := 3, timeoutMs := 5 * 60 * 1000 }

def MAX_GATE_OUTPUT_CHARS : Nat := 6000

structure GitWorktreeSnapshot where
  status : String
  diff : String
  untrackedHash : String
  deriving DecidableEq

/-- What `gateAttempts[command]` may be: a count, or what `+ 1` has made of an inherited member. -/
inductive Attempt where
  | number (n : Nat)
  | text (value : String)
  deriving DecidableEq

namespace Attempt

/-- `attempt + 1` -/
def next : Attempt → Attempt
  | number n => number (n + 1)
  | text value => text (value ++ "1")

/-- `attempt > maxRetries`; a text that is no number is compared as `NaN`. -/
def exceeds (maxRetries : Nat) : Attempt → Bool
  | number n => decide (maxRetries < n)
  | text _ => false

def toText : Attempt → String
  | number n => toString n
  | text value => value

end Attempt

/-- What a member that every object inherits is as a text. -/
def inheritedText (name : String) : Option String :=
  if name = "__proto__" then some "[object Object]"
  else if name = "constructor" then some "function Object() \x7b [native code] \x7d"
  else if name ∈ ["hasOwnProperty", "isPrototypeOf", "propertyIsEnumerable", "toLocaleString", "toString", "valueOf",
      "__defineGetter__", "__defineSetter__", "__lookupGetter__", "__lookupSetter__"] then
    some s!"function {name}() \x7b [native code] \x7d"
  else none

structure AgentAutonomousGateFailure where
  command : String
  attempt : Attempt
  exitText : String
  output : String
  deriving DecidableEq

structure AutonomousRuntimeState where
  enabled : Bool
  continuationsUsed : Nat
  turnsUsed : Nat
  tokensUsed : Nat
  startedAt : Option Int
  limits : AutonomousLimits
  continuationPrompt : String
  gates : AutonomousGates
  gateAttempts : OrderedMap String Attempt
  lastGateFailure : Option AgentAutonomousGateFailure
  lastGateFailureSnapshot : Option GitWorktreeSnapshot

inductive AutonomousLimitReason where
  | maxContinuations
  | maxTurns
  | maxTokens
  | timeoutMs
  deriving DecidableEq

inductive AutonomousGateResult where
  | passed
  | failed
  | retryExhausted
  deriving DecidableEq

inductive AutonomousDecisionReason where
  | missingTerminalEvidence
  | gateFailed
  | notNeeded
  | limitReached
  deriving DecidableEq

structure AutonomousDecision where
  shouldContinue : Bool
  reason : AutonomousDecisionReason
  deriving DecidableEq

/-- What is read of a `ChildProcessResult`. -/
structure ChildProcessResult where
  status : Option Int
  signal : Option String
  stdout : String
  stderr : String
  error : Option String
  timedOut : Bool
  outputTruncated : Bool
  deriving DecidableEq

def normalizeLimit (value : Option ℚ) (fallback : Nat) : Nat :=
  match value with
  | none => fallback
  | some value => if value ≤ 0 then fallback else value.floor.toNat

/-- `text?.trim() || fallback` -/
def trimmedOr (text : Option String) (fallback : String) : String :=
  match text with
  | none => fallback
  | some text => if Text.trim text = "" then fallback else Text.trim text

def createAutonomousRuntimeState (config : AgentAutonomousConfig) (defaults : AutonomousLimits) (clock : Int) :
    AutonomousRuntimeState :=
  { enabled := config.enabled
    continuationsUsed := 0
    turnsUsed := 0
    tokensUsed := 0
    startedAt := if config.enabled then some clock else none
    limits :=
      { maxContinuations := normalizeLimit config.maxContinuations defaults.maxContinuations
        maxTurns := normalizeLimit config.maxTurns defaults.maxTurns
        maxTokens := normalizeLimit config.maxTokens defaults.maxTokens
        timeoutMs := normalizeLimit config.timeoutMs defaults.timeoutMs }
    continuationPrompt := trimmedOr config.continuationPrompt DEFAULT_AUTONOMOUS_CONTINUATION_PROMPT
    gates :=
      { commands := (config.gates.bind (·.commands)).getD DEFAULT_AUTONOMOUS_GATES.commands
        maxRetries := normalizeLimit (config.gates.bind (·.maxRetries)) DEFAULT_AUTONOMOUS_GATES.maxRetries
        timeoutMs := normalizeLimit (config.gates.bind (·.timeoutMs)) DEFAULT_AUTONOMOUS_GATES.timeoutMs }
    gateAttempts := .empty
    lastGateFailure := none
    lastGateFailureSnapshot := none }

namespace AutonomousRuntimeState

def setAutonomousEnabled (state : AutonomousRuntimeState) (enabled : Bool) (clock : Int) : AutonomousRuntimeState :=
  if enabled then
    { state with
      enabled := true
      continuationsUsed := 0
      turnsUsed := 0
      tokensUsed := 0
      startedAt := some clock
      gateAttempts := .empty
      lastGateFailure := none
      lastGateFailureSnapshot := none }
  else
    { state with
      enabled := false
      startedAt := none
      gateAttempts := .empty
      lastGateFailure := none
      lastGateFailureSnapshot := none }

def setAutonomousLimits (state : AutonomousRuntimeState) (config : AgentAutonomousConfig) : AutonomousRuntimeState :=
  { state with
    limits :=
      { maxContinuations := normalizeLimit config.maxContinuations state.limits.maxContinuations
        maxTurns := normalizeLimit config.maxTurns state.limits.maxTurns
        maxTokens := normalizeLimit config.maxTokens state.limits.maxTokens
        timeoutMs := normalizeLimit config.timeoutMs state.limits.timeoutMs }
    continuationPrompt := trimmedOr config.continuationPrompt state.continuationPrompt
    gates :=
      { commands := (config.gates.bind (·.commands)).getD state.gates.commands
        maxRetries := normalizeLimit (config.gates.bind (·.maxRetries)) state.gates.maxRetries
        timeoutMs := normalizeLimit (config.gates.bind (·.timeoutMs)) state.gates.timeoutMs } }

/-- `tokens` is the `autonomousTokenDelta` of the usage. -/
def addAutonomousUsage (state : AutonomousRuntimeState) (tokens : Nat) : AutonomousRuntimeState :=
  if state.enabled then { state with turnsUsed := state.turnsUsed + 1, tokensUsed := state.tokensUsed + tokens }
  else state

def autonomousLimitReason (state : AutonomousRuntimeState) (now : Int) : Option AutonomousLimitReason :=
  if state.limits.maxContinuations ≤ state.continuationsUsed then some .maxContinuations
  else if state.limits.maxTurns ≤ state.turnsUsed then some .maxTurns
  else if state.limits.maxTokens ≤ state.tokensUsed then some .maxTokens
  else if state.startedAt.any fun startedAt => decide ((state.limits.timeoutMs : Int) ≤ now - startedAt) then
    some .timeoutMs
  else none

/-! ## Quality gates -/

/-- `state.gateAttempts[command]` -/
def gateAttempt (state : AutonomousRuntimeState) (command : String) : Option Attempt :=
  (state.gateAttempts.get? command).or ((inheritedText command).map .text)

/-- `state.gateAttempts[command] = attempt`; nothing but an object is assigned to `__proto__`. -/
def setGateAttempt (state : AutonomousRuntimeState) (command : String) (attempt : Attempt) : AutonomousRuntimeState :=
  if command = "__proto__" then state else { state with gateAttempts := state.gateAttempts.set command attempt }

/-- The last failure of this command, if the workspace has not changed since. -/
def unchangedFailure (state : AutonomousRuntimeState) (command : String) (current : Option GitWorktreeSnapshot) :
    Option AgentAutonomousGateFailure :=
  match state.lastGateFailure, state.lastGateFailureSnapshot, current with
  | some failure, some last, some current => if failure.command = command ∧ current = last then some failure else none
  | _, _, _ => none

def skipUnchanged (state : AutonomousRuntimeState) (command : String) (failure : AgentAutonomousGateFailure)
    (attempt : Attempt) : AutonomousRuntimeState :=
  { state.setGateAttempt command attempt with
    lastGateFailure := some { failure with
      attempt
      exitText := "not rerun: workspace unchanged since previous failed gate"
      output := "The autonomous gate was not rerun because the workspace has not changed since this failure. Edit source files, tests, or a blocker artifact before attempting to finish again." } }

def gatePassed (state : AutonomousRuntimeState) (command : String) : AutonomousRuntimeState :=
  let counted := state.setGateAttempt command (.number 0)
  if state.lastGateFailure.any fun failure => failure.command == command then
    { counted with lastGateFailure := none, lastGateFailureSnapshot := none }
  else counted

def allPassed (state : AutonomousRuntimeState) : AutonomousRuntimeState :=
  { state with lastGateFailure := none, lastGateFailureSnapshot := none }

end AutonomousRuntimeState

def formatProcessExit (result : ChildProcessResult) : String :=
  if result.timedOut then "timed out"
  else
    match result.error with
    | some message => message
    | none =>
      match result.signal with
      | some signal => s!"terminated by {signal}"
      | none =>
        match result.status with
        | some status => s!"exited {status}"
        | none => "exited unknown"

/-- `text.slice(0, size)`, of whole characters. -/
def sliceUnits : Nat → List Char → List Char
  | _, [] => []
  | size, c :: text => if Text.units c ≤ size then c :: sliceUnits (size - Text.units c) text else []

def truncateGateOutput (output : String) (outputAlreadyTruncated : Bool) : String :=
  if Text.length output.toList ≤ MAX_GATE_OUTPUT_CHARS ∧ outputAlreadyTruncated = false then output
  else String.ofList (sliceUnits MAX_GATE_OUTPUT_CHARS output.toList) ++ "\n... [truncated]"

def gateOutput (result : ChildProcessResult) : String :=
  truncateGateOutput (Text.trim ("\n".intercalate ([result.stdout, result.stderr].filter (· ≠ ""))))
    result.outputTruncated

def ChildProcessResult.succeeded (result : ChildProcessResult) : Bool :=
  result.status == some 0 && result.error.isNone && !result.timedOut

namespace AutonomousRuntimeState

def gateFailed (state : AutonomousRuntimeState) (command : String) (result : ChildProcessResult)
    (snapshot : Option GitWorktreeSnapshot) (attempt : Attempt) : AutonomousRuntimeState :=
  { state.setGateAttempt command attempt with
    lastGateFailure := some ⟨command, attempt, formatProcessExit result, gateOutput result⟩
    lastGateFailureSnapshot := snapshot }

end AutonomousRuntimeState

def buildAutonomousGateFailureContinuation (failure : AgentAutonomousGateFailure) (maxRetries : Nat)
    (isoTimestamp : String) : String :=
  "[autonomous-continuation: gate-failed]\n\n" ++
    "Autonomous quality gate failed (attempt " ++ failure.attempt.toText ++ "/" ++ toString maxRetries ++ "): \x60" ++
    failure.command ++ "\x60 " ++ failure.exitText ++ ".\n" ++
    (if failure.output = "" then "\n" else "\nOutput:\n" ++ failure.output ++ "\n") ++
    "\nContinue working. Fix the failure, then produce terminal evidence. Timestamp: " ++ isoTimestamp ++ "."

def continuationText (state : AutonomousRuntimeState) (reason : AutonomousDecisionReason) (isoTimestamp : String) :
    String :=
  match reason, state.lastGateFailure with
  | .gateFailed, some failure =>
    buildAutonomousGateFailureContinuation failure state.gates.maxRetries isoTimestamp
  | _, _ => "[autonomous-continuation]\n\n" ++ state.continuationPrompt

/-! ## Calls -/

/-- What a call waits for: git before a gate, the gate, git after it, or a promise. -/
inductive Stage where
  | capturing (command : String) (rest : List String)
  | running (command : String) (rest : List String)
  | recapturing (command : String) (rest : List String) (result : ChildProcessResult)
  | gated (result : Option AutonomousGateResult)
  | decided (decision : AutonomousDecision)
  deriving DecidableEq

/-- A call of `nextAutonomousContinuation`; that the gates have passed is kept until it returns. -/
structure Call where
  now : Int
  isoNow : String
  stage : Stage
  passed : Bool
  deriving DecidableEq

/-- What the bounds are about: the mode is switched, a call begins, a gate is run or not rerun, and a call returns
or is aborted. -/
inductive Happening where
  | switched (enabled : Bool)
  | begun
  | ran (command : String) (result : ChildProcessResult)
  | skipped (command : String)
  | returned (message : Option String)
  | aborted
  deriving DecidableEq

/-- What a call has returned, with the state at that moment and all that has happened. -/
structure Return where
  call : Call
  runtime : AutonomousRuntimeState
  clock : Int
  message : Option String
  history : List Happening

/-- The last two fields are not in the source: what has happened, the latest first, and what calls have returned. -/
structure State where
  runtime : AutonomousRuntimeState
  call : Option Call
  history : List Happening
  returns : List Return

def initial (config : AgentAutonomousConfig) (defaults : AutonomousLimits) (clock : Int) : State :=
  { runtime := createAutonomousRuntimeState config defaults clock
    call := none
    history := []
    returns := [] }

/-- `failedMessage` says that the answer stopped with `error` or `aborted`. -/
inductive Action where
  | setAutonomousEnabled (enabled : Bool) (clock : Int)
  | setAutonomousLimits (config : AgentAutonomousConfig)
  | addAutonomousUsage (tokens : Nat)
  | nextAutonomousContinuation (failedMessage hasCwd : Bool) (now : Int) (isoNow : String)
  | captured (snapshot : Option GitWorktreeSnapshot)
  | ran (result : ChildProcessResult)
  | decide
  | complete (clock : Int)
  | abort
  deriving DecidableEq

namespace State

def note (σ : State) (happening : Happening) : State := { σ with history := happening :: σ.history }

def goto (σ : State) (call : Call) (stage : Stage) : State := { σ with call := some { call with stage } }

/-- The evaluation ends with a failed command. -/
def endFailed (σ : State) (call : Call) (attempt : Attempt) : State :=
  σ.goto call (.gated (some (if attempt.exceeds σ.runtime.gates.maxRetries then .retryExhausted else .failed)))

/-- The loop goes on to the next command, or ends. -/
def endPassed (σ : State) (call : Call) (command : String) (rest : List String) : State :=
  let σ := { σ with runtime := σ.runtime.gatePassed command }
  match rest with
  | next :: rest => σ.goto call (.capturing next rest)
  | [] => { σ with runtime := σ.runtime.allPassed }.goto call (.gated (some .passed))

/-- The first synchronous part of a call. -/
def start (σ : State) (failedMessage hasCwd : Bool) (now : Int) (isoNow : String) : State :=
  let call := ⟨now, isoNow, .gated none, false⟩
  if !σ.runtime.enabled then σ
  else if failedMessage then σ.goto call (.decided ⟨false, .notNeeded⟩)
  else
    match σ.runtime.gates.commands with
    | [] => σ.goto call (.gated none)
    | command :: rest => if hasCwd then σ.goto call (.capturing command rest) else σ.goto call (.gated (some .failed))

/-- What `shouldAutonomouslyContinue` makes of the gates. -/
def decision (σ : State) (now : Int) : Option AutonomousGateResult → AutonomousDecision
  | some .passed => ⟨false, .notNeeded⟩
  | some .retryExhausted => ⟨false, .limitReached⟩
  | some .failed =>
    if (σ.runtime.autonomousLimitReason now).isSome then ⟨false, .limitReached⟩ else ⟨true, .gateFailed⟩
  | none =>
    if (σ.runtime.autonomousLimitReason now).isSome then ⟨false, .limitReached⟩
    else ⟨true, .missingTerminalEvidence⟩

/-- The last part of a call. -/
def complete (σ : State) (call : Call) (decision : AutonomousDecision) (clock : Int) : State :=
  if decision.shouldContinue then
    let counted := { σ.runtime with continuationsUsed := σ.runtime.continuationsUsed + 1 }
    let message := some (continuationText counted decision.reason call.isoNow)
    let history := .returned message :: σ.history
    { runtime := counted, call := none, history, returns := σ.returns ++ [⟨call, σ.runtime, clock, message, history⟩] }
  else
    let history := .returned none :: σ.history
    { σ with call := none, history, returns := σ.returns ++ [⟨call, σ.runtime, clock, none, history⟩] }

def captured (σ : State) (call : Call) (snapshot : Option GitWorktreeSnapshot) : Option State :=
  match call.stage with
  | .capturing command rest =>
    match σ.runtime.unchangedFailure command snapshot with
    | some failure =>
      let attempt := ((σ.runtime.gateAttempt command).getD failure.attempt).next
      some (({ σ with runtime := σ.runtime.skipUnchanged command failure attempt }.note (.skipped command)).endFailed
        call attempt)
    | none => some (σ.goto call (.running command rest))
  | .recapturing command rest result =>
    if result.succeeded then some (σ.endPassed call command rest)
    else
      let attempt := ((σ.runtime.gateAttempt command).getD (.number 0)).next
      some ({ σ with runtime := σ.runtime.gateFailed command result snapshot attempt }.endFailed call attempt)
  | _ => none

def step (σ : State) : Action → Option State
  | .setAutonomousEnabled enabled clock =>
    some ({ σ with runtime := σ.runtime.setAutonomousEnabled enabled clock }.note (.switched enabled))
  | .setAutonomousLimits config => some { σ with runtime := σ.runtime.setAutonomousLimits config }
  | .addAutonomousUsage tokens =>
    if σ.call.isNone then some { σ with runtime := σ.runtime.addAutonomousUsage tokens } else none
  | .nextAutonomousContinuation failedMessage hasCwd now isoNow =>
    if σ.call.isNone then some ((σ.note .begun).start failedMessage hasCwd now isoNow) else none
  | .captured snapshot => σ.call.bind fun call => σ.captured call snapshot
  | .ran result => σ.call.bind fun call =>
    match call.stage with
    | .running command rest => some ((σ.note (.ran command result)).goto call (.recapturing command rest result))
    | _ => none
  | .decide => σ.call.bind fun call =>
    match call.stage with
    | .gated result =>
      some (σ.goto { call with passed := result == some .passed } (.decided (σ.decision call.now result)))
    | _ => none
  | .complete clock => σ.call.bind fun call =>
    match call.stage with
    | .decided decision => some (σ.complete call decision clock)
    | _ => none
  | .abort => σ.call.map fun _ => { σ with call := none }.note .aborted

end State

end Autonomous
end Core
end RePrime
