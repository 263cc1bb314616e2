import RePrime.Lib.Runs
import RePrime.Core.Autonomous

/-!
# RePrime.Core.AutonomousBounds

The bounds of autonomous mode, over runs of calls and setters.

A call reads the mode, the limits and the list of gates before it waits and does not read them again, so a setter
that falls into the call can have it return what the settings no longer allow.

* `inRow`, `successes`, `failures`, `continuations`: what the history of a run says of the gates and of what was
  returned.
* `Return.Bounded`: what a call may return.
* `State.Guarded`: what must not fall into a call for that.
* `State.bounded_of_run`: guarded runs stay within the bounds. `State.escapes`: others do not.
-/

namespace RePrime
namespace Core
namespace Autonomous

open AutonomousRuntimeState Option

/-! ## The history -/

/-- How often a command has failed in a row since the mode was switched. A failure is not counted if the call is
aborted before anything else happens. -/
def inRow : List Happening → String → Nat
  | .aborted :: .ran other result :: earlier, command =>
    if other = command ∧ result.succeeded then 0 else inRow earlier command
  | .ran other result :: earlier, command =>
    if other = command then if result.succeeded then 0 else inRow earlier command + 1 else inRow earlier command
  | .skipped other :: earlier, command => if other = command then inRow earlier command + 1 else inRow earlier command
  | .switched _ :: _, _ => 0
  | _ :: earlier, command => inRow earlier command
  | [], _ => 0

/-- The commands that have succeeded since the last call began, the latest first. -/
def successes : List Happening → List String
  | .begun :: _ => []
  | .ran command result :: earlier => if result.succeeded then command :: successes earlier else successes earlier
  | _ :: earlier => successes earlier
  | [] => []

/-- Those that have failed. -/
def failures : List Happening → List String
  | .begun :: _ => []
  | .ran command result :: earlier => if result.succeeded then failures earlier else command :: failures earlier
  | .skipped command :: earlier => command :: failures earlier
  | _ :: earlier => failures earlier
  | [] => []

/-- The continuations since the mode was switched on. -/
def continuations : List Happening → Nat
  | .switched true :: _ => 0
  | .returned (some _) :: earlier => continuations earlier + 1
  | _ :: earlier => continuations earlier
  | [] => 0

/-- What is returned keeps to the state of that moment, and to what has happened. -/
structure Return.Bounded (r : Return) : Prop where
  enabled : r.message.isSome = true → r.runtime.enabled = true
  maxContinuations : r.message.isSome = true → r.runtime.continuationsUsed < r.runtime.limits.maxContinuations
  maxTurns : r.message.isSome = true → r.runtime.turnsUsed < r.runtime.limits.maxTurns
  maxTokens : r.message.isSome = true → r.runtime.tokensUsed < r.runtime.limits.maxTokens
  timeoutMs : r.message.isSome = true → ∀ startedAt ∈ r.runtime.startedAt,
    r.clock - startedAt < r.runtime.limits.timeoutMs
  counted : r.message.isSome = true → continuations r.history ≤ r.runtime.limits.maxContinuations
  retried : ∀ command ∈ failures r.history, r.runtime.gates.maxRetries < inRow r.history command → r.message = none
  succeeded : r.call.passed = true → ∀ command ∈ r.runtime.gates.commands, command ∈ successes r.history

/-- No gate command has the name of a member that every object inherits. -/
def AgentAutonomousConfig.Plain (config : AgentAutonomousConfig) : Prop :=
  ∀ gates ∈ config.gates, ∀ commands ∈ gates.commands, ∀ command ∈ commands, inheritedText command = none

namespace AutonomousRuntimeState

variable {state : AutonomousRuntimeState}

/-- No limit is lower. -/
structure AtMost (state state' : AutonomousRuntimeState) : Prop where
  maxContinuations : state.limits.maxContinuations ≤ state'.limits.maxContinuations
  maxTurns : state.limits.maxTurns ≤ state'.limits.maxTurns
  maxTokens : state.limits.maxTokens ≤ state'.limits.maxTokens
  timeoutMs : state.limits.timeoutMs ≤ state'.limits.timeoutMs
  maxRetries : state.gates.maxRetries ≤ state'.gates.maxRetries

/-- No limit is reached at that time. -/
structure Below (state : AutonomousRuntimeState) (now : Int) : Prop where
  continuationsUsed : state.continuationsUsed < state.limits.maxContinuations
  turnsUsed : state.turnsUsed < state.limits.maxTurns
  tokensUsed : state.tokensUsed < state.limits.maxTokens
  time : ∀ startedAt ∈ state.startedAt, now - startedAt < state.limits.timeoutMs

theorem below_of_limitReason {now : Int} (h : state.autonomousLimitReason now = none) : state.Below now := by
  simp only [autonomousLimitReason] at h
  split at h
  · cases h
  split at h
  · cases h
  split at h
  · cases h
  split at h
  · cases h
  rename_i htime
  refine ⟨by omega, by omega, by omega, ?_⟩
  intro startedAt hstarted
  rw [mem_def] at hstarted
  rw [hstarted, any_some, decide_eq_true_eq] at htime
  omega

theorem commands_setAutonomousLimits (config : AgentAutonomousConfig)
    (hp : config.Plain) (h : ∀ command ∈ state.gates.commands, inheritedText command = none) :
    ∀ command ∈ (state.setAutonomousLimits config).gates.commands, inheritedText command = none := by
  intro command hm
  simp only [setAutonomousLimits] at hm
  cases hgates : config.gates.bind (·.commands) with
  | none =>
    rw [hgates] at hm
    exact h command hm
  | some commands =>
    rw [hgates] at hm
    obtain ⟨gates, hg, hc⟩ := bind_eq_some_iff.mp hgates
    exact hp gates hg commands hc command hm

/-! ## Attempts -/

variable {command : String}

theorem plain_ne_proto (h : inheritedText command = none) : command ≠ "__proto__" := by
  rintro rfl
  cases h

theorem get?_setGateAttempt (h : inheritedText command = none) (attempt : Attempt)
    (other : String) : (state.setGateAttempt command attempt).gateAttempts.get? other =
      if other = command then some attempt else state.gateAttempts.get? other := by
  simp only [setGateAttempt, if_neg (plain_ne_proto h), OrderedMap.get?_set]

@[simp] theorem setGateAttempt_enabled (command : String) (attempt : Attempt) :
    (state.setGateAttempt command attempt).enabled = state.enabled := by
  unfold setGateAttempt
  split <;> rfl

@[simp] theorem setGateAttempt_continuationsUsed (command : String) (attempt : Attempt) :
    (state.setGateAttempt command attempt).continuationsUsed = state.continuationsUsed := by
  unfold setGateAttempt
  split <;> rfl

@[simp] theorem setGateAttempt_gates (command : String) (attempt : Attempt) :
    (state.setGateAttempt command attempt).gates = state.gates := by
  unfold setGateAttempt
  split <;> rfl

@[simp] theorem setGateAttempt_lastGateFailure (command : String) (attempt : Attempt) :
    (state.setGateAttempt command attempt).lastGateFailure = state.lastGateFailure := by
  unfold setGateAttempt
  split <;> rfl

@[simp] theorem gatePassed_enabled (command : String) : (state.gatePassed command).enabled = state.enabled := by
  unfold gatePassed
  dsimp only
  split <;> simp

@[simp] theorem gatePassed_continuationsUsed (command : String) :
    (state.gatePassed command).continuationsUsed = state.continuationsUsed := by
  unfold gatePassed
  dsimp only
  split <;> simp

@[simp] theorem gatePassed_gates (command : String) : (state.gatePassed command).gates = state.gates := by
  unfold gatePassed
  dsimp only
  split <;> simp

theorem gatePassed_gateAttempts (command : String) :
    (state.gatePassed command).gateAttempts = (state.setGateAttempt command (.number 0)).gateAttempts := by
  unfold gatePassed
  dsimp only
  split <;> rfl

theorem gatePassed_lastGateFailure {failure : AgentAutonomousGateFailure}
    (h : (state.gatePassed command).lastGateFailure = some failure) : state.lastGateFailure = some failure := by
  unfold gatePassed at h
  dsimp only at h
  split at h
  · cases h
  · simpa using h

theorem gateAttempt_plain (h : inheritedText command = none) :
    state.gateAttempt command = state.gateAttempts.get? command := by
  simp [gateAttempt, h]

/-- The attempts of every command that is not a member's name cover its failures, and are counted for the last
failure. -/
structure Counted (state : AutonomousRuntimeState) (failed : String → Nat) : Prop where
  counts : ∀ command, inheritedText command = none →
    (state.gateAttempts.get? command = none ∧ failed command = 0) ∨
      ∃ m, state.gateAttempts.get? command = some (.number m) ∧ failed command ≤ m
  failure : ∀ failure, state.lastGateFailure = some failure → inheritedText failure.command = none →
    ∃ m, state.gateAttempts.get? failure.command = some (.number m)

variable {failed failed' : String → Nat}

theorem Counted.reset (ha : state.gateAttempts = .empty) (hf : state.lastGateFailure = none)
    (hn : ∀ command, failed command = 0) : state.Counted failed := by
  constructor
  · intro command _
    exact .inl ⟨by rw [ha]; rfl, hn command⟩
  · intro failure h
    rw [hf] at h
    cases h

theorem Counted.mono (h : state.Counted failed) (hle : ∀ command, failed' command ≤ failed command) :
    state.Counted failed' := by
  refine ⟨fun command hp => ?_, h.failure⟩
  obtain ⟨hnone, hzero⟩ | ⟨m, hsome, hm⟩ := h.counts command hp
  · exact .inl ⟨hnone, Nat.le_zero.mp (hzero ▸ hle command)⟩
  · exact .inr ⟨m, hsome, (hle command).trans hm⟩

theorem Counted.next (h : state.Counted failed) (hp : inheritedText command = none) :
    ∃ m, ((state.gateAttempt command).getD (.number 0)).next = .number (m + 1) ∧ failed command ≤ m := by
  rw [gateAttempt_plain hp]
  obtain ⟨hnone, hzero⟩ | ⟨m, hsome, hm⟩ := h.counts command hp
  · exact ⟨0, by simp [hnone, Attempt.next], hzero.le⟩
  · exact ⟨m, by simp [hsome, Attempt.next], hm⟩

theorem unchangedFailure_spec {snapshot : Option GitWorktreeSnapshot} {failure : AgentAutonomousGateFailure}
    (h : state.unchangedFailure command snapshot = some failure) :
    state.lastGateFailure = some failure ∧ failure.command = command := by
  simp only [unchangedFailure] at h
  split at h
  · rename_i hfailure _
    split at h
    · rename_i heq
      cases h
      exact ⟨hfailure, heq.1⟩
    · cases h
  · cases h

theorem Counted.nextUnchanged (h : state.Counted failed) (hp : inheritedText command = none)
    {snapshot : Option GitWorktreeSnapshot} {failure : AgentAutonomousGateFailure}
    (hu : state.unchangedFailure command snapshot = some failure) :
    ∃ m, ((state.gateAttempt command).getD failure.attempt).next = .number (m + 1) ∧ failed command ≤ m := by
  obtain ⟨hlast, rfl⟩ := unchangedFailure_spec hu
  obtain ⟨m, hsome⟩ := h.failure failure hlast hp
  obtain ⟨hnone, -⟩ | ⟨m', hsome', hm⟩ := h.counts failure.command hp
  · rw [hsome] at hnone
    cases hnone
  · rw [gateAttempt_plain hp]
    exact ⟨m', by simp [hsome', Attempt.next], hm⟩

theorem Counted.set (h : state.Counted failed)
    (hp : inheritedText command = none) {n : Nat} {state' : AutonomousRuntimeState}
    (ha : state'.gateAttempts = (state.setGateAttempt command (.number n)).gateAttempts)
    (hf : ∀ failure, state'.lastGateFailure = some failure →
      failure.command = command ∨ state.lastGateFailure = some failure)
    (hn : failed' command ≤ n) (hle : ∀ other, other ≠ command → failed' other ≤ failed other) :
    state'.Counted failed' := by
  constructor
  · intro other ho
    simp only [ha, get?_setGateAttempt hp]
    by_cases heq : other = command
    · rw [heq, if_pos rfl]
      exact .inr ⟨n, rfl, hn⟩
    · rw [if_neg heq]
      obtain ⟨hnone, hzero⟩ | ⟨m, hsome, hm⟩ := h.counts other ho
      · exact .inl ⟨hnone, Nat.le_zero.mp (hzero ▸ hle other heq)⟩
      · exact .inr ⟨m, hsome, (hle other heq).trans hm⟩
  · intro failure hfailure ho
    simp only [ha, get?_setGateAttempt hp]
    by_cases heq : failure.command = command
    · rw [if_pos heq]
      exact ⟨n, rfl⟩
    · rw [if_neg heq]
      exact h.failure failure ((hf failure hfailure).resolve_left heq) ho

theorem Counted.same (h : state.Counted failed) {state' : AutonomousRuntimeState}
    (ha : state'.gateAttempts = state.gateAttempts)
    (hf : ∀ failure, state'.lastGateFailure = some failure → state.lastGateFailure = some failure) :
    state'.Counted failed := by
  constructor
  · intro command hp
    rw [ha]
    exact h.counts command hp
  · intro failure hfailure hp
    rw [ha]
    exact h.failure failure (hf failure hfailure) hp

end AutonomousRuntimeState

/-! ## Calls -/

/-- The commands that failed in this call have not exhausted their retries. -/
def Retries (history : List Happening) (maxRetries : Nat) : Prop :=
  ∀ command ∈ failures history, inRow history command ≤ maxRetries

/-- What a call has found out still holds. -/
def Call.Fits (call : Call) (state : AutonomousRuntimeState) (history : List Happening) : Prop :=
  match call.stage with
  | .capturing command rest | .running command rest =>
    state.gates.commands = (successes history).reverse ++ command :: rest ∧ failures history = []
  | .recapturing command rest result =>
    (∃ earlier, history = .ran command result :: earlier ∨ ∃ enabled, history = .switched enabled :: earlier) ∧
    (result.succeeded = true → state.gates.commands = (successes history).reverse ++ rest ∧ failures history = []) ∧
    (result.succeeded = false → failures history = [command]) ∧ command ∈ state.gates.commands
  | .gated result => (result = some .passed → state.gates.commands = (successes history).reverse) ∧
      (result ≠ some .retryExhausted → Retries history state.gates.maxRetries)
  | .decided decision => (call.passed = true → state.gates.commands = (successes history).reverse) ∧
      (decision.shouldContinue = true → Retries history state.gates.maxRetries ∧ state.Below call.now)

theorem inRow_aborted_le (history : List Happening) (command : String) :
    inRow (.aborted :: history) command ≤ inRow history command := by
  cases history with
  | nil => exact Nat.le_refl _
  | cons happening earlier =>
    cases happening with
    | ran other result =>
      by_cases hsame : other = command
      · cases hresult : result.succeeded with
        | true => simp [inRow, hsame, hresult]
        | false => simp [inRow, hsame, hresult]
      · simp [inRow, hsame]
    | _ => exact Nat.le_refl _

/-- Gates are under evaluation. -/
def Stage.isEvaluating : Stage → Bool
  | .gated _ | .decided _ => false
  | _ => true

/-- A failure of this command that is not counted yet. -/
def Stage.pending : Stage → String → Nat
  | .recapturing command _ result, other => if command = other ∧ result.succeeded = false then 1 else 0
  | _, _ => 0

namespace State

variable {σ σ' : State}

/-- The failures that the attempts cover. -/
def failed (σ : State) (command : String) : Nat :=
  inRow σ.history command - (σ.call.map fun call => call.stage.pending command).getD 0

theorem failed_le (σ : State) (command : String) : σ.failed command ≤ inRow σ.history command := Nat.sub_le _ _

/-- While a call is under way, the mode is not switched off, nor on with a start that would leave the call no time;
the list of gates is not changed, and once the gates have been evaluated no limit is lowered. A call that began in
time ends in time. -/
def Guarded (σ : State) : Action → Prop
  | .setAutonomousEnabled enabled clock =>
    ∀ call ∈ σ.call, enabled = true ∧ call.now - clock < σ.runtime.limits.timeoutMs
  | .setAutonomousLimits config => config.Plain ∧ ∀ call ∈ σ.call,
      (σ.runtime.setAutonomousLimits config).gates.commands = σ.runtime.gates.commands ∧
      (call.stage.isEvaluating = false → σ.runtime.AtMost (σ.runtime.setAutonomousLimits config))
  | .complete clock => ∀ call ∈ σ.call, ∀ startedAt ∈ σ.runtime.startedAt,
      call.now - startedAt < σ.runtime.limits.timeoutMs → clock - startedAt < σ.runtime.limits.timeoutMs
  | _ => True

structure Inv (σ : State) : Prop where
  enabled : ∀ call, σ.call = some call → σ.runtime.enabled = true
  counted : σ.runtime.continuationsUsed = continuations σ.history
  plain : ∀ command ∈ σ.runtime.gates.commands, inheritedText command = none
  attempts : σ.runtime.Counted σ.failed
  call : ∀ call, σ.call = some call → call.Fits σ.runtime σ.history
  returns : ∀ r ∈ σ.returns, r.Bounded

theorem of_no_call (h : σ.call = none) {property : Call → Prop} : ∀ call, σ.call = some call → property call := by
  intro call hcall
  rw [h] at hcall
  cases hcall

variable {call : Call}

theorem failed_eq (hcall : σ.call = some call) (command : String) :
    σ.failed command = inRow σ.history command - call.stage.pending command := by
  rw [failed, hcall]
  rfl

/-- The state goes on to a stage in which no failure is pending. -/
theorem Inv.at {runtime : AutonomousRuntimeState} {history : List Happening} {returns : List Return}
    (henabled : runtime.enabled = true) (hcounted : runtime.continuationsUsed = continuations history)
    (hplain : ∀ command ∈ runtime.gates.commands, inheritedText command = none)
    (hattempts : runtime.Counted (inRow history)) (hfits : call.Fits runtime history)
    (hreturns : ∀ r ∈ returns, r.Bounded) : Inv ⟨runtime, some call, history, returns⟩ where
  enabled := fun _ _ => henabled
  counted := hcounted
  plain := hplain
  attempts := hattempts.mono (failed_le _)
  call := by
    rintro _ ⟨⟩
    exact hfits
  returns := hreturns

theorem Inv.idle {runtime : AutonomousRuntimeState} {history : List Happening} {returns : List Return}
    (hcounted : runtime.continuationsUsed = continuations history)
    (hplain : ∀ command ∈ runtime.gates.commands, inheritedText command = none)
    (hattempts : runtime.Counted (inRow history)) (hreturns : ∀ r ∈ returns, r.Bounded) :
    Inv ⟨runtime, none, history, returns⟩ :=
  ⟨of_no_call rfl, hcounted, hplain, hattempts.mono (failed_le _), of_no_call rfl, hreturns⟩

variable (h : σ.Inv)

include h

/-- The stage has changed, and nothing else. -/
theorem Inv.goto {stage : Stage} (hattempts : σ.runtime.Counted (inRow σ.history)) (henabled : σ.runtime.enabled = true)
    (hfits : Call.Fits { call with stage } σ.runtime σ.history) : (σ.goto call stage).Inv :=
  .at henabled h.counted h.plain hattempts hfits h.returns

theorem Inv.attempts_of (hcall : σ.call = some call) (hpending : ∀ command, call.stage.pending command = 0) :
    σ.runtime.Counted (inRow σ.history) := by
  refine h.attempts.mono fun command => ?_
  rw [failed_eq hcall, hpending, Nat.sub_zero]

theorem Inv.attempts_of_none (hcall : σ.call = none) : σ.runtime.Counted (inRow σ.history) := by
  refine h.attempts.mono fun command => ?_
  rw [failed, hcall]
  exact Nat.le_refl _

theorem Inv.endFailed {command : String} (henabled : σ.runtime.enabled = true) (hp : inheritedText command = none)
    {runtime : AutonomousRuntimeState} {history : List Happening} {m : Nat}
    (he : runtime.enabled = σ.runtime.enabled) (hc : runtime.continuationsUsed = continuations history)
    (hg : runtime.gates = σ.runtime.gates)
    (ha : runtime.gateAttempts = (σ.runtime.setGateAttempt command (.number (m + 1))).gateAttempts)
    (hf : ∀ failure, runtime.lastGateFailure = some failure → failure.command = command)
    (hfailures : failures history = [command]) (hm : inRow history command ≤ m + 1)
    (hothers : ∀ other, other ≠ command → inRow history other ≤ σ.failed other) :
    (State.endFailed { σ with runtime, history } call (.number (m + 1))).Inv := by
  refine .at (he.trans henabled) hc ?_ ?_ ?_ h.returns
  · intro other hother
    exact h.plain other (hg ▸ hother)
  · exact h.attempts.set hp ha (fun failure hfailure => .inl (hf failure hfailure)) hm hothers
  · refine ⟨fun hpassed => ?_, fun hresult => ?_⟩
    · split at hpassed
      · cases hpassed
      · cases hpassed
    · intro other hother
      rw [hfailures, List.mem_singleton] at hother
      subst hother
      simp only [Attempt.exceeds, decide_eq_true_eq] at hresult
      by_contra hle
      have hlt : runtime.gates.maxRetries < m + 1 := Nat.lt_of_lt_of_le (Nat.lt_of_not_le hle) hm
      rw [if_pos hlt] at hresult
      exact hresult rfl

theorem Inv.endPassed {command : String} {rest : List String} (henabled : σ.runtime.enabled = true)
    (hp : inheritedText command = none) (hcommands : σ.runtime.gates.commands = (successes σ.history).reverse ++ rest)
    (hfailures : failures σ.history = []) (hzero : inRow σ.history command = 0)
    (hothers : ∀ other, other ≠ command → inRow σ.history other ≤ σ.failed other) :
    (σ.endPassed call command rest).Inv := by
  have hattempts : (σ.runtime.gatePassed command).Counted (inRow σ.history) :=
    h.attempts.set hp (gatePassed_gateAttempts command) (fun _ hfailure => .inr (gatePassed_lastGateFailure hfailure))
      hzero.le hothers
  have hplain : ∀ other ∈ (σ.runtime.gatePassed command).gates.commands, inheritedText other = none := by
    rw [gatePassed_gates]
    exact h.plain
  have hused : (σ.runtime.gatePassed command).continuationsUsed = continuations σ.history := by
    rw [gatePassed_continuationsUsed]
    exact h.counted
  have hon : (σ.runtime.gatePassed command).enabled = true := by
    rw [gatePassed_enabled]
    exact henabled
  cases rest with
  | cons next rest =>
    refine .at hon hused hplain hattempts ⟨?_, hfailures⟩ h.returns
    rw [gatePassed_gates]
    exact hcommands
  | nil =>
    refine .at hon hused hplain (hattempts.same rfl fun _ hf => by cases hf) ⟨fun _ => ?_, fun _ => ?_⟩ h.returns
    · show (σ.runtime.gatePassed command).gates.commands = _
      rw [gatePassed_gates, hcommands, List.append_nil]
    · intro other hother
      rw [hfailures] at hother
      cases hother

theorem Inv.start (hcall : σ.call = none) (failedMessage hasCwd : Bool) (now : Int) (isoNow : String) :
    ((σ.note .begun).start failedMessage hasCwd now isoNow).Inv := by
  have hattempts : σ.runtime.Counted (inRow (.begun :: σ.history)) := h.attempts_of_none hcall
  have hbegun : (σ.note .begun).Inv :=
    ⟨of_no_call hcall, h.counted, h.plain, hattempts.mono (failed_le _), of_no_call hcall, h.returns⟩
  have hretries : ∀ maxRetries, Retries (.begun :: σ.history) maxRetries := by
    intro maxRetries command hm
    cases hm
  simp only [State.start]
  split
  · exact hbegun
  rename_i hon
  have henabled : σ.runtime.enabled = true := by simpa [note] using hon
  split
  · exact hbegun.goto hattempts henabled ⟨fun hpassed => (by cases hpassed), fun hc => (by cases hc)⟩
  split
  · exact hbegun.goto hattempts henabled ⟨fun hr => (by cases hr), fun _ => hretries _⟩
  · rename_i command rest hcommands
    split
    · exact hbegun.goto hattempts henabled ⟨hcommands, rfl⟩
    · exact hbegun.goto hattempts henabled ⟨fun hr => (by cases hr), fun _ => hretries _⟩

/-- A gate whose failure still stands is not run again, and fails; any other is to run. -/
theorem Inv.captured_capturing (hcall : σ.call = some call) {command : String} {rest : List String}
    (hstage : call.stage = .capturing command rest) {snapshot : Option GitWorktreeSnapshot}
    (hs : σ.captured call snapshot = some σ') : σ'.Inv := by
  have henabled := h.enabled call hcall
  have hfits := h.call call hcall
  have hattempts := h.attempts_of hcall fun other => by rw [hstage]; rfl
  simp only [Call.Fits, hstage] at hfits
  obtain ⟨hcommands, hfailures⟩ := hfits
  have hp : inheritedText command = none := h.plain command (by simp [hcommands])
  simp only [State.captured, hstage] at hs
  split at hs
  · rename_i failure hunchanged
    cases hs
    obtain ⟨m, hnext, hm⟩ := hattempts.nextUnchanged hp hunchanged
    rw [hnext]
    refine @endFailed σ call h command henabled hp _ (.skipped command :: σ.history) m ?_ ?_ ?_ rfl ?_ ?_ ?_ ?_
    · simp [skipUnchanged]
    · simpa [skipUnchanged, continuations] using h.counted
    · simp [skipUnchanged]
    · rintro _ ⟨⟩
      exact (unchangedFailure_spec hunchanged).2
    · rw [failures, hfailures]
    · rw [inRow, if_pos rfl]
      omega
    · intro other hne
      rw [inRow, if_neg (Ne.symm hne), failed_eq hcall, hstage]
      exact Nat.le_refl _
  · cases hs
    exact h.goto hattempts henabled ⟨hcommands, hfailures⟩

/-- The result of a gate is counted when the files are known after it. -/
theorem Inv.captured_recapturing (hcall : σ.call = some call) {command : String} {rest : List String}
    {result : ChildProcessResult} (hstage : call.stage = .recapturing command rest result)
    {snapshot : Option GitWorktreeSnapshot} (hs : σ.captured call snapshot = some σ') : σ'.Inv := by
  have henabled := h.enabled call hcall
  have hfits := h.call call hcall
  simp only [Call.Fits, hstage] at hfits
  obtain ⟨⟨earlier, htop⟩, hsucceeded, hfailed, hmem⟩ := hfits
  have hp : inheritedText command = none := h.plain command hmem
  have hothers : ∀ other, other ≠ command → inRow σ.history other ≤ σ.failed other := by
    intro other hne
    rw [failed_eq hcall, hstage, Stage.pending, if_neg fun hpending => hne hpending.1.symm]
    exact Nat.le_refl _
  simp only [State.captured, hstage] at hs
  split at hs
  · rename_i hpass
    cases hs
    obtain ⟨hcommands, hfailures⟩ := hsucceeded hpass
    refine h.endPassed henabled hp hcommands hfailures ?_ hothers
    obtain heq | ⟨enabled, heq⟩ := htop
    · rw [heq, inRow, if_pos rfl, if_pos hpass]
    · rw [heq, inRow]
  · rename_i hfail
    cases hs
    rw [Bool.not_eq_true] at hfail
    obtain ⟨m, hnext, hm⟩ := h.attempts.next hp
    rw [failed_eq hcall, hstage, Stage.pending, if_pos ⟨rfl, hfail⟩] at hm
    rw [hnext]
    refine @endFailed σ call h command henabled hp _ σ.history m ?_ ?_ ?_ rfl ?_ (hfailed hfail) (by omega) hothers
    · simp [gateFailed]
    · simpa [gateFailed] using h.counted
    · simp [gateFailed]
    · rintro _ ⟨⟩
      rfl

theorem Inv.captured (hcall : σ.call = some call) {snapshot : Option GitWorktreeSnapshot}
    (hs : σ.captured call snapshot = some σ') : σ'.Inv := by
  cases hstage : call.stage with
  | capturing command rest => exact h.captured_capturing hcall hstage hs
  | recapturing command rest result => exact h.captured_recapturing hcall hstage hs
  | running _ _ | gated _ | decided _ =>
    simp only [State.captured, hstage] at hs
    cases hs

/-- The gate that was run is the last that has happened. -/
theorem Inv.ran {command : String} {rest : List String} {result : ChildProcessResult} (hcall : σ.call = some call)
    (hstage : call.stage = .running command rest) :
    ((σ.note (.ran command result)).goto call (.recapturing command rest result)).Inv := by
  have hfits := h.call call hcall
  simp only [Call.Fits, hstage] at hfits
  obtain ⟨hcommands, hfailures⟩ := hfits
  have hattempts := h.attempts_of hcall fun other => by rw [hstage]; rfl
  refine ⟨fun _ _ => h.enabled call hcall, h.counted, h.plain, ?_, ?_, h.returns⟩
  · refine hattempts.mono fun other => ?_
    show inRow (.ran command result :: σ.history) other -
      (if command = other ∧ result.succeeded = false then 1 else 0) ≤ _
    rw [inRow]
    · by_cases hother : command = other
      · rw [if_pos hother]
        cases hresult : result.succeeded with
        | true => simp
        | false => simp [hother]
      · rw [if_neg hother]
        exact Nat.sub_le _ _
  · rintro _ ⟨⟩
    refine ⟨⟨σ.history, .inl rfl⟩, fun hpass => ?_, fun hfail => ?_, ?_⟩
    · rw [State.goto, note, successes, failures, if_pos hpass, if_pos hpass]
      exact ⟨by rw [hcommands]; simp, hfailures⟩
    · rw [State.goto, note, failures, hfail, hfailures]
      rfl
    · show command ∈ σ.runtime.gates.commands
      rw [hcommands]
      simp

/-- A decision to continue is made below the limits, and not once the retries are exhausted. -/
theorem Inv.decide {result : Option AutonomousGateResult} (hcall : σ.call = some call)
    (hstage : call.stage = .gated result) :
    (σ.goto { call with passed := result == some .passed } (.decided (σ.decision call.now result))).Inv := by
  have hfits := h.call call hcall
  simp only [Call.Fits, hstage] at hfits
  refine h.goto (h.attempts_of hcall fun other => by rw [hstage]; rfl) (h.enabled call hcall)
    ⟨fun hpassed => hfits.1 (beq_iff_eq.mp hpassed), ?_⟩
  have hbelow : ¬(σ.runtime.autonomousLimitReason call.now).isSome = true → σ.runtime.Below call.now := by
    intro hnone
    exact below_of_limitReason (not_isSome_iff_eq_none.mp hnone)
  intro hcontinue
  simp only [State.decision] at hcontinue
  split at hcontinue
  · cases hcontinue
  · cases hcontinue
  · split at hcontinue
    · cases hcontinue
    · exact ⟨hfits.2 (by simp), hbelow ‹_›⟩
  · split at hcontinue
    · cases hcontinue
    · exact ⟨hfits.2 (by simp), hbelow ‹_›⟩

theorem Inv.complete {decision : AutonomousDecision} {clock : Int}
    (hcall : σ.call = some call) (hstage : call.stage = .decided decision) (hg : σ.Guarded (.complete clock)) :
    (σ.complete call decision clock).Inv := by
  have hfits := h.call call hcall
  have hattempts := h.attempts_of hcall fun other => by rw [hstage]; rfl
  simp only [Call.Fits, hstage] at hfits
  obtain ⟨hpassed, hcontinue⟩ := hfits
  have hsucceeded : call.passed = true → ∀ command ∈ σ.runtime.gates.commands, command ∈ successes σ.history := by
    intro hpass command hm
    rw [hpassed hpass, List.mem_reverse] at hm
    exact hm
  simp only [State.complete]
  split
  · rename_i hc
    obtain ⟨hretries, hbelow⟩ := hcontinue hc
    have hused := h.counted
    have hmax := hbelow.continuationsUsed
    refine .idle ?_ h.plain (hattempts.same rfl fun _ hf => hf) ?_
    · simp only [continuations, h.counted]
    · intro r hr
      obtain hr | hr := List.mem_append.mp hr
      · exact h.returns r hr
      · cases List.mem_singleton.mp hr
        refine ⟨fun _ => h.enabled call hcall, fun _ => hmax, fun _ => hbelow.turnsUsed, fun _ => hbelow.tokensUsed,
          fun _ startedAt hstarted => hg call hcall startedAt hstarted (hbelow.time startedAt hstarted), fun _ => ?_,
          fun command hm hlt => absurd (hretries command hm) (Nat.not_le_of_lt hlt), hsucceeded⟩
        show continuations σ.history + 1 ≤ σ.runtime.limits.maxContinuations
        omega
  · refine .idle h.counted h.plain hattempts ?_
    intro r hr
    obtain hr | hr := List.mem_append.mp hr
    · exact h.returns r hr
    · cases List.mem_singleton.mp hr
      exact ⟨by simp, by simp, by simp, by simp, by simp, by simp, fun _ _ _ => rfl, hsucceeded⟩

/-- What was run last in a call that is aborted does not count, so the attempts cover the rest. -/
theorem Inv.abort (hcall : σ.call = some call) : (State.note { σ with call := none } .aborted).Inv := by
  refine ⟨of_no_call rfl, h.counted, h.plain, ?_, of_no_call rfl, h.returns⟩
  refine h.attempts.mono fun command => ?_
  have hfits := h.call call hcall
  rw [failed_eq hcall]
  show inRow (.aborted :: σ.history) command ≤ _
  cases hstage : call.stage with
  | recapturing last rest result =>
    simp only [Call.Fits, hstage] at hfits
    obtain ⟨⟨earlier, heq | ⟨enabled, heq⟩⟩, -⟩ := hfits
    · rw [heq, inRow, inRow, Stage.pending]
      · by_cases hlast : last = command
        · cases hresult : result.succeeded with
          | true => simp [hlast]
          | false => simp [hlast]
        · simp [hlast]
    · rw [heq]
      exact Nat.zero_le _
  | capturing _ _ | running _ _ | gated _ | decided _ => exact inRow_aborted_le _ _

/-! ## Setters -/

theorem Inv.setAutonomousEnabled {enabled : Bool} {clock : Int}
    (hg : σ.Guarded (.setAutonomousEnabled enabled clock)) :
    (State.note { σ with runtime := σ.runtime.setAutonomousEnabled enabled clock } (.switched enabled)).Inv := by
  have hreset : (σ.runtime.setAutonomousEnabled enabled clock).Counted
      (State.note { σ with runtime := σ.runtime.setAutonomousEnabled enabled clock } (.switched enabled)).failed := by
    refine .reset ?_ ?_ fun command => ?_
    · cases enabled <;> rfl
    · cases enabled <;> rfl
    · exact Nat.le_zero.mp (failed_le _ command)
  have hplain : ∀ command ∈ (σ.runtime.setAutonomousEnabled enabled clock).gates.commands,
      inheritedText command = none := by
    cases enabled <;> exact h.plain
  cases enabled with
  | false =>
    have hnone : σ.call = none := by
      cases hcall : σ.call with
      | none => rfl
      | some call => cases (hg call hcall).1
    exact ⟨of_no_call hnone, h.counted, hplain, hreset, of_no_call hnone, h.returns⟩
  | true =>
    refine ⟨fun _ _ => rfl, rfl, hplain, hreset, ?_, h.returns⟩
    intro call hcall
    have hfits := h.call call hcall
    have hretries : ∀ maxRetries, Retries (.switched true :: σ.history) maxRetries :=
      fun _ _ _ => Nat.zero_le _
    simp only [Call.Fits] at hfits ⊢
    cases hstage : call.stage with
    | decided decision =>
      rw [hstage] at hfits
      refine ⟨hfits.1, fun hc => ⟨hretries _, ?_⟩⟩
      -- nothing is used up yet, and no limit is zero
      obtain ⟨-, hbelow⟩ := hfits.2 hc
      refine ⟨Nat.lt_of_le_of_lt (Nat.zero_le _) hbelow.continuationsUsed,
        Nat.lt_of_le_of_lt (Nat.zero_le _) hbelow.turnsUsed, Nat.lt_of_le_of_lt (Nat.zero_le _) hbelow.tokensUsed, ?_⟩
      rintro _ ⟨⟩
      exact (hg call hcall).2
    | recapturing command rest result =>
      rw [hstage] at hfits
      exact ⟨⟨σ.history, .inr ⟨true, rfl⟩⟩, hfits.2⟩
    | gated result =>
      rw [hstage] at hfits
      exact ⟨hfits.1, fun _ => hretries _⟩
    | capturing _ _ | running _ _ =>
      rw [hstage] at hfits
      exact hfits

theorem Inv.setAutonomousLimits {config : AgentAutonomousConfig}
    (hg : σ.Guarded (.setAutonomousLimits config)) :
    Inv { σ with runtime := σ.runtime.setAutonomousLimits config } := by
  obtain ⟨hp, hcalls⟩ := hg
  refine ⟨h.enabled, h.counted, commands_setAutonomousLimits config hp h.plain,
    h.attempts.same rfl (fun _ hf => hf), ?_, h.returns⟩
  intro call hcall
  obtain ⟨hcommands, hlimits⟩ := hcalls call hcall
  have hfits := h.call call hcall
  simp only [Call.Fits, hcommands] at hfits ⊢
  cases hstage : call.stage with
  | capturing _ _ | running _ _ | recapturing _ _ _ =>
    rw [hstage] at hfits
    exact hfits
  | gated result =>
    rw [hstage] at hfits
    have hatmost := hlimits (by rw [hstage]; rfl)
    refine ⟨hfits.1, ?_⟩
    intro hresult command hm
    exact (hfits.2 hresult command hm).trans hatmost.maxRetries
  | decided decision =>
    rw [hstage] at hfits
    have hatmost := hlimits (by rw [hstage]; rfl)
    refine ⟨hfits.1, ?_⟩
    intro hc
    obtain ⟨hretries, hbelow⟩ := hfits.2 hc
    refine ⟨fun command hm => (hretries command hm).trans hatmost.maxRetries,
      Nat.lt_of_lt_of_le hbelow.continuationsUsed hatmost.maxContinuations,
      Nat.lt_of_lt_of_le hbelow.turnsUsed hatmost.maxTurns, Nat.lt_of_lt_of_le hbelow.tokensUsed hatmost.maxTokens, ?_⟩
    intro startedAt hstarted
    exact lt_of_lt_of_le (hbelow.time startedAt hstarted) (by exact_mod_cast hatmost.timeoutMs)

theorem Inv.step {action : Action} (hg : σ.Guarded action) (hs : σ.step action = some σ') : σ'.Inv := by
  cases action with
  | setAutonomousEnabled enabled clock =>
    cases hs
    exact h.setAutonomousEnabled hg
  | setAutonomousLimits config =>
    cases hs
    exact h.setAutonomousLimits hg
  | addAutonomousUsage tokens =>
    simp only [State.step] at hs
    split at hs
    · rename_i hnone
      have hcall : σ.call = none := by simpa using hnone
      cases hs
      refine ⟨?_, ?_, ?_, h.attempts.same ?_ ?_, ?_, h.returns⟩
      · exact of_no_call hcall
      · unfold addAutonomousUsage
        split <;> exact h.counted
      · unfold addAutonomousUsage
        split <;> exact h.plain
      · unfold addAutonomousUsage
        split <;> rfl
      · unfold addAutonomousUsage
        split <;> exact fun _ hf => hf
      · exact of_no_call hcall
    · cases hs
  | nextAutonomousContinuation failedMessage hasCwd now isoNow =>
    simp only [State.step] at hs
    split at hs
    · rename_i hnone
      cases hs
      exact h.start (by simpa using hnone) failedMessage hasCwd now isoNow
    · cases hs
  | captured snapshot =>
    obtain ⟨call, hcall, hs⟩ := bind_eq_some_iff.mp hs
    exact h.captured hcall hs
  | ran result =>
    obtain ⟨call, hcall, hs⟩ := bind_eq_some_iff.mp hs
    split at hs
    · rename_i command rest hstage
      cases hs
      exact h.ran hcall hstage
    · cases hs
  | decide =>
    obtain ⟨call, hcall, hs⟩ := bind_eq_some_iff.mp hs
    split at hs
    · rename_i hstage
      cases hs
      exact h.decide hcall hstage
    · cases hs
  | complete clock =>
    obtain ⟨call, hcall, hs⟩ := bind_eq_some_iff.mp hs
    split at hs
    · rename_i hstage
      cases hs
      exact h.complete hcall hstage hg
    · cases hs
  | abort =>
    obtain ⟨call, hcall, rfl⟩ := map_eq_some_iff.mp hs
    exact h.abort hcall

/-! ## Runs -/

omit h

def Runs : State → State → Prop := Transition.Runs step

def GuardedRuns : State → State → Prop := Transition.GuardedRuns step Guarded

theorem Inv.initial {config : AgentAutonomousConfig} (hp : config.Plain) (defaults : AutonomousLimits) (clock : Int) :
    (initial config defaults clock).Inv := by
  have hplain : ∀ command ∈ (Autonomous.initial config defaults clock).runtime.gates.commands,
      inheritedText command = none := ?_
  · exact .idle rfl hplain (.reset rfl rfl fun _ => rfl) fun r hr => by cases hr
  intro command hm
  cases hgates : config.gates.bind (·.commands) with
  | none =>
    simp only [Autonomous.initial, createAutonomousRuntimeState, hgates] at hm
    cases hm
  | some commands =>
    simp only [Autonomous.initial, createAutonomousRuntimeState, hgates] at hm
    obtain ⟨gates, hg, hc⟩ := bind_eq_some_iff.mp hgates
    exact hp gates hg commands hc command hm

/-- Whatever the gates and git answer, and wherever setters fall that keep to the guard, every call returns within
the bounds. -/
theorem bounded_of_run (config : AgentAutonomousConfig) (defaults : AutonomousLimits) (clock : Int) (σ : State)
    (hp : config.Plain) (h : GuardedRuns (initial config defaults clock) σ) : ∀ r ∈ σ.returns, r.Bounded := by
  have hinv : σ.Inv := h.keeps (Inv.initial hp defaults clock) fun _ _ _ hinv hg hstep => hinv.step hg hstep
  exact hinv.returns

theorem exists_return (actions : List Action) {property : Return → Bool}
    (h : ((Transition.steps step actions σ).any fun σ' => σ'.returns.any property) = true) :
    ∃ σ', Runs σ σ' ∧ ∃ r ∈ σ'.returns, property r = true := by
  obtain ⟨σ', hrun, hany⟩ := Transition.exists_run h
  exact ⟨σ', hrun, List.any_eq_true.mp hany⟩

/-- A configuration that names its gates and how often they are retried. -/
def gatedConfig (commands : List String) : AgentAutonomousConfig :=
  { enabled := true, maxContinuations := none, maxTurns := none, maxTokens := none, timeoutMs := none
    continuationPrompt := none
    gates := some { commands := some commands, maxRetries := some 1, timeoutMs := none } }

def exited (status : Int) : ChildProcessResult := ⟨some status, none, "", "", none, false, false⟩

/-- A gate fails, and its call returns a continuation. -/
theorem bounded_of_failed_gate : ∃ σ, GuardedRuns (initial (gatedConfig ["check"]) DEFAULT_AUTONOMOUS_LIMITS 0) σ ∧
    σ.returns.length = 1 ∧ ∀ r ∈ σ.returns, r.Bounded := by
  have hp : (gatedConfig ["check"]).Plain := by
    rintro _ ⟨⟩ _ ⟨⟩ command hm
    rw [List.mem_singleton.mp hm]
    decide
  have hrun : ∃ σ, GuardedRuns (initial (gatedConfig ["check"]) DEFAULT_AUTONOMOUS_LIMITS 0) σ ∧
      σ.returns.length = 1 := by
    refine ⟨_, .tail (.tail (.tail (.tail (.tail (.tail .refl
      ⟨.nextAutonomousContinuation false true 5 "", trivial, rfl⟩)
      ⟨.captured none, trivial, rfl⟩) ⟨.ran (exited 1), trivial, rfl⟩) ⟨.captured none, trivial, rfl⟩)
      ⟨.decide, trivial, rfl⟩) ⟨.complete 7, ?_, rfl⟩, rfl⟩
    rintro _ ⟨⟩
    decide
  obtain ⟨σ, hrun, hlength⟩ := hrun
  exact ⟨σ, hrun, hlength, bounded_of_run _ _ _ σ hp hrun⟩

/-- The mode is switched off, the list of gates is replaced, or the time runs out, while a gate runs; and a gate
whose name every object has is retried for ever. -/
theorem escapes :
    (∃ σ, Runs (initial (gatedConfig ["check"]) DEFAULT_AUTONOMOUS_LIMITS 0) σ ∧ ∃ r ∈ σ.returns,
      (r.message.isSome && !r.runtime.enabled) = true) ∧
    (∃ σ, Runs (initial (gatedConfig ["check"]) DEFAULT_AUTONOMOUS_LIMITS 0) σ ∧ ∃ r ∈ σ.returns,
      (r.call.passed && r.runtime.gates.commands == ["lint"] && successes r.history == ["check"]) = true) ∧
    (∃ σ, Runs (initial (gatedConfig ["check"]) DEFAULT_AUTONOMOUS_LIMITS 0) σ ∧ ∃ r ∈ σ.returns,
      (r.message.isSome && r.runtime.autonomousLimitReason r.clock == some .timeoutMs) = true) ∧
    (∃ σ, Runs (initial (gatedConfig ["constructor"]) DEFAULT_AUTONOMOUS_LIMITS 0) σ ∧ ∃ r ∈ σ.returns,
      (r.message.isSome && failures r.history == ["constructor"] && inRow r.history "constructor" == 2 &&
        r.runtime.gates.maxRetries == 1) = true) := by
  let opening : List Action := [.nextAutonomousContinuation false true 5 "", .captured none]
  let fails : List Action := [.ran (exited 1), .captured none, .decide]
  refine ⟨?_, ?_, ?_, ?_⟩
  · exact exists_return (opening ++ [Action.setAutonomousEnabled false 6] ++ fails ++ [Action.complete 7])
      (by decide)
  · exact exists_return (opening ++ [Action.setAutonomousLimits (gatedConfig ["lint"]), .ran (exited 0),
      .captured none, .decide, .complete 7]) (by decide)
  · exact exists_return (opening ++ fails ++ [Action.complete 1800000]) (by decide)
  · exact exists_return (opening ++ fails ++ [Action.complete 7] ++ opening ++ fails ++ [Action.complete 8])
      (by decide)

end State

end Autonomous
end Core
end RePrime
