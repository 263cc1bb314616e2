import Mathlib.Data.List.Induction
import RePrime.Agent.State

/-!
# RePrime.Agent.Brackets

How the events of a run are bracketed, and what follows of them.

* `Bracket.step`: what an event opens and closes. `scan` is the state after a list of events.
* `WellBracketed.last`: after the end of the run nothing comes.
* `marks_of_scan`: every message that is announced has one start and one end.
* `processEvents_messages`: the messages of the agent are the announced ones.
-/

namespace RePrime
namespace Agent

open List Option

/-! ## Brackets -/

/-- What is open. -/
structure Bracket where
  started : Bool
  turnOpen : Bool
  message : Option Role
  tools : List String
  ended : Bool
  deriving DecidableEq

open RePrime.Agent.Bracket

namespace Bracket

def init : Bracket := ⟨false, false, none, [], false⟩

def idle : Bracket := ⟨true, false, none, [], false⟩

def inTurn : Bracket := ⟨true, true, none, [], false⟩

def finished : Bracket := ⟨true, false, none, [], true⟩

def inMessage (role : Role) : Bracket := { inTurn with message := some role }

def inTools (ids : List String) : Bracket := { inTurn with tools := ids }

/-- The run goes on, and no message and no tool call is open. -/
def quiet (b : Bracket) : Bool := b.started && !b.ended && b.message.isNone && b.tools.isEmpty

/-- `none` when the event must not come now. -/
def step (b : Bracket) : AgentEvent → Option Bracket
  | .agentStart => if b.started then none else some { b with started := true }
  | .agentEnd _ => if b.quiet && !b.turnOpen then some { b with ended := true } else none
  | .turnStart => if b.quiet && !b.turnOpen then some { b with turnOpen := true } else none
  | .turnEnd .. => if b.quiet && b.turnOpen then some { b with turnOpen := false } else none
  | .reflex .. => if b.quiet then some b else none
  | .messageStart m => if b.quiet && b.turnOpen then some { b with message := some m.role } else none
  | .messageUpdate m => if b.message = some m.role then some b else none
  | .messageEnd m => if b.message = some m.role then some { b with message := none } else none
  | .toolExecutionStart id .. =>
    if b.turnOpen && b.message.isNone then some { b with tools := id :: b.tools } else none
  | .toolExecutionUpdate id .. => if id ∈ b.tools then some b else none
  | .toolExecutionEnd id .. => if id ∈ b.tools then some { b with tools := b.tools.erase id } else none

end Bracket

def scan (events : List AgentEvent) : Option Bracket := events.foldlM step .init

/-- Everything that was opened is closed, the last event is the end of the run, and there is one such event. -/
def WellBracketed (events : List AgentEvent) : Prop := ∃ b, scan events = some b ∧ b.ended = true

instance (events : List AgentEvent) : Decidable (WellBracketed events) :=
  match h : scan events with
  | none => isFalse (by rintro ⟨b, hb, -⟩; rw [h] at hb; cases hb)
  | some b => decidable_of_iff (b.ended = true) ⟨fun hb => ⟨b, h, hb⟩, by
      rintro ⟨b', hb', hended⟩
      rw [h] at hb'
      cases hb'
      exact hended⟩

def AgentEvent.announced? : AgentEvent → Option AgentMessage
  | .messageEnd m => some m
  | _ => none

open AgentEvent

def announced (events : List AgentEvent) : List AgentMessage := events.filterMap announced?

theorem scan_append {events : List AgentEvent} {b : Bracket} (h : scan events = some b) (event : AgentEvent) :
    scan (events ++ [event]) = b.step event := by
  rw [scan] at h
  rw [scan, foldlM_append, h]
  simp

theorem scan_concat {events : List AgentEvent} {event : AgentEvent} {b : Bracket}
    (h : scan (events ++ [event]) = some b) : ∃ b', scan events = some b' ∧ b'.step event = some b := by
  rw [scan, foldlM_append] at h
  obtain ⟨b', hb', hstep⟩ := bind_eq_some_iff.1 h
  refine ⟨b', hb', ?_⟩
  simpa using hstep

theorem announced_append (events : List AgentEvent) (event : AgentEvent) :
    announced (events ++ [event]) = announced events ++ event.announced?.toList := by
  rw [announced, filterMap_append]
  cases h : event.announced? <;> simp [announced, h]

/-! ## What the events say -/

section Events

variable {events : List AgentEvent} {b b' : Bracket}

theorem Bracket.step_finished (event : AgentEvent) : finished.step event = none := by
  cases event <;> rfl

/-- Only the end of the run ends it, and then nothing is open. -/
theorem Bracket.step_ended {event : AgentEvent} (h : b.step event = some b') (hended : b'.ended = true) :
    b.ended = true ∨ b = .idle ∧ b' = .finished ∧ ∃ new, event = .agentEnd new := by
  cases event with
  | agentEnd new =>
    obtain ⟨started, turnOpen, message, tools, ended⟩ := b
    simp only [step] at h
    split at h
    · rename_i hquiet
      cases h
      simp only [quiet, Bool.and_eq_true, Bool.not_eq_true', isNone_iff_eq_none, List.isEmpty_iff] at hquiet
      obtain ⟨⟨⟨⟨rfl, rfl⟩, rfl⟩, rfl⟩, rfl⟩ := hquiet
      exact .inr ⟨rfl, rfl, new, rfl⟩
    · cases h
  | agentStart =>
    left
    simp only [step] at h
    split at h
    · cases h
    · cases h
      exact hended
  | turnStart | turnEnd | reflex | messageStart | messageUpdate | messageEnd | toolExecutionStart
  | toolExecutionUpdate | toolExecutionEnd =>
    left
    simp only [step] at h
    split at h
    · cases h
      exact hended
    · cases h

theorem scan_ended (h : scan events = some b) (hended : b.ended = true) :
    b = .finished ∧ ∃ earlier new, events = earlier ++ [agentEnd new] ∧ scan earlier = some .idle := by
  induction events using reverseRecOn generalizing b with
  | nil =>
    cases h
    cases hended
  | append_singleton events event ih =>
    obtain ⟨b', hb', hstep⟩ := scan_concat h
    obtain hended' | ⟨rfl, rfl, new, rfl⟩ := step_ended hstep hended
    · obtain ⟨rfl, -⟩ := ih hb' hended'
      rw [step_finished] at hstep
      cases hstep
    · exact ⟨rfl, events, new, rfl, hb'⟩

theorem scan_agentEnd {new : List AgentMessage} (h : scan events = some b) (hmem : .agentEnd new ∈ events) :
    b.ended = true := by
  induction events using reverseRecOn generalizing b with
  | nil => cases hmem
  | append_singleton events event ih =>
    obtain ⟨b', hb', hstep⟩ := scan_concat h
    obtain hmem | hmem := mem_append.1 hmem
    · obtain ⟨rfl, -⟩ := scan_ended hb' (ih hb' hmem)
      rw [step_finished] at hstep
      cases hstep
    · rw [mem_singleton] at hmem
      subst hmem
      simp only [step] at hstep
      split at hstep
      · cases hstep
        rfl
      · cases hstep

/-- A message of a role, to close one that is open. -/
def someMessage : Role → AgentMessage
  | .user => .user 0 []
  | .custom => .custom 0 []
  | .assistant => .assistant ⟨[], "", "", "", EMPTY_USAGE, .stop, none, 0⟩
  | .toolResult => .toolResult ⟨"", "", [], "", false, 0⟩

theorem role_someMessage (role : Role) : (someMessage role).role = role := by
  cases role <;> rfl

theorem foldlM_closeTools (b : Bracket) :
    (b.tools.map fun id => toolExecutionEnd id "" ⟨[], "", none⟩ false).foldlM step b =
      some { b with tools := [] } := by
  obtain ⟨started, turnOpen, message, tools, ended⟩ := b
  induction tools with
  | nil => rfl
  | cons id ids ih =>
    rw [map_cons, foldlM_cons]
    have hstep : step ⟨started, turnOpen, message, id :: ids, ended⟩
        (.toolExecutionEnd id "" ⟨[], "", none⟩ false) = some ⟨started, turnOpen, message, ids, ended⟩ := by
      simp [step]
    rw [hstep]
    exact ih

theorem exists_wellBracketed (h : scan events = some b) (hended : b.ended = false) :
    ∃ rest, WellBracketed (events ++ rest) := by
  have hscan : ∀ (rest : List AgentEvent) b', rest.foldlM step b = some b' → scan (events ++ rest) = some b' := by
    intro rest b' hrest
    rw [scan] at h
    rw [scan, foldlM_append, h]
    exact hrest
  obtain ⟨started, turnOpen, message, tools, ended⟩ := b
  cases hended
  have hmessage : ∃ rest : List AgentEvent, rest.foldlM step ⟨started, turnOpen, message, tools, false⟩ =
      some ⟨started, turnOpen, none, tools, false⟩ := by
    cases message with
    | none => exact ⟨[], rfl⟩
    | some role => exact ⟨[.messageEnd (someMessage role)], by simp [step, role_someMessage]⟩
  have hstarted : ∃ rest : List AgentEvent, rest.foldlM step ⟨started, turnOpen, none, [], false⟩ =
      some ⟨true, turnOpen, none, [], false⟩ := by
    cases started with
    | true => exact ⟨[], rfl⟩
    | false => exact ⟨[.agentStart], rfl⟩
  have hturn : ∃ rest : List AgentEvent, rest.foldlM step ⟨true, turnOpen, none, [], false⟩ = some .finished := by
    cases turnOpen with
    | true => exact ⟨[.turnEnd (someMessage .user) [], .agentEnd []], rfl⟩
    | false => exact ⟨[.agentEnd []], rfl⟩
  obtain ⟨closeMessage, hmessage⟩ := hmessage
  obtain ⟨begin', hstarted⟩ := hstarted
  obtain ⟨closeTurn, hturn⟩ := hturn
  have htools := foldlM_closeTools ⟨started, turnOpen, none, tools, false⟩
  refine ⟨closeMessage ++ (tools.map (fun id => toolExecutionEnd id "" ⟨[], "", none⟩ false) ++
    (begin' ++ closeTurn)), .finished, hscan _ _ ?_, rfl⟩
  rw [foldlM_append, hmessage, bind_eq_bind, bind_some, foldlM_append, htools,
    bind_eq_bind, bind_some, foldlM_append, hstarted, bind_eq_bind, bind_some, hturn]

/-- Starts and ends of messages. -/
def AgentEvent.mark? : AgentEvent → Option (Bool × Role)
  | .messageStart m => some (true, m.role)
  | .messageEnd m => some (false, m.role)
  | _ => none

def marks (events : List AgentEvent) : List (Bool × Role) := events.filterMap mark?

/-- Every message that is announced has one start and one end, and nothing of another message comes between. -/
theorem marks_of_scan (h : scan events = some b) :
    marks events = (announced events).flatMap (fun m => [(true, m.role), (false, m.role)]) ++
      b.message.toList.map fun role => (true, role) := by
  induction events using reverseRecOn generalizing b with
  | nil =>
    cases h
    rfl
  | append_singleton events event ih =>
    obtain ⟨b', hb', hstep⟩ := scan_concat h
    have hmarks := ih hb'
    rw [marks] at hmarks
    rw [marks, filterMap_append, hmarks, announced_append, flatMap_append, append_assoc, append_assoc,
      append_cancel_left_eq]
    cases event with
    | messageStart m =>
      simp only [step] at hstep
      split at hstep
      · rename_i hquiet
        cases hstep
        simp only [quiet, Bool.and_eq_true, isNone_iff_eq_none] at hquiet
        rw [hquiet.1.1.2]
        rfl
      · cases hstep
    | messageEnd m =>
      simp only [step] at hstep
      split at hstep
      · rename_i hmessage
        cases hstep
        rw [hmessage]
        rfl
      · cases hstep
    | agentStart =>
      simp only [step] at hstep
      split at hstep
      · cases hstep
      · cases hstep
        simp [mark?, announced?]
    | agentEnd | turnStart | turnEnd | reflex | messageUpdate | toolExecutionStart | toolExecutionUpdate
    | toolExecutionEnd =>
      simp only [step] at hstep
      split at hstep
      · cases hstep
        simp [mark?, announced?]
      · cases hstep

theorem processEvents_messages (s : AgentState) (events : List AgentEvent) :
    (s.processEvents events).messages = s.messages ++ announced events := by
  induction events using reverseRecOn with
  | nil => exact (append_nil _).symm
  | append_singleton events event ih =>
    have hlast : ∀ s : AgentState, (s.processEvent event).messages = s.messages ++ event.announced?.toList := by
      intro s
      cases event with
      | messageEnd m => rfl
      | turnEnd m results =>
        cases m with
        | assistant m =>
          rw [AgentState.processEvent]
          split <;> exact (append_nil _).symm
        | user | custom | toolResult => exact (append_nil _).symm
      | agentStart | agentEnd | turnStart | reflex | messageStart | messageUpdate | toolExecutionStart
      | toolExecutionUpdate | toolExecutionEnd => exact (append_nil _).symm
    rw [AgentState.processEvents] at ih
    rw [AgentState.processEvents, foldl_append, foldl_cons, foldl_nil, hlast, ih, announced_append, append_assoc]

end Events

end Agent
end RePrime
