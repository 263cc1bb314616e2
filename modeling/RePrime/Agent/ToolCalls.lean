import RePrime.Agent.Loop

/-!
# RePrime.Agent.ToolCalls

What the execution of tool calls keeps and what it returns.

* `ToolInvariant`: what holds while calls are open and results come, as the events of the calls change it.
* `Answered`: the results are for the calls, in their order, and only an abort of a sequential batch leaves some out.
* `executeToolCalls_spec`: every batch keeps the invariant and is answered so.
-/

namespace RePrime
namespace Agent
namespace AgentLoopConfig

open Effect List
open ToolResultMessage

variable {σ : Type} {config : AgentLoopConfig σ}

/-- `I ids results` holds between two steps, when the calls `ids` are open and `results` are there, and `M` while a
result is announced. -/
structure ToolInvariant (config : AgentLoopConfig σ) (I : List String → List ToolResultMessage → Run σ → Prop)
    (M : ToolResultMessage → List ToolResultMessage → Run σ → Prop) (E : AgentError → Run σ → Prop) : Prop where
  stable : ∀ ids results, config.Stable (I ids results)
  stableMessage : ∀ m results, config.Stable (M m results)
  perm : ∀ ids ids' results r, ids.Perm ids' → I ids results r → I ids' results r
  start : ∀ id name args ids results r, I ids results r →
    I (id :: ids) results { r with events := r.events ++ [AgentEvent.toolExecutionStart id name args] }
  update : ∀ id name args partialResult ids results r, I (id :: ids) results r →
    I (id :: ids) results { r with events := r.events ++ [AgentEvent.toolExecutionUpdate id name args partialResult] }
  stop : ∀ id name result isError ids results r, I (id :: ids) results r →
    I ids results { r with events := r.events ++ [AgentEvent.toolExecutionEnd id name result isError] }
  openMessage : ∀ m results r, I [] results r →
    M m results { r with events := r.events ++ [AgentEvent.messageStart (.toolResult m)] }
  closeMessage : ∀ m results r, M m results r →
    I [] (results ++ [m]) { r with events := r.events ++ [AgentEvent.messageEnd (.toolResult m)] }
  throws : ∀ ids results e r, I ids results r → E e r
  throwsMessage : ∀ m results e r, M m results r → E e r

def Preparation.toolCall : Preparation → AgentToolCall
  | .prepared call => call.toolCall
  | .immediate finalized => finalized.toolCall

/-- A call that is decided is not open any more. -/
def Preparation.openIds : Preparation → List String
  | .prepared call => [call.toolCall.id]
  | .immediate _ => []

def Task.toolCall : Task → AgentToolCall
  | .executing call .. | .flushing call .. | .failing call .. | .finalizing call .. => call.toolCall
  | .ending finalized | .done finalized => finalized.toolCall

open RePrime.Agent.AgentLoopConfig.Task

/-- The call of a task that is not done is open. -/
def Task.openIds : Task → List String
  | .done _ => []
  | task => [task.toolCall.id]

def Answered (config : AgentLoopConfig σ) (calls : List AgentToolCall) (results : List ToolResultMessage)
    (r : Run σ) : Prop :=
  results.map toolCallId <+: calls.map AgentToolCall.id ∧
    (results.length = calls.length ∨ config.isSequential calls = true ∧ config.aborted r.host = true)

/-! ## What needs no invariant -/

section Stable

variable {P : Run σ → Prop} {E : AgentError → Run σ → Prop}

theorem prepareToolCall_spec (hP : config.Stable P) (assistantMessage : AssistantMessage) (toolCall : AgentToolCall) :
    Triple P (config.prepareToolCall assistantMessage toolCall) (fun preparation r =>
      P r ∧ preparation.toolCall = toolCall) E := by
  rw [prepareToolCall]
  split
  · exact Triple.pure fun r hr => ⟨hr, rfl⟩
  · refine Triple.tryCatch (F := fun _ => P) ?_ fun e => Triple.pure fun r hr => ⟨hr, rfl⟩
    refine Triple.bind (fallible_spec hP (fun _ _ h => h) _) fun args => ?_
    split
    · exact Triple.pure fun r hr => ⟨hr, rfl⟩
    · refine Triple.bind (R := fun _ => P) (Triple.get fun r hr => hr) fun r => ?_
      refine Triple.bind (raceWithAbort_spec hP (fun _ _ h => h) _) fun beforeResult => ?_
      split
      · exact Triple.pure fun r hr => ⟨hr, rfl⟩
      · exact Triple.pure fun r hr => ⟨hr, rfl⟩

theorem finalizeExecutedToolCall_spec (hP : config.Stable P) (assistantMessage : AssistantMessage)
    (call : PreparedToolCall) (result : AgentToolResult) (isError : Bool) :
    Triple P (config.finalizeExecutedToolCall assistantMessage call result isError) (fun finalized r =>
      P r ∧ finalized.toolCall = call.toolCall) E := by
  rw [finalizeExecutedToolCall]
  split
  · exact Triple.pure fun r hr => ⟨hr, rfl⟩
  · refine Triple.tryCatch (F := fun _ => P) ?_ fun e => Triple.pure fun r hr => ⟨hr, rfl⟩
    refine Triple.bind (R := fun _ => P) (Triple.get fun r hr => hr) fun r => ?_
    refine Triple.bind (raceWithAbort_spec hP (fun _ _ h => h) _) fun afterResult => ?_
    split
    · exact Triple.pure fun r hr => ⟨hr, rfl⟩
    · exact Triple.pure fun r hr => ⟨hr, rfl⟩

end Stable

/-! ## One call -/

section Calls

variable {I : List String → List ToolResultMessage → Run σ → Prop}
  {M : ToolResultMessage → List ToolResultMessage → Run σ → Prop} {E : AgentError → Run σ → Prop}
  {ids : List String} {results : List ToolResultMessage}

variable (hI : ToolInvariant config I M E)

include hI

theorem beginToolCall_spec (assistantMessage : AssistantMessage) (toolCall : AgentToolCall) :
    Triple (I ids results) (config.beginToolCall assistantMessage toolCall) (fun preparation r =>
      I (toolCall.id :: ids) results r ∧ preparation.toolCall = toolCall) E := by
  refine Triple.bind (emit_spec (hI.stable _ _) (hI.start _ _ _ ids results) ?_) fun _ => ?_
  · intro e r _ hr _
    exact hI.throws _ _ e r hr
  · exact prepareToolCall_spec (hI.stable _ _) assistantMessage toolCall

theorem emitToolExecutionEnd_spec (finalized : FinalizedToolCallOutcome) :
    Triple (I (finalized.toolCall.id :: ids) results) (config.emitToolExecutionEnd finalized)
      (fun _ => I ids results) E :=
  emit_spec (hI.stable _ _) (hI.stop _ _ _ _ ids results) fun e r _ hr _ => hI.throws _ _ e r hr

theorem emitUpdate_spec (call : PreparedToolCall) (partialResult : AgentToolResult) :
    Triple (I (call.toolCall.id :: ids) results) (config.emitUpdate call partialResult)
      (fun _ => I (call.toolCall.id :: ids) results) E := by
  refine Triple.bind signalAborted_spec fun aborted => ?_
  split
  · exact Triple.pure fun r hr => hr.1
  · refine Triple.tryCatch (F := fun _ => I (call.toolCall.id :: ids) results) ?_ fun e => Triple.pure fun r hr => hr
    refine Triple.bind (R := fun _ => I (call.toolCall.id :: ids) results) ?_ fun _ => Triple.pure fun r hr => hr
    exact (emit_spec (hI.stable _ _) (hI.update _ _ _ _ ids results) fun e r _ hr _ => hr).strengthen fun r hr => hr.1

theorem emitUpdates_spec (call : PreparedToolCall) (updates : List AgentToolResult) :
    Triple (I (call.toolCall.id :: ids) results) (config.emitUpdates call updates)
      (fun _ => I (call.toolCall.id :: ids) results) E := by
  induction updates with
  | nil => exact Triple.pure fun r hr => hr
  | cons update rest ih =>
    refine Triple.bind (emitUpdate_spec hI call update) fun failed => ?_
    exact Triple.bind ih fun later => Triple.pure fun r hr => hr

theorem startTask_spec (call : PreparedToolCall) :
    Triple (I (call.toolCall.id :: ids) results) (config.startTask call) (fun task r =>
      I (task.openIds ++ ids) results r ∧ task.toolCall = call.toolCall) E := by
  refine Triple.bind signalAborted_spec fun aborted => ?_
  split
  · exact Triple.pure fun r hr => ⟨hr.1, rfl⟩
  · refine Triple.bind (R := fun _ => I (call.toolCall.id :: ids) results) ?_ fun execution => ?_
    · exact (hook_spec (hI.stable _ _) _).strengthen fun r hr => hr.1
    · refine Triple.bind (emitUpdates_spec hI call execution.syncUpdates) fun failed => ?_
      split
      · exact Triple.pure fun r hr => ⟨hr, rfl⟩
      · refine Triple.bind signalAborted_spec fun aborted => ?_
        split
        · exact Triple.pure fun r hr => ⟨hr.1, rfl⟩
        · exact Triple.pure fun r hr => ⟨hr.1, rfl⟩

theorem stepTask_spec (assistantMessage : AssistantMessage) (task : Task) :
    Triple (I (task.openIds ++ ids) results) (config.stepTask assistantMessage task) (fun task' r =>
      I (task'.openIds ++ ids) results r ∧ task'.toolCall = task.toolCall) E := by
  cases task with
  | executing call updates outcome failed =>
    refine Triple.bind (abortWins_spec (hI.stable _ _)) fun won => ?_
    split
    · exact Triple.pure fun r hr => ⟨hr.1, rfl⟩
    · split
      · refine Triple.bind (R := fun _ => I (call.toolCall.id :: ids) results) ?_ fun failed' => ?_
        · exact (emitUpdate_spec hI call _).strengthen fun r hr => hr.1
        · exact Triple.pure fun r hr => ⟨hr, rfl⟩
      · exact Triple.pure fun r hr => ⟨hr.1, rfl⟩
      · exact Triple.pure fun r hr => ⟨hr.1, rfl⟩
      · exact Triple.pure fun r hr => ⟨hr.1, rfl⟩
  | flushing call result failed =>
    refine Triple.bind signalAborted_spec fun aborted => ?_
    split
    · exact Triple.pure fun r hr => ⟨hr.1, rfl⟩
    · refine Triple.bind ((abortWins_spec (hI.stable _ _)).strengthen fun r hr => hr.1) fun won => ?_
      split
      · exact Triple.pure fun r hr => ⟨hr.1, rfl⟩
      · split
        · exact Triple.pure fun r hr => ⟨hr.1, rfl⟩
        · refine Triple.bind signalAborted_spec fun aborted => ?_
          split
          · exact Triple.pure fun r hr => ⟨hr.1.1, rfl⟩
          · exact Triple.pure fun r hr => ⟨hr.1.1, rfl⟩
  | failing call e =>
    refine Triple.bind (abortWins_spec (hI.stable _ _)) fun won => ?_
    refine Triple.bind signalAborted_spec fun aborted => ?_
    exact Triple.pure fun r hr => ⟨hr.1.1, rfl⟩
  | finalizing call result isError =>
    refine Triple.bind (finalizeExecutedToolCall_spec (hI.stable _ _) assistantMessage call result isError)
      fun finalized => ?_
    refine Triple.pure ?_
    rintro r ⟨hr, hcall⟩
    have hids : (ending finalized).openIds = (finalizing call result isError).openIds :=
      congrArg (fun toolCall : AgentToolCall => [toolCall.id]) hcall
    exact ⟨hids ▸ hr, hcall⟩
  | ending finalized =>
    refine Triple.bind (emitToolExecutionEnd_spec hI finalized) fun _ => ?_
    exact Triple.pure fun r hr => ⟨hr, rfl⟩
  | done finalized => exact Triple.pure fun r hr => ⟨hr, rfl⟩

omit hI

theorem openIds_of_finalized {task : Task} {finalized : FinalizedToolCallOutcome}
    (h : task.finalized? = some finalized) : task.openIds = [] ∧ finalized.toolCall = task.toolCall := by
  cases task with
  | done finalized' =>
    cases h
    exact ⟨rfl, rfl⟩
  | executing | flushing | failing | finalizing | ending => cases h

theorem finishTask_spec (hI : ToolInvariant config I M E) (assistantMessage : AssistantMessage) (fuel : Nat)
    (task : Task) :
    Triple (I (task.openIds ++ ids) results) (config.finishTask assistantMessage fuel task) (fun finalized r =>
      I ids results r ∧ finalized.toolCall = task.toolCall) E := by
  induction fuel generalizing task with
  | zero => exact Triple.throw fun r hr => hI.throws _ _ _ r hr
  | succ fuel ih =>
    rw [finishTask]
    split
    · rename_i finalized hfinalized
      obtain ⟨hids, hcall⟩ := openIds_of_finalized hfinalized
      rw [hids]
      exact Triple.pure fun r hr => ⟨hr, hcall⟩
    · refine Triple.bind (stepTask_spec hI assistantMessage task) fun task' => ?_
      intro r hr
      have hfinish := ih task' r hr.1
      rw [← hr.2]
      exact hfinish

/-! ## All calls -/

theorem stepAt_spec (hI : ToolInvariant config I M E) (assistantMessage : AssistantMessage) (tasks : List Task)
    (i : Nat) :
    Triple (I (tasks.flatMap openIds ++ ids) results) (config.stepAt assistantMessage tasks i) (fun tasks' r =>
      I (tasks'.flatMap openIds ++ ids) results r ∧ tasks'.map toolCall = tasks.map toolCall) E := by
  induction tasks generalizing i ids with
  | nil => exact Triple.pure fun r hr => ⟨hr, rfl⟩
  | cons task tasks ih =>
    cases i with
    | zero =>
      refine Triple.bind (R := fun task' r => I (task'.openIds ++ (tasks.flatMap openIds ++ ids)) results r ∧
        task'.toolCall = task.toolCall) ?_ fun task' => ?_
      · refine (stepTask_spec hI assistantMessage task).strengthen fun r hr => ?_
        rw [flatMap_cons, append_assoc] at hr
        exact hr
      · refine Triple.pure ?_
        rintro r ⟨hr, hcall⟩
        rw [flatMap_cons, append_assoc, map_cons, map_cons, hcall]
        exact ⟨hr, rfl⟩
    | succ i =>
      have hswap : ∀ tasks' : List Task, (tasks'.flatMap openIds ++ (task.openIds ++ ids)).Perm
          ((task :: tasks').flatMap openIds ++ ids) := by
        intro tasks'
        rw [flatMap_cons, ← append_assoc]
        exact perm_append_comm.append_right ids
      refine Triple.bind (R := fun tasks' r => I (tasks'.flatMap openIds ++ (task.openIds ++ ids)) results r ∧
        tasks'.map toolCall = tasks.map toolCall) ?_ fun tasks' => ?_
      · exact (ih i).strengthen fun r hr => hI.perm _ _ _ r (hswap tasks).symm hr
      · refine Triple.pure ?_
        rintro r ⟨hr, hcalls⟩
        rw [map_cons, map_cons, hcalls]
        exact ⟨hI.perm _ _ _ r (hswap tasks') hr, rfl⟩

theorem openIds_of_all {tasks : List Task} {finalized : List FinalizedToolCallOutcome}
    (h : tasks.mapM finalized? = some finalized) :
    tasks.flatMap openIds = [] ∧ finalized.map FinalizedToolCallOutcome.toolCall = tasks.map toolCall := by
  induction tasks generalizing finalized with
  | nil =>
    cases h
    exact ⟨rfl, rfl⟩
  | cons task tasks ih =>
    rw [mapM_cons] at h
    obtain ⟨first, hfirst, h⟩ := Option.bind_eq_some_iff.1 h
    obtain ⟨others, hothers, h⟩ := Option.bind_eq_some_iff.1 h
    cases h
    obtain ⟨hids, hcall⟩ := openIds_of_finalized hfirst
    obtain ⟨hallIds, hcalls⟩ := ih hothers
    rw [flatMap_cons, hids, hallIds, map_cons, map_cons, hcall, hcalls]
    exact ⟨rfl, rfl⟩

variable (hI : ToolInvariant config I M E)

include hI

theorem settleAll_spec (assistantMessage : AssistantMessage) (fuel : Nat) (tasks : List Task) :
    Triple (I (tasks.flatMap openIds) results) (config.settleAll assistantMessage fuel tasks)
      (fun finalized r => I [] results r ∧
        finalized.map FinalizedToolCallOutcome.toolCall = tasks.map toolCall) E := by
  induction fuel generalizing tasks with
  | zero => exact Triple.throw fun r hr => hI.throws _ _ _ r hr
  | succ fuel ih =>
    rw [settleAll]
    split
    · rename_i finalized hfinalized
      obtain ⟨hids, hcalls⟩ := openIds_of_all hfinalized
      rw [hids]
      exact Triple.pure fun r hr => ⟨hr, hcalls⟩
    · refine Triple.bind (hook_spec (hI.stable _ _) config.schedule) fun i => ?_
      have hstep := @stepAt_spec σ config I M E [] results hI assistantMessage tasks i
      simp only [append_nil] at hstep
      refine Triple.bind hstep fun tasks' => ?_
      intro r hr
      have hsettle := ih tasks' r hr.1
      rw [← hr.2]
      exact hsettle

theorem emitToolResultMessage_spec (finalized : FinalizedToolCallOutcome) :
    Triple (I [] results) (config.emitToolResultMessage finalized) (fun message r =>
      I [] (results ++ [message]) r ∧ message.toolCallId = finalized.toolCall.id) E := by
  refine Triple.bind (hook_spec (hI.stable _ _) config.now) fun timestamp => ?_
  refine Triple.bind (emit_spec (hI.stableMessage _ _) (hI.openMessage _ results)
    fun e r _ hr _ => hI.throwsMessage _ _ e r hr) fun _ => ?_
  refine Triple.bind (emit_spec (hI.stable _ _) (hI.closeMessage _ results)
    fun e r _ hr _ => hI.throws _ _ e r hr) fun _ => ?_
  exact Triple.pure fun r hr => ⟨hr, rfl⟩

theorem executeToolCall_spec (fuel : Nat) (assistantMessage : AssistantMessage) (preparation : Preparation) :
    Triple (I (preparation.toolCall.id :: ids) results)
      (config.executeToolCall fuel assistantMessage preparation) (fun finalized r =>
        I ids results r ∧ finalized.toolCall = preparation.toolCall) E := by
  cases preparation with
  | immediate finalized =>
    refine Triple.bind (emitToolExecutionEnd_spec hI finalized) fun _ => ?_
    exact Triple.pure fun r hr => ⟨hr, rfl⟩
  | prepared call =>
    refine Triple.bind (startTask_spec hI call) fun task => ?_
    intro r hr
    have hfinish := finishTask_spec hI assistantMessage fuel task r hr.1
    rw [hr.2] at hfinish
    exact hfinish

theorem executeSequentially_spec (fuel : Nat) (assistantMessage : AssistantMessage)
    (toolCalls : List AgentToolCall) :
    Triple (I [] results) (config.executeSequentially fuel assistantMessage toolCalls) (fun executed r =>
      I [] (results ++ executed.map Prod.snd) r ∧
        (executed.map Prod.snd).map toolCallId <+: toolCalls.map AgentToolCall.id ∧
        (executed.length = toolCalls.length ∨ config.aborted r.host = true)) E := by
  induction toolCalls generalizing results with
  | nil =>
    refine Triple.pure fun r hr => ⟨?_, prefix_rfl, .inl rfl⟩
    rw [map_nil, append_nil]
    exact hr
  | cons toolCall rest ih =>
    refine Triple.bind signalAborted_spec fun aborted => ?_
    split
    · rename_i haborted
      refine Triple.pure ?_
      rintro r ⟨hr, heq⟩
      refine ⟨?_, nil_prefix, .inr (heq ▸ haborted)⟩
      rw [map_nil, append_nil]
      exact hr
    · refine Triple.bind ((beginToolCall_spec hI assistantMessage toolCall).strengthen fun r hr => hr.1)
        fun preparation => ?_
      refine Triple.bind (R := fun finalized r => I [] results r ∧ finalized.toolCall = toolCall) ?_ fun finalized => ?_
      · rintro r ⟨hr, rfl⟩
        exact executeToolCall_spec hI fuel assistantMessage preparation r hr
      refine Triple.bind (R := fun message r => I [] (results ++ [message]) r ∧ message.toolCallId = toolCall.id) ?_
        fun message => ?_
      · rintro r ⟨hr, rfl⟩
        exact emitToolResultMessage_spec hI finalized r hr
      refine Triple.bind signalAborted_spec fun aborted => ?_
      split
      · rename_i haborted
        refine Triple.pure ?_
        rintro r ⟨⟨hr, hid⟩, heq⟩
        refine ⟨hr, ?_, .inr (heq ▸ haborted)⟩
        simp [hid]
      · refine Triple.bind (R := fun others r => (I [] ((results ++ [message]) ++ others.map Prod.snd) r ∧
          (others.map Prod.snd).map toolCallId <+: rest.map AgentToolCall.id ∧
          (others.length = rest.length ∨ config.aborted r.host = true)) ∧ message.toolCallId = toolCall.id) ?_
          fun others => ?_
        · exact (Triple.keep fun _ => ih).strengthen fun r hr => hr.1
        · refine Triple.pure ?_
          rintro r ⟨⟨hr, hprefix, hlength⟩, hid⟩
          rw [append_assoc] at hr
          refine ⟨hr, ?_, hlength.imp_left fun h => congrArg (· + 1) h⟩
          rw [map_cons, map_cons, map_cons, hid]
          exact cons_prefix_cons.2 ⟨rfl, hprefix⟩

theorem prepareParallel_spec (assistantMessage : AssistantMessage) (toolCall : AgentToolCall) :
    Triple (I ids results) (config.prepareParallel assistantMessage toolCall) (fun preparation r =>
      I (preparation.openIds ++ ids) results r ∧ preparation.toolCall = toolCall) E := by
  refine Triple.bind (beginToolCall_spec hI assistantMessage toolCall) fun preparation => ?_
  cases preparation with
  | immediate finalized =>
    refine Triple.bind (R := fun _ r => I ids results r ∧ finalized.toolCall = toolCall) ?_ fun _ => ?_
    · refine Triple.keep ?_
      rintro rfl
      exact emitToolExecutionEnd_spec hI finalized
    · exact Triple.pure fun r hr => hr
  | prepared call =>
    refine Triple.pure ?_
    rintro r ⟨hr, rfl⟩
    exact ⟨hr, rfl⟩

theorem prepareAll_spec (assistantMessage : AssistantMessage) (toolCalls : List AgentToolCall) :
    Triple (I [] results) (Effect.collect (config.prepareParallel assistantMessage) toolCalls)
      (fun preparations r => I (preparations.flatMap Preparation.openIds) results r ∧
        preparations.map Preparation.toolCall = toolCalls) E := by
  have hall := @Triple.collect _ _ _ _ E (fun done preparations r =>
    I (preparations.flatMap Preparation.openIds) results r ∧ preparations.map Preparation.toolCall = done)
    (config.prepareParallel assistantMessage) toolCalls ?_
  · exact hall.strengthen fun r hr => ⟨hr, rfl⟩
  · intro done toolCall rest preparations _
    refine (Triple.keep fun _ => prepareParallel_spec hI assistantMessage toolCall).conseq (fun r hr => hr) ?_
      fun e r he => he
    rintro preparation r ⟨⟨hr, hcall⟩, hdone⟩
    rw [flatMap_append, flatMap_singleton, map_append, map_singleton, hcall, hdone]
    exact ⟨hI.perm _ _ _ r perm_append_comm hr, rfl⟩

theorem startEntry_spec (preparation : Preparation) :
    Triple (I (preparation.openIds ++ ids) results) (config.startEntry preparation) (fun task r =>
      I (task.openIds ++ ids) results r ∧ task.toolCall = preparation.toolCall) E := by
  cases preparation with
  | immediate finalized => exact Triple.pure fun r hr => ⟨hr, rfl⟩
  | prepared call => exact startTask_spec hI call

theorem startAll_spec (preparations : List Preparation) :
    Triple (I (preparations.flatMap Preparation.openIds) results) (Effect.collect config.startEntry preparations)
      (fun tasks r => I (tasks.flatMap openIds) results r ∧
        tasks.map toolCall = preparations.map Preparation.toolCall) E := by
  -- The entries that are still to be started are open too.
  have hall := @Triple.collect _ _ _ _ E (fun done tasks r =>
    (∀ rest, preparations = done ++ rest →
      I (tasks.flatMap openIds ++ rest.flatMap Preparation.openIds) results r) ∧
      tasks.map toolCall = done.map Preparation.toolCall) config.startEntry preparations ?_
  · refine hall.conseq ?_ ?_ fun e r he => he
    · intro r hr
      refine ⟨?_, rfl⟩
      rintro rest rfl
      exact hr
    · rintro tasks r ⟨hr, hcalls⟩
      have hopen := hr [] (append_nil _).symm
      rw [flatMap_nil, append_nil] at hopen
      exact ⟨hopen, hcalls⟩
  · intro done preparation rest tasks hl
    have hone := @startEntry_spec σ config I M E (tasks.flatMap openIds ++ rest.flatMap Preparation.openIds)
      results hI preparation
    have hkept := Triple.keep (p := tasks.map toolCall = done.map Preparation.toolCall) fun _ => hone
    refine hkept.conseq ?_ ?_ fun e r he => he
    · rintro r ⟨hr, hcalls⟩
      refine ⟨hI.perm _ _ _ r ?_ (hr _ hl), hcalls⟩
      rw [flatMap_cons, ← append_assoc, ← append_assoc]
      exact perm_append_comm.append_right _
    · rintro task r ⟨⟨hr, hcall⟩, hcalls⟩
      refine ⟨?_, ?_⟩
      · intro rest' hrest
        rw [hl, append_assoc, append_cancel_left_eq, singleton_append, List.cons.injEq] at hrest
        rw [← hrest.2, flatMap_append, flatMap_singleton]
        refine hI.perm _ _ _ r ?_ hr
        rw [← append_assoc]
        exact perm_append_comm.append_right _
      · rw [map_append, map_append, map_singleton, map_singleton, hcall, hcalls]

theorem emitResults_spec (finalizedCalls : List FinalizedToolCallOutcome) :
    Triple (I [] []) (Effect.collect config.emitToolResultMessage finalizedCalls) (fun messages r =>
      I [] messages r ∧ messages.map toolCallId =
        finalizedCalls.map fun finalized => finalized.toolCall.id) E := by
  have hall := @Triple.collect _ _ _ _ E (fun done messages r => I [] messages r ∧
    messages.map toolCallId = done.map fun finalized : FinalizedToolCallOutcome => finalized.toolCall.id)
    config.emitToolResultMessage finalizedCalls ?_
  · exact hall.strengthen fun r hr => ⟨hr, rfl⟩
  · intro done finalized rest messages _
    refine (Triple.keep fun _ => emitToolResultMessage_spec hI finalized).conseq (fun r hr => hr) ?_ fun e r he => he
    rintro message r ⟨⟨hr, hid⟩, hids⟩
    rw [map_append, map_append, map_singleton, map_singleton, hid, hids]
    exact ⟨hr, rfl⟩

theorem executeToolCallsParallel_spec (fuel : Nat)
    (assistantMessage : AssistantMessage) (toolCalls : List AgentToolCall) :
    Triple (I [] []) (config.executeToolCallsParallel fuel assistantMessage toolCalls) (fun batch r =>
      I [] batch.messages r ∧
        batch.messages.map toolCallId = toolCalls.map AgentToolCall.id) E := by
  refine Triple.bind (prepareAll_spec hI assistantMessage toolCalls) fun preparations => ?_
  refine Triple.bind (Triple.keep fun _ => startAll_spec hI preparations) fun tasks => ?_
  refine Triple.bind (R := fun finalizedCalls r => I [] [] r ∧
    finalizedCalls.map FinalizedToolCallOutcome.toolCall = toolCalls) ?_ fun finalizedCalls => ?_
  · refine (Triple.keep fun _ => settleAll_spec hI assistantMessage fuel tasks).conseq
      (P := fun r => I (tasks.flatMap openIds) [] r ∧ tasks.map toolCall = toolCalls) ?_ ?_ fun e r he => he
    · rintro r ⟨⟨hr, htasks⟩, hcalls⟩
      exact ⟨hr, htasks.trans hcalls⟩
    · rintro finalizedCalls r ⟨⟨hr, hfinalized⟩, htasks⟩
      exact ⟨hr, hfinalized.trans htasks⟩
  refine Triple.bind (Triple.keep fun _ => emitResults_spec hI finalizedCalls) fun messages => ?_
  refine Triple.pure ?_
  rintro r ⟨⟨hr, hids⟩, hcalls⟩
  refine ⟨hr, ?_⟩
  rw [hids, ← hcalls, map_map]
  rfl

theorem executeToolCalls_spec (fuel : Nat) (assistantMessage : AssistantMessage) :
    Triple (I [] []) (config.executeToolCalls fuel assistantMessage) (fun batch r =>
      I [] batch.messages r ∧ Answered config assistantMessage.toolCalls batch.messages r) E := by
  rw [executeToolCalls]
  split
  · rename_i hsequential
    refine Triple.bind (executeSequentially_spec hI fuel assistantMessage _) fun executed => ?_
    refine Triple.pure ?_
    rintro r ⟨hr, hids, hlength⟩
    rw [nil_append] at hr
    refine ⟨hr, hids, hlength.imp ?_ fun haborted => ⟨hsequential, haborted⟩⟩
    intro hlength
    rw [length_map, hlength]
  · refine (executeToolCallsParallel_spec hI fuel assistantMessage _).conseq (fun r hr => hr) ?_ fun e r he => he
    rintro batch r ⟨hr, hids⟩
    refine ⟨hr, hids ▸ prefix_rfl, .inl ?_⟩
    have hlength := congrArg List.length hids
    rwa [length_map, length_map] at hlength

end Calls

end AgentLoopConfig
end Agent
end RePrime
