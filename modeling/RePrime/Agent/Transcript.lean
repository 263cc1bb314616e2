import RePrime.Agent.Brackets
import RePrime.Agent.ToolCalls

/-!
# RePrime.Agent.Transcript

How the events of a run agree with its messages, its context and the state of the agent.

* `Holds`: the events, the messages that were announced and the context at a point of the loop.
* `Undisturbed`: the sink does not break into the end of a response, and a response starts once.
* `bracketed_of_run`: the events of a run that returns are well bracketed.
* `agreement_of_end`: a run that is undisturbed announces what it returns.
-/

namespace RePrime
namespace Agent

open List
open AgentMessage

namespace AgentLoopConfig

open Effect

variable {σ : Type} {config : AgentLoopConfig σ} {initial new : List AgentMessage}

/-! ## A point of the loop -/

/-- `new` are the messages of the run, `ends` were announced besides, and the context has `context` besides. -/
structure Holds (initial new : List AgentMessage) (b : Bracket) (ends context : List AgentMessage) (r : Run σ) :
    Prop where
  scanned : scan r.events = some b
  announced : announced r.events = new ++ ends
  context : r.context = initial ++ new ++ context

/-- The run is over, and what it announced agrees with what it returns. -/
structure Ended (initial new : List AgentMessage) (r : Run σ) : Prop extends Holds initial new .finished [] [] r where
  last : ∃ earlier, r.events = earlier ++ [AgentEvent.agentEnd new]

/-- The sink never throws. -/
def SinkTotal (config : AgentLoopConfig σ) : Prop :=
  ∀ event s e s', (config.sink event).ask s ≠ (.error e, s')

/-- What is left when the run throws. If it is over nevertheless, the sink has thrown at its last event. -/
def Rejected (config : AgentLoopConfig σ) (initial : List AgentMessage) (_ : AgentError) (r : Run σ) : Prop :=
  ∃ b, scan r.events = some b ∧ (b.ended = true → ¬ config.SinkTotal ∧ ∃ new, Ended initial new r)

def isStart : AssistantMessageEvent → Bool
  | .start _ => true
  | _ => false

/-- A response of the provider starts once. -/
def StartsOnce (config : AgentLoopConfig σ) : Prop :=
  ∀ systemPrompt messages apiKey s response s',
    (config.streamFn systemPrompt messages apiKey).ask s = (.resolved response, s') →
    response.events.countP isStart ≤ 1

/-- The sink throws no abort error, while the signal is aborted, at the end of a response or at the late start of one,
and a response starts once. -/
structure Undisturbed (config : AgentLoopConfig σ) : Prop where
  ends : ∀ m s e s', (config.sink (.messageEnd (.assistant m))).ask s = (.error e, s') → e.isAbortError = true →
    config.aborted s' = false
  starts : (∀ m s e s', (config.sink (.messageStart (.assistant m))).ask s = (.error e, s') → e.isAbortError = true →
    config.aborted s' = false) ∨
    ∀ systemPrompt messages apiKey s response s',
      (config.streamFn systemPrompt messages apiKey).ask s = (.resolved response, s') →
      ∃ m rest, response.events = .start m :: rest
  once : config.StartsOnce

section Emit

variable {b b' : Bracket} {ends context : List AgentMessage} {E : AgentError → Run σ → Prop}

theorem holds_stable : config.Stable (Holds initial new b ends context : Run σ → Prop) :=
  fun _ _ _ h => ⟨h.scanned, h.announced, h.context⟩

theorem Holds.emitted {r : Run σ} (h : Holds initial new b ends context r) (event : AgentEvent)
    (hstep : b.step event = some b') :
    Holds initial new b' (ends ++ event.announced?.toList) context { r with events := r.events ++ [event] } := by
  refine ⟨?_, ?_, h.context⟩
  · exact (scan_append h.scanned event).trans hstep
  · rw [announced_append, h.announced, append_assoc]

theorem Holds.silent {r : Run σ} (h : Holds initial new b ends context r) (event : AgentEvent)
    (hnone : event.announced? = none) (hstep : b.step event = some b') :
    Holds initial new b' ends context { r with events := r.events ++ [event] } := by
  have hemitted := h.emitted event hstep
  rw [hnone, Option.toList_none, append_nil] at hemitted
  exact hemitted

theorem Holds.rejected {r : Run σ} (h : Holds initial new b ends context r) (hb : b.ended = false) (e : AgentError) :
    Rejected config initial e r := by
  refine ⟨b, h.scanned, ?_⟩
  intro hended
  rw [hb] at hended
  cases hended

theorem emit_holds {event : AgentEvent} (hstep : b.step event = some b') (hnone : event.announced? = none)
    (hb : b'.ended = false) :
    Triple (Holds initial new b ends context) (config.emit event) (fun _ => Holds initial new b' ends context)
      (Rejected config initial) := by
  refine emit_spec holds_stable ?_ fun e r _ hr _ => hr.rejected hb e
  intro r hr
  exact hr.silent event hnone hstep

theorem emit_end_holds {m : AgentMessage} (hmessage : b.message = some m.role) (hb : b.ended = false) :
    Triple (Holds initial new b ends context) (config.emit (.messageEnd m))
      (fun _ => Holds initial new { b with message := none } (ends ++ [m]) context) (Rejected config initial) := by
  refine emit_spec holds_stable ?_ fun e r _ hr _ => hr.rejected hb e
  intro r hr
  exact hr.emitted (.messageEnd m) (if_pos hmessage)

theorem endRun_spec (new : List AgentMessage) : Triple (Holds initial new .idle [] []) (config.endRun new)
      (fun progress r => progress = .ended new ∧ Ended initial new r) (Rejected config initial) := by
  refine Triple.bind (R := fun _ => Ended initial new) ?_ fun _ => Triple.pure fun r hr => ⟨rfl, hr⟩
  refine emit_spec ?_ ?_ ?_
  · intro r host _ hr
    exact ⟨⟨hr.scanned, hr.announced, hr.context⟩, hr.last⟩
  · intro r hr
    exact ⟨hr.silent (.agentEnd new) rfl rfl, r.events, rfl⟩
  · intro e r s hr hsink
    exact ⟨.finished, hr.scanned, fun _ => ⟨fun htotal => htotal _ _ _ _ hsink, new, hr⟩⟩

end Emit

/-! ## Tool calls -/

/-- While tool calls are open. -/
def Tools (initial new ends : List AgentMessage) (ids : List String) (results : List ToolResultMessage) (r : Run σ) :
    Prop :=
  ∃ open', open'.Perm ids ∧ Holds initial new (.inTools open') (ends ++ results.map .toolResult) ends r

theorem tools_invariant (config : AgentLoopConfig σ) (initial new ends : List AgentMessage) :
    ToolInvariant config (Tools initial new ends) (fun _ results => Holds initial new (.inMessage .toolResult)
        (ends ++ results.map .toolResult) ends) (Rejected config initial) where
  stable := by
    rintro ids results r host haborted ⟨open', hperm, hr⟩
    exact ⟨open', hperm, (holds_stable : config.Stable _) r host haborted hr⟩
  stableMessage := fun _ _ => holds_stable
  perm := by
    rintro ids ids' results r hids ⟨open', hperm, hr⟩
    exact ⟨open', hperm.trans hids, hr⟩
  start := by
    rintro id name args ids results r ⟨open', hperm, hr⟩
    exact ⟨id :: open', hperm.cons id, hr.silent (.toolExecutionStart id name args) rfl rfl⟩
  update := by
    rintro id name args partialResult ids results r ⟨open', hperm, hr⟩
    have hmem : id ∈ open' := hperm.mem_iff.2 mem_cons_self
    exact ⟨open', hperm, hr.silent (.toolExecutionUpdate id name args partialResult) rfl (if_pos hmem)⟩
  stop := by
    rintro id name result isError ids results r ⟨open', hperm, hr⟩
    have hmem : id ∈ open' := hperm.mem_iff.2 mem_cons_self
    refine ⟨open'.erase id, ?_, hr.silent (.toolExecutionEnd id name result isError) rfl (if_pos hmem)⟩
    have herase := hperm.erase id
    rwa [erase_cons_head] at herase
  openMessage := by
    rintro m results r ⟨open', hperm, hr⟩
    obtain rfl := hperm.eq_nil
    exact hr.silent (.messageStart (.toolResult m)) rfl rfl
  closeMessage := by
    intro m results r hr
    have hemitted : Holds initial new (.inTools []) _ ends _ := hr.emitted (.messageEnd (.toolResult m)) rfl
    rw [append_assoc] at hemitted
    refine ⟨[], List.Perm.nil, ?_⟩
    rw [map_append, map_singleton]
    exact hemitted
  throws := by
    rintro ids results e r ⟨open', -, hr⟩
    exact hr.rejected rfl e
  throwsMessage := fun _ _ e _ hr => hr.rejected rfl e

/-! ## One response -/

/-- While a response comes, with `p` as far as it has come. -/
structure Streaming (initial new : List AgentMessage) (p : Option AssistantMessage) (r : Run σ) : Prop where
  eq : r.partialMessage = p
  holds : Holds initial new (if p.isSome then .inMessage .assistant else .inTurn) []
    (p.toList.map assistant) r

/-- What is thrown while a response comes: the response is aborted, or the run is not. -/
def Broken (config : AgentLoopConfig σ) (initial new : List AgentMessage) (e : AgentError) (r : Run σ) : Prop :=
  (∃ p, Streaming initial new p r) ∨
    Rejected config initial e r ∧ (e.isAbortError = true → config.aborted r.host = false)

section Response

variable {p : Option AssistantMessage} {m : AssistantMessage} {E : AgentError → Run σ → Prop}

theorem streaming_stable : config.Stable (Streaming initial new p : Run σ → Prop) :=
  fun r host haborted h => ⟨h.eq, (holds_stable : config.Stable _) r host haborted h.holds⟩

theorem Streaming.broken {r : Run σ} (h : Streaming initial new p r) (e : AgentError) : Broken config initial new e r :=
  .inl ⟨p, h⟩

theorem startMessage_spec :
    Triple (Streaming initial new none) (config.startMessage m) (fun _ => Streaming initial new (some m))
      (Broken config initial new) := by
  refine Triple.bind (R := fun _ r => r.partialMessage = some m ∧ Holds initial new .inTurn [] [] r) ?_ fun _ => ?_
  · exact Triple.modify fun r hr => ⟨rfl, hr.holds.scanned, hr.holds.announced, hr.holds.context⟩
  refine Triple.bind (R := fun _ r => r.partialMessage = some m ∧ Holds initial new .inTurn [] [.assistant m] r) ?_
    fun _ => ?_
  · refine Triple.modify fun r hr => ⟨hr.1, hr.2.scanned, hr.2.announced, ?_⟩
    show r.context ++ [assistant m] = _
    rw [hr.2.context, append_nil]
  · refine emit_spec streaming_stable ?_ fun e r _ hr _ => hr.broken e
    intro r hr
    exact ⟨hr.1, hr.2.silent (.messageStart (.assistant m)) rfl rfl⟩

theorem replaceLast_spec {q : AssistantMessage} {b : Bracket} {ends : List AgentMessage}
    (E : AgentError → Run σ → Prop) :
    Triple (Holds initial new b ends [.assistant q]) (replaceLast (.assistant m) : Loop σ Unit)
      (fun _ => Holds initial new b ends [.assistant m]) E := by
  refine Triple.modify fun r hr => ⟨hr.scanned, hr.announced, ?_⟩
  show r.context.dropLast ++ [assistant m] = _
  rw [hr.context, dropLast_concat]

theorem updateMessage_spec : Triple (Streaming initial new p) (config.updateMessage m)
      (fun _ r => ∃ p', p'.isSome = p.isSome ∧ Streaming initial new p' r) (Broken config initial new) := by
  refine Triple.bind (R := fun r' r => r'.partialMessage = p ∧ Streaming initial new p r)
    (Triple.get fun r hr => ⟨hr.eq, hr⟩) fun r' => ?_
  cases p with
  | none =>
    rintro r ⟨hr', hr⟩
    rw [hr']
    exact ⟨none, rfl, hr⟩
  | some q =>
    rintro r ⟨hr', hr⟩
    rw [hr']
    have hmodified : Triple (Streaming initial new (some q)) (do
        modify fun r : Run σ => { r with partialMessage := some m }
        replaceLast (.assistant m)
        config.emit (.messageUpdate (.assistant m))) (fun _ => Streaming initial new (some m))
        (Broken config initial new) := by
      refine Triple.bind (R := fun _ r => Holds initial new (.inMessage .assistant) [] [.assistant q] r ∧
        r.partialMessage = some m) ?_ fun _ => ?_
      · exact Triple.modify fun r hr => ⟨⟨hr.holds.scanned, hr.holds.announced, hr.holds.context⟩, rfl⟩
      refine Triple.bind (R := fun _ r => Holds initial new (.inMessage .assistant) [] [.assistant m] r ∧
        r.partialMessage = some m) ?_ fun _ => ?_
      · refine Triple.modify fun r hr => ⟨⟨hr.1.scanned, hr.1.announced, ?_⟩, hr.2⟩
        show r.context.dropLast ++ [assistant m] = _
        have hlast : (initial ++ new ++ [assistant q]).dropLast = initial ++ new := dropLast_concat
        rw [hr.1.context, hlast]
      · refine emit_spec streaming_stable ?_ fun e r _ hr _ => hr.broken e
        intro r hr
        exact ⟨hr.2, hr.1.silent (.messageUpdate (.assistant m)) rfl rfl⟩
    have hone := hmodified r hr
    simp only [Option.isSome_some, if_true]
    split <;> rename_i hrun <;> rw [hrun] at hone
    · exact ⟨some m, rfl, hone⟩
    · exact hone

theorem finishMessage_spec
    (hstart : p = none → ∀ e r s, Holds initial new (.inMessage .assistant) [] [.assistant m] r →
      (config.sink (.messageStart (.assistant m))).ask s = (.error e, r.host) → E e r)
    (hend : ∀ e r s, Holds initial new .inTurn [.assistant m] [.assistant m] r →
      (config.sink (.messageEnd (.assistant m))).ask s = (.error e, r.host) → E e r) :
    Triple (Streaming initial new p) (config.finishMessage m) (fun m' r =>
      m' = m ∧ Holds initial new .inTurn [.assistant m] [.assistant m] r) E := by
  refine Triple.bind (R := fun _ => Holds initial new (.inMessage .assistant) [] [.assistant m]) ?_ fun _ => ?_
  · refine Triple.bind (R := fun r' r => r'.partialMessage = p ∧ Streaming initial new p r)
      (Triple.get fun r hr => ⟨hr.eq, hr⟩) fun r' => ?_
    rintro r ⟨hr', hr⟩
    rw [hr']
    cases p with
    | none =>
      have hplaced : Triple (Streaming initial new none) (do
          pushContext (.assistant m)
          config.emit (.messageStart (.assistant m)))
          (fun _ => Holds initial new (.inMessage .assistant) [] [.assistant m]) E := by
        refine Triple.bind (R := fun _ => Holds initial new .inTurn [] [.assistant m]) ?_ fun _ => ?_
        · refine Triple.modify fun r hr => ⟨hr.holds.scanned, hr.holds.announced, ?_⟩
          show r.context ++ [assistant m] = _
          rw [hr.holds.context]
          simp
        · exact emit_spec holds_stable (fun r hr => hr.silent (.messageStart (.assistant m)) rfl rfl) (hstart rfl)
      exact hplaced r hr
    | some q => exact replaceLast_spec E r hr.holds
  · refine Triple.bind (R := fun _ => Holds initial new .inTurn [.assistant m] [.assistant m]) ?_ fun _ => ?_
    · exact emit_spec holds_stable (fun r hr => hr.emitted (.messageEnd (.assistant m)) rfl) hend
    · exact Triple.pure fun r hr => ⟨rfl, hr⟩

theorem finishAbortedMessage_spec : Triple (Streaming initial new p) config.finishAbortedMessage (fun m r =>
      Holds initial new .inTurn [.assistant m] [.assistant m] r) (Rejected config initial) := by
  refine Triple.bind (R := fun _ => Streaming initial new p) (Triple.get fun r hr => hr) fun r => ?_
  refine Triple.bind (hook_spec streaming_stable config.now) fun timestamp => ?_
  refine (finishMessage_spec (fun _ e r _ hr _ => hr.rejected rfl e) fun e r _ hr _ => hr.rejected rfl e).conseq
    (fun r hr => hr) ?_ fun e r he => he
  rintro m r ⟨rfl, hr⟩
  exact hr

/-- What the rest of a response may still do. -/
structure Ready (config : AgentLoopConfig σ) (p : Option AssistantMessage) (rest : List AssistantMessageEvent) :
    Prop where
  once : rest.countP isStart ≤ 1
  started : p.isSome = true → rest.countP isStart = 0
  late : p = none → (∀ m s e s', (config.sink (.messageStart (.assistant m))).ask s = (.error e, s') →
    e.isAbortError = true → config.aborted s' = false) ∨ ∃ m rest', rest = .start m :: rest'

theorem Ready.tail {event : AssistantMessageEvent} {rest : List AssistantMessageEvent}
    (h : Ready config p (event :: rest))
    (hevent : isStart event = false) {p' : Option AssistantMessage} (hp : p'.isSome = p.isSome) :
    Ready config p' rest := by
  have hcount : (event :: rest).countP isStart = rest.countP isStart := countP_cons_of_neg (by simp [hevent])
  refine ⟨hcount ▸ h.once, fun hsome => hcount ▸ h.started (hp ▸ hsome), ?_⟩
  rintro rfl
  have hnone : p = none := by
    rw [← Option.isNone_iff_eq_none, ← Option.not_isSome, ← hp]
    rfl
  refine .inl ?_
  obtain hlate | ⟨m, rest', heq⟩ := h.late hnone
  · exact hlate
  · cases heq
    cases hevent

theorem Ready.begun {rest : List AssistantMessageEvent} (h : Ready config p (.start m :: rest)) :
    p = none ∧ Ready config (some m) rest := by
  have hcount : (.start m :: rest : List AssistantMessageEvent).countP isStart = rest.countP isStart + 1 :=
    countP_cons_of_pos rfl
  have honce := h.once
  have hnone : p = none := by
    cases p with
    | none => rfl
    | some q =>
      have hstarted := h.started rfl
      omega
  refine ⟨hnone, by omega, fun _ => by omega, ?_⟩
  intro hp
  cases hp

theorem terminalMessage_spec {P : Run σ → Prop} (hP : config.Stable P) (hE : ∀ e r, P r → E e r)
    (result : Outcome AssistantMessage) : Triple P (config.terminalMessage m result) (fun _ => P) E := by
  refine Triple.tryCatch (waitWithAbort_spec hP (fun _ _ h => h) result) fun e => ?_
  refine Triple.bind signalAborted_spec fun aborted => ?_
  split
  · exact Triple.pure fun r hr => hr.1
  · exact Triple.throw fun r hr => hE e r hr.1

theorem finishStreaming_spec (hconfig : Undisturbed config)
    (hlate : p = none → ∀ m s e s', (config.sink (.messageStart (.assistant m))).ask s = (.error e, s') →
      e.isAbortError = true → config.aborted s' = false) :
    Triple (Streaming initial new p) (config.finishMessage m) (fun m r =>
      Holds initial new .inTurn [.assistant m] [.assistant m] r) (Broken config initial new) := by
  refine (finishMessage_spec ?_ ?_).conseq (fun r hr => hr) ?_ fun e r he => he
  · intro hnone e r s hr hsink
    exact .inr ⟨hr.rejected rfl e, hlate hnone m s e _ hsink⟩
  · intro e r s hr hsink
    exact .inr ⟨hr.rejected rfl e, hconfig.ends m s e _ hsink⟩
  · rintro m r ⟨rfl, hr⟩
    exact hr

theorem consume_spec (hconfig : Undisturbed config) (response : Response) (rest : List AssistantMessageEvent)
    (hready : Ready config p rest) : Triple (Streaming initial new p) (config.consume response rest) (fun m r =>
      Holds initial new .inTurn [.assistant m] [.assistant m] r) (Broken config initial new) := by
  induction rest generalizing p with
  | nil =>
    refine Triple.bind (waitWithAbort_spec streaming_stable (fun e r hr => hr.broken e) _) fun _ => ?_
    refine Triple.bind (waitWithAbort_spec streaming_stable (fun e r hr => hr.broken e) _) fun m => ?_
    refine finishStreaming_spec hconfig fun hnone => ?_
    obtain hlate | ⟨m, rest', heq⟩ := hready.late hnone
    · exact hlate
    · cases heq
  | cons event rest ih =>
    refine Triple.bind (waitWithAbort_spec streaming_stable (fun e r hr => hr.broken e) _) fun _ => ?_
    cases event with
    | start m =>
      obtain ⟨rfl, hbegun⟩ := hready.begun
      exact Triple.bind startMessage_spec fun _ => ih hbegun
    | update m =>
      refine Triple.bind updateMessage_spec fun _ => ?_
      rintro r ⟨p', hp', hr⟩
      exact ih (hready.tail rfl hp') r hr
    | done m | error m =>
      refine Triple.bind (terminalMessage_spec streaming_stable (fun e r hr => hr.broken e) _) fun m => ?_
      refine finishStreaming_spec hconfig fun hnone => ?_
      obtain hlate | ⟨m, rest', heq⟩ := hready.late hnone
      · exact hlate
      · cases heq

theorem streamAssistantResponse_spec (hconfig : Undisturbed config) :
    Triple (Holds initial new .inTurn [] []) config.streamAssistantResponse (fun m r =>
      Holds initial new .inTurn [.assistant m] [.assistant m] r) (Rejected config initial) := by
  refine Triple.bind (R := fun _ => Streaming initial new none) ?_ fun _ => ?_
  · exact Triple.modify fun r hr => ⟨rfl, hr.scanned, hr.announced, hr.context⟩
  refine Triple.tryCatch (F := Broken config initial new) ?_ fun e => ?_
  · refine Triple.bind (request_spec streaming_stable fun e r hr => hr.broken e) fun response => ?_
    rintro r ⟨hr, systemPrompt, messages, apiKey, s, s', hresponse⟩
    refine consume_spec hconfig response response.events ⟨hconfig.once _ _ _ _ _ _ hresponse, ?_, ?_⟩ r hr
    · intro hsome
      cases hsome
    · intro _
      exact hconfig.starts.imp_right fun hstarts => hstarts _ _ _ _ _ _ hresponse
  · refine Triple.bind signalAborted_spec fun aborted => ?_
    split
    · rename_i haborted
      rintro r ⟨hr, heq⟩
      rw [Bool.and_eq_true] at haborted
      obtain ⟨p, hp⟩ | ⟨-, hnot⟩ := hr
      · exact finishAbortedMessage_spec r hp
      · rw [← heq, haborted.1] at hnot
        cases hnot haborted.2
    · refine Triple.throw ?_
      rintro r ⟨⟨p, hp⟩ | ⟨hrejected, -⟩, -⟩
      · refine hp.holds.rejected ?_ e
        split <;> rfl
      · exact hrejected

end Response

/-! ## Turns -/

section Turns

variable {b : Bracket} {E : AgentError → Run σ → Prop}

theorem Holds.shift {messages : List AgentMessage} {r : Run σ} (h : Holds initial new b messages messages r) :
    Holds initial (new ++ messages) b [] [] r := by
  refine ⟨h.scanned, ?_, ?_⟩
  · rw [h.announced, append_nil]
  · rw [h.context, append_nil, append_assoc]

theorem pushContext_spec {ends context : List AgentMessage} (m : AgentMessage) (E : AgentError → Run σ → Prop) :
    Triple (Holds initial new b ends context) (pushContext m : Loop σ Unit)
      (fun _ => Holds initial new b ends (context ++ [m])) E := by
  refine Triple.modify fun r hr => ⟨hr.scanned, hr.announced, ?_⟩
  show r.context ++ [m] = _
  rw [hr.context, append_assoc]

theorem pushResults_spec (results : List ToolResultMessage) (E : AgentError → Run σ → Prop) :
    Triple (Holds initial new b (results.map .toolResult) []) (pushResults results : Loop σ Unit)
      (fun _ => Holds initial (new ++ results.map .toolResult) b [] []) E := by
  have hall := @Triple.forEach _ _ _ E (fun done => Holds initial new b (results.map .toolResult)
    (done.map .toolResult)) (fun result => (pushContext (.toolResult result) : Loop σ Unit)) results ?_
  · exact hall.conseq (fun r hr => hr) (fun _ r hr => hr.shift) fun e r he => he
  · intro done result rest _
    rw [map_append, map_singleton]
    exact pushContext_spec _ E

theorem announce_spec {context : List AgentMessage} (m : AgentMessage) :
    Triple (Holds initial new .inTurn [] context) (config.announce m) (fun _ => Holds initial new .inTurn [m] context)
      (Rejected config initial) := by
  refine Triple.bind (R := fun _ => Holds initial new (.inMessage m.role) [] context) ?_ fun _ => ?_
  · exact emit_holds rfl rfl rfl
  · exact emit_end_holds rfl rfl

theorem deliver_spec (m : AgentMessage) :
    Triple (Holds initial new .inTurn [] []) (config.deliver m) (fun _ => Holds initial (new ++ [m]) .inTurn [] [])
      (Rejected config initial) := by
  refine Triple.bind (announce_spec m) fun _ => ?_
  exact (pushContext_spec m _).conseq (fun r hr => hr) (fun _ r hr => hr.shift) fun e r he => he

theorem deliverAll_spec (messages : List AgentMessage) :
    Triple (Holds initial new .inTurn [] []) (Effect.forEach config.deliver messages)
      (fun _ => Holds initial (new ++ messages) .inTurn [] []) (Rejected config initial) := by
  have hall := @Triple.forEach _ _ _ (Rejected config initial) (fun done => Holds initial (new ++ done) .inTurn [] [])
    config.deliver messages ?_
  · refine hall.strengthen fun r hr => ?_
    rw [append_nil]
    exact hr
  · intro done m rest _
    rw [← append_assoc]
    exact deliver_spec m

theorem executeToolCalls_holds (fuel : Nat) (message : AssistantMessage) :
    Triple (Holds initial new .inTurn [] []) (config.executeToolCalls fuel message)
      (fun batch => Holds initial new .inTurn (batch.messages.map .toolResult) []) (Rejected config initial) := by
  refine (executeToolCalls_spec (tools_invariant config initial new []) fuel message).conseq ?_ ?_ fun e r he => he
  · intro r hr
    exact ⟨[], List.Perm.nil, hr⟩
  · rintro batch r ⟨⟨open', hperm, hr⟩, -⟩
    obtain rfl := hperm.eq_nil
    exact hr

/-- Where a turn begins. The first one of a run is open from the start. -/
def Before (initial : List AgentMessage) (st : LoopState) : Run σ → Prop :=
  Holds initial st.newMessages (if st.firstTurn then .inTurn else .idle) [] []

/-- Where a part of the loop leads to. -/
def Reached (initial : List AgentMessage) (progress : Progress) (r : Run σ) : Prop :=
  match progress with
  | .ended new => Ended initial new r
  | .next st => st.firstTurn = false ∧ Holds initial st.newMessages .idle [] [] r

theorem endRun_reached (new : List AgentMessage) :
    Triple (Holds initial new .idle [] []) (config.endRun new) (Reached initial) (Rejected config initial) := by
  refine (endRun_spec new).conseq (fun r hr => hr) ?_ fun e r he => he
  rintro progress r ⟨rfl, hr⟩
  exact hr

theorem openTurn_spec (st : LoopState) :
    Triple (Before initial st) (config.openTurn st) (fun _ => Holds initial st.newMessages .inTurn [] [])
      (Rejected config initial) := by
  rw [openTurn]
  split
  · rename_i hfirst
    rw [Before, if_pos hfirst]
    exact Triple.pure fun r hr => hr
  · rename_i hfirst
    have hstep : Bracket.idle.step .turnStart = some .inTurn := rfl
    rw [Before, if_neg hfirst]
    exact emit_holds hstep rfl rfl

theorem turnEnd_spec (message : AgentMessage) (results : List ToolResultMessage) :
    Triple (Holds initial new .inTurn [] []) (config.emit (.turnEnd message results))
      (fun _ => Holds initial new .idle [] []) (Rejected config initial) :=
  emit_holds rfl rfl rfl

theorem endOr_spec {next : Loop σ Progress}
    (hnext : Triple (Holds initial new .idle [] []) next (Reached initial) (Rejected config initial)) :
    Triple (Holds initial new .idle [] []) (do
      if ← config.signalAborted then config.endRun new else next) (Reached initial) (Rejected config initial) := by
  refine Triple.bind signalAborted_spec fun aborted => ?_
  split
  · exact (endRun_reached new).strengthen fun _ hr => hr.1
  · exact hnext.strengthen fun _ hr => hr.1

theorem mark_spec {ends context : List AgentMessage} (m : Mark) :
    Triple (Holds initial new b ends context) (mark m : Loop σ Unit) (fun _ => Holds initial new b ends context) E :=
  Triple.modify fun _ hr => ⟨hr.scanned, hr.announced, hr.context⟩

theorem reflexTurn_spec (fuel : Nat) (st : LoopState) (reflex : PreTurnReflex) :
    Triple (Before initial st) (config.reflexTurn fuel st reflex) (Reached initial) (Rejected config initial) := by
  refine Triple.bind (R := fun _ => Before initial st) (mark_spec .reflex) fun _ => ?_
  refine Triple.bind (R := fun _ => Before initial st) ?_ fun _ => ?_
  · rw [Before]
    refine emit_holds ?_ rfl ?_ <;> split <;> rfl
  refine Triple.bind (openTurn_spec st) fun _ => ?_
  refine Triple.bind (hook_spec holds_stable config.randomUUID) fun uuid => ?_
  refine Triple.bind (hook_spec holds_stable config.now) fun timestamp => ?_
  refine Triple.bind (deliver_spec _) fun _ => ?_
  refine Triple.bind (executeToolCalls_holds fuel _) fun batch => ?_
  refine Triple.bind (pushResults_spec batch.messages _) fun _ => ?_
  refine Triple.bind (turnEnd_spec _ _) fun _ => ?_
  rw [append_assoc, singleton_append]
  refine endOr_spec ?_
  exact Triple.pure fun r hr => ⟨rfl, hr⟩

theorem idle_throws (e : AgentError) (r : Run σ) (h : Holds initial new .idle [] [] r) : Rejected config initial e r :=
  h.rejected rfl e

theorem afterTurn_spec (st : LoopState) (hst : st.firstTurn = false) (message : AssistantMessage)
    (toolResults : List ToolResultMessage) :
    Triple (Holds initial st.newMessages .idle [] []) (config.afterTurn st message toolResults) (Reached initial)
      (Rejected config initial) := by
  refine Triple.bind (R := fun _ => Holds initial st.newMessages .idle [] []) (Triple.get fun r hr => hr) fun r => ?_
  refine Triple.bind (settleHook_spec holds_stable idle_throws _ _) fun stop => ?_
  split
  · exact endRun_reached _
  · exact endRun_reached _
  · refine Triple.bind (shouldStopBefore_spec holds_stable idle_throws st) fun stop => ?_
    split
    · exact endRun_reached _
    · refine Triple.bind (settlePostTurn_spec (pollSteering_spec holds_stable (fun _ _ h => h) fun r _ hr =>
        ⟨hr.scanned, hr.announced, hr.context⟩) idle_throws) fun steering => ?_
      split
      · exact endRun_reached _
      · refine Triple.bind (shouldStopBefore_spec holds_stable idle_throws st) fun stop => ?_
        split
        · exact endRun_reached _
        · exact Triple.pure fun r hr => ⟨hst, hr⟩
      · exact Triple.pure fun r hr => ⟨hst, hr⟩

theorem toolTurn_spec (fuel : Nat) (message : AssistantMessage) :
    Triple (Holds initial new .inTurn [] []) (config.toolTurn fuel message)
      (fun results => Holds initial (new ++ results.1.map .toolResult) .inTurn [] []) (Rejected config initial) := by
  rw [toolTurn]
  split
  · refine Triple.pure fun r hr => ?_
    rw [map_nil, append_nil]
    exact hr
  · refine Triple.bind (executeToolCalls_holds fuel message) fun batch => ?_
    exact Triple.bind (pushResults_spec batch.messages _) fun _ => Triple.pure fun r hr => hr

theorem providerTurn_spec (hconfig : Undisturbed config) (fuel : Nat) (st : LoopState) :
    Triple (Before initial st) (config.providerTurn fuel st) (Reached initial) (Rejected config initial) := by
  refine Triple.bind (R := fun _ => Before initial st) (mark_spec .provider) fun _ => ?_
  refine Triple.bind (openTurn_spec st) fun _ => ?_
  refine Triple.bind (deliverAll_spec st.pendingMessages) fun _ => ?_
  refine Triple.bind (R := fun message => Holds initial
    (st.newMessages ++ st.pendingMessages ++ [assistant message]) .inTurn [] []) ?_ fun message => ?_
  · exact (streamAssistantResponse_spec hconfig).conseq (fun r hr => hr) (fun m r hr => hr.shift) fun e r he => he
  split
  · exact Triple.bind (turnEnd_spec _ _) fun _ => endRun_reached _
  · refine Triple.bind (toolTurn_spec fuel message) fun results => ?_
    refine Triple.bind (turnEnd_spec _ _) fun _ => ?_
    exact endOr_spec (Triple.strengthen (afterTurn_spec _ rfl message results.1) fun r hr => hr)

theorem turn_spec (hconfig : Undisturbed config) (fuel : Nat) (st : LoopState) :
    Triple (Before initial st) (config.turn fuel st) (Reached initial) (Rejected config initial) := by
  have hstable : config.Stable (Before initial st : Run σ → Prop) := holds_stable
  have hthrows : ∀ e (r : Run σ), Before initial st r → Rejected config initial e r := by
    intro e r hr
    refine Holds.rejected hr ?_ e
    split <;> rfl
  refine Triple.bind (throwIfAborted_spec hthrows) fun _ => ?_
  refine Triple.bind (R := fun _ => Before initial st) ?_ fun reflex => ?_
  · split
    · exact resolvePreTurnReflex_spec hstable _ _
    · exact Triple.pure fun r hr => hr
  split
  · exact reflexTurn_spec fuel st _
  · exact providerTurn_spec hconfig fuel st

theorem turns_spec (hconfig : Undisturbed config) (fuel n : Nat) (st : LoopState)
    (hst : st.hasMoreToolCalls = true ∨ st.firstTurn = false) :
    Triple (Before initial st) (config.turns fuel n st) (Reached initial) (Rejected config initial) := by
  induction n generalizing st with
  | zero =>
    refine Triple.throw fun r hr => Holds.rejected hr ?_ _
    split <;> rfl
  | succ n ih =>
    rw [turns]
    split
    · refine Triple.bind (turn_spec hconfig fuel st) fun progress => ?_
      cases progress with
      | ended new => exact Triple.pure fun r hr => hr
      | next st' =>
        rintro r ⟨hfirst, hr⟩
        refine ih st' (.inr hfirst) r ?_
        rw [Before, if_neg (by simp [hfirst])]
        exact hr
    · rename_i hnone
      have hfirst : st.firstTurn = false := hst.resolve_left fun hmore => hnone (by rw [hmore]; rfl)
      refine Triple.pure fun r hr => ⟨hfirst, ?_⟩
      rw [Before, if_neg (by simp [hfirst])] at hr
      exact hr

theorem continuation_spec (st : LoopState) :
    Triple (Holds initial new .idle [] []) (config.continuation st) (fun _ => Holds initial new .idle [] [])
      (Rejected config initial) := by
  refine Triple.bind (R := fun _ => Holds initial new .idle [] []) (Triple.get fun r hr => hr) fun r => ?_
  split
  · exact Triple.pure fun r hr => hr
  · exact settleHook_spec holds_stable idle_throws _ _

theorem followUps_spec (st : LoopState) (hst : st.firstTurn = false) :
    Triple (Holds initial st.newMessages .idle [] []) (config.followUps st) (Reached initial)
      (Rejected config initial) := by
  refine Triple.bind (shouldStopBefore_spec holds_stable idle_throws st) fun stop => ?_
  split
  · exact endRun_reached _
  refine Triple.bind (settlePostTurn_spec (pollMessagesUnlessAborted_spec holds_stable (fun _ _ h => h) _)
    idle_throws) fun followUp => ?_
  split
  · exact endRun_reached _
  · refine Triple.bind (shouldStopBefore_spec holds_stable idle_throws st) fun stop => ?_
    split
    · exact endRun_reached _
    · refine Triple.bind (continuation_spec st) fun continuation => ?_
      split
      · exact endRun_reached _
      · exact endRun_reached _
      · exact Triple.pure fun r hr => ⟨hst, hr⟩
  · exact Triple.pure fun r hr => ⟨hst, hr⟩

theorem rounds_spec (hconfig : Undisturbed config) (fuel n : Nat) (st : LoopState) :
    Triple (Before initial st) (config.rounds fuel n st) (Ended initial) (Rejected config initial) := by
  have hstable : config.Stable (Before initial st : Run σ → Prop) := holds_stable
  have hthrows : ∀ e (r : Run σ), Before initial st r → Rejected config initial e r := by
    intro e r hr
    refine Holds.rejected hr ?_ e
    split <;> rfl
  induction n generalizing st with
  | zero => exact Triple.throw fun r hr => hthrows _ r hr
  | succ n ih =>
    refine Triple.bind (throwIfAborted_spec hthrows) fun _ => ?_
    refine Triple.bind (turns_spec hconfig fuel fuel { st with hasMoreToolCalls := true } (.inl rfl)) fun progress => ?_
    cases progress with
    | ended new => exact Triple.pure fun r hr => hr
    | next st' =>
      rintro r ⟨hfirst, hr⟩
      refine Triple.bind (followUps_spec st' hfirst) (fun progress => ?_) r hr
      cases progress with
      | ended new => exact Triple.pure fun r hr => hr
      | next st'' =>
        rintro r ⟨hfirst, hr⟩
        have hbefore : Before initial st'' r := by
          rw [Before, if_neg (by simp [hfirst])]
          exact hr
        refine ih st'' holds_stable ?_ r hbefore
        intro e r hr
        refine Holds.rejected hr ?_ e
        split <;> rfl

theorem runLoop_spec (hconfig : Undisturbed config) (fuel : Nat) (new : List AgentMessage) :
    Triple (Holds initial new .inTurn [] []) (config.runLoop fuel new) (Ended initial) (Rejected config initial) := by
  refine Triple.bind (pollSteering_spec holds_stable (fun e r hr => hr.rejected rfl e) fun r _ hr =>
    ⟨hr.scanned, hr.announced, hr.context⟩) fun pendingMessages => ?_
  exact rounds_spec hconfig fuel fuel ⟨new, true, none, 0, 0, pendingMessages, true⟩

theorem announceAll_spec (prompts : List AgentMessage) :
    Triple (Holds initial [] .inTurn [] prompts) (Effect.forEach config.announce prompts)
      (fun _ => Holds initial prompts .inTurn [] []) (Rejected config initial) := by
  have hall := @Triple.forEach _ _ _ (Rejected config initial) (fun done r =>
    ∀ rest, prompts = done ++ rest → Holds initial done .inTurn [] rest r) config.announce prompts ?_
  · refine hall.conseq ?_ ?_ fun e r he => he
    · rintro r hr rest rfl
      exact hr
    · intro _ r hr
      exact hr [] (append_nil _).symm
  · intro done m rest hprompts
    refine (announce_spec m).conseq (fun r hr => hr (m :: rest) hprompts) ?_ fun e r he => he
    intro _ r hr rest' hrest
    rw [hprompts, append_assoc, append_cancel_left_eq, singleton_append, List.cons.injEq] at hrest
    refine ⟨hr.scanned, ?_, ?_⟩
    · rw [hr.announced, append_nil]
    · rw [hr.context, hrest.2]
      simp

theorem runAgentLoop_spec (hconfig : Undisturbed config) (fuel : Nat) (prompts : List AgentMessage) :
    Triple (Holds initial [] .init [] []) (config.runAgentLoop fuel prompts) (Ended initial)
      (Rejected config initial) := by
  have hstart : Bracket.init.step .agentStart = some .idle := rfl
  have hturn : Bracket.idle.step .turnStart = some .inTurn := rfl
  refine Triple.bind (R := fun _ => Holds initial [] .init [] prompts) ?_ fun _ => ?_
  · refine Triple.modify fun r hr => ⟨hr.scanned, hr.announced, ?_⟩
    show r.context ++ prompts = _
    rw [hr.context, append_nil]
  refine Triple.bind (emit_holds hstart rfl rfl) fun _ => ?_
  refine Triple.bind (emit_holds hturn rfl rfl) fun _ => ?_
  exact Triple.bind (announceAll_spec prompts) fun _ => runLoop_spec hconfig fuel prompts

theorem runAgentLoopContinue_spec (hconfig : Undisturbed config) (fuel : Nat) :
    Triple (Holds initial [] .init [] []) (config.runAgentLoopContinue fuel) (Ended initial)
      (Rejected config initial) := by
  have hstart : Bracket.init.step .agentStart = some .idle := rfl
  have hturn : Bracket.idle.step .turnStart = some .inTurn := rfl
  refine Triple.bind (R := fun _ => Holds initial [] .init [] []) (Triple.get fun r hr => hr) fun r => ?_
  split
  · exact Triple.throw fun r hr => hr.rejected rfl _
  · exact Triple.throw fun r hr => hr.rejected rfl _
  · refine Triple.bind (emit_holds hstart rfl rfl) fun _ => ?_
    refine Triple.bind (emit_holds hturn rfl rfl) fun _ => ?_
    exact runLoop_spec hconfig fuel []

theorem startRun_spec (hconfig : Undisturbed config) (fuel : Nat) (start : Start) :
    Triple (Holds initial [] .init [] []) (config.startRun fuel start) (Ended initial) (Rejected config initial) := by
  cases start with
  | prompts messages => exact runAgentLoop_spec hconfig fuel messages
  | continuation => exact runAgentLoopContinue_spec hconfig fuel

theorem holds_initial (host : σ) (context : List AgentMessage) :
    Holds context [] .init [] [] (AgentLoopConfig.initial host context) :=
  ⟨rfl, rfl, by simp [AgentLoopConfig.initial]⟩

end Turns

/-! ## Runs -/

section Results

/-- The events of a run, its messages, its context and the state of the agent say the same. -/
structure Agreement (before : List AgentMessage) (r : Run σ) (new : List AgentMessage) : Prop where
  last : ∃ earlier, r.events = earlier ++ [AgentEvent.agentEnd new]
  announced : Agent.announced r.events = new
  context : r.context = before ++ new
  state : ∀ s : AgentState, s.messages = before → (s.processEvents r.events).messages = r.context
  marks : Agent.marks r.events = new.flatMap fun m => [(true, m.role), (false, m.role)]

theorem Ended.agreement {before new : List AgentMessage} {r : Run σ} (h : Ended before new r) :
    Agreement before r new := by
  have hannounced : Agent.announced r.events = new := by
    rw [h.announced, append_nil]
  have hcontext : r.context = before ++ new := by
    rw [h.context, append_nil]
  refine ⟨h.last, hannounced, hcontext, ?_, ?_⟩
  · rintro s rfl
    rw [processEvents_messages, hannounced, hcontext]
  · rw [marks_of_scan h.scanned, hannounced]
    exact append_nil _

theorem SinkTotal.undisturbed (hsink : config.SinkTotal) (honce : config.StartsOnce) : Undisturbed config where
  ends := fun _ s e s' h => absurd h (hsink _ s e s')
  starts := .inl fun _ s e s' h => absurd h (hsink _ s e s')
  once := honce

/-- A run that returns has well bracketed events. A run that throws has the beginning of such events, without an end
of the run. -/
theorem bracketed_of_run (hsink : config.SinkTotal) (honce : config.StartsOnce) (fuel : Nat) (start : Start) (host : σ)
    (context : List AgentMessage) :
    (∀ new r, config.startRun fuel start (AgentLoopConfig.initial host context) = .ok new r →
      WellBracketed r.events) ∧
    ∀ e r, config.startRun fuel start (AgentLoopConfig.initial host context) = .error e r →
      (∃ rest, WellBracketed (r.events ++ rest)) ∧ ∀ new, .agentEnd new ∉ r.events := by
  have hrun := startRun_spec (hsink.undisturbed honce) fuel start _ (holds_initial host context)
  refine ⟨?_, ?_⟩
  · intro new r hok
    rw [hok] at hrun
    exact ⟨.finished, hrun.scanned, rfl⟩
  · intro e r herror
    rw [herror] at hrun
    obtain ⟨b, hb, hnot⟩ := hrun
    have hended : b.ended = false := Bool.eq_false_iff.2 fun hended => (hnot hended).1 hsink
    refine ⟨exists_wellBracketed hb hended, ?_⟩
    intro new hmem
    rw [scan_agentEnd hb hmem] at hended
    cases hended

/-- A signal that is aborted from the start ends the run in an open turn, and a response that starts twice opens two
messages and closes one. -/
theorem abort_leaves_turn_open :
    ¬ WellBracketed (Effect.final ((plain (fun _ : Unit => true) [.done reply] reply).startRun 3
      (.prompts [.user 0 []]))
      (AgentLoopConfig.initial () [])).events ∧
    ¬ WellBracketed (Effect.final
      ((plain (fun _ : Unit => false) [.start reply, .start reply, .done reply] reply).startRun 3
      (.prompts [.user 0 []])) (AgentLoopConfig.initial () [])).events := by
  decide +kernel

theorem plain_sinkTotal (aborted : σ → Bool) (events : List AssistantMessageEvent) :
    SinkTotal (plain aborted events reply) := by
  intro event s e s' h
  cases h

theorem plain_startsOnce (aborted : σ → Bool) : StartsOnce (plain aborted [.start reply, .done reply] reply) := by
  intro systemPrompt messages apiKey s response s' h
  cases h
  decide

theorem plain_bracketed :
    (∀ new r, (plain (fun _ : Unit => false) [.start reply, .done reply] reply).startRun 3 (.prompts [])
      (AgentLoopConfig.initial () []) = .ok new r → WellBracketed r.events) ∧
    ∀ e r, (plain (fun _ : Unit => false) [.start reply, .done reply] reply).startRun 3 (.prompts [])
      (AgentLoopConfig.initial () []) = .error e r →
      (∃ rest, WellBracketed (r.events ++ rest)) ∧ ∀ new, .agentEnd new ∉ r.events :=
  bracketed_of_run (plain_sinkTotal _ _) (plain_startsOnce _) 3 (.prompts []) () []

/-- A run that comes to its end announces what it returns. -/
theorem agreement_of_end (hconfig : Undisturbed config) (fuel : Nat) (start : Start) (host : σ)
    (before : List AgentMessage) {ended : List AgentMessage}
    (hend : .agentEnd ended ∈ (Effect.final (config.startRun fuel start)
      (AgentLoopConfig.initial host before)).events) :
    ∃ new, Agreement before (Effect.final (config.startRun fuel start) (AgentLoopConfig.initial host before)) new ∧
      ∀ new' r, config.startRun fuel start (AgentLoopConfig.initial host before) = .ok new' r → new' = new := by
  have hrun := startRun_spec hconfig fuel start _ (holds_initial host before)
  rw [Effect.final] at hend ⊢
  cases hresult : config.startRun fuel start (AgentLoopConfig.initial host before) with
  | ok new r =>
    rw [hresult] at hrun
    refine ⟨new, hrun.agreement, ?_⟩
    intro new' r' heq
    cases heq
    rfl
  | error e r =>
    rw [hresult] at hrun hend
    obtain ⟨b, hb, hover⟩ := hrun
    obtain ⟨-, new, hended⟩ := hover (scan_agentEnd hb hend)
    refine ⟨new, hended.agreement, ?_⟩
    intro new' r' heq
    cases heq

theorem plain_agreement :
    ∃ new, Agreement [.user 0 []] (Effect.final ((plain (fun _ : Unit => false) [.start reply, .done reply]
      reply).startRun 3 .continuation) (AgentLoopConfig.initial () [.user 0 []])) new ∧
      ∀ new' r, (plain (fun _ : Unit => false) [.start reply, .done reply] reply).startRun 3 .continuation
        (AgentLoopConfig.initial () [.user 0 []]) = .ok new' r → new' = new := by
  refine @agreement_of_end _ _ ((plain_sinkTotal _ _).undisturbed (plain_startsOnce _)) 3 .continuation () [.user 0 []]
    [.assistant reply] ?_
  decide +kernel

/-- The messages of the last event. -/
def endOf (events : List AgentEvent) : Option (List AgentMessage) :=
  match events.getLast? with
  | some (.agentEnd new) => some new
  | _ => none

theorem Agreement.endOf {before new : List AgentMessage} {r : Run σ} (h : Agreement before r new) :
    AgentLoopConfig.endOf r.events = some (Agent.announced r.events) ∧
      r.context = before ++ Agent.announced r.events := by
  obtain ⟨earlier, hlast⟩ := h.last
  refine ⟨?_, ?_⟩
  · rw [h.announced, AgentLoopConfig.endOf, hlast, getLast?_concat]
  · rw [h.announced, h.context]

/-- A sink that aborts the run at the end of a response, and throws what it gets of that. -/
def interrupting : AgentEvent → Hook (fun aborted : Bool => aborted) (Except AgentError Unit)
  | .messageEnd (.assistant ⟨_, _, _, _, _, .stop, _, _⟩) => ⟨fun _ => (.error createAbortError, true), fun _ _ => rfl⟩
  | _ => still (.ok ())

def interrupted : Run Bool :=
  Effect.final ({ plain (fun aborted : Bool => aborted) [.start reply, .done reply] reply with
    sink := interrupting }.startRun 3 (.prompts [.user 0 []])) (AgentLoopConfig.initial false [])

def startedTwice : Run Bool :=
  Effect.final ((plain (fun aborted : Bool => aborted) [.start reply, .start reply, .done reply] reply).startRun 3
    (.prompts [.user 0 []])) (AgentLoopConfig.initial false [])

/-- The run that is interrupted announces the response twice, and the one that is started twice has it in the context
twice. Both come to their ends. -/
theorem interrupted_disagrees : ((endOf interrupted.events).isSome = true ∧ ¬ ∃ new, Agreement [] interrupted new) ∧
      (endOf startedTwice.events).isSome = true ∧ ¬ ∃ new, Agreement [] startedTwice new := by
  refine ⟨⟨by decide +kernel, ?_⟩, by decide +kernel, ?_⟩
  · rintro ⟨new, h⟩
    have hend := h.endOf.1
    revert hend
    decide +kernel
  · rintro ⟨new, h⟩
    have hcontext := h.endOf.2
    revert hcontext
    decide +kernel

end Results

end AgentLoopConfig
end Agent
end RePrime
