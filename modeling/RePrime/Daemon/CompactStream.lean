import Mathlib.Logic.Function.Basic
import RePrime.Lib.OrderedMap
import RePrime.Session.Entry

/-!
# RePrime.Daemon.CompactStream

Updates of an assistant message sent as what each of them adds, and the messages rebuilt from that.

* `Extends`: a message follows another by an event.
* `Agrees`: a block and its rebuilt form.
* `reconstruct_agrees`: what is rebuilt after each update of a run.
-/

namespace RePrime
namespace Daemon
namespace CompactStream

open Session Option Function
open Json (Value)

/-! ## Events -/

inductive AssistantMessageEvent where
  | start
  | textStart (contentIndex : Nat)
  | textDelta (contentIndex : Nat) (delta : String)
  | textEnd (contentIndex : Nat) (content : String)
  | thinkingStart (contentIndex : Nat)
  | thinkingDelta (contentIndex : Nat) (delta : String)
  | thinkingEnd (contentIndex : Nat) (content : String)
  | toolcallStart (contentIndex : Nat)
  | toolcallDelta (contentIndex : Nat) (delta : String)
  | toolcallEnd (contentIndex : Nat) (toolCall : ToolCall)
  | done (reason : StopReason) (message : AssistantMessage)
  | error (reason : StopReason) (error : AssistantMessage)

/-- An update carries the message twice, as it is and beside its event. -/
inductive SessionEvent where
  | messageStart (message : AgentMessage)
  | messageUpdate (message : AgentMessage) (assistantMessageEvent : AssistantMessageEvent)
      (partialMessage : Option AssistantMessage)
  | messageEnd (message : AgentMessage)
  | other

inductive DaemonOutbound (μ : Type) where
  | sessionEvent (activeSessionId : String) (event : SessionEvent) (eventMeta : Option μ)
  | sessionReplaced (activeSessionId : String)
  | sessionResynced (activeSessionId : String)
  | sessionClosed (activeSessionId : String)
  | other

structure CompactAssistantDelta (μ : Type) where
  activeSessionId : String
  assistantMessageEvent : AssistantMessageEvent
  contentStart : Option AssistantBlock
  toolCallArguments : Option (List (String × Value))
  eventMeta : Option μ

/-! ## Encoding -/

def compactToolCallArguments (message : AssistantMessage) : AssistantMessageEvent → Option (List (String × Value))
  | .toolcallDelta contentIndex _ =>
    match message.content[contentIndex]? with
    | some (.toolCall content) => some content.arguments
    | _ => none
  | _ => none

def compactContentStart (message : AssistantMessage) : AssistantMessageEvent → Option AssistantBlock
  | .textStart contentIndex =>
    match message.content[contentIndex]? with
    | some (.text content) => some (.text { content with text := "" })
    | _ => none
  | .thinkingStart contentIndex =>
    match message.content[contentIndex]? with
    | some (.thinking content) => some (.thinking { content with thinking := "" })
    | _ => none
  | .toolcallStart contentIndex =>
    match message.content[contentIndex]? with
    | some (.toolCall content) => some (.toolCall { content with arguments := [] })
    | _ => none
  | _ => none

def createCompactAssistantDelta {μ : Type} : DaemonOutbound μ → Option (CompactAssistantDelta μ)
  | .sessionEvent activeSessionId (.messageUpdate (.assistant message) assistantMessageEvent _) eventMeta =>
    some
      { activeSessionId, assistantMessageEvent
        contentStart := compactContentStart message assistantMessageEvent
        toolCallArguments := compactToolCallArguments message assistantMessageEvent
        eventMeta }
  | _ => none

/-! ## Decoding -/

/-- A message while it is rebuilt; an index of its content that was passed over holds nothing. -/
structure StreamedMessage where
  message : AssistantMessage
  content : List (Option AssistantBlock)

def StreamedMessage.of (message : AssistantMessage) : StreamedMessage :=
  { message, content := message.content.map some }

/-- `content[i]` -/
def blockAt (content : List (Option AssistantBlock)) (i : Nat) : Option AssistantBlock := content[i]?.join

/-- `content[i] = block` -/
def assign (content : List (Option AssistantBlock)) (i : Nat) (block : AssistantBlock) :
    List (Option AssistantBlock) :=
  if i < content.length then content.set i (some block)
  else content ++ List.replicate (i - content.length) none ++ [some block]

structure Reconstructor where
  partialMessages : OrderedMap String StreamedMessage
  toolCallJson : OrderedMap String String

structure Reconstructed (μ : Type) where
  activeSessionId : String
  message : StreamedMessage
  assistantMessageEvent : AssistantMessageEvent
  eventMeta : Option μ

def toolCallKey (activeSessionId : String) (contentIndex : Nat) : String :=
  activeSessionId ++ ":" ++ toString contentIndex

namespace Reconstructor

def new : Reconstructor := ⟨.empty, .empty⟩

def clear (r : Reconstructor) (activeSessionId : String) : Reconstructor :=
  { partialMessages := r.partialMessages.delete activeSessionId
    toolCallJson := r.toolCallJson.keys.foldl
      (fun json key => if key.startsWith (activeSessionId ++ ":") then json.delete key else json) r.toolCallJson }

def observe {μ : Type} (r : Reconstructor) : DaemonOutbound μ → Reconstructor
  | .sessionReplaced activeSessionId => r.clear activeSessionId
  | .sessionResynced activeSessionId => r.clear activeSessionId
  | .sessionClosed activeSessionId => r.clear activeSessionId
  | .sessionEvent activeSessionId (.messageStart (.assistant message)) _ =>
    { r with partialMessages := r.partialMessages.set activeSessionId (.of message) }
  | .sessionEvent activeSessionId (.messageEnd _) _ => r.clear activeSessionId
  | _ => r

end Reconstructor

section

variable {μ : Type} (parseStreamingJson : String → List (String × Value))

/-- The content after a delta, and the JSON of the tool calls. -/
def applyDelta (delta : CompactAssistantDelta μ) (content : List (Option AssistantBlock))
    (toolCallJson : OrderedMap String String) :
    Option (List (Option AssistantBlock) × OrderedMap String String) :=
  match delta.assistantMessageEvent with
  | .textStart i => some (assign content i (delta.contentStart.getD (.text ⟨"", none⟩)), toolCallJson)
  | .textDelta i text =>
    match blockAt content i with
    | some (.text block) => some (assign content i (.text { block with text := block.text ++ text }), toolCallJson)
    | _ => none
  | .textEnd i text =>
    match blockAt content i with
    | some (.text block) => some (assign content i (.text { block with text }), toolCallJson)
    | _ => none
  | .thinkingStart i => some (assign content i (delta.contentStart.getD (.thinking ⟨"", none, none⟩)), toolCallJson)
  | .thinkingDelta i text =>
    match blockAt content i with
    | some (.thinking block) =>
      some (assign content i (.thinking { block with thinking := block.thinking ++ text }), toolCallJson)
    | _ => none
  | .thinkingEnd i text =>
    match blockAt content i with
    | some (.thinking block) => some (assign content i (.thinking { block with thinking := text }), toolCallJson)
    | _ => none
  | .toolcallStart i =>
    match delta.contentStart with
    | some (.toolCall block) =>
      some (assign content i (.toolCall block), toolCallJson.set (toolCallKey delta.activeSessionId i) "")
    | _ => none
  | .toolcallDelta i text =>
    match blockAt content i with
    | some (.toolCall block) =>
      match delta.toolCallArguments with
      | some arguments => some (assign content i (.toolCall { block with arguments }), toolCallJson)
      | none =>
        let key := toolCallKey delta.activeSessionId i
        let partialJson := (toolCallJson.get? key).getD "" ++ text
        some (assign content i (.toolCall { block with arguments := parseStreamingJson partialJson }),
          toolCallJson.set key partialJson)
    | _ => none
  | .toolcallEnd i toolCall =>
    some (assign content i (.toolCall toolCall), toolCallJson.delete (toolCallKey delta.activeSessionId i))
  | .start => none
  | .done _ _ => none
  | .error _ _ => none

def Reconstructor.reconstruct (r : Reconstructor) (delta : CompactAssistantDelta μ) :
    Option (Reconstructed μ) × Reconstructor :=
  match r.partialMessages.get? delta.activeSessionId with
  | none => (none, r)
  | some streamed =>
    match applyDelta parseStreamingJson delta streamed.content r.toolCallJson with
    | none => (none, r)
    | some (content, toolCallJson) =>
      (some
        { activeSessionId := delta.activeSessionId
          message := { streamed with content }
          assistantMessageEvent := delta.assistantMessageEvent
          eventMeta := delta.eventMeta },
        { partialMessages := r.partialMessages.set delta.activeSessionId { streamed with content }, toolCallJson })

/-! ## Runs -/

/-- What one side sends for an event, and the other makes of it. -/
def feed (r : Reconstructor) (outbound : DaemonOutbound μ) : Option (Reconstructed μ) × Reconstructor :=
  match createCompactAssistantDelta outbound with
  | some delta => r.reconstruct parseStreamingJson delta
  | none => (none, r.observe outbound)

def feedAll (run : List (DaemonOutbound μ)) : Reconstructor :=
  run.foldl (fun r outbound => (feed parseStreamingJson r outbound).2) .new

end

/-- What a reader of a block sees of it. -/
inductive Payload where
  | text (text : String)
  | thinking (thinking : String)
  | toolCall (arguments : List (String × Value))

def payload : AssistantBlock → Payload
  | .text block => .text block.text
  | .thinking block => .thinking block.thinking
  | .toolCall block => .toolCall block.arguments

def payloadAt (message : AssistantMessage) (i : Nat) : Option Payload := message.content[i]?.map payload

def StreamedMessage.payloadAt (streamed : StreamedMessage) (i : Nat) : Option Payload :=
  (blockAt streamed.content i).map payload

/-- `message` follows `previous` as the event says. -/
def Extends (previous message : AssistantMessage) : AssistantMessageEvent → Prop
  | .textStart i => ∃ t, payloadAt message = update (payloadAt previous) i (some (.text t))
  | .textDelta i delta => ∃ t, payloadAt previous i = some (.text t) ∧
      payloadAt message = update (payloadAt previous) i (some (.text (t ++ delta)))
  | .textEnd i content => ∃ t, payloadAt previous i = some (.text t) ∧
      payloadAt message = update (payloadAt previous) i (some (.text content))
  | .thinkingStart i => ∃ t, payloadAt message = update (payloadAt previous) i (some (.thinking t))
  | .thinkingDelta i delta => ∃ t, payloadAt previous i = some (.thinking t) ∧
      payloadAt message = update (payloadAt previous) i (some (.thinking (t ++ delta)))
  | .thinkingEnd i content => ∃ t, payloadAt previous i = some (.thinking t) ∧
      payloadAt message = update (payloadAt previous) i (some (.thinking content))
  | .toolcallStart i => ∃ a, payloadAt message = update (payloadAt previous) i (some (.toolCall a))
  | .toolcallDelta i _ => ∃ a a', payloadAt previous i = some (.toolCall a) ∧
      payloadAt message = update (payloadAt previous) i (some (.toolCall a'))
  | .toolcallEnd i toolCall => ∃ a, payloadAt previous i = some (.toolCall a) ∧
      payloadAt message = update (payloadAt previous) i (some (.toolCall toolCall.arguments))
  | _ => False

/-- The last message of a session, and what its blocks were opened with, each until an event says all of it. -/
structure Track where
  message : AssistantMessage
  opened : Nat → Option Payload

def openedAfter (message : AssistantMessage) (opened : Nat → Option Payload) :
    AssistantMessageEvent → Nat → Option Payload
  | .textStart i => update opened i (payloadAt message i)
  | .thinkingStart i => update opened i (payloadAt message i)
  | .toolcallStart i => update opened i (payloadAt message i)
  | .textEnd i _ => update opened i none
  | .thinkingEnd i _ => update opened i none
  | .toolcallDelta i _ => update opened i none
  | .toolcallEnd i _ => update opened i none
  | _ => opened

section

variable {μ : Type}

def track (tracks : String → Option Track) : DaemonOutbound μ → String → Option Track
  | .sessionEvent s (.messageStart (.assistant message)) _ =>
    update tracks s (some { message, opened := fun _ => none })
  | .sessionEvent s (.messageUpdate (.assistant message) event _) _ =>
    update tracks s ((tracks s).map fun t => { message, opened := openedAfter message t.opened event })
  | .sessionEvent s (.messageEnd _) _ => update tracks s none
  | _ => tracks

def trackAll (run : List (DaemonOutbound μ)) : String → Option Track := run.foldl track fun _ => none

/-- An event of messages; an update of an assistant message follows the message before it. -/
def Follows (tracks : String → Option Track) : DaemonOutbound μ → Prop
  | .sessionEvent s (.messageUpdate (.assistant message) event _) _ =>
    ∃ t, tracks s = some t ∧ Extends t.message message event
  | .sessionEvent _ .other _ => False
  | .sessionEvent _ _ _ => True
  | _ => False

def IsRun : (String → Option Track) → List (DaemonOutbound μ) → Prop
  | _, [] => True
  | tracks, outbound :: rest => Follows tracks outbound ∧ IsRun (track tracks outbound) rest

end

/-- Opened with something, a block is rebuilt without it. -/
inductive Agrees : Option Payload → Option Payload → Option Payload → Prop where
  | same (p : Option Payload) : Agrees none p p
  | text (t rest : String) : Agrees (some (.text t)) (some (.text (t ++ rest))) (some (.text rest))
  | thinking (t rest : String) :
      Agrees (some (.thinking t)) (some (.thinking (t ++ rest))) (some (.thinking rest))
  | toolCall (arguments : List (String × Value)) :
      Agrees (some (.toolCall arguments)) (some (.toolCall arguments)) (some (.toolCall []))

/-! ## Contents -/

theorem blockAt_assign (content : List (Option AssistantBlock)) (i : Nat) (block : AssistantBlock) (j : Nat) :
    blockAt (assign content i block) j = if j = i then some block else blockAt content j := by
  unfold blockAt assign
  split
  · rename_i hi
    rw [List.getElem?_set]
    by_cases hj : j = i
    · simp [hj, hi]
    · simp [hj, Ne.symm hj]
  · rename_i hi
    by_cases hj : j = i
    · have hlen : (content ++ List.replicate (i - content.length) none).length = i := by
        rw [List.length_append, List.length_replicate]
        omega
      rw [hj, if_pos rfl, List.getElem?_append_right (Nat.le_of_eq hlen), hlen, Nat.sub_self]
      rfl
    · rw [if_neg hj]
      by_cases hlt : j < content.length
      · rw [List.append_assoc, List.getElem?_append_left hlt]
      · rw [List.getElem?_eq_none (Nat.le_of_not_lt hlt), List.append_assoc,
          List.getElem?_append_right (Nat.le_of_not_lt hlt)]
        by_cases hgap : j < i
        · rw [List.getElem?_append_left (by simp; omega), List.getElem?_replicate, if_pos (by omega)]
          rfl
        · rw [List.getElem?_eq_none (by simp; omega)]

theorem length_assign (content : List (Option AssistantBlock)) (i : Nat) (block : AssistantBlock) :
    (assign content i block).length = max content.length (i + 1) := by
  unfold assign
  split
  · simp
    omega
  · simp
    omega

theorem payloadAt_of (message : AssistantMessage) (i : Nat) :
    (StreamedMessage.of message).payloadAt i = payloadAt message i := by
  simp only [StreamedMessage.payloadAt, StreamedMessage.of, blockAt, payloadAt, List.getElem?_map]
  cases message.content[i]? with
  | none | some => rfl

variable {message : AssistantMessage} {i : Nat}

theorem payloadAt_isSome :
    (payloadAt message i).isSome = true ↔ i < message.content.length := by
  simp [payloadAt]

theorem length_of_update {previous : AssistantMessage} {p : Payload}
    (h : payloadAt message = update (payloadAt previous) i (some p)) :
    message.content.length = max previous.content.length (i + 1) := by
  have hdefined : ∀ j, j < message.content.length ↔ j < previous.content.length ∨ j = i := by
    intro j
    rw [← payloadAt_isSome, ← payloadAt_isSome, h]
    by_cases hj : j = i
    · simp [hj]
    · simp [hj]
  have hlast := hdefined i
  have hlen := hdefined message.content.length
  have hprev := hdefined previous.content.length
  have hpred := hdefined (message.content.length - 1)
  omega

theorem text_of_payloadAt {t : String}
    (h : payloadAt message i = some (.text t)) :
    ∃ block, message.content[i]? = some (.text block) := by
  obtain ⟨block, hblock, hpayload⟩ := map_eq_some_iff.1 h
  cases block with
  | text block => exact ⟨block, hblock⟩
  | thinking | toolCall => cases hpayload

theorem thinking_of_payloadAt {t : String}
    (h : payloadAt message i = some (.thinking t)) :
    ∃ block, message.content[i]? = some (.thinking block) := by
  obtain ⟨block, hblock, hpayload⟩ := map_eq_some_iff.1 h
  cases block with
  | text block => cases hpayload
  | thinking block => exact ⟨block, hblock⟩
  | toolCall block => cases hpayload

theorem toolCall_of_payloadAt {a : List (String × Value)}
    (h : payloadAt message i = some (.toolCall a)) :
    ∃ block, message.content[i]? = some (.toolCall block) ∧ block.arguments = a := by
  obtain ⟨block, hblock, hpayload⟩ := map_eq_some_iff.1 h
  cases block with
  | text | thinking => cases hpayload
  | toolCall block =>
    cases hpayload
    exact ⟨block, hblock, rfl⟩

namespace StreamedMessage

variable {streamed : StreamedMessage} {i : Nat}

theorem text_of_payloadAt {t : String}
    (h : streamed.payloadAt i = some (.text t)) :
    ∃ block, blockAt streamed.content i = some (.text block) ∧ block.text = t := by
  obtain ⟨block, hblock, hpayload⟩ := map_eq_some_iff.1 h
  cases block with
  | text block =>
    cases hpayload
    exact ⟨block, hblock, rfl⟩
  | thinking | toolCall => cases hpayload

theorem thinking_of_payloadAt {t : String}
    (h : streamed.payloadAt i = some (.thinking t)) :
    ∃ block, blockAt streamed.content i = some (.thinking block) ∧ block.thinking = t := by
  obtain ⟨block, hblock, hpayload⟩ := map_eq_some_iff.1 h
  cases block with
  | text block => cases hpayload
  | thinking block =>
    cases hpayload
    exact ⟨block, hblock, rfl⟩
  | toolCall block => cases hpayload

theorem toolCall_of_payloadAt {a : List (String × Value)}
    (h : streamed.payloadAt i = some (.toolCall a)) :
    ∃ block, blockAt streamed.content i = some (.toolCall block) := by
  obtain ⟨block, hblock, hpayload⟩ := map_eq_some_iff.1 h
  cases block with
  | text | thinking => cases hpayload
  | toolCall block => exact ⟨block, hblock⟩

end StreamedMessage

/-! ## Agreement -/

namespace Agrees

variable {o q : Option Payload}

theorem text_right {t : String} (h : Agrees o (some (.text t)) q) :
    ∃ rest, q = some (.text rest) ∧
      ∀ delta, Agrees o (some (.text (t ++ delta))) (some (.text (rest ++ delta))) := by
  cases h with
  | same => exact ⟨t, rfl, fun _ => .same _⟩
  | text t rest =>
    refine ⟨rest, rfl, fun delta => ?_⟩
    rw [String.append_assoc]
    exact .text t (rest ++ delta)

theorem thinking_right {t : String} (h : Agrees o (some (.thinking t)) q) :
    ∃ rest, q = some (.thinking rest) ∧
      ∀ delta, Agrees o (some (.thinking (t ++ delta))) (some (.thinking (rest ++ delta))) := by
  cases h with
  | same => exact ⟨t, rfl, fun _ => .same _⟩
  | thinking t rest =>
    refine ⟨rest, rfl, fun delta => ?_⟩
    rw [String.append_assoc]
    exact .thinking t (rest ++ delta)

theorem toolCall_right {a : List (String × Value)} (h : Agrees o (some (.toolCall a)) q) :
    ∃ a', q = some (.toolCall a') := by
  cases h with
  | same => exact ⟨a, rfl⟩
  | toolCall => exact ⟨[], rfl⟩

theorem text_opened (t : String) : Agrees (some (.text t)) (some (.text t)) (some (.text "")) := by
  have h := Agrees.text t ""
  rwa [String.append_empty] at h

theorem thinking_opened (t : String) :
    Agrees (some (.thinking t)) (some (.thinking t)) (some (.thinking "")) := by
  have h := Agrees.thinking t ""
  rwa [String.append_empty] at h

end Agrees

/-- A block with nothing in it. -/
def Payload.IsBlank : Payload → Prop
  | .text t => t = ""
  | .thinking t => t = ""
  | .toolCall a => a = []

theorem Agrees.eq_of_blank {o p q : Option Payload} (h : Agrees o p q) (hblank : ∀ x ∈ o, x.IsBlank) :
    q = p := by
  cases h with
  | same => rfl
  | text t rest =>
    have ht : t = "" := hblank _ rfl
    rw [ht, String.empty_append]
  | thinking t rest =>
    have ht : t = "" := hblank _ rfl
    rw [ht, String.empty_append]
  | toolCall arguments =>
    have ha : arguments = [] := hblank _ rfl
    rw [ha]

/-! ## One update -/

/-- A message as it is rebuilt. -/
structure Rebuilds (t : Track) (streamed : StreamedMessage) : Prop where
  length : streamed.content.length = t.message.content.length
  agrees : ∀ i, Agrees (t.opened i) (payloadAt t.message i) (streamed.payloadAt i)

theorem rebuilds_of (message : AssistantMessage) :
    Rebuilds { message, opened := fun _ => none } (.of message) where
  length := by simp [StreamedMessage.of]
  agrees i := by
    rw [payloadAt_of]
    exact .same _

theorem Rebuilds.assign {t : Track} {streamed : StreamedMessage} (h : Rebuilds t streamed)
    {message : AssistantMessage} {i : Nat} {p : Payload} {o : Option Payload} {block : AssistantBlock}
    (hmessage : payloadAt message = update (payloadAt t.message) i (some p))
    (hblock : Agrees o (some p) (some (payload block))) :
    Rebuilds { message, opened := update t.opened i o }
      { streamed with content := assign streamed.content i block } where
  length := by
    rw [length_assign, h.length, length_of_update hmessage]
  agrees j := by
    rw [StreamedMessage.payloadAt, blockAt_assign]
    simp only [hmessage]
    by_cases hj : j = i
    · rw [hj, update_self, update_self, if_pos rfl]
      exact hblock
    · rw [update_of_ne hj, update_of_ne hj, if_neg hj]
      exact h.agrees j

section

variable {μ : Type} (parseStreamingJson : String → List (String × Value))

theorem applyDelta_rebuilds {t : Track} {streamed : StreamedMessage} (h : Rebuilds t streamed)
    {message : AssistantMessage} {event : AssistantMessageEvent} (hext : Extends t.message message event)
    (activeSessionId : String) (eventMeta : Option μ) (json : OrderedMap String String) :
    ∃ content json', applyDelta parseStreamingJson
        { activeSessionId, assistantMessageEvent := event
          contentStart := compactContentStart message event
          toolCallArguments := compactToolCallArguments message event
          eventMeta } streamed.content json = some (content, json') ∧
      Rebuilds { message, opened := openedAfter message t.opened event } { streamed with content } := by
  cases event with
  | textStart i =>
    obtain ⟨x, hm⟩ := hext
    have hi : payloadAt message i = some (.text x) := by rw [hm, update_self]
    obtain ⟨block, hblock⟩ := text_of_payloadAt hi
    refine ⟨_, _, rfl, ?_⟩
    rw [openedAfter, hi, compactContentStart, hblock]
    exact h.assign hm (.text_opened x)
  | thinkingStart i =>
    obtain ⟨x, hm⟩ := hext
    have hi : payloadAt message i = some (.thinking x) := by rw [hm, update_self]
    obtain ⟨block, hblock⟩ := thinking_of_payloadAt hi
    refine ⟨_, _, rfl, ?_⟩
    rw [openedAfter, hi, compactContentStart, hblock]
    exact h.assign hm (.thinking_opened x)
  | toolcallStart i =>
    obtain ⟨a, hm⟩ := hext
    have hi : payloadAt message i = some (.toolCall a) := by rw [hm, update_self]
    obtain ⟨block, hblock, -⟩ := toolCall_of_payloadAt hi
    simp only [applyDelta, compactContentStart, hblock]
    refine ⟨_, _, rfl, ?_⟩
    rw [openedAfter, hi]
    exact h.assign hm (.toolCall a)
  | textDelta i delta =>
    obtain ⟨x, hprevious, hm⟩ := hext
    obtain ⟨rest, hrest, hagrees⟩ := (hprevious ▸ h.agrees i).text_right
    obtain ⟨block, hblock, rfl⟩ := StreamedMessage.text_of_payloadAt hrest
    simp only [applyDelta, hblock]
    refine ⟨_, _, rfl, ?_⟩
    have hnew := @Rebuilds.assign _ _ h message i _ _ (.text { block with text := block.text ++ delta }) hm
      (hagrees delta)
    rwa [update_eq_self] at hnew
  | thinkingDelta i delta =>
    obtain ⟨x, hprevious, hm⟩ := hext
    obtain ⟨rest, hrest, hagrees⟩ := (hprevious ▸ h.agrees i).thinking_right
    obtain ⟨block, hblock, rfl⟩ := StreamedMessage.thinking_of_payloadAt hrest
    simp only [applyDelta, hblock]
    refine ⟨_, _, rfl, ?_⟩
    have hnew := @Rebuilds.assign _ _ h message i _ _
      (.thinking { block with thinking := block.thinking ++ delta }) hm (hagrees delta)
    rwa [update_eq_self] at hnew
  | toolcallDelta i delta =>
    obtain ⟨a, a', hprevious, hm⟩ := hext
    obtain ⟨a'', hrest⟩ := (hprevious ▸ h.agrees i).toolCall_right
    obtain ⟨block, hblock⟩ := StreamedMessage.toolCall_of_payloadAt hrest
    have hi : payloadAt message i = some (.toolCall a') := by rw [hm, update_self]
    obtain ⟨full, hfull, rfl⟩ := toolCall_of_payloadAt hi
    simp only [applyDelta, hblock, compactToolCallArguments, hfull]
    exact ⟨_, _, rfl, h.assign hm (.same _)⟩
  | textEnd i content =>
    obtain ⟨x, hprevious, hm⟩ := hext
    obtain ⟨rest, hrest, -⟩ := (hprevious ▸ h.agrees i).text_right
    obtain ⟨block, hblock, -⟩ := StreamedMessage.text_of_payloadAt hrest
    simp only [applyDelta, hblock]
    exact ⟨_, _, rfl, h.assign hm (.same _)⟩
  | thinkingEnd i content =>
    obtain ⟨x, hprevious, hm⟩ := hext
    obtain ⟨rest, hrest, -⟩ := (hprevious ▸ h.agrees i).thinking_right
    obtain ⟨block, hblock, -⟩ := StreamedMessage.thinking_of_payloadAt hrest
    simp only [applyDelta, hblock]
    exact ⟨_, _, rfl, h.assign hm (.same _)⟩
  | toolcallEnd i toolCall =>
    obtain ⟨a, -, hm⟩ := hext
    exact ⟨_, _, rfl, h.assign hm (.same _)⟩
  | _ => exact hext.elim

/-! ## Runs of events -/

/-- Of every session that has a message, the message is rebuilt. -/
def Related (tracks : String → Option Track) (r : Reconstructor) : Prop :=
  ∀ s t, tracks s = some t → ∃ streamed, r.partialMessages.get? s = some streamed ∧ Rebuilds t streamed

variable {tracks : String → Option Track} {r : Reconstructor}

theorem Related.set (h : Related tracks r) {s : String}
    {t : Track} {streamed : StreamedMessage} (hs : Rebuilds t streamed) (json : OrderedMap String String) :
    Related (update tracks s (some t))
      { partialMessages := r.partialMessages.set s streamed, toolCallJson := json } := by
  intro s' t' ht
  rw [OrderedMap.get?_set]
  by_cases hss : s' = s
  · rw [hss, update_self] at ht
    cases ht
    exact ⟨streamed, if_pos hss, hs⟩
  · rw [update_of_ne hss] at ht
    rw [if_neg hss]
    exact h s' t' ht

theorem Related.clear (h : Related tracks r) (s : String) :
    Related (update tracks s none) (r.clear s) := by
  intro s' t' ht
  rw [Reconstructor.clear, OrderedMap.get?_delete]
  by_cases hss : s' = s
  · rw [hss, update_self] at ht
    cases ht
  · rw [update_of_ne hss] at ht
    rw [if_neg hss]
    exact h s' t' ht

theorem feed_update (h : Related tracks r) {s : String}
    {message : AssistantMessage} {event : AssistantMessageEvent} {previous : Option AssistantMessage}
    {eventMeta : Option μ}
    (hfollows : Follows tracks (.sessionEvent s (.messageUpdate (.assistant message) event previous) eventMeta)) :
    ∃ t streamed json, tracks s = some t ∧
      Rebuilds { message, opened := openedAfter message t.opened event } streamed ∧
      feed parseStreamingJson r (.sessionEvent s (.messageUpdate (.assistant message) event previous) eventMeta) =
        (some { activeSessionId := s, message := streamed, assistantMessageEvent := event, eventMeta },
          { partialMessages := r.partialMessages.set s streamed, toolCallJson := json }) := by
  obtain ⟨t, ht, hext⟩ := hfollows
  obtain ⟨streamed, hstreamed, hrebuilds⟩ := h s t ht
  obtain ⟨content, json, happly, hnew⟩ :=
    applyDelta_rebuilds parseStreamingJson hrebuilds hext s eventMeta r.toolCallJson
  refine ⟨t, { streamed with content }, json, ht, hnew, ?_⟩
  simp only [feed, createCompactAssistantDelta, Reconstructor.reconstruct, hstreamed, happly]

theorem feed_related (h : Related tracks r)
    {outbound : DaemonOutbound μ} (hfollows : Follows tracks outbound) :
    Related (track tracks outbound) (feed parseStreamingJson r outbound).2 := by
  cases outbound with
  | sessionEvent s event eventMeta =>
    cases event with
    | other => exact hfollows.elim
    | messageEnd message => exact h.clear s
    | messageStart message =>
      cases message with
      | assistant message => exact h.set (rebuilds_of message) r.toolCallJson
      | _ => exact h
    | messageUpdate message event previous =>
      cases message with
      | assistant message =>
        obtain ⟨t, streamed, json, ht, hrebuilds, hfeed⟩ := feed_update parseStreamingJson h hfollows
        rw [hfeed, track, ht]
        exact h.set hrebuilds json
      | _ => exact h
  | _ => exact hfollows.elim

theorem related_new : Related (fun _ => none) .new := by
  intro s t ht
  cases ht

theorem feedAll_related {run rest : List (DaemonOutbound μ)} (h : IsRun (fun _ => none) (run ++ rest)) :
    Related (trackAll run) (feedAll parseStreamingJson run) ∧ IsRun (trackAll run) rest := by
  unfold trackAll feedAll
  have hnew := related_new
  revert h hnew
  generalize Reconstructor.new = r
  generalize (fun _ => none : String → Option Track) = tracks
  induction run generalizing tracks r with
  | nil => exact fun h hrelated => ⟨hrelated, h⟩
  | cons outbound run ih => exact fun h hrelated => ih _ _ h.2 (feed_related parseStreamingJson hrelated h.1)

/-- A start that opens its block with nothing in it. -/
def OpensBlank : DaemonOutbound μ → Prop
  | .sessionEvent _ (.messageUpdate (.assistant message) (.textStart i) _) _ =>
    ∀ p ∈ payloadAt message i, p.IsBlank
  | .sessionEvent _ (.messageUpdate (.assistant message) (.thinkingStart i) _) _ =>
    ∀ p ∈ payloadAt message i, p.IsBlank
  | .sessionEvent _ (.messageUpdate (.assistant message) (.toolcallStart i) _) _ =>
    ∀ p ∈ payloadAt message i, p.IsBlank
  | _ => True

/-- Nothing is opened with something in it. -/
def AllBlank (tracks : String → Option Track) : Prop :=
  ∀ s t, tracks s = some t → ∀ i, ∀ p ∈ t.opened i, p.IsBlank

theorem AllBlank.update (h : AllBlank tracks) (s : String) {t : Option Track}
    (ht : ∀ x ∈ t, ∀ i, ∀ p ∈ x.opened i, p.IsBlank) : AllBlank (update tracks s t) := by
  intro s' x hx
  by_cases hss : s' = s
  · rw [hss, update_self] at hx
    exact ht x hx
  · rw [update_of_ne hss] at hx
    exact h s' x hx

theorem blank_update {opened : Nat → Option Payload} (h : ∀ i, ∀ p ∈ opened i, p.IsBlank) (i : Nat)
    {o : Option Payload} (ho : ∀ p ∈ o, p.IsBlank) : ∀ j, ∀ p ∈ update opened i o j, p.IsBlank := by
  intro j
  by_cases hj : j = i
  · rw [hj, update_self]
    exact ho
  · rw [update_of_ne hj]
    exact h j

theorem track_allBlank (h : AllBlank tracks) {outbound : DaemonOutbound μ}
    (hblank : OpensBlank outbound) : AllBlank (track tracks outbound) := by
  cases outbound with
  | sessionEvent s event eventMeta =>
    cases event with
    | other => exact h
    | messageEnd message => exact h.update s (by simp)
    | messageStart message =>
      cases message with
      | assistant message => exact h.update s (by simp)
      | _ => exact h
    | messageUpdate message event previous =>
      cases message with
      | assistant message =>
        refine h.update s fun x hx => ?_
        obtain ⟨t, ht, rfl⟩ := map_eq_some_iff.1 hx
        have hopened := h s t ht
        cases event with
        | textStart i => exact blank_update hopened i hblank
        | thinkingStart i => exact blank_update hopened i hblank
        | toolcallStart i => exact blank_update hopened i hblank
        | textEnd i content => exact blank_update hopened i (by simp)
        | thinkingEnd i content => exact blank_update hopened i (by simp)
        | toolcallDelta i delta => exact blank_update hopened i (by simp)
        | toolcallEnd i toolCall => exact blank_update hopened i (by simp)
        | _ => exact hopened
      | _ => exact h
  | _ => exact h

theorem trackAll_allBlank {run : List (DaemonOutbound μ)} (h : ∀ outbound ∈ run, OpensBlank outbound) :
    AllBlank (trackAll run) := by
  unfold trackAll
  have hnone : AllBlank fun _ => none := by
    intro s t ht
    cases ht
  revert hnone
  generalize (fun _ => none : String → Option Track) = tracks
  induction run generalizing tracks with
  | nil => exact fun hblank => hblank
  | cons outbound run ih =>
    intro hblank
    obtain ⟨hhead, hrest⟩ := List.forall_mem_cons.1 h
    exact ih hrest _ (track_allBlank hblank hhead)

/-- After each update of a run the message is rebuilt block by block: what a start opened a block with is
left out until an event says all of the block, and everything is rebuilt when every block is opened with
nothing in it. -/
theorem reconstruct_agrees {run rest : List (DaemonOutbound μ)} {s : String} {message : AssistantMessage}
    {event : AssistantMessageEvent} {previous : Option AssistantMessage} {eventMeta : Option μ}
    (h : IsRun (fun _ => none)
      (run ++ .sessionEvent s (.messageUpdate (.assistant message) event previous) eventMeta :: rest)) :
    ∃ t streamed, trackAll run s = some t ∧
      (feed parseStreamingJson (feedAll parseStreamingJson run)
        (.sessionEvent s (.messageUpdate (.assistant message) event previous) eventMeta)).1 =
          some { activeSessionId := s, message := streamed, assistantMessageEvent := event, eventMeta } ∧
      streamed.content.length = message.content.length ∧
      (∀ i, Agrees (openedAfter message t.opened event i) (payloadAt message i) (streamed.payloadAt i)) ∧
      ((∀ outbound ∈ run ++ [.sessionEvent s (.messageUpdate (.assistant message) event previous) eventMeta],
          OpensBlank outbound) →
        ∀ i, streamed.payloadAt i = payloadAt message i) := by
  obtain ⟨hrelated, hrun⟩ := feedAll_related parseStreamingJson h
  obtain ⟨t, streamed, json, ht, hrebuilds, hfeed⟩ :=
    feed_update parseStreamingJson hrelated hrun.1
  refine ⟨t, streamed, ht, by rw [hfeed], hrebuilds.length, hrebuilds.agrees, fun hblank i => ?_⟩
  have hall := trackAll_allBlank hblank
  refine (hrebuilds.agrees i).eq_of_blank (hall s { message, opened := openedAfter message t.opened event } ?_ i)
  rw [trackAll, List.foldl_append, ← trackAll, List.foldl_cons, List.foldl_nil, track, ht, update_self]
  rfl

end

def answer (content : List AssistantBlock) : AssistantMessage :=
  { content, api := "openai-completions", provider := "test", model := "test"
    responseModel := none, responseId := none, diagnostics := none
    usage :=
      { input := 0, output := 0, cacheRead := 0, cacheWrite := 0, totalTokens := 0
        cost := ⟨.ofInt 0, .ofInt 0, .ofInt 0, .ofInt 0, .ofInt 0⟩ }
    stopReason := .stop, stopReasonRaw := none, errorMessage := none, timestamp := 1 }

def hello : AssistantMessage := answer [.text ⟨"Hello", none⟩]

def started : DaemonOutbound Unit := .sessionEvent "a" (.messageStart (.assistant (answer []))) none

def helloStarted : DaemonOutbound Unit :=
  .sessionEvent "a" (.messageUpdate (.assistant hello) (.textStart 0) none) none

def helloEnded : DaemonOutbound Unit :=
  .sessionEvent "a" (.messageUpdate (.assistant hello) (.textEnd 0 "Hello") none) none

theorem isRun_hello : IsRun (fun _ => none) [started, helloStarted, helloEnded] := by
  refine ⟨trivial, ⟨_, rfl, "Hello", ?_⟩, ⟨_, rfl, "Hello", rfl, ?_⟩, trivial⟩
  · funext i
    cases i with
    | zero | succ => rfl
  · funext i
    cases i with
    | zero | succ => rfl

/-- At its end a block that was opened with a text is whole again. -/
theorem reconstruct_agrees_hello : ∃ streamed,
    (feed (fun _ => []) (feedAll (fun _ => []) [started, helloStarted]) helloEnded).1 =
        some { activeSessionId := "a", message := streamed, assistantMessageEvent := .textEnd 0 "Hello"
               eventMeta := none } ∧
      Agrees none (some (.text "Hello")) (streamed.payloadAt 0) := by
  obtain ⟨t, streamed, -, hfeed, -, hagrees, -⟩ :=
    @reconstruct_agrees Unit (fun _ => []) [started, helloStarted] [] "a" hello (.textEnd 0 "Hello") none none
      isRun_hello
  exact ⟨streamed, hfeed, hagrees 0⟩

/-- Until then it is not. -/
theorem reconstruct_blanks_start : IsRun (fun _ => none) [started, helloStarted, helloEnded] ∧ ∃ streamed,
    (feed (fun _ => []) (feedAll (fun _ => []) [started]) helloStarted).1 =
        some { activeSessionId := "a", message := streamed, assistantMessageEvent := .textStart 0
               eventMeta := none } ∧
      streamed.payloadAt 0 = some (.text "") ∧ payloadAt hello 0 = some (.text "Hello") :=
  ⟨isRun_hello, _, rfl, rfl, rfl⟩

end CompactStream
end Daemon
end RePrime
