import Mathlib.Data.List.Chain
import RePrime.Agent.ToolCalls

/-!
# RePrime.Agent.ReflexBudget

The turns that a reflex takes instead of the provider.

* `reflexes`: how many there were since the last turn of the provider, read off the events.
* `Unmoved`: what all events but those of the turns leave as it is.
* `Polled`: every reflex comes after a poll that found nothing, with only reflexes between.
* `reflexes_of_run`: there are never more in a row than the limit, none while messages are pending, and none while
  messages wait, if they come at other times.
-/

namespace RePrime
namespace Agent

open List

/-- Whether the open turn is a reflex, and the reflexes since the last turn of the provider. -/
structure Reflexes where
  inReflex : Bool
  count : Nat

/-- A turn of the provider is one that ends and did not begin with a reflex. -/
def Reflexes.step (s : Reflexes) : AgentEvent → Reflexes
  | .reflex .. => ⟨true, s.count + 1⟩
  | .turnEnd .. => ⟨false, if s.inReflex then s.count else 0⟩
  | _ => s

def reflexes (events : List AgentEvent) : Reflexes := events.foldl Reflexes.step ⟨false, 0⟩

/-- At no time there were more than `k` in a row. -/
def Budgeted (k : Nat) (events : List AgentEvent) : Prop := ∀ earlier, earlier <+: events → (reflexes earlier).count ≤ k

def AgentEvent.isReflex : AgentEvent → Bool
  | .reflex .. => true
  | _ => false

open AgentEvent

/-- Neither a reflex nor the end of a turn. -/
def AgentEvent.isPlain : AgentEvent → Bool
  | .reflex .. | .turnEnd .. => false
  | _ => true

theorem reflexes_append (events : List AgentEvent) (event : AgentEvent) :
    reflexes (events ++ [event]) = (reflexes events).step event := by
  rw [reflexes, foldl_append]
  rfl

theorem Reflexes.step_plain {event : AgentEvent} (h : event.isPlain = true) (s : Reflexes) : s.step event = s := by
  cases event with
  | reflex | turnEnd => cases h
  | _ => rfl

/-! ## What the loop does between reflexes -/

section Trail

variable {σ : Type} {trail : List (Mark × σ)}

/-- The last poll for steering messages has found nothing, and no turn of the provider came since. -/
def calm (trail : List (Mark × σ)) : Bool :=
  trail.foldl (fun calm entry => match entry.1 with
    | .polled messages => messages.isEmpty
    | .reflex => calm
    | .provider => false) false

def Polled (trail : List (Mark × σ)) : Prop :=
  ∀ before host after, trail = before ++ (.reflex, host) :: after → calm before = true

theorem calm_concat (m : Mark) (host : σ) : calm (trail ++ [(m, host)]) = match m with
    | .polled messages => messages.isEmpty
    | .reflex => calm trail
    | .provider => false := foldl_concat ..

theorem polled_nil : Polled ([] : List (Mark × σ)) := by
  intro before host after h
  simp at h

theorem Polled.concat (h : Polled trail) {m : Mark} (host : σ) (hm : m = .reflex → calm trail = true) :
    Polled (trail ++ [(m, host)]) := by
  intro before host' after heq
  obtain rfl | ⟨after, last, rfl⟩ := eq_nil_or_concat after
  · obtain ⟨rfl, hlast⟩ := append_inj' heq rfl
    cases hlast
    exact hm rfl
  · rw [concat_eq_append, ← cons_append, ← append_assoc] at heq
    exact h before host' after (append_inj' heq rfl).1

/-- No message waits after a poll that finds nothing, and none comes between that and a reflex, or between two
reflexes. -/
structure Quiet (waiting : σ → List AgentMessage) (trail : List (Mark × σ)) : Prop where
  polls : ∀ entry ∈ trail, entry.1 = .polled [] → waiting entry.2 = []
  arrivals : trail.IsChain fun entry next => next.1 = .reflex → waiting entry.2 = [] → waiting next.2 = []

/-- Nothing waits after what is before a reflex. Induction along the trail. -/
theorem Quiet.last {waiting : σ → List AgentMessage} (h : Quiet waiting trail) (hcalm : calm trail = true)
    (hpolled : Polled trail) : ∃ earlier entry, trail = earlier ++ [entry] ∧ waiting entry.2 = [] := by
  induction trail using List.reverseRecOn with
  | nil => cases hcalm
  | append_singleton earlier entry ih =>
    refine ⟨earlier, entry, rfl, ?_⟩
    obtain ⟨m, host⟩ := entry
    rw [calm_concat] at hcalm
    cases m with
    | polled messages =>
      have hnone : messages = [] := isEmpty_iff.1 hcalm
      exact h.polls _ (mem_append_right _ mem_cons_self) (by rw [hnone])
    | provider => cases hcalm
    | reflex =>
      have hearlier : Polled earlier := by
        rintro before host' after rfl
        exact hpolled before host' (after ++ [(.reflex, host)]) (by simp)
      have hquiet : Quiet waiting earlier :=
        ⟨fun e he => h.polls e (mem_append_left _ he), h.arrivals.left_of_append⟩
      obtain ⟨start, last, rfl, hlast⟩ := ih hquiet hcalm hearlier
      rw [append_assoc] at h
      exact (isChain_append_cons_cons.1 h.arrivals).2.1 rfl hlast

theorem Polled.quiet {waiting : σ → List AgentMessage} (h : Polled trail) (hquiet : Quiet waiting trail) {host : σ}
    (hmem : (.reflex, host) ∈ trail) : waiting host = [] := by
  obtain ⟨before, after, rfl⟩ := append_of_mem hmem
  have hbefore : Polled before := by
    rintro earlier host' rest rfl
    exact h earlier host' (rest ++ (.reflex, host) :: after) (by simp)
  have hquiet' : Quiet waiting before :=
    ⟨fun e he => hquiet.polls e (mem_append_left _ he), hquiet.arrivals.left_of_append⟩
  obtain ⟨earlier, entry, rfl, hentry⟩ := hquiet'.last (h before host after rfl) hbefore
  have harrivals := hquiet.arrivals
  rw [append_assoc] at harrivals
  exact (isChain_append_cons_cons.1 harrivals).2.1 rfl hentry

end Trail

theorem isReflex_of_plain {event : AgentEvent} (h : event.isPlain = true) : event.isReflex = false := by
  cases event with
  | reflex => cases h
  | _ => rfl

theorem Budgeted.append {k : Nat} {events : List AgentEvent} {event : AgentEvent} (h : Budgeted k events)
    (hlast : ((reflexes events).step event).count ≤ k) : Budgeted k (events ++ [event]) := by
  intro earlier hearlier
  obtain rfl | hearlier := prefix_concat_iff.1 hearlier
  · rw [reflexes_append]
    exact hlast
  · exact h earlier hearlier

namespace AgentLoopConfig

open Effect

variable {σ : Type} {config : AgentLoopConfig σ}

/-! ## What only the turns move -/

structure Unmoved (Q : Run σ → Prop) : Prop where
  frame : ∀ r r', r'.events = r.events → r'.trail = r.trail → Q r → Q r'
  emit : ∀ event r, event.isPlain = true → Q r → Q { r with events := r.events ++ [event] }

def Keeps {α : Type} (Q : Run σ → Prop) (m : Loop σ α) : Prop := Triple Q m (fun _ => Q) fun _ => Q

section Keeps

variable {α β : Type} {Q : Run σ → Prop}

theorem Keeps.of {m : Loop σ α} {R : α → Run σ → Prop} (h : Triple Q m R fun _ => Q) (hR : ∀ a r, R a r → Q r) :
    Keeps Q m := h.conseq (fun _ hr => hr) hR fun _ _ hr => hr

theorem Keeps.bind {m : Loop σ β} {f : β → Loop σ α} (hm : Keeps Q m) (hf : ∀ b, Keeps Q (f b)) : Keeps Q (m >>= f) :=
  Triple.bind hm hf

theorem Keeps.pure (a : α) : Keeps Q (pure a : Loop σ α) := Triple.pure fun _ hr => hr

theorem Keeps.throw (e : AgentError) : Keeps Q (throw e : Loop σ α) := Triple.throw fun _ hr => hr

theorem Keeps.get : Keeps Q (MonadState.get : Loop σ (Run σ)) := Triple.get fun _ hr => hr

theorem Keeps.aborted : Keeps Q config.signalAborted := fun _ hr => hr

theorem Keeps.settle {operation : Loop σ α} (h : Keeps Q operation) : Keeps Q (config.settlePostTurn operation) :=
  settlePostTurn_spec h fun _ _ hr => hr

theorem Keeps.forEach {f : β → Loop σ Unit} (hf : ∀ b, Keeps Q (f b)) (l : List β) : Keeps Q (Effect.forEach f l) :=
  Triple.forEach (I := fun _ => Q) fun _ b _ _ => hf b

theorem Keeps.recover {m instead : Loop σ α} (hm : Keeps Q m) (hinstead : Keeps Q instead) :
    Keeps Q (tryCatch m fun e => do
      if (← config.signalAborted) && e.isAbortError then instead else MonadExcept.throw e) := by
  refine Triple.tryCatch hm fun e => Keeps.bind Keeps.aborted fun aborted => ?_
  split
  · exact hinstead
  · exact Keeps.throw e

variable (hQ : Unmoved Q)

include hQ

theorem Unmoved.stable : config.Stable Q := fun r _ _ hr => hQ.frame r _ rfl rfl hr

theorem Unmoved.emits {event : AgentEvent} (hevent : event.isPlain = true) : Keeps Q (config.emit event) :=
  emit_spec hQ.stable (fun r hr => hQ.emit event r hevent hr) fun _ _ _ hr _ => hr

theorem Unmoved.race (operation : Hook config.aborted (Outcome α)) : Keeps Q (config.raceWithAbort operation) :=
  raceWithAbort_spec hQ.stable (fun _ _ hr => hr) operation

theorem Unmoved.push (m : AgentMessage) : Keeps Q (pushContext m : Loop σ Unit) :=
  Triple.modify fun r hr => hQ.frame r _ rfl rfl hr

theorem Unmoved.replace (m : AgentMessage) : Keeps Q (replaceLast m : Loop σ Unit) :=
  Triple.modify fun r hr => hQ.frame r _ rfl rfl hr

theorem Unmoved.receive (p : Option AssistantMessage) :
    Keeps Q (modify fun r => { r with partialMessage := p } : Loop σ Unit) :=
  Triple.modify fun r hr => hQ.frame r _ rfl rfl hr

theorem Unmoved.announce (m : AgentMessage) : Keeps Q (config.announce m) :=
  (hQ.emits rfl).bind fun _ => hQ.emits rfl

theorem Unmoved.deliver (m : AgentMessage) : Keeps Q (config.deliver m) :=
  (hQ.announce m).bind fun _ => hQ.push m

theorem Unmoved.finishMessage (m : AssistantMessage) : Keeps Q (config.finishMessage m) := by
  refine Keeps.bind (Keeps.get.bind fun r => ?_) fun _ => Keeps.bind (hQ.emits rfl) fun _ => Keeps.pure m
  split
  · exact hQ.replace _
  · exact (hQ.push _).bind fun _ => hQ.emits (by rfl)

theorem Unmoved.consume (response : Response) (rest : List AssistantMessageEvent) :
    Keeps Q (config.consume response rest) := by
  have hterminal : ∀ m, Keeps Q (do
      let message ← config.terminalMessage m response.result
      config.finishMessage message) := by
    intro m
    exact (Keeps.recover (hQ.race _) (Keeps.pure m)).bind fun message => hQ.finishMessage message
  induction rest with
  | nil => exact (hQ.race _).bind fun _ => (hQ.race _).bind fun message => hQ.finishMessage message
  | cons event rest ih =>
    refine (hQ.race _).bind fun _ => ?_
    cases event with
    | start m =>
      refine Keeps.bind ?_ fun _ => ih
      exact (hQ.receive _).bind fun _ => (hQ.push _).bind fun _ => hQ.emits (by rfl)
    | update m =>
      refine Keeps.bind (Keeps.get.bind fun r => ?_) fun _ => ih
      split
      · exact (hQ.receive _).bind fun _ => (hQ.replace _).bind fun _ => hQ.emits (by rfl)
      · exact Keeps.pure ()
    | done m => exact hterminal m
    | error m => exact hterminal m

theorem Unmoved.streamAssistantResponse : Keeps Q config.streamAssistantResponse := by
  refine (hQ.receive none).bind fun _ => Keeps.recover ?_ ?_
  · refine Keeps.bind ?_ fun response => hQ.consume response _
    exact Keeps.of (request_spec hQ.stable fun _ _ hr => hr) fun _ _ hr => hr.1
  · refine Keeps.get.bind fun r => Keeps.bind ?_ fun timestamp => hQ.finishMessage _
    exact hook_spec hQ.stable _

theorem Unmoved.tools : ToolInvariant config (fun _ _ => Q) (fun _ _ => Q) fun _ => Q where
  stable := fun _ _ => hQ.stable
  stableMessage := fun _ _ => hQ.stable
  perm := fun _ _ _ _ _ hr => hr
  start := fun _ _ _ _ _ r hr => hQ.emit _ r rfl hr
  update := fun _ _ _ _ _ _ r hr => hQ.emit _ r rfl hr
  stop := fun _ _ _ _ _ _ r hr => hQ.emit _ r rfl hr
  openMessage := fun _ _ r hr => hQ.emit _ r rfl hr
  closeMessage := fun _ _ r hr => hQ.emit _ r rfl hr
  throws := fun _ _ _ _ hr => hr
  throwsMessage := fun _ _ _ _ hr => hr

theorem Unmoved.executeToolCalls (fuel : Nat) (m : AssistantMessage) : Keeps Q (config.executeToolCalls fuel m) :=
  Keeps.of (executeToolCalls_spec hQ.tools fuel m) fun _ _ hr => hr.1

theorem Unmoved.pushResults (results : List ToolResultMessage) : Keeps Q (pushResults results : Loop σ Unit) :=
  Keeps.forEach (fun result => hQ.push (.toolResult result)) results

theorem Unmoved.openTurn (st : LoopState) : Keeps Q (config.openTurn st) := by
  rw [AgentLoopConfig.openTurn]
  split
  · exact Keeps.pure ()
  · exact hQ.emits rfl

theorem Unmoved.toolTurn (fuel : Nat) (m : AssistantMessage) : Keeps Q (config.toolTurn fuel m) := by
  rw [AgentLoopConfig.toolTurn]
  split
  · exact Keeps.pure _
  · refine (hQ.executeToolCalls fuel m).bind fun batch => ?_
    exact (hQ.pushResults batch.messages).bind fun _ => Keeps.pure _

theorem Unmoved.shouldStop (st : LoopState) : Keeps Q (config.shouldStopBefore st) :=
  shouldStopBefore_spec hQ.stable (fun _ _ hr => hr) st

theorem Unmoved.poll (poll : Option (Hook config.aborted (Outcome (List AgentMessage)))) :
    Keeps Q (config.settlePostTurn (config.pollMessagesUnlessAborted poll)) :=
  Keeps.settle (pollMessagesUnlessAborted_spec hQ.stable (fun _ _ hr => hr) poll)

theorem Unmoved.settleHook (hook : Option (Hook config.aborted (Outcome α))) (default : α) :
    Keeps Q (config.settleHook hook default) := settleHook_spec hQ.stable (fun _ _ hr => hr) hook default

/-! ## Between two turns -/

/-- If the run goes on, then with `n` reflexes in a row. -/
def Progress.Leaves (n : Nat) : Progress → Prop
  | .ended _ => True
  | .next st => st.consecutiveReflexes = n

def Leads (Q : Run σ → Prop) (n : Nat) (m : Loop σ Progress) : Prop :=
  Triple Q m (fun progress r => Q r ∧ progress.Leaves n) fun _ => Q

theorem Unmoved.endRun (n : Nat) (new : List AgentMessage) : Leads Q n (config.endRun new) :=
  Triple.bind (hQ.emits rfl) fun _ => Triple.pure fun _ hr => ⟨hr, trivial⟩

theorem Unmoved.endOr {n : Nat} {new : List AgentMessage} {next : Loop σ Progress} (hnext : Leads Q n next) :
    Leads Q n (do if ← config.signalAborted then config.endRun new else next) := by
  refine Triple.bind Keeps.aborted fun aborted => ?_
  split
  · exact hQ.endRun n new
  · exact hnext

theorem Unmoved.afterTurn (hmark : ∀ m r, Q r → Q { r with trail := r.trail ++ [(m, r.host)] }) (st : LoopState)
    (m : AssistantMessage) (toolResults : List ToolResultMessage) :
    Leads Q st.consecutiveReflexes (config.afterTurn st m toolResults) := by
  refine Triple.bind Keeps.get fun r => Triple.bind (hQ.settleHook _ _) fun stop => ?_
  split
  · exact hQ.endRun _ _
  · exact hQ.endRun _ _
  · refine Triple.bind (hQ.shouldStop st) fun stop => ?_
    split
    · exact hQ.endRun _ _
    · have hsteering : Keeps Q (config.settlePostTurn config.pollSteering) :=
        Keeps.settle (pollSteering_spec hQ.stable (fun _ _ hr => hr) fun r _ hr => hmark _ r hr)
      refine Triple.bind hsteering fun steering => ?_
      split
      · exact hQ.endRun _ _
      · refine Triple.bind (hQ.shouldStop st) fun stop => ?_
        split
        · exact hQ.endRun _ _
        · exact Triple.pure fun _ hr => ⟨hr, rfl⟩
      · exact Triple.pure fun _ hr => ⟨hr, rfl⟩

theorem Unmoved.followUps (st : LoopState) : Leads Q st.consecutiveReflexes (config.followUps st) := by
  refine Triple.bind (hQ.shouldStop st) fun stop => ?_
  split
  · exact hQ.endRun _ _
  refine Triple.bind (hQ.poll _) fun followUp => ?_
  split
  · exact hQ.endRun _ _
  · refine Triple.bind (hQ.shouldStop st) fun stop => ?_
    split
    · exact hQ.endRun _ _
    · refine Triple.bind (Keeps.get.bind fun r => ?_) fun continuation => ?_
      · split
        · exact Keeps.pure _
        · exact hQ.settleHook _ _
      split
      · exact hQ.endRun _ _
      · exact hQ.endRun _ _
      · exact Triple.pure fun _ hr => ⟨hr, rfl⟩
  · exact Triple.pure fun _ hr => ⟨hr, rfl⟩

end Keeps

theorem providerTurn_parts {P Q Q' E : Run σ → Prop} {R : Progress → Run σ → Prop} (hQ : Unmoved Q) (hQ' : Unmoved Q')
    (hstart : ∀ r, P r → Q { r with trail := r.trail ++ [(Mark.provider, r.host)] })
    (hend : ∀ m results r, Q r → Q' { r with events := r.events ++ [turnEnd m results] })
    (hE : ∀ r, Q r → E r) (hE' : ∀ r, Q' r → E r)
    (hended : ∀ new, Triple Q' (config.endRun new) R fun _ => E)
    (hafter : ∀ st m results, st.consecutiveReflexes = 0 → Triple Q' (config.afterTurn st m results) R fun _ => E)
    (fuel : Nat) (st : LoopState) : Triple P (config.providerTurn fuel st) R fun _ => E := by
  have hkeeps : ∀ {α : Type} {m : Loop σ α}, Keeps Q m → Triple Q m (fun _ => Q) fun _ => E :=
    fun h => h.conseq (fun _ hr => hr) (fun _ _ hr => hr) fun _ => hE
  have hturnEnd : ∀ m results, Triple Q (config.emit (.turnEnd m results)) (fun _ => Q') fun _ => E :=
    fun m results => emit_spec hQ'.stable (hend m results) fun _ r _ hr _ => hE' r hr
  refine Triple.bind (R := fun _ => Q) (Triple.modify hstart) fun _ => ?_
  refine Triple.bind (hkeeps (hQ.openTurn st)) fun _ => ?_
  refine Triple.bind (hkeeps (Keeps.forEach hQ.deliver _)) fun _ => ?_
  refine Triple.bind (hkeeps hQ.streamAssistantResponse) fun message => ?_
  split
  · exact Triple.bind (hturnEnd _ _) fun _ => hended _
  · refine Triple.bind (hkeeps (hQ.toolTurn fuel message)) fun results => ?_
    refine Triple.bind (hturnEnd _ _) fun _ => Triple.bind signalAborted_spec fun aborted => ?_
    split
    · exact (hended _).strengthen fun _ hr => hr.1
    · exact (hafter _ _ _ rfl).strengthen fun _ hr => hr.1

/-- For what marks do not change. -/
theorem providerTurn_leads {Q Q' E : Run σ → Prop} (hQ : Unmoved Q) (hQ' : Unmoved Q')
    (hmark : ∀ m r, Q r → Q { r with trail := r.trail ++ [(m, r.host)] })
    (hmark' : ∀ m r, Q' r → Q' { r with trail := r.trail ++ [(m, r.host)] })
    (hend : ∀ m results r, Q r → Q' { r with events := r.events ++ [turnEnd m results] })
    (hE : ∀ r, Q r → E r) (hE' : ∀ r, Q' r → E r) (fuel : Nat) (st : LoopState) :
    Triple Q (config.providerTurn fuel st) (fun progress r => Q' r ∧ progress.Leaves 0) fun _ => E := by
  have hleads : ∀ {m : Loop σ Progress}, Leads Q' 0 m →
      Triple Q' m (fun progress r => Q' r ∧ progress.Leaves 0) fun _ => E :=
    fun h => h.conseq (fun _ hr => hr) (fun _ _ hr => hr) fun _ => hE'
  refine providerTurn_parts hQ hQ' (hmark _) hend hE hE' (fun new => hleads (hQ'.endRun 0 new)) ?_ fuel st
  intro st m results hst
  have hafter : Leads Q' st.consecutiveReflexes (config.afterTurn st m results) := hQ'.afterTurn hmark' st m results
  rw [hst] at hafter
  exact hleads hafter

/-! ## The reflexes of a run -/

def reflexLimit (config : AgentLoopConfig σ) : Nat :=
  config.maxConsecutiveReflexes.getD DEFAULT_MAX_CONSECUTIVE_REFLEXES

structure Within (k : Nat) (s : Reflexes) (r : Run σ) : Prop where
  now : reflexes r.events = s
  budget : Budgeted k r.events

/-- What is left of a run that throws. -/
def Spent (k : Nat) (_ : AgentError) (r : Run σ) : Prop := Budgeted k r.events

def Counted (k : Nat) (progress : Progress) (r : Run σ) : Prop :=
  match progress with
  | .ended _ => Budgeted k r.events
  | .next st => Within k ⟨false, st.consecutiveReflexes⟩ r

section Budget

variable {k : Nat} {s : Reflexes} {r : Run σ}

theorem Within.emitted (h : Within k s r) {event : AgentEvent} (hle : (s.step event).count ≤ k) :
    Within k (s.step event) { r with events := r.events ++ [event] } := by
  refine ⟨?_, h.budget.append ?_⟩
  · rw [reflexes_append, h.now]
  · rw [h.now]
    exact hle

theorem Within.count_le (h : Within k s r) : s.count ≤ k := by
  have hlast := h.budget r.events prefix_rfl
  rw [h.now] at hlast
  exact hlast

theorem within_unmoved : Unmoved (Within k s : Run σ → Prop) where
  frame := by
    rintro r r' heq - ⟨hnow, hbudget⟩
    rw [← heq] at hnow hbudget
    exact ⟨hnow, hbudget⟩
  emit := by
    intro event r hevent h
    have hstep := Reflexes.step_plain hevent s
    have hemitted := h.emitted (hstep.symm ▸ h.count_le)
    rw [hstep] at hemitted
    exact hemitted

theorem Within.marked (m : Mark) (r : Run σ) (h : Within k s r) :
    Within k s { r with trail := r.trail ++ [(m, r.host)] } := ⟨h.now, h.budget⟩

theorem Keeps.within {α : Type} {m : Loop σ α} (h : Keeps (Within k s) m) :
    Triple (Within k s) m (fun _ => Within k s) (Spent k) :=
  h.conseq (fun _ hr => hr) (fun _ _ hr => hr) fun _ _ hr => hr.budget

theorem Within.counted {n : Nat} {progress : Progress} (h : Within k ⟨false, n⟩ r) (hleaves : progress.Leaves n) :
    Counted k progress r := by
  cases progress with
  | ended => exact h.budget
  | next st =>
    rw [← hleaves] at h
    exact h

theorem Leads.counted {n : Nat} {m : Loop σ Progress} (h : Leads (Within k ⟨false, n⟩) n m) :
    Triple (Within k ⟨false, n⟩) m (Counted k) (Spent k) :=
  h.conseq (fun _ hr => hr) (fun _ _ hr => hr.1.counted hr.2) fun _ _ hr => hr.budget

theorem emit_within {event : AgentEvent} (hle : (s.step event).count ≤ k) :
    Triple (Within k s) (config.emit event) (fun _ => Within k (s.step event)) (Spent k) :=
  emit_spec within_unmoved.stable (fun _ hr => hr.emitted hle) fun _ _ _ hr _ => hr.budget

theorem reflexTurn_counted (fuel : Nat) (st : LoopState) (reflex : PreTurnReflex) (hst : st.consecutiveReflexes < k) :
    Triple (Within k ⟨false, st.consecutiveReflexes⟩) (config.reflexTurn fuel st reflex) (Counted k) (Spent k) := by
  have hopen : Unmoved (Within k ⟨true, st.consecutiveReflexes + 1⟩ : Run σ → Prop) := within_unmoved
  refine Triple.bind (R := fun _ => Within k ⟨false, st.consecutiveReflexes⟩) ?_ fun _ => ?_
  · exact Triple.modify fun r hr => hr.marked .reflex r
  refine Triple.bind (emit_within hst) fun _ => ?_
  refine Triple.bind (hopen.openTurn st).within fun _ => ?_
  refine Triple.bind (hook_spec hopen.stable config.randomUUID) fun uuid => ?_
  refine Triple.bind (hook_spec hopen.stable config.now) fun timestamp => ?_
  refine Triple.bind (hopen.deliver _).within fun _ => ?_
  refine Triple.bind (hopen.executeToolCalls fuel _).within fun batch => ?_
  refine Triple.bind (hopen.pushResults batch.messages).within fun _ => ?_
  refine Triple.bind (emit_within hst) fun _ => ?_
  exact Leads.counted (n := st.consecutiveReflexes + 1) (within_unmoved.endOr (Triple.pure fun _ hr => ⟨hr, rfl⟩))

theorem providerTurn_counted (fuel : Nat) (st : LoopState) (n : Nat) :
    Triple (Within k ⟨false, n⟩) (config.providerTurn fuel st) (Counted k) (Spent k) := by
  refine (@providerTurn_leads _ _ (Within k ⟨false, n⟩) (Within k ⟨false, 0⟩) (fun r => Budgeted k r.events)
    within_unmoved within_unmoved Within.marked Within.marked ?_
      (fun _ hr => hr.budget) (fun _ hr => hr.budget) fuel st).conseq (fun _ hr => hr) ?_
    fun _ _ hr => hr
  · intro m results r hr
    exact @Within.emitted _ _ _ _ hr (.turnEnd m results) (Nat.zero_le k)
  · rintro progress r ⟨hr, hleaves⟩
    exact hr.counted hleaves

theorem turn_counted (fuel : Nat) (st : LoopState) :
    Triple (Within config.reflexLimit ⟨false, st.consecutiveReflexes⟩) (config.turn fuel st)
      (Counted config.reflexLimit) (Spent config.reflexLimit) := by
  refine Triple.bind (throwIfAborted_spec fun _ _ hr => hr.budget) fun _ => ?_
  refine Triple.bind (R := fun reflex r => Within config.reflexLimit ⟨false, st.consecutiveReflexes⟩ r ∧
    (reflex.isSome = true → st.consecutiveReflexes < config.reflexLimit)) ?_ fun reflex => ?_
  · split
    · rename_i hreflex
      exact (resolvePreTurnReflex_spec within_unmoved.stable _ _).conseq (fun _ hr => hr)
        (fun _ _ hr => ⟨hr, fun _ => hreflex.2⟩) fun _ _ he => he
    · exact Triple.pure fun _ hr => ⟨hr, nofun⟩
  · rintro r ⟨hr, hlt⟩
    cases reflex with
    | none => exact providerTurn_counted fuel st _ r hr
    | some reflex => exact reflexTurn_counted fuel st reflex (hlt rfl) r hr

theorem turns_counted (fuel n : Nat) (st : LoopState) :
    Triple (Within config.reflexLimit ⟨false, st.consecutiveReflexes⟩) (config.turns fuel n st)
      (Counted config.reflexLimit) (Spent config.reflexLimit) := by
  induction n generalizing st with
  | zero => exact Triple.throw fun _ hr => hr.budget
  | succ n ih =>
    rw [turns]
    split
    · refine Triple.bind (turn_counted fuel st) fun progress => ?_
      cases progress with
      | ended new => exact Triple.pure fun _ hr => hr
      | next st' => exact ih st'
    · exact Triple.pure fun _ hr => hr

theorem rounds_counted (fuel n : Nat) (st : LoopState) :
    Triple (Within config.reflexLimit ⟨false, st.consecutiveReflexes⟩) (config.rounds fuel n st)
      (fun _ r => Budgeted config.reflexLimit r.events) (Spent config.reflexLimit) := by
  induction n generalizing st with
  | zero => exact Triple.throw fun _ hr => hr.budget
  | succ n ih =>
    refine Triple.bind (throwIfAborted_spec fun _ _ hr => hr.budget) fun _ => ?_
    refine Triple.bind (turns_counted fuel fuel { st with hasMoreToolCalls := true }) fun progress => ?_
    cases progress with
    | ended new => exact Triple.pure fun _ hr => hr
    | next st' =>
      refine Triple.bind (within_unmoved.followUps st').counted fun progress => ?_
      cases progress with
      | ended new => exact Triple.pure fun _ hr => hr
      | next st'' => exact ih st''

theorem startRun_counted (fuel : Nat) (start : Start) :
    Triple (Within config.reflexLimit ⟨false, 0⟩) (config.startRun fuel start)
      (fun _ r => Budgeted config.reflexLimit r.events) (Spent config.reflexLimit) := by
  have hQ : Unmoved (Within config.reflexLimit ⟨false, 0⟩ : Run σ → Prop) := within_unmoved
  have hloop : ∀ new, Triple (Within config.reflexLimit ⟨false, 0⟩) (config.runLoop fuel new)
      (fun _ r => Budgeted config.reflexLimit r.events) (Spent config.reflexLimit) := by
    intro new
    refine Triple.bind (pollSteering_spec hQ.stable (fun _ _ hr => hr.budget) fun r _ hr => hr.marked _ r)
      fun pendingMessages => ?_
    exact rounds_counted fuel fuel ⟨new, true, none, 0, 0, pendingMessages, true⟩
  cases start with
  | prompts messages =>
    refine Triple.bind (R := fun _ => Within config.reflexLimit ⟨false, 0⟩)
      (Triple.modify fun _ hr => ⟨hr.now, hr.budget⟩)
      fun _ => ?_
    refine Triple.bind (hQ.emits rfl).within fun _ => Triple.bind (hQ.emits rfl).within fun _ => ?_
    exact Triple.bind (Keeps.forEach hQ.announce messages).within fun _ => hloop messages
  | continuation =>
    refine Triple.bind Keeps.get.within fun r => ?_
    split
    · exact Triple.throw fun _ hr => hr.budget
    · exact Triple.throw fun _ hr => hr.budget
    · exact Triple.bind (hQ.emits rfl).within fun _ => Triple.bind (hQ.emits rfl).within fun _ => hloop []

theorem turn_of_pending (fuel n : Nat) (st : LoopState) (hst : st.pendingMessages ≠ []) :
    Triple (fun r => r.events.countP isReflex = n) (config.turn fuel st)
      (fun _ r => r.events.countP isReflex = n) fun _ r => r.events.countP isReflex = n := by
  have hQ : Unmoved fun r : Run σ => r.events.countP isReflex = n := by
    refine ⟨?_, ?_⟩
    · rintro r r' heq - rfl
      rw [heq]
    · rintro event r hevent rfl
      simp [isReflex_of_plain hevent]
  refine Triple.bind (throwIfAborted_spec fun _ _ hr => hr) fun _ => ?_
  rw [if_neg fun hreflex => hst hreflex.1]
  refine (providerTurn_leads hQ hQ (fun _ _ hr => hr) (fun _ _ hr => hr) ?_ (fun _ hr => hr) (fun _ hr => hr) fuel
    st).conseq (fun _ hr => hr)
    (fun _ _ hr => hr.1) fun _ _ hr => hr
  rintro m results r rfl
  simp [isReflex]

end Budget

/-! ## The trail of a run -/

section Trail

/-- What is left of a run that throws. -/
def Traced (_ : AgentError) (r : Run σ) : Prop := Polled r.trail

/-- Between two turns. If nothing is pending, the last poll has found nothing. -/
def Between (config : AgentLoopConfig σ) (pendingMessages : List AgentMessage) (r : Run σ) : Prop :=
  Polled r.trail ∧ (pendingMessages = [] → config.aborted r.host = true ∨ calm r.trail = true)

def Onward (config : AgentLoopConfig σ) (progress : Progress) (r : Run σ) : Prop :=
  match progress with
  | .ended _ => Polled r.trail
  | .next st => Between config st.pendingMessages r

theorem trail_unmoved (p : List (Mark × σ) → Prop) : Unmoved fun r : Run σ => p r.trail where
  frame := by
    intro r r' _ heq h
    rw [heq]
    exact h
  emit := fun _ _ _ h => h

theorem between_stable (pendingMessages : List AgentMessage) : config.Stable (Between config pendingMessages) :=
  fun _ _ haborted hr => ⟨hr.1, fun hnone => (hr.2 hnone).imp_left haborted⟩

theorem emit_polled (event : AgentEvent) :
    Triple (fun r => Polled r.trail) (config.emit event) (fun _ r => Polled r.trail) Traced :=
  emit_spec (trail_unmoved Polled).stable (fun _ hr => hr) fun _ _ _ hr _ => hr

theorem endRun_onward (new : List AgentMessage) :
    Triple (fun r => Polled r.trail) (config.endRun new) (Onward config) Traced :=
  Triple.bind (emit_polled _) fun _ => Triple.pure fun _ hr => hr

theorem pollSteering_between : Triple (fun r => Polled r.trail) config.pollSteering (Between config) Traced := by
  have hpolled := @trail_unmoved σ Polled
  refine Triple.bind (pollMessagesUnlessAborted_spec hpolled.stable (fun _ _ hr => hr) _) fun messages => ?_
  refine Triple.bind signalAborted_spec fun aborted => ?_
  split
  · rename_i haborted
    refine Triple.pure fun r hr => ⟨hr.1, fun _ => .inl ?_⟩
    rw [← hr.2, haborted]
  · refine Triple.bind (R := fun _ => Between config messages) ?_ fun _ => Triple.pure fun _ hr => hr
    refine Triple.modify fun r hr => ⟨hr.1.concat r.host (fun h => by cases h), fun hnone => .inr ?_⟩
    rw [calm_concat, hnone]
    rfl

theorem settleSteering_between :
    Triple (fun r => Polled r.trail) (config.settlePostTurn config.pollSteering) (fun answer r =>
      Polled r.trail ∧ ∀ messages, answer = some messages → Between config messages r) Traced := by
  refine Triple.tryCatch (F := Traced) (Triple.bind pollSteering_between fun messages => Triple.pure ?_) fun e => ?_
  · refine fun r hr => ⟨hr.1, ?_⟩
    rintro _ ⟨⟩
    exact hr
  · refine Triple.bind signalAborted_spec fun aborted => ?_
    split
    · refine Triple.pure fun r hr => ⟨hr.1, ?_⟩
      rintro _ ⟨⟩
    · exact Triple.throw fun _ hr => hr.1

theorem afterTurn_onward (st : LoopState) (m : AssistantMessage) (toolResults : List ToolResultMessage) :
    Triple (fun r => Polled r.trail) (config.afterTurn st m toolResults) (Onward config) Traced := by
  have hpolled := @trail_unmoved σ Polled
  refine Triple.bind Keeps.get fun r => Triple.bind (hpolled.settleHook _ _) fun stop => ?_
  split
  · exact endRun_onward _
  · exact endRun_onward _
  · refine Triple.bind (hpolled.shouldStop st) fun stop => ?_
    split
    · exact endRun_onward _
    · refine Triple.bind settleSteering_between fun steering => ?_
      split
      · exact (endRun_onward _).strengthen fun _ hr => hr.1
      · refine Triple.bind (R := fun _ => Between config []) ?_ fun stop => ?_
        · exact (shouldStopBefore_spec (between_stable []) (fun _ _ hr => hr.1) st).strengthen fun _ hr => hr.2 [] rfl
        split
        · exact (endRun_onward _).strengthen fun _ hr => hr.1
        · exact Triple.pure fun _ hr => hr
      · exact Triple.pure fun _ hr => hr.2 _ rfl

theorem reflexTurn_onward (fuel : Nat) (st : LoopState) (reflex : PreTurnReflex) :
    Triple (fun r => Polled r.trail ∧ calm r.trail = true) (config.reflexTurn fuel st reflex)
      (Onward config) Traced := by
  have hcalm := @trail_unmoved σ fun trail => Polled trail ∧ calm trail = true
  have hkeeps : ∀ {α : Type} {m : Loop σ α}, Keeps (fun r => Polled r.trail ∧ calm r.trail = true) m →
      Triple (fun r => Polled r.trail ∧ calm r.trail = true) m
        (fun _ r => Polled r.trail ∧ calm r.trail = true) Traced :=
    fun h => h.conseq (fun _ hr => hr) (fun _ _ hr => hr) fun _ _ hr => hr.1
  have hemit : ∀ event, Keeps (fun r => Polled r.trail ∧ calm r.trail = true) (config.emit event) :=
    fun event => emit_spec hcalm.stable (fun _ hr => hr) fun _ _ _ hr _ => hr
  refine Triple.bind (R := fun _ r => Polled r.trail ∧ calm r.trail = true) ?_ fun _ => ?_
  · refine Triple.modify fun r hr => ⟨hr.1.concat r.host fun _ => hr.2, ?_⟩
    rw [calm_concat]
    exact hr.2
  refine Triple.bind (hkeeps (hemit _)) fun _ => ?_
  refine Triple.bind (hkeeps (hcalm.openTurn st)) fun _ => ?_
  refine Triple.bind (hook_spec hcalm.stable config.randomUUID) fun uuid => ?_
  refine Triple.bind (hook_spec hcalm.stable config.now) fun timestamp => ?_
  refine Triple.bind (hkeeps (hcalm.deliver _)) fun _ => ?_
  refine Triple.bind (hkeeps (hcalm.executeToolCalls fuel _)) fun batch => ?_
  refine Triple.bind (hkeeps (hcalm.pushResults batch.messages)) fun _ => ?_
  refine Triple.bind (hkeeps (hemit _)) fun _ => Triple.bind signalAborted_spec fun aborted => ?_
  split
  · exact (endRun_onward _).strengthen fun _ hr => hr.1.1
  · exact Triple.pure fun _ hr => ⟨hr.1.1, fun _ => .inr hr.1.2⟩

theorem turn_onward (fuel : Nat) (st : LoopState) :
    Triple (Between config st.pendingMessages) (config.turn fuel st) (Onward config) Traced := by
  refine Triple.bind (R := fun _ r => Polled r.trail ∧ (st.pendingMessages = [] → calm r.trail = true)) ?_ fun _ => ?_
  · refine Triple.bind signalAborted_spec fun aborted => ?_
    cases aborted with
    | true => exact Triple.throw fun _ hr => hr.1.1
    | false =>
      refine Triple.pure fun r hr => ⟨hr.1.1, fun hnone => (hr.1.2 hnone).resolve_left ?_⟩
      rw [← hr.2]
      exact Bool.false_ne_true
  have hstart := @trail_unmoved σ fun trail => Polled trail ∧ (st.pendingMessages = [] → calm trail = true)
  refine Triple.bind (R := fun reflex r => (Polled r.trail ∧ (st.pendingMessages = [] → calm r.trail = true)) ∧
    (reflex.isSome = true → st.pendingMessages = [])) ?_ fun reflex => ?_
  · split
    · rename_i hreflex
      exact (resolvePreTurnReflex_spec hstart.stable _ _).conseq (fun _ hr => hr)
        (fun _ _ hr => ⟨hr, fun _ => hreflex.1⟩) fun _ _ he => he
    · exact Triple.pure fun _ hr => ⟨hr, fun h => by cases h⟩
  · rintro r ⟨hr, hnone⟩
    have hpolled := @trail_unmoved σ Polled
    cases reflex with
    | none =>
      have hstart : ∀ r : Run σ, Polled r.trail → Polled (r.trail ++ [(Mark.provider, r.host)]) :=
        fun r hr => hr.concat r.host fun h => by cases h
      exact providerTurn_parts hpolled hpolled hstart (fun _ _ _ hr => hr) (fun _ hr => hr) (fun _ hr => hr)
        endRun_onward (fun st m results _ => afterTurn_onward st m results) fuel st r hr.1
    | some reflex => exact reflexTurn_onward fuel st reflex r ⟨hr.1, hr.2 (hnone rfl)⟩

theorem turns_onward (fuel n : Nat) (st : LoopState) :
    Triple (Between config st.pendingMessages) (config.turns fuel n st) (Onward config) Traced := by
  induction n generalizing st with
  | zero => exact Triple.throw fun _ hr => hr.1
  | succ n ih =>
    rw [turns]
    split
    · refine Triple.bind (turn_onward fuel st) fun progress => ?_
      cases progress with
      | ended new => exact Triple.pure fun _ hr => hr
      | next st' => exact ih st'
    · exact Triple.pure fun _ hr => hr

/-- What is taken here is delivered by a turn of the provider. -/
theorem followUps_onward (st : LoopState) :
    Triple (fun r => Polled r.trail) (config.followUps st) (Onward config) Traced := by
  have hpolled := @trail_unmoved σ Polled
  refine Triple.bind (hpolled.shouldStop st) fun stop => ?_
  split
  · exact endRun_onward _
  refine Triple.bind (hpolled.poll _) fun followUp => ?_
  split
  · exact endRun_onward _
  · refine Triple.bind (hpolled.shouldStop st) fun stop => ?_
    split
    · exact endRun_onward _
    · refine Triple.bind (Keeps.get.bind fun r => ?_) fun continuation => ?_
      · split
        · exact Keeps.pure _
        · exact hpolled.settleHook _ _
      split
      · exact endRun_onward _
      · exact endRun_onward _
      · rename_i hsome
        exact Triple.pure fun _ hr => ⟨hr, fun hnone => (hsome hnone).elim⟩
  · rename_i hsome
    exact Triple.pure fun _ hr => ⟨hr, fun hnone => (hsome hnone).elim⟩

theorem rounds_onward (fuel n : Nat) (st : LoopState) :
    Triple (Between config st.pendingMessages) (config.rounds fuel n st) (fun _ r => Polled r.trail) Traced := by
  induction n generalizing st with
  | zero => exact Triple.throw fun _ hr => hr.1
  | succ n ih =>
    refine Triple.bind (throwIfAborted_spec fun _ _ hr => hr.1) fun _ => ?_
    refine Triple.bind (turns_onward fuel fuel { st with hasMoreToolCalls := true }) fun progress => ?_
    cases progress with
    | ended new => exact Triple.pure fun _ hr => hr
    | next st' =>
      refine Triple.bind ((followUps_onward st').strengthen fun _ hr => hr.1) fun progress => ?_
      cases progress with
      | ended new => exact Triple.pure fun _ hr => hr
      | next st'' => exact ih st''

theorem startRun_polled (fuel : Nat) (start : Start) :
    Triple (fun r => Polled r.trail) (config.startRun fuel start) (fun _ r => Polled r.trail) Traced := by
  have hloop : ∀ new, Triple (fun r => Polled r.trail) (config.runLoop fuel new) (fun _ r => Polled r.trail) Traced :=
    fun new => Triple.bind pollSteering_between fun pendingMessages =>
      rounds_onward fuel fuel ⟨new, true, none, 0, 0, pendingMessages, true⟩
  cases start with
  | prompts messages =>
    refine Triple.bind (R := fun _ r => Polled r.trail) (Triple.modify fun _ hr => hr) fun _ => ?_
    refine Triple.bind (emit_polled _) fun _ => Triple.bind (emit_polled _) fun _ => ?_
    exact Triple.bind (Keeps.forEach (trail_unmoved Polled).announce messages) fun _ => hloop messages
  | continuation =>
    refine Triple.bind Keeps.get fun r => ?_
    split
    · exact Triple.throw fun _ hr => hr
    · exact Triple.throw fun _ hr => hr
    · exact Triple.bind (emit_polled _) fun _ => Triple.bind (emit_polled _) fun _ => hloop []

end Trail

/-- In every run, however it ends:

* the reflexes since the last turn of the provider are at most the limit;
* a turn that begins while messages of a poll are pending is not a reflex;
* if messages come only at quiet times, none waits when a reflex begins. -/
theorem reflexes_of_run (config : AgentLoopConfig σ) (fuel : Nat) (start : Start) (host : σ)
    (context : List AgentMessage) (waiting : σ → List AgentMessage)
    (hquiet : Quiet waiting (Effect.final (config.startRun fuel start) (initial host context)).trail) :
    Budgeted config.reflexLimit (Effect.final (config.startRun fuel start) (initial host context)).events ∧
      (∀ st r, st.pendingMessages ≠ [] → (Effect.final (config.turn fuel st) r).events.countP isReflex =
        r.events.countP isReflex) ∧
      ∀ host', (.reflex, host') ∈ (Effect.final (config.startRun fuel start) (initial host context)).trail →
        waiting host' = [] := by
  refine ⟨?_, ?_, ?_⟩
  · have hinitial : Within config.reflexLimit ⟨false, 0⟩ (initial host context) := by
      refine ⟨rfl, fun earlier hearlier => ?_⟩
      rw [prefix_nil.1 hearlier]
      exact Nat.zero_le _
    have hrun := startRun_counted fuel start _ hinitial
    rw [Effect.final]
    cases hresult : config.startRun fuel start (initial host context) with
    | ok | error =>
      rw [hresult] at hrun
      exact hrun
  · intro st r hst
    have hturn := @turn_of_pending _ config fuel _ st hst r rfl
    rw [Effect.final]
    cases hresult : config.turn fuel st r with
    | ok | error =>
      rw [hresult] at hturn
      exact hturn
  · have hrun := @startRun_polled σ config fuel start (initial host context) polled_nil
    have hpolled : Polled (Effect.final (config.startRun fuel start) (initial host context)).trail := by
      rw [Effect.final]
      cases hresult : config.startRun fuel start (initial host context) with
      | ok | error =>
        rw [hresult] at hrun
        exact hrun
    exact fun host' hmem => hpolled.quiet hquiet hmem

/-! ## Messages that come during a reflex -/

/-- The host is its queue of steering messages. The router always answers, and each time the tool runs the user types a
message. -/
def desk : AgentLoopConfig (List AgentMessage) :=
  { plain (fun _ => false) [.start reply, .done reply] reply with
    tools := [⟨"look", none⟩]
    preTurnRouter := some fun _ _ _ => still (.resolved (some ⟨"look", none⟩))
    execute := fun _ _ _ => ⟨fun queue => (⟨[], [], .resolved ⟨[], "", none⟩⟩, queue ++ [.user 1 []]), fun _ h => h⟩
    getSteeringMessages := some ⟨fun queue => (.resolved queue, []), fun _ h => h⟩ }

/-- After a reflex nothing is polled: what was typed waits while there is another one. -/
theorem reflex_while_queued :
    (.reflex, [.user 1 []]) ∈ (Effect.final (desk.startRun 20 (.prompts [.user 0 []])) (initial [] [])).trail := by
  decide +kernel

/-- The user types while the provider answers, once. -/
def typing : AgentLoopConfig (List AgentMessage × Bool) :=
  { plain (fun _ => false) [.start reply, .done reply] reply with
    tools := [⟨"look", none⟩]
    preTurnRouter := some fun _ _ _ => still (.resolved (some ⟨"look", none⟩))
    streamFn := fun _ _ _ => ⟨fun s => (.resolved ⟨[.start reply, .done reply], none, .resolved reply⟩,
      if s.2 then s else ([.user 1 []], true)), fun _ h => h⟩
    getSteeringMessages := some ⟨fun s => (.resolved s.1, [], s.2), fun _ h => h⟩ }

theorem reflexes_of_run_typing :
    (.reflex, ([], false)) ∈ (Effect.final (typing.startRun 20 (.prompts [])) (initial ([], false) [])).trail ∧
      Budgeted 3 (Effect.final (typing.startRun 20 (.prompts [])) (initial ([], false) [])).events ∧
      (∀ st r, st.pendingMessages ≠ [] → (Effect.final (typing.turn 20 st) r).events.countP isReflex =
        r.events.countP isReflex) ∧
      ∀ host', (.reflex, host') ∈ (Effect.final (typing.startRun 20 (.prompts [])) (initial ([], false) [])).trail →
        host'.1 = [] := by
  refine ⟨by decide +kernel, reflexes_of_run typing 20 (.prompts []) ([], false) [] Prod.fst ⟨?_, ?_⟩⟩
  · decide +kernel
  · decide +kernel

end AgentLoopConfig
end Agent
end RePrime
