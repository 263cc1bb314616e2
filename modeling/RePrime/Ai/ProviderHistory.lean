import Mathlib.Tactic.Tauto
import RePrime.Ai.TransformMessages

/-!
# RePrime.Ai.ProviderHistory

What a provider asks of a history, and when `transformMessages` delivers it.

* `ProviderReady`: no interrupted message, every call answered once in its turn, no other result.
* `replayFrom`: the second pass as a recursion. `replay_eq`.
* `Replayable`: no two results for one call in a turn, no two calls of one id that have none.
* `providerReady_iff`: these histories are the ones that come out ready.
* `calls_normalizeContent`, `ids_normalizeContent`: which ids the first pass gives to calls and to their results.
-/

namespace RePrime
namespace Ai

open List

/-! ### What a provider asks -/

/-- An assistant or user message begins a turn. -/
def Message.beginsTurn : Message → Bool
  | .assistant _ => true
  | .user _ _ => true
  | _ => false

def Message.isResultOf (id : String) : Message → Bool
  | .toolResult r => r.toolCallId == id
  | _ => false

/-- The messages of the turn that is open. -/
def turn (ms : List Message) : List Message := ms.takeWhile fun m => !m.beginsTurn

def resultCount (id : String) (ms : List Message) : Nat := (turn ms).countP (Message.isResultOf id)

/-- No errored or aborted message. -/
def Completed (ms : List Message) : Prop := ∀ m, .assistant m ∈ ms → m.isInterrupted = false

/-- Each call of each assistant message has one result before the next assistant or user message. -/
def Answered : List Message → Prop
  | [] => True
  | .assistant m :: rest => (∀ call ∈ m.toolCalls, resultCount call.id rest = 1) ∧ Answered rest
  | _ :: rest => Answered rest

/-- Each result answers a call of the assistant message that its turn began with; `calls` are those of the open turn. -/
def Asked : List ToolCall → List Message → Prop
  | _, [] => True
  | _, .assistant m :: rest => Asked m.toolCalls rest
  | _, .user _ _ :: rest => Asked [] rest
  | calls, .toolResult r :: rest => r.toolCallId ∈ calls.map ToolCall.id ∧ Asked calls rest
  | calls, .other _ :: rest => Asked calls rest

structure ProviderReady (ms : List Message) : Prop where
  completed : Completed ms
  answered : Answered ms
  asked : Asked [] ms

/-- The histories that come out ready: in the turn of a completed message no call has two results, and no two calls
that have none share their id. -/
def Replayable : List Message → Prop
  | [] => True
  | .assistant m :: rest =>
    (m.isInterrupted = false → ∀ call ∈ m.toolCalls, resultCount call.id rest ≤ 1 ∧
      (resultCount call.id rest = 0 → m.toolCalls.countP (fun c => c.id == call.id) = 1)) ∧ Replayable rest
  | _ :: rest => Replayable rest

/-! ### The second pass as a recursion -/

variable (now : Clock)

/-- The results that are made up, with `n` messages before them. -/
def synthetic (existing : List String) : Nat → List ToolCall → List Message
  | _, [] => []
  | n, tc :: rest =>
    if tc.id ∈ existing then synthetic existing n rest
    else noResult tc (now n) :: synthetic existing (n + 1) rest

/-- What the second pass adds, with `n` messages before it. -/
def replayFrom (pending : List ToolCall) (existing : List String) : Nat → List Message → List Message
  | n, [] => synthetic now existing n pending
  | n, .assistant m :: rest =>
    let closing := synthetic now existing n pending
    closing ++
      if m.isInterrupted then replayFrom [] [] (n + closing.length) rest
      else .assistant m :: replayFrom m.toolCalls [] (n + closing.length + 1) rest
  | n, .toolResult r :: rest =>
    if r.toolCallId ∈ pending.map ToolCall.id then
      .toolResult r :: replayFrom pending (r.toolCallId :: existing) (n + 1) rest
    else replayFrom pending existing n rest
  | n, .user content timestamp :: rest =>
    let closing := synthetic now existing n pending
    closing ++ Message.user content timestamp :: replayFrom [] [] (n + closing.length + 1) rest
  | n, .other role :: rest => .other role :: replayFrom pending existing (n + 1) rest

variable {now}

theorem foldl_pushNoResult (existing : List String) (calls : List ToolCall) (result : List Message) :
    calls.foldl (pushNoResult now existing) result = result ++ synthetic now existing result.length calls := by
  induction calls generalizing result with
  | nil => exact (append_nil _).symm
  | cons tc calls ih =>
    rw [foldl_cons, ih, pushNoResult, synthetic]
    split
    · rfl
    · rw [append_assoc, length_append]
      rfl

theorem insertSynthetic_result (now : Clock) (st : Replay) : (insertSyntheticToolResults now st).result =
      st.result ++ synthetic now st.existingToolResultIds st.result.length st.pendingToolCalls := by
  rw [insertSyntheticToolResults]
  split
  · rename_i hnil
    rw [hnil]
    exact (append_nil _).symm
  · exact foldl_pushNoResult _ _ _

theorem insertSynthetic_pending (now : Clock) (st : Replay) :
    (insertSyntheticToolResults now st).pendingToolCalls = [] := by
  rw [insertSyntheticToolResults]
  split
  · assumption
  · rfl

theorem replayFrom_nil (existing existing' : List String) (n : Nat) (ms : List Message) :
    replayFrom now [] existing n ms = replayFrom now [] existing' n ms := by
  induction ms generalizing n with
  | nil => rfl
  | cons m rest ih =>
    cases m with
    | assistant | user => rfl
    | toolResult r => exact ih n
    | other role => exact congrArg _ (ih (n + 1))

theorem replay_eq (now : Clock) (ms : List Message) (st : Replay) :
    (insertSyntheticToolResults now (ms.foldl (replayStep now) st)).result =
      st.result ++ replayFrom now st.pendingToolCalls st.existingToolResultIds st.result.length ms := by
  induction ms generalizing st with
  | nil => exact insertSynthetic_result now st
  | cons m rest ih =>
    rw [foldl_cons, ih]
    cases m with
    | assistant m =>
      have hresult := insertSynthetic_result now st
      have hpending := insertSynthetic_pending now st
      rw [replayStep, replayFrom]
      generalize insertSyntheticToolResults now st = st' at hresult hpending ⊢
      split
      · rw [hresult, hpending, append_assoc, length_append, replayFrom_nil _ []]
      · dsimp only
        have hcalls : (if m.toolCalls = [] then st'.pendingToolCalls else m.toolCalls) = m.toolCalls := by
          split
          · rename_i hnil
            rw [hpending, hnil]
          · rfl
        rw [hcalls, hresult]
        have hids : ∀ n, replayFrom now m.toolCalls
            (if m.toolCalls = [] then st'.existingToolResultIds else []) n rest =
              replayFrom now m.toolCalls [] n rest := by
          intro n
          split
          · rename_i hnil
            rw [hnil, replayFrom_nil _ []]
          · rfl
        rw [hids]
        simp only [length_append, append_assoc, length_singleton, singleton_append, Nat.add_assoc]
    | toolResult r =>
      rw [replayStep, replayFrom]
      split
      · simp only [length_append, append_assoc, length_singleton, singleton_append]
      · rfl
    | user content timestamp =>
      have hresult := insertSynthetic_result now st
      have hpending := insertSynthetic_pending now st
      rw [replayStep, replayFrom]
      dsimp only
      rw [hresult, hpending, replayFrom_nil _ []]
      simp only [length_append, append_assoc, length_singleton, singleton_append, Nat.add_assoc]
    | other role =>
      rw [replayStep, replayFrom]
      simp only [length_append, append_assoc, length_singleton, singleton_append]

/-! ### What the recursion adds -/

theorem resultCount_result (id : String) (r : ToolResultMessage) (ms : List Message) :
    resultCount id (.toolResult r :: ms) = resultCount id ms + if r.toolCallId = id then 1 else 0 := by
  rw [resultCount, turn, takeWhile_cons_of_pos rfl, countP_cons]
  simp only [Message.isResultOf, beq_iff_eq]
  rfl

theorem resultCount_other (id : String) (role : String) (ms : List Message) :
    resultCount id (.other role :: ms) = resultCount id ms := by
  rw [resultCount, turn, takeWhile_cons_of_pos rfl, countP_cons_of_neg (by simp [Message.isResultOf])]
  rfl

theorem resultCount_assistant (id : String) (m : AssistantMessage) (ms : List Message) :
    resultCount id (.assistant m :: ms) = 0 := rfl

theorem resultCount_user (id : String) (content : UserContent) (timestamp : Nat) (ms : List Message) :
    resultCount id (.user content timestamp :: ms) = 0 := rfl

theorem resultCount_synthetic (now : Clock) (id : String) (existing : List String) (n : Nat) (calls : List ToolCall)
    (ms : List Message) : resultCount id (synthetic now existing n calls ++ ms) =
      (if id ∈ existing then 0 else calls.countP fun c => c.id == id) + resultCount id ms := by
  induction calls generalizing n with
  | nil => simp [synthetic]
  | cons tc calls ih =>
    rw [synthetic]
    by_cases htc : tc.id ∈ existing
    · rw [if_pos htc, ih]
      by_cases hid : id ∈ existing
      · rw [if_pos hid, if_pos hid]
      · have hne : ¬ tc.id = id := fun heq => hid (heq ▸ htc)
        rw [if_neg hid, if_neg hid, countP_cons_of_neg (by simpa using hne)]
    · rw [if_neg htc, cons_append, noResult, resultCount_result, ih]
      dsimp only
      by_cases hid : id ∈ existing
      · have hne : ¬ tc.id = id := fun heq => htc (heq ▸ hid)
        rw [if_pos hid, if_pos hid, if_neg hne]
        rfl
      · rw [if_neg hid, if_neg hid, countP_cons]
        simp only [beq_iff_eq]
        omega

theorem resultCount_replayFrom_nil (id : String) (existing : List String) (n : Nat) (ms : List Message) :
    resultCount id (replayFrom now [] existing n ms) = 0 := by
  induction ms generalizing existing n with
  | nil => rfl
  | cons m rest ih =>
    cases m with
    | assistant m =>
      rw [replayFrom]
      change resultCount id ([] ++ _) = 0
      split
      · exact ih [] _
      · rfl
    | user content timestamp => rfl
    | toolResult r => exact ih existing n
    | other role =>
      rw [replayFrom, resultCount_other]
      exact ih existing (n + 1)

/-- The results of a pending call: those in the history, and one for each call of its id when there is none. -/
theorem resultCount_replayFrom {id : String} {pending : List ToolCall} (hid : id ∈ pending.map ToolCall.id)
    (existing : List String) (n : Nat) (ms : List Message) :
    resultCount id (replayFrom now pending existing n ms) = resultCount id ms +
      if id ∈ existing ∨ resultCount id ms ≠ 0 then 0 else pending.countP fun c => c.id == id := by
  induction ms generalizing existing n with
  | nil =>
    have hsynthetic := resultCount_synthetic now id existing n pending []
    rw [append_nil] at hsynthetic
    rw [replayFrom, hsynthetic]
    have hnil : resultCount id [] = 0 := rfl
    simp only [hnil, ne_eq, not_true_eq_false, or_false, Nat.add_zero, Nat.zero_add]
  | cons m rest ih =>
    cases m with
    | assistant m =>
      have hrest : resultCount id (if m.isInterrupted = true then
          replayFrom now [] [] (n + (synthetic now existing n pending).length) rest
        else .assistant m ::
          replayFrom now m.toolCalls [] (n + (synthetic now existing n pending).length + 1) rest) = 0 := by
        split
        · exact resultCount_replayFrom_nil ..
        · rfl
      rw [replayFrom]
      rw [resultCount_synthetic, hrest, resultCount_assistant]
      simp only [ne_eq, not_true_eq_false, or_false, Nat.add_zero, Nat.zero_add]
    | user content timestamp =>
      rw [replayFrom]
      rw [resultCount_synthetic, resultCount_user, resultCount_user]
      simp only [ne_eq, not_true_eq_false, or_false, Nat.add_zero, Nat.zero_add]
    | toolResult r =>
      rw [replayFrom, resultCount_result]
      by_cases hr : r.toolCallId = id
      · rw [if_pos (hr ▸ hid), resultCount_result, ih, hr]
        simp
      · rw [if_neg hr]
        split
        · have hne : ¬ id = r.toolCallId := fun heq => hr heq.symm
          rw [resultCount_result, if_neg hr, ih]
          simp only [mem_cons, hne, false_or, Nat.add_zero]
        · exact ih existing n
    | other role =>
      rw [replayFrom, resultCount_other, resultCount_other]
      exact ih existing (n + 1)

theorem answered_synthetic (now : Clock) (existing : List String) (n : Nat) (calls : List ToolCall)
    (ms : List Message) :
    Answered (synthetic now existing n calls ++ ms) ↔ Answered ms := by
  induction calls generalizing n with
  | nil => rfl
  | cons tc calls ih =>
    rw [synthetic]
    split
    · exact ih n
    · exact ih (n + 1)

theorem answered_replayFrom (pending : List ToolCall) (existing : List String) (n : Nat) (ms : List Message) :
    Answered (replayFrom now pending existing n ms) ↔ Replayable ms := by
  induction ms generalizing pending existing n with
  | nil =>
    have hsynthetic := answered_synthetic now existing n pending []
    rw [append_nil] at hsynthetic
    exact hsynthetic
  | cons m rest ih =>
    cases m with
    | assistant m =>
      rw [replayFrom, Replayable]
      rw [answered_synthetic]
      cases hm : m.isInterrupted with
      | true =>
        rw [if_pos rfl, ih]
        simp
      | false =>
        rw [if_neg (by simp), Answered, ih]
        refine and_congr_left' ?_
        rw [forall_prop_of_true rfl]
        refine forall₂_congr ?_
        intro call hcall
        rw [resultCount_replayFrom (mem_map_of_mem hcall)]
        have hpos : 0 < m.toolCalls.countP fun c => c.id == call.id :=
          countP_pos_iff.mpr ⟨call, hcall, beq_self_eq_true _⟩
        by_cases hzero : resultCount call.id rest = 0
        · simp [hzero]
        · simp only [not_mem_nil, false_or, ne_eq, hzero, not_false_eq_true, if_true, false_implies, and_true]
          omega
    | user content timestamp =>
      rw [replayFrom]
      rw [answered_synthetic]
      exact ih [] [] _
    | toolResult r =>
      rw [replayFrom]
      split
      · exact ih pending _ _
      · exact ih pending _ _
    | other role => exact ih pending existing (n + 1)

theorem completed_append {a b : List Message} : Completed (a ++ b) ↔ Completed a ∧ Completed b := by
  simp only [Completed, mem_append, or_imp, forall_and]

theorem completed_synthetic (existing : List String) (n : Nat) (calls : List ToolCall) :
    Completed (synthetic now existing n calls) := by
  intro m hm
  induction calls generalizing n with
  | nil => cases hm
  | cons tc calls ih =>
    rw [synthetic] at hm
    split at hm
    · exact ih n hm
    · rcases mem_cons.mp hm with hm | hm
      · cases hm
      · exact ih (n + 1) hm

theorem completed_cons {x : Message} {ms : List Message} (hx : ∀ m, x = .assistant m → m.isInterrupted = false)
    (h : Completed ms) : Completed (x :: ms) := by
  intro m hm
  rcases mem_cons.mp hm with hm | hm
  · exact hx m hm.symm
  · exact h m hm

theorem completed_replayFrom (pending : List ToolCall) (existing : List String) (n : Nat) (ms : List Message) :
    Completed (replayFrom now pending existing n ms) := by
  induction ms generalizing pending existing n with
  | nil => exact completed_synthetic _ _ _
  | cons m rest ih =>
    cases m with
    | assistant m =>
      rw [replayFrom]
      refine completed_append.mpr ⟨completed_synthetic _ _ _, ?_⟩
      split
      · exact ih _ _ _
      · rename_i hm
        refine completed_cons ?_ (ih _ _ _)
        rintro m' ⟨⟩
        exact Bool.eq_false_iff.mpr hm
    | user content timestamp =>
      rw [replayFrom]
      exact completed_append.mpr ⟨completed_synthetic _ _ _, completed_cons (fun _ h => by cases h) (ih _ _ _)⟩
    | toolResult r =>
      rw [replayFrom]
      split
      · exact completed_cons (fun _ h => by cases h) (ih _ _ _)
      · exact ih _ _ _
    | other role => exact completed_cons (fun _ h => by cases h) (ih _ _ _)

theorem asked_of_nil {calls : List ToolCall} {ms : List Message} (h : Asked [] ms) : Asked calls ms := by
  induction ms with
  | nil => trivial
  | cons m rest ih =>
    cases m with
    | assistant | user => exact h
    | toolResult r => exact absurd h.1 not_mem_nil
    | other role => exact ih h

theorem asked_synthetic (now : Clock) {all calls : List ToolCall} (hsub : ∀ c ∈ calls, c ∈ all)
    (existing : List String) (n : Nat)
    {ms : List Message} (h : Asked all ms) : Asked all (synthetic now existing n calls ++ ms) := by
  induction calls generalizing n with
  | nil => exact h
  | cons tc calls ih =>
    have hcalls : ∀ c ∈ calls, c ∈ all := fun c hc => hsub c (mem_cons_of_mem _ hc)
    rw [synthetic]
    split
    · exact ih hcalls n
    · exact ⟨mem_map_of_mem (hsub tc mem_cons_self), ih hcalls (n + 1)⟩

theorem asked_replayFrom (pending : List ToolCall) (existing : List String) (n : Nat) (ms : List Message) :
    Asked pending (replayFrom now pending existing n ms) := by
  induction ms generalizing pending existing n with
  | nil =>
    have hsynthetic := asked_synthetic now (fun _ hc => hc) existing n (show Asked pending [] from trivial)
    rwa [append_nil] at hsynthetic
  | cons m rest ih =>
    cases m with
    | assistant m =>
      rw [replayFrom]
      refine asked_synthetic now (fun _ hc => hc) existing n ?_
      split
      · exact asked_of_nil (ih _ _ _)
      · exact ih _ _ _
    | user content timestamp =>
      rw [replayFrom]
      exact asked_synthetic now (fun _ hc => hc) existing n (ih [] [] _)
    | toolResult r =>
      rw [replayFrom]
      split
      · rename_i hr
        exact ⟨hr, ih ..⟩
      · exact ih _ _ _
    | other role => exact ih pending existing (n + 1)

/-! ### The history that comes out -/

/-- A history comes out ready exactly when it is replayable. -/
theorem providerReady_iff (model : Model) (normalizeToolCallId : Option NormalizeToolCallId) (now : Clock)
    (messages : List Message) : ProviderReady (transformMessages model normalizeToolCallId now messages) ↔
      Replayable (normalizeMessages model normalizeToolCallId messages) := by
  have heq := replay_eq now (normalizeMessages model normalizeToolCallId messages) ⟨[], [], []⟩
  rw [nil_append] at heq
  rw [transformMessages, heq]
  constructor
  · intro h
    exact (answered_replayFrom ..).mp h.answered
  · intro h
    exact ⟨completed_replayFrom _ _ _ _, (answered_replayFrom ..).mpr h, asked_replayFrom ..⟩

/-! ### The ids that the providers take -/

section

variable (model : Model) (normalizeToolCallId : Option NormalizeToolCallId)

/-- The id of a call of the message, as the normalizer rewrites it. -/
def providerId (m : AssistantMessage) (id : String) : String :=
  if isSameModel model m then id else normalizeToolCallId.elim id fun normalize => normalize id model m

theorem normalizeToolCall_id (m : AssistantMessage) (ids : IdMap) (call : ToolCall) :
    (normalizeToolCall model normalizeToolCallId m ids call).1.id = providerId model normalizeToolCallId m call.id := by
  unfold normalizeToolCall providerId
  split
  · rfl
  · have hunsigned : (if isTruthy call.thoughtSignature then { call with thoughtSignature := none } else call).id
        = call.id := by
      split <;> rfl
    cases normalizeToolCallId with
    | none => exact hunsigned
    | some normalize =>
      dsimp only [Option.elim]
      split
      · rfl
      · rename_i hsame
        rw [hunsigned]
        exact (not_not.mp hsame).symm

theorem normalizeToolCall_ids (m : AssistantMessage) (ids : IdMap) (call : ToolCall) (id : String) :
    (normalizeToolCall model normalizeToolCallId m ids call).2 id =
      if id = call.id ∧ providerId model normalizeToolCallId m id ≠ id then
        some (providerId model normalizeToolCallId m id)
      else ids id := by
  unfold normalizeToolCall providerId
  split
  · simp
  · cases normalizeToolCallId with
    | none => simp
    | some normalize =>
      dsimp only [Option.elim]
      by_cases hid : id = call.id
      · subst hid
        split <;> simp [*]
      · split <;> simp [hid]

/-- **The calls** of a message have the normalizer's ids after the first pass. -/
theorem calls_normalizeContent (m : AssistantMessage) (content : List Content) (ids : IdMap) :
    ((normalizeContent model normalizeToolCallId m ids content).1.filterMap Content.toolCall?).map ToolCall.id =
      (content.filterMap Content.toolCall?).map fun call => providerId model normalizeToolCallId m call.id := by
  induction content generalizing ids with
  | nil => rfl
  | cons block rest ih =>
    rw [normalizeContent, filterMap_append, map_append, ih]
    cases block with
    | toolCall call =>
      exact congrArg (· :: _) (normalizeToolCall_id model normalizeToolCallId m ids call)
    | thinking =>
      simp only [normalizeBlock]
      split_ifs <;> rfl
    | text | image => rfl

/-- **The results** follow them: an id that is rewritten in a message is looked up as what the last such message has
made of it. -/
theorem ids_normalizeContent (m : AssistantMessage) (content : List Content) (ids : IdMap) (id : String) :
    (normalizeContent model normalizeToolCallId m ids content).2 id =
      if id ∈ (content.filterMap Content.toolCall?).map ToolCall.id ∧
          providerId model normalizeToolCallId m id ≠ id then
        some (providerId model normalizeToolCallId m id)
      else ids id := by
  induction content generalizing ids with
  | nil => simp [normalizeContent]
  | cons block rest ih =>
    rw [normalizeContent]
    dsimp only
    rw [ih]
    cases block with
    | toolCall call =>
      have hmap : (normalizeBlock model normalizeToolCallId m ids (.toolCall call)).2 id =
          (normalizeToolCall model normalizeToolCallId m ids call).2 id := rfl
      have hcalls : (Content.toolCall call :: rest).filterMap Content.toolCall? =
          call :: rest.filterMap Content.toolCall? := rfl
      rw [hmap, normalizeToolCall_ids, hcalls, map_cons]
      simp only [mem_cons, or_and_right, ite_or]
      split_ifs <;> rfl
    | thinking thinking signature redacted =>
      have hids : (normalizeBlock model normalizeToolCallId m ids (.thinking thinking signature redacted)).2 = ids := by
        simp only [normalizeBlock]
        split_ifs <;> rfl
      rw [hids]
      rfl
    | text | image => rfl

end

/-! ### Two results for one call -/

def readCall : ToolCall where
  id := "call_1"
  name := "read"
  arguments := ""
  thoughtSignature := none

def readResult : ToolResultMessage where
  toolCallId := "call_1"
  toolName := "read"
  content := [.text "done" none]
  details := none
  isError := false
  timestamp := 1

def readMessage : AssistantMessage where
  content := [.toolCall readCall]
  api := "anthropic-messages"
  provider := "anthropic"
  model := "fixture"
  stopReason := .toolUse
  timestamp := 0

def fixtureModel : Model where
  id := "fixture"
  api := "anthropic-messages"
  provider := "anthropic"
  input := ["text", "image"]

/-- A result that is there twice is sent twice. -/
theorem sent_twice : transformMessages fixtureModel none (fun _ => 2)
        [.assistant readMessage, .toolResult readResult, .toolResult readResult] =
      [.assistant readMessage, .toolResult readResult, .toolResult readResult] ∧
    ¬ ProviderReady [.assistant readMessage, .toolResult readResult, .toolResult readResult] := by
  refine ⟨by decide, ?_⟩
  intro h
  have hone := h.answered.1 readCall (by decide)
  exact absurd hone (by decide)

end Ai
end RePrime
