import Mathlib.Data.List.DropRight
import RePrime.Budget.ContextJanitor

/-!
# RePrime.Budget.PruneSize

What a prune does to the size of the context. A result is replaced for what follows it, not for its own size, and
the text that takes its place says what was there.

* `Tombstone`: the text that takes the place of a result. `planned_tombstone`: a plan has no others.
* `estimateFrom_le`: the estimate of a context whose tool results were changed.
* `prune_size`: what a replaced result is estimated at, when it is no more than before, and the whole context.
-/

namespace RePrime
namespace Budget

open Session RePrime.Compact List

/-! ## The texts -/

/-- A longest stretch of tool calls and failures in front of an index. -/
structure RunIn (messages : List AgentMessage) (boundary : Nat) (pre run post : List AgentMessage) : Prop where
  split : messages.take boundary = pre ++ run ++ post
  within : ∀ message ∈ run, inRun message = true
  before : ∀ message ∈ pre.getLast?, inRun message = false
  after : ∀ message ∈ post.head?, inRun message = false

/-- What takes the place of a result: for a failure the text that its run gives it, the summary of the run and the
tool that succeeded after it if it is the first one, a note if not; for an output that was superseded and has at least
so many bytes a note with their number. -/
inductive Tombstone (messages : List AgentMessage) (options : ContextJanitorOptions) (index : Nat)
    (m : ToolResultMessage) (text : String) : Prop where
  | failure (h : m.isError = true) {pre run post : List AgentMessage}
      (hrun : RunIn messages (options.boundary messages) pre run post) (hlo : pre.length ≤ index)
      (hhi : index < pre.length + run.length) {tool : String}
      (hafter : successAfter messages (options.minFailures.getD defaultMinFailures) (pre.length + run.length)
        (failuresFrom pre.length run) = some tool)
      (htext : runText (failuresFrom pre.length run) (trajectoryTombstone (failuresFrom pre.length run) tool) index =
        some text)
  | dump (h : m.isError = false) (hsuperseded : Superseded messages (callSignaturesById messages) index)
      (hbytes : (JsNumber.finite (messageTextBytes (.toolResult m))).lt options.dumpBytes = false)
      (htext : text = successDumpTombstone m.toolName (messageTextBytes (.toolResult m)))

section

/-- A longest stretch around an element. -/
theorem exists_stretch {α : Type} {p : α → Bool} {l : List α} {i : Nat} {a : α} (h : l[i]? = some a)
    (ha : p a = true) : ∃ pre run post, l = pre ++ run ++ post ∧ (∀ b ∈ run, p b = true) ∧
      (∀ b ∈ pre.getLast?, p b = false) ∧ (∀ b ∈ post.head?, p b = false) ∧ pre.length ≤ i ∧
      i < pre.length + run.length := by
  have hi : i < l.length := (List.getElem?_eq_some_iff.1 h).1
  have hleft : (l.take i).rdropWhile p ++ (l.take i).rtakeWhile p = l.take i := rdropWhile_append_rtakeWhile
  have hlen := congrArg length hleft
  rw [length_append, length_take, Nat.min_eq_left hi.le] at hlen
  refine ⟨(l.take i).rdropWhile p, (l.take i).rtakeWhile p ++ (l.drop i).takeWhile p, (l.drop i).dropWhile p,
    ?_, ?_, ?_, ?_, by omega, ?_⟩
  · rw [append_assoc, append_assoc, takeWhile_append_dropWhile, ← append_assoc, hleft, take_append_drop]
  · intro b hb
    obtain hb | hb := mem_append.1 hb
    · exact mem_rtakeWhile_imp hb
    · exact mem_takeWhile_imp hb
  · intro b hb
    obtain ⟨hne, rfl⟩ := mem_getLast?_eq_getLast hb
    simpa using rdropWhile_last_not p (l.take i) hne
  · intro b hb
    have hnot := head?_dropWhile_not p (l.drop i)
    rw [Option.mem_def.1 hb] at hnot
    exact hnot
  · have hdrop : l.drop i = a :: l.drop (i + 1) := by
      rw [drop_eq_getElem_cons hi, (List.getElem?_eq_some_iff.1 h).2]
    rw [hdrop, takeWhile_cons_of_pos ha, length_append, length_cons]
    omega

variable {messages : List AgentMessage} {index i : Nat} {message : AgentMessage}

theorem planned_tombstone {options : ContextJanitorOptions} {text : String}
    (h : (planned messages options).get? i = some text) :
    ∃ m, messages[i]? = some (.toolResult m) ∧ Tombstone messages options i m text := by
  obtain ⟨hlt, ⟨⟨message, hm, hfailed⟩, -⟩ | hsuperseded⟩ := planned_cases h
  · obtain ⟨m, rfl, herror⟩ := eq_toolResult_of_failed hfailed
    have hin : inRun (.toolResult m) = true := by rw [inRun, hfailed, Bool.or_true]
    have htaken : (messages.take (options.boundary messages))[i]? = some (.toolResult m) := by
      rw [List.getElem?_take_of_lt hlt, hm]
    obtain ⟨pre, run, post, hsplit, hrun, hpre, hpost, hlo, hhi⟩ := exists_stretch htaken hin
    have hat : run[i - pre.length]? = some (.toolResult m) := by
      rwa [hsplit, getElem?_append_left (by rw [length_append]; exact hhi), getElem?_append_right hlo] at htaken
    have hget := (planned_run hsplit hrun hpre hpost hlo hat).2
    rw [h] at hget
    obtain ⟨tool, hafter, htext⟩ := Option.bind_eq_some_iff.1 hget.symm
    exact ⟨m, hm, .failure herror ⟨hsplit, hrun, hpre, hpost⟩ hlo hhi hafter htext⟩
  · obtain ⟨m, signature, hm, hok, -⟩ := id hsuperseded
    obtain ⟨-, hbytes, htext⟩ := tells_planned options i text m h hm hok
    exact ⟨m, hm, .dump hok hsuperseded hbytes htext⟩

/-! ## Sizes -/

theorem length_encodeChar_le (c : Char) : (Utf8.encodeChar c).length ≤ 3 * Text.units c := by
  unfold Utf8.encodeChar Text.units
  dsimp only
  split_ifs <;> simp only [length_cons, length_nil] <;> omega

theorem length_encode_le (text : List Char) : (Utf8.encode text).length ≤ 3 * Text.length text := by
  induction text with
  | nil => exact Nat.le_refl _
  | cons c text ih =>
    have hc := length_encodeChar_le c
    rw [Utf8.encode_cons, length_append]
    simp only [Text.length, map_cons, sum_cons] at ih ⊢
    omega

theorem length_encode_intercalate_le (texts : List String) :
    (Utf8.encode ("\n".intercalate texts).toList).length ≤ 3 * (texts.map textLength).sum + texts.length := by
  induction texts with
  | nil => exact Nat.le_refl _
  | cons a texts ih =>
    have ha : (Utf8.encode a.toList).length ≤ 3 * textLength a := length_encode_le _
    rw [map_cons, sum_cons, length_cons]
    cases texts with
    | nil =>
      rw [String.intercalate_singleton]
      omega
    | cons b texts =>
      have hnewline : (Utf8.encode "\n".toList).length = 1 := rfl
      rw [String.intercalate_cons_cons, String.toList_append, String.toList_append, Utf8.encode_append,
        Utf8.encode_append, length_append, length_append, hnewline]
      omega

theorem sum_blockTexts_le (bs : List Block) : ((blockTexts bs).map textLength).sum ≤ (bs.map blockLength).sum := by
  induction bs with
  | nil => exact Nat.le_refl _
  | cons b bs ih =>
    cases b with
    | text t => exact Nat.add_le_add_left ih _
    | image i => exact ih.trans (Nat.le_add_left _ _)

theorem messageTextBytes_le (m : ToolResultMessage) :
    messageTextBytes (.toolResult m) ≤ 3 * messageLength (.toolResult m) + (blockTexts m.content).length := by
  have hbytes : messageTextBytes (.toolResult m) ≤
      3 * ((blockTexts m.content).map textLength).sum + (blockTexts m.content).length :=
    length_encode_intercalate_le _
  have htexts : ((blockTexts m.content).map textLength).sum ≤ messageLength (.toolResult m) :=
    sum_blockTexts_le m.content
  omega

/-- The result with a text in its place. -/
def replacedBy (m : ToolResultMessage) (text : String) : AgentMessage :=
  .toolResult { m with content := [.text { text, textSignature := none }] }

theorem messageLength_replacedBy (m : ToolResultMessage) (text : String) :
    messageLength (replacedBy m text) = textLength text := by
  simp [replacedBy, messageLength, blockLength]

theorem estimateTokens_mono {a b : AgentMessage} (h : messageLength a ≤ messageLength b) :
    estimateTokens a ≤ estimateTokens b := Nat.div_le_div_right (Nat.add_le_add_right h 3)

/-! ### The context -/

/-- How much more a message is estimated at than before. -/
def growth (p : AgentMessage × AgentMessage) : Nat := estimateTokens p.2 - estimateTokens p.1

theorem estimateFrom_le {l : List (AgentMessage × AgentMessage)}
    (h : ∀ p ∈ l, getAssistantUsage p.2 = getAssistantUsage p.1) : ∀ before after : Int,
    estimateFrom (l.map Prod.snd) after ≤
      estimateFrom (l.map Prod.fst) before + (after - before) + (l.map growth).sum := by
  induction l with
  | nil =>
    intro before after
    simp [estimateFrom]
  | cons p l ih =>
    intro before after
    rw [forall_mem_cons] at h
    rw [map_cons, map_cons, map_cons, sum_cons, estimateFrom, estimateFrom, h.1]
    cases getAssistantUsage p.1 with
    | some usage =>
      dsimp only
      omega
    | none =>
      have hgrowth : (estimateTokens p.2 : Int) ≤ estimateTokens p.1 + growth p := by
        unfold growth
        omega
      have hrest := ih h.2 (before + estimateTokens p.1) (after + estimateTokens p.2)
      dsimp only
      omega

theorem estimateContextTokens_le {messages pruned : List AgentMessage} (hlen : pruned.length = messages.length)
    (h : ∀ p ∈ messages.zip pruned, getAssistantUsage p.2 = getAssistantUsage p.1) :
    estimateContextTokens pruned ≤ estimateContextTokens messages + ((messages.zip pruned).map growth).sum := by
  have hle := estimateFrom_le (l := (messages.zip pruned).reverse) (fun p hp => h p (mem_reverse.1 hp)) 0 0
  rw [map_reverse, map_reverse, map_reverse, map_fst_zip hlen.ge, map_snd_zip hlen.le, sum_reverse] at hle
  rw [estimateContextTokens, estimateContextTokens]
  omega

theorem plan_message {messages : List AgentMessage} {options : ContextJanitorOptions}
    {new : AgentMessage} (h : messages[i]? = some message)
    (hnew : (planContextJanitor messages options).messages[i]? = some new) :
    new = message ∨ ∃ m text, message = .toolResult m ∧ new = replacedBy m text ∧
      Tombstone messages options i m text := by
  obtain hsame | hreplaced := planContextJanitor_messages messages options
  · rw [hsame, h] at hnew
    cases hnew
    exact .inl rfl
  · rw [hreplaced, getElem?_replaceAll h] at hnew
    cases hget : (planned messages options).get? i with
    | none =>
      rw [hget] at hnew
      cases hnew
      exact .inl rfl
    | some text =>
      obtain ⟨m, hm, ht⟩ := planned_tombstone hget
      rw [h, Option.some.injEq] at hm
      rw [hget, hm] at hnew
      cases hnew
      exact .inr ⟨m, text, hm, rfl, ht⟩

theorem getAssistantUsage_plan (messages : List AgentMessage) (options : ContextJanitorOptions) :
    ∀ p ∈ messages.zip (planContextJanitor messages options).messages,
      getAssistantUsage p.2 = getAssistantUsage p.1 := by
  intro p hp
  obtain ⟨i, hi⟩ := mem_iff_getElem?.1 hp
  obtain ⟨hold, hnew⟩ := getElem?_zip_eq_some.1 hi
  obtain hsame | ⟨m, text, hm, hr, -⟩ := plan_message hold hnew
  · rw [hsame]
  · rw [hm, hr]
    rfl

/-- **What a prune does to the size.** A result that it replaces is estimated at its tombstone, whatever it was
estimated at before; so it does not grow when it was as long as the tombstone, and an output not when it has three
bytes for every character of it. The context grows by what single results grow, and by no more. -/
theorem prune_size (messages : List AgentMessage) (options : ContextJanitorOptions) :
    (∀ i m new, messages[i]? = some (.toolResult m) →
      (planContextJanitor messages options).messages[i]? = some new → new ≠ .toolResult m →
      ∃ text, Tombstone messages options i m text ∧ new = replacedBy m text ∧
        estimateTokens new = (textLength text + 3) / 4 ∧
        (textLength text ≤ messageLength (.toolResult m) → estimateTokens new ≤ estimateTokens (.toolResult m)) ∧
        (m.isError = false →
          3 * textLength text + (blockTexts m.content).length ≤ messageTextBytes (.toolResult m) →
          estimateTokens new ≤ estimateTokens (.toolResult m))) ∧
    estimateContextTokens (planContextJanitor messages options).messages ≤ estimateContextTokens messages +
      ((messages.zip (planContextJanitor messages options).messages).map growth).sum := by
  refine ⟨?_, estimateContextTokens_le (length_plan messages options) (getAssistantUsage_plan messages options)⟩
  intro i m new hm hnew hne
  obtain hsame | ⟨m', text, hm', rfl, htext⟩ := plan_message hm hnew
  · exact absurd hsame hne
  · cases hm'
    have hlen := messageLength_replacedBy m text
    refine ⟨text, htext, rfl, by rw [estimateTokens, hlen], fun hle => estimateTokens_mono (hlen.trans_le hle), ?_⟩
    intro _ hbytes
    have hmost := messageTextBytes_le m
    exact estimateTokens_mono (hlen.trans_le (by omega))

end

/-! ### Errors without a text -/

def resultOf (id text : String) (isError : Bool) : AgentMessage :=
  .toolResult
    { toolCallId := id, toolName := "bash", content := [.text { text, textSignature := none }]
      details := none, isError, timestamp := 0 }

/-- Two calls that fail without a word, and one that succeeds. -/
def silentErrors : List AgentMessage :=
  (readExchange "a" "").take 1 ++ [resultOf "1" "" true, resultOf "2" "" true, resultOf "3" "ok" false]

theorem silent_errors_grow : silentErrors.map estimateTokens = [4, 0, 0, 1] ∧
      (planContextJanitor silentErrors eagerJanitor).messages.map estimateTokens = [4, 30, 9, 1] ∧
      estimateContextTokens silentErrors <
        estimateContextTokens (planContextJanitor silentErrors eagerJanitor).messages := by
  decide +kernel

end Budget
end RePrime
