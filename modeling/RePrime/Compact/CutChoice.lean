import RePrime.Compact.Prepare

/-!
# RePrime.Compact.CutChoice

Which entry a compaction cuts at, and when it reports that the cut splits a turn.

* `Reaches`, `Chosen`: the newest message from which on enough tokens are kept, and the valid cut
  point next to it.
* `findCutPoint_choice`: the kept part starts there, or at the entries that are no messages right
  before it; a tool result can only lose its call when a valid cut point stands between them.
* `findCutPoint_split`: the turn that is split.
-/

namespace RePrime
namespace Compact

open Session List Option

/-! ## Scans over indices -/

variable {startIndex endIndex : Nat}

theorem indices_succ (h : startIndex ≤ endIndex) :
    indices startIndex (endIndex + 1) = indices startIndex endIndex ++ [endIndex] := by
  have hlen : endIndex + 1 - startIndex = endIndex - startIndex + 1 := by omega
  have hlast : startIndex + (endIndex - startIndex) = endIndex := by omega
  rw [indices, indices, hlen, range'_1_concat, hlast]

theorem indices_of_le (h : endIndex ≤ startIndex) : indices startIndex endIndex = [] := by
  rw [indices, Nat.sub_eq_zero_of_le h]
  rfl

theorem pairwise_indices (startIndex endIndex : Nat) : (indices startIndex endIndex).Pairwise (· < ·) :=
  pairwise_lt_range'

/-! ## The token sum -/

def messageAt (entries : List SessionEntry) (i : Nat) : Option AgentMessage := entries[i]?.bind message?

/-- The estimate of the messages from an index on. -/
def keptTokens (entries : List SessionEntry) (i endIndex : Nat) : Nat :=
  (((indices i endIndex).filterMap (messageAt entries)).map estimateTokens).sum

/-- The tokens of one entry. -/
def tokensAt (entries : List SessionEntry) (i : Nat) : Nat := (messageAt entries i).elim 0 estimateTokens

variable {i : Nat}

theorem keptTokens_succ (entries : List SessionEntry) (h : i ≤ endIndex) :
    keptTokens entries i (endIndex + 1) = keptTokens entries i endIndex + tokensAt entries endIndex := by
  rw [keptTokens, indices_succ h, filterMap_append, map_append, sum_append, tokensAt]
  cases hm : messageAt entries endIndex with
  | none | some => simp [keptTokens, hm]

theorem keptTokens_self (entries : List SessionEntry) (i : Nat) : keptTokens entries i i = 0 := by
  rw [keptTokens, indices_of_le (Nat.le_refl i)]
  rfl

/-- No message from `startIndex` on has enough tokens behind it. -/
def NoneReaches (entries : List SessionEntry) (startIndex endIndex : Nat) (keepRecentTokens : Int) : Prop :=
  ∀ j, startIndex ≤ j → j < endIndex → (messageAt entries j).isSome = true →
    (keptTokens entries j endIndex : Int) < keepRecentTokens

/-- `i` is the newest message from which on enough tokens are kept. -/
structure Reaches (entries : List SessionEntry) (startIndex endIndex : Nat) (keepRecentTokens : Int)
    (i : Nat) : Prop where
  lo : startIndex ≤ i
  hi : i < endIndex
  message : (messageAt entries i).isSome = true
  enough : keepRecentTokens ≤ keptTokens entries i endIndex
  newest : NoneReaches entries (i + 1) endIndex keepRecentTokens

variable {entries : List SessionEntry}

theorem NoneReaches.succ {k : Int} (h : NoneReaches entries startIndex endIndex (k - tokensAt entries endIndex))
    (hlast : (messageAt entries endIndex).isSome = true → (tokensAt entries endIndex : Int) < k) :
    NoneReaches entries startIndex (endIndex + 1) k := by
  intro j hlo hhi hm
  cases Nat.lt_or_eq_of_le (Nat.le_of_lt_succ hhi) with
  | inl hlt =>
    have := h j hlo hlt hm
    rw [keptTokens_succ entries (Nat.le_of_lt hlt)]
    omega
  | inr heq =>
    subst heq
    have := hlast hm
    rw [keptTokens_succ entries (Nat.le_refl j), keptTokens_self]
    omega

theorem Reaches.succ {k : Int} (h : Reaches entries startIndex endIndex (k - tokensAt entries endIndex) i)
    (hlast : (messageAt entries endIndex).isSome = true → (tokensAt entries endIndex : Int) < k) :
    Reaches entries startIndex (endIndex + 1) k i where
  lo := h.lo
  hi := Nat.lt_succ_of_lt h.hi
  message := h.message
  enough := by
    have := h.enough
    rw [keptTokens_succ entries (Nat.le_of_lt h.hi)]
    omega
  newest := h.newest.succ hlast

/-- What `accumulate` finds when `tokens` are kept behind `endIndex`. -/
def Accumulated (entries : List SessionEntry) (startIndex endIndex : Nat) (k : Int) : Option Nat → Prop
  | none => NoneReaches entries startIndex endIndex k
  | some i => Reaches entries startIndex endIndex k i

theorem Accumulated.succ {k : Int} {found : Option Nat}
    (h : Accumulated entries startIndex endIndex (k - tokensAt entries endIndex) found)
    (hlast : (messageAt entries endIndex).isSome = true → (tokensAt entries endIndex : Int) < k) :
    Accumulated entries startIndex (endIndex + 1) k found := by
  cases found with
  | none => exact NoneReaches.succ h hlast
  | some i => exact Reaches.succ h hlast

theorem accumulate_spec (entries : List SessionEntry) (keepRecentTokens : Int) (startIndex endIndex : Nat) :
    ∀ tokens : Nat, Accumulated entries startIndex endIndex (keepRecentTokens - tokens)
      (accumulate entries keepRecentTokens (indices startIndex endIndex).reverse tokens) := by
  induction endIndex with
  | zero =>
    intro tokens
    rw [indices_of_le (Nat.zero_le _)]
    exact fun j _ hj => absurd hj (Nat.not_lt_zero j)
  | succ endIndex ih =>
    intro tokens
    by_cases hle : startIndex ≤ endIndex
    · rw [indices_succ hle, reverse_concat, accumulate]
      cases hm : messageAt entries endIndex with
      | none =>
        rw [show entries[endIndex]?.bind message? = none from hm]
        have htokens : tokensAt entries endIndex = 0 := by rw [tokensAt, hm, elim_none]
        refine Accumulated.succ ?_ (by simp [hm])
        rw [htokens]
        simpa using ih tokens
      | some m =>
        rw [show entries[endIndex]?.bind message? = some m from hm]
        have htokens : tokensAt entries endIndex = estimateTokens m := by
          rw [tokensAt, hm, elim_some]
        dsimp only
        split
        · rename_i henough
          refine ⟨hle, Nat.lt_succ_self _, by rw [hm]; rfl, ?_, fun j hlo hhi => absurd hhi (by omega)⟩
          rw [keptTokens_succ entries (Nat.le_refl _), keptTokens_self, htokens]
          omega
        · rename_i hless
          refine Accumulated.succ ?_ fun _ => by rw [htokens]; omega
          have hih := ih (tokens + estimateTokens m)
          rw [htokens]
          rwa [Int.natCast_add, ← Int.sub_sub] at hih
    · rw [indices_of_le (by omega)]
      intro j hlo hj
      omega

/-! ## The cut -/

/-- The valid cut point the kept part is to start at: the first one not before the message that
reaches the budget, or the last one; without such a message, the first one. -/
inductive Chosen (entries : List SessionEntry) (startIndex endIndex : Nat) (keepRecentTokens : Int)
    (c : Nat) : Prop
  | all (none : NoneReaches entries startIndex endIndex keepRecentTokens)
      (first : ∀ c' ∈ findValidCutPoints entries startIndex endIndex, c ≤ c')
  | reached (i : Nat) (reaches : Reaches entries startIndex endIndex keepRecentTokens i) (le : i ≤ c)
      (first : ∀ c' ∈ findValidCutPoints entries startIndex endIndex, i ≤ c' → c ≤ c')
  | trailing (i : Nat) (reaches : Reaches entries startIndex endIndex keepRecentTokens i)
      (before : ∀ c' ∈ findValidCutPoints entries startIndex endIndex, c' < i)
      (last : ∀ c' ∈ findValidCutPoints entries startIndex endIndex, c' ≤ c)

theorem pairwise_findValidCutPoints (entries : List SessionEntry) (startIndex endIndex : Nat) :
    (findValidCutPoints entries startIndex endIndex).Pairwise (· < ·) :=
  (pairwise_indices startIndex endIndex).filter _

theorem le_of_pairwise_cons {first : Nat} {rest : List Nat} (h : (first :: rest).Pairwise (· < ·)) :
    ∀ c ∈ first :: rest, first ≤ c := by
  intro c hc
  cases mem_cons.1 hc with
  | inl heq => exact Nat.le_of_eq heq.symm
  | inr hc => exact Nat.le_of_lt ((pairwise_cons.1 h).1 c hc)

theorem le_getLastD {l : List Nat} (h : l.Pairwise (· < ·)) (d : Nat) : ∀ c ∈ l, c ≤ l.getLastD d := by
  intro c hc
  cases eq_nil_or_concat l with
  | inl hnil =>
    rw [hnil] at hc
    cases hc
  | inr hsnoc =>
    obtain ⟨front, last, rfl⟩ := hsnoc
    rw [concat_eq_append] at h hc ⊢
    rw [getLastD_eq_getLast?, getLast?_concat, getD_some]
    cases mem_append.1 hc with
    | inl hc => exact Nat.le_of_lt ((pairwise_append.1 h).2.2 c hc last (mem_singleton_self _))
    | inr hc => exact Nat.le_of_eq (mem_singleton.1 hc)

theorem chosen_chooseCut {first : Nat} {rest : List Nat}
    (keepRecentTokens : Int) (hcuts : findValidCutPoints entries startIndex endIndex = first :: rest) :
    Chosen entries startIndex endIndex keepRecentTokens
      (chooseCut entries keepRecentTokens startIndex endIndex first (first :: rest)) := by
  have hsorted := pairwise_findValidCutPoints entries startIndex endIndex
  have hacc := accumulate_spec entries keepRecentTokens startIndex endIndex 0
  rw [Int.natCast_zero, Int.sub_zero] at hacc
  unfold chooseCut
  cases hfound : accumulate entries keepRecentTokens (indices startIndex endIndex).reverse 0 with
  | none =>
    rw [hfound] at hacc
    refine .all hacc ?_
    rw [hcuts] at hsorted ⊢
    exact le_of_pairwise_cons hsorted
  | some i =>
    rw [hfound] at hacc
    dsimp only
    rw [← hcuts]
    cases hf : (findValidCutPoints entries startIndex endIndex).find? fun c => decide (i ≤ c) with
    | none =>
      refine .trailing i hacc (fun c' hc' => ?_) (le_getLastD hsorted first)
      simpa using find?_eq_none.1 hf c' hc'
    | some c =>
      obtain ⟨hle, before, after, hsplit, hbefore⟩ := find?_eq_some_iff_append.1 hf
      refine .reached i hacc (by simpa using hle) fun c' hc' hi => ?_
      rw [hsplit] at hc' hsorted
      cases mem_append.1 hc' with
      | inl hmem =>
        have hno := hbefore c' hmem
        simp only [Bool.not_eq_true', decide_eq_false_iff_not] at hno
        exact absurd hi hno
      | inr hmem => exact le_of_pairwise_cons (pairwise_append.1 hsorted).2.1 c' hmem

/-- Moving back passes entries that are no messages and no compactions, and all of them. -/
structure MovedBack (entries : List SessionEntry) (startIndex c k : Nat) : Prop where
  lo : startIndex ≤ k
  hi : k ≤ c
  passed : ∀ j, k ≤ j → j < c → entries[j]?.any isBarrier = false
  stopped : k = startIndex ∨ ∃ j, j + 1 = k ∧ entries[j]?.any isBarrier = true

theorem movedBack_moveBack (entries : List SessionEntry) {c : Nat} (h : startIndex ≤ c) :
    MovedBack entries startIndex c (moveBack entries startIndex c) := by
  induction c with
  | zero =>
    obtain rfl := Nat.le_zero.1 h
    exact ⟨Nat.le_refl _, Nat.le_refl _, fun j _ hj => absurd hj (Nat.not_lt_zero j), .inl rfl⟩
  | succ c ih =>
    rw [moveBack]
    have hstay : startIndex = c + 1 ∨ entries[c]?.any isBarrier = true →
        MovedBack entries startIndex (c + 1) (c + 1) := by
      intro hstop
      refine ⟨h, Nat.le_refl _, fun j hlo hhi => absurd hhi (by omega), ?_⟩
      exact hstop.imp Eq.symm fun hb => ⟨c, rfl, hb⟩
    split
    · split
      · rename_i hbarrier
        exact hstay (.inr hbarrier)
      · rename_i hlt hbarrier
        have hback := ih (by omega)
        refine ⟨hback.lo, Nat.le_succ_of_le hback.hi, fun j hlo hhi => ?_, hback.stopped⟩
        cases Nat.lt_or_eq_of_le (Nat.le_of_lt_succ hhi) with
        | inl hlt => exact hback.passed j hlo hlt
        | inr heq =>
          subst heq
          exact Bool.eq_false_iff.2 hbarrier
    · exact hstay (.inl (by omega))

/-- Entry `i` makes the tool call that entry `j` has the result of. -/
def Answers (entries : List SessionEntry) (i j : Nat) : Prop :=
  ∃ m r t, messageAt entries i = some (.assistant m) ∧ messageAt entries j = some (.toolResult r) ∧
    .toolCall t ∈ m.content ∧ t.id = r.toolCallId

theorem not_isCutPoint_of_toolResult {j : Nat} {r : ToolResultMessage}
    (h : messageAt entries j = some (.toolResult r)) : entries[j]?.any isCutPoint = false := by
  obtain ⟨e, he, hm⟩ := bind_eq_some_iff.1 h
  unfold message? at hm
  rw [he, any_some, isCutPoint]
  cases hb : e.body with
  | message m =>
    rw [hb] at hm
    cases hm
    rfl
  | _ => simp [hb] at hm

theorem findCutPoint_movedBack
    (keepRecentTokens : Int) (hcuts : findValidCutPoints entries startIndex endIndex ≠ []) :
    ∃ c ∈ findValidCutPoints entries startIndex endIndex, Chosen entries startIndex endIndex keepRecentTokens c ∧
      findCutPoint entries startIndex endIndex keepRecentTokens =
        cutAt entries startIndex (moveBack entries startIndex c) ∧
      MovedBack entries startIndex c (moveBack entries startIndex c) := by
  obtain ⟨first, rest, hsplit⟩ := exists_cons_of_ne_nil hcuts
  have hmem := @chooseCut_mem entries keepRecentTokens startIndex endIndex first (first :: rest) (by simp)
  rw [← hsplit] at hmem
  refine ⟨_, hmem, ?_, ?_, movedBack_moveBack entries (mem_indices.1 (mem_filter.1 hmem).1).1⟩
  · rw [hsplit]
    exact chosen_chooseCut keepRecentTokens hsplit
  · rw [findCutPoint, hsplit]

/-- Where a compaction cuts: at the valid cut point next to the message that reaches the budget, moved
back over what is no message. A tool result is only kept without its call when a valid cut point
stands between the two. -/
theorem findCutPoint_choice (entries : List SessionEntry) (startIndex endIndex : Nat) (keepRecentTokens : Int) :
    let k := (findCutPoint entries startIndex endIndex keepRecentTokens).firstKeptEntryIndex
    (findValidCutPoints entries startIndex endIndex = [] → k = startIndex) ∧
      (findValidCutPoints entries startIndex endIndex ≠ [] →
        (∃ c ∈ findValidCutPoints entries startIndex endIndex,
          Chosen entries startIndex endIndex keepRecentTokens c ∧ MovedBack entries startIndex c k) ∧
        ∀ i j, Answers entries i j →
          (∀ c, i < c → c < j → entries[c]?.any isCutPoint = false) → ¬(i < k ∧ k ≤ j)) := by
  intro k
  refine ⟨fun hnil => ?_, fun hcuts => ?_⟩
  · show (findCutPoint _ _ _ _).firstKeptEntryIndex = startIndex
    rw [findCutPoint, hnil]
  · obtain ⟨c, hc, hchosen, hcut, hback⟩ := findCutPoint_movedBack keepRecentTokens hcuts
    have hk : k = moveBack entries startIndex c := by
      show (findCutPoint _ _ _ _).firstKeptEntryIndex = _
      rw [hcut, cutAt_firstKept]
    rw [← hk] at hback
    refine ⟨⟨c, hc, hchosen, hback⟩, ?_⟩
    rintro i j ⟨m, r, t, -, hr, -, -⟩ hbetween ⟨hik, hkj⟩
    have hcut : entries[c]?.any isCutPoint = true := (mem_filter.1 hc).2
    have hle := hback.hi
    -- the result is a message, so it is not among the entries that were passed
    by_cases hcj : c < j
    · rw [hbetween c (by omega) hcj] at hcut
      cases hcut
    · cases Nat.lt_or_eq_of_le (Nat.le_of_not_lt hcj) with
      | inl hlt =>
        have hpassed := hback.passed j hkj hlt
        obtain ⟨e, he, hm⟩ := bind_eq_some_iff.1 hr
        rw [he, any_some, isBarrier, hm] at hpassed
        cases hpassed
      | inr heq =>
        rw [← heq, not_isCutPoint_of_toolResult hr] at hcut
        cases hcut

/-! ## Cuts that keep less, and cuts between a call and its result -/

def callMessage (callId : String) : AgentMessage :=
  .assistant
    { content := [.toolCall { id := callId, name := "bash", arguments := [], thoughtSignature := none }]
      api := "api"
      provider := "provider"
      model := "model"
      responseModel := none
      responseId := none
      diagnostics := none
      usage := zeroUsage 1
      stopReason := .toolUse
      stopReasonRaw := none
      errorMessage := none
      timestamp := 0 }

def resultMessage (callId text : String) : AgentMessage :=
  .toolResult
    { toolCallId := callId, toolName := "bash", content := [.text { text, textSignature := none }]
      details := none, isError := false, timestamp := 0 }

def bashMessage (command : String) : AgentMessage :=
  .bashExecution
    { command, output := "", exitCode := some 0, cancelled := false, truncated := false
      fullOutputPath := none, timestamp := 0, excludeFromContext := none }

/-- A call with a result of two tokens, and a short answer. -/
def callPath : List SessionEntry :=
  [pathEntry "a" none (.message (userMessage "one")),
    pathEntry "b" (some "a") (.message (callMessage "call")),
    pathEntry "c" (some "b") (.message (resultMessage "call" "12345678")),
    pathEntry "d" (some "c") (.message (assistantMessage "done"))]

/-- The user ran a command while the call was running. -/
def steeredPath : List SessionEntry :=
  [pathEntry "a" none (.message (userMessage "one")),
    pathEntry "b" (some "a") (.message (callMessage "call")),
    pathEntry "c" (some "b") (.message (bashMessage "ls")),
    pathEntry "d" (some "c") (.message (resultMessage "call" "done"))]

/-- The cut behind the result keeps fewer tokens than it should, though the call is a valid cut point
that keeps enough; and a command between a call and its result is where they are cut apart. -/
theorem findCutPoint_approximate :
    ((findCutPoint callPath 0 4 3).firstKeptEntryIndex = 3 ∧ keptTokens callPath 3 4 < 3 ∧
      1 ∈ findValidCutPoints callPath 0 4 ∧ 3 ≤ keptTokens callPath 1 4 ∧ Answers callPath 1 2) ∧
    (findCutPoint steeredPath 0 4 2).firstKeptEntryIndex = 2 ∧ Answers steeredPath 1 3 :=
  ⟨⟨by decide, by decide, by decide, by decide, ⟨_, _, _, rfl, rfl, mem_singleton_self _, rfl⟩⟩,
    by decide, ⟨_, _, _, rfl, rfl, mem_singleton_self _, rfl⟩⟩

/-! ## The turn that is split -/

def isContextEntry (e : SessionEntry) : Bool :=
  match e.body with
  | .message _ | .customMessage _ | .branchSummary _ => true
  | _ => false

/-- `f` is the first entry from `k` on that gives a message to the context. -/
structure FirstKept (entries : List SessionEntry) (k f : Nat) : Prop where
  le : k ≤ f
  context : entries[f]?.any isContextEntry = true
  first : ∀ j, k ≤ j → j < f → entries[j]?.any isContextEntry = false

/-- `t` is the last turn start in front of `f`. -/
structure NearestTurnStart (entries : List SessionEntry) (startIndex f t : Nat) : Prop where
  lo : startIndex ≤ t
  hi : t < f
  start : entries[t]?.any isTurnStart = true
  nearest : ∀ j, t < j → j < f → entries[j]?.any isTurnStart = false

variable {t : Nat}

theorem find_reverse_indices {p : Nat → Bool} : (indices startIndex endIndex).reverse.find? p = some t ↔
      startIndex ≤ t ∧ t < endIndex ∧ p t = true ∧ ∀ j, t < j → j < endIndex → p j = false := by
  induction endIndex with
  | zero =>
    rw [indices_of_le (Nat.zero_le _)]
    simp
  | succ endIndex ih =>
    by_cases hle : startIndex ≤ endIndex
    · rw [indices_succ hle, reverse_concat]
      cases hp : p endIndex with
      | true =>
        rw [find?_cons_of_pos hp, Option.some.injEq]
        constructor
        · rintro rfl
          exact ⟨hle, Nat.lt_succ_self _, hp, fun j hlo hhi => absurd hhi (by omega)⟩
        · rintro ⟨-, hlt, -, hnone⟩
          by_contra hne
          have := hnone endIndex (by omega) (Nat.lt_succ_self _)
          rw [hp] at this
          cases this
      | false =>
        rw [find?_cons_of_neg (by rw [hp]; exact Bool.false_ne_true), ih]
        constructor
        · rintro ⟨hlo, hhi, ht, hnone⟩
          refine ⟨hlo, Nat.lt_succ_of_lt hhi, ht, fun j hj hj' => ?_⟩
          cases Nat.lt_or_eq_of_le (Nat.le_of_lt_succ hj') with
          | inl hlt => exact hnone j hj hlt
          | inr heq => rw [heq, hp]
        · rintro ⟨hlo, hhi, ht, hnone⟩
          have hne : t ≠ endIndex := by
            rintro rfl
            rw [hp] at ht
            cases ht
          exact ⟨hlo, by omega, ht, fun j hj hj' => hnone j hj (Nat.lt_succ_of_lt hj')⟩
    · rw [indices_of_le (by omega)]
      simp only [reverse_nil, find?_nil, reduceCtorEq, false_iff]
      rintro ⟨hlo, hhi, -, -⟩
      omega

variable {k : Nat}

theorem findTurnStartIndex_eq_some :
    findTurnStartIndex entries k startIndex = some t ↔ NearestTurnStart entries startIndex (k + 1) t := by
  rw [findTurnStartIndex, find_reverse_indices]
  exact ⟨fun ⟨hlo, hhi, hs, hn⟩ => ⟨hlo, hhi, hs, hn⟩, fun h => ⟨h.lo, h.hi, h.start, h.nearest⟩⟩

theorem nearestTurnStart_congr {a b : Nat} (hab : a ≤ b)
    (hnone : ∀ j, a ≤ j → j < b → entries[j]?.any isTurnStart = false) :
    NearestTurnStart entries startIndex a t ↔ NearestTurnStart entries startIndex b t := by
  constructor
  · rintro ⟨hlo, hhi, hs, hn⟩
    refine ⟨hlo, by omega, hs, fun j hj hj' => ?_⟩
    by_cases hja : j < a
    · exact hn j hj hja
    · exact hnone j (by omega) hj'
  · rintro ⟨hlo, hhi, hs, hn⟩
    have hlt : t < a := by
      by_contra hge
      rw [hnone t (by omega) hhi] at hs
      cases hs
    exact ⟨hlo, hlt, hs, fun j hj hj' => hn j hj (by omega)⟩

variable {f : Nat}

theorem exists_nearestTurnStart : (∃ t, NearestTurnStart entries startIndex f t) ↔
      ∃ t, startIndex ≤ t ∧ t < f ∧ entries[t]?.any isTurnStart = true := by
  constructor
  · rintro ⟨t, h⟩
    exact ⟨t, h.lo, h.hi, h.start⟩
  · rintro ⟨t, hlo, hhi, hs⟩
    cases hf : (indices startIndex f).reverse.find? fun i => entries[i]?.any isTurnStart with
    | none =>
      have := find?_eq_none.1 hf t (mem_reverse.2 (mem_indices.2 ⟨hlo, hhi⟩))
      exact absurd hs this
    | some t' =>
      obtain ⟨hlo', hhi', hs', hn'⟩ := find_reverse_indices.1 hf
      exact ⟨t', hlo', hhi', hs', hn'⟩

theorem isContextEntry_of_isTurnStart {e : SessionEntry} (h : isTurnStart e = true) :
    isContextEntry e = true ∧ isCutPoint e = true := by
  unfold isTurnStart at h
  unfold isContextEntry isCutPoint
  cases hb : e.body with
  | message m => cases m <;> simp_all [isCutMessage]
  | _ => simp_all

theorem turnStart_at (h : entries[i]?.any isTurnStart = true) :
    entries[i]?.any isContextEntry = true ∧ entries[i]?.any isCutPoint = true := by
  cases he : entries[i]? with
  | none =>
    rw [he] at h
    cases h
  | some e =>
    rw [he] at h
    exact isContextEntry_of_isTurnStart h

theorem isTurnStart_of_isUserMessage {e : SessionEntry} (h : isUserMessage e = true) : isTurnStart e = true := by
  unfold isUserMessage at h
  unfold isTurnStart
  cases hb : e.body with
  | message m => cases m <;> simp_all
  | _ => simp_all

theorem userMessage_at (h : entries[i]?.any isUserMessage = true) : entries[i]?.any isTurnStart = true := by
  cases he : entries[i]? with
  | none =>
    rw [he] at h
    cases h
  | some e =>
    rw [he] at h
    exact isTurnStart_of_isUserMessage h

theorem FirstKept.no_turnStart (h : FirstKept entries k f) :
    ∀ j, k ≤ j → j < f → entries[j]?.any isTurnStart = false := by
  intro j hlo hhi
  by_contra hne
  have := (turnStart_at (Bool.not_eq_false _ ▸ hne)).1
  rw [h.first j hlo hhi] at this
  cases this

/-- The turn a result reports for a first kept message that starts none itself. -/
structure SplitsBefore (entries : List SessionEntry) (startIndex f : Nat) (r : CutPointResult) : Prop where
  split : r.isSplitTurn = true ↔ ∃ t, startIndex ≤ t ∧ t < f ∧ entries[t]?.any isTurnStart = true
  turn : ∀ t, r.turnStartIndex = some t ↔ NearestTurnStart entries startIndex f t

theorem splitsBefore_cutAt (hf : FirstKept entries k f) (hstart : entries[f]?.any isTurnStart = false) :
    SplitsBefore entries startIndex f (cutAt entries startIndex k) := by
  have hle := hf.le
  have hnone : ∀ j, k ≤ j → j < f + 1 → entries[j]?.any isTurnStart = false := by
    intro j hlo hhi
    cases Nat.lt_or_eq_of_le (Nat.le_of_lt_succ hhi) with
    | inl hlt => exact hf.no_turnStart j hlo hlt
    | inr heq => rw [heq, hstart]
  have huser : ¬entries[k]?.any isUserMessage = true := by
    intro hu
    have := userMessage_at hu
    rw [hnone k (Nat.le_refl k) (Nat.lt_succ_of_le hf.le)] at this
    cases this
  have hturn : ∀ t, findTurnStartIndex entries k startIndex = some t ↔
      NearestTurnStart entries startIndex f t := by
    intro t
    rw [findTurnStartIndex_eq_some,
      ← nearestTurnStart_congr (Nat.le_succ k) fun j hlo hhi => hnone j hlo (by omega)]
    exact nearestTurnStart_congr hf.le hf.no_turnStart
  rw [cutAt, if_neg huser]
  refine ⟨?_, hturn⟩
  rw [← exists_nearestTurnStart, isSome_iff_exists]
  exact exists_congr hturn

theorem splitsBefore_of_no_cut (keepRecentTokens : Int) (hnil : findValidCutPoints entries startIndex endIndex = [])
    (hf : FirstKept entries startIndex f) :
    SplitsBefore entries startIndex f (findCutPoint entries startIndex endIndex keepRecentTokens) := by
  rw [findCutPoint, hnil]
  refine ⟨⟨fun h => ?_, ?_⟩, fun t => ⟨fun h => ?_, fun h => ?_⟩⟩
  · cases h
  · rintro ⟨t, hlo, hhi, hs⟩
    rw [hf.no_turnStart t hlo hhi] at hs
    cases hs
  · cases h
  · have hs := h.start
    rw [hf.no_turnStart t h.lo h.hi] at hs
    cases hs

theorem cutAt_user (startIndex : Nat) (h : entries[k]?.any isUserMessage = true) :
    (cutAt entries startIndex k).isSplitTurn = false ∧ (cutAt entries startIndex k).turnStartIndex = none := by
  rw [cutAt, if_pos h]
  exact ⟨rfl, rfl⟩

theorem cutAt_turn (hle : startIndex ≤ k)
    (hstart : entries[k]?.any isTurnStart = true) (h : entries[k]?.any isUserMessage = false) :
    (cutAt entries startIndex k).isSplitTurn = true ∧ (cutAt entries startIndex k).turnStartIndex = some k := by
  have hturn : findTurnStartIndex entries k startIndex = some k :=
    findTurnStartIndex_eq_some.2 ⟨hle, Nat.lt_succ_self k, hstart, fun j hlo hhi => absurd hhi (by omega)⟩
  rw [cutAt, if_neg (by rw [h]; exact Bool.false_ne_true), hturn]
  exact ⟨rfl, rfl⟩

/-- How a cut is classified. A first kept message that starts no turn splits the nearest turn that
starts in front of it, if one does, whatever metadata is in between. At a user message, the cut splits
none; at another entry that starts a turn, it splits that one. -/
theorem findCutPoint_split (entries : List SessionEntry) (startIndex endIndex : Nat)
    (keepRecentTokens : Int) {f : Nat}
    (hf : FirstKept entries (findCutPoint entries startIndex endIndex keepRecentTokens).firstKeptEntryIndex f)
    (hend : f < endIndex) : let r := findCutPoint entries startIndex endIndex keepRecentTokens
    (entries[f]?.any isTurnStart = false → SplitsBefore entries startIndex f r) ∧
      (f = r.firstKeptEntryIndex → entries[f]?.any isUserMessage = true →
        r.isSplitTurn = false ∧ r.turnStartIndex = none) ∧
      (f = r.firstKeptEntryIndex → entries[f]?.any isTurnStart = true →
        entries[f]?.any isUserMessage = false → r.isSplitTurn = true ∧ r.turnStartIndex = some f) := by
  intro r
  by_cases hcuts : findValidCutPoints entries startIndex endIndex = []
  · have hr : r = { firstKeptEntryIndex := startIndex, turnStartIndex := none, isSplitTurn := false } := by
      show findCutPoint entries startIndex endIndex keepRecentTokens = _
      rw [findCutPoint, hcuts]
    replace hf : FirstKept entries r.firstKeptEntryIndex f := hf
    rw [hr] at hf
    refine ⟨fun _ => splitsBefore_of_no_cut keepRecentTokens hcuts hf, fun _ _ => ?_, fun hfk hs _ => ?_⟩
    · rw [hr]
      exact ⟨rfl, rfl⟩
    · -- a turn start in the range would be a valid cut point
      rw [hr] at hfk
      have hmem : f ∈ findValidCutPoints entries startIndex endIndex :=
        mem_filter.2 ⟨mem_indices.2 ⟨Nat.le_of_eq hfk.symm, hend⟩, (turnStart_at hs).2⟩
      rw [hcuts] at hmem
      cases hmem
  · obtain ⟨c, -, -, hcut, hback⟩ := findCutPoint_movedBack keepRecentTokens hcuts
    have hr : r = cutAt entries startIndex (moveBack entries startIndex c) := hcut
    replace hf : FirstKept entries r.firstKeptEntryIndex f := hf
    rw [hr, cutAt_firstKept] at hf
    rw [hr, cutAt_firstKept]
    refine ⟨splitsBefore_cutAt hf, fun hfk hu => ?_, fun hfk hs hu => ?_⟩
    · rw [hfk] at hu
      exact cutAt_user startIndex hu
    · rw [hfk] at hs hu
      rw [hfk]
      exact cutAt_turn hback.lo hs hu

theorem findCutPoint_split_callPath : (findCutPoint callPath 0 4 3).firstKeptEntryIndex = 3 ∧
      SplitsBefore callPath 0 3 (findCutPoint callPath 0 4 3) := by
  have hk : (findCutPoint callPath 0 4 3).firstKeptEntryIndex = 3 := by decide
  refine ⟨hk, (@findCutPoint_split callPath 0 4 3 3 ?_ (by decide)).1 (by decide)⟩
  rw [hk]
  exact ⟨Nat.le_refl 3, by decide, fun j hlo hhi => absurd hhi (by omega)⟩

/-- A turn of two answers, and a command of the user. -/
def longTurn : List SessionEntry :=
  [pathEntry "a" none (.message (userMessage "one")),
    pathEntry "b" (some "a") (.message (assistantMessage "two")),
    pathEntry "c" (some "b") (.message (assistantMessage "three")),
    pathEntry "d" (some "c") (.message (bashMessage "ls"))]

/-- A range that starts within the turn: no split is reported where the first kept message starts no
turn. And a cut at the command, which starts one, is reported as a split. -/
theorem findCutPoint_split_longTurn : (findCutPoint longTurn 1 3 1 =
        { firstKeptEntryIndex := 2, turnStartIndex := none, isSplitTurn := false } ∧
      FirstKept longTurn 2 2 ∧ longTurn[2]?.any isTurnStart = false) ∧
    findCutPoint longTurn 0 4 1 =
        { firstKeptEntryIndex := 3, turnStartIndex := some 3, isSplitTurn := true } ∧
      FirstKept longTurn 3 3 ∧ longTurn[3]?.any isTurnStart = true :=
  ⟨⟨by decide, ⟨Nat.le_refl _, by decide, fun j hlo hhi => absurd hhi (by omega)⟩, by decide⟩,
    by decide, ⟨Nat.le_refl _, by decide, fun j hlo hhi => absurd hhi (by omega)⟩, by decide⟩

end Compact
end RePrime
