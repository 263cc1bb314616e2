import RePrime.Lib.Text
import RePrime.Session.Codec

/-!
# RePrime.Compact.CutPoint

Where a compaction cuts a path: the entries before the cut are summarized, those from it on are
kept.

* `estimateTokens`: a quarter of the characters, rounded up.
* `findCutPoint`: back from the newest entry until enough tokens are kept, then back over what is no
  message, then to the start of the turn.
* `findCutPoint_range`, `turnStart_range`: where the two indices lie.
-/

namespace RePrime
namespace Compact

open Session

/-! ## Tokens -/

def textLength (s : String) : Nat := Text.length s.toList

def blockLength : Block → Nat
  | .text t => textLength t.text
  | .image _ => 4800

def contentLength : Content → Nat
  | .text s => textLength s
  | .blocks bs => (bs.map blockLength).sum

/-- A user message counts its texts only. -/
def userBlockLength : Block → Nat
  | .text t => textLength t.text
  | .image _ => 0

def userContentLength : Content → Nat
  | .text s => textLength s
  | .blocks bs => (bs.map userBlockLength).sum

def assistantBlockLength : AssistantBlock → Nat
  | .text t => textLength t.text
  | .thinking t => textLength t.thinking
  | .toolCall t => textLength t.name + Text.length (Json.stringify (.object t.arguments))

def messageLength : AgentMessage → Nat
  | .user m => userContentLength m.content
  | .assistant m => (m.content.map assistantBlockLength).sum
  | .toolResult m => (m.content.map blockLength).sum
  | .bashExecution m => textLength m.command + textLength m.output
  | .custom m => contentLength m.content
  | .branchSummary m => textLength m.summary
  | .compactionSummary m => textLength m.summary

/-- `Math.ceil(chars / 4)`. -/
def estimateTokens (message : AgentMessage) : Nat := (messageLength message + 3) / 4

def calculateContextTokens (usage : Usage) : Int :=
  if usage.totalTokens ≠ 0 then usage.totalTokens
  else usage.input + usage.output + usage.cacheRead + usage.cacheWrite

/-- Aborted and failed answers have no valid usage. -/
def getAssistantUsage : AgentMessage → Option Usage
  | .assistant m => if m.stopReason = .aborted ∨ m.stopReason = .error then none else some m.usage
  | _ => none

/-- The field `tokens` of `estimateContextTokens`; the messages newest first. -/
def estimateFrom : List AgentMessage → Int → Int
  | [], trailing => trailing
  | m :: older, trailing =>
    match getAssistantUsage m with
    | some usage => calculateContextTokens usage + trailing
    | none => estimateFrom older (trailing + estimateTokens m)

def estimateContextTokens (messages : List AgentMessage) : Int := estimateFrom messages.reverse 0

/-! ## The cut -/

def isCutMessage : AgentMessage → Bool
  | .toolResult _ => false
  | _ => true

/-- An entry where the kept part may start: never a tool result. -/
def isCutPoint (e : SessionEntry) : Bool :=
  match e.body with
  | .message m => isCutMessage m
  | .branchSummary _ | .customMessage _ => true
  | _ => false

def indices (startIndex endIndex : Nat) : List Nat := List.range' startIndex (endIndex - startIndex)

def findValidCutPoints (entries : List SessionEntry) (startIndex endIndex : Nat) : List Nat :=
  (indices startIndex endIndex).filter fun i => entries[i]?.any isCutPoint

def isTurnStart (e : SessionEntry) : Bool :=
  match e.body with
  | .branchSummary _ | .customMessage _ => true
  | .message (.user _) | .message (.bashExecution _) => true
  | _ => false

/-- `none` for the source's `-1`. -/
def findTurnStartIndex (entries : List SessionEntry) (entryIndex startIndex : Nat) : Option Nat :=
  (indices startIndex (entryIndex + 1)).reverse.find? fun i => entries[i]?.any isTurnStart

def message? (e : SessionEntry) : Option AgentMessage :=
  match e.body with
  | .message m => some m
  | _ => none

/-- The loop over the indices, newest first: where the kept tokens reach `keepRecentTokens`. -/
def accumulate (entries : List SessionEntry) (keepRecentTokens : Int) : List Nat → Nat → Option Nat
  | [], _ => none
  | i :: rest, accumulatedTokens =>
    match entries[i]?.bind message? with
    | none => accumulate entries keepRecentTokens rest accumulatedTokens
    | some m =>
      if keepRecentTokens ≤ accumulatedTokens + estimateTokens m then some i
      else accumulate entries keepRecentTokens rest (accumulatedTokens + estimateTokens m)

/-- Where moving the cut back stops. -/
def isBarrier (e : SessionEntry) : Bool := (message? e).isSome || e.compaction?.isSome

/-- `while (cutIndex > startIndex) { if (barrier before) break; cutIndex--; }`. -/
def moveBack (entries : List SessionEntry) (startIndex : Nat) : Nat → Nat
  | 0 => 0
  | cutIndex + 1 =>
    if startIndex < cutIndex + 1 then
      if entries[cutIndex]?.any isBarrier then cutIndex + 1 else moveBack entries startIndex cutIndex
    else cutIndex + 1

structure CutPointResult where
  firstKeptEntryIndex : Nat
  turnStartIndex : Option Nat
  isSplitTurn : Bool
  deriving DecidableEq, Repr

def isUserMessage (e : SessionEntry) : Bool :=
  match e.body with
  | .message (.user _) => true
  | _ => false

/-- The first index that may be the cut, before it moves back. -/
def chooseCut (entries : List SessionEntry) (keepRecentTokens : Int) (startIndex endIndex : Nat)
    (first : Nat) (cutPoints : List Nat) : Nat :=
  match accumulate entries keepRecentTokens (indices startIndex endIndex).reverse 0 with
  | none => first
  | some i => (cutPoints.find? fun c => decide (i ≤ c)).getD (cutPoints.getLastD first)

/-- A cut that is no user message splits the turn it is in, if that turn starts in the range. -/
def cutAt (entries : List SessionEntry) (startIndex cutIndex : Nat) : CutPointResult :=
  if entries[cutIndex]?.any isUserMessage then
    { firstKeptEntryIndex := cutIndex, turnStartIndex := none, isSplitTurn := false }
  else
    { firstKeptEntryIndex := cutIndex
      turnStartIndex := findTurnStartIndex entries cutIndex startIndex
      isSplitTurn := (findTurnStartIndex entries cutIndex startIndex).isSome }

def findCutPoint (entries : List SessionEntry) (startIndex endIndex : Nat) (keepRecentTokens : Int) :
    CutPointResult :=
  match findValidCutPoints entries startIndex endIndex with
  | [] => { firstKeptEntryIndex := startIndex, turnStartIndex := none, isSplitTurn := false }
  | first :: rest =>
    cutAt entries startIndex
      (moveBack entries startIndex
        (chooseCut entries keepRecentTokens startIndex endIndex first (first :: rest)))

/-! ## Where the indices lie -/

variable {startIndex endIndex : Nat}

theorem mem_indices {i : Nat} : i ∈ indices startIndex endIndex ↔ startIndex ≤ i ∧ i < endIndex := by
  rw [indices, List.mem_range'_1]
  omega

theorem moveBack_range (entries : List SessionEntry) {cutIndex : Nat} (h : startIndex ≤ cutIndex) :
    startIndex ≤ moveBack entries startIndex cutIndex ∧ moveBack entries startIndex cutIndex ≤ cutIndex := by
  induction cutIndex with
  | zero => simpa [moveBack] using h
  | succ n ih =>
    rw [moveBack]
    split
    · split
      · omega
      · have := ih (by omega)
        omega
    · omega

theorem chooseCut_mem (entries : List SessionEntry) (keepRecentTokens : Int)
    {startIndex endIndex first : Nat} {cutPoints : List Nat} (h : first ∈ cutPoints) :
    chooseCut entries keepRecentTokens startIndex endIndex first cutPoints ∈ cutPoints := by
  have hlast : cutPoints.getLastD first ∈ cutPoints := by
    rw [List.getLastD_eq_getLast?, List.getLast?_eq_some_getLast (List.ne_nil_of_mem h)]
    exact List.getLast_mem _
  unfold chooseCut
  split
  · exact h
  · rename_i i _
    cases hf : cutPoints.find? fun c => decide (i ≤ c) with
    | none => exact hlast
    | some c => exact List.mem_of_find?_eq_some hf

theorem cutAt_firstKept (entries : List SessionEntry) (startIndex cutIndex : Nat) :
    (cutAt entries startIndex cutIndex).firstKeptEntryIndex = cutIndex := by
  unfold cutAt
  split <;> rfl

theorem cutAt_turnStart {entries : List SessionEntry} {cutIndex : Nat}
    (h : (cutAt entries startIndex cutIndex).isSplitTurn = true) :
    ∃ t, (cutAt entries startIndex cutIndex).turnStartIndex = some t ∧ startIndex ≤ t ∧ t ≤ cutIndex := by
  unfold cutAt at h ⊢
  split
  · rename_i hu
    rw [if_pos hu] at h
    cases h
  · rename_i hu
    rw [if_neg hu] at h
    obtain ⟨t, ht⟩ := Option.isSome_iff_exists.1 h
    have hmem := List.mem_of_find?_eq_some ht
    rw [List.mem_reverse, mem_indices] at hmem
    exact ⟨t, ht, hmem.1, by omega⟩

theorem findCutPoint_range (entries : List SessionEntry) (h : startIndex ≤ endIndex) (keepRecentTokens : Int) :
    startIndex ≤ (findCutPoint entries startIndex endIndex keepRecentTokens).firstKeptEntryIndex ∧
      (findCutPoint entries startIndex endIndex keepRecentTokens).firstKeptEntryIndex ≤ endIndex := by
  unfold findCutPoint
  split
  · exact ⟨Nat.le_refl _, h⟩
  · rename_i first rest hcut
    have hmem := @chooseCut_mem entries keepRecentTokens startIndex endIndex first (first :: rest) (by simp)
    rw [cutAt_firstKept]
    rw [← hcut] at hmem
    obtain ⟨hlo, hhi⟩ := mem_indices.1 (List.mem_filter.1 hmem).1
    rw [hcut] at hlo hhi
    have hback := moveBack_range entries hlo
    exact ⟨hback.1, by omega⟩

theorem turnStart_range {entries : List SessionEntry} {keepRecentTokens : Int}
    (h : (findCutPoint entries startIndex endIndex keepRecentTokens).isSplitTurn = true) :
    ∃ t, (findCutPoint entries startIndex endIndex keepRecentTokens).turnStartIndex = some t ∧ startIndex ≤ t ∧
      t ≤ (findCutPoint entries startIndex endIndex keepRecentTokens).firstKeptEntryIndex := by
  unfold findCutPoint at h ⊢
  split
  · rename_i hcut
    rw [hcut] at h
    cases h
  · rename_i first rest hcut
    rw [hcut] at h
    rw [cutAt_firstKept]
    exact cutAt_turnStart h

end Compact
end RePrime
