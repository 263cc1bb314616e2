import RePrime.Compact.CutPoint
import RePrime.Lib.JsNumber
import RePrime.Session.Invariant

/-!
# RePrime.Budget.ImageTtl

Old images of a conversation are replaced by texts, when that repays the cached prefix it breaks.

* `evictFrom`, `planImageEviction`: the eviction, and its price.
* `slots_append`, `recovered_append`, `prefixTokens_append`: what more messages change of both.
* `planImageEviction_stable`: an eviction that was made is made again, message by message, whatever is
  appended.
* `estimateMessageTokens_iff`: the images of a tool result are charged twice.
-/

namespace RePrime
namespace Budget

open Session RePrime.Compact List
open JsNumber

/-! ## Evicting -/

structure ImageTtlOptions where
  ttlTurns : JsNumber
  paybackTurns : Option JsNumber

def imageTokenCost : Nat := 1200

def isImagePart : Block → Bool
  | .image _ => true
  | .text _ => false

def countMessageImages : AgentMessage → Nat
  | .user m =>
    match m.content with
    | .text _ => 0
    | .blocks bs => bs.countP isImagePart
  | .toolResult m => m.content.countP isImagePart
  | _ => 0

def estimateMessageTokens (message : AgentMessage) : Nat :=
  estimateTokens message + imageTokenCost * countMessageImages message

/-- An empty observation is none. -/
def imageEvictionPlaceholder (mimeType : String) (observation : Option String) : String :=
  match observation with
  | some tool =>
    if tool ≠ "" then "[image evicted: " ++ mimeType ++ "; observed: " ++ tool ++ "]"
    else "[image evicted: " ++ mimeType ++ "]"
  | none => "[image evicted: " ++ mimeType ++ "]"

def evictBlock (observation : Option String) : Block → Block
  | .image i => .text { text := imageEvictionPlaceholder i.mimeType observation, textSignature := none }
  | .text t => .text t

def evictBlocks (observation : Option String) (content : List Block) : List Block :=
  let replaced := content.map (evictBlock observation)
  if 0 < replaced.length then replaced
  else [.text { text := imageEvictionPlaceholder "unknown" none, textSignature := none }]

/-- The message without its images, when it has some. -/
def evictMessage : AgentMessage → Option AgentMessage
  | .user m =>
    match m.content with
    | .text _ => none
    | .blocks bs =>
      if bs.any isImagePart then some (.user { m with content := .blocks (evictBlocks none bs) })
      else none
  | .toolResult m =>
    if m.content.any isImagePart then
      some (.toolResult { m with content := evictBlocks (some m.toolName) m.content })
    else none
  | _ => none

/-- From the end: the new object of each message that is replaced, and the assistant messages seen. -/
def evictFrom (ttlTurns : JsNumber) : List AgentMessage → List (Option AgentMessage) × Nat
  | [] => ([], 0)
  | message :: rest =>
    let (output, assistantsSeen) := evictFrom ttlTurns rest
    match message with
    | .assistant _ => (none :: output, assistantsSeen + 1)
    | message =>
      if (finite assistantsSeen).le ttlTurns then (none :: output, assistantsSeen)
      else (evictMessage message :: output, assistantsSeen)

def evictStaleImages (messages : List AgentMessage) (options : ImageTtlOptions) :
    List (Option AgentMessage) :=
  if options.ttlTurns.le (.finite 0) then messages.map fun _ => none
  else (evictFrom options.ttlTurns messages).1

/-- The messages, with those that were replaced in their place. -/
def view (messages : List AgentMessage) (replaced : List (Option AgentMessage)) : List AgentMessage :=
  List.zipWith (fun message new => new.getD message) messages replaced

def countResidentImages (messages : List AgentMessage) : Nat := (messages.map countMessageImages).sum

/-! ## Pricing -/

structure ImageEvictionPlan where
  messages : List AgentMessage
  evictedImages : Int
  recoveredTokens : Int
  breakTokens : Nat
  paybackTurns : JsNumber
  evicted : Bool

def imageTtlPaybackTurns : ℚ := 2

/-- The first index that changed, and the tokens that are saved. -/
def recover : Nat → List (AgentMessage × Option AgentMessage) → Int × Int → Int × Int
  | _, [], found => found
  | index, (_, none) :: rest, found => recover (index + 1) rest found
  | index, (message, some new) :: rest, (firstChanged, recoveredTokens) =>
    recover (index + 1) rest
      (if firstChanged < 0 then (index : Int) else firstChanged,
        recoveredTokens + ((estimateMessageTokens message : Int) - estimateMessageTokens new))

/-- `round` is the rounding of a quotient. -/
def planImageEviction (round : ℚ → ℚ) (messages : List AgentMessage) (options : ImageTtlOptions) :
    ImageEvictionPlan :=
  let replaced := evictStaleImages messages options
  if replaced.all Option.isNone then
    { messages, evictedImages := 0, recoveredTokens := 0, breakTokens := 0, paybackTurns := .posInfinity
      evicted := false }
  else
    let (firstChanged, recoveredTokens) := recover 0 (messages.zip replaced) (-1, 0)
    let breakTokens := ((messages.take firstChanged.toNat).map estimateMessageTokens).sum
    let paybackTurns : JsNumber :=
      if 0 < recoveredTokens then .finite (round ((breakTokens : ℚ) / (recoveredTokens : ℚ))) else .posInfinity
    let horizon := options.paybackTurns.getD (.finite imageTtlPaybackTurns)
    if horizon.lt paybackTurns then
      { messages, evictedImages := 0, recoveredTokens, breakTokens, paybackTurns, evicted := false }
    else
      let view := view messages replaced
      { messages := view
        evictedImages := (countResidentImages messages : Int) - countResidentImages view
        recoveredTokens, breakTokens, paybackTurns, evicted := true }

/-! ## What is replaced -/

def isAssistant : AgentMessage → Bool
  | .assistant _ => true
  | _ => false

/-- What becomes of one message, with a number of assistant messages after it. -/
def slot (ttlTurns : JsNumber) (assistantsSeen : Nat) (message : AgentMessage) : Option AgentMessage :=
  if (finite assistantsSeen).le ttlTurns then none else evictMessage message

/-- What becomes of the messages, with a number of assistant messages after them. -/
def slots (ttlTurns : JsNumber) (after : Nat) : List AgentMessage → List (Option AgentMessage)
  | [] => []
  | message :: rest => slot ttlTurns (rest.countP isAssistant + after) message :: slots ttlTurns after rest

section

variable {ttlTurns : JsNumber} {messages more : List AgentMessage}

theorem evictFrom_eq : evictFrom ttlTurns messages = (slots ttlTurns 0 messages, messages.countP isAssistant) := by
  induction messages with
  | nil => rfl
  | cons message rest ih =>
    rw [evictFrom, ih, slots]
    cases message with
    | assistant m => simp [slot, evictMessage, isAssistant, countP_cons]
    | user m =>
      simp only [Nat.add_zero, slot, isAssistant, Bool.false_eq_true, not_false_eq_true, countP_cons_of_neg]
      split
      · rfl
      · rfl
    | toolResult m =>
      simp only [Nat.add_zero, slot, isAssistant, Bool.false_eq_true, not_false_eq_true, countP_cons_of_neg]
      split
      · rfl
      · rfl
    | _ => simp [slot, evictMessage, isAssistant]

theorem slots_append (after : Nat) : slots ttlTurns after (messages ++ more) =
    slots ttlTurns (more.countP isAssistant + after) messages ++ slots ttlTurns after more := by
  induction messages with
  | nil => rfl
  | cons message rest ih =>
    rw [cons_append, slots, slots, ih, countP_append, cons_append, Nat.add_assoc]

theorem length_slots (after : Nat) : (slots ttlTurns after messages).length = messages.length := by
  induction messages with
  | nil => rfl
  | cons message rest ih => rw [slots, length_cons, ih, length_cons]

variable {m n : Nat} {message new : AgentMessage}

/-- A message that is replaced is replaced by the same when more assistant messages follow. -/
theorem slot_mono (h : m ≤ n)
    (hslot : slot ttlTurns m message = some new) : slot ttlTurns n message = some new := by
  rw [slot] at hslot ⊢
  split at hslot
  · cases hslot
  · rename_i hstale
    rw [if_neg, hslot]
    exact fun hfresh => hstale (le_finite_mono (by exact_mod_cast h) hfresh)

/-- What is saved at one message. -/
def gain (message : AgentMessage) : Option AgentMessage → Int
  | none => 0
  | some new => (estimateMessageTokens message : Int) - estimateMessageTokens new

def recovered (pairs : List (AgentMessage × Option AgentMessage)) : Int :=
  (pairs.map fun p => gain p.1 p.2).sum

/-- The index of the first message that is replaced. -/
def firstReplaced (pairs : List (AgentMessage × Option AgentMessage)) : Nat :=
  pairs.findIdx fun p => p.2.isSome

variable {pairs : List (AgentMessage × Option AgentMessage)}

theorem recover_found {index : Nat} :
    ∀ {first saved : Int}, 0 ≤ first → recover index pairs (first, saved) = (first, saved + recovered pairs) := by
  induction pairs generalizing index with
  | nil =>
    intro first saved _
    simp [recover, recovered]
  | cons p pairs ih =>
    intro first saved hfirst
    obtain ⟨message, new⟩ := p
    cases new with
    | none =>
      rw [recover, ih hfirst]
      simp [recovered, gain]
    | some new =>
      rw [recover, if_neg (by omega), ih hfirst]
      simp [recovered, gain, add_assoc]

theorem recover_eq :
    ∀ {index : Nat} {saved : Int}, (∃ p ∈ pairs, p.2.isSome = true) → recover index pairs (-1, saved) =
        (((index + firstReplaced pairs : Nat) : Int), saved + recovered pairs) := by
  induction pairs with
  | nil =>
    intro index saved h
    obtain ⟨p, hp, -⟩ := h
    cases hp
  | cons p pairs ih =>
    intro index saved h
    obtain ⟨message, new⟩ := p
    cases new with
    | none =>
      have hrest : ∃ p ∈ pairs, p.2.isSome = true := by
        obtain ⟨p, hp, hsome⟩ := h
        obtain rfl | hp := mem_cons.1 hp
        · cases hsome
        · exact ⟨p, hp, hsome⟩
      rw [recover, ih hrest]
      simp [recovered, gain, firstReplaced, findIdx_cons, Nat.add_assoc, Nat.add_comm 1]
    | some new =>
      rw [recover, if_pos (by omega), recover_found (Int.natCast_nonneg index)]
      simp [recovered, gain, firstReplaced, findIdx_cons, add_assoc]

/-- The tokens before the first message that is replaced. -/
def prefixTokens (messages : List AgentMessage) (replaced : List (Option AgentMessage)) : Nat :=
  ((messages.take (firstReplaced (messages.zip replaced))).map estimateMessageTokens).sum

theorem exists_replaced {replaced : List (Option AgentMessage)} (hlen : replaced.length = messages.length)
    (h : replaced.all Option.isNone = false) : ∃ p ∈ messages.zip replaced, p.2.isSome = true := by
  obtain ⟨new, hnew, hsome⟩ := all_eq_false.1 h
  have hsnd : (messages.zip replaced).map Prod.snd = replaced := map_snd_zip (Nat.le_of_eq hlen)
  rw [← hsnd] at hnew
  obtain ⟨p, hp, rfl⟩ := mem_map.1 hnew
  refine ⟨p, hp, ?_⟩
  cases hp2 : p.2 with
  | none => simp [hp2] at hsome
  | some new => rfl

/-! ## What more messages change -/

/-- Every placeholder of a message is shorter than what its image is charged. -/
def CheapPlaceholders (message : AgentMessage) : Prop :=
  match message with
  | .user m =>
    match m.content with
    | .text _ => True
    | .blocks bs => ∀ i, Block.image i ∈ bs →
      textLength (imageEvictionPlaceholder i.mimeType none) < 4 * imageTokenCost
  | .toolResult m => ∀ i, Block.image i ∈ m.content →
    textLength (imageEvictionPlaceholder i.mimeType (some m.toolName)) < 4 * imageTokenCost
  | _ => True

variable {bs : List Block}

theorem evictBlocks_of_any {observation : Option String}
    (h : bs.any isImagePart = true) : evictBlocks observation bs = bs.map (evictBlock observation) := by
  rw [evictBlocks]
  cases bs with
  | nil => cases h
  | cons b bs => rw [if_pos (by simp)]

theorem countP_evictBlock (observation : Option String) (bs : List Block) :
    (bs.map (evictBlock observation)).countP isImagePart = 0 := by
  rw [countP_eq_zero]
  intro b hb
  obtain ⟨b', -, rfl⟩ := mem_map.1 hb
  cases b' with
  | text | image => simp [evictBlock, isImagePart]

theorem sum_userBlockLength (h : ∀ i, Block.image i ∈ bs →
      textLength (imageEvictionPlaceholder i.mimeType none) < 4 * imageTokenCost) :
    ((bs.map (evictBlock none)).map userBlockLength).sum ≤
      (bs.map userBlockLength).sum + 4 * imageTokenCost * bs.countP isImagePart := by
  induction bs with
  | nil => simp
  | cons b bs ih =>
    have hrest := ih fun i hi => h i (mem_cons_of_mem _ hi)
    simp only [map_cons, sum_cons, countP_cons]
    cases b with
    | text t =>
      simp only [evictBlock, userBlockLength, isImagePart, Bool.false_eq_true, if_false, Nat.add_zero]
      omega
    | image i =>
      have hi := h i mem_cons_self
      simp only [evictBlock, userBlockLength, isImagePart, if_true]
      rw [Nat.mul_add]
      omega

theorem sum_blockLength {observation : Option String} (h : ∀ i, Block.image i ∈ bs →
      textLength (imageEvictionPlaceholder i.mimeType observation) < 4 * imageTokenCost) :
    ((bs.map (evictBlock observation)).map blockLength).sum ≤ (bs.map blockLength).sum := by
  induction bs with
  | nil => simp
  | cons b bs ih =>
    have hrest := ih fun i hi => h i (mem_cons_of_mem _ hi)
    simp only [map_cons, sum_cons]
    cases b with
    | text t => exact Nat.add_le_add_left hrest _
    | image i =>
      have hi := h i mem_cons_self
      simp only [evictBlock, blockLength, imageTokenCost] at hi ⊢
      omega

theorem gain_nonneg (h : CheapPlaceholders message)
    (hnew : evictMessage message = some new) : 0 ≤ gain message (some new) := by
  have hle : estimateMessageTokens new ≤ estimateMessageTokens message := by
    cases message with
    | user m =>
      obtain ⟨content, timestamp⟩ := m
      cases content with
      | text s => cases hnew
      | blocks bs =>
        simp only [evictMessage] at hnew
        split at hnew
        · rename_i hany
          cases hnew
          have hsum := sum_userBlockLength h
          rw [evictBlocks_of_any hany]
          simp only [estimateMessageTokens, estimateTokens, messageLength, userContentLength,
            countMessageImages, countP_evictBlock, imageTokenCost] at hsum ⊢
          omega
        · cases hnew
    | toolResult m =>
      simp only [evictMessage] at hnew
      split at hnew
      · rename_i hany
        cases hnew
        have hsum := sum_blockLength h
        rw [evictBlocks_of_any hany]
        simp only [estimateMessageTokens, estimateTokens, messageLength, countMessageImages,
          countP_evictBlock, imageTokenCost] at hsum ⊢
        omega
      · cases hnew
    | _ => cases hnew
  rw [gain]
  omega

theorem slot_gain_nonneg (h : CheapPlaceholders message) (n : Nat) :
    0 ≤ gain message (slot ttlTurns n message) := by
  rw [slot]
  split
  · exact Int.le_refl 0
  · cases hnew : evictMessage message with
    | none => exact Int.le_refl 0
    | some new => exact gain_nonneg h hnew

theorem slot_gain_mono {m n : Nat} (hmn : m ≤ n) {message : AgentMessage} (h : CheapPlaceholders message) :
    gain message (slot ttlTurns m message) ≤ gain message (slot ttlTurns n message) := by
  cases hslot : slot ttlTurns m message with
  | none => exact slot_gain_nonneg h n
  | some new => rw [slot_mono hmn hslot]

theorem recovered_slots_mono {m n : Nat} (hmn : m ≤ n) (h : ∀ message ∈ messages, CheapPlaceholders message) :
    recovered (messages.zip (slots ttlTurns m messages)) ≤
      recovered (messages.zip (slots ttlTurns n messages)) := by
  induction messages with
  | nil => exact Int.le_refl 0
  | cons message rest ih =>
    have hrest := ih fun message hm => h message (mem_cons_of_mem _ hm)
    have hhead := @slot_gain_mono ttlTurns (rest.countP isAssistant + m) (rest.countP isAssistant + n)
      (by omega) message (h message mem_cons_self)
    simp only [slots, zip_cons_cons, recovered, map_cons, sum_cons] at hrest ⊢
    omega

theorem recovered_slots_nonneg (n : Nat) (h : ∀ message ∈ messages, CheapPlaceholders message) :
    0 ≤ recovered (messages.zip (slots ttlTurns n messages)) := by
  induction messages with
  | nil => exact Int.le_refl 0
  | cons message rest ih =>
    have hrest := ih fun message hm => h message (mem_cons_of_mem _ hm)
    have hhead := @slot_gain_nonneg ttlTurns message (h message mem_cons_self)
      (rest.countP isAssistant + n)
    simp only [slots, zip_cons_cons, recovered, map_cons, sum_cons] at hrest ⊢
    omega

theorem recovered_append (h : ∀ message ∈ messages ++ more, CheapPlaceholders message) :
    recovered (messages.zip (slots ttlTurns 0 messages)) ≤
      recovered ((messages ++ more).zip (slots ttlTurns 0 (messages ++ more))) := by
  have hmore := @recovered_slots_nonneg ttlTurns more 0 fun m hm => h m (mem_append_right _ hm)
  have hless := @recovered_slots_mono ttlTurns messages 0 (more.countP isAssistant + 0) (Nat.zero_le _)
    fun m hm => h m (mem_append_left _ hm)
  rw [slots_append, zip_append (length_slots _).symm]
  simp only [recovered, map_append, sum_append] at hmore hless ⊢
  omega

theorem evictMessage_none_of_fresh
    (h : (finite n).le ttlTurns = false) (hslot : slot ttlTurns n message = none) :
    evictMessage message = none := by
  rw [slot, h] at hslot
  exact hslot

theorem stale_of_replaced (h : ∃ p ∈ messages.zip (slots ttlTurns n messages), p.2.isSome = true) :
    (finite ((messages.countP isAssistant + n : Nat) : ℚ)).le ttlTurns = false := by
  induction messages with
  | nil =>
    obtain ⟨p, hp, -⟩ := h
    cases hp
  | cons message rest ih =>
    have hle : ((rest.countP isAssistant + n : Nat) : ℚ) ≤
        (((message :: rest).countP isAssistant + n : Nat) : ℚ) := by
      rw [countP_cons]
      exact_mod_cast (by omega : rest.countP isAssistant + n ≤ rest.countP isAssistant +
        (if isAssistant message = true then 1 else 0) + n)
    have hrest : (finite ((rest.countP isAssistant + n : Nat) : ℚ)).le ttlTurns = false := by
      rw [slots, zip_cons_cons] at h
      obtain ⟨p, hp, hsome⟩ := h
      obtain rfl | hp := mem_cons.1 hp
      · rw [slot] at hsome
        split at hsome
        · cases hsome
        · rename_i hstale
          exact Bool.eq_false_iff.2 hstale
      · exact ih ⟨p, hp, hsome⟩
    refine Bool.eq_false_iff.2 fun hfresh => ?_
    rw [le_finite_mono hle hfresh] at hrest
    cases hrest

theorem firstReplaced_mono (hmn : m ≤ n)
    (h : ∃ p ∈ messages.zip (slots ttlTurns m messages), p.2.isSome = true) :
    firstReplaced (messages.zip (slots ttlTurns n messages)) =
      firstReplaced (messages.zip (slots ttlTurns m messages)) := by
  induction messages with
  | nil => rfl
  | cons message rest ih =>
    rw [slots, zip_cons_cons] at h ⊢
    rw [slots, zip_cons_cons, firstReplaced, firstReplaced, findIdx_cons, findIdx_cons]
    cases hslot : slot ttlTurns (rest.countP isAssistant + m) message with
    | some new =>
      rw [slot_mono (by omega) hslot]
      rfl
    | none =>
      have hrest : ∃ p ∈ rest.zip (slots ttlTurns m rest), p.2.isSome = true := by
        obtain ⟨p, hp, hsome⟩ := h
        obtain rfl | hp := mem_cons.1 hp
        · rw [hslot] at hsome
          cases hsome
        · exact ⟨p, hp, hsome⟩
      have hnone := evictMessage_none_of_fresh (stale_of_replaced hrest) hslot
      have hslot' : slot ttlTurns (rest.countP isAssistant + n) message = none := by
        rw [slot, hnone]
        split
        · rfl
        · rfl
      rw [hslot']
      exact congrArg (· + 1) (ih hrest)

theorem firstReplaced_lt
    (h : ∃ p ∈ pairs, p.2.isSome = true) : firstReplaced pairs < pairs.length :=
  findIdx_lt_length_of_exists h

theorem firstReplaced_append_left {pairs' : List (AgentMessage × Option AgentMessage)}
    (h : ∃ p ∈ pairs, p.2.isSome = true) : firstReplaced (pairs ++ pairs') = firstReplaced pairs := by
  have hlt := firstReplaced_lt h
  simp only [firstReplaced] at hlt ⊢
  rw [findIdx_append, if_pos hlt]

theorem exists_replaced_mono (hmn : m ≤ n)
    (h : ∃ p ∈ messages.zip (slots ttlTurns m messages), p.2.isSome = true) :
    ∃ p ∈ messages.zip (slots ttlTurns n messages), p.2.isSome = true := by
  induction messages with
  | nil =>
    obtain ⟨p, hp, -⟩ := h
    cases hp
  | cons message rest ih =>
    rw [slots, zip_cons_cons] at h ⊢
    obtain ⟨p, hp, hsome⟩ := h
    obtain rfl | hp := mem_cons.1 hp
    · obtain ⟨new, hnew⟩ := Option.isSome_iff_exists.1 hsome
      exact ⟨_, mem_cons_self, by rw [slot_mono (by omega) hnew]; rfl⟩
    · obtain ⟨p, hp, hsome⟩ := ih ⟨p, hp, hsome⟩
      exact ⟨p, mem_cons_of_mem _ hp, hsome⟩

/-- The prefix that an eviction breaks does not change. -/
theorem prefixTokens_append (h : ∃ p ∈ messages.zip (slots ttlTurns 0 messages), p.2.isSome = true) :
    prefixTokens (messages ++ more) (slots ttlTurns 0 (messages ++ more)) =
      prefixTokens messages (slots ttlTurns 0 messages) := by
  have hsome := exists_replaced_mono (Nat.zero_le (more.countP isAssistant + 0)) h
  have hfirst := firstReplaced_mono (Nat.zero_le (more.countP isAssistant + 0)) h
  have hlt := firstReplaced_lt h
  rw [length_zip, length_slots, Nat.min_self] at hlt
  rw [prefixTokens, prefixTokens, slots_append, zip_append (length_slots _).symm,
    firstReplaced_append_left hsome, hfirst, take_append_of_le_length (by omega)]

/-! ## The plan -/

variable {round : ℚ → ℚ} {options : ImageTtlOptions}

/-- The turns in which a saving repays a break. -/
def payback (round : ℚ → ℚ) (breakTokens : Nat) (recoveredTokens : Int) : JsNumber :=
  if 0 < recoveredTokens then .finite (round ((breakTokens : ℚ) / (recoveredTokens : ℚ))) else .posInfinity

/-- The break is repaid in time. -/
def affordable (round : ℚ → ℚ) (options : ImageTtlOptions) (breakTokens : Nat) (recoveredTokens : Int) :
    Bool :=
  !(options.paybackTurns.getD (.finite imageTtlPaybackTurns)).lt (payback round breakTokens recoveredTokens)

theorem planImageEviction_messages (hstale : options.ttlTurns.le (.finite 0) = false)
    (h : ∃ p ∈ messages.zip (slots options.ttlTurns 0 messages), p.2.isSome = true) :
    (planImageEviction round messages options).messages =
      if affordable round options (prefixTokens messages (slots options.ttlTurns 0 messages))
          (recovered (messages.zip (slots options.ttlTurns 0 messages))) then
        view messages (slots options.ttlTurns 0 messages) else messages := by
  have hnot : (slots options.ttlTurns 0 messages).all Option.isNone = false := by
    obtain ⟨p, hp, hsome⟩ := h
    refine all_eq_false.2 ⟨p.2, (of_mem_zip hp).2, ?_⟩
    obtain ⟨new, hnew⟩ := Option.isSome_iff_exists.1 hsome
    rw [hnew]
    simp
  have hrecover := @recover_eq (messages.zip (slots options.ttlTurns 0 messages)) 0 0 h
  rw [planImageEviction, evictStaleImages, hstale, if_neg Bool.false_ne_true, evictFrom_eq]
  simp only [hnot, Bool.false_eq_true, if_false, hrecover, zero_add, Int.toNat_natCast]
  rw [affordable, ← prefixTokens, ← payback]
  cases (options.paybackTurns.getD (.finite imageTtlPaybackTurns)).lt
    (payback round (prefixTokens messages (slots options.ttlTurns 0 messages))
      (recovered (messages.zip (slots options.ttlTurns 0 messages)))) with
  | false | true => rfl

theorem affordable_mono (hround : Monotone round) {breakTokens : Nat} {saved saved' : Int}
    (hle : saved ≤ saved') (h : affordable round options breakTokens saved = true) :
    affordable round options breakTokens saved' = true := by
  rw [affordable, Bool.not_eq_true'] at h ⊢
  refine Bool.eq_false_iff.2 fun hlt => ?_
  rw [payback] at h hlt
  by_cases hpos : 0 < saved
  · rw [if_pos hpos] at h
    rw [if_pos (by omega)] at hlt
    have hpos' : (0 : ℚ) < (saved : ℚ) := by exact_mod_cast hpos
    have hle' : (saved : ℚ) ≤ (saved' : ℚ) := by exact_mod_cast hle
    have hquot : (breakTokens : ℚ) / (saved' : ℚ) ≤ (breakTokens : ℚ) / (saved : ℚ) :=
      div_le_div_of_nonneg_left (Nat.cast_nonneg _) hpos' hle'
    rw [lt_finite_mono (hround hquot) hlt] at h
    cases h
  · rw [if_neg hpos] at h
    split at hlt
    · rw [lt_posInfinity hlt] at h
      cases h
    · rw [hlt] at h
      cases h

theorem getElem?_view (messages : List AgentMessage) (replaced : List (Option AgentMessage)) (i : Nat) :
    (view messages replaced)[i]? =
      (messages[i]?).bind fun message => (replaced[i]?).map fun new => new.getD message := by
  rw [view, getElem?_zipWith]
  cases messages[i]? with
  | none => rfl
  | some message =>
    cases replaced[i]? with
    | none | some => rfl

theorem slots_mono (hmn : m ≤ n) {i : Nat}
    (h : (slots ttlTurns m messages)[i]? = some (some new)) :
    (slots ttlTurns n messages)[i]? = some (some new) := by
  induction messages generalizing i with
  | nil => cases h
  | cons message rest ih =>
    rw [slots] at h ⊢
    cases i with
    | zero =>
      rw [getElem?_cons_zero, Option.some.injEq] at h ⊢
      exact slot_mono (by omega) h
    | succ i =>
      rw [getElem?_cons_succ] at h ⊢
      exact ih h

/-- An eviction is never taken back: a message that was rewritten is rewritten to the same when
messages are appended. -/
theorem planImageEviction_stable (hround : Monotone round) (messages more : List AgentMessage)
    (hcheap : ∀ message ∈ messages ++ more, CheapPlaceholders message) (i : Nat)
    {message new : AgentMessage} (hmessage : messages[i]? = some message)
    (hnew : (planImageEviction round messages options).messages[i]? = some new) (hne : new ≠ message) :
    (planImageEviction round (messages ++ more) options).messages[i]? = some new := by
  have hsame : (planImageEviction round messages options).messages ≠ messages := by
    intro h
    rw [h, hmessage] at hnew
    exact hne (Option.some.inj hnew).symm
  cases hstale : options.ttlTurns.le (.finite 0) with
  | true => exact absurd (by simp [planImageEviction, evictStaleImages, hstale]) hsame
  | false =>
    by_cases hsome : ∃ p ∈ messages.zip (slots options.ttlTurns 0 messages), p.2.isSome = true
    · rw [planImageEviction_messages hstale hsome] at hnew hsame
      split at hsame
      · rename_i hafford
        rw [if_pos hafford, getElem?_view, hmessage] at hnew
        have hsome' : ∃ p ∈ (messages ++ more).zip (slots options.ttlTurns 0 (messages ++ more)),
            p.2.isSome = true := by
          obtain ⟨p, hp, hps⟩ := exists_replaced_mono (Nat.zero_le (more.countP isAssistant + 0)) hsome
          refine ⟨p, ?_, hps⟩
          rw [slots_append, zip_append (length_slots _).symm]
          exact mem_append_left _ hp
        have hafford' := affordable_mono hround (recovered_append hcheap) hafford
        rw [← @prefixTokens_append _ _ more hsome] at hafford'
        have hlt : i < messages.length := (List.getElem?_eq_some_iff.1 hmessage).1
        rw [planImageEviction_messages hstale hsome', if_pos hafford', getElem?_view,
          getElem?_append_left hlt, hmessage, slots_append,
          getElem?_append_left (by rw [length_slots]; exact hlt)]
        cases hslot : (slots options.ttlTurns 0 messages)[i]? with
        | none =>
          rw [hslot] at hnew
          cases hnew
        | some slot =>
          rw [hslot] at hnew
          cases slot with
          | none =>
            cases hnew
            exact absurd rfl hne
          | some m =>
            cases hnew
            rw [slots_mono (Nat.zero_le (more.countP isAssistant + 0)) hslot]
            rfl
      · exact absurd rfl hsame
    · have hall : (slots options.ttlTurns 0 messages).all Option.isNone = true := by
        rw [← Bool.not_eq_false]
        exact fun h => hsome (exists_replaced (length_slots 0) h)
      refine absurd ?_ hsame
      simp [planImageEviction, evictStaleImages, hstale, evictFrom_eq, hall]

end

def imageMessage : AgentMessage :=
  .user { content := .blocks [.image { data := "AA==", mimeType := "image/png" }], timestamp := 0 }

def evictedMessage : AgentMessage :=
  .user
    { content := .blocks [.text { text := "[image evicted: image/png]", textSignature := none }]
      timestamp := 0 }

/-- An image is evicted after two answers, and a message after them changes nothing. -/
theorem planImageEviction_stable_two :
    (planImageEviction id ([imageMessage, assistantMessage "a", assistantMessage "b"] ++ [userMessage "c"])
      ⟨.finite 1, none⟩).messages[0]? = some evictedMessage := by
  refine @planImageEviction_stable id _ monotone_id [imageMessage, assistantMessage "a", assistantMessage "b"]
    [userMessage "c"] ?_ 0 imageMessage _ rfl ?_ ?_
  · intro message hm
    simp only [cons_append, nil_append, mem_cons, not_mem_nil, or_false] at hm
    obtain rfl | rfl | rfl | rfl := hm
    · intro i hi
      cases mem_singleton.1 hi
      decide
    · trivial
    · trivial
    · trivial
  · rw [planImageEviction_messages (by decide) ⟨_, mem_cons_self, by decide⟩, if_pos (by decide +kernel)]
    have hslot : slot (.finite 1) 2 imageMessage = some evictedMessage := by
      rw [slot, if_neg (by decide)]
      rfl
    show (view (imageMessage :: _) (slot (.finite 1) 2 imageMessage :: _))[0]? = _
    rw [hslot]
    rfl
  · intro h
    cases h

/-! ## What images cost -/

def isTextPart (b : Block) : Bool := !isImagePart b

def contentImages : Content → Nat
  | .text _ => 0
  | .blocks bs => bs.countP isImagePart

def contentWithoutImages : Content → Content
  | .text s => .text s
  | .blocks bs => .blocks (bs.filter isTextPart)

/-- The images of a message, whoever it is from. -/
def messageImages : AgentMessage → Nat
  | .user m => contentImages m.content
  | .toolResult m => m.content.countP isImagePart
  | .custom m => contentImages m.content
  | _ => 0

def withoutImages : AgentMessage → AgentMessage
  | .user m => .user { m with content := contentWithoutImages m.content }
  | .toolResult m => .toolResult { m with content := m.content.filter isTextPart }
  | .custom m => .custom { m with content := contentWithoutImages m.content }
  | message => message

def isToolResultWithImage : AgentMessage → Bool
  | .toolResult m => m.content.any isImagePart
  | _ => false

theorem sum_blockLength_images (bs : List Block) :
    (bs.map blockLength).sum = ((bs.filter isTextPart).map blockLength).sum + 4800 * bs.countP isImagePart := by
  induction bs with
  | nil => rfl
  | cons b bs ih =>
    cases b with
    | text t =>
      rw [map_cons, sum_cons, ih, filter_cons_of_pos rfl, countP_cons_of_neg Bool.false_ne_true,
        map_cons, sum_cons, Nat.add_assoc]
    | image i =>
      rw [map_cons, sum_cons, ih, filter_cons_of_neg Bool.false_ne_true, countP_cons_of_pos rfl]
      simp only [blockLength]
      omega

theorem sum_userBlockLength_images (bs : List Block) :
    (bs.map userBlockLength).sum = ((bs.filter isTextPart).map userBlockLength).sum := by
  induction bs with
  | nil => rfl
  | cons b bs ih =>
    cases b with
    | text t => rw [map_cons, sum_cons, ih, filter_cons_of_pos rfl, map_cons, sum_cons]
    | image i =>
      rw [map_cons, sum_cons, ih, filter_cons_of_neg Bool.false_ne_true]
      exact Nat.zero_add _

theorem userContentLength_images (c : Content) :
    userContentLength c = userContentLength (contentWithoutImages c) := by
  cases c with
  | text s => rfl
  | blocks bs => exact sum_userBlockLength_images bs

theorem contentLength_images (c : Content) :
    contentLength c = contentLength (contentWithoutImages c) + 4800 * contentImages c := by
  cases c with
  | text s => rfl
  | blocks bs => exact sum_blockLength_images bs

theorem contentImages_without (c : Content) : contentImages (contentWithoutImages c) = 0 := by
  cases c with
  | text s => rfl
  | blocks bs =>
    refine countP_eq_zero.2 fun b hb => ?_
    simpa [isTextPart] using (mem_filter.1 hb).2

theorem estimateMessageTokens_of_none {message : AgentMessage} (h : countMessageImages message = 0) :
    estimateMessageTokens message = estimateTokens message := by
  rw [estimateMessageTokens, h, Nat.mul_zero, Nat.add_zero]

/-- **An image costs what it is said to**, once, except in a tool result: there the estimator of compaction
has charged it already. -/
theorem estimateMessageTokens_iff (message : AgentMessage) : estimateMessageTokens message =
        estimateMessageTokens (withoutImages message) + imageTokenCost * messageImages message ↔
      isToolResultWithImage message = false := by
  cases message with
  | user m =>
    have hnone : countMessageImages (withoutImages (.user m)) = 0 := contentImages_without m.content
    have hcount : countMessageImages (.user m) = contentImages m.content := by
      cases hc : m.content <;> simp [countMessageImages, contentImages, hc]
    refine iff_of_true ?_ rfl
    rw [estimateMessageTokens_of_none hnone, estimateMessageTokens, hcount]
    simp only [estimateTokens, messageLength, withoutImages, messageImages, ← userContentLength_images]
  | toolResult m =>
    have hnone : countMessageImages (withoutImages (.toolResult m)) = 0 :=
      contentImages_without (.blocks m.content)
    have hpos : isToolResultWithImage (.toolResult m) = false ↔ m.content.countP isImagePart = 0 := by
      simp [isToolResultWithImage, countP_eq_zero]
    rw [estimateMessageTokens_of_none hnone, estimateMessageTokens, hpos]
    simp only [estimateTokens, messageLength, withoutImages, messageImages, countMessageImages, imageTokenCost,
      sum_blockLength_images m.content]
    omega
  | custom m =>
    have hnone : countMessageImages (withoutImages (.custom m)) = 0 := rfl
    refine iff_of_true ?_ rfl
    rw [estimateMessageTokens_of_none hnone, estimateMessageTokens_of_none rfl]
    simp only [estimateTokens, messageLength, withoutImages, messageImages, imageTokenCost,
      contentLength_images m.content]
    omega
  | _ => exact iff_of_true rfl rfl

/-- A screenshot as a tool returns it. -/
def screenshotResult : AgentMessage :=
  .toolResult
    { toolCallId := "1", toolName := "screenshot"
      content := [.image { data := "AA==", mimeType := "image/png" }]
      details := none, isError := false, timestamp := 0 }

theorem screenshotResult_charged_twice : estimateMessageTokens screenshotResult = 2400 ∧
      estimateMessageTokens (withoutImages screenshotResult) +
        imageTokenCost * messageImages screenshotResult = 1200 := by
  decide

end Budget
end RePrime
