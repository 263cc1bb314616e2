import Mathlib.Data.List.Count
import Mathlib.Algebra.Order.Group.Int
import Mathlib.Tactic.Linarith

/-!
# RePrime.Core.MessageRateLimiter

The token bucket that limits how often an agent sends messages.

* `Bucket.Valid`: a bucket after any calls. Its clock is never ahead of the last call.
* `granted_le`: calls in a window that are granted use the tokens of one full bucket, of the steps in the window and of
  the refunds in it.
* `messageRateLimit`: the bound for every window, and when the call after a refusal is granted.
-/

namespace RePrime
namespace Core
namespace MessageRateLimiter

structure Limits where
  capacity : Int
  refillMs : Int
  capacity_pos : 0 < capacity
  refillMs_pos : 0 < refillMs

structure Bucket where
  tokens : Int
  updatedAt : Int

inductive Consumed where
  | ok
  | refused (retryAfterMs : Int)
  deriving DecidableEq

variable {Key : Type} [DecidableEq Key]

/-- The map of buckets. -/
abbrev Buckets (Key : Type) := Key → Option Bucket

def Buckets.set (buckets : Buckets Key) (key : Key) (bucket : Bucket) : Buckets Key :=
  fun other => if other = key then some bucket else buckets other

def Bucket.refill (limits : Limits) (now : Int) (bucket : Bucket) : Bucket :=
  let elapsed := max 0 (now - bucket.updatedAt)
  let refilledTokens := elapsed / limits.refillMs
  if 0 < refilledTokens then
    { tokens := min limits.capacity (bucket.tokens + refilledTokens)
      updatedAt := bucket.updatedAt + refilledTokens * limits.refillMs }
  else bucket

def tryConsume (limits : Limits) (now : Int) (buckets : Buckets Key) (key : Key) : Consumed × Buckets Key :=
  let bucket := ((buckets key).getD { tokens := limits.capacity, updatedAt := now }).refill limits now
  if bucket.tokens ≤ 0 then
    (.refused (max 1 (bucket.updatedAt + limits.refillMs - now)), buckets.set key bucket)
  else (.ok, buckets.set key { bucket with tokens := bucket.tokens - 1 })

def refund (limits : Limits) (buckets : Buckets Key) (key : Key) : Buckets Key :=
  match buckets key with
  | none => buckets
  | some bucket => buckets.set key { bucket with tokens := min limits.capacity (bucket.tokens + 1) }

/-! ## Calls on one key -/

/-- A call with the time of the clock. -/
inductive Call where
  | tryConsume (now : Int)
  | refund (now : Int)
  deriving DecidableEq

def Call.now : Call → Int
  | .tryConsume now => now
  | .refund now => now

/-- The calls, one after the other, with what `tryConsume` returns. -/
def outcomes (limits : Limits) (key : Key) : Buckets Key → List Call → List (Call × Option Consumed)
  | _, [] => []
  | buckets, .tryConsume now :: calls =>
    (.tryConsume now, some (tryConsume limits now buckets key).1) ::
      outcomes limits key (tryConsume limits now buckets key).2 calls
  | buckets, .refund now :: calls => (.refund now, none) :: outcomes limits key (refund limits buckets key) calls

/-- The clock never goes back, from `clock` on. -/
def NonDecreasing (clock : Int) : List Call → Prop
  | [] => True
  | call :: calls => clock ≤ call.now ∧ NonDecreasing call.now calls

def Call.inWindow (start last : Int) (call : Call) : Bool := start ≤ call.now && call.now ≤ last

/-- The calls of a window that were granted. -/
def granted (start last : Int) (calls : List (Call × Option Consumed)) : Nat :=
  calls.countP fun call => call.1.inWindow start last && call.2 == some .ok

def refunds (start last : Int) (calls : List Call) : Nat :=
  calls.countP fun call => call.inWindow start last && call == .refund call.now

/-! ## One bucket -/

section

variable {limits : Limits} {bucket : Bucket} {now : Int}

/-- A bucket after calls of which the last was not after `last`. -/
structure Bucket.Valid (limits : Limits) (last : Int) (bucket : Bucket) : Prop where
  tokens_nonneg : 0 ≤ bucket.tokens
  tokens_le : bucket.tokens ≤ limits.capacity
  updatedAt_le : bucket.updatedAt ≤ last

/-- A refill moves the clock by whole steps, to less than one step before the call. -/
theorem Bucket.Valid.refill (h : bucket.Valid limits now) : (bucket.refill limits now).Valid limits now ∧
      now < (bucket.refill limits now).updatedAt + limits.refillMs ∧
      ∃ steps, 0 ≤ steps ∧ (bucket.refill limits now).updatedAt = bucket.updatedAt + steps * limits.refillMs ∧
        (bucket.refill limits now).tokens = min limits.capacity (bucket.tokens + steps) := by
  have htokens := h.tokens_nonneg
  have hcapacity := h.tokens_le
  have hclock := h.updatedAt_le
  have hstep := limits.refillMs_pos
  have helapsed : max 0 (now - bucket.updatedAt) = now - bucket.updatedAt := by omega
  have hmul := Int.ediv_mul_le (now - bucket.updatedAt) hstep.ne'
  have hlt := Int.lt_ediv_add_one_mul_self (now - bucket.updatedAt) hstep
  have hsteps := Int.ediv_nonneg (sub_nonneg.2 hclock) hstep.le
  rw [add_mul, one_mul] at hlt
  simp only [Bucket.refill, helapsed]
  generalize (now - bucket.updatedAt) / limits.refillMs = steps at hmul hlt hsteps
  split
  · refine ⟨⟨?_, ?_, ?_⟩, ?_, steps, hsteps, rfl, rfl⟩
    · simp only []
      omega
    · exact min_le_left _ _
    · simp only []
      omega
    · simp only []
      omega
  · have hzero : steps = 0 := by omega
    rw [hzero, zero_mul] at hlt
    refine ⟨h, by omega, 0, le_rfl, by omega, by omega⟩

/-- A refill adds no tokens to those that a bucket gives until `last`. -/
theorem Bucket.Valid.refill_gives (h : bucket.Valid limits now) (last : Int) :
    (bucket.refill limits now).tokens + (last - (bucket.refill limits now).updatedAt) / limits.refillMs ≤
      bucket.tokens + (last - bucket.updatedAt) / limits.refillMs := by
  obtain ⟨-, -, steps, -, hclock, htokens⟩ := h.refill
  have hless : last - (bucket.refill limits now).updatedAt = last - bucket.updatedAt - steps * limits.refillMs := by
    omega
  rw [hless, Int.sub_mul_ediv_right _ _ limits.refillMs_pos.ne', htokens]
  omega

theorem Bucket.Valid.mono {clock : Int} (h : bucket.Valid limits clock) (hnow : clock ≤ now) :
    bucket.Valid limits now :=
  ⟨h.tokens_nonneg, h.tokens_le, h.updatedAt_le.trans hnow⟩

def Consumed.cost : Consumed → Int
  | .ok => 1
  | .refused _ => 0

/-- What a call makes of a bucket: `left` is what is left in it, less than one step before its next token. -/
structure Called (limits : Limits) (now : Int) (bucket left : Bucket) (consumed : Consumed) : Prop where
  valid : left.Valid limits now
  ahead : now < left.updatedAt + limits.refillMs
  tokens_le : left.tokens + consumed.cost ≤ limits.capacity
  gives : ∀ last, left.tokens + consumed.cost + (last - left.updatedAt) / limits.refillMs ≤
    bucket.tokens + (last - bucket.updatedAt) / limits.refillMs
  refused : consumed ≠ .ok →
    left = bucket.refill limits now ∧ left.tokens = 0 ∧ consumed = .refused (left.updatedAt + limits.refillMs - now)
  granted : consumed = .ok → 0 < (bucket.refill limits now).tokens

theorem called {buckets : Buckets Key} {key : Key} (h : bucket.Valid limits now)
    (hbucket : (buckets key).getD { tokens := limits.capacity, updatedAt := now } = bucket) :
    ∃ left consumed, tryConsume limits now buckets key = (consumed, buckets.set key left) ∧
      Called limits now bucket left consumed := by
  obtain ⟨hvalid, hahead, -⟩ := h.refill
  have hgives := h.refill_gives
  have hnonneg := hvalid.tokens_nonneg
  have hle := hvalid.tokens_le
  simp only [tryConsume, hbucket]
  split
  · rename_i hempty
    have hwait : max 1 ((bucket.refill limits now).updatedAt + limits.refillMs - now) =
        (bucket.refill limits now).updatedAt + limits.refillMs - now := by omega
    refine ⟨_, _, rfl, hvalid, hahead, ?_, fun last => ?_, fun _ => ⟨rfl, by omega, by rw [hwait]⟩, nofun⟩
    · rw [Consumed.cost]
      omega
    · have hlast := hgives last
      rw [Consumed.cost]
      omega
  · rename_i hsome
    refine ⟨_, _, rfl, ⟨?_, ?_, hvalid.updatedAt_le⟩, hahead, ?_, fun last => ?_, fun h => absurd rfl h,
      fun _ => by omega⟩
    · simp only []
      omega
    · simp only []
      omega
    · simp only [Consumed.cost]
      omega
    · have hlast := hgives last
      simp only [Consumed.cost]
      omega

/-- After a refusal a token comes when the time that was said is over. -/
theorem Called.next {left : Bucket} {retryAfterMs : Int} (h : Called limits now bucket left (.refused retryAfterMs))
    {later : Int} (hlater : now ≤ later) {last : Bucket} {consumed : Consumed}
    (hnext : Called limits later left last consumed) : consumed = .ok ↔ now + retryAfterMs ≤ later := by
  obtain ⟨-, hempty, hretry⟩ := h.refused nofun
  cases hretry
  have hstep := limits.refillMs_pos
  have hclock := h.valid.updatedAt_le
  obtain ⟨-, hahead, steps, hsteps, hupdated, htokens⟩ := (h.valid.mono hlater).refill
  rw [hempty, zero_add] at htokens
  have hcapacity := limits.capacity_pos
  constructor
  · intro hok
    have hsome := hnext.granted hok
    have hmul : limits.refillMs ≤ steps * limits.refillMs := le_mul_of_one_le_left hstep.le (by omega)
    have hvalid := (h.valid.mono hlater).refill.1.updatedAt_le
    omega
  · intro hwait
    by_contra hrefused
    obtain ⟨hleft, hnone, -⟩ := hnext.refused hrefused
    rw [hleft, htokens] at hnone
    have hzero : steps = 0 := by omega
    rw [hzero, zero_mul] at hupdated
    omega

end

/-! ## Runs -/

section

variable {limits : Limits} {key : Key} {clock : Int} {buckets : Buckets Key}

/-- The bucket of the key is there, or the next call makes one. -/
def Valid (limits : Limits) (clock : Int) (buckets : Buckets Key) (key : Key) : Prop :=
  ∀ bucket, buckets key = some bucket → bucket.Valid limits clock

theorem set_self (buckets : Buckets Key) (key : Key) (bucket : Bucket) : buckets.set key bucket key = some bucket :=
  if_pos rfl

theorem Valid.set {bucket : Bucket} (h : bucket.Valid limits clock) :
    Valid limits clock (buckets.set key bucket) key := by
  intro other hother
  rw [set_self] at hother
  cases hother
  exact h

theorem Valid.called (h : Valid limits clock buckets key) {now : Int} (hnow : clock ≤ now) :
    ∃ bucket left consumed, (∀ old, buckets key = some old → bucket = old) ∧
      tryConsume limits now buckets key = (consumed, buckets.set key left) ∧
        Called limits now bucket left consumed := by
  cases hbucket : buckets key with
  | none =>
    obtain ⟨left, consumed, htry, hcalled⟩ := @MessageRateLimiter.called _ _ limits
      { tokens := limits.capacity, updatedAt := now } now buckets key ⟨limits.capacity_pos.le, le_rfl, le_rfl⟩
      (by rw [hbucket]; rfl)
    exact ⟨_, left, consumed, nofun, htry, hcalled⟩
  | some bucket =>
    obtain ⟨left, consumed, htry, hcalled⟩ :=
      @MessageRateLimiter.called _ _ limits bucket now buckets key ((h bucket hbucket).mono hnow) (by rw [hbucket]; rfl)
    exact ⟨bucket, left, consumed, fun old hold => Option.some.inj hold, htry, hcalled⟩

theorem Valid.refund (h : Valid limits clock buckets key) {now : Int} (hnow : clock ≤ now) :
    Valid limits now (refund limits buckets key) key := by
  rw [MessageRateLimiter.refund]
  cases hold : buckets key with
  | none => exact fun bucket hbucket => absurd (hold.symm.trans hbucket) nofun
  | some old =>
    obtain ⟨hnonneg, hle, hupdated⟩ := h old hold
    have hcapacity := limits.capacity_pos
    exact Valid.set ⟨by simp only []; omega, min_le_left _ _, hupdated.trans hnow⟩

theorem Call.inWindow_iff {start last : Int} {call : Call} :
    call.inWindow start last = true ↔ start ≤ call.now ∧ call.now ≤ last := by
  rw [Call.inWindow, Bool.and_eq_true, decide_eq_true_eq, decide_eq_true_eq]

theorem granted_tryConsume {start last now : Int} {consumed : Consumed} {after : Buckets Key} (calls : List Call)
    (htry : tryConsume limits now buckets key = (consumed, after)) :
    (granted start last (outcomes limits key buckets (.tryConsume now :: calls)) : Int) =
      granted start last (outcomes limits key after calls) +
        if (Call.tryConsume now).inWindow start last then consumed.cost else 0 := by
  rw [outcomes, htry, granted, List.countP_cons, ← granted]
  cases (Call.tryConsume now).inWindow start last with
  | false => simp
  | true =>
    cases consumed with
    | ok | refused => simp [Consumed.cost]

theorem granted_refund {start last now : Int} (calls : List Call) :
    granted start last (outcomes limits key buckets (.refund now :: calls)) =
      granted start last (outcomes limits key (refund limits buckets key) calls) := by
  rw [outcomes, granted, List.countP_cons, ← granted]
  simp

theorem refunds_tryConsume {start last now : Int} (calls : List Call) :
    refunds start last (.tryConsume now :: calls) = refunds start last calls := by
  rw [refunds, List.countP_cons, ← refunds]
  simp

theorem refunds_refund {start last now : Int} (calls : List Call) : refunds start last (.refund now :: calls) =
      refunds start last calls + if (Call.refund now).inWindow start last then 1 else 0 := by
  rw [refunds, List.countP_cons, ← refunds]
  simp [Call.now]

theorem granted_after {start last : Int} {calls : List Call} : ∀ {clock : Int} {buckets : Buckets Key}, last < clock →
    NonDecreasing clock calls → granted start last (outcomes limits key buckets calls) = 0 := by
  induction calls with
  | nil => exact fun _ _ => rfl
  | cons call calls ih =>
    intro clock buckets hlast hcalls
    have hlater := hlast.trans_le hcalls.1
    have hout : ¬ call.inWindow start last = true := fun hin =>
      absurd (Call.inWindow_iff.1 hin).2 (Int.not_le.2 hlater)
    cases call with
    | tryConsume now =>
      have hrest := @granted_tryConsume _ _ limits key buckets start last now _ _ calls rfl
      rw [ih hlater hcalls.2, if_neg hout] at hrest
      exact Int.ofNat_eq_zero.1 hrest
    | refund now => rw [granted_refund, ih hlater hcalls.2]

/-- From a call in the window on, a bucket gives its tokens, one for each step until the end and the refunds. -/
theorem granted_le_tokens {start last : Int} {calls : List Call} : ∀ {clock : Int} {buckets : Buckets Key}
    {bucket : Bucket}, buckets key = some bucket → bucket.Valid limits clock → NonDecreasing clock calls →
    start ≤ clock → clock ≤ last → (granted start last (outcomes limits key buckets calls) : Int) ≤
      bucket.tokens + (last - bucket.updatedAt) / limits.refillMs + refunds start last calls := by
  induction calls with
  | nil =>
    intro clock buckets bucket _ h _ _ hlast
    have hnonneg := h.tokens_nonneg
    have hsteps := Int.ediv_nonneg (sub_nonneg.2 (h.updatedAt_le.trans hlast)) limits.refillMs_pos.le
    simp only [outcomes, granted, refunds, List.countP_nil]
    omega
  | cons call calls ih =>
    intro clock buckets bucket hbucket h hcalls hstart hlast
    have hvalid : Valid limits clock buckets key := fun other hother =>
      Option.some.inj (hbucket.symm.trans hother) ▸ h
    by_cases hlate : last < call.now
    · have hnonneg := h.tokens_nonneg
      have hsteps := Int.ediv_nonneg (sub_nonneg.2 (h.updatedAt_le.trans hlast)) limits.refillMs_pos.le
      have hnone := @granted_after _ _ limits key start last (call :: calls) call.now buckets hlate ⟨le_rfl, hcalls.2⟩
      omega
    · have hnow : call.now ≤ last := Int.not_lt.1 hlate
      have hin : call.inWindow start last = true := Call.inWindow_iff.2 ⟨hstart.trans hcalls.1, hnow⟩
      cases call with
      | tryConsume now =>
        have hclock : clock ≤ now := hcalls.1
        obtain ⟨old, left, consumed, hold, htry, hcalled⟩ := hvalid.called hclock
        rw [hold bucket hbucket] at hcalled
        have hrest := ih (set_self buckets key left) hcalled.valid hcalls.2 (hstart.trans hcalls.1) hnow
        have hgives := hcalled.gives last
        rw [granted_tryConsume calls htry, refunds_tryConsume, if_pos hin]
        omega
      | refund now =>
        have hafter := hvalid.refund hcalls.1
        have hone := min_le_right limits.capacity (bucket.tokens + 1)
        rw [granted_refund, refunds_refund, if_pos hin]
        simp only [refund, hbucket] at hafter ⊢
        have hrest := ih (set_self buckets key _) (hafter _ (set_self buckets key _)) hcalls.2
          (hstart.trans hcalls.1) hnow
        dsimp only at hrest
        push_cast
        omega

theorem granted_le {start last : Int} {calls : List Call} : ∀ {clock : Int} {buckets : Buckets Key},
    Valid limits clock buckets key → NonDecreasing clock calls → start ≤ last →
    (granted start last (outcomes limits key buckets calls) : Int) ≤
      limits.capacity + (last - start + limits.refillMs - 1) / limits.refillMs + refunds start last calls := by
  have hstep := limits.refillMs_pos
  have hcapacity := limits.capacity_pos
  induction calls with
  | nil =>
    intro clock buckets _ _ hle
    have hsteps : 0 ≤ (last - start + limits.refillMs - 1) / limits.refillMs := Int.ediv_nonneg (by omega) hstep.le
    simp only [outcomes, granted, refunds, List.countP_nil]
    omega
  | cons call calls ih =>
    intro clock buckets h hcalls hle
    cases call with
    | refund now =>
      have hrest := ih (h.refund hcalls.1) hcalls.2 hle
      rw [granted_refund, refunds_refund]
      push_cast
      split <;> omega
    | tryConsume now =>
      have hclock : clock ≤ now := hcalls.1
      obtain ⟨bucket, left, consumed, -, htry, hcalled⟩ := h.called hclock
      rw [granted_tryConsume calls htry, refunds_tryConsume]
      by_cases hin : (Call.tryConsume now).inWindow start last = true
      · -- The window begins with this call.
        obtain ⟨hfirst, hlast⟩ : start ≤ now ∧ now ≤ last := Call.inWindow_iff.1 hin
        have hleft := granted_le_tokens (set_self buckets key left) hcalled.valid hcalls.2 hfirst hlast
        have htokens := hcalled.tokens_le
        have hahead := hcalled.ahead
        have hsteps : (last - left.updatedAt) / limits.refillMs ≤
            (last - start + limits.refillMs - 1) / limits.refillMs :=
          Int.ediv_le_ediv hstep (by omega)
        rw [if_pos hin]
        omega
      · have hrest := ih (@Valid.set _ _ limits key _ buckets left hcalled.valid) hcalls.2 hle
        rw [if_neg hin]
        omega

theorem next_of_refused {now later retryAfterMs : Int} {result : Option Consumed} {calls : List Call} :
    ∀ {before after : List (Call × Option Consumed)} {clock : Int} {buckets : Buckets Key},
    Valid limits clock buckets key → NonDecreasing clock calls →
    outcomes limits key buckets calls = before ++ (.tryConsume now, some (.refused retryAfterMs)) ::
      (.tryConsume later, result) :: after → (result = some .ok ↔ now + retryAfterMs ≤ later) := by
  induction calls with
  | nil => exact fun _ _ hsplit => absurd (congrArg List.length hsplit) (by simp [outcomes])
  | cons call calls ih =>
    intro before after clock buckets h hcalls hsplit
    cases call with
    | refund time =>
      rw [outcomes] at hsplit
      cases before with
      | nil => exact absurd (List.cons.inj hsplit).1 (by simp)
      | cons first before => exact ih (h.refund hcalls.1) hcalls.2 (List.cons.inj hsplit).2
    | tryConsume time =>
      have hclock : clock ≤ time := hcalls.1
      obtain ⟨bucket, left, consumed, -, htry, hcalled⟩ := h.called hclock
      have hvalid := @Valid.set _ _ limits key _ buckets left hcalled.valid
      rw [outcomes, htry] at hsplit
      cases before with
      | cons first before => exact ih hvalid hcalls.2 (List.cons.inj hsplit).2
      | nil =>
        obtain ⟨hfirst, hrest⟩ := List.cons.inj hsplit
        obtain ⟨⟨⟩, ⟨⟩⟩ := Prod.mk.inj hfirst
        cases calls with
        | nil => exact absurd (congrArg List.length hrest) (by simp [outcomes])
        | cons call calls =>
          cases call with
          | refund time => exact absurd (List.cons.inj hrest).1 (by simp)
          | tryConsume time =>
            have hlater : now ≤ time := hcalls.2.1
            obtain ⟨next, last, answer, hnext, htry', hcalled'⟩ := hvalid.called hlater
            rw [outcomes, htry'] at hrest
            obtain ⟨⟨⟩, ⟨⟩⟩ := Prod.mk.inj (List.cons.inj hrest).1
            rw [hnext left (set_self buckets key left)] at hcalled'
            rw [Option.some.injEq]
            exact hcalled.next hlater hcalled'

end

/-- The calls that are granted in a window of length `T` are at most the capacity, one for each step that begins in it
and the refunds in it. After a refusal the next call is granted when the time that was said is over, and not before. -/
theorem messageRateLimit (limits : Limits) (key : Key) {clock : Int} {calls : List Call}
    (hclock : NonDecreasing clock calls) :
    (∀ start T, 0 ≤ T → (granted start (start + T) (outcomes limits key (fun _ => none) calls) : Int) ≤
      limits.capacity + (T + limits.refillMs - 1) / limits.refillMs + refunds start (start + T) calls) ∧
    ∀ before now retryAfterMs later result after,
      outcomes limits key (fun _ => none) calls = before ++ (.tryConsume now, some (.refused retryAfterMs)) ::
        (.tryConsume later, result) :: after → (result = some .ok ↔ now + retryAfterMs ≤ later) := by
  have hnone : Valid limits clock (fun _ => none) key := nofun
  constructor
  · intro start T hT
    have hbound := granted_le hnone hclock (le_add_of_nonneg_right hT : start ≤ start + T)
    rwa [add_sub_cancel_left] at hbound
  · intro before now retryAfterMs later result after hsplit
    exact next_of_refused hnone hclock hsplit

theorem messageRateLimit_threeCalls :
    (granted 0 (0 + 5) (outcomes ⟨1, 10, by decide, by decide⟩ "sender" (fun _ => none)
      [.tryConsume 0, .tryConsume 5, .tryConsume 10]) : Int) ≤ 1 + (5 + 10 - 1) / 10 + 0 ∧
    (some Consumed.ok = some .ok ↔ (5 : Int) + 5 ≤ 10) :=
  have h := @messageRateLimit _ _ ⟨1, 10, by decide, by decide⟩ "sender" 0
    [.tryConsume 0, .tryConsume 5, .tryConsume 10] ⟨by decide, by decide, by decide, trivial⟩
  ⟨h.1 0 5 (by decide), h.2 [(.tryConsume 0, some .ok)] 5 5 10 (some .ok) [] (by decide)⟩

end MessageRateLimiter
end Core
end RePrime
