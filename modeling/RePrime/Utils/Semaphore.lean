import RePrime.Lib.Runs
import RePrime.Lib.JsNumber

/-!
# RePrime.Utils.Semaphore

The counting semaphore that bounds how many kernels boot at once.

* `State.run`, `State.release`, `State.onAbort`: a call of `run` up to where it awaits, the end of one, and
  the listener that a queued call leaves on its signal.
* `State.step`: calls arrive, start, finish, and signals abort, in any order.
* `semaphore_law`: permits are neither exceeded nor lost, nobody waits while one is free, and they are
  handed over in the order of arrival, never to a call that was aborted.
-/

namespace RePrime
namespace Utils
namespace Semaphore

open List

/-- Where a call of `run` is; `acquired` has its permit and has not called `fn` yet. -/
inductive Phase where
  | queued
  | rejected (error : String)
  | acquired
  | running
  | settled (threw : Bool)
  deriving DecidableEq

namespace Phase

/-- Whether a call has a permit now. -/
def holds : Phase → Bool
  | acquired | running => true
  | queued | rejected _ | settled _ => false

/-- Whether a call has had a permit. -/
def served : Phase → Bool
  | acquired | running | settled _ => true
  | queued | rejected _ => false

end Phase

structure Call where
  signal : Option Nat
  phase : Phase
  deriving DecidableEq

/-- Calls are numbered as they arrive, and a call's number stands for its waiter; `aborted` has the reason
of each signal that is aborted, and `served` is every call that got a permit, in that order. -/
structure State where
  available : Nat
  waiters : List Nat
  listeners : List (Nat × Nat)
  aborted : List (Nat × Option String)
  calls : List Call
  served : List Nat
  deriving DecidableEq

inductive Action where
  | run (signal : Option Nat)
  | start (i : Nat)
  | finish (i : Nat) (threw : Bool)
  | abort (signal : Nat) (reason : Option String)

namespace State

/-- The constructor; the error is its text up to the number that it names. -/
def new : JsNumber → Except (String × JsNumber) State
  | .finite q =>
    if q.den ≠ 1 ∨ q < 1 then .error ("Semaphore permits must be a positive integer, got ", .finite q)
    else
      .ok { available := q.num.toNat, waiters := [], listeners := [], aborted := [], calls := [], served := [] }
  | permits => .error ("Semaphore permits must be a positive integer, got ", permits)

/-- `signal.reason ?? new Error("aborted")`, for a signal that is aborted. -/
def abortError (s : State) (signal : Nat) : Option String :=
  (s.aborted.lookup signal).map fun reason => reason.getD "aborted"

def phaseOf (s : State) (i : Nat) : Option Phase := s.calls[i]?.map Call.phase

def setPhase (s : State) (i : Nat) (phase : Phase) : State :=
  { s with calls := s.calls.modify i fun call => { call with phase } }

/-- Resolves or rejects the promise that the call `i` awaits in `acquire`; a second time does nothing. -/
def settlePromise (s : State) (i : Nat) (phase : Phase) : State :=
  if s.phaseOf i = some .queued then s.setPhase i phase else s

/-- `run(fn, signal)` up to where it awaits in `acquire`. -/
def run (s : State) (signal : Option Nat) : State :=
  match signal.bind s.abortError with
  | some error => { s with calls := s.calls ++ [{ signal, phase := .rejected error }] }
  | none =>
    if 0 < s.available then
      { s with
        available := s.available - 1
        calls := s.calls ++ [{ signal, phase := .acquired }]
        served := s.served ++ [s.calls.length] }
    else
      { s with
        waiters := s.waiters ++ [s.calls.length]
        listeners := s.listeners ++ signal.toList.map fun sig => (sig, s.calls.length)
        calls := s.calls ++ [{ signal, phase := .queued }] }

/-- What the function in `waiters` does: the listener goes, and the promise is resolved. -/
def resolveWaiter (s : State) (i : Nat) : State :=
  { s.settlePromise i .acquired with
    listeners := s.listeners.filter fun entry => entry.2 ≠ i
    served := s.served ++ [i] }

def release (s : State) : State :=
  match s.waiters with
  | next :: waiters => { s with waiters }.resolveWaiter next
  | [] => { s with available := s.available + 1 }

/-- The listener of the call `i` runs, once, for a signal that is aborted for a reason. -/
def onAbort (reason : Option String) (s : State) (i : Nat) : State :=
  { s.settlePromise i (.rejected (reason.getD "aborted")) with
    waiters := s.waiters.erase i
    listeners := s.listeners.filter fun entry => entry.2 ≠ i }

/-- The calls that listen to a signal, in the order they were added. -/
def listening (s : State) (signal : Nat) : List Nat :=
  (s.listeners.filter fun entry => entry.1 = signal).map Prod.snd

/-- A signal aborts once: it is marked, and then its listeners run. -/
def abort (s : State) (signal : Nat) (reason : Option String) : State :=
  if (s.aborted.lookup signal).isSome then s
  else (s.listening signal).foldl (onAbort reason) { s with aborted := (signal, reason) :: s.aborted }

/-- `run` cut where it awaits, and the signals. -/
def step (s : State) : Action → Option State
  | .run signal => some (s.run signal)
  | .start i => if s.phaseOf i = some .acquired then some (s.setPhase i .running) else none
  | .finish i threw => if s.phaseOf i = some .running then some (s.setPhase i (.settled threw)).release else none
  | .abort signal reason => some (s.abort signal reason)

/-- How many calls have a permit. -/
def holders (s : State) : Nat := s.calls.countP fun call => call.phase.holds

def signalOf (s : State) (i : Nat) : Option Nat := s.calls[i]?.bind Call.signal

/-! ## One call changes its phase -/

section SetPhase

variable (s : State) (i : Nat) (phase : Phase)

@[simp] theorem setPhase_available : (s.setPhase i phase).available = s.available := rfl
@[simp] theorem setPhase_waiters : (s.setPhase i phase).waiters = s.waiters := rfl
@[simp] theorem setPhase_listeners : (s.setPhase i phase).listeners = s.listeners := rfl
@[simp] theorem setPhase_aborted : (s.setPhase i phase).aborted = s.aborted := rfl
@[simp] theorem setPhase_served : (s.setPhase i phase).served = s.served := rfl

theorem phaseOf_setPhase (k : Nat) :
    (s.setPhase i phase).phaseOf k = if i = k then (s.phaseOf k).map fun _ => phase else s.phaseOf k := by
  rw [phaseOf, setPhase, getElem?_modify, phaseOf]
  cases s.calls[k]? with
  | none => exact (ite_self none).symm
  | some call => split <;> rfl

@[simp] theorem signalOf_setPhase (k : Nat) : (s.setPhase i phase).signalOf k = s.signalOf k := by
  rw [signalOf, setPhase, getElem?_modify, signalOf]
  cases s.calls[k]? with
  | none => rfl
  | some call =>
    show (if i = k then { call with phase } else call).signal = call.signal
    split <;> rfl

theorem holders_setPhase {before : Phase} (h : s.phaseOf i = some before) :
    (s.setPhase i phase).holders + (if before.holds then 1 else 0) =
      s.holders + (if phase.holds then 1 else 0) := by
  obtain ⟨call, hcall, rfl⟩ := Option.map_eq_some_iff.1 h
  obtain ⟨hlt, hget⟩ := List.getElem?_eq_some_iff.1 hcall
  obtain ⟨a, call', b, hcalls, hlen, hmodify⟩ :=
    exists_of_modify (fun call : Call => { call with phase }) hlt
  have heq : call' = call := by
    rw [hcalls, ← hlen, getElem?_append_right (Nat.le_refl _), Nat.sub_self] at hcall
    exact Option.some.inj hcall
  rw [holders, setPhase, hmodify, holders, hcalls, heq]
  simp only [countP_append, countP_cons]
  omega

end SetPhase

variable {i : Nat} {phase : Phase}

theorem holders_pos {s : State} (h : s.phaseOf i = some phase) (hholds : phase.holds = true) : 0 < s.holders := by
  obtain ⟨call, hcall, rfl⟩ := Option.map_eq_some_iff.1 h
  exact countP_pos_iff.2 ⟨call, mem_of_getElem? hcall, hholds⟩

/-- A promise changes nothing but the phase of its call. -/
theorem settlePromise_frame (s : State) (i : Nat) (phase : Phase) :
    (s.settlePromise i phase).aborted = s.aborted ∧ (s.settlePromise i phase).served = s.served ∧
    (s.settlePromise i phase).waiters = s.waiters ∧ ∀ k, (s.settlePromise i phase).signalOf k = s.signalOf k := by
  rw [settlePromise]
  split
  · exact ⟨rfl, rfl, rfl, s.signalOf_setPhase i phase⟩
  · exact ⟨rfl, rfl, rfl, fun _ => rfl⟩

theorem resolveWaiter_frame (s : State) (i : Nat) :
    (s.resolveWaiter i).aborted = s.aborted ∧ (s.resolveWaiter i).served = s.served ++ [i] ∧
    (s.resolveWaiter i).waiters = s.waiters ∧ ∀ k, (s.resolveWaiter i).signalOf k = s.signalOf k := by
  obtain ⟨haborted, hserved, hwaiters, hsignal⟩ := s.settlePromise_frame i .acquired
  exact ⟨haborted, rfl, hwaiters, hsignal⟩

/-! ## What holds in every state -/

/-- Permits are with calls or free; `waiters` has the queued calls, behind all that were served, and each of
them listens to its signal. -/
structure Inv (permits : Nat) (s : State) : Prop where
  count : s.holders + s.available = permits
  free : 0 < s.available → s.waiters = []
  order : (s.served ++ s.waiters).Pairwise (· < ·)
  waiting : ∀ i, i ∈ s.waiters ↔ s.phaseOf i = some .queued
  served : ∀ i, i ∈ s.served ↔ ∃ phase, s.phaseOf i = some phase ∧ phase.served = true
  listening : ∀ sig i, (sig, i) ∈ s.listeners ↔ i ∈ s.waiters ∧ s.signalOf i = some sig

/-- No signal of a queued call is aborted. -/
def Alive (s : State) : Prop := ∀ i ∈ s.waiters, ∀ sig, s.signalOf i = some sig → s.abortError sig = none

theorem inv_new {permits : JsNumber} {s : State} (h : new permits = .ok s) :
    permits = .finite s.available ∧ s.Inv s.available ∧ s.Alive := by
  cases permits with
  | finite q =>
    rw [new] at h
    split at h
    · cases h
    · rename_i hq
      cases h
      obtain ⟨hden, hq⟩ : q.den = 1 ∧ 1 ≤ q := by
        rw [not_or, not_not, not_lt] at hq
        exact hq
      have hnum : 0 ≤ q.num := Rat.num_nonneg.2 (le_trans rfl hq)
      have hcast : q = (q.num.toNat : ℚ) := by
        rw [← Int.cast_natCast, Int.toNat_of_nonneg hnum]
        exact (Rat.den_eq_one_iff q).1 hden |>.symm
      refine ⟨congrArg JsNumber.finite hcast, ⟨Nat.zero_add _, fun _ => rfl, .nil, ?_, ?_, ?_⟩, ?_⟩
      · intro i
        simp [phaseOf]
      · intro i
        simp [phaseOf]
      · intro sig i
        simp
      · intro i hi
        cases hi
  | _ => cases h

variable {permits : Nat} {s : State}

theorem lt_of_phaseOf (h : s.phaseOf i = some phase) : i < s.calls.length := by
  obtain ⟨call, hcall, -⟩ := Option.map_eq_some_iff.1 h
  exact (List.getElem?_eq_some_iff.1 hcall).1

section Push

variable {s' : State} {call : Call} (hcalls : s'.calls = s.calls ++ [call])

include hcalls

theorem phaseOf_push (k : Nat) : s'.phaseOf k = if k = s.calls.length then some call.phase else s.phaseOf k := by
  rw [phaseOf, hcalls, getElem?_append, phaseOf]
  split_ifs with h₁ h₂ h₂
  · omega
  · rfl
  · simp [h₂]
  · rw [getElem?_eq_none (by simp only [length_singleton]; omega), getElem?_eq_none (by omega)]

theorem signalOf_push (k : Nat) : s'.signalOf k = if k = s.calls.length then call.signal else s.signalOf k := by
  rw [signalOf, hcalls, getElem?_append, signalOf]
  split_ifs with h₁ h₂ h₂
  · omega
  · rfl
  · simp [h₂]
  · rw [getElem?_eq_none (by simp only [length_singleton]; omega), getElem?_eq_none (by omega)]

theorem holders_push : s'.holders = s.holders + if call.phase.holds then 1 else 0 := by
  rw [holders, hcalls, countP_append, countP_singleton, holders]

end Push

namespace Inv

variable {i : Nat}

variable (h : s.Inv permits)

include h

theorem lt_length (hi : i ∈ s.served ++ s.waiters) : i < s.calls.length := by
  obtain hi | hi := mem_append.1 hi
  · obtain ⟨phase, hphase, -⟩ := (h.served i).1 hi
    exact lt_of_phaseOf hphase
  · exact lt_of_phaseOf ((h.waiting i).1 hi)

theorem length_notMem : s.calls.length ∉ s.served ++ s.waiters :=
  fun hmem => Nat.lt_irrefl _ (h.lt_length hmem)

theorem order_push : (s.served ++ s.waiters ++ [s.calls.length]).Pairwise (· < ·) := by
  refine pairwise_append.2 ⟨h.order, pairwise_singleton _ _, ?_⟩
  intro i hi k hk
  rw [mem_singleton.1 hk]
  exact h.lt_length hi

theorem push {s' : State} {call : Call} (hcalls : s'.calls = s.calls ++ [call])
    (hphase : call.phase ≠ .queued) (hcount : s'.available + (if call.phase.holds then 1 else 0) = s.available)
    (hwaiters : s'.waiters = s.waiters) (hlisteners : s'.listeners = s.listeners)
    (hserved : s'.served = if call.phase.served then s.served ++ [s.calls.length] else s.served)
    (hempty : call.phase.served = true → s.waiters = []) : s'.Inv permits := by
  have hnot := h.length_notMem
  rw [mem_append, not_or] at hnot
  refine ⟨?_, ?_, ?_, ?_, ?_, ?_⟩
  · have := h.count
    rw [holders_push hcalls]
    omega
  · intro hfree
    rw [hwaiters]
    exact h.free (by omega)
  · rw [hserved, hwaiters]
    split
    · rename_i hs
      have := h.order_push
      rwa [hempty hs, append_nil] at this ⊢
    · exact h.order
  · intro i
    rw [hwaiters, phaseOf_push hcalls]
    split
    · rename_i hi
      rw [hi]
      simp [hnot.2, hphase]
    · exact h.waiting i
  · intro i
    rw [hserved, phaseOf_push hcalls]
    split_ifs with hs hi hi
    · simp [hi, hs]
    · simp [hi, h.served i]
    · simp [hi, hs, hnot.1]
    · exact h.served i
  · intro sig i
    rw [hlisteners, hwaiters, signalOf_push hcalls, h.listening]
    split
    · rename_i hi
      simp [hi, hnot.2]
    · rfl

theorem enqueue (signal : Option Nat) (hfull : ¬0 < s.available) : Inv permits { s with
        waiters := s.waiters ++ [s.calls.length]
        listeners := s.listeners ++ signal.toList.map fun sig => (sig, s.calls.length)
        calls := s.calls ++ [{ signal, phase := .queued }] } := by
  have hnot := h.length_notMem
  rw [mem_append, not_or] at hnot
  refine ⟨?_, ?_, ?_, ?_, ?_, ?_⟩
  · rw [holders_push rfl]
    exact h.count
  · intro hfree
    exact absurd hfree hfull
  · have := h.order_push
    rwa [append_assoc] at this
  · intro i
    rw [phaseOf_push rfl, mem_append, mem_singleton]
    split
    · rename_i hi
      simp [hi]
    · rename_i hi
      rw [← h.waiting i]
      simp [hi]
  · intro i
    rw [phaseOf_push rfl]
    split
    · rename_i hi
      rw [hi]
      simp [hnot.1, Phase.served]
    · exact h.served i
  · intro sig i
    rw [signalOf_push rfl, mem_append, h.listening]
    split
    · rename_i hi
      simp [hi, hnot.2, eq_comm]
    · rename_i hi
      simp [hi, Ne.symm hi]

protected theorem run (signal : Option Nat) : (s.run signal).Inv permits := by
  rw [State.run]
  split
  · exact h.push rfl Phase.noConfusion rfl rfl rfl rfl Bool.noConfusion
  · split
    · rename_i hfree
      exact h.push rfl Phase.noConfusion (Nat.sub_add_cancel hfree) rfl rfl rfl fun _ => h.free hfree
    · rename_i hfull
      exact h.enqueue signal hfull

theorem proceed {before phase : Phase} (hbefore : s.phaseOf i = some before)
    (hserved : before.served = true) (hphase : phase.served = true) {permits' : Nat}
    (hcount : permits' + (if before.holds then 1 else 0) = permits + if phase.holds then 1 else 0) :
    (s.setPhase i phase).Inv permits' := by
  refine ⟨?_, h.free, h.order, ?_, ?_, ?_⟩
  · have := h.count
    have := s.holders_setPhase i phase hbefore
    simp only [setPhase_available]
    omega
  · intro k
    rw [setPhase_waiters, phaseOf_setPhase, h.waiting k]
    split
    · rename_i hk
      rw [← hk, hbefore]
      constructor
      · intro hq
        cases hq
        cases hserved
      · intro hq
        cases hq
        cases hphase
    · rfl
  · intro k
    rw [setPhase_served, phaseOf_setPhase, h.served k]
    split
    · rename_i hk
      rw [← hk, hbefore]
      simp [hserved, hphase]
    · rfl
  · intro sig k
    rw [setPhase_listeners, setPhase_waiters, signalOf_setPhase]
    exact h.listening sig k

theorem dequeue (hqueued : s.phaseOf i = some .queued) {s' : State} (phase : Phase) (hphase : phase ≠ .queued)
    (hcalls : s'.calls = (s.setPhase i phase).calls) (havailable : s'.available = s.available)
    (hwaiters : s'.waiters = s.waiters.erase i)
    (hlisteners : s'.listeners = s.listeners.filter fun entry => entry.2 ≠ i)
    (hserved : s'.served = if phase.served then s.served ++ [i] else s.served)
    (horder : (s'.served ++ s'.waiters).Pairwise (· < ·)) : s'.Inv (permits + if phase.holds then 1 else 0) := by
  have hnodup : s.waiters.Nodup := (pairwise_append.1 h.order).2.1.imp Nat.ne_of_lt
  have hmem : ∀ k, k ∈ s'.waiters ↔ k ≠ i ∧ k ∈ s.waiters := by
    intro k
    rw [hwaiters]
    exact hnodup.mem_erase_iff
  have hphases : ∀ k, s'.phaseOf k = if i = k then some phase else s.phaseOf k := by
    intro k
    have hset := s.phaseOf_setPhase i phase k
    rw [phaseOf, ← hcalls] at hset
    rw [phaseOf, hset]
    split
    · rename_i hk
      rw [← hk, hqueued]
      rfl
    · rfl
  have hsignals : ∀ k, s'.signalOf k = s.signalOf k := by
    intro k
    rw [← s.signalOf_setPhase i phase k, signalOf, hcalls]
    rfl
  refine ⟨?_, ?_, horder, ?_, ?_, ?_⟩
  · have hset := s.holders_setPhase i phase hqueued
    have hcount := h.count
    rw [holders, ← hcalls] at hset
    rw [holders, havailable]
    simp only [Phase.holds, Bool.false_eq_true, if_false, Nat.add_zero] at hset ⊢
    omega
  · intro hfree
    rw [hwaiters, h.free (havailable ▸ hfree)]
    rfl
  · intro k
    rw [hmem, hphases]
    split
    · rename_i hk
      simp [hk, hphase]
    · rename_i hk
      rw [h.waiting]
      exact and_iff_right (Ne.symm hk)
  · intro k
    have hnot : i ∉ s.served := by
      intro hi
      obtain ⟨before, hbefore, hs⟩ := (h.served i).1 hi
      rw [hqueued] at hbefore
      cases hbefore
      cases hs
    rw [hserved, hphases]
    split_ifs with hs hk hk
    · simp [← hk, hs]
    · simp [Ne.symm hk, h.served k]
    · simp [← hk, hs, hnot]
    · exact h.served k
  · intro sig k
    rw [hlisteners, hmem, hsignals, mem_filter, h.listening, decide_eq_true_iff]
    tauto

protected theorem release : s.release.Inv (permits + 1) := by
  rw [State.release]
  split
  · rename_i next waiters hw
    have hqueued : s.phaseOf next = some .queued := (h.waiting next).1 (by rw [hw]; exact mem_cons_self)
    have hsettle : State.settlePromise { s with waiters } next .acquired =
        State.setPhase { s with waiters } next .acquired :=
      if_pos hqueued
    have horder := h.order
    rw [hw] at horder
    rw [State.resolveWaiter, hsettle]
    refine h.dequeue hqueued .acquired Phase.noConfusion rfl rfl ?_ rfl rfl ?_
    · rw [hw, erase_cons_head]
      rfl
    · simpa using horder
  · rename_i hw
    have hcount := h.count
    exact ⟨by rw [← hcount, Nat.add_assoc]; rfl, fun _ => hw, h.order, h.waiting, h.served, h.listening⟩

theorem onAbort_of_not_queued (reason : Option String)
    (hi : s.phaseOf i ≠ some .queued) : s.onAbort reason i = s := by
  have hnot : i ∉ s.waiters := fun hmem => hi ((h.waiting i).1 hmem)
  have hfilter : (s.listeners.filter fun entry => entry.2 ≠ i) = s.listeners := by
    refine filter_eq_self.2 fun entry hentry => decide_eq_true ?_
    rintro rfl
    exact hnot ((h.listening entry.1 entry.2).1 hentry).1
  rw [State.onAbort, settlePromise, if_neg hi, hfilter, erase_of_not_mem hnot]

protected theorem onAbort (reason : Option String) (i : Nat) :
    (s.onAbort reason i).Inv permits := by
  by_cases hqueued : s.phaseOf i = some .queued
  · have hsettle : s.settlePromise i (.rejected (reason.getD "aborted")) =
        s.setPhase i (.rejected (reason.getD "aborted")) := if_pos hqueued
    rw [State.onAbort, hsettle]
    refine h.dequeue hqueued (.rejected (reason.getD "aborted")) Phase.noConfusion rfl rfl rfl rfl rfl ?_
    exact h.order.sublist (List.Sublist.append_left erase_sublist _)
  · rw [h.onAbort_of_not_queued reason hqueued]
    exact h

theorem foldl_onAbort (reason : Option String) (L : List Nat) : (L.foldl (State.onAbort reason) s).Inv permits ∧
    (L.foldl (State.onAbort reason) s).aborted = s.aborted ∧ (L.foldl (State.onAbort reason) s).served = s.served ∧
    (∀ k, (L.foldl (State.onAbort reason) s).signalOf k = s.signalOf k) ∧
    ∀ k ∈ (L.foldl (State.onAbort reason) s).waiters, k ∈ s.waiters ∧ k ∉ L := by
  induction L generalizing s with
  | nil => exact ⟨h, rfl, rfl, fun _ => rfl, fun k hk => ⟨hk, not_mem_nil⟩⟩
  | cons i L ih =>
    obtain ⟨haborted, hserved, -, hsignal⟩ := s.settlePromise_frame i (.rejected (reason.getD "aborted"))
    obtain ⟨hinv, h₁, h₂, h₃, hwaiters⟩ := ih (h.onAbort reason i)
    have hnodup : s.waiters.Nodup := (pairwise_append.1 h.order).2.1.imp Nat.ne_of_lt
    refine ⟨hinv, h₁.trans haborted, h₂.trans hserved, fun k => (h₃ k).trans (hsignal k), fun k hk => ?_⟩
    obtain ⟨hmem, hnot⟩ := hwaiters k hk
    obtain ⟨hne, hmem⟩ := hnodup.mem_erase_iff.1 hmem
    exact ⟨hmem, not_mem_cons_of_ne_of_not_mem hne hnot⟩

end Inv

/-! ## Signals of queued calls -/

theorem Alive.mono (h : s.Alive) {s' : State} (haborted : s'.aborted = s.aborted)
    (hold : ∀ i ∈ s'.waiters, i ∈ s.waiters ∧ s'.signalOf i = s.signalOf i) : s'.Alive := by
  intro i hi sig hsig
  obtain ⟨hmem, heq⟩ := hold i hi
  rw [heq] at hsig
  rw [abortError, haborted]
  exact h i hmem sig hsig

theorem alive_run (h : s.Inv permits) (ha : s.Alive) (signal : Option Nat) : (s.run signal).Alive := by
  have hold : ∀ {call : Call}, ∀ i ∈ s.waiters,
      State.signalOf { s with calls := s.calls ++ [call] } i = s.signalOf i := by
    intro call i hi
    rw [signalOf_push rfl, if_neg (Nat.ne_of_lt (h.lt_length (mem_append_right _ hi)))]
  rw [State.run]
  split
  · exact ha.mono rfl fun i hi => ⟨hi, hold i hi⟩
  · rename_i hnone
    split
    · exact ha.mono rfl fun i hi => ⟨hi, hold i hi⟩
    · intro i hi sig hsig
      rw [signalOf_push rfl] at hsig
      split at hsig
      · have hsig : signal = some sig := hsig
        rw [hsig] at hnone
        exact hnone
      · rename_i hne
        obtain hi | hi := mem_append.1 hi
        · exact ha i hi sig hsig
        · exact absurd (mem_singleton.1 hi) hne

theorem alive_release (ha : s.Alive) : s.release.Alive := by
  rw [State.release]
  split
  · rename_i next waiters hw
    obtain ⟨haborted, -, hwaiters, hsignal⟩ := State.resolveWaiter_frame { s with waiters } next
    refine ha.mono haborted fun i hi => ⟨?_, hsignal i⟩
    rw [hwaiters] at hi
    rw [hw]
    exact mem_cons_of_mem _ hi
  · exact ha

theorem Inv.mark (h : s.Inv permits) (aborted : List (Nat × Option String)) : Inv permits { s with aborted } :=
  ⟨h.count, h.free, h.order, h.waiting, h.served, h.listening⟩

theorem alive_abort (h : s.Inv permits) (ha : s.Alive) (signal : Nat) (reason : Option String) :
    (s.abort signal reason).Alive := by
  rw [State.abort]
  split
  · exact ha
  · obtain ⟨-, haborted, -, hsignal, hwaiters⟩ :=
      (h.mark ((signal, reason) :: s.aborted)).foldl_onAbort reason (s.listening signal)
    intro i hi sig hsig
    obtain ⟨hmem, hnot⟩ := hwaiters i hi
    rw [hsignal] at hsig
    have hsig : s.signalOf i = some sig := hsig
    have hne : sig ≠ signal := by
      rintro rfl
      refine hnot (mem_map.2 ⟨(sig, i), mem_filter.2 ⟨(h.listening sig i).2 ⟨hmem, hsig⟩, ?_⟩, rfl⟩)
      exact decide_eq_true rfl
    have halive := ha i hmem sig hsig
    rw [abortError, haborted, lookup_cons, beq_false_of_ne hne]
    exact halive

/-! ## Steps and runs -/

theorem inv_abort (h : s.Inv permits) (signal : Nat) (reason : Option String) :
    (s.abort signal reason).Inv permits := by
  rw [State.abort]
  split
  · exact h
  · exact ((h.mark ((signal, reason) :: s.aborted)).foldl_onAbort reason (s.listening signal)).1

variable {s' : State}

variable {a : Action}

theorem inv_step (hstep : s.step a = some s') (h : s.Inv permits) (ha : s.Alive) : s'.Inv permits ∧ s'.Alive := by
  cases a with
  | run signal =>
    cases hstep
    exact ⟨h.run signal, alive_run h ha signal⟩
  | start i =>
    rw [step] at hstep
    split at hstep
    · rename_i hphase
      cases hstep
      exact ⟨h.proceed hphase rfl rfl rfl, ha.mono rfl fun k hk => ⟨hk, signalOf_setPhase s i _ k⟩⟩
    · cases hstep
  | finish i threw =>
    rw [step] at hstep
    split at hstep
    · rename_i hphase
      cases hstep
      have hheld : 0 < permits := by
        have hpos := holders_pos hphase rfl
        have hcount := h.count
        omega
      have hgone : (s.setPhase i (.settled threw)).Inv (permits - 1) :=
        h.proceed hphase rfl rfl (Nat.sub_add_cancel hheld)
      have hrelease := hgone.release
      rw [Nat.sub_add_cancel hheld] at hrelease
      exact ⟨hrelease, alive_release (ha.mono rfl fun k hk => ⟨hk, signalOf_setPhase s i _ k⟩)⟩
    · cases hstep
  | abort signal reason =>
    cases hstep
    exact ⟨inv_abort h signal reason, alive_abort h ha signal reason⟩

theorem inv_of_runs (hrun : Transition.Runs step s s') (h : s.Inv permits) (ha : s.Alive) :
    s'.Inv permits ∧ s'.Alive :=
  hrun.keeps (P := fun t => t.Inv permits ∧ t.Alive) ⟨h, ha⟩ fun _ _ _ hs hstep => inv_step hstep hs.1 hs.2

variable {error : String}

/-- A call whose `acquire` was rejected stays so when another call changes its phase. -/
theorem rejected_setPhase {k : Nat} {before : Phase} (hi : s.phaseOf i = some (.rejected error))
    (hk : s.phaseOf k = some before) (hbefore : before ≠ .rejected error) :
    (s.setPhase k phase).phaseOf i = some (.rejected error) := by
  rw [phaseOf_setPhase, if_neg, hi]
  rintro rfl
  rw [hi] at hk
  exact hbefore (Option.some.inj hk).symm

theorem rejected_settlePromise (hi : s.phaseOf i = some (.rejected error)) (k : Nat)
    (phase : Phase) : (s.settlePromise k phase).phaseOf i = some (.rejected error) := by
  rw [settlePromise]
  split
  · rename_i hk
    exact rejected_setPhase hi hk Phase.noConfusion
  · exact hi

theorem rejected_release (hi : s.phaseOf i = some (.rejected error)) :
    s.release.phaseOf i = some (.rejected error) := by
  rw [release]
  split
  · rename_i next waiters hw
    exact rejected_settlePromise (s := { s with waiters }) hi next .acquired
  · exact hi

theorem rejected_foldl_onAbort (reason : Option String) (L : List Nat) (hi : s.phaseOf i = some (.rejected error)) :
    (L.foldl (onAbort reason) s).phaseOf i = some (.rejected error) := by
  induction L generalizing s with
  | nil => exact hi
  | cons k L ih => exact ih (rejected_settlePromise hi k (.rejected (reason.getD "aborted")))

theorem rejected_run (hi : s.phaseOf i = some (.rejected error)) (signal : Option Nat) :
    (s.run signal).phaseOf i = some (.rejected error) := by
  have hne : i ≠ s.calls.length := Nat.ne_of_lt (lt_of_phaseOf hi)
  rw [run]
  split
  · rw [phaseOf_push rfl, if_neg hne, hi]
  · split
    · rw [phaseOf_push rfl, if_neg hne, hi]
    · rw [phaseOf_push rfl, if_neg hne, hi]

theorem rejected_step (hstep : s.step a = some s')
    (hi : s.phaseOf i = some (.rejected error)) : s'.phaseOf i = some (.rejected error) := by
  cases a with
  | run signal =>
    cases hstep
    exact rejected_run hi signal
  | start k =>
    rw [step] at hstep
    split at hstep
    · rename_i hk
      cases hstep
      exact rejected_setPhase hi hk Phase.noConfusion
    · cases hstep
  | finish k threw =>
    rw [step] at hstep
    split at hstep
    · rename_i hk
      cases hstep
      exact rejected_release (rejected_setPhase hi hk Phase.noConfusion)
    · cases hstep
  | abort signal reason =>
    cases hstep
    rw [abort]
    split
    · exact hi
    · exact rejected_foldl_onAbort reason _ hi

theorem rejected_of_runs (hrun : Transition.Runs step s s')
    (hi : s.phaseOf i = some (.rejected error)) : s'.phaseOf i = some (.rejected error) :=
  hrun.keeps (P := fun t => t.phaseOf i = some (.rejected error)) hi fun _ _ _ h hstep => rejected_step hstep h

variable {sig : Nat}

theorem granted_run {signal : Option Nat} (hi : i ∈ (s.run signal).served) (hnew : i ∉ s.served)
    (hsig : (s.run signal).signalOf i = some sig) : (s.run signal).abortError sig = none := by
  rw [run] at *
  split at hi
  · exact absurd hi hnew
  · rename_i hnone
    split at hi
    · rename_i hfree
      have hlast : i = s.calls.length := mem_singleton.1 ((mem_append.1 hi).resolve_left hnew)
      simp only [hnone, if_pos hfree] at hsig ⊢
      rw [signalOf_push rfl, if_pos hlast] at hsig
      have hsig : signal = some sig := hsig
      rw [hsig] at hnone
      exact hnone
    · exact absurd hi hnew

theorem granted_release (ha : s.Alive) (hi : i ∈ s.release.served) (hnew : i ∉ s.served)
    (hsig : s.release.signalOf i = some sig) : s.release.abortError sig = none := by
  cases hw : s.waiters with
  | nil =>
    rw [release, hw] at hi
    exact absurd hi hnew
  | cons next waiters =>
    have heq : s.release = State.resolveWaiter { s with waiters } next := by rw [release, hw]
    obtain ⟨haborted, hserved, -, hsignal⟩ := State.resolveWaiter_frame { s with waiters } next
    rw [heq, hserved] at hi
    rw [heq, hsignal] at hsig
    have hnext : i = next := mem_singleton.1 ((mem_append.1 hi).resolve_left hnew)
    have hmem : i ∈ s.waiters := by
      rw [hw, hnext]
      exact mem_cons_self
    rw [heq, abortError, haborted]
    exact ha i hmem sig hsig

theorem granted_step (hstep : s.step a = some s') (h : s.Inv permits) (ha : s.Alive)
    (hi : i ∈ s'.served) (hnew : i ∉ s.served) (hsig : s'.signalOf i = some sig) : s'.abortError sig = none := by
  cases a with
  | run signal =>
    cases hstep
    exact granted_run hi hnew hsig
  | start k =>
    rw [step] at hstep
    split at hstep
    · cases hstep
      exact absurd hi hnew
    · cases hstep
  | finish k threw =>
    rw [step] at hstep
    split at hstep
    · cases hstep
      have hahead : (s.setPhase k (.settled threw)).Alive :=
        ha.mono rfl fun k' hk => ⟨hk, signalOf_setPhase s k _ k'⟩
      exact granted_release hahead hi hnew hsig
    · cases hstep
  | abort signal reason =>
    cases hstep
    refine absurd ?_ hnew
    rw [abort] at hi
    split at hi
    · exact hi
    · rw [((h.mark ((signal, reason) :: s.aborted)).foldl_onAbort reason (s.listening signal)).2.2.1] at hi
      exact hi

/-- Permits are with calls or free, and never lost; nobody is queued while one is free; permits are handed over
in the order in which the calls arrived, and only to calls whose signals are not aborted, so that a call that
was rejected never gets one. -/
theorem semaphore_law {permits : JsNumber} {fresh : State} (hnew : new permits = .ok fresh)
    (hrun : Transition.Runs step fresh s) :
    (∃ n : Nat, permits = .finite n ∧ s.holders ≤ n ∧ s.holders + s.available = n) ∧
    (∀ i, s.phaseOf i = some .queued ↔ i ∈ s.waiters) ∧ (0 < s.available → s.waiters = []) ∧
    (s.served ++ s.waiters).Pairwise (· < ·) ∧
    (∀ a s', s.step a = some s' → ∀ i ∈ s'.served, i ∉ s.served → ∀ sig, s'.signalOf i = some sig →
      s'.abortError sig = none) ∧
    ∀ i error, s.phaseOf i = some (.rejected error) → ∀ s', Transition.Runs step s s' → i ∉ s'.served := by
  obtain ⟨hpermits, hinv, halive⟩ := inv_new hnew
  obtain ⟨hinv, halive⟩ := inv_of_runs hrun hinv halive
  refine ⟨⟨fresh.available, hpermits, ?_, hinv.count⟩, fun i => (hinv.waiting i).symm, hinv.free, hinv.order, ?_, ?_⟩
  · have hcount := hinv.count
    omega
  · intro a s' hstep i hi hfresh sig hsig
    exact granted_step hstep hinv halive hi hfresh hsig
  · intro i error hi s' hlater hserved
    obtain ⟨phase, hphase, hphaseServed⟩ := ((inv_of_runs hlater hinv halive).1.served i).1 hserved
    rw [rejected_of_runs hlater hi] at hphase
    cases hphase
    cases hphaseServed

/-- One permit, a call that runs, and two that wait: the signal of the first of them aborts, and the permit goes
to the second. -/
theorem semaphore_law_abort :
    ∃ s : State, s.phaseOf 1 = some (.rejected "stop") ∧ s.phaseOf 2 = some .acquired ∧ s.served = [0, 2] ∧
      s.holders + s.available = 1 := by
  have hnew : new (.finite 1) =
      .ok { available := 1, waiters := [], listeners := [], aborted := [], calls := [], served := [] } := by
    rfl
  have hsteps : Transition.steps step
      [.run none, .run (some 7), .run (some 8), .start 0, .abort 7 (some "stop"), .finish 0 false]
      { available := 1, waiters := [], listeners := [], aborted := [], calls := [], served := [] } =
      some
        { available := 0, waiters := [], listeners := [], aborted := [(7, some "stop")], served := [0, 2]
          calls := [⟨none, .settled false⟩, ⟨some 7, .rejected "stop"⟩, ⟨some 8, .acquired⟩] } := by
    decide
  obtain ⟨⟨n, hn, -, hcount⟩, -⟩ := semaphore_law hnew (Transition.runs_of_steps hsteps)
  have hn : (1 : ℚ) = n := JsNumber.finite.inj hn
  refine
    ⟨{ available := 0, waiters := [], listeners := [], aborted := [(7, some "stop")], served := [0, 2]
       calls := [⟨none, .settled false⟩, ⟨some 7, .rejected "stop"⟩, ⟨some 8, .acquired⟩] }, rfl, rfl, rfl, ?_⟩
  rw [hcount]
  exact_mod_cast hn.symm

end State
end Semaphore
end Utils
end RePrime
