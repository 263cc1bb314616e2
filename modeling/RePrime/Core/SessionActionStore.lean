import Mathlib.Data.List.DropRight
import Mathlib.Data.List.Perm.Basic
import Mathlib.Data.List.Range

/-!
# RePrime.Core.SessionActionStore

`ActionStore`: the actions that wait for a session or run in it, in two lanes.

* `transitionSessionAction`: the legal steps of the life of an action.
* `ActionStore.step`: one call. `enqueue` looks for a place from the end of its lane.
* `ActionStore.placed_of_run`: every action is in its lane once until it is released, and the queued ones are in
  order, but that none is put before an action that was not queued.
-/

namespace RePrime
namespace Core

open List

/-! ## Actions -/

inductive DeliveryPolicy where
  | nextTurnBoundary
  | whenRunIdle
  deriving DecidableEq

inductive SessionActionPriority where
  | pinned
  | user
  | background
  deriving DecidableEq

inductive SessionActionPlacement where
  | priority
  | tail
  | front

def SessionActionPriority.rank : SessionActionPriority → Nat
  | .pinned => 2
  | .user => 1
  | .background => 0

inductive ActionState where
  | queued
  | selected
  | preparing
  | committing
  | running
  | completed
  | failed
  | cancelled
  deriving DecidableEq

namespace ActionState

def terminal : ActionState → Bool
  | .completed | .failed | .cancelled => true
  | _ => false

def clearable : ActionState → Bool
  | .queued | .selected | .preparing => true
  | _ => false

def legalTransitions : ActionState → List ActionState
  | .queued => [.selected, .failed, .cancelled]
  | .selected => [.queued, .preparing, .running, .failed, .cancelled]
  | .preparing => [.queued, .committing, .failed, .cancelled]
  | .committing => [.queued, .running, .failed, .cancelled]
  | .running => [.completed, .failed, .cancelled]
  | .completed | .failed | .cancelled => []

end ActionState

/-- `seq` is the object as such: how many actions were enqueued before it. -/
structure SessionAction where
  id : String
  seq : Nat
  delivery : DeliveryPolicy
  priority : SessionActionPriority
  primaryMessages : List Nat
  lifecycle : ActionState

namespace SessionAction

def queued (a : SessionAction) : Bool := a.lifecycle == .queued

def rank (a : SessionAction) : Nat := a.priority.rank

end SessionAction

structure RollbackProof where
  dispatchSettled : Bool
  transcript : List Nat

inductive ActionError where
  | illegalTransition (previous next : ActionState)
  | unsettledRollback
  | durableRollback
  | notQueued
  | duplicateId (id : String)
  | nonterminal (id : String)
  | unknown

def transitionSessionAction (action : SessionAction) (next : ActionState) (rollbackProof : Option RollbackProof) :
    Except ActionError SessionAction :=
  if next ∉ action.lifecycle.legalTransitions then .error (.illegalTransition action.lifecycle next)
  else if action.lifecycle = .committing ∧ next = .queued then
    match rollbackProof with
    | none => .error .unsettledRollback
    | some proof =>
      if proof.dispatchSettled = false then .error .unsettledRollback
      else if action.primaryMessages.any proof.transcript.contains then .error .durableRollback
      else .ok { action with lifecycle := next }
  else .ok { action with lifecycle := next }

/-! ## The store -/

/-- `enqueued` counts the actions so far, and `released` are those that are gone. -/
structure ActionStore where
  nextTurnBoundary : List SessionAction
  whenRunIdle : List SessionAction
  tickets : List String
  enqueued : Nat
  released : List SessionAction

inductive ActionOp where
  | enqueue (action : SessionAction)
  | selectFirst
  | remove (predicate : SessionAction → Bool) (candidates : Option (List Nat))
  | rollback (seq : Nat) (rollbackProof : Option RollbackProof)
  | transition (seq : Nat) (next : ActionState) (rollbackProof : Option RollbackProof)
  | releaseTerminal (seq : Nat)

def insertionIndex (list : List SessionAction) (action : SessionAction) : SessionActionPlacement → Nat
  | .tail => list.length
  | .front =>
    match list.findIdx? SessionAction.queued with
    | none => list.length
    | some firstQueued => firstQueued
  -- from the end, past the queued actions of lower priority
  | .priority => (list.rdropWhile fun item => item.queued && decide (item.rank < action.rank)).length

namespace ActionStore

def empty : ActionStore := ⟨[], [], [], 0, []⟩

def list (s : ActionStore) : DeliveryPolicy → List SessionAction
  | .nextTurnBoundary => s.nextTurnBoundary
  | .whenRunIdle => s.whenRunIdle

def setList (s : ActionStore) (policy : DeliveryPolicy) (l : List SessionAction) : ActionStore :=
  match policy with
  | .nextTurnBoundary => { s with nextTurnBoundary := l }
  | .whenRunIdle => { s with whenRunIdle := l }

def actions (s : ActionStore) : List SessionAction := s.nextTurnBoundary ++ s.whenRunIdle

def queuedActions (s : ActionStore) (policy : DeliveryPolicy) : List SessionAction :=
  (s.list policy).filter SessionAction.queued

/-- An action that was enqueued at some time. -/
def find (s : ActionStore) (seq : Nat) : Option SessionAction :=
  (s.actions ++ s.released).find? fun a => a.seq == seq

/-- The object changes, wherever it is. -/
def replace (s : ActionStore) (a : SessionAction) : ActionStore :=
  let f (b : SessionAction) : SessionAction := if b.seq = a.seq then { b with lifecycle := a.lifecycle } else b
  { s with nextTurnBoundary := s.nextTurnBoundary.map f, whenRunIdle := s.whenRunIdle.map f }

def enqueue (s : ActionStore) (action : SessionAction) (placement : SessionActionPlacement) :
    Except ActionError ActionStore :=
  if action.lifecycle ≠ .queued then .error .notQueued
  else if s.tickets.contains action.id then .error (.duplicateId action.id)
  else
    let action := { action with seq := s.enqueued }
    let l := s.list action.delivery
    let index := insertionIndex l action placement
    .ok { s.setList action.delivery (l.take index ++ action :: l.drop index) with
      tickets := s.tickets ++ [action.id], enqueued := s.enqueued + 1 }

def transition (s : ActionStore) (seq : Nat) (next : ActionState) (rollbackProof : Option RollbackProof) :
    Except ActionError ActionStore :=
  match s.find seq with
  | none => .error .unknown
  | some a => (transitionSessionAction a next rollbackProof).map s.replace

def selectFirst (s : ActionStore) : Except ActionError ActionStore :=
  match (s.nextTurnBoundary.find? SessionAction.queued).or (s.whenRunIdle.find? SessionAction.queued) with
  | none => .ok s
  | some a => s.transition a.seq .selected none

/-- Actions are cancelled one after the other, until one cannot be. -/
def cancelAll : ActionStore → List Nat → ActionStore × Option ActionError
  | s, [] => (s, none)
  | s, seq :: rest =>
    match s.transition seq .cancelled none with
    | .error e => (s, some e)
    | .ok s' => cancelAll s' rest

def remove (s : ActionStore) (predicate : SessionAction → Bool) (candidates : Option (List Nat)) :
    ActionStore × Option ActionError :=
  let candidates := candidates.getD ((s.actions.filter fun a => a.lifecycle.clearable).map SessionAction.seq)
  s.cancelAll (candidates.filter fun seq => (s.find seq).any predicate)

def releaseTerminal (s : ActionStore) (seq : Nat) : Except ActionError ActionStore :=
  match s.find seq with
  | none => .error .unknown
  | some a =>
    if a.lifecycle.terminal = false then .error (.nonterminal a.id)
    else
      let s' := { s with tickets := s.tickets.filter (· ≠ a.id) }
      if (s.list a.delivery).any fun b => b.seq == seq then
        .ok { s'.setList a.delivery ((s.list a.delivery).eraseP fun b => b.seq == seq) with
          released := s.released ++ [a] }
      else .ok s'

/-- A call that throws leaves what it has done so far. -/
def orElse (s : ActionStore) : Except ActionError ActionStore → ActionStore
  | .ok s' => s'
  | .error _ => s

def step (s : ActionStore) : ActionOp → ActionStore
  | .enqueue action => s.orElse (s.enqueue action .priority)
  | .selectFirst => s.orElse s.selectFirst
  | .remove predicate candidates => (s.remove predicate candidates).1
  | .rollback seq rollbackProof => s.orElse (s.transition seq .queued rollbackProof)
  | .transition seq next rollbackProof => s.orElse (s.transition seq next rollbackProof)
  | .releaseTerminal seq => s.orElse (s.releaseTerminal seq)

def run (s : ActionStore) (ops : List ActionOp) : ActionStore := ops.foldl step s

/-! ## Order -/

/-- By priority, and inside a priority in the order of enqueueing. -/
def Before (a b : SessionAction) : Prop := b.rank < a.rank ∨ a.rank = b.rank ∧ a.seq < b.seq

instance : DecidableRel Before := fun a b =>
  inferInstanceAs (Decidable (b.rank < a.rank ∨ a.rank = b.rank ∧ a.seq < b.seq))

def Ordered (s : ActionStore) : Prop := ∀ policy, (s.queuedActions policy).Pairwise Before

/-- Every action that was enqueued is in one lane once, or released. -/
def Conserved (s : ActionStore) : Prop :=
  (s.actions.map SessionAction.seq ++ s.released.map SessionAction.seq).Perm (List.range s.enqueued) ∧
    ∀ policy, ∀ a ∈ s.list policy, a.delivery = policy

/-- An action of the list, or one behind it, is not queued. -/
def Barred (l : List SessionAction) (seq : Nat) : Prop :=
  ∃ front a back, l = front ++ a :: back ∧ a.seq = seq ∧ ∃ b ∈ a :: back, b.queued = false

/-- An action as urgent as `b`, and more so than `a`, was enqueued, `b` or an earlier one, while `a` or one behind it
was not queued. -/
def Overtaken (ops : List ActionOp) (policy : DeliveryPolicy) (a b : SessionAction) : Prop :=
  ∃ earlier action later, ops = earlier ++ ActionOp.enqueue action :: later ∧ action.delivery = policy ∧
    a.rank < action.rank ∧ b.rank ≤ action.rank ∧ (empty.run earlier).enqueued ≤ b.seq ∧
    ((empty.run earlier).enqueue action .priority).isOk = true ∧ Barred ((empty.run earlier).list policy) a.seq

/-- `a` may stand before `b`. -/
def Placed (ops : List ActionOp) (policy : DeliveryPolicy) (a b : SessionAction) : Prop :=
  Before a b ∨ a.rank < b.rank ∧ Overtaken ops policy a b

/-! ## What the calls keep -/

variable {policy : DeliveryPolicy} {a : SessionAction}

theorem Placed.congr {ops : List ActionOp} {b a' b' : SessionAction}
    (h : Placed ops policy a b) (harank : a'.rank = a.rank) (haseq : a'.seq = a.seq) (hbrank : b'.rank = b.rank)
    (hbseq : b'.seq = b.seq) : Placed ops policy a' b' := by
  rw [Placed, Before, Overtaken, harank, haseq, hbrank, hbseq]
  exact h

theorem Placed.later {ops : List ActionOp} {b : SessionAction}
    (h : Placed ops policy a b) (op : ActionOp) : Placed (ops ++ [op]) policy a b := by
  refine h.imp_right ?_
  rintro ⟨hrank, earlier, action, later, rfl, hrest⟩
  exact ⟨hrank, earlier, action, later ++ [op], by rw [append_assoc, cons_append], hrest⟩

theorem mem_actions {s : ActionStore} (h : a ∈ s.list policy) : a ∈ s.actions := by
  cases policy
  · exact mem_append_left _ h
  · exact mem_append_right _ h

theorem Conserved.lt {s : ActionStore} (h : s.Conserved) (ha : a ∈ s.list policy) : a.seq < s.enqueued := by
  rw [← mem_range, ← h.1.mem_iff]
  exact mem_append_left _ (mem_map_of_mem (mem_actions ha))

section Replace

variable {s : ActionStore} {a : SessionAction}

theorem list_replace (policy : DeliveryPolicy) : (s.replace a).list policy =
    (s.list policy).map fun b => if b.seq = a.seq then { b with lifecycle := a.lifecycle } else b := by
  cases policy <;> rfl

theorem seq_replace (b : SessionAction) :
    (if b.seq = a.seq then { b with lifecycle := a.lifecycle } else b).seq = b.seq := by
  split <;> rfl

theorem rank_replace (b : SessionAction) :
    (if b.seq = a.seq then { b with lifecycle := a.lifecycle } else b).rank = b.rank := by
  split <;> rfl

theorem delivery_replace (b : SessionAction) :
    (if b.seq = a.seq then { b with lifecycle := a.lifecycle } else b).delivery = b.delivery := by
  split <;> rfl

theorem Conserved.replace (h : s.Conserved) : (s.replace a).Conserved := by
  refine ⟨?_, ?_⟩
  · have hseq : (s.replace a).actions.map SessionAction.seq = s.actions.map SessionAction.seq := by
      rw [actions, actions, map_append, map_append]
      simp only [ActionStore.replace, map_map]
      congr 1 <;> exact map_congr_left fun b _ => seq_replace b
    rw [hseq]
    exact h.1
  · intro policy b hb
    rw [list_replace] at hb
    obtain ⟨c, hc, rfl⟩ := mem_map.1 hb
    rw [delivery_replace]
    exact h.2 policy c hc

end Replace

/-! ## Enqueueing -/

section Enqueue

variable {s : ActionStore} {action : SessionAction} {l : List SessionAction}

/-- The place that is found: what comes after it is queued and of lower priority, what comes last before it is not. -/
theorem insertion_split (l : List SessionAction) (action : SessionAction) :
    ∃ before after, l = before ++ after ∧ insertionIndex l action .priority = before.length ∧
      (∀ b ∈ after, b.queued = true ∧ b.rank < action.rank) ∧
      ∀ front b, before = front ++ [b] → ¬ (b.queued = true ∧ b.rank < action.rank) := by
  let p := fun item : SessionAction => item.queued && decide (item.rank < action.rank)
  refine ⟨l.rdropWhile p, l.rtakeWhile p, (rdropWhile_append_rtakeWhile ..).symm, rfl, ?_, ?_⟩
  · intro b hb
    simpa [p] using mem_rtakeWhile_imp hb
  · intro front b hb
    have hne : l.rdropWhile p ≠ [] := by simp [hb]
    have hlast := rdropWhile_last_not p l hne
    simpa [p, hb] using hlast

variable {s' : ActionStore}

/-- What the caller of `enqueue` sees: the action is put into its lane, and nothing else changes. -/
theorem enqueue_ok (h : s.enqueue action .priority = .ok s') :
    action.lifecycle = .queued ∧ s.tickets.contains action.id = false ∧
      ∃ before after, s.list action.delivery = before ++ after ∧
        insertionIndex (s.list action.delivery) { action with seq := s.enqueued } .priority = before.length ∧
        (∀ b ∈ after, b.queued = true ∧ b.rank < action.rank) ∧
        (∀ front b, before = front ++ [b] → ¬ (b.queued = true ∧ b.rank < action.rank)) ∧
        s' = { s.setList action.delivery (before ++ { action with seq := s.enqueued } :: after) with
          tickets := s.tickets ++ [action.id], enqueued := s.enqueued + 1 } := by
  rw [enqueue] at h
  split at h
  · cases h
  · rename_i hqueued
    split at h
    · cases h
    · rename_i hfresh
      obtain ⟨before, after, hl, hindex, hafter, hbefore⟩ :=
        insertion_split (s.list action.delivery) { action with seq := s.enqueued }
      refine ⟨not_not.1 hqueued, Bool.eq_false_iff.2 hfresh, before, after, hl, hindex, hafter, hbefore, ?_⟩
      simp only [hindex] at h
      cases h
      rw [hl, take_left, drop_left]

theorem list_setList (s : ActionStore) (policy other : DeliveryPolicy) (l : List SessionAction) :
    (s.setList policy l).list other = if other = policy then l else s.list other := by
  cases policy <;> cases other <;> rfl

theorem Conserved.enqueue (h : s.Conserved) (hok : s.enqueue action .priority = .ok s') : s'.Conserved := by
  obtain ⟨-, -, before, after, hl, -, -, -, rfl⟩ := enqueue_ok hok
  refine ⟨?_, ?_⟩
  · have hactions : (s.setList action.delivery (before ++ { action with seq := s.enqueued } :: after)).actions.Perm
        ({ action with seq := s.enqueued } :: s.actions) := by
      cases hdelivery : action.delivery with
      | nextTurnBoundary =>
        rw [hdelivery] at hl
        have hl' : s.nextTurnBoundary = before ++ after := hl
        simp only [actions, setList, hl', append_assoc, cons_append]
        exact perm_middle
      | whenRunIdle =>
        rw [hdelivery] at hl
        have hl' : s.whenRunIdle = before ++ after := hl
        simp only [actions, setList, hl', ← append_assoc]
        exact perm_middle
    have hreleased : (s.setList action.delivery (before ++ { action with seq := s.enqueued } :: after)).released =
        s.released := by
      cases action.delivery <;> rfl
    have hseq := (hactions.map SessionAction.seq).append_right (s.released.map SessionAction.seq)
    rw [← hreleased] at hseq
    refine hseq.trans ?_
    rw [range_succ, map_cons, cons_append, hreleased]
    exact (h.1.cons _).trans (perm_append_singleton _ _).symm
  · intro policy b hb
    have hlist : b ∈ (s.setList action.delivery
        (before ++ { action with seq := s.enqueued } :: after)).list policy := by
      cases policy <;> exact hb
    rw [list_setList] at hlist
    split at hlist
    · rename_i hpolicy
      rw [hpolicy]
      rw [mem_append, mem_cons] at hlist
      have hold : ∀ c ∈ before ++ after, c.delivery = action.delivery := by
        intro c hc
        exact h.2 _ c (hl ▸ hc)
      obtain hmem | rfl | hmem := hlist
      · exact hold b (mem_append_left _ hmem)
      · rfl
      · exact hold b (mem_append_right _ hmem)
    · exact h.2 policy b hlist

/-- Where the action is put: behind what is as urgent, or behind what keeps it back. -/
theorem placed_enqueue {ops : List ActionOp} (hs : s = empty.run ops)
    (h : (s.list action.delivery).Pairwise (Placed ops action.delivery)) (hconserved : s.Conserved)
    (hok : s.enqueue action .priority = .ok s') {before after : List SessionAction}
    (hl : s.list action.delivery = before ++ after)
    (hbefore : ∀ front b, before = front ++ [b] → ¬ (b.queued = true ∧ b.rank < action.rank))
    {b : SessionAction} (hb : b ∈ before) :
    Placed (ops ++ [ActionOp.enqueue action]) action.delivery b { action with seq := s.enqueued } := by
  have hseq : b.seq < s.enqueued := hconserved.lt (hl ▸ mem_append_left after hb : b ∈ s.list action.delivery)
  by_cases hlow : action.rank ≤ b.rank
  · obtain hlt | heq := Nat.lt_or_eq_of_le hlow
    · exact .inl (.inl hlt)
    · exact .inl (.inr ⟨heq.symm, hseq⟩)
  have hlow : b.rank < action.rank := Nat.lt_of_not_le hlow
  refine .inr ⟨hlow, ?_⟩
  obtain hnil | ⟨front, last, hlast⟩ := before.eq_nil_or_concat
  · rw [hnil] at hb
    cases hb
  rw [concat_eq_append] at hlast
  have hstops := hbefore front last hlast
  rw [hlast, append_assoc] at hl
  by_cases hq : last.queued = true
  · -- The last one before the place is as urgent: what it could not overtake is not overtaken now.
    have hurgent : action.rank ≤ last.rank := Nat.le_of_not_lt fun hlt => hstops ⟨hq, hlt⟩
    rw [hl, pairwise_append] at h
    rw [hlast, mem_append, mem_singleton] at hb
    obtain hb | rfl := hb
    · obtain hbefore | ⟨-, hovertaken⟩ := h.2.2 b hb last mem_cons_self
      · have hrank : last.rank ≤ b.rank := hbefore.elim Nat.le_of_lt fun heq => Nat.le_of_eq heq.1.symm
        omega
      · obtain ⟨earlier, x, later, rfl, hdelivery, hrank, hlast', hcount, hrest⟩ := hovertaken
        have hlastseq : last.seq < s.enqueued :=
          hconserved.lt (hl ▸ mem_append_right front mem_cons_self : last ∈ s.list action.delivery)
        exact ⟨earlier, x, later ++ [ActionOp.enqueue action], by rw [append_assoc, cons_append],
          hdelivery, hrank, hurgent.trans hlast', hcount.trans (Nat.le_of_lt hlastseq), hrest⟩
    · omega
  · refine ⟨ops, action, [], rfl, rfl, hlow, Nat.le_refl _, hs ▸ Nat.le_refl _, ?_, ?_⟩
    · rw [← hs, hok]
      rfl
    · rw [← hs, hl]
      rw [hlast, mem_append, mem_singleton] at hb
      obtain hb | rfl := hb
      · obtain ⟨front₁, front₂, rfl⟩ := append_of_mem hb
        refine ⟨front₁, b, front₂ ++ ([last] ++ after), by simp, rfl, last, ?_, Bool.eq_false_iff.2 hq⟩
        simp
      · exact ⟨front, b, after, rfl, rfl, b, mem_cons_self, Bool.eq_false_iff.2 hq⟩

end Enqueue

/-! ## Transitions and release -/

section Calls

variable {s s' : ActionStore} {seq : Nat} {next : ActionState} {rollbackProof : Option RollbackProof}

theorem transitionSessionAction_ok {a a' : SessionAction}
    (h : transitionSessionAction a next rollbackProof = .ok a') : a' = { a with lifecycle := next } := by
  unfold transitionSessionAction at h
  split at h
  · cases h
  · split at h
    · split at h
      · cases h
      · split at h
        · cases h
        · split at h
          · cases h
          · exact (Except.ok.inj h).symm
    · exact (Except.ok.inj h).symm

theorem find_seq {a : SessionAction} (h : s.find seq = some a) : a.seq = seq := by
  have hseq := find?_some h
  exact beq_iff_eq.1 hseq

theorem transition_ok (h : s.transition seq next rollbackProof = .ok s') :
    ∃ a a', s.find seq = some a ∧ transitionSessionAction a next rollbackProof = .ok a' ∧ a'.seq = seq ∧
      a'.lifecycle = next ∧ s' = s.replace a' := by
  rw [transition] at h
  split at h
  · cases h
  · rename_i a hfind
    cases hresult : transitionSessionAction a next rollbackProof with
    | error e =>
      rw [hresult] at h
      cases h
    | ok a' =>
      rw [hresult] at h
      cases h
      obtain rfl := transitionSessionAction_ok hresult
      have hseq : a.seq = seq := find_seq hfind
      exact ⟨a, _, hfind, hresult, hseq, rfl, rfl⟩

theorem releaseTerminal_ok (h : s.releaseTerminal seq = .ok s') :
    (∀ policy, s'.list policy = s.list policy) ∧ s'.released = s.released ∧ s'.enqueued = s.enqueued ∨
      ∃ a b, a.seq = seq ∧ b.seq = seq ∧ (s.list a.delivery).Perm (b :: s'.list a.delivery) ∧
        (s'.list a.delivery).Sublist (s.list a.delivery) ∧
        (∀ policy, policy ≠ a.delivery → s'.list policy = s.list policy) ∧
        s'.released = s.released ++ [a] ∧ s'.enqueued = s.enqueued := by
  rw [releaseTerminal] at h
  split at h
  · cases h
  · rename_i a hfind
    split at h
    · cases h
    · simp only at h
      split at h
      · rename_i hany
        right
        obtain ⟨b, hb, hbseq⟩ := any_eq_true.1 hany
        obtain ⟨c, l₁, l₂, -, hc, hl, herase⟩ := @List.exists_of_eraseP _ (fun b => b.seq == seq) _ b hb hbseq
        cases h
        have hlist : ∀ policy, ({ ({ s with tickets := s.tickets.filter (· ≠ a.id) } : ActionStore).setList a.delivery
            ((s.list a.delivery).eraseP fun b => b.seq == seq) with released := s.released ++ [a] } : ActionStore).list
              policy = if policy = a.delivery then (s.list a.delivery).eraseP fun b => b.seq == seq
                else s.list policy := by
          intro policy
          rw [← list_setList]
          cases a.delivery <;> cases policy <;> rfl
        refine ⟨a, c, find_seq hfind, beq_iff_eq.1 hc, ?_, ?_, ?_, rfl, ?_⟩
        · rw [hlist, if_pos rfl, herase, hl]
          exact perm_middle
        · rw [hlist, if_pos rfl]
          exact eraseP_sublist
        · intro policy hpolicy
          rw [hlist, if_neg hpolicy]
        · cases a.delivery <;> rfl
      · left
        cases h
        refine ⟨?_, rfl, rfl⟩
        intro policy
        cases policy <;> rfl

theorem releaseTerminal_sublist (h : s.releaseTerminal seq = .ok s') (policy : DeliveryPolicy) :
    (s'.list policy).Sublist (s.list policy) := by
  obtain ⟨hlist, -, -⟩ | ⟨a, b, -, -, -, hsub, hother, -, -⟩ := releaseTerminal_ok h
  · rw [hlist]
  · by_cases hpolicy : policy = a.delivery
    · rw [hpolicy]
      exact hsub
    · rw [hother policy hpolicy]

theorem Conserved.releaseTerminal (h : s.Conserved) (hok : s.releaseTerminal seq = .ok s') : s'.Conserved := by
  refine ⟨?_, fun policy a ha => h.2 policy a ((releaseTerminal_sublist hok policy).subset ha)⟩
  obtain ⟨hlist, hreleased, henqueued⟩ | ⟨a, b, ha, hb, hperm, -, hother, hreleased, henqueued⟩ :=
    releaseTerminal_ok hok
  · have hactions : s'.actions = s.actions := congrArg₂ _ (hlist .nextTurnBoundary) (hlist .whenRunIdle)
    rw [hactions, hreleased, henqueued]
    exact h.1
  · have hactions : s.actions.Perm (b :: s'.actions) := by
      cases hdelivery : a.delivery with
      | nextTurnBoundary =>
        rw [hdelivery] at hperm
        have hidle : s'.whenRunIdle = s.whenRunIdle := hother .whenRunIdle (by rw [hdelivery]; nofun)
        rw [actions, actions, hidle]
        exact hperm.append_right _
      | whenRunIdle =>
        rw [hdelivery] at hperm
        have hboundary : s'.nextTurnBoundary = s.nextTurnBoundary :=
          hother .nextTurnBoundary (by rw [hdelivery]; nofun)
        rw [actions, actions, hboundary]
        exact (hperm.append_left _).trans perm_middle
    rw [hreleased, henqueued, map_append, map_singleton, ha, ← append_assoc]
    refine .trans ?_ h.1
    have hseq := (hactions.map SessionAction.seq).append_right (s.released.map SessionAction.seq)
    rw [map_cons, hb] at hseq
    exact (perm_append_singleton _ _).trans hseq.symm

end Calls

/-! ## Runs -/

/-- What holds after the calls `ops`. -/
structure Inv (ops : List ActionOp) (s : ActionStore) : Prop where
  conserved : s.Conserved
  placed : ∀ policy, (s.list policy).Pairwise (Placed ops policy)

section Runs

variable {s : ActionStore} {ops : List ActionOp}

theorem Inv.later (h : Inv ops s) (op : ActionOp) : Inv (ops ++ [op]) s :=
  ⟨h.conserved, fun policy => (h.placed policy).imp fun hab => hab.later op⟩

variable {s' : ActionStore}

theorem Inv.transition {seq : Nat} {next : ActionState} {rollbackProof : Option RollbackProof}
    (h : Inv ops s) (hok : s.transition seq next rollbackProof = .ok s') : Inv ops s' := by
  obtain ⟨a, a', -, -, -, -, rfl⟩ := transition_ok hok
  refine ⟨h.conserved.replace, ?_⟩
  intro policy
  rw [list_replace, pairwise_map]
  refine (h.placed policy).imp ?_
  intro b c hbc
  exact hbc.congr (rank_replace b) (seq_replace b) (rank_replace c) (seq_replace c)

theorem Inv.cancelAll (h : Inv ops s) (seqs : List Nat) : Inv ops (s.cancelAll seqs).1 := by
  induction seqs generalizing s with
  | nil => exact h
  | cons seq rest ih =>
    rw [ActionStore.cancelAll]
    cases hok : s.transition seq .cancelled none with
    | error e => exact h
    | ok s' => exact ih (h.transition hok)

theorem Inv.enqueue {action : SessionAction} (h : Inv ops s) (hs : s = empty.run ops)
    (hok : s.enqueue action .priority = .ok s') : Inv (ops ++ [ActionOp.enqueue action]) s' := by
  refine ⟨h.conserved.enqueue hok, ?_⟩
  obtain ⟨-, -, before, after, hl, -, hafter, hbefore, hs'⟩ := enqueue_ok hok
  have hlist : ∀ policy, s'.list policy =
      if policy = action.delivery then before ++ { action with seq := s.enqueued } :: after else s.list policy := by
    intro policy
    rw [← list_setList, hs']
    cases policy <;> rfl
  intro policy
  rw [hlist]
  split
  · rename_i hpolicy
    have hplaced := (h.later (.enqueue action)).placed action.delivery
    rw [hpolicy]
    rw [hl, pairwise_append] at hplaced
    rw [pairwise_append, pairwise_cons]
    refine ⟨hplaced.1, ⟨?_, hplaced.2.1⟩, ?_⟩
    · intro b hb
      exact .inl (.inl (hafter b hb).2)
    · intro b hb c hc
      obtain rfl | hc := mem_cons.1 hc
      · exact placed_enqueue hs (h.placed action.delivery) h.conserved hok hl hbefore hb
      · exact hplaced.2.2 b hb c hc
  · exact (h.later (.enqueue action)).placed policy

theorem selectFirst_ok (h : s.selectFirst = .ok s') : s' = s ∨ ∃ seq, s.transition seq .selected none = .ok s' := by
  rw [selectFirst] at h
  split at h
  · exact .inl (Except.ok.inj h).symm
  · exact .inr ⟨_, h⟩

theorem orElse_induction {P : ActionStore → Prop} {result : Except ActionError ActionStore} (h : P s)
    (hok : ∀ s', result = .ok s' → P s') : P (s.orElse result) := by
  cases result with
  | error e => exact h
  | ok s' => exact hok s' rfl

theorem Inv.step (h : Inv ops s) (hs : s = empty.run ops) (op : ActionOp) : Inv (ops ++ [op]) (s.step op) := by
  cases op with
  | enqueue action => exact orElse_induction (h.later _) fun s' hok => h.enqueue hs hok
  | selectFirst =>
    refine orElse_induction (h.later _) fun s' hok => ?_
    obtain rfl | ⟨seq, hok⟩ := selectFirst_ok hok
    · exact h.later _
    · exact (h.later _).transition hok
  | remove predicate candidates => exact (h.later _).cancelAll _
  | rollback | transition => exact orElse_induction (h.later _) fun s' hok => (h.later _).transition hok
  | releaseTerminal seq =>
    refine orElse_induction (h.later _) fun s' hok => ⟨h.conserved.releaseTerminal hok, ?_⟩
    intro policy
    exact ((h.later _).placed policy).sublist (releaseTerminal_sublist hok policy)

theorem inv_run (ops : List ActionOp) : Inv ops (empty.run ops) := by
  induction ops using reverseRecOn with
  | nil =>
    refine ⟨⟨List.Perm.refl _, ?_⟩, ?_⟩
    · intro policy a ha
      cases policy <;> cases ha
    · intro policy
      cases policy <;> exact List.Pairwise.nil
  | append_singleton ops op ih =>
    have hrun : empty.run (ops ++ [op]) = (empty.run ops).step op := foldl_append
    rw [hrun]
    exact ih.step rfl op

end Runs

/-- After any calls the queued actions of a lane are in order, but that an action stays before more urgent ones if
the first of these came when it, or one behind it, was not queued; and every action is in its lane once until it
is released. -/
theorem placed_of_run (ops : List ActionOp) :
    (∀ policy, ((empty.run ops).queuedActions policy).Pairwise (Placed ops policy)) ∧ (empty.run ops).Conserved :=
  ⟨fun policy => ((inv_run ops).placed policy).sublist filter_sublist, (inv_run ops).conserved⟩

def machine (id : String) : SessionAction := ⟨id, 0, .nextTurnBoundary, .background, [], .queued⟩

def human (id : String) : SessionAction := ⟨id, 0, .nextTurnBoundary, .user, [], .queued⟩

/-- An action that is selected, and rolled back after a more urgent one has come. -/
theorem rollback_keeps_place : ¬ (empty.run [.enqueue (machine "a"), .selectFirst, .enqueue (human "b"),
    .rollback 0 none]).Ordered := by
  intro h
  have hboundary := h .nextTurnBoundary
  revert hboundary
  decide

end ActionStore
end Core
end RePrime
