import RePrime.Lib.History
import RePrime.AgentConnection.Connection

/-!
# RePrime.AgentConnection.EventStream

Worker generations, each of which numbers its events, and snapshots, as they reach one connection.

* `Connection.Inv`: every cursor in the log is of a retired generation or not beyond the last cursor.
* `consistent_of_run`: while snapshots and deferred events of retired generations stay away, nothing is
  applied twice, and no generation comes back.
-/

namespace RePrime
namespace AgentConnection

open List
open Connection

/-! ## Runs -/

inductive Action where
  | message (message : DaemonOutbound)
  | attached (revision : Nat) (activeSessionId : String) (result : Option DaemonAttachResult)
  | flush

namespace Connection

def step (c : Connection) : Action → Connection
  | .message message => c.handleDaemonMessage message
  | .attached revision activeSessionId result => c.attached revision activeSessionId result
  | .flush => c.flushBufferedSessionEvents

def run (c : Connection) (acts : List Action) : Connection := acts.foldl step c

/-- A session event was handed on to the listeners. -/
def HandedOn (log : List Happening) (k : DaemonEventCursor) : Prop :=
  ∃ event, .emitted (.sessionEvent event) (some k) ∈ log

/-- What a new event or snapshot may be after. -/
def Follows (past : List Happening) : Happening → Prop
  | .taken k => .retired k.generation ∉ past ∧ ∀ m, .taken m ∈ past ∨ .snapshot m ∈ past →
      m.generation = k.generation → m.sequence < k.sequence
  | .emitted (.sessionEvent _) (some k) => .retired k.generation ∉ past ∧
      ∀ m, HandedOn past m ∨ .snapshot m ∈ past → m.generation = k.generation → m.sequence < k.sequence
  | _ => True

/-- Messages are taken, and session events handed on, above all that was applied of their generation and
never after it was retired; the generation of the connection is none that it has retired; and a snapshot
leaves exactly the newer deferred events of its generation. -/
structure Consistent (c : Connection) : Prop where
  order : History.Each Follows c.log
  current : ∀ last, c.lastEventCursor = some last → .retired last.generation ∉ c.log
  kept : ∀ snapshot d, d ∈ (c.applySessionSnapshot snapshot).deferredSessionEvents ↔
    d ∈ c.deferredSessionEvents ∧ d.generation = snapshot.generation ∧
      ∃ n, d.sequence = some n ∧ snapshot.lastEventSequence < n

/-! ## The condition -/

/-- A cursor that does not lead back to a retired generation. -/
def current (c : Connection) (cursor : Option DaemonEventCursor) : Bool :=
  cursor.all fun k => decide (k.generation ∉ c.retiredEventGenerations)

def applies (c : Connection) : Purpose → Bool
  | .attach revision => decide (revision = some c.sessionRevision)
  | _ => true

/-- A snapshot is not applied that is of a retired generation, and deferred events are not handed on that are. -/
def staysCurrent (c : Connection) : Action → Bool
  | .message message =>
    c.closed || message.activeSessionId != c.activeSessionId ||
      match message.body with
      | .sessionSnapshotEnd purpose snapshot => !c.applies purpose || c.current snapshot.lastEventCursor
      | .sessionResynced snapshot =>
        c.isStaleSequencedMessage message.stamp ||
          (c.observeDaemonEventSequence message.stamp).current snapshot.lastEventCursor
      | _ => true
  | .attached revision activeSessionId result =>
    c.closed || revision != c.sessionRevision ||
      result.all fun result => c.current result.lastEventCursor &&
        ({ c with activeSessionId }.observeAttachCursor result).current result.snapshot.lastEventCursor
  | .flush => !c.deferSessionEvents || c.closed || c.deferredSessionEvents.all fun d => c.current (Deferred.cursor? d)

def staysCurrentAll : Connection → List Action → Bool
  | _, [] => true
  | c, act :: rest => c.staysCurrent act && (c.step act).staysCurrentAll rest

/-! ## The invariant -/

/-- `k` is of a retired generation, or not beyond the last cursor. -/
def Covers (c : Connection) (k : DaemonEventCursor) : Prop :=
  k.generation ∈ c.retiredEventGenerations ∨
    ∃ last, c.lastEventCursor = some last ∧ last.generation = k.generation ∧ k.sequence ≤ last.sequence

/-- A session event or a snapshot of this cursor has reached the client. -/
def Applied (log : List Happening) (k : DaemonEventCursor) : Prop := HandedOn log k ∨ .snapshot k ∈ log

def Below (k m : DaemonEventCursor) : Prop := k.generation = m.generation → k.sequence < m.sequence

structure Inv (c : Connection) : Prop where
  covered : ∀ k, .taken k ∈ c.log ∨ Applied c.log k → c.Covers k
  deferred : ∀ d ∈ c.deferredSessionEvents, ∀ k, Deferred.cursor? d = some k →
    c.Covers k ∧ ∀ m, Applied c.log m → Below m k
  sorted : c.deferredSessionEvents.Pairwise fun d d' =>
    ∀ k k', Deferred.cursor? d = some k → Deferred.cursor? d' = some k' → Below k k'
  idle : c.deferSessionEvents = false → c.deferredSessionEvents = []
  retired : ∀ g, .retired g ∈ c.log ↔ g ∈ c.retiredEventGenerations
  last : ∀ last, c.lastEventCursor = some last → last.generation ∉ c.retiredEventGenerations
  order : History.Each Follows c.log

section Invariant

variable {c c' : Connection} {cursor k : DaemonEventCursor}

theorem inv_new (activeSessionId : String) (deferSessionEvents : Bool) :
    (new activeSessionId deferSessionEvents).Inv where
  covered k h := by simp [new, Applied, HandedOn] at h
  deferred d h := by cases h
  sorted := .nil
  idle _ := rfl
  retired g := by simp [new]
  last last h := by cases h
  order := History.each_nil

theorem Inv.congr (h : c.Inv) (hcursor : c'.lastEventCursor = c.lastEventCursor)
    (hretired : c'.retiredEventGenerations = c.retiredEventGenerations)
    (hdeferred : c'.deferredSessionEvents = c.deferredSessionEvents)
    (hdefer : c'.deferSessionEvents = c.deferSessionEvents) (hlog : c'.log = c.log) : c'.Inv := by
  have hcovers : ∀ k, c'.Covers k ↔ c.Covers k := fun k => by rw [Covers, Covers, hcursor, hretired]
  constructor
  · simpa only [hcovers, hlog] using h.covered
  · simpa only [hcovers, hlog, hdeferred] using h.deferred
  · rw [hdeferred]
    exact h.sorted
  · rw [hdeferred, hdefer]
    exact h.idle
  · rw [hlog, hretired]
    exact h.retired
  · rw [hcursor, hretired]
    exact h.last
  · rw [hlog]
    exact h.order

/-! ### Cursors -/

theorem observeEventCursor_cases (c : Connection) (cursor : DaemonEventCursor) :
    (c.lastEventCursor = none ∧ c.observeEventCursor cursor =
      { c with lastEventSequence := some cursor.sequence, lastEventCursor := some cursor }) ∨
    (∃ current, c.lastEventCursor = some current ∧ current.generation ≠ cursor.generation ∧
      c.observeEventCursor cursor = { c with
          lastEventSequence := some cursor.sequence
          retiredEventGenerations := c.retiredEventGenerations.insert current.generation
          lastEventCursor := some cursor
          log := c.log ++ [Happening.retired current.generation] }) ∨
    (∃ current, c.lastEventCursor = some current ∧ current.generation = cursor.generation ∧
      current.sequence < cursor.sequence ∧ c.observeEventCursor cursor = { c with lastEventCursor := some cursor }) ∨
    ∃ current, c.lastEventCursor = some current ∧ current.generation = cursor.generation ∧
      cursor.sequence ≤ current.sequence ∧ c.observeEventCursor cursor = c := by
  rw [observeEventCursor]
  cases hlast : c.lastEventCursor with
  | none => exact .inl ⟨rfl, rfl⟩
  | some current =>
    right
    by_cases hgen : current.generation = cursor.generation
    · right
      by_cases hseq : current.sequence < cursor.sequence
      · left
        simp [hgen, hseq]
      · right
        exact ⟨current, rfl, hgen, Nat.le_of_not_lt hseq, by simp [hgen, hseq]⟩
    · left
      exact ⟨current, rfl, hgen, by simp [hgen]⟩

theorem Covers.observe (h : c.Covers k) : (c.observeEventCursor cursor).Covers k := by
  obtain ⟨hlast, heq⟩ | ⟨current, hlast, hgen, heq⟩ | ⟨current, hlast, hgen, hseq, heq⟩ |
    ⟨current, hlast, hgen, hseq, heq⟩ := c.observeEventCursor_cases cursor
  · rw [heq]
    obtain hr | ⟨last, hlast', -⟩ := h
    · exact .inl hr
    · rw [hlast] at hlast'
      cases hlast'
  · rw [heq]
    obtain hr | ⟨last, hlast', hgen', -⟩ := h
    · exact .inl (mem_insert_of_mem hr)
    · rw [hlast] at hlast'
      cases hlast'
      left
      rw [← hgen']
      exact mem_insert_self
  · rw [heq]
    obtain hr | ⟨last, hlast', hgen', hseq'⟩ := h
    · exact .inl hr
    · rw [hlast] at hlast'
      cases hlast'
      exact .inr ⟨cursor, rfl, hgen.symm.trans hgen', Nat.le_of_lt (Nat.lt_of_le_of_lt hseq' hseq)⟩
  · rw [heq]
    exact h

theorem covers_observe_self (c : Connection) (cursor : DaemonEventCursor) :
    (c.observeEventCursor cursor).Covers cursor := by
  obtain ⟨hlast, heq⟩ | ⟨current, hlast, hgen, heq⟩ | ⟨current, hlast, hgen, hseq, heq⟩ |
    ⟨current, hlast, hgen, hseq, heq⟩ := c.observeEventCursor_cases cursor
  · rw [heq]
    exact .inr ⟨cursor, rfl, rfl, Nat.le_refl _⟩
  · rw [heq]
    exact .inr ⟨cursor, rfl, rfl, Nat.le_refl _⟩
  · rw [heq]
    exact .inr ⟨cursor, rfl, rfl, Nat.le_refl _⟩
  · rw [heq]
    exact .inr ⟨current, hlast, hgen, hseq⟩

variable {x : Happening}

theorem mem_observe_log (hx : ∀ g, x ≠ .retired g) : x ∈ (c.observeEventCursor cursor).log ↔ x ∈ c.log := by
  obtain ⟨hlast, heq⟩ | ⟨current, hlast, hgen, heq⟩ | ⟨current, hlast, hgen, hseq, heq⟩ |
    ⟨current, hlast, hgen, hseq, heq⟩ := c.observeEventCursor_cases cursor
  · rw [heq]
  · rw [heq]
    simp [hx]
  · rw [heq]
  · rw [heq]

theorem applied_observe : Applied (c.observeEventCursor cursor).log k ↔ Applied c.log k := by
  simp [Applied, HandedOn, mem_observe_log]

theorem deferred_observe : (c.observeEventCursor cursor).deferredSessionEvents = c.deferredSessionEvents := by
  obtain ⟨-, heq⟩ | ⟨_, -, -, heq⟩ | ⟨_, -, -, -, heq⟩ | ⟨_, -, -, -, heq⟩ :=
    c.observeEventCursor_cases cursor <;> rw [heq]

theorem deferSessionEvents_observe : (c.observeEventCursor cursor).deferSessionEvents = c.deferSessionEvents := by
  obtain ⟨-, heq⟩ | ⟨_, -, -, heq⟩ | ⟨_, -, -, -, heq⟩ | ⟨_, -, -, -, heq⟩ :=
    c.observeEventCursor_cases cursor <;> rw [heq]

/-- A cursor of a generation that is not retired can be observed; its generation is then still not retired. -/
theorem Inv.observe (h : c.Inv) (hcursor : cursor.generation ∉ c.retiredEventGenerations) :
    (c.observeEventCursor cursor).Inv ∧
      cursor.generation ∉ (c.observeEventCursor cursor).retiredEventGenerations := by
  have hcases := c.observeEventCursor_cases cursor
  have hretired : cursor.generation ∉ (c.observeEventCursor cursor).retiredEventGenerations := by
    obtain ⟨-, heq⟩ | ⟨current, -, hgen, heq⟩ | ⟨_, -, -, -, heq⟩ | ⟨_, -, -, -, heq⟩ := hcases
    · rw [heq]
      exact hcursor
    · rw [heq]
      intro hmem
      obtain hsame | hold := mem_insert_iff.1 hmem
      · exact hgen hsame.symm
      · exact hcursor hold
    · rw [heq]
      exact hcursor
    · rw [heq]
      exact hcursor
  refine ⟨⟨?_, ?_, ?_, ?_, ?_, ?_, ?_⟩, hretired⟩
  · intro k hk
    rw [applied_observe, mem_observe_log (by simp)] at hk
    exact (h.covered k hk).observe
  · intro d hd k hk
    rw [deferred_observe] at hd
    obtain ⟨hcovers, habove⟩ := h.deferred d hd k hk
    exact ⟨hcovers.observe, fun m hm => habove m (applied_observe.1 hm)⟩
  · rw [deferred_observe]
    exact h.sorted
  · rw [deferred_observe, deferSessionEvents_observe]
    exact h.idle
  · intro g
    obtain ⟨-, heq⟩ | ⟨current, -, -, heq⟩ | ⟨_, -, -, -, heq⟩ | ⟨_, -, -, -, heq⟩ := hcases
    · rw [heq]
      exact h.retired g
    · rw [heq]
      simp only [mem_append, h.retired g, mem_singleton, mem_insert_iff, Happening.retired.injEq]
      exact or_comm
    · rw [heq]
      exact h.retired g
    · rw [heq]
      exact h.retired g
  · intro last hlast
    obtain ⟨-, heq⟩ | ⟨current, -, -, heq⟩ | ⟨_, -, -, -, heq⟩ | ⟨_, -, -, -, heq⟩ := hcases
    · rw [heq] at hlast hretired ⊢
      cases hlast
      exact hretired
    · rw [heq] at hlast hretired ⊢
      cases hlast
      exact hretired
    · rw [heq] at hlast hretired ⊢
      cases hlast
      exact hretired
    · rw [heq] at hlast ⊢
      exact h.last last hlast
  · obtain ⟨-, heq⟩ | ⟨current, -, -, heq⟩ | ⟨_, -, -, -, heq⟩ | ⟨_, -, -, -, heq⟩ := hcases
    · rw [heq]
      exact h.order
    · rw [heq]
      exact History.each_concat h.order trivial
    · rw [heq]
      exact h.order
    · rw [heq]
      exact h.order

/-! ### Messages -/

/-- An entry of the log whose cursor is `k`. -/
def Notes (x : Happening) (k : DaemonEventCursor) : Prop :=
  x = .taken k ∨ x = .snapshot k ∨ ∃ event, x = .emitted (.sessionEvent event) (some k)

theorem applied_concat {log : List Happening} :
    Applied (log ++ [x]) k ↔
      Applied log k ∨ x = .snapshot k ∨ ∃ event, x = .emitted (.sessionEvent event) (some k) := by
  constructor
  · rintro (⟨event, h⟩ | h)
    · obtain h | h := mem_append.1 h
      · exact .inl (.inl ⟨event, h⟩)
      · exact .inr (.inr ⟨event, (mem_singleton.1 h).symm⟩)
    · obtain h | h := mem_append.1 h
      · exact .inl (.inr h)
      · exact .inr (.inl (mem_singleton.1 h).symm)
  · rintro ((⟨event, h⟩ | h) | rfl | ⟨event, rfl⟩)
    · exact .inl ⟨event, mem_append_left _ h⟩
    · exact .inr (mem_append_left _ h)
    · exact .inr (by simp)
    · exact .inl ⟨event, by simp⟩

theorem Inv.logged (h : c.Inv) (hfollows : Follows c.log x) (hretired : ∀ g, x ≠ .retired g)
    (hcovers : ∀ k, Notes x k → c.Covers k)
    (hdeferred : ∀ m, x = .snapshot m ∨ (∃ event, x = .emitted (.sessionEvent event) (some m)) →
      ∀ d ∈ c.deferredSessionEvents, ∀ k, Deferred.cursor? d = some k → Below m k) :
    { c with log := c.log ++ [x] }.Inv where
  covered k hk := by
    show c.Covers k
    obtain hk | hk := hk
    · obtain hk | hk := mem_append.1 hk
      · exact h.covered k (.inl hk)
      · exact hcovers k (.inl (mem_singleton.1 hk).symm)
    · obtain hk | hk := applied_concat.1 hk
      · exact h.covered k (.inr hk)
      · exact hcovers k (.inr hk)
  deferred d hd k hk := by
    obtain ⟨hcov, habove⟩ := h.deferred d hd k hk
    refine ⟨hcov, fun m hm => ?_⟩
    obtain hm | hm := applied_concat.1 hm
    · exact habove m hm
    · exact hdeferred m hm d hd k hk
  sorted := h.sorted
  idle := h.idle
  retired g := by
    rw [← h.retired g, mem_append, mem_singleton]
    exact or_iff_left fun hx => hretired g hx.symm
  last := h.last
  order := History.each_concat h.order hfollows

/-- The cursor of a message that was just taken. -/
structure Newest (c : Connection) (k : DaemonEventCursor) : Prop where
  fresh : k.generation ∉ c.retiredEventGenerations
  covers : c.Covers k
  applied : ∀ m, Applied c.log m → Below m k
  deferred : ∀ d ∈ c.deferredSessionEvents, ∀ m, Deferred.cursor? d = some m → Below m k

theorem not_stale (h : c.isStaleSequencedMessage (.cursor k) = false) :
    k.generation ∉ c.retiredEventGenerations ∧ ∀ m, c.Covers m → Below m k := by
  rw [isStaleSequencedMessage, DaemonEventMeta.cursor?] at h
  simp only [Bool.or_eq_false_iff, decide_eq_false_iff_not] at h
  obtain ⟨hfresh, hlast⟩ := h
  refine ⟨hfresh, fun m hm hgen => ?_⟩
  obtain hr | ⟨last, heq, hgen', hle⟩ := hm
  · exact absurd (hgen ▸ hr) hfresh
  · rw [heq, Option.any_some, Bool.and_eq_false_iff, beq_eq_false_iff_ne, decide_eq_false_iff_not] at hlast
    obtain hne | hlt := hlast
    · exact absurd (hgen'.trans hgen) hne
    · omega

variable {stamp : DaemonEventMeta}

theorem Inv.take (h : c.Inv) (hstale : c.isStaleSequencedMessage stamp = false) :
    (c.observeDaemonEventSequence stamp).Inv ∧
      ∀ k, stamp.cursor? = some k → (c.observeDaemonEventSequence stamp).Newest k := by
  cases stamp with
  | absent => exact ⟨h, fun k hk => by cases hk⟩
  | sequenced n =>
    have hcovers : ∀ k, c.Covers k → (c.observeDaemonEventSequence (.sequenced n)).Covers k := by
      rintro k (hr | ⟨last, hlast, hgen, hle⟩)
      · exact .inl hr
      · refine .inr ⟨{ last with sequence := max last.sequence n }, ?_, hgen, ?_⟩
        · rw [observeDaemonEventSequence, hlast]
          rfl
        · exact Nat.le_trans hle (Nat.le_max_left _ _)
    refine ⟨⟨?_, ?_, h.sorted, h.idle, h.retired, ?_, h.order⟩, fun k hk => by cases hk⟩
    · intro k hk
      exact hcovers k (h.covered k hk)
    · intro d hd k hk
      obtain ⟨hcov, habove⟩ := h.deferred d hd k hk
      exact ⟨hcovers k hcov, habove⟩
    · intro last hlast
      obtain ⟨last', hlast', rfl⟩ := Option.map_eq_some_iff.1 hlast
      exact h.last last' hlast'
  | cursor k =>
    obtain ⟨hfresh, hbelow⟩ := not_stale hstale
    obtain ⟨hinv, hfresh'⟩ := h.observe hfresh
    have hcovers := c.covers_observe_self k
    have hfollows : Follows (c.observeEventCursor k).log (.taken k) := by
      refine ⟨fun hmem => hfresh' ((hinv.retired _).1 hmem), fun m hm => hbelow m (h.covered m ?_)⟩
      obtain hm | hm := hm
      · exact .inl ((mem_observe_log (by simp)).1 hm)
      · exact .inr (.inr ((mem_observe_log (by simp)).1 hm))
    have hlogged := hinv.logged hfollows (by simp)
      (fun m hm => by
        obtain hm | hm | ⟨_, hm⟩ := hm <;> cases hm
        exact hcovers)
      (fun m hm => by obtain hm | ⟨_, hm⟩ := hm <;> cases hm)
    refine ⟨hlogged.congr rfl rfl rfl rfl rfl, fun k' hk' => ?_⟩
    cases hk'
    refine ⟨hfresh', hcovers, fun m hm => ?_, fun d hd m hm => ?_⟩
    · obtain hm | hm | ⟨_, hm⟩ := applied_concat.1 hm
      · exact hbelow m (h.covered m (.inr (applied_observe.1 hm)))
      · cases hm
      · cases hm
    · have hd' : d ∈ c.deferredSessionEvents := by
        rw [← deferred_observe]
        exact hd
      exact hbelow m (h.deferred d hd' m hm).1

/-! ### Snapshots -/

theorem Inv.filter (h : c.Inv) (p : Deferred → Bool) (overflowed : Bool) : { c with
      deferredSessionEvents := c.deferredSessionEvents.filter p
      deferredSessionEventsOverflowed := overflowed }.Inv where
  covered := h.covered
  deferred d hd := h.deferred d (mem_filter.1 hd).1
  sorted := h.sorted.filter p
  idle hdefer := by
    show c.deferredSessionEvents.filter p = []
    rw [h.idle hdefer]
    rfl
  retired := h.retired
  last := h.last
  order := h.order

variable {d : Deferred}

theorem cursor?_eq_some :
    Deferred.cursor? d = some k ↔ d.generation = some k.generation ∧ d.sequence = some k.sequence := by
  obtain ⟨event, sequence, generation⟩ := d
  obtain ⟨g, n⟩ := k
  cases generation <;> cases sequence <;> simp [Deferred.cursor?]

theorem outlives_eq_true {sequence : Option Nat} {n : Nat} :
    outlives sequence (some n) = true ↔ ∃ m, sequence = some m ∧ n < m := by
  cases sequence <;> simp [outlives]

variable {snapshot : DaemonSessionSnapshot}

theorem mem_applySessionSnapshot :
    d ∈ (c.applySessionSnapshot snapshot).deferredSessionEvents ↔ d ∈ c.deferredSessionEvents ∧
      d.generation = snapshot.generation ∧ ∃ n, d.sequence = some n ∧ snapshot.lastEventSequence < n := by
  have hmem : ∀ c' : Connection, (c'.observeSnapshot snapshot).deferredSessionEvents = c'.deferredSessionEvents := by
    intro c'
    rw [observeSnapshot]
    split
    · exact deferred_observe
    · rfl
  have hgen : snapshot.lastEventCursor.map DaemonEventCursor.generation = snapshot.generation := by
    rw [DaemonSessionSnapshot.lastEventCursor]
    cases snapshot.generation <;> rfl
  show d ∈ (observeSnapshot _ snapshot).deferredSessionEvents ↔ _
  rw [hmem]
  show d ∈ c.deferredSessionEvents.filter _ ↔ _
  rw [mem_filter, Bool.and_eq_true, beq_iff_eq, outlives_eq_true, hgen]

/-- A snapshot of a generation that is not retired is applied. -/
theorem Inv.applySessionSnapshot (h : c.Inv)
    (hcurrent : c.current snapshot.lastEventCursor = true) : (c.applySessionSnapshot snapshot).Inv := by
  have hkept : ∀ d ∈ (c.applySessionSnapshot snapshot).deferredSessionEvents,
      d.generation = snapshot.generation ∧ ∃ n, d.sequence = some n ∧ snapshot.lastEventSequence < n :=
    fun d hd => (mem_applySessionSnapshot.1 hd).2
  have hdropped : (c.dropDeferredSessionEventsThrough (some snapshot.lastEventSequence)
      snapshot.lastEventCursor).Inv := h.filter _ _
  have hretired : (c.dropDeferredSessionEventsThrough (some snapshot.lastEventSequence)
      snapshot.lastEventCursor).retiredEventGenerations = c.retiredEventGenerations := rfl
  rw [Connection.applySessionSnapshot] at hkept ⊢
  generalize c.dropDeferredSessionEventsThrough (some snapshot.lastEventSequence) snapshot.lastEventCursor = c₁
    at hdropped hretired hkept
  refine Inv.congr (c := c₁.observeSnapshot snapshot) ?_ rfl rfl rfl rfl rfl
  have hkept' : ∀ d ∈ (c₁.observeSnapshot snapshot).deferredSessionEvents, _ := hkept
  rw [observeSnapshot] at hkept' ⊢
  cases hcursor : snapshot.lastEventCursor with
  | none => exact hdropped.congr rfl rfl rfl rfl rfl
  | some cursor =>
    rw [hcursor] at hcurrent hkept'
    have hfresh : cursor.generation ∉ c₁.retiredEventGenerations := by
      rw [hretired]
      simpa [Connection.current] using hcurrent
    obtain ⟨hinv, -⟩ := hdropped.observe hfresh
    have hlogged := hinv.logged (x := .snapshot cursor) trivial (by simp)
      (fun m hm => by
        obtain hm | hm | ⟨_, hm⟩ := hm <;> cases hm
        exact covers_observe_self _ _)
      (fun m hm d hd k hk hgen => by
        obtain hm | ⟨_, hm⟩ := hm <;> cases hm
        obtain ⟨-, n, hn, hlt⟩ := hkept' d hd
        rw [(cursor?_eq_some.1 hk).2] at hn
        cases hn
        rw [DaemonSessionSnapshot.lastEventCursor, Option.map_eq_some_iff] at hcursor
        obtain ⟨_, -, rfl⟩ := hcursor
        exact hlt)
    exact hlogged.congr rfl rfl rfl rfl rfl

/-! ### Events -/

theorem Inv.empty (h : c.Inv) (hcursor : c'.lastEventCursor = c.lastEventCursor)
    (hretired : c'.retiredEventGenerations = c.retiredEventGenerations)
    (hdeferred : c'.deferredSessionEvents = []) (hlog : c'.log = c.log) : c'.Inv := by
  have hempty : Inv { c with deferredSessionEvents := [], deferSessionEvents := c'.deferSessionEvents } :=
    { covered := h.covered
      deferred := fun d hd => by cases hd
      sorted := .nil
      idle := fun _ => rfl
      retired := h.retired
      last := h.last
      order := h.order }
  exact hempty.congr hcursor hretired hdeferred rfl hlog

theorem Inv.emit (h : c.Inv) {event : AgentConnectionEvent} (hevent : ∀ e, event ≠ .sessionEvent e)
    (cursor : Option DaemonEventCursor) : (c.emit event cursor).Inv := by
  have hfollows : Follows c.log (.emitted event cursor) := by
    cases event with
    | sessionEvent e => exact absurd rfl (hevent e)
    | _ => trivial
  refine h.logged hfollows (by simp) (fun k hk => ?_) (fun m hm => ?_)
  · obtain hk | hk | ⟨e, hk⟩ := hk <;> cases hk
    exact absurd rfl (hevent e)
  · obtain hm | ⟨e, hm⟩ := hm <;> cases hm
    exact absurd rfl (hevent e)

theorem handOn_log (c : Connection) (event : AgentSessionEvent) (sequence : Option Nat)
    (cursor : Option DaemonEventCursor) :
    (c.handOn event sequence cursor).log = c.log ++ [Happening.emitted (.sessionEvent event) cursor] := by
  cases event <;> rfl

theorem Inv.handOn (h : c.Inv) (hdeferred : c.deferredSessionEvents = []) {cursor : Option DaemonEventCursor}
    (hcursor : ∀ k, cursor = some k →
      k.generation ∉ c.retiredEventGenerations ∧ c.Covers k ∧ ∀ m, Applied c.log m → Below m k)
    (event : AgentSessionEvent) (sequence : Option Nat) : (c.handOn event sequence cursor).Inv := by
  have hfollows : Follows c.log (.emitted (.sessionEvent event) cursor) := by
    cases cursor with
    | none => trivial
    | some k =>
      obtain ⟨hfresh, -, happlied⟩ := hcursor k rfl
      exact ⟨fun hmem => hfresh ((h.retired _).1 hmem), happlied⟩
  have hlogged := h.logged hfollows (by simp)
    (fun k hk => by
      obtain hk | hk | ⟨e, hk⟩ := hk <;> cases hk
      exact (hcursor k rfl).2.1)
    (fun m _ d hd => by
      rw [hdeferred] at hd
      cases hd)
  refine hlogged.congr ?_ ?_ ?_ ?_ (c.handOn_log event sequence cursor) <;> cases event <;> rfl

theorem Inv.defer (h : c.Inv) (hdefer : c.deferSessionEvents = true)
    (hnewest : ∀ k, Deferred.cursor? d = some k → c.Newest k) :
    { c with deferredSessionEvents := c.deferredSessionEvents ++ [d] }.Inv where
  covered := h.covered
  deferred e he k hk := by
    obtain he | he := mem_append.1 he
    · exact h.deferred e he k hk
    · cases mem_singleton.1 he
      exact ⟨(hnewest k hk).covers, (hnewest k hk).applied⟩
  sorted := by
    refine pairwise_append.2 ⟨h.sorted, pairwise_singleton _ _, fun e he e' he' k k' hk hk' => ?_⟩
    cases mem_singleton.1 he'
    exact (hnewest k' hk').deferred e he k hk
  idle hidle := by
    rw [show c.deferSessionEvents = false from hidle] at hdefer
    cases hdefer
  retired := h.retired
  last := h.last
  order := h.order

theorem Inv.receiveSessionEvent (h : c.Inv)
    (hnewest : ∀ k, stamp.cursor? = some k → c.Newest k) (event : AgentSessionEvent) :
    (c.receiveSessionEvent stamp event).Inv := by
  rw [Connection.receiveSessionEvent]
  split
  · rename_i hdefer
    split
    · exact h
    · split
      · exact h.empty rfl rfl rfl rfl
      · refine h.defer hdefer fun k hk => hnewest k ?_
        cases stamp <;> cases hk
        rfl
  · rename_i hidle
    refine h.handOn (h.idle (Bool.eq_false_iff.2 hidle)) (fun k hk => ?_) event _
    exact ⟨(hnewest k hk).fresh, (hnewest k hk).covers, (hnewest k hk).applied⟩

theorem Inv.receive (h : c.Inv) {body : Body} (hnewest : ∀ k, stamp.cursor? = some k → c.Newest k)
    (hcurrent : ∀ snapshot, body = .sessionResynced snapshot → c.current snapshot.lastEventCursor = true) :
    (c.receive stamp body).Inv := by
  cases body with
  | sessionEvent event => exact h.receiveSessionEvent hnewest event
  | sideQuestionEvent event => exact h.emit (by simp) _
  | sessionStatus recap =>
    exact Inv.emit (c := { c with latestSnapshot := c.latestSnapshot.map (withRecap recap) })
      (h.congr rfl rfl rfl rfl rfl) (by simp) _
  | sessionResynced snapshot => exact (h.applySessionSnapshot (hcurrent snapshot rfl)).emit (by simp) _
  | sessionReplaced state messages snapshotFollows =>
    simp only [Connection.receive]
    split
    · exact h.empty rfl rfl rfl rfl
    · refine Inv.emit ?_ (by simp) _
      exact h.empty rfl rfl rfl rfl
  | extensionError error => exact h.emit (by simp) _
  | sessionClosed update =>
    simp only [Connection.receive]
    split
    · exact h
    · exact Inv.emit (c := { c with closed := true }) (h.congr rfl rfl rfl rfl rfl) (by simp) _
  | extensionUiRequest | sessionSnapshotEnd => exact h

theorem Inv.completeSnapshotAssembly (h : c.Inv) {purpose : Purpose}
    (hcurrent : c.applies purpose = true → c.current snapshot.lastEventCursor = true) :
    (c.completeSnapshotAssembly purpose snapshot).Inv := by
  cases purpose with
  | attach revision =>
    rw [Connection.completeSnapshotAssembly]
    split
    · rename_i hrevision
      exact h.applySessionSnapshot (hcurrent (decide_eq_true hrevision))
    · exact h
  | replacement | resync => exact (h.applySessionSnapshot (hcurrent rfl)).emit (by simp) _

theorem Inv.handleDaemonMessage (h : c.Inv) {message : DaemonOutbound}
    (hcurrent : c.staysCurrent (.message message) = true) : (c.handleDaemonMessage message).Inv := by
  rw [Connection.handleDaemonMessage]
  split
  · exact h
  · rename_i hopen
    rw [not_or, Bool.not_eq_true, not_ne_iff] at hopen
    simp only [staysCurrent, hopen.1, hopen.2, Bool.false_or, bne_self_eq_false] at hcurrent
    split
    · split
      · exact h
      · exact h.emit (by simp) _
    · rename_i purpose snapshot hbody
      rw [hbody] at hcurrent
      simp only [Bool.or_eq_true, Bool.not_eq_true'] at hcurrent
      refine h.completeSnapshotAssembly fun happlies => ?_
      rw [happlies] at hcurrent
      exact hcurrent.resolve_left nofun
    · split
      · exact h
      · rename_i hstale
        rw [Bool.not_eq_true] at hstale
        obtain ⟨htaken, hnewest⟩ := h.take hstale
        refine htaken.receive hnewest fun snapshot hbody => ?_
        rw [hbody] at hcurrent
        simpa only [hstale, Bool.false_or] using hcurrent

/-! ### Attaching, and the end of deferral -/

theorem Inv.observeAttachCursor (h : c.Inv) {result : DaemonAttachResult}
    (hcurrent : c.current result.lastEventCursor = true) : (c.observeAttachCursor result).Inv := by
  rw [Connection.observeAttachCursor]
  split
  · rename_i cursor hcursor
    rw [hcursor] at hcurrent
    have hfresh : cursor.generation ∉ c.retiredEventGenerations := by
      simpa [Connection.current] using hcurrent
    exact (h.observe hfresh).1.congr rfl rfl rfl rfl rfl
  · exact h.congr rfl rfl rfl rfl rfl

theorem Inv.attached (h : c.Inv) {revision : Nat} {activeSessionId : String} {result : Option DaemonAttachResult}
    (hcurrent : c.staysCurrent (.attached revision activeSessionId result) = true) :
    (c.attached revision activeSessionId result).Inv := by
  rw [attached.eq_def]
  split
  · exact h
  · rename_i hopen
    rw [staysCurrent, Bool.or_eq_true, Bool.or_eq_true, bne_iff_ne] at hcurrent
    have hresult := hcurrent.resolve_left hopen
    split
    · exact h.congr rfl rfl rfl rfl rfl
    · rw [Option.all_some, Bool.and_eq_true] at hresult
      have hbound : Inv { c with activeSessionId } := h.congr rfl rfl rfl rfl rfl
      exact (hbound.observeAttachCursor hresult.1).applySessionSnapshot hresult.2

theorem stopDeferring_handOnAll (entries : List Deferred) :
    (c.handOnAll entries).stopDeferringSessionEvents = c.stopDeferringSessionEvents.handOnAll entries := by
  induction entries generalizing c with
  | nil => rfl
  | cons d entries ih =>
    have hcomm : (c.handOn d.event d.sequence (Deferred.cursor? d)).stopDeferringSessionEvents =
        c.stopDeferringSessionEvents.handOn d.event d.sequence (Deferred.cursor? d) := by
      cases d.event <;> rfl
    rw [handOnAll, ih, hcomm, handOnAll]

theorem handOn_frame (c : Connection) (event : AgentSessionEvent) (sequence : Option Nat)
    (cursor : Option DaemonEventCursor) :
    (c.handOn event sequence cursor).deferredSessionEvents = c.deferredSessionEvents ∧
      (c.handOn event sequence cursor).retiredEventGenerations = c.retiredEventGenerations ∧
      (c.handOn event sequence cursor).lastEventCursor = c.lastEventCursor := by
  cases event <;> exact ⟨rfl, rfl, rfl⟩

theorem Inv.handOnAll {entries : List Deferred} (h : c.Inv) (hdeferred : c.deferredSessionEvents = [])
    (hsorted : entries.Pairwise fun d d' =>
      ∀ k k', Deferred.cursor? d = some k → Deferred.cursor? d' = some k' → Below k k')
    (hentries : ∀ d ∈ entries, ∀ k, Deferred.cursor? d = some k →
      k.generation ∉ c.retiredEventGenerations ∧ c.Covers k ∧ ∀ m, Applied c.log m → Below m k) :
    (c.handOnAll entries).Inv := by
  induction entries generalizing c with
  | nil => exact h
  | cons d entries ih =>
    obtain ⟨hfirst, hrest⟩ := pairwise_cons.1 hsorted
    have hnext := h.handOn hdeferred (hentries d mem_cons_self) d.event d.sequence
    obtain ⟨hsame, hretired, hcursor⟩ := c.handOn_frame d.event d.sequence (Deferred.cursor? d)
    refine ih hnext (hsame.trans hdeferred) hrest fun e he k hk => ?_
    · obtain ⟨hfresh, hcovers, habove⟩ := hentries e (mem_cons_of_mem d he) k hk
      refine ⟨by rwa [hretired], by rwa [Covers, hretired, hcursor], fun m hm => ?_⟩
      · rw [handOn_log, applied_concat] at hm
        obtain hm | hm | ⟨event, hm⟩ := hm
        · exact habove m hm
        · cases hm
        · rw [Happening.emitted.injEq] at hm
          exact hfirst e he m k hm.2 hk

theorem Inv.flushBufferedSessionEvents (h : c.Inv) (hcurrent : c.staysCurrent .flush = true) :
    c.flushBufferedSessionEvents.Inv := by
  rw [Connection.flushBufferedSessionEvents]
  split
  · exact h
  · rename_i hdefer
    split
    · exact h.empty rfl rfl rfl rfl
    · rename_i hopen
      split
      · exact h.congr rfl rfl rfl rfl rfl
      · rw [stopDeferring_handOnAll]
        refine Inv.handOnAll (h.empty rfl rfl rfl rfl) rfl h.sorted fun d hd k hk => ?_
        obtain ⟨hcovers, habove⟩ := h.deferred d hd k hk
        refine ⟨?_, hcovers, habove⟩
        rw [Bool.not_eq_false] at hdefer
        rw [Bool.not_eq_true] at hopen
        simp only [staysCurrent, hdefer, hopen, Bool.not_true, Bool.false_or, all_eq_true] at hcurrent
        have hfresh := hcurrent d hd
        rw [hk] at hfresh
        exact of_decide_eq_true hfresh

theorem Inv.step (h : c.Inv) {act : Action} (hcurrent : c.staysCurrent act = true) : (c.step act).Inv := by
  cases act with
  | message message => exact h.handleDaemonMessage hcurrent
  | attached revision activeSessionId result => exact h.attached hcurrent
  | flush => exact h.flushBufferedSessionEvents hcurrent

theorem inv_run {acts : List Action} (h : c.Inv) (hcurrent : c.staysCurrentAll acts = true) : (c.run acts).Inv := by
  induction acts generalizing c with
  | nil => exact h
  | cons act rest ih =>
    rw [staysCurrentAll, Bool.and_eq_true] at hcurrent
    exact ih (h.step hcurrent.1) hcurrent.2

theorem Inv.consistent (h : c.Inv) : c.Consistent where
  order := h.order
  current last hlast := fun hmem => h.last last hlast ((h.retired _).1 hmem)
  kept _ _ := mem_applySessionSnapshot

end Invariant

end Connection

/-- A connection that applies no snapshot and hands on no deferred event of a retired generation is consistent,
whatever arrives when. -/
theorem consistent_of_run {activeSessionId : String} {deferSessionEvents : Bool} {acts : List Action}
    (hcurrent : (new activeSessionId deferSessionEvents).staysCurrentAll acts = true) :
    ((new activeSessionId deferSessionEvents).run acts).Consistent :=
  (inv_run (inv_new activeSessionId deferSessionEvents) hcurrent).consistent

def event (generation : String) (sequence : Nat) : Action :=
  .message ⟨"session", .cursor ⟨generation, sequence⟩, .sessionEvent (.other "session_info_changed")⟩

def snapshot (generation : String) (lastEventSequence : Nat) : DaemonSessionSnapshot where
  state := ⟨"s1", none, none⟩
  messages := []
  streamingMessage := none
  children := none
  lastEventSequence
  generation := some generation

/-- The worker restarts while events are deferred, and its snapshot supersedes them. -/
theorem consistent_of_run_restart : ((new "session" true).run [event "old" 5, event "old" 6,
        .message ⟨"session", .absent, .sessionSnapshotEnd .resync (snapshot "new" 1)⟩,
        event "new" 2, .flush, event "old" 7, event "new" 3]).Consistent :=
  consistent_of_run (by decide)

/-- A snapshot of the old worker that comes after the first event of the new one takes the connection back:
it then drops the events of the new worker as retired. -/
theorem goes_back : ¬ ((new "session" false).run [event "old" 5, event "new" 1,
          .message ⟨"session", .absent, .sessionSnapshotEnd .resync (snapshot "old" 5)⟩]).Consistent ∧
      ((new "session" false).run [event "old" 5, event "new" 1,
          .message ⟨"session", .absent, .sessionSnapshotEnd .resync (snapshot "old" 5)⟩]).isStaleSequencedMessage
        (.cursor ⟨"new", 2⟩) = true := by
  refine ⟨fun h => h.current ⟨"old", 5⟩ rfl ?_, by decide⟩
  decide

end AgentConnection
end RePrime
