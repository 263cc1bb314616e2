import RePrime.Cron.Claim
import RePrime.Lib.Runs

/-!
# RePrime.Cron.Scheduler

`AgentCronScheduler`: the due jobs are claimed in the store, and each dispatch is run in the lane of its session.

* `runDue`: the claim, the `beginDispatch` hooks and the lanes, in one go. The hooks are synchronous, and a `runDue`
  inside one of them finds `running` set and does nothing.
* `startTask`, `finishTask`: the task of a dispatch up to its `await` of `runJob`, and after it.
* `step`: these, `start`, `stop` and the store operations of others, in any order.
* `Guard`, `dispatched_of_run`: what has to go well for each dispatch to be recorded or recovered once.

The timer is left out: `runDue` may come at any time. What `runDue` rejects with or returns is left out too.
-/

namespace RePrime
namespace Cron

open Fallible List

/-! ## The scheduler -/

inductive DispatchPhase where
  /-- A `beginDispatch` of its batch has thrown. -/
  | recovered
  /-- In its lane. -/
  | waiting
  /-- In `runJob`. -/
  | running (job : AgentCronJob)
  | settled
deriving DecidableEq

/-- Nothing more happens to the dispatch. -/
def DispatchPhase.over : DispatchPhase → Bool
  | recovered => true
  | waiting => false
  | running _ => false
  | settled => true

structure ClaimedDispatch where
  dispatch : AgentCronDispatch
  /-- Whether `beginDispatch` has given a function for the end. -/
  endDispatch : Bool
  /-- The dispatch before it in the lane, by its place in `claimed`. -/
  previous : Option Nat
  phase : DispatchPhase
  /-- Not in the source: the store after each call that has recorded or recovered the dispatch. -/
  stored : List StoreWorld
  /-- Not in the source: how often `endDispatch` has been called. -/
  ended : Nat

def ClaimedDispatch.laneKey (c : ClaimedDispatch) : String := c.dispatch.job.activeSessionId

structure AgentCronScheduler where
  world : StoreWorld
  stopped : Bool
  hasStarted : Bool
  /-- The last dispatch of each lane. -/
  dispatchLanes : OrderedMap String Nat
  /-- Not in the source: every dispatch that `claimDue` has returned. -/
  claimed : List ClaimedDispatch
  /-- Not in the source: every dispatch that `claimDue` has written before it threw. -/
  unreturned : List AgentCronDispatchRecord

/-- `getClaimedJob`. -/
def getClaimedJob (id : String) (w : StoreWorld) : Option AgentCronJob :=
  match w.mode.paths.find? fun path => (w.files path).dispatches.any fun d => d.jobId = id with
  | none => none
  | some path => (w.files path).jobs.find? fun job => job.id = id ∧ job.status = .active

/-- The calls of `beginDispatch`, whose `n`-th throws or says whether it gives a function: the dispatches begun, and
whether all are. -/
def beginDispatches (beginDispatch : Nat → Option Bool) :
    Nat → List AgentCronDispatch → List (AgentCronDispatch × Bool) × Bool
  | _, [] => ([], true)
  | n, d :: rest =>
    match beginDispatch n with
    | none => ([], false)
    | some endDispatch =>
      let (begun, all) := beginDispatches beginDispatch (n + 1) rest
      ((d, endDispatch) :: begun, all)

/-- What `claimDue` has written between two states of the store. -/
def newDispatches (w w' : StoreWorld) : List AgentCronDispatchRecord :=
  w.mode.paths.flatMap fun path => (w'.files path).dispatches.filter fun d => d ∉ (w.files path).dispatches

namespace AgentCronScheduler

def queueDispatch (s : AgentCronScheduler) (dispatch : AgentCronDispatch) (endDispatch : Bool) :
    AgentCronScheduler :=
  { s with
    claimed := s.claimed ++
      [{ dispatch := dispatch
         endDispatch := endDispatch
         previous := s.dispatchLanes.get? dispatch.job.activeSessionId
         phase := .waiting
         stored := []
         ended := 0 }]
    dispatchLanes := s.dispatchLanes.set dispatch.job.activeSessionId s.claimed.length }

/-- A dispatch of a batch that is given up: those begun are ended, and all are recovered. -/
def recoveredDispatch (w : StoreWorld) (dispatch : AgentCronDispatch) (endDispatch : Bool) : ClaimedDispatch where
  dispatch := dispatch
  endDispatch := endDispatch
  previous := none
  phase := .recovered
  stored := [w]
  ended := if endDispatch then 1 else 0

/-- The `catch` of `runDue` once the jobs are claimed. -/
def giveUp (s : AgentCronScheduler) (dispatches : List AgentCronDispatch) (begun : List (AgentCronDispatch × Bool))
    (recoveredAt : Instant) : AgentCronScheduler :=
  match recoverInterruptedDispatchesById (dispatches.map (·.id)) recoveredAt s.world with
  | (.error _, w) => { s with world := w }
  | (.ok _, w) =>
    { s with
      world := w
      claimed := s.claimed ++ begun.map (fun d => recoveredDispatch w d.1 d.2) ++
        (dispatches.drop begun.length).map fun d => recoveredDispatch w d false }

/-- `runDue` up to its `await`. -/
def runDue (host : Host) (dueAt claimedAt recoveredAt : Instant) (ids : String → Nat → String)
    (beginDispatch : Nat → Option Bool) (s : AgentCronScheduler) : AgentCronScheduler :=
  if s.stopped && s.hasStarted then s
  else
    match claimDue host dueAt claimedAt ids s.world with
    | (.error _, w) => { s with world := w, unreturned := s.unreturned ++ newDispatches s.world w }
    | (.ok dispatches, w) =>
      match beginDispatches beginDispatch 0 dispatches with
      | (begun, true) => begun.foldl (fun s d => s.queueDispatch d.1 d.2) { s with world := w }
      | (begun, false) => giveUp { s with world := w } dispatches begun recoveredAt

/-- The `finally` of the task, after which its lane is settled. -/
def settle (s : AgentCronScheduler) (k : Nat) (c : ClaimedDispatch) : AgentCronScheduler :=
  { s with
    claimed := s.claimed.set k
      { c with phase := .settled, ended := if c.endDispatch then c.ended + 1 else c.ended } }

/-- `recordDispatchResult` and the `finally` after it. -/
def record (host : Host) (now : Instant) (outcome : AgentCronJobRunResult) (error : Option String)
    (s : AgentCronScheduler) (k : Nat) (c : ClaimedDispatch) : AgentCronScheduler :=
  match recordDispatchResult host c.dispatch.id now outcome error s.world with
  | (.error _, w) => settle { s with world := w } k c
  | (.ok _, w) => settle { s with world := w } k { c with stored := c.stored ++ [w] }

def startTask (host : Host) (now : Instant) (s : AgentCronScheduler) (k : Nat) (c : ClaimedDispatch) :
    AgentCronScheduler :=
  match getClaimedJob c.dispatch.job.id s.world with
  | none => s.record host now .skipped none k c
  | some job => { s with claimed := s.claimed.set k { c with phase := .running job } }

end AgentCronScheduler

/-- How `runJob` settles, and whether `onError` throws when it is told. -/
inductive JobRun where
  | returned (result : Option AgentCronJobRunResult)
  | threw (error : Option String) (onErrorThrows : Bool)

namespace AgentCronScheduler

def finishTask (host : Host) (now : Instant) (run : JobRun) (s : AgentCronScheduler) (k : Nat)
    (c : ClaimedDispatch) : AgentCronScheduler :=
  match run with
  | .returned result => s.record host now (if result = some .skipped then .skipped else .ran) none k c
  | .threw _ true => s.settle k c
  | .threw error false => s.record host now .ran error k c

/-- `start`. What it recovers are the dispatches of an earlier process, and those in flight when there are any. -/
def start (now : Instant) (s : AgentCronScheduler) : AgentCronScheduler :=
  if s.hasStarted then { s with stopped := false }
  else
    let w := (recoverInterruptedDispatches now s.world).2
    { s with
      world := w
      stopped := false
      hasStarted := true
      claimed := s.claimed.map fun c => if c.phase.over then c else { c with stored := c.stored ++ [w] } }

/-- The lane before the dispatch is settled. -/
def free (s : AgentCronScheduler) (c : ClaimedDispatch) : Bool :=
  c.previous.all fun k => s.claimed[k]?.any fun before => before.phase = .settled

end AgentCronScheduler

inductive SchedulerAction where
  | runDue (dueAt claimedAt recoveredAt : Instant) (ids : String → Nat → String) (beginDispatch : Nat → Option Bool)
  | startTask (k : Nat) (now : Instant)
  | finishTask (k : Nat) (now : Instant) (run : JobRun)
  /-- The `finally` of a lane. -/
  | leaveLane (k : Nat)
  | start (now : Instant)
  | stop
  /-- A store operation of someone else. -/
  | store (op : Op) (now : Instant)

namespace AgentCronScheduler

def step (host : Host) (s : AgentCronScheduler) : SchedulerAction → Option AgentCronScheduler
  | .runDue dueAt claimedAt recoveredAt ids beginDispatch =>
    some (s.runDue host dueAt claimedAt recoveredAt ids beginDispatch)
  | .startTask k now =>
    match s.claimed[k]? with
    | none => none
    | some c => if c.phase = .waiting ∧ s.free c = true then some (s.startTask host now k c) else none
  | .finishTask k now run =>
    match s.claimed[k]? with
    | none => none
    | some c =>
      match c.phase with
      | .running _ => some (s.finishTask host now run k c)
      | _ => none
  | .leaveLane k =>
    match s.claimed[k]? with
    | none => none
    | some c =>
      if c.phase = .settled then
        some (if s.dispatchLanes.get? c.laneKey = some k then
          { s with dispatchLanes := s.dispatchLanes.delete c.laneKey } else s)
      else none
  | .start now => some (s.start now)
  | .stop => some { s with stopped := true }
  | .store op now => some { s with world := op.run host now s.world }

/-- A scheduler that is constructed over a store. -/
def init (world : StoreWorld) : AgentCronScheduler where
  world := world
  stopped := true
  hasStarted := false
  dispatchLanes := .empty
  claimed := []
  unreturned := []

end AgentCronScheduler

/-! ## What is kept -/

def DispatchPhase.begun : DispatchPhase → Bool
  | recovered => false
  | waiting => false
  | running _ => true
  | settled => true

/-- No registered file has a dispatch with the id. -/
def NoDispatch (id : String) (w : StoreWorld) : Prop :=
  ∀ path ∈ w.mode.paths, ∀ d ∈ (w.files path).dispatches, d.id ≠ id

/-- The books of one dispatch. -/
structure ClaimedDispatch.Counted (c : ClaimedDispatch) : Prop where
  /-- It is recorded or recovered once when it is over, and not before. -/
  stored : c.stored.length = if c.phase.over then 1 else 0
  /-- The store has let go of it then. -/
  gone : ∀ w ∈ c.stored, NoDispatch c.dispatch.id w
  ended : c.ended = if c.phase.over && c.endDispatch then 1 else 0

/-- What the scheduler owes every dispatch that is claimed. -/
structure AgentCronScheduler.Kept (s : AgentCronScheduler) : Prop where
  counted : ∀ c ∈ s.claimed, c.Counted
  /-- The jobs of one session run one after another. -/
  serial : ∀ (i j : Nat) (ci cj : ClaimedDispatch), s.claimed[i]? = some ci → s.claimed[j]? = some cj → i < j →
    ci.laneKey = cj.laneKey → cj.phase.begun = true → ci.phase.over = true
  /-- Where a dispatch is not over, one of its session runs or can start. -/
  moves : ∀ (j : Nat) (c : ClaimedDispatch), s.claimed[j]? = some c → c.phase.over = false →
    ∃ i ≤ j, ∃ ci : ClaimedDispatch, s.claimed[i]? = some ci ∧ ci.laneKey = c.laneKey ∧
      ((∃ job, ci.phase = .running job) ∨ ci.phase = .waiting ∧ s.free ci = true)
  /-- Each dispatch that `claimDue` has written is one of those claimed. -/
  returned : s.unreturned = []

/-! ## Lanes -/

/-- The `i`-th dispatch goes through the lane. -/
def InLane (claimed : List ClaimedDispatch) (key : String) (i : Nat) : Prop :=
  ∃ c : ClaimedDispatch, claimed[i]? = some c ∧ c.laneKey = key ∧ c.phase ≠ .recovered

def SettledAt (claimed : List ClaimedDispatch) (i : Nat) : Prop :=
  ∃ c : ClaimedDispatch, claimed[i]? = some c ∧ c.phase = .settled

/-- The last dispatch of the lane before the `n`-th, none only when all those are settled. -/
def Closes (claimed : List ClaimedDispatch) (key : String) (n : Nat) : Option Nat → Prop
  | none => ∀ i < n, InLane claimed key i → SettledAt claimed i
  | some last => last < n ∧ InLane claimed key last ∧ ∀ i < n, InLane claimed key i → i ≤ last

section Lanes

variable {claimed claimed' : List ClaimedDispatch} {key : String} {n k : Nat} {last : Option Nat}

theorem Closes.congr (h : Closes claimed key n last) (hlane : ∀ i < n, InLane claimed' key i ↔ InLane claimed key i)
    (hsettled : ∀ i, SettledAt claimed i → SettledAt claimed' i) : Closes claimed' key n last := by
  cases last with
  | none => exact fun i hi hin => hsettled i (h i hi ((hlane i hi).1 hin))
  | some last =>
    obtain ⟨hlast, hin, hall⟩ := h
    exact ⟨hlast, (hlane last hlast).2 hin, fun i hi hin' => hall i hi ((hlane i hi).1 hin')⟩

variable {i : Nat}

theorem getElem?_append_of_lt (more : List ClaimedDispatch) (h : i < claimed.length) :
    (claimed ++ more)[i]? = claimed[i]? := getElem?_append_left h

variable {c : ClaimedDispatch}

theorem getElem?_concat_cases {d : ClaimedDispatch} {j : Nat} (h : (claimed ++ [c])[j]? = some d) :
    claimed[j]? = some d ∨ j = claimed.length ∧ d = c := by
  rcases Nat.lt_trichotomy j claimed.length with hj | rfl | hj
  · rw [getElem?_append_left hj] at h
    exact .inl h
  · rw [getElem?_concat_length] at h
    exact .inr ⟨rfl, (Option.some.inj h).symm⟩
  · rw [getElem?_eq_none (by rw [length_append]; exact hj)] at h
    cases h

theorem inLane_append (more : List ClaimedDispatch) (h : i < claimed.length) :
    InLane (claimed ++ more) key i ↔ InLane claimed key i := by
  rw [InLane, InLane, getElem?_append_of_lt more h]

theorem SettledAt.append (h : SettledAt claimed i) (more : List ClaimedDispatch) :
    SettledAt (claimed ++ more) i := by
  obtain ⟨c, hc, hphase⟩ := h
  exact ⟨c, by rw [getElem?_append_of_lt more (List.getElem?_eq_some_iff.1 hc).1, hc], hphase⟩

theorem Closes.append (h : Closes claimed key n last) (more : List ClaimedDispatch) (hn : n ≤ claimed.length) :
    Closes (claimed ++ more) key n last :=
  h.congr (fun _ hi => inLane_append more (Nat.lt_of_lt_of_le hi hn)) fun _ hs => hs.append more

theorem inLane_set {c' : ClaimedDispatch} (hk : claimed[k]? = some c) (hkey : c'.laneKey = c.laneKey)
    (hc : c.phase ≠ .recovered) (hc' : c'.phase ≠ .recovered) (i : Nat) :
    InLane (claimed.set k c') key i ↔ InLane claimed key i := by
  by_cases hi : i = k
  · subst hi
    have hlt := (List.getElem?_eq_some_iff.1 hk).1
    rw [InLane, InLane, List.getElem?_set_self hlt, hk]
    constructor
    · rintro ⟨d, hd, hin, -⟩
      cases hd
      exact ⟨c, rfl, hkey.symm.trans hin, hc⟩
    · rintro ⟨d, hd, hin, -⟩
      cases hd
      exact ⟨c', rfl, hkey.trans hin, hc'⟩
  · rw [InLane, InLane, getElem?_set_ne (Ne.symm hi)]

theorem SettledAt.set {c' : ClaimedDispatch} (hk : claimed[k]? = some c) (hc : c.phase ≠ .settled)
    (h : SettledAt claimed i) : SettledAt (claimed.set k c') i := by
  obtain ⟨d, hd, hphase⟩ := h
  have hi : k ≠ i := by
    rintro rfl
    rw [hk] at hd
    cases hd
    exact hc hphase
  exact ⟨d, by rw [getElem?_set_ne hi, hd], hphase⟩

end Lanes

namespace AgentCronScheduler

/-- The invariant of `dispatched_of_run`. -/
structure Inv (s : AgentCronScheduler) : Prop where
  counted : ∀ c ∈ s.claimed, c.Counted
  /-- The lanes end in the last dispatch of their session. -/
  lanes : ∀ key, Closes s.claimed key s.claimed.length (s.dispatchLanes.get? key)
  /-- A dispatch comes after the last one before it. -/
  before : ∀ (j : Nat) (c : ClaimedDispatch), s.claimed[j]? = some c → c.phase ≠ .recovered →
    Closes s.claimed c.laneKey j c.previous
  /-- It begins when that one is settled. -/
  begun : ∀ (j : Nat) (c : ClaimedDispatch), s.claimed[j]? = some c → c.phase.begun = true →
    ∀ k ∈ c.previous, SettledAt s.claimed k
  returned : s.unreturned = []

theorem free_iff {s : AgentCronScheduler} {c : ClaimedDispatch} :
    s.free c = true ↔ ∀ k ∈ c.previous, SettledAt s.claimed k := by
  rw [free, Option.all_eq_true]
  refine forall_congr' fun k => imp_congr_right fun _ => ?_
  rw [Option.any_eq_true, SettledAt]
  simp only [decide_eq_true_eq]

namespace Inv

variable {s : AgentCronScheduler}

/-- Before a dispatch that has begun, the whole lane is settled. -/
theorem settled_before (h : s.Inv) {j : Nat} : ∀ {c : ClaimedDispatch}, s.claimed[j]? = some c →
    c.phase.begun = true → ∀ i < j, InLane s.claimed c.laneKey i → SettledAt s.claimed i := by
  induction j using Nat.strong_induction_on with
  | _ j ih =>
    intro c hc hbegun i hi hin
    have hphase : c.phase ≠ .recovered := fun hrecovered => by
      rw [hrecovered] at hbegun
      cases hbegun
    have hcloses := h.before j c hc hphase
    cases hprevious : c.previous with
    | none =>
      rw [hprevious] at hcloses
      exact hcloses i hi hin
    | some last =>
      rw [hprevious] at hcloses
      obtain ⟨hlast, ⟨d, hd, hkey, -⟩, hall⟩ := hcloses
      have hsettled := h.begun j c hc hbegun last hprevious
      rcases Nat.eq_or_lt_of_le (hall i hi hin) with rfl | hlt
      · exact hsettled
      · obtain ⟨d', hd', hsettled⟩ := hsettled
        rw [hd] at hd'
        cases hd'
        exact ih last hlast hd (by rw [hsettled]; rfl) i hlt (hkey ▸ hin)

theorem kept (h : s.Inv) : s.Kept where
  counted := h.counted
  serial := by
    intro i j ci cj hi hj hij hkey hbegun
    by_cases hrecovered : ci.phase = .recovered
    · rw [hrecovered]
      rfl
    · obtain ⟨c, hc, hsettled⟩ := h.settled_before hj hbegun i hij ⟨ci, hi, hkey, hrecovered⟩
      rw [hi] at hc
      cases hc
      rw [hsettled]
      rfl
  moves := by
    intro j
    induction j using Nat.strong_induction_on with
    | _ j ih =>
      intro c hc hover
      cases hphase : c.phase with
      | recovered =>
        rw [hphase] at hover
        cases hover
      | settled =>
        rw [hphase] at hover
        cases hover
      | running job => exact ⟨j, Nat.le_refl j, c, hc, rfl, .inl ⟨job, hphase⟩⟩
      | waiting =>
        by_cases hfree : s.free c = true
        · exact ⟨j, Nat.le_refl j, c, hc, rfl, .inr ⟨hphase, hfree⟩⟩
        · have hcloses := h.before j c hc (by rw [hphase]; exact DispatchPhase.noConfusion)
          cases hprevious : c.previous with
          | none =>
            rw [free, hprevious] at hfree
            exact absurd rfl hfree
          | some last =>
            rw [hprevious] at hcloses
            obtain ⟨hlast, ⟨d, hd, hkey, hrecovered⟩, -⟩ := hcloses
            have hnot : d.phase.over = false := by
              cases hd' : d.phase with
              | recovered => exact absurd hd' hrecovered
              | waiting | running => rfl
              | settled =>
                refine absurd (free_iff.2 fun k hk => ?_) hfree
                rw [hprevious] at hk
                cases hk
                exact ⟨d, hd, hd'⟩
            obtain ⟨i, hi, ci, hci, hkey', hmoves⟩ := ih last hlast d hd hnot
            exact ⟨i, Nat.le_trans hi (Nat.le_of_lt hlast), ci, hci, hkey'.trans hkey, hmoves⟩
  returned := h.returned

end Inv

end AgentCronScheduler

/-! ## The store lets go of a dispatch -/

section Store

variable {α : Type} {mutator : String → CronJobsState → Except String (CronJobsState × List α)} {w w' : StoreWorld}

/-- What each change leaves in its file, a change of all files that does not throw leaves in each. -/
theorem mutatePaths_all {Q : CronJobsState → Prop} (hQ : ∀ path s r, mutator path s = .ok r → Q r.1)
    {paths : List String} : ∀ {w : StoreWorld} {as : List α}, mutatePaths mutator paths w = (.ok as, w') →
      ∀ path ∈ paths, Q (w'.files path) := by
  induction paths with
  | nil =>
    intro _ _ _ path hpath
    cases hpath
  | cons first rest ih =>
    intro w as h path hpath
    obtain ⟨r, as', hfirst, hrest, -⟩ := mutatePaths_cons_ok.1 h
    rcases mem_cons.1 hpath with rfl | hpath
    · have hput : ∀ p, p = path → Q ((w.put path r.1).files p) := by
        rintro p rfl
        rw [put_files_self]
        exact hQ p _ r hfirst
      have hkeep := @mutatePaths_files α mutator (fun p state => p = path → Q state) rest
        (fun p _ state r' hr' _ _ => hQ p state r' hr') (w.put path r.1) hput path rfl
      rw [hrest] at hkeep
      exact hkeep
    · exact ih hrest path hpath

theorem mutatePaths_total (hmutator : ∀ path s, ∃ r, mutator path s = .ok r) (paths : List String) :
    ∀ w : StoreWorld, ∃ as w', mutatePaths mutator paths w = (.ok as, w') := by
  induction paths with
  | nil => exact fun w => ⟨[], w, rfl⟩
  | cons path rest ih =>
    intro w
    obtain ⟨r, hr⟩ := hmutator path (w.files path)
    obtain ⟨as, w', hrest⟩ := ih (w.put path r.1)
    exact ⟨_, w', mutatePaths_cons_ok.2 ⟨r, as, hr, hrest, rfl⟩⟩

theorem editJobs_total {edit : AgentCronJob → Except String (Option AgentCronJob)}
    (hedit : ∀ job, ∃ edited, edit job = .ok edited) (jobs : List AgentCronJob) :
    ∃ r, editJobs edit jobs = .ok r := by
  induction jobs with
  | nil => exact ⟨_, rfl⟩
  | cons job rest ih =>
    obtain ⟨edited, hjob⟩ := hedit job
    obtain ⟨r, hr⟩ := ih
    cases edited with
    | none | some => exact ⟨_, by rw [editJobs, hjob, hr]; rfl⟩

variable {now : Instant}

theorem recordDispatchInState_gone {zone : Zone} {dispatchId : String}
    {outcome : AgentCronJobRunResult} {error : Option String} {state : CronJobsState}
    {r : CronJobsState × List AgentCronJob}
    (h : recordDispatchInState zone dispatchId now outcome error state = .ok r) :
    ∀ d ∈ r.1.dispatches, d.id ≠ dispatchId := by
  intro d hd hid
  unfold recordDispatchInState at h
  split at h
  · rename_i hfind
    cases h
    exact find?_eq_none.1 hfind d hd (decide_eq_true hid)
  · obtain ⟨jobs, -, h⟩ := bind_ok.1 h
    cases h
    exact of_decide_eq_true (mem_filter.1 hd).2 hid

theorem recoverInterruptedInState_gone {isInterrupted : AgentCronDispatchRecord → Bool}
    {state : CronJobsState} {r : CronJobsState × List AgentCronJob}
    (h : recoverInterruptedInState isInterrupted now state = .ok r) :
    ∀ d ∈ r.1.dispatches, isInterrupted d = false := by
  intro d hd
  unfold recoverInterruptedInState at h
  simp only [] at h
  split at h
  · rename_i hnone
    cases h
    exact Bool.not_eq_true _ ▸ filter_eq_nil_iff.1 hnone d hd
  · obtain ⟨jobs, -, h⟩ := bind_ok.1 h
    cases h
    exact Bool.not_eq_true' _ ▸ (mem_filter.1 hd).2

theorem recoverInterruptedInState_total (isInterrupted : AgentCronDispatchRecord → Bool) (now : Instant)
    (state : CronJobsState) : ∃ r, recoverInterruptedInState isInterrupted now state = .ok r := by
  have hedit : ∀ ids job, ∃ edited, recoverJob ids now job = .ok edited := by
    intro ids job
    unfold recoverJob
    split
    · exact ⟨_, rfl⟩
    · exact ⟨_, rfl⟩
  unfold recoverInterruptedInState
  simp only []
  split
  · exact ⟨_, rfl⟩
  · obtain ⟨r, hr⟩ := editJobs_total (hedit _) state.jobs
    exact ⟨_, by rw [hr]; rfl⟩

/-- A change of all files that does not throw and leaves no dispatch with the id in any of them. -/
theorem noDispatch_of_mutate {id : String} {as : List α}
    (hmutator : ∀ path s r, mutator path s = .ok r → ∀ d ∈ r.1.dispatches, d.id ≠ id)
    (h : mutateStates mutator w = (.ok as, w')) : NoDispatch id w' := by
  have hmode := mutatePaths_mode mutator w.mode.paths w
  rw [mutateStates] at h
  rw [h] at hmode
  rw [NoDispatch, hmode]
  exact mutatePaths_all (Q := fun state => ∀ d ∈ state.dispatches, d.id ≠ id) hmutator h

theorem recordDispatchResult_noDispatch {host : Host} {dispatchId : String}
    {outcome : AgentCronJobRunResult} {error : Option String} {updated : List AgentCronJob}
    (h : recordDispatchResult host dispatchId now outcome error w = (.ok updated, w')) : NoDispatch dispatchId w' :=
  noDispatch_of_mutate (fun _ _ _ => recordDispatchInState_gone) h

theorem recordDispatchResult_ran (host : Host) (dispatchId : String) (now : Instant) (error : Option String)
    (w : StoreWorld) : ∃ updated w', recordDispatchResult host dispatchId now .ran error w = (.ok updated, w') := by
  refine mutatePaths_total (fun _ state => ?_) w.mode.paths w
  have hedit : ∀ jobId job, ∃ edited, finishJob host.zone jobId now .ran error job = .ok edited := by
    intro jobId job
    unfold finishJob
    split
    · exact ⟨_, rfl⟩
    · rw [if_neg (fun h => by cases h.1)]
      exact ⟨_, rfl⟩
  unfold recordDispatchInState
  split
  · exact ⟨_, rfl⟩
  · rename_i dispatch _
    obtain ⟨r, hr⟩ := editJobs_total (hedit dispatch.jobId) state.jobs
    exact ⟨_, by rw [hr]; rfl⟩

theorem recoverInterruptedDispatchesById_ok (dispatchIds : List String) (now : Instant) (w : StoreWorld) :
    ∃ recovered w', recoverInterruptedDispatchesById dispatchIds now w = (.ok recovered, w') ∧
      ∀ id ∈ dispatchIds, NoDispatch id w' := by
  have htotal := mutatePaths_total (fun (_ : String) => recoverInterruptedInState_total
    (fun d => decide (d.id ∈ dispatchIds)) now) w.mode.paths w
  obtain ⟨recovered, w', h⟩ := htotal
  refine ⟨recovered, w', h, fun id hid => noDispatch_of_mutate ?_ h⟩
  rintro _ state r hr d hd rfl
  exact of_decide_eq_false (recoverInterruptedInState_gone hr d hd) hid

end Store

/-! ## Runs -/

/-- What has to go well. -/
def Guard (host : Host) (s : AgentCronScheduler) : SchedulerAction → Prop
  -- `claimDue` returns, or throws before it has claimed anything.
  | .runDue dueAt claimedAt _ ids _ =>
    (s.stopped && s.hasStarted) = true ∨
      match claimDue host dueAt claimedAt ids s.world with
      | (.ok _, _) => True
      | (.error _, w) =>
        ∀ path ∈ s.world.mode.paths, (w.files path).dispatches = (s.world.files path).dispatches
  -- The store can record that the job is gone.
  | .startTask k now =>
    ∀ c ∈ s.claimed[k]?, getClaimedJob c.dispatch.job.id s.world = none →
      (recordDispatchResult host c.dispatch.id now .skipped none s.world).1.isOk = true
  -- The store can record a skip, and `onError` does not throw.
  | .finishTask k now run =>
    match run with
    | .returned result =>
      result = some .skipped → ∀ c ∈ s.claimed[k]?,
        (recordDispatchResult host c.dispatch.id now .skipped none s.world).1.isOk = true
    | .threw _ onErrorThrows => onErrorThrows = false
  | .leaveLane _ => True
  -- The first start finds no dispatch in flight.
  | .start _ => s.hasStarted = true ∨ ∀ c ∈ s.claimed, c.phase.over = true
  | .stop => True
  | .store _ _ => True

namespace AgentCronScheduler

namespace Inv

variable {s : AgentCronScheduler}

variable {s' : AgentCronScheduler}

theorem congr (h : s.Inv) (hlanes : s'.dispatchLanes = s.dispatchLanes)
    (hclaimed : s'.claimed = s.claimed) (hreturned : s'.unreturned = s.unreturned) : s'.Inv := by
  refine ⟨?_, ?_, ?_, ?_, ?_⟩
  · rw [hclaimed]
    exact h.counted
  · rw [hclaimed, hlanes]
    exact h.lanes
  · rw [hclaimed]
    exact h.before
  · rw [hclaimed]
    exact h.begun
  · rw [hreturned]
    exact h.returned

variable {k : Nat} {c : ClaimedDispatch}

theorem advance (h : s.Inv) (hk : s.claimed[k]? = some c) (c' : ClaimedDispatch)
    (hphase : c.phase = .waiting ∧ s.free c = true ∨ ∃ job, c.phase = .running job)
    (hcounted : c'.Counted) (hdispatch : c'.dispatch = c.dispatch) (hprevious : c'.previous = c.previous)
    (hbegun : c'.phase.begun = true) (hlanes : s'.dispatchLanes = s.dispatchLanes)
    (hclaimed : s'.claimed = s.claimed.set k c') (hreturned : s'.unreturned = s.unreturned) : s'.Inv := by
  have hlt := (List.getElem?_eq_some_iff.1 hk).1
  have hkey : c'.laneKey = c.laneKey := by rw [ClaimedDispatch.laneKey, ClaimedDispatch.laneKey, hdispatch]
  have hc : c.phase ≠ .recovered ∧ c.phase ≠ .settled := by
    rcases hphase with ⟨hphase, -⟩ | ⟨job, hphase⟩
    · rw [hphase]
      exact ⟨DispatchPhase.noConfusion, DispatchPhase.noConfusion⟩
    · rw [hphase]
      exact ⟨DispatchPhase.noConfusion, DispatchPhase.noConfusion⟩
  have hc' : c'.phase ≠ .recovered := fun hrecovered => by
    rw [hrecovered] at hbegun
    cases hbegun
  have hinLane : ∀ key i, InLane (s.claimed.set k c') key i ↔ InLane s.claimed key i := fun _ =>
    inLane_set hk hkey hc.1 hc'
  have hsettled : ∀ i, SettledAt s.claimed i → SettledAt (s.claimed.set k c') i := fun _ hs => hs.set hk hc.2
  have hcloses : ∀ {key n last}, Closes s.claimed key n last → Closes (s.claimed.set k c') key n last :=
    fun hcloses => hcloses.congr (fun i _ => hinLane _ i) hsettled
  have hfree : ∀ p ∈ c.previous, SettledAt s.claimed p := by
    rcases hphase with ⟨-, hfree⟩ | ⟨job, hphase⟩
    · exact free_iff.1 hfree
    · exact h.begun k c hk (by rw [hphase]; rfl)
  refine ⟨?_, ?_, ?_, ?_, ?_⟩
  · rw [hclaimed]
    intro d hd
    rcases mem_or_eq_of_mem_set hd with hd | rfl
    · exact h.counted d hd
    · exact hcounted
  · rw [hclaimed, hlanes, length_set]
    exact fun key => hcloses (h.lanes key)
  · rw [hclaimed]
    intro j d hd hrecovered
    by_cases hj : j = k
    · subst hj
      rw [List.getElem?_set_self hlt] at hd
      cases hd
      rw [hkey, hprevious]
      exact hcloses (h.before j c hk hc.1)
    · rw [getElem?_set_ne (Ne.symm hj)] at hd
      exact hcloses (h.before j d hd hrecovered)
  · rw [hclaimed]
    intro j d hd hd' p hp
    by_cases hj : j = k
    · subst hj
      rw [List.getElem?_set_self hlt] at hd
      cases hd
      rw [hprevious] at hp
      exact hsettled p (hfree p hp)
    · rw [getElem?_set_ne (Ne.symm hj)] at hd
      exact hsettled p (h.begun j d hd hd' p hp)
  · rw [hreturned]
    exact h.returned

theorem concat (h : s.Inv) (hcounted : c.Counted) (hbegun : c.phase.begun = false)
    (hprevious : c.phase ≠ .recovered → c.previous = s.dispatchLanes.get? c.laneKey)
    (hlanes : ∀ key, s'.dispatchLanes.get? key =
      if c.phase ≠ .recovered ∧ key = c.laneKey then some s.claimed.length else s.dispatchLanes.get? key)
    (hclaimed : s'.claimed = s.claimed ++ [c]) (hreturned : s'.unreturned = s.unreturned) : s'.Inv := by
  have hold : ∀ {j : Nat} {d : ClaimedDispatch}, s.claimed[j]? = some d → j ≤ s.claimed.length := fun hd =>
    Nat.le_of_lt (List.getElem?_eq_some_iff.1 hd).1
  refine ⟨?_, ?_, ?_, ?_, ?_⟩
  · rw [hclaimed]
    intro d hd
    rcases mem_append.1 hd with hd | hd
    · exact h.counted d hd
    · rw [mem_singleton.1 hd]
      exact hcounted
  · rw [hclaimed, length_append, length_singleton]
    intro key
    rw [hlanes]
    have hthere : ∀ i, i = s.claimed.length → InLane (s.claimed ++ [c]) key i →
        c.phase ≠ .recovered ∧ key = c.laneKey := by
      rintro i rfl ⟨d, hd, hkey, hphase⟩
      rw [getElem?_concat_length] at hd
      cases hd
      exact ⟨hphase, hkey.symm⟩
    by_cases hin : c.phase ≠ .recovered ∧ key = c.laneKey
    · rw [if_pos hin]
      refine ⟨Nat.lt_succ_self _, ⟨c, getElem?_concat_length, hin.2.symm, hin.1⟩, ?_⟩
      exact fun i hi _ => Nat.le_of_lt_succ hi
    · rw [if_neg hin]
      have hcloses := (h.lanes key).append [c] (Nat.le_refl _)
      cases hlast : s.dispatchLanes.get? key with
      | none =>
        rw [hlast] at hcloses
        intro i hi hi'
        rcases Nat.eq_or_lt_of_le (Nat.le_of_lt_succ hi) with heq | hlt
        · exact absurd (hthere i heq hi') hin
        · exact hcloses i hlt hi'
      | some last =>
        rw [hlast] at hcloses
        refine ⟨Nat.lt_succ_of_lt hcloses.1, hcloses.2.1, fun i hi hi' => ?_⟩
        rcases Nat.eq_or_lt_of_le (Nat.le_of_lt_succ hi) with heq | hlt
        · exact absurd (hthere i heq hi') hin
        · exact hcloses.2.2 i hlt hi'
  · rw [hclaimed]
    intro j d hd hphase
    rcases getElem?_concat_cases hd with hd | ⟨rfl, rfl⟩
    · exact (h.before j d hd hphase).append [c] (hold hd)
    · rw [hprevious hphase]
      exact (h.lanes _).append [d] (Nat.le_refl _)
  · rw [hclaimed]
    intro j d hd hd' p hp
    rcases getElem?_concat_cases hd with hd | ⟨rfl, rfl⟩
    · exact (h.begun j d hd hd' p hp).append [c]
    · rw [hbegun] at hd'
      cases hd'
  · rw [hreturned]
    exact h.returned

variable {w : StoreWorld}

theorem recovered (h : s.Inv) {dispatch : AgentCronDispatch} (hw : NoDispatch dispatch.id w)
    (endDispatch : Bool) : Inv { s with claimed := s.claimed ++ [recoveredDispatch w dispatch endDispatch] } := by
  refine h.concat ⟨rfl, ?_, ?_⟩ rfl (fun hphase => absurd rfl hphase) ?_ rfl rfl
  · intro w' hw'
    rw [mem_singleton.1 hw']
    exact hw
  · rfl
  · intro key
    rw [if_neg fun h => h.1 rfl]

theorem queueDispatch (h : s.Inv) (dispatch : AgentCronDispatch) (endDispatch : Bool) :
    (s.queueDispatch dispatch endDispatch).Inv := by
  refine h.concat ⟨rfl, fun w hw => absurd hw not_mem_nil, rfl⟩ rfl (fun _ => rfl) ?_ rfl rfl
  intro key
  rw [AgentCronScheduler.queueDispatch, OrderedMap.get?_set]
  exact if_congr (iff_and_self.2 fun _ => DispatchPhase.noConfusion) rfl rfl

theorem queueDispatches (begun : List (AgentCronDispatch × Bool)) : ∀ {s : AgentCronScheduler}, s.Inv →
    (begun.foldl (fun s d => s.queueDispatch d.1 d.2) s).Inv := by
  induction begun with
  | nil => exact fun h => h
  | cons d begun ih => exact fun h => ih (h.queueDispatch d.1 d.2)

theorem recoveredAll (w : StoreWorld) (batch : List (AgentCronDispatch × Bool))
    (hw : ∀ d ∈ batch, NoDispatch d.1.id w) : ∀ {s : AgentCronScheduler}, s.Inv →
      Inv { s with claimed := s.claimed ++ batch.map fun d => recoveredDispatch w d.1 d.2 } := by
  induction batch with
  | nil =>
    intro s h
    refine h.congr rfl ?_ rfl
    exact append_nil _
  | cons d batch ih =>
    intro s h
    obtain ⟨hd, hw⟩ := forall_mem_cons.1 hw
    refine (ih hw (h.recovered hd d.2)).congr rfl ?_ rfl
    exact (append_cons _ _ _)

theorem giveUp (h : s.Inv) {dispatches : List AgentCronDispatch} {begun : List (AgentCronDispatch × Bool)}
    (hbegun : ∀ d ∈ begun, d.1 ∈ dispatches) (recoveredAt : Instant) :
    (s.giveUp dispatches begun recoveredAt).Inv := by
  obtain ⟨_, w, hrecover, hw⟩ :=
    recoverInterruptedDispatchesById_ok (dispatches.map (·.id)) recoveredAt s.world
  have hgone : ∀ d ∈ dispatches, NoDispatch d.id w := fun d hd => hw d.id (mem_map_of_mem hd)
  rw [AgentCronScheduler.giveUp, hrecover]
  refine ((h.recoveredAll w begun fun d hd => hgone d.1 (hbegun d hd)).recoveredAll w
    ((dispatches.drop begun.length).map (·, false)) ?_).congr rfl ?_ rfl
  · intro d hd
    obtain ⟨dispatch, hmem, rfl⟩ := mem_map.1 hd
    exact hgone dispatch (mem_of_mem_drop hmem)
  · rw [map_map]
    rfl

theorem mem_beginDispatches {beginDispatch : Nat → Option Bool} {dispatches : List AgentCronDispatch} :
    ∀ {n : Nat}, ∀ d ∈ (beginDispatches beginDispatch n dispatches).1, d.1 ∈ dispatches := by
  induction dispatches with
  | nil => exact fun d hd => absurd hd not_mem_nil
  | cons dispatch rest ih =>
    intro n d hd
    rw [beginDispatches] at hd
    split at hd
    · cases hd
    · rcases mem_cons.1 hd with rfl | hd
      · exact mem_cons_self
      · exact mem_cons_of_mem _ (ih d hd)

theorem newDispatches_eq_nil {w' : StoreWorld}
    (h : ∀ path ∈ w.mode.paths, (w'.files path).dispatches = (w.files path).dispatches) :
    newDispatches w w' = [] := by
  refine flatMap_eq_nil_iff.2 fun path hpath => filter_eq_nil_iff.2 fun d hd => ?_
  rw [h path hpath] at hd
  simpa using hd

variable {host : Host}

theorem runDue (h : s.Inv) {dueAt claimedAt recoveredAt : Instant} {ids : String → Nat → String}
    {beginDispatch : Nat → Option Bool} (hg : Guard host s (.runDue dueAt claimedAt recoveredAt ids beginDispatch)) :
    (s.runDue host dueAt claimedAt recoveredAt ids beginDispatch).Inv := by
  rw [AgentCronScheduler.runDue]
  split
  · exact h
  · rename_i hruns
    replace hg := hg.resolve_left hruns
    split
    · rename_i e w hclaim
      rw [hclaim] at hg
      refine h.congr rfl rfl ?_
      show s.unreturned ++ newDispatches s.world w = s.unreturned
      rw [newDispatches_eq_nil hg, append_nil]
    · rename_i dispatches w hclaim
      have hworld : Inv { s with world := w } := h.congr rfl rfl rfl
      split
      · exact hworld.queueDispatches _
      · rename_i begun hbegun
        refine hworld.giveUp (fun d hd => ?_) recoveredAt
        have hmem := @mem_beginDispatches beginDispatch dispatches 0 d
        rw [hbegun] at hmem
        exact hmem hd

theorem settle (h : s.Inv) (hk : s.claimed[k]? = some c)
    (hphase : c.phase = .waiting ∧ s.free c = true ∨ ∃ job, c.phase = .running job)
    (hw : NoDispatch c.dispatch.id w) :
    (AgentCronScheduler.settle { s with world := w } k { c with stored := c.stored ++ [w] }).Inv := by
  have hover : c.phase.over = false := by
    rcases hphase with ⟨hphase, -⟩ | ⟨job, hphase⟩
    · rw [hphase]
      rfl
    · rw [hphase]
      rfl
  obtain ⟨hstored, -, hended⟩ := h.counted c (mem_of_getElem? hk)
  rw [hover] at hstored hended
  have hnil : c.stored = [] := eq_nil_of_length_eq_zero hstored
  refine h.advance hk
    { c with
      phase := .settled, stored := c.stored ++ [w], ended := if c.endDispatch then c.ended + 1 else c.ended }
    hphase ⟨?_, ?_, ?_⟩ rfl rfl rfl rfl rfl rfl
  · rw [hnil]
    rfl
  · intro w' hw'
    rw [hnil, nil_append] at hw'
    rw [mem_singleton.1 hw']
    exact hw
  · show (if c.endDispatch = true then c.ended + 1 else c.ended) = _
    rw [hended]
    rfl

variable {now : Instant}

theorem record (h : s.Inv) {outcome : AgentCronJobRunResult} {error : Option String} (hk : s.claimed[k]? = some c)
    (hphase : c.phase = .waiting ∧ s.free c = true ∨ ∃ job, c.phase = .running job)
    (hok : (recordDispatchResult host c.dispatch.id now outcome error s.world).1.isOk = true) :
    (s.record host now outcome error k c).Inv := by
  rw [AgentCronScheduler.record]
  split
  · rename_i hrecord
    rw [hrecord] at hok
    cases hok
  · rename_i hrecord
    exact h.settle hk hphase (recordDispatchResult_noDispatch hrecord)

theorem record_ran (h : s.Inv) {error : Option String}
    (hk : s.claimed[k]? = some c) {job : AgentCronJob} (hphase : c.phase = .running job) :
    (s.record host now .ran error k c).Inv := by
  refine h.record hk (.inr ⟨job, hphase⟩) ?_
  obtain ⟨updated, w, hrecord⟩ := recordDispatchResult_ran host c.dispatch.id now error s.world
  rw [hrecord]
  rfl

theorem leaveLane (h : s.Inv) (hk : s.claimed[k]? = some c)
    (hphase : c.phase = .settled) (hlast : s.dispatchLanes.get? c.laneKey = some k) :
    Inv { s with dispatchLanes := s.dispatchLanes.delete c.laneKey } := by
  refine ⟨h.counted, fun key => ?_, h.before, h.begun, h.returned⟩
  show Closes s.claimed key s.claimed.length ((s.dispatchLanes.delete c.laneKey).get? key)
  rw [OrderedMap.get?_delete]
  by_cases hkey : key = c.laneKey
  · rw [if_pos hkey]
    have hcloses := h.lanes key
    rw [hkey, hlast] at hcloses
    intro i hi hin
    rcases Nat.eq_or_lt_of_le (hcloses.2.2 i hi (hkey ▸ hin)) with rfl | hlt
    · exact ⟨c, hk, hphase⟩
    · exact h.settled_before hk (by rw [hphase]; rfl) i hlt (hkey ▸ hin)
  · rw [if_neg hkey]
    exact h.lanes key

theorem start (h : s.Inv) (hg : s.hasStarted = true ∨ ∀ c ∈ s.claimed, c.phase.over = true) :
    (s.start now).Inv := by
  rw [AgentCronScheduler.start]
  split
  · exact h.congr rfl rfl rfl
  · rename_i hstarted
    refine h.congr rfl ?_ rfl
    refine (map_congr_left fun c hc => ?_).trans (map_id _)
    exact if_pos (hg.resolve_left hstarted c hc)

theorem init (world : StoreWorld) : (AgentCronScheduler.init world).Inv where
  counted c hc := absurd hc not_mem_nil
  lanes key i hi := absurd hi (Nat.not_lt_zero i)
  before j c hc := by cases hc
  begun j c hc := by cases hc
  returned := rfl

theorem step {s : AgentCronScheduler} {a : SchedulerAction} (h : s.Inv) (hg : Guard host s a)
    (hstep : AgentCronScheduler.step host s a = some s') : s'.Inv := by
  cases a with
  | runDue dueAt claimedAt recoveredAt ids beginDispatch =>
    cases hstep
    exact h.runDue hg
  | startTask k now =>
    simp only [AgentCronScheduler.step] at hstep
    split at hstep
    · cases hstep
    · rename_i c hk
      split at hstep
      · rename_i hready
        cases hstep
        rw [AgentCronScheduler.startTask]
        split
        · rename_i hjob
          exact h.record hk (.inl hready) (hg c hk hjob)
        · rename_i job _
          have hcounted := h.counted c (mem_of_getElem? hk)
          refine h.advance hk { c with phase := .running job } (.inl hready) ⟨?_, hcounted.gone, ?_⟩ rfl rfl rfl
            rfl rfl rfl
          · rw [hcounted.stored, hready.1]
            rfl
          · rw [hcounted.ended, hready.1]
            rfl
      · cases hstep
  | finishTask k now run =>
    simp only [AgentCronScheduler.step] at hstep
    split at hstep
    · cases hstep
    · rename_i c hk
      split at hstep
      · rename_i job hphase
        cases hstep
        cases run with
        | returned result =>
          rw [AgentCronScheduler.finishTask]
          split
          · rename_i hskipped
            exact h.record hk (.inr ⟨job, hphase⟩) (hg hskipped c hk)
          · exact h.record_ran hk hphase
        | threw error onErrorThrows =>
          obtain rfl : onErrorThrows = false := hg
          exact h.record_ran hk hphase
      · cases hstep
  | leaveLane k =>
    simp only [AgentCronScheduler.step] at hstep
    split at hstep
    · cases hstep
    · rename_i c hk
      split at hstep
      · rename_i hphase
        cases hstep
        split
        · rename_i hlast
          exact h.leaveLane hk hphase hlast
        · exact h
      · cases hstep
  | start now =>
    cases hstep
    exact h.start hg
  | stop =>
    cases hstep
    exact h.congr rfl rfl rfl
  | store op now =>
    cases hstep
    exact h.congr rfl rfl rfl

end Inv

/-- In a run in which everything that can throw there goes well, each dispatch that `runDue` has claimed is recorded
or recovered once, its end is called once, and the jobs of a session run one after another. -/
theorem dispatched_of_run {host : Host} {world : StoreWorld} {s : AgentCronScheduler}
    (h : Transition.GuardedRuns (step host) (Guard host) (init world) s) : s.Kept :=
  (Transition.GuardedRuns.keeps h (Inv.init world) fun _ _ _ hinv hg hstep => hinv.step hg hstep).kept

instance (host : Host) (s : AgentCronScheduler) (a : SchedulerAction) : Decidable (Guard host s a) :=
  match a with
  | .runDue dueAt claimedAt _ ids _ =>
    match h : claimDue host dueAt claimedAt ids s.world with
    | (.ok _, _) => .isTrue (.inr (by rw [h]; trivial))
    | (.error _, w) => decidable_of_iff ((s.stopped && s.hasStarted) = true ∨
        ∀ path ∈ s.world.mode.paths, (w.files path).dispatches = (s.world.files path).dispatches)
        (by rw [Guard, h])
  | .startTask k now => inferInstanceAs (Decidable (∀ c ∈ s.claimed[k]?,
      getClaimedJob c.dispatch.job.id s.world = none →
        (recordDispatchResult host c.dispatch.id now .skipped none s.world).1.isOk = true))
  | .finishTask k now (.returned result) => inferInstanceAs (Decidable (result = some .skipped →
      ∀ c ∈ s.claimed[k]?, (recordDispatchResult host c.dispatch.id now .skipped none s.world).1.isOk = true))
  | .finishTask _ _ (.threw _ onErrorThrows) => inferInstanceAs (Decidable (onErrorThrows = false))
  | .leaveLane _ => .isTrue trivial
  | .start _ => inferInstanceAs (Decidable (s.hasStarted = true ∨ ∀ c ∈ s.claimed, c.phase.over = true))
  | .stop => .isTrue trivial
  | .store _ _ => .isTrue trivial

end AgentCronScheduler

/-- Two jobs of one session, both due. -/
def busyWorld : StoreWorld where
  mode := .file "jobs.json"
  files path :=
    if path = "jobs.json" then
      { jobs := [everyJob, leapDayJob "hourly" (.interval "every 1h" 3600000) leapEvening everyRun], dispatches := [] }
    else .empty

/-- Both are claimed, and the first throws. -/
def firstThrows (onErrorThrows : Bool) : List SchedulerAction :=
  [.runDue leapDay leapDay leapDay (fun _ n => if n = 0 then "d" else "e") (fun _ => some true),
    .startTask 0 leapDay, .finishTask 0 leapDay (.threw (some "no model") onErrorThrows)]

namespace AgentCronScheduler

theorem dispatched_of_run_throws : ∃ s : AgentCronScheduler, s.Kept ∧ s.claimed.length = 2 ∧
    ∀ c ∈ s.claimed, c.phase = .settled := by
  have hrun : ((Transition.guardedSteps (step utcHost) (Guard utcHost)
      (firstThrows false ++
        [SchedulerAction.startTask 1 leapDay, .finishTask 1 leapDay (.returned (some .ran)), .leaveLane 1])
      (init busyWorld)).any fun s => s.claimed.length = 2 ∧ ∀ c ∈ s.claimed, c.phase = .settled) = true := by
    decide
  obtain ⟨s, hrun, hall⟩ := Transition.exists_guardedRun hrun
  exact ⟨s, dispatched_of_run hrun, of_decide_eq_true hall⟩

/-- `onError` throws too: the dispatch is over, and the store has not been told. -/
theorem dispatch_unrecorded : ∃ s : AgentCronScheduler,
    Transition.Runs (step utcHost) (init busyWorld) s ∧ ¬ s.Kept := by
  have hrun : ((Transition.steps (step utcHost) (firstThrows true) (init busyWorld)).any fun s =>
      s.claimed.any fun c => c.phase.over ∧ c.stored.length = 0) = true := by
    decide
  obtain ⟨s, hrun, hlost⟩ := Transition.exists_run hrun
  refine ⟨s, hrun, fun hkept => ?_⟩
  obtain ⟨c, hc, hlost⟩ := any_eq_true.1 hlost
  obtain ⟨hover, hnone⟩ := of_decide_eq_true hlost
  have hstored := (hkept.counted c hc).stored
  rw [hnone, hover] at hstored
  cases hstored

end AgentCronScheduler

end Cron
end RePrime
