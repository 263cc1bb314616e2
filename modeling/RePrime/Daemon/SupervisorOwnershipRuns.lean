import RePrime.Lib.Runs
import RePrime.Daemon.SupervisorOwnership

/-!
# RePrime.Daemon.SupervisorOwnershipRuns

What holds in every run of supervisors and shutdowns on one registry.

* `Apart`: each live owner is what its directory says, and no two of them are in each other's way.
* `Granted`: whose admission is in the file, and what has happened since it was granted.
* `sole_owner_of_run`, `registered_of_run`: what that means for every run.
-/

namespace RePrime
namespace Daemon
namespace SupervisorOwnership
namespace State

open List Option
open Event
open OrderedMap

variable {σ σ' : State}

/-! ## Holders -/

/-- The identity that the process wrote down of itself. -/
def Identifies (σ : State) (process : Nat) (identity : ProcessIdentity) : Prop :=
  ∃ p, σ.processes[process]? = some p ∧ identity.pid = p.pid ∧
    ∀ startId ∈ identity.processStartId, startId = p.startId

/-- The owner's directory is as the owner has left it. -/
def Registered (σ : State) (o : Ownership) : Prop :=
  ∃ d owner, σ.owners.get? o.record.scope.generation = some d ∧ d.owner = some owner ∧
    d.scope = some o.record.scope ∧ d.hasFiles = true ∧
    owner.scope = o.record.scope ∧ owner.identity = o.record.identity

structure Apart (σ : State) : Prop where
  pids : ∀ (i j : Nat) (p q : Process), σ.processes[i]? = some p → σ.processes[j]? = some q →
    p.alive = true → q.alive = true →
    p.pid = q.pid → i = j
  identities : ∀ (i : Nat) o, σ.ownerships[i]? = some o → σ.Identifies o.process o.record.identity
  registered : ∀ i o, σ.Holds i o → σ.Registered o
  apart : ∀ i j o o', σ.Holds i o → σ.Holds j o' → i ≠ j → ownerConflicts o.record.scope o'.record.scope = false
  tokens : ∀ (i j : Nat) o o', σ.ownerships[i]? = some o → σ.ownerships[j]? = some o' →
    o.record.scope.token = o'.record.scope.token → i = j
  fresh : ∀ (i : Nat) o, σ.ownerships[i]? = some o → o.record.scope.token < σ.nextToken

/-- Every owner in the record's way is still to be looked at. -/
def Scanned (σ : State) (record : DaemonSupervisorOwnerRecord) (todo : List String) : Prop :=
  ∀ i o, σ.Holds i o → ownerConflicts o.record.scope record.scope = true → o.record.scope.generation ∈ todo

def AcquirePhase.Fits (σ : State) (record : DaemonSupervisorOwnerRecord) : AcquirePhase → Prop
  | .checking | .expiring => True
  | .listing => σ.admissionFile = .absent
  | .scanning todo => σ.admissionFile = .absent ∧ σ.Scanned record todo
  | .reclaiming directory todo => σ.admissionFile = .absent ∧ σ.Scanned record todo ∧
      ∀ i o, σ.Holds i o → o.record.scope.generation ≠ directory
  | .placing => σ.admissionFile = .absent ∧ σ.Scanned record []

/-- What the process under the guard has found out still holds. -/
def Section.Fits (σ : State) (process : Nat) : Section → Prop
  | .acquire record phase => σ.Identifies process record.identity ∧ record.scope.token < σ.nextToken ∧
      (∀ (i : Nat) o, σ.ownerships[i]? = some o → o.record.scope.token ≠ record.scope.token) ∧
      AcquirePhase.Fits σ record phase
  | .updatePhase ownership _ (some current) => ∃ o d owner, σ.ownerships[ownership]? = some o ∧
      σ.owners.get? o.record.scope.generation = some d ∧ d.owner = some owner ∧
      current.scope = owner.scope ∧ current.identity = owner.identity
  | .release ownership true => ∃ o d owner, σ.ownerships[ownership]? = some o ∧
      σ.owners.get? o.record.scope.generation = some d ∧ d.owner = some owner ∧
      owner.scope.token = o.record.scope.token
  | .acquireAdmission _ .writing => σ.admissionFile = .absent
  | .renew admission true => ∃ a current, σ.admissions[admission]? = some a ∧
      σ.admissionFile = .record current ∧ current.token = a.record.token
  | _ => True

/-! ## Admissions -/

/-- Since the token was granted there have been renewals of it only. -/
def Standing (log : List Event) (token : Nat) : Prop :=
  ∃ before since, log = before ++ granted token :: since ∧ ∀ e ∈ since, e = .renewed token

/-- Every renewal is of a token that stood then. -/
def Renewals (log : List Event) : Prop :=
  ∀ before token after, log = before ++ renewed token :: after → Standing before token

/-- No token is granted twice. -/
def GrantedOnce (log : List Event) : Prop :=
  ∀ before token after, log = before ++ granted token :: after → .granted token ∉ before

structure Granted (σ : State) : Prop where
  fresh : ∀ a ∈ σ.admissions, a.record.token < σ.nextToken
  issued : ∀ token, .granted token ∈ σ.log → token < σ.nextToken
  once : GrantedOnce σ.log
  standing : ∀ current a, σ.admissionFile = .record current → a ∈ σ.admissions →
    a.record.token = current.token → Standing σ.log current.token
  renewals : Renewals σ.log

variable {log : List Event} {token : Nat}

theorem Standing.renewed (h : Standing log token) :
    Standing (log ++ [renewed token]) token := by
  obtain ⟨before, since, rfl, hsince⟩ := h
  refine ⟨before, since ++ [renewed token], by simp, ?_⟩
  intro e he
  simp only [mem_append, mem_singleton] at he
  rcases he with he | rfl
  · exact hsince e he
  · rfl

theorem Standing.granted (log : List Event) (token : Nat) : Standing (log ++ [granted token]) token :=
  ⟨log, [], rfl, by simp⟩

variable {e : Event}

theorem GrantedOnce.concat (h : GrantedOnce log)
    (he : ∀ token, e = .granted token → .granted token ∉ log) : GrantedOnce (log ++ [e]) := by
  intro before token after hsplit
  rcases eq_nil_or_concat after with rfl | ⟨after', last, rfl⟩
  · obtain ⟨rfl, hlast⟩ := append_inj' hsplit rfl
    exact he token (List.cons.inj hlast).1
  · rw [concat_eq_append, ← cons_append, ← append_assoc] at hsplit
    exact h before token after' (append_inj' hsplit rfl).1

theorem Renewals.concat (h : Renewals log)
    (he : ∀ token, e = .renewed token → Standing log token) : Renewals (log ++ [e]) := by
  intro before token after hsplit
  rcases eq_nil_or_concat after with rfl | ⟨after', last, rfl⟩
  · obtain ⟨rfl, hlast⟩ := append_inj' hsplit rfl
    exact he token (List.cons.inj hlast).1
  · rw [concat_eq_append, ← cons_append, ← append_assoc] at hsplit
    exact h before token after' (append_inj' hsplit rfl).1

/-! ## Frames -/

variable {i : Nat} {o : Ownership}

theorem Holds.mono (h : σ'.Holds i o) (hp : σ'.processes = σ.processes)
    (ho : σ'.ownerships = σ.ownerships) : σ.Holds i o := by
  refine ⟨ho ▸ h.get, h.unreleased, ?_⟩
  have halive := h.alive
  rw [IsAlive, hp] at halive
  exact halive

theorem Registered.mono (h : σ.Registered o) (hd : σ'.owners = σ.owners) : σ'.Registered o := by
  unfold Registered
  rw [hd]
  exact h

theorem Apart.mono (h : σ.Apart) (hp : σ'.processes = σ.processes) (ht : σ.nextToken ≤ σ'.nextToken)
    (ho : ∀ (i : Nat) o', σ'.ownerships[i]? = some o' → ∃ o, σ.ownerships[i]? = some o ∧
      o.process = o'.process ∧ o.record.scope = o'.record.scope ∧ o.record.identity = o'.record.identity ∧
      (o'.released = false → o.released = false))
    (hr : ∀ i o, σ'.Holds i o → σ'.Registered o) : σ'.Apart := by
  have hholds : ∀ i o', σ'.Holds i o' → ∃ o, σ.Holds i o ∧ o.record.scope = o'.record.scope := by
    intro i o' hi
    obtain ⟨o, hget, hprocess, hscope, -, hreleased⟩ := ho i o' hi.get
    have halive := hi.alive
    rw [IsAlive, hp, ← hprocess] at halive
    exact ⟨o, ⟨hget, hreleased hi.unreleased, halive⟩, hscope⟩
  constructor
  case pids => rw [hp]; exact h.pids
  case identities =>
    intro i o' hi
    obtain ⟨o, hget, hprocess, -, hidentity, -⟩ := ho i o' hi
    have hid := h.identities i o hget
    rw [hprocess, hidentity] at hid
    unfold Identifies at hid ⊢
    rw [hp]
    exact hid
  case registered => exact hr
  case apart =>
    intro i j o o' hi hj hne
    obtain ⟨p, hpi, hps⟩ := hholds i o hi
    obtain ⟨q, hqj, hqs⟩ := hholds j o' hj
    rw [← hps, ← hqs]
    exact h.apart i j p q hpi hqj hne
  case tokens =>
    intro i j o o' hi hj heq
    obtain ⟨p, hpi, -, hps, -⟩ := ho i o hi
    obtain ⟨q, hqj, -, hqs, -⟩ := ho j o' hj
    exact h.tokens i j p q hpi hqj (by rw [hps, hqs]; exact heq)
  case fresh =>
    intro i o hi
    obtain ⟨p, hpi, -, hps, -⟩ := ho i o hi
    have := h.fresh i p hpi
    rw [hps] at this
    omega

theorem Apart.same (h : σ.Apart) (hp : σ'.processes = σ.processes) (hd : σ'.owners = σ.owners)
    (ho : σ'.ownerships = σ.ownerships) (ht : σ.nextToken ≤ σ'.nextToken) : σ'.Apart := by
  refine h.mono hp ht ?_ ?_
  · intro i o hi
    exact ⟨o, ho ▸ hi, rfl, rfl, rfl, id⟩
  · intro i o hi
    exact (h.registered i o (hi.mono hp ho)).mono hd

theorem Granted.mono (h : σ.Granted)
    (ha : ∀ a ∈ σ'.admissions, ∃ b ∈ σ.admissions, b.record.token = a.record.token)
    (hf : σ'.admissionFile = σ.admissionFile ∨ σ'.admissionFile = .absent)
    (ht : σ.nextToken ≤ σ'.nextToken) (hl : σ'.log = σ.log) : σ'.Granted where
  fresh := by
    intro a hm
    obtain ⟨b, hb, htoken⟩ := ha a hm
    have := h.fresh b hb
    omega
  issued := by
    intro token hm
    exact Nat.lt_of_lt_of_le (h.issued token (hl ▸ hm)) ht
  once := hl ▸ h.once
  standing := by
    intro current a hfile hm htoken
    rw [hl]
    obtain ⟨b, hb, hbtoken⟩ := ha a hm
    rcases hf with hf | hf
    · exact h.standing current b (hf ▸ hfile) hb (by omega)
    · rw [hf] at hfile
      cases hfile
  renewals := hl ▸ h.renewals

theorem Granted.same (h : σ.Granted) (ha : σ'.admissions = σ.admissions)
    (hf : σ'.admissionFile = σ.admissionFile ∨ σ'.admissionFile = .absent)
    (ht : σ.nextToken ≤ σ'.nextToken) (hl : σ'.log = σ.log) : σ'.Granted :=
  h.mono (fun a hm => ⟨a, ha ▸ hm, rfl⟩) hf ht hl

variable {record : DaemonSupervisorOwnerRecord}

theorem Scanned.mono {todo : List String} (h : σ.Scanned record todo)
    (hh : ∀ i o, σ'.Holds i o → σ.Holds i o) : σ'.Scanned record todo :=
  fun i o hi => h i o (hh i o hi)

theorem AcquirePhase.Fits.mono : ∀ {phase : AcquirePhase},
    AcquirePhase.Fits σ record phase → (∀ i o, σ'.Holds i o → σ.Holds i o) →
    σ'.admissionFile = σ.admissionFile → AcquirePhase.Fits σ' record phase := by
  intro phase h hh hf
  cases phase with
  | checking | expiring => trivial
  | listing => exact hf.trans h
  | scanning todo => exact ⟨hf.trans h.1, h.2.mono hh⟩
  | reclaiming directory todo => exact ⟨hf.trans h.1, h.2.1.mono hh, fun i o hi => h.2.2 i o (hh i o hi)⟩
  | placing => exact ⟨hf.trans h.1, h.2.mono hh⟩

variable {process : Nat}

theorem Section.Fits.mono {task : Section} (h : Section.Fits σ process task)
    (hid : ∀ process identity, σ.Identifies process identity → σ'.Identifies process identity)
    (hh : ∀ i o, σ'.Holds i o → σ.Holds i o) (hd : σ'.owners = σ.owners) (ho : σ'.ownerships = σ.ownerships)
    (hf : σ'.admissionFile = σ.admissionFile) (ht : σ.nextToken ≤ σ'.nextToken)
    (ha : ∀ (i : Nat) a, σ.admissions[i]? = some a →
      ∃ b, σ'.admissions[i]? = some b ∧ b.record.token = a.record.token) : Section.Fits σ' process task := by
  cases task with
  | acquire record phase =>
    obtain ⟨hidentifies, hfresh, hnew, hphase⟩ := h
    refine ⟨hid _ _ hidentifies, by omega, ?_, hphase.mono hh hf⟩
    rw [ho]
    exact hnew
  | updatePhase ownership phase current =>
    cases current with
    | none => trivial
    | some current =>
      simp only [Section.Fits, hd, ho] at h ⊢
      exact h
  | release ownership found =>
    cases found with
    | false => trivial
    | true =>
      simp only [Section.Fits, hd, ho] at h ⊢
      exact h
  | acquireAdmission identity phase =>
    cases phase with
    | checking | expiring => trivial
    | writing => exact hf.trans h
  | renew admission found =>
    cases found with
    | false => trivial
    | true =>
      obtain ⟨a, current, hget, hfile, htoken⟩ := h
      obtain ⟨b, hb, hbtoken⟩ := ha admission a hget
      exact ⟨b, current, hb, hf.trans hfile, htoken.trans hbtoken.symm⟩
  | withdraw admission found => cases found <;> trivial

variable {f : Admission → Admission} {a : Admission}

theorem getElem?_modify_token {admissions : List Admission} (n : Nat)
    (hf : ∀ a, (f a).record.token = a.record.token) (h : admissions[i]? = some a) :
    ∃ b, (admissions.modify n f)[i]? = some b ∧ b.record.token = a.record.token := by
  rw [getElem?_modify, h]
  by_cases hn : n = i
  · exact ⟨f a, by simp [hn], hf a⟩
  · exact ⟨a, by simp [hn], rfl⟩

theorem mem_modify_token {admissions : List Admission} {n : Nat}
    (hf : ∀ a, (f a).record.token = a.record.token) (h : a ∈ admissions.modify n f) :
    ∃ b ∈ admissions, b.record.token = a.record.token := by
  obtain ⟨i, hi⟩ := mem_iff_getElem?.mp h
  rw [getElem?_modify] at hi
  obtain ⟨b, hb, rfl⟩ := map_eq_some_iff.mp hi
  refine ⟨b, mem_of_getElem? hb, ?_⟩
  split
  · exact (hf b).symm
  · rfl

/-! ## Who is alive -/

theorem Apart.processOf (h : σ.Apart) {p : Process} (hp : σ.processes[process]? = some p)
    (halive : p.alive = true) : σ.processOf p.pid = some p := by
  obtain ⟨q, hq⟩ : ∃ q, σ.processOf p.pid = some q := by
    rw [← isSome_iff_exists, State.processOf, find?_isSome]
    exact ⟨p, mem_of_getElem? hp, by simp [halive]⟩
  have hfound := find?_some hq
  simp only [Bool.and_eq_true, beq_iff_eq] at hfound
  obtain ⟨j, hj⟩ := mem_iff_getElem?.mp (mem_of_find?_eq_some hq)
  have hij := h.pids process j p q hp hj halive hfound.1 hfound.2.symm
  subst j
  rw [hp] at hj
  cases hj
  exact hq

theorem Apart.isProcessIdentityAlive (h : σ.Apart) (ho : σ.Holds i o) (env : Env) :
    σ.isProcessIdentityAlive env o.record.identity = true := by
  obtain ⟨p, hp, hpid, hstart⟩ := h.identities i o ho.get
  have halive : p.alive = true := by
    obtain ⟨q, hq, hqalive⟩ := ho.alive
    rw [mem_def, hp] at hq
    cases hq
    exact hqalive
  have hfind : σ.processOf o.record.identity.pid = some p := hpid ▸ h.processOf hp halive
  simp only [State.isProcessIdentityAlive, isProcessAlive, hfind, isSome_some, Bool.not_true,
    Bool.false_eq_true, if_false]
  cases hid : o.record.identity.processStartId with
  | none => rfl
  | some startId =>
    have := hstart startId hid
    simp only [getProcessStartId, hfind]
    cases env.startIdKnown <;> simp [this]

theorem Registered.reading (h : σ.Registered o) (env : Env)
    (isRelevant : DaemonSupervisorOwnerScope → Bool) :
    (∃ owner, σ.readOwnerRecordForScope env o.record.scope.generation isRelevant = .owner owner ∧
      owner.scope = o.record.scope ∧ owner.identity = o.record.identity) ∨
    (σ.readOwnerRecordForScope env o.record.scope.generation isRelevant = .irrelevant ∧
      isRelevant o.record.scope = false) ∨
    σ.readOwnerRecordForScope env o.record.scope.generation isRelevant = .throws := by
  obtain ⟨d, owner, hget, howner, hscope, hfiles, hsame, hidentity⟩ := h
  unfold readOwnerRecordForScope readOwnerRecord readOwnerScope
  by_cases hreadable : env.ownerReadable = true
  · refine .inl ⟨owner, ?_, hsame, hidentity⟩
    simp [hreadable, hget, howner]
  · by_cases hscopeReadable : env.scopeReadable = true
    · have hown : (some o.record.scope).filter (fun scope => scope.generation == o.record.scope.generation) =
          some o.record.scope := by simp [Option.filter]
      cases hrelevant : isRelevant o.record.scope with
      | true => exact .inr (.inr (by simp [hreadable, hscopeReadable, hget, hscope, hown, hrelevant]))
      | false => exact .inr (.inl ⟨by simp [hreadable, hscopeReadable, hget, hscope, hown, hrelevant], rfl⟩)
    · exact .inr (.inr (by simp [hreadable, hscopeReadable, hget, hfiles]))

/-! ## The invariant -/

structure Inv (σ : State) : Prop where
  apart : σ.Apart
  granted : σ.Granted
  fits : ∀ process task, σ.guard = some (process, task) → Section.Fits σ process task

theorem Inv.enter_of (ha : σ.Apart) (hg : σ.Granted) {task : Section}
    (ht : Section.Fits σ process task) : (σ.enter process task).Inv := by
  refine ⟨ha.same rfl rfl rfl (Nat.le_refl _), hg.same rfl (.inl rfl) (Nat.le_refl _) rfl, ?_⟩
  rintro _ _ ⟨⟩
  exact ht.mono (fun _ _ h => h) (fun i o hi => hi.mono rfl rfl) rfl rfl rfl (Nat.le_refl _)
    (fun _ a ha => ⟨a, ha, rfl⟩)

theorem Inv.leave_of (ha : σ.Apart) (hg : σ.Granted) : σ.leave.Inv := by
  refine ⟨ha.same rfl rfl rfl (Nat.le_refl _), hg.same rfl (.inl rfl) (Nat.le_refl _) rfl, ?_⟩
  rintro _ _ ⟨⟩

theorem Inv.leave (h : σ.Inv) : σ.leave.Inv := .leave_of h.apart h.granted

theorem Inv.setAdmission (h : σ.Inv) (admission : Nat)
    (hf : ∀ a, (f a).record.token = a.record.token) : (σ.setAdmission admission f).Inv where
  apart := h.apart.same rfl rfl rfl (Nat.le_refl _)
  granted := h.granted.mono (fun _ hm => mem_modify_token hf hm) (.inl rfl) (Nat.le_refl _) rfl
  fits := by
    intro process task hg
    exact (h.fits process task hg).mono (fun _ _ hid => hid) (fun i o hi => hi.mono rfl rfl) rfl rfl rfl
      (Nat.le_refl _) fun i a ha => getElem?_modify_token admission hf ha

/-! ## The section of an acquirer -/

theorem Apart.reclaim (h : σ.Apart) {directory : String}
    (hd : ∀ i o, σ.Holds i o → o.record.scope.generation ≠ directory) :
    Apart { σ with owners := σ.owners.delete directory } := by
  refine h.mono rfl (Nat.le_refl _) (fun i o hi => ⟨o, hi, rfl, rfl, rfl, id⟩) ?_
  intro i o hi
  have hold : σ.Holds i o := hi.mono rfl rfl
  obtain ⟨d, owner, hget, hrest⟩ := h.registered i o hold
  refine ⟨d, owner, ?_, hrest⟩
  rw [get?_delete, if_neg (hd i o hold)]
  exact hget

theorem Apart.place (h : σ.Apart)
    (hid : σ.Identifies process record.identity) (hfresh : record.scope.token < σ.nextToken)
    (hnew : ∀ (i : Nat) o, σ.ownerships[i]? = some o → o.record.scope.token ≠ record.scope.token)
    (hscanned : σ.Scanned record []) (hfree : σ.owners.has record.scope.generation = false) (log : List Event) :
    Apart { σ with
      owners := σ.owners.set record.scope.generation ⟨some record, some record.scope, true⟩
      ownerships := σ.ownerships ++ [⟨process, record, false⟩]
      log } := by
  -- an ownership is one of before, or the new one
  have hcases : ∀ (i : Nat) (o : Ownership), (σ.ownerships ++ [⟨process, record, false⟩])[i]? = some o →
      (σ.ownerships[i]? = some o ∧ i ≠ σ.ownerships.length) ∨
        (i = σ.ownerships.length ∧ o = ⟨process, record, false⟩) := by
    intro i o hi
    rcases Nat.lt_trichotomy i σ.ownerships.length with hlt | heq | hgt
    · rw [getElem?_append_left hlt] at hi
      exact .inl ⟨hi, by omega⟩
    · subst i
      simp only [getElem?_concat_length, Option.some.injEq] at hi
      exact .inr ⟨rfl, hi.symm⟩
    · rw [getElem?_eq_none (by simp only [length_append, length_singleton]; omega)] at hi
      cases hi
  have hfreeOf : ∀ i o, σ.Holds i o → o.record.scope.generation ≠ record.scope.generation := by
    intro i o hi heq
    obtain ⟨d, owner, hget, -⟩ := h.registered i o hi
    rw [heq, has_eq_false_iff.mp hfree] at hget
    cases hget
  have hclear : ∀ i o, σ.Holds i o → ownerConflicts o.record.scope record.scope = false := by
    intro i o hi
    cases hconflict : ownerConflicts o.record.scope record.scope with
    | false => rfl
    | true => exact absurd (hscanned i o hi hconflict) (by simp)
  constructor
  case pids => exact h.pids
  case identities =>
    intro i o hi
    rcases hcases i o hi with ⟨hi, -⟩ | ⟨-, rfl⟩
    · exact h.identities i o hi
    · exact hid
  case registered =>
    intro i o hi
    rcases hcases i o hi.get with ⟨hget, -⟩ | ⟨-, rfl⟩
    · have hold : σ.Holds i o := ⟨hget, hi.unreleased, hi.alive⟩
      obtain ⟨d, owner, hd, hrest⟩ := h.registered i o hold
      refine ⟨d, owner, ?_, hrest⟩
      rw [get?_set, if_neg (hfreeOf i o hold)]
      exact hd
    · exact ⟨⟨some record, some record.scope, true⟩, record, by rw [get?_set, if_pos rfl],
        rfl, rfl, rfl, rfl, rfl⟩
  case apart =>
    intro i j o o' hi hj hne
    rcases hcases i o hi.get with ⟨hgeti, -⟩ | ⟨hieq, rfl⟩
    · rcases hcases j o' hj.get with ⟨hgetj, -⟩ | ⟨-, rfl⟩
      · exact h.apart i j o o' ⟨hgeti, hi.unreleased, hi.alive⟩ ⟨hgetj, hj.unreleased, hj.alive⟩ hne
      · exact hclear i o ⟨hgeti, hi.unreleased, hi.alive⟩
    · rcases hcases j o' hj.get with ⟨hgetj, -⟩ | ⟨hjeq, -⟩
      · rw [ownerConflicts_comm]
        exact hclear j o' ⟨hgetj, hj.unreleased, hj.alive⟩
      · omega
  case tokens =>
    intro i j o o' hi hj heq
    rcases hcases i o hi with ⟨hgeti, -⟩ | ⟨hieq, rfl⟩
    · rcases hcases j o' hj with ⟨hgetj, -⟩ | ⟨-, rfl⟩
      · exact h.tokens i j o o' hgeti hgetj heq
      · exact absurd heq (hnew i o hgeti)
    · rcases hcases j o' hj with ⟨hgetj, -⟩ | ⟨hjeq, -⟩
      · exact absurd heq.symm (hnew j o' hgetj)
      · omega
  case fresh =>
    intro i o hi
    rcases hcases i o hi with ⟨hget, -⟩ | ⟨-, rfl⟩
    · exact h.fresh i o hget
    · exact hfresh

theorem Inv.advanceAcquire (h : σ.Inv) (env : Env)
    {phase : AcquirePhase} (hguard : σ.guard = some (process, .acquire record phase)) :
    (σ.advanceAcquire env process record phase).Inv := by
  obtain ⟨hid, hfresh, hnew, hphase⟩ := h.fits _ _ hguard
  cases phase with
  | checking =>
    simp only [State.advanceAcquire]
    cases hfile : σ.admissionFile with
    | absent => exact .enter_of h.apart h.granted ⟨hid, hfresh, hnew, hfile⟩
    | invalid => exact h.leave
    | record admission =>
      dsimp only
      split
      · exact h.leave
      · exact .enter_of h.apart h.granted ⟨hid, hfresh, hnew, trivial⟩
  | expiring =>
    refine .enter_of ?_ ?_ ⟨hid, hfresh, hnew, rfl⟩
    · exact h.apart.same rfl rfl rfl (Nat.le_refl _)
    · exact h.granted.same rfl (.inr rfl) (Nat.le_refl _) rfl
  | listing =>
    refine .enter_of h.apart h.granted ⟨hid, hfresh, hnew, hphase, ?_⟩
    intro i o hi _
    obtain ⟨d, owner, hget, -⟩ := h.apart.registered i o hi
    by_contra hmissing
    rw [get?_eq_none.mpr hmissing] at hget
    cases hget
  | scanning todo =>
    obtain ⟨hfile, hscanned⟩ := hphase
    cases todo with
    | nil => exact .enter_of h.apart h.granted ⟨hid, hfresh, hnew, hfile, hscanned⟩
    | cons directory todo =>
      have hpass : (∀ i o, σ.Holds i o → o.record.scope.generation = directory →
          ownerConflicts o.record.scope record.scope = false) → σ.Scanned record todo := by
        intro hclear i o hi hconflict
        rcases mem_cons.mp (hscanned i o hi hconflict) with heq | hmem
        · rw [hclear i o hi heq] at hconflict
          cases hconflict
        · exact hmem
      have hreading := fun (i : Nat) (o : Ownership) (hi : σ.Holds i o) =>
        (h.apart.registered i o hi).reading env (ownerConflicts · record.scope)
      simp only [State.advanceAcquire]
      cases hread : σ.readOwnerRecordForScope env directory (ownerConflicts · record.scope) with
      | irrelevant =>
        refine .enter_of h.apart h.granted ⟨hid, hfresh, hnew, hfile, hpass ?_⟩
        rintro i o hi rfl
        rcases hreading i o hi with ⟨owner, hr, -⟩ | ⟨-, hclear⟩ | hr
        · rw [hread] at hr; cases hr
        · exact hclear
        · rw [hread] at hr; cases hr
      | abandoned =>
        have hnone : ∀ i o, σ.Holds i o → o.record.scope.generation ≠ directory := by
          rintro i o hi rfl
          rcases hreading i o hi with ⟨owner, hr, -⟩ | ⟨hr, -⟩ | hr <;> rw [hread] at hr <;> cases hr
        exact .enter_of h.apart h.granted ⟨hid, hfresh, hnew, hfile,
          hpass fun i o hi heq => absurd heq (hnone i o hi), hnone⟩
      | throws => exact h.leave
      | owner owner =>
        have howner : ∀ i o, σ.Holds i o → o.record.scope.generation = directory →
            owner.scope = o.record.scope ∧ owner.identity = o.record.identity := by
          rintro i o hi rfl
          rcases hreading i o hi with ⟨owner', hr, hsame⟩ | ⟨hr, -⟩ | hr <;> rw [hread] at hr <;> cases hr
          exact hsame
        dsimp only
        cases hconflict : ownerConflicts owner.scope record.scope with
        | false =>
          refine .enter_of h.apart h.granted ⟨hid, hfresh, hnew, hfile, hpass ?_⟩
          intro i o hi heq
          rw [← (howner i o hi heq).1]
          exact hconflict
        | true =>
          simp only [Bool.not_true, Bool.false_eq_true, if_false]
          split
          · exact h.leave
          · rename_i hdead
            -- nobody alive has left this record
            have hnone : ∀ i o, σ.Holds i o → o.record.scope.generation ≠ directory := by
              intro i o hi heq
              rw [(howner i o hi heq).2] at hdead
              exact hdead (h.apart.isProcessIdentityAlive hi env)
            exact .enter_of h.apart h.granted ⟨hid, hfresh, hnew, hfile,
              hpass fun i o hi heq => absurd heq (hnone i o hi), hnone⟩
  | reclaiming directory todo =>
    obtain ⟨hfile, hscanned, hnone⟩ := hphase
    refine .enter_of (h.apart.reclaim hnone) (h.granted.same rfl (.inl rfl) (Nat.le_refl _) rfl) ?_
    exact ⟨hid, hfresh, hnew, hfile, hscanned.mono fun i o hi => hi.mono rfl rfl⟩
  | placing =>
    obtain ⟨hfile, hscanned⟩ := hphase
    simp only [State.advanceAcquire]
    split
    · exact h.leave
    · rename_i hfree
      refine .leave_of (h.apart.place hid hfresh hnew hscanned (Bool.not_eq_true _ ▸ hfree) _) ?_
      refine ⟨h.granted.fresh, ?_, h.granted.once.concat (by nofun), ?_, h.granted.renewals.concat (by nofun)⟩
      · intro token hm
        exact h.granted.issued token (by simpa using hm)
      intro current a hcurrent
      rw [show σ.admissionFile = .record current from hcurrent] at hfile
      cases hfile

/-! ## The sections of an owner -/

theorem getElem?_modify_owner {ownerships : List Ownership} {f : Ownership → Ownership} (n : Nat)
    {o' : Ownership} (h : (ownerships.modify n f)[i]? = some o') :
    ∃ o, ownerships[i]? = some o ∧ (i ≠ n ∧ o' = o ∨ i = n ∧ o' = f o) := by
  rw [getElem?_modify] at h
  obtain ⟨o, ho, rfl⟩ := map_eq_some_iff.mp h
  refine ⟨o, ho, ?_⟩
  by_cases hn : n = i
  · exact .inr ⟨hn.symm, by simp [hn]⟩
  · exact .inl ⟨fun he => hn he.symm, by simp [hn]⟩

theorem Inv.advanceUpdatePhase (h : σ.Inv) (env : Env) {ownership : Nat}
    {phase : DaemonSupervisorOwnerPhase} {current : Option DaemonSupervisorOwnerRecord}
    (hguard : σ.guard = some (process, .updatePhase ownership phase current))
    (ho : σ.ownerships[ownership]? = some o) :
    (σ.advanceUpdatePhase env process ownership o phase current).Inv := by
  have hfits := h.fits _ _ hguard
  cases current with
  | none =>
    simp only [State.advanceUpdatePhase]
    cases hread : σ.readOwnerRecord env o.record.scope.generation with
    | none => exact h.leave
    | some owner =>
      dsimp only
      split
      · exact h.leave
      · unfold readOwnerRecord at hread
        split at hread
        · obtain ⟨d, hd, howner⟩ := bind_eq_some_iff.mp hread
          exact .enter_of h.apart h.granted ⟨o, d, owner, ho, hd, howner, rfl, rfl⟩
        · cases hread
  | some current =>
    obtain ⟨o', d, owner, ho', hd, howner, hscope, hidentity⟩ := hfits
    rw [ho] at ho'
    cases ho'
    simp only [State.advanceUpdatePhase, hd]
    refine .leave_of ?_ (h.granted.same rfl (.inl rfl) (Nat.le_refl _) rfl)
    have hback : ∀ (i : Nat) p', (σ.ownerships.modify ownership fun o =>
        { o with record := { o.record with phase } })[i]? = some p' → ∃ p, σ.ownerships[i]? = some p ∧
        p.process = p'.process ∧ p.record.scope = p'.record.scope ∧ p.record.identity = p'.record.identity ∧
        (p'.released = false → p.released = false) := by
      intro i p' hi
      obtain ⟨p, hp, ⟨-, rfl⟩ | ⟨-, rfl⟩⟩ := getElem?_modify_owner ownership hi
      · exact ⟨p', hp, rfl, rfl, rfl, id⟩
      · exact ⟨p, hp, rfl, rfl, rfl, id⟩
    refine h.apart.mono rfl (Nat.le_refl _) hback ?_
    intro i p' hi
    obtain ⟨p, hp, hprocess, hpscope, hpidentity, hreleased⟩ := hback i p' hi.get
    obtain ⟨d', owner', hd', hrest⟩ := h.apart.registered i p ⟨hp, hreleased hi.unreleased, hprocess ▸ hi.alive⟩
    unfold Registered
    rw [← hpscope, ← hpidentity]
    by_cases hgen : p.record.scope.generation = o.record.scope.generation
    · -- the directory is the one that is written, and only the phase in it is another
      rw [hgen, hd] at hd'
      cases hd'
      obtain ⟨howner', hdscope, hfiles, hsame, hsameid⟩ := hrest
      rw [howner] at howner'
      cases howner'
      refine ⟨{ d with owner := some current }, current, ?_, rfl, hdscope, hfiles, hscope.trans hsame,
        hidentity.trans hsameid⟩
      rw [get?_set, if_pos hgen]
    · refine ⟨d', owner', ?_, hrest⟩
      rw [get?_set, if_neg hgen]
      exact hd'

theorem Apart.setReleased (h : σ.Apart) (ownership : Nat) : (σ.setReleased ownership).Apart := by
  refine h.mono rfl (Nat.le_refl _) ?_ ?_
  · intro i p' hi
    obtain ⟨p, hp, ⟨-, rfl⟩ | ⟨-, rfl⟩⟩ := getElem?_modify_owner ownership hi
    · exact ⟨p', hp, rfl, rfl, rfl, id⟩
    · exact ⟨p, hp, rfl, rfl, rfl, nofun⟩
  · intro i p' hi
    obtain ⟨p, hp, ⟨-, rfl⟩ | ⟨-, rfl⟩⟩ := getElem?_modify_owner ownership hi.get
    · exact h.registered i p' ⟨hp, hi.unreleased, hi.alive⟩
    · exact absurd hi.unreleased (by simp)

variable {found : Bool}

theorem Inv.advanceRelease (h : σ.Inv) (env : Env) {ownership : Nat}
    (hguard : σ.guard = some (process, .release ownership found)) (ho : σ.ownerships[ownership]? = some o) :
    (σ.advanceRelease env process ownership o found).Inv := by
  have hreleased : (σ.setReleased ownership).leave.Inv :=
    .leave_of (h.apart.setReleased ownership) (h.granted.same rfl (.inl rfl) (Nat.le_refl _) rfl)
  cases found with
  | false =>
    simp only [State.advanceRelease]
    cases hread : σ.readOwnerRecord env o.record.scope.generation with
    | none => exact hreleased
    | some owner =>
      dsimp only
      split
      · rename_i htoken
        unfold readOwnerRecord at hread
        split at hread
        · obtain ⟨d, hd, howner⟩ := bind_eq_some_iff.mp hread
          exact .enter_of h.apart h.granted ⟨o, d, owner, ho, hd, howner, htoken⟩
        · cases hread
      · exact hreleased
  | true =>
    obtain ⟨o', d, owner, ho', hd, howner, htoken⟩ := h.fits _ _ hguard
    rw [ho] at ho'
    cases ho'
    refine .leave_of ((h.apart.setReleased ownership).reclaim ?_) (h.granted.same rfl (.inl rfl) (Nat.le_refl _) rfl)
    intro i p' hi hgen
    obtain ⟨p, hp, ⟨hne, rfl⟩ | ⟨-, rfl⟩⟩ := getElem?_modify_owner ownership hi.get
    · -- two records with one token would be one ownership
      obtain ⟨d', owner', hd', howner', -, -, hsame, -⟩ :=
        h.apart.registered i p' ⟨hp, hi.unreleased, hi.alive⟩
      rw [hgen, hd] at hd'
      cases hd'
      rw [howner] at howner'
      cases howner'
      exact hne (h.apart.tokens i ownership p' o hp ho (by rw [← hsame, htoken]))
    · exact absurd hi.unreleased (by simp)

/-! ## The sections of an admission -/

theorem Inv.advanceAdmit (h : σ.Inv) (env : Env) {identity : ProcessIdentity} {phase : AdmitPhase} :
    (σ.advanceAdmit env process identity phase).Inv := by
  cases phase with
  | checking =>
    simp only [State.advanceAdmit]
    cases hfile : σ.admissionFile with
    | absent => exact .enter_of h.apart h.granted hfile
    | invalid => exact h.leave
    | record admission =>
      dsimp only
      split
      · exact h.leave
      · exact .enter_of h.apart h.granted trivial
  | expiring =>
    refine .enter_of ?_ ?_ rfl
    · exact h.apart.same rfl rfl rfl (Nat.le_refl _)
    · exact h.granted.same rfl (.inr rfl) (Nat.le_refl _) rfl
  | writing =>
    refine .leave_of (h.apart.same rfl rfl rfl (Nat.le_succ _))
      ⟨?_, ?_, h.granted.once.concat ?_, ?_, h.granted.renewals.concat (by nofun)⟩
    · intro a ha
      rcases mem_append.mp ha with ha | ha
      · exact Nat.lt_succ_of_lt (h.granted.fresh a ha)
      · rw [mem_singleton.mp ha]
        exact Nat.lt_succ_self _
    · intro token hm
      rcases mem_append.mp hm with hm | hm
      · exact Nat.lt_succ_of_lt (h.granted.issued token hm)
      · cases mem_singleton.mp hm
        exact Nat.lt_succ_self _
    · rintro token ⟨⟩ hm
      exact Nat.lt_irrefl _ (h.granted.issued _ hm)
    · intro current a hfile _ _
      cases hfile
      exact Standing.granted _ _

theorem Inv.advanceRenew (h : σ.Inv) (env : Env) {admission : Nat}
    (hguard : σ.guard = some (process, .renew admission found)) (ha : σ.admissions[admission]? = some a) :
    (σ.advanceRenew env process admission a found).Inv := by
  cases found with
  | false =>
    simp only [State.advanceRenew]
    have hlost : (σ.setAdmission admission ({ · with lost := true, refreshing := false })).leave.Inv :=
      .leave (h.setAdmission admission (by intro _; rfl))
    split
    · exact hlost
    · cases hfile : σ.admissionFile with
      | absent => exact hlost
      | invalid => exact .leave (h.setAdmission admission (by intro _; rfl))
      | record current =>
        dsimp only
        split
        · exact hlost
        · rename_i hown
          exact .enter_of h.apart h.granted ⟨a, current, ha, hfile, by_contra fun hne => hown (.inl hne)⟩
  | true =>
    obtain ⟨a', current, ha', hfile, htoken⟩ := h.fits _ _ hguard
    rw [ha] at ha'
    cases ha'
    have hstanding : Standing σ.log a.record.token :=
      htoken ▸ h.granted.standing current a hfile (mem_of_getElem? ha) htoken.symm
    refine .leave_of (h.apart.same rfl rfl rfl (Nat.le_refl _))
      ⟨?_, ?_, h.granted.once.concat (by nofun), ?_, ?_⟩
    · intro b hb
      obtain ⟨i, hi⟩ := mem_iff_getElem?.mp hb
      rw [State.setAdmission, getElem?_modify] at hi
      obtain ⟨b', hb', rfl⟩ := map_eq_some_iff.mp hi
      split
      · exact h.granted.fresh a (mem_of_getElem? ha)
      · exact h.granted.fresh b' (mem_of_getElem? hb')
    · intro token hm
      exact h.granted.issued token (by simpa using hm)
    · intro current' b hfile' _ _
      cases hfile'
      exact hstanding.renewed
    · refine h.granted.renewals.concat ?_
      rintro token ⟨⟩
      exact hstanding

theorem Inv.advanceWithdraw (h : σ.Inv) {admission : Nat} :
    (σ.advanceWithdraw process admission a found).Inv := by
  cases found with
  | false =>
    simp only [State.advanceWithdraw]
    split
    · split
      · exact .enter_of h.apart h.granted trivial
      · exact h.leave
    · exact h.leave
  | true =>
    refine .leave_of (h.apart.same rfl rfl rfl (Nat.le_refl _)) ?_
    exact h.granted.same rfl (.inr rfl) (Nat.le_refl _) rfl

/-! ## Steps -/

theorem Inv.advance (h : σ.Inv) {env : Env} (hs : σ.advance env = some σ') : σ'.Inv := by
  simp only [State.advance, bind_eq_bind] at hs
  obtain ⟨⟨process, task⟩, hguard, hs⟩ := bind_eq_some_iff.mp hs
  cases task with
  | acquire record phase =>
    cases hs
    exact h.advanceAcquire env hguard
  | updatePhase ownership phase current =>
    obtain ⟨o, ho, rfl⟩ := map_eq_some_iff.mp hs
    exact h.advanceUpdatePhase env hguard ho
  | release ownership found =>
    obtain ⟨o, ho, rfl⟩ := map_eq_some_iff.mp hs
    exact h.advanceRelease env hguard ho
  | acquireAdmission identity phase =>
    cases hs
    exact h.advanceAdmit env
  | renew admission found =>
    obtain ⟨a, ha, rfl⟩ := map_eq_some_iff.mp hs
    exact h.advanceRenew env hguard ha
  | withdraw admission found =>
    obtain ⟨a, ha, rfl⟩ := map_eq_some_iff.mp hs
    exact h.advanceWithdraw

theorem Inv.throwSection (h : σ.Inv) (hs : σ.throwSection = some σ') : σ'.Inv := by
  obtain ⟨⟨process, task⟩, hguard, rfl⟩ := map_eq_some_iff.mp hs
  split
  · exact .leave (h.setAdmission _ (by intro _; rfl))
  · exact h.leave

theorem identifies_identityOf {startIdKnown : Bool} {identity : ProcessIdentity}
    (h : σ.identityOf process startIdKnown = some identity) : σ.Identifies process identity := by
  obtain ⟨p, hp, rfl⟩ := map_eq_some_iff.mp h
  refine ⟨p, hp, rfl, ?_⟩
  intro startId hstart
  cases startIdKnown with
  | true => exact (Option.some.inj hstart).symm
  | false => cases hstart

theorem Inv.spawn (h : σ.Inv) {pid : Nat} {startId : String} (hfree : σ.isProcessAlive pid = false) :
    Inv { σ with processes := σ.processes ++ [⟨pid, startId, true⟩] } := by
  have hold : ∀ (i : Nat) (p : Process), σ.processes[i]? = some p →
      (σ.processes ++ [⟨pid, startId, true⟩])[i]? = some p := by
    intro i p hi
    have hlt : i < σ.processes.length := by
      by_contra hge
      rw [getElem?_eq_none (by omega)] at hi
      cases hi
    rw [getElem?_append_left hlt]
    exact hi
  have hnew : ∀ (i : Nat) (p : Process), (σ.processes ++ [⟨pid, startId, true⟩])[i]? = some p →
      σ.processes[i]? = some p ∨ i = σ.processes.length ∧ p = ⟨pid, startId, true⟩ := by
    intro i p hi
    rcases Nat.lt_trichotomy i σ.processes.length with hlt | heq | hgt
    · rw [getElem?_append_left hlt] at hi
      exact .inl hi
    · subst i
      simp only [getElem?_concat_length, Option.some.injEq] at hi
      exact .inr ⟨rfl, hi.symm⟩
    · rw [getElem?_eq_none (by simp only [length_append, length_singleton]; omega)] at hi
      cases hi
  have hother : ∀ (i : Nat) (p : Process), σ.processes[i]? = some p → p.alive = true → p.pid ≠ pid := by
    intro i p hi halive hpid
    have hnone : σ.processOf pid = none := by simpa [isProcessAlive] using hfree
    rw [processOf, find?_eq_none] at hnone
    exact hnone p (mem_of_getElem? hi) (by simp [halive, hpid])
  have hholds : ∀ i o, Holds { σ with processes := σ.processes ++ [⟨pid, startId, true⟩] } i o → σ.Holds i o := by
    intro i o hi
    refine ⟨hi.get, hi.unreleased, ?_⟩
    obtain ⟨p, hp, -⟩ := h.apart.identities i o hi.get
    obtain ⟨q, hq, halive⟩ := hi.alive
    rw [mem_def, hold _ p hp] at hq
    cases hq
    exact ⟨p, hp, halive⟩
  have hid : ∀ process identity, σ.Identifies process identity →
      Identifies { σ with processes := σ.processes ++ [⟨pid, startId, true⟩] } process identity := by
    rintro process identity ⟨p, hp, hrest⟩
    exact ⟨p, hold _ p hp, hrest⟩
  refine ⟨?_, h.granted.same rfl (.inl rfl) (Nat.le_refl _) rfl, ?_⟩
  · constructor
    case pids =>
      intro i j p q hp hq hpa hqa hpq
      rcases hnew i p hp with hp | ⟨rfl, rfl⟩
      · rcases hnew j q hq with hq | ⟨rfl, rfl⟩
        · exact h.apart.pids i j p q hp hq hpa hqa hpq
        · exact absurd hpq (hother i p hp hpa)
      · rcases hnew j q hq with hq | ⟨rfl, rfl⟩
        · exact absurd hpq.symm (hother j q hq hqa)
        · rfl
    case identities => exact fun i o hi => hid _ _ (h.apart.identities i o hi)
    case registered => exact fun i o hi => (h.apart.registered i o (hholds i o hi)).mono rfl
    case apart => exact fun i j o o' hi hj => h.apart.apart i j o o' (hholds i o hi) (hholds j o' hj)
    case tokens => exact h.apart.tokens
    case fresh => exact h.apart.fresh
  · intro process task hg
    exact (h.fits process task hg).mono hid hholds rfl rfl rfl (Nat.le_refl _) fun _ a ha => ⟨a, ha, rfl⟩

theorem Inv.crash (h : σ.Inv) (process : Nat) :
    Inv { σ with
      processes := σ.processes.modify process ({ · with alive := false })
      guard := σ.guard.filter fun g => g.1 != process } := by
  have hback : ∀ (i : Nat) (p' : Process), (σ.processes.modify process ({ · with alive := false }))[i]? = some p' →
      ∃ p, σ.processes[i]? = some p ∧ p.pid = p'.pid ∧ p.startId = p'.startId ∧ (p'.alive = true → p.alive = true) := by
    intro i p' hi
    rw [getElem?_modify] at hi
    obtain ⟨p, hp, rfl⟩ := map_eq_some_iff.mp hi
    refine ⟨p, hp, ?_⟩
    split
    · exact ⟨rfl, rfl, nofun⟩
    · exact ⟨rfl, rfl, id⟩
  have hid : ∀ process' identity, σ.Identifies process' identity → Identifies { σ with
      processes := σ.processes.modify process ({ · with alive := false })
      guard := σ.guard.filter fun g => g.1 != process } process' identity := by
    rintro process' identity ⟨p, hp, hpid, hstart⟩
    simp only [Identifies, getElem?_modify, hp, Option.map_eq_map, Option.map_some]
    refine ⟨_, rfl, ?_⟩
    split <;> exact ⟨hpid, hstart⟩
  have hholds : ∀ i o, Holds { σ with
      processes := σ.processes.modify process ({ · with alive := false })
      guard := σ.guard.filter fun g => g.1 != process } i o → σ.Holds i o := by
    intro i o hi
    refine ⟨hi.get, hi.unreleased, ?_⟩
    obtain ⟨p', hp', halive⟩ := hi.alive
    obtain ⟨p, hp, -, -, hpa⟩ := hback _ p' hp'
    exact ⟨p, hp, hpa halive⟩
  refine ⟨?_, h.granted.same rfl (.inl rfl) (Nat.le_refl _) rfl, ?_⟩
  · constructor
    case pids =>
      intro i j p q hp hq hpa hqa hpq
      obtain ⟨p₀, hp₀, hppid, -, hpalive⟩ := hback i p hp
      obtain ⟨q₀, hq₀, hqpid, -, hqalive⟩ := hback j q hq
      exact h.apart.pids i j p₀ q₀ hp₀ hq₀ (hpalive hpa) (hqalive hqa) (by omega)
    case identities => exact fun i o hi => hid _ _ (h.apart.identities i o hi)
    case registered => exact fun i o hi => (h.apart.registered i o (hholds i o hi)).mono rfl
    case apart => exact fun i j o o' hi hj => h.apart.apart i j o o' (hholds i o hi) (hholds j o' hj)
    case tokens => exact h.apart.tokens
    case fresh => exact h.apart.fresh
  · intro process' task hg
    have hguard : σ.guard = some (process', task) := (filter_eq_some_iff.mp hg).1
    exact (h.fits process' task hguard).mono hid hholds rfl rfl rfl (Nat.le_refl _) fun _ a ha => ⟨a, ha, rfl⟩

theorem Inv.step (h : σ.Inv) {action : Action} (hs : σ.step action = some σ') : σ'.Inv := by
  cases action with
  | spawn pid startId =>
    simp only [State.step] at hs
    split at hs
    · cases hs
    · cases hs
      exact h.spawn (Bool.not_eq_true _ ▸ ‹_›)
  | crash process =>
    cases hs
    exact h.crash process
  | acquire process generation socketPath descriptorDir startIdKnown =>
    simp only [State.step] at hs
    split at hs
    · obtain ⟨identity, hidentity, rfl⟩ := map_eq_some_iff.mp hs
      refine .enter_of ?_ ?_ ⟨identifies_identityOf hidentity, Nat.lt_succ_self _, ?_, trivial⟩
      · exact h.apart.same rfl rfl rfl (Nat.le_succ _)
      · exact h.granted.same rfl (.inl rfl) (Nat.le_succ _) rfl
      · exact fun i o hi => Nat.ne_of_lt (h.apart.fresh i o hi)
    · cases hs
  | updatePhase ownership phase =>
    obtain ⟨o, -, hs⟩ := bind_eq_some_iff.mp hs
    split at hs <;> cases hs
    exact .enter_of h.apart h.granted trivial
  | release ownership =>
    obtain ⟨o, -, hs⟩ := bind_eq_some_iff.mp hs
    split at hs <;> cases hs
    exact .enter_of h.apart h.granted trivial
  | acquireAdmission process startIdKnown =>
    simp only [State.step] at hs
    split at hs
    · obtain ⟨identity, -, rfl⟩ := map_eq_some_iff.mp hs
      exact .enter_of h.apart h.granted trivial
    · cases hs
  | assertOrRenew admission =>
    obtain ⟨a, -, hs⟩ := bind_eq_some_iff.mp hs
    split at hs <;> cases hs
    exact h.setAdmission admission (by intro _; rfl)
  | renew admission =>
    obtain ⟨a, -, hs⟩ := bind_eq_some_iff.mp hs
    split at hs <;> cases hs
    exact .enter_of h.apart h.granted trivial
  | refuseRenew admission =>
    simp only [State.step] at hs
    split at hs <;> cases hs
    exact h.setAdmission admission (by intro _; rfl)
  | releaseAdmission admission =>
    obtain ⟨a, -, hs⟩ := bind_eq_some_iff.mp hs
    split at hs <;> cases hs
    exact h.setAdmission admission (by intro _; rfl)
  | withdraw admission =>
    obtain ⟨a, -, hs⟩ := bind_eq_some_iff.mp hs
    split at hs <;> cases hs
    have hset := h.setAdmission admission (f := ({ · with withdrawn := true })) fun _ => rfl
    exact .enter_of hset.apart hset.granted trivial
  | advance env => exact h.advance hs
  | fault => exact h.throwSection hs

/-! ## Runs -/

/-- A registry in which anything may have been left; nobody holds anything yet. -/
def Initial (σ : State) : Prop :=
  σ.processes = [] ∧ σ.guard = none ∧ σ.ownerships = [] ∧ σ.admissions = [] ∧ σ.log = []

def Runs : State → State → Prop := Transition.Runs step

theorem Initial.inv (h : σ.Initial) : σ.Inv := by
  obtain ⟨hprocesses, hguard, hownerships, hadmissions, hlog⟩ := h
  have hnobody : ∀ i o, ¬σ.Holds i o := by
    intro i o hi
    have := hi.get
    simp [hownerships] at this
  refine ⟨⟨?_, ?_, ?_, ?_, ?_, ?_⟩, ⟨?_, ?_, ?_, ?_, ?_⟩, ?_⟩
  · intro i j p q hp
    simp [hprocesses] at hp
  · intro i o hi
    simp [hownerships] at hi
  · exact fun i o hi => absurd hi (hnobody i o)
  · exact fun i j o o' hi => absurd hi (hnobody i o)
  · intro i j o o' hi
    simp [hownerships] at hi
  · intro i o hi
    simp [hownerships] at hi
  · simp [hadmissions]
  · simp [hlog]
  · intro before token after hsplit
    simp [hlog] at hsplit
  · simp [hadmissions]
  · intro before token after hsplit
    simp [hlog] at hsplit
  · simp [hguard]

/-- An empty registry. -/
def empty : State := ⟨[], .empty, .absent, none, [], [], 0, []⟩

end State
end SupervisorOwnership
end Daemon
end RePrime
