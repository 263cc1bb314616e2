import RePrime.Core.EventLog

/-!
# RePrime.Core.EventLogRivals

`EventLog.appendSync` as the system calls it makes, while any number of writers append to one file.

* `State.next`: a call of `appendSync` makes its next system call.
* `State.undisturbed`: no rival writes into a repair. `Sound.keepsLines`: then no truncation cuts a line end off.
* `appended_of_run`: what was appended stays in the file.
-/

namespace RePrime
namespace Core
namespace EventLogRivals

open Json EventLog List

/-! ## Writers -/

/-- The system call that comes next, or how `appendSync` ended. After the write, `offset` is where the payload
went to. -/
inductive Phase where
  | existsSync
  | statSync
  | openSync (size : Nat)
  | readLastByte (size : Nat)
  | fstatFirst
  | readFirst (size : Nat) (buffer : List UInt8)
  | fstatSecond (first : List UInt8)
  | readSecond (first : List UInt8) (size : Nat) (buffer : List UInt8)
  | fstatSync (first : List UInt8)
  | ftruncateSync (keep : Nat)
  | openAppend
  | writeSync
  | fsyncSync (offset : Nat)
  | returned (offset : Nat)
  | threw
  deriving DecidableEq

def Phase.offset : Phase → Option Nat
  | .fsyncSync offset | .returned offset => some offset
  | _ => none

/-- In the second read of a repair, or between it and the size check. -/
def Phase.rereads : Phase → Bool
  | .readSecond .. | .fstatSync _ => true
  | _ => false

/-- Between the size check and the truncation. -/
def Phase.cuts : Phase → Bool
  | .ftruncateSync _ => true
  | _ => false

def Phase.Sound (bytes : List UInt8) : Phase → Prop
  | .readSecond _ _ buffer => buffer <+: bytes
  | .fstatSync first => first <+: bytes
  | .ftruncateSync keep => (10 : UInt8) ∉ bytes.drop keep
  | _ => True

/-- A call of `appendSync`, whose events have been serialized. -/
structure Append where
  events : List Value
  onCreate : List Value
  durable : Bool
  leads : List Value
  phase : Phase

def Append.payload (a : Append) : List UInt8 := EventLog.payload (a.leads ++ a.events)

structure State where
  file : Option (List UInt8)
  appends : List Append

inductive Action where
  | appendSync (events onCreate : List Value) (durable : Bool)
  | call (token : Nat) (count : Nat)
  | interrupt (token : Nat)

/-- At most `length` of the bytes at `offset`: `count` of them, but one if there is any. -/
def readSync (bytes : List UInt8) (offset length count : Nat) : List UInt8 :=
  ((bytes.drop offset).take length).take (max 1 count)

/-- A file is cut, or filled up with zeros. -/
def truncated (bytes : List UInt8) (keep : Nat) : List UInt8 :=
  bytes.take keep ++ List.replicate (keep - bytes.length) 0

namespace State

def bytes (s : State) : List UInt8 := s.file.getD []

def put (s : State) (t : Nat) (a : Append) : State := { s with appends := s.appends.set t a }

/-- `count` is how many bytes the system reads or writes. -/
def next (options : EventLogOptions) (s : State) (t : Nat) (a : Append) (count : Nat) : State :=
  match a.phase with
  | .existsSync =>
    if s.file.isSome then s.put t { a with phase := .statSync }
    else s.put t { a with leads := a.onCreate, phase := .openAppend }
  | .statSync =>
    match s.file with
    | none => s.put t { a with phase := .openAppend }
    | some bytes =>
      if bytes.length = 0 then s.put t { a with phase := .openAppend }
      else if exceeds options.maxBytes bytes.length then s.put t { a with phase := .threw }
      else s.put t { a with phase := .openSync bytes.length }
  | .openSync size =>
    if s.file.isSome then s.put t { a with phase := .readLastByte size } else s.put t { a with phase := .threw }
  | .readLastByte size =>
    match readSync s.bytes (size - 1) 1 count with
    | [] => s.put t { a with phase := .openAppend }
    | b :: _ =>
      if b = 10 then s.put t { a with phase := .openAppend } else s.put t { a with phase := .fstatFirst }
  | .fstatFirst =>
    if exceeds options.maxBytes s.bytes.length then s.put t { a with phase := .threw }
    else s.put t { a with phase := .readFirst s.bytes.length [] }
  | .readFirst size buffer =>
    let chunk := readSync s.bytes buffer.length (size - buffer.length) count
    if chunk = [] ∨ size ≤ (buffer ++ chunk).length then
      s.put t { a with phase := .fstatSecond (buffer ++ chunk) }
    else s.put t { a with phase := .readFirst size (buffer ++ chunk) }
  | .fstatSecond first =>
    if exceeds options.maxBytes s.bytes.length then s.put t { a with phase := .threw }
    else s.put t { a with phase := .readSecond first s.bytes.length [] }
  | .readSecond first size buffer =>
    let chunk := readSync s.bytes buffer.length (size - buffer.length) count
    if chunk = [] ∨ size ≤ (buffer ++ chunk).length then
      if buffer ++ chunk = first then s.put t { a with phase := .fstatSync first }
      else s.put t { a with phase := .openAppend }
    else s.put t { a with phase := .readSecond first size (buffer ++ chunk) }
  | .fstatSync first =>
    if s.bytes.length = first.length then s.put t { a with phase := .ftruncateSync (keep first) }
    else s.put t { a with phase := .openAppend }
  | .ftruncateSync keep =>
    { s with file := some (truncated s.bytes keep) }.put t { a with phase := .openAppend }
  | .openAppend => { s with file := some s.bytes }.put t { a with phase := .writeSync }
  | .writeSync =>
    -- O_APPEND: the payload goes where the file ends now, whatever was read before.
    { s with file := some (s.bytes ++ a.payload.take count) }.put t
      { a with
        phase :=
          if count < a.payload.length then .threw
          else if a.durable then .fsyncSync s.bytes.length
          else .returned s.bytes.length }
  | .fsyncSync offset => s.put t { a with phase := .returned offset }
  | .returned _ | .threw => s

def step (options : EventLogOptions) (s : State) : Action → Option State
  | .appendSync events onCreate durable =>
    some { s with
      appends := s.appends ++ [{ events, onCreate, durable, leads := [], phase := .existsSync }] }
  | .call t count => s.appends[t]?.map fun a => s.next options t a count
  -- A system call fails, or the process dies.
  | .interrupt t =>
    match s.appends[t]? with
    | none => none
    | some a =>
      match a.phase with
      | .returned _ => none
      | _ => some (s.put t { a with phase := .threw })

def run (options : EventLogOptions) : State → List Action → Option State
  | s, [] => some s
  | s, act :: rest => (s.step options act).bind fun s' => s'.run options rest

/-- No append truncates while another is in the second read of its repair or between it and the size check, and none
writes while another is between the size check and its truncation. -/
def undisturbed (s : State) : Action → Bool
  | .call t _ =>
    match s.appends[t]?.map Append.phase with
    | some (.ftruncateSync _) => (s.appends.eraseIdx t).all fun b => !b.phase.rereads
    | some .writeSync => (s.appends.eraseIdx t).all fun b => !b.phase.cuts
    | _ => true
  | _ => true

def undisturbedAll (options : EventLogOptions) : State → List Action → Bool
  | _, [] => true
  | s, act :: rest => s.undisturbed act && (s.step options act).all fun s' => s'.undisturbedAll options rest

/-- The bytes that a repair goes by are those of the file. -/
def Sound (s : State) : Prop := ∀ (t : Nat) a, s.appends[t]? = some a → a.phase.Sound s.bytes

/-- What was written in full is in the file. -/
def Inv (s : State) : Prop :=
  ∀ (t : Nat) a offset, s.appends[t]? = some a → a.phase.offset = some offset → a.payload <+: s.bytes.drop offset

end State

/-! ## The bytes of an append -/

section Bytes

variable {text bytes : List UInt8} {offset : Nat}

theorem prefix_drop_append (h : text <+: bytes.drop offset) (more : List UInt8) :
    text <+: (bytes ++ more).drop offset := by
  rw [drop_append]
  exact h.trans (prefix_append _ _)

/-- Whole lines that lie in the file stay there when no line end is cut off. -/
theorem prefix_drop_truncated {keep : Nat} (hterminated : JsonLines.Terminated text)
    (h : text <+: bytes.drop offset) (hkeep : (10 : UInt8) ∉ bytes.drop keep) :
    text <+: (truncated bytes keep).drop offset := by
  rw [truncated]
  apply prefix_drop_append
  obtain rfl | ⟨line, rfl⟩ := hterminated
  · exact nil_prefix
  · rw [drop_take, prefix_take_iff]
    refine ⟨h, ?_⟩
    rw [length_append, length_singleton]
    by_contra hshort
    -- Its last line end would be cut off.
    have hlast : bytes[offset + line.length]? = some 10 := by
      obtain ⟨rest, hrest⟩ := h
      rw [← getElem?_drop, ← hrest, append_assoc, getElem?_append_right (Nat.le_refl _)]
      simp
    apply hkeep
    rw [mem_iff_getElem?]
    refine ⟨offset + line.length - keep, ?_⟩
    rw [getElem?_drop, ← hlast]
    congr 1
    omega

/-- What is read on at the end of a prefix. -/
theorem append_readSync (h : text <+: bytes) (length count : Nat) :
    text ++ readSync bytes text.length length count <+: bytes := by
  obtain ⟨rest, rfl⟩ := h
  rw [readSync, drop_left, prefix_append_right_inj]
  exact ( take_prefix _ _).trans ( take_prefix _ _)

theorem notMem_drop_keep (bytes : List UInt8) : (10 : UInt8) ∉ bytes.drop (keep bytes) := by
  have hsplit : bytes.rdropWhile (· != 10) ++ bytes.rtakeWhile (· != 10) = bytes := rdropWhile_append_rtakeWhile
  have htail : bytes.drop (keep bytes) = bytes.rtakeWhile (· != 10) := by
    have hdrop := congrArg (drop (keep bytes)) hsplit
    rwa [keep, drop_left, eq_comm] at hdrop
  intro h
  rw [htail] at h
  simpa using mem_rtakeWhile_imp h

theorem Phase.Sound.truncated {phase : Phase} (h : phase.Sound bytes) (hr : phase.rereads = false) (keep : Nat) :
    phase.Sound (truncated bytes keep) := by
  cases phase with
  | readSecond | fstatSync => cases hr
  | ftruncateSync keep' =>
    intro hmem
    rw [EventLogRivals.truncated, drop_append, drop_take, mem_append] at hmem
    obtain hmem | hmem := hmem
    · exact h (mem_of_mem_take hmem)
    · exact absurd (eq_of_mem_replicate (mem_of_mem_drop hmem)) (by decide)
  | _ => trivial

theorem Phase.Sound.append {phase : Phase} (h : phase.Sound bytes) (hc : phase.cuts = false) (more : List UInt8) :
    phase.Sound (bytes ++ more) := by
  cases phase with
  | readSecond | fstatSync => exact IsPrefix.trans h (prefix_append _ _)
  | ftruncateSync => cases hc
  | _ => trivial

end Bytes

theorem Append.payload_terminated (a : Append) : JsonLines.Terminated a.payload :=
  EventLog.payload_terminated _

/-! ## Runs -/

namespace State

variable {options : EventLogOptions} {s s' : State} {t : Nat} {a a' : Append}

theorem Inv.move (file : Option (List UInt8)) (h : s.Inv)
    (hkeeps : ∀ (k : Nat) b offset, s.appends[k]? = some b → b.payload <+: s.bytes.drop offset →
      b.payload <+: (file.getD []).drop offset)
    (hown : ∀ offset, a'.phase.offset = some offset → a'.payload <+: (file.getD []).drop offset) :
    ({ s with file }.put t a').Inv := by
  intro k b offset hb hoffset
  have hget : ({ s with file }.put t a').appends[k]? = (s.appends.set t a')[k]? := rfl
  have hbytes : ({ s with file }.put t a').bytes = file.getD [] := rfl
  rw [hbytes]
  rw [hget, getElem?_set] at hb
  split at hb
  · split at hb
    · cases hb
      exact hown offset hoffset
    · cases hb
  · exact hkeeps k b offset hb (h k b offset hb hoffset)

/-- An append moves on without touching the file, and has not written. -/
theorem Inv.moveOn (h : s.Inv) (hoffset : a'.phase.offset = none) : (s.put t a').Inv := by
  refine h.move s.file (fun _ _ _ _ hb => hb) ?_
  intro offset hsome
  rw [hoffset] at hsome
  cases hsome

theorem Sound.move (file : Option (List UInt8))
    (hothers : ∀ b ∈ s.appends.eraseIdx t, b.phase.Sound (file.getD [])) (hown : a'.phase.Sound (file.getD [])) :
    ({ s with file }.put t a').Sound := by
  intro k b hb
  have hget : ({ s with file }.put t a').appends[k]? = (s.appends.set t a')[k]? := rfl
  rw [hget, getElem?_set] at hb
  split at hb
  · split at hb
    · cases hb
      exact hown
    · cases hb
  · rename_i hne
    exact hothers b (mem_eraseIdx_iff_getElem?.2 ⟨k, Ne.symm hne, hb⟩)

theorem Sound.others (h : s.Sound) : ∀ b ∈ s.appends.eraseIdx t, b.phase.Sound s.bytes := by
  intro b hb
  obtain ⟨k, -, hk⟩ := mem_eraseIdx_iff_getElem?.1 hb
  exact h k b hk

theorem Sound.moveOn (h : s.Sound) (hown : a'.phase.Sound s.bytes) : (s.put t a').Sound :=
  Sound.move s.file h.others hown

/-- No truncation cuts a line end off. -/
theorem Sound.keepsLines (h : s.Sound) (ha : s.appends[t]? = some a) {keep : Nat}
    (hphase : a.phase = .ftruncateSync keep) :
    (10 : UInt8) ∉ s.bytes.drop keep := by
  have hsound := h t a ha
  rwa [hphase] at hsound

theorem Sound.next (h : s.Sound) (ha : s.appends[t]? = some a) (count : Nat)
    (hquiet : s.undisturbed (.call t count) = true) : (s.next options t a count).Sound := by
  have hown := h t a ha
  rw [undisturbed, ha, Option.map_some] at hquiet
  rw [State.next.eq_def]
  cases hphase : a.phase with
  | readSecond first size buffer =>
    rw [hphase] at hown
    have hchunk := append_readSync hown (size - buffer.length) count
    simp only
    split
    · split
      · rename_i hsame
        exact h.moveOn (hsame ▸ hchunk)
      · exact h.moveOn trivial
    · exact h.moveOn hchunk
  | fstatSync first =>
    rw [hphase] at hown
    simp only
    split
    · rename_i hsize
      obtain rfl : first = s.bytes := IsPrefix.eq_of_length hown hsize.symm
      exact h.moveOn (notMem_drop_keep _)
    · exact h.moveOn trivial
  | ftruncateSync keep =>
    rw [hphase] at hquiet
    refine Sound.move _ (fun b hb => (h.others b hb).truncated ?_ keep) trivial
    simpa using all_eq_true.1 hquiet b hb
  | openAppend => exact Sound.move _ h.others trivial
  | writeSync =>
    rw [hphase] at hquiet
    refine Sound.move _ (fun b hb => (h.others b hb).append ?_ _) ?_
    · simpa using all_eq_true.1 hquiet b hb
    · simp only
      split
      · trivial
      · split <;> trivial
  | fsyncSync offset => exact h.moveOn trivial
  | returned offset => exact h
  | threw => exact h
  | readLastByte size =>
    simp only
    split
    · exact h.moveOn trivial
    · split <;> exact h.moveOn trivial
  | statSync =>
    simp only
    split
    · exact h.moveOn trivial
    · split
      · exact h.moveOn trivial
      · split <;> exact h.moveOn trivial
  | fstatSecond first =>
    simp only
    split
    · exact h.moveOn trivial
    · exact h.moveOn nil_prefix
  | _ =>
    simp only
    split <;> exact h.moveOn trivial

theorem Sound.step (h : s.Sound) (act : Action) (hquiet : s.undisturbed act = true)
    (hstep : s.step options act = some s') : s'.Sound := by
  cases act with
  | appendSync events onCreate durable =>
    cases hstep
    intro k b hb
    rw [getElem?_append] at hb
    split at hb
    · exact h k b hb
    · rw [getElem?_singleton] at hb
      split at hb
      · cases hb
        trivial
      · cases hb
  | call t count =>
    obtain ⟨a, ha, rfl⟩ := Option.map_eq_some_iff.1 hstep
    exact h.next ha count hquiet
  | interrupt t =>
    rw [State.step] at hstep
    split at hstep
    · cases hstep
    · split at hstep
      · cases hstep
      · cases hstep
        exact h.moveOn trivial

theorem Inv.next (h : s.Inv) (hsound : s.Sound) (ha : s.appends[t]? = some a) (count : Nat) :
    (s.next options t a count).Inv := by
  rw [State.next.eq_def]
  cases hphase : a.phase with
  | ftruncateSync keep =>
    refine h.move _ ?_ nofun
    intro k b offset _ hb
    exact prefix_drop_truncated b.payload_terminated hb (hsound.keepsLines ha hphase)
  | openAppend => exact h.move _ (fun _ _ _ _ hb => hb) nofun
  | writeSync =>
    refine h.move _ (fun k b offset _ hb => prefix_drop_append hb _) ?_
    intro offset hoffset
    have hwhole : a.payload.length ≤ count ∧ offset = s.bytes.length := by
      by_cases hshort : count < a.payload.length
      · simp [hshort, Phase.offset] at hoffset
      · by_cases hdurable : a.durable
        · simp [hshort, hdurable, Phase.offset] at hoffset
          omega
        · simp [hshort, hdurable, Phase.offset] at hoffset
          omega
    rw [hwhole.2, Option.getD_some, drop_left, take_of_length_le hwhole.1]
    exact prefix_rfl
  | fsyncSync offset =>
    refine h.move s.file (fun _ _ _ _ hb => hb) ?_
    intro offset' hoffset
    cases hoffset
    exact h t a offset ha (by rw [hphase]; rfl)
  | returned offset => exact h
  | threw => exact h
  | readLastByte size =>
    simp only
    split
    · exact h.moveOn rfl
    · split <;> exact h.moveOn rfl
  | statSync =>
    simp only
    split
    · exact h.moveOn rfl
    · split
      · exact h.moveOn rfl
      · split <;> exact h.moveOn rfl
  | readSecond first size buffer =>
    simp only
    split
    · split <;> exact h.moveOn rfl
    · exact h.moveOn rfl
  | _ =>
    simp only
    split <;> exact h.moveOn rfl

theorem Inv.step (h : s.Inv) (hsound : s.Sound) (act : Action) (hstep : s.step options act = some s') : s'.Inv := by
  cases act with
  | appendSync events onCreate durable =>
    cases hstep
    intro k b offset hb hoffset
    rw [getElem?_append] at hb
    split at hb
    · exact h k b offset hb hoffset
    · rw [getElem?_singleton] at hb
      split at hb
      · cases hb
        cases hoffset
      · cases hb
  | call t count =>
    obtain ⟨a, ha, rfl⟩ := Option.map_eq_some_iff.1 hstep
    exact h.next hsound ha count
  | interrupt t =>
    rw [State.step] at hstep
    split at hstep
    · cases hstep
    · split at hstep
      · cases hstep
      · cases hstep
        exact h.moveOn rfl

theorem Inv.run (h : s.Inv) (hsound : s.Sound) (acts : List Action) (hquiet : s.undisturbedAll options acts = true)
    (hrun : s.run options acts = some s') : s'.Inv := by
  induction acts generalizing s with
  | nil =>
    cases hrun
    exact h
  | cons act rest ih =>
    obtain ⟨s₁, hstep, hrest⟩ := Option.bind_eq_some_iff.1 hrun
    rw [undisturbedAll, Bool.and_eq_true, hstep, Option.all_some] at hquiet
    exact ih (h.step hsound act hstep) (hsound.step act hquiet.1 hstep) hquiet.2 hrest

end State

/-- In a run in which no rival writes into a repair, what an append that returned has written is in the file. -/
theorem appended_of_run (options : EventLogOptions) (file : Option (List UInt8)) (acts : List Action) {s : State}
    (hrun : State.run options ⟨file, []⟩ acts = some s)
    (hquiet : State.undisturbedAll options ⟨file, []⟩ acts = true) {t offset : Nat} {a : Append}
    (ha : s.appends[t]? = some a) (hreturned : a.phase = .returned offset) : a.payload <+: s.bytes.drop offset := by
  have hnew : State.Inv ⟨file, []⟩ := by
    intro k b offset hb
    cases hb
  have hsound : State.Sound ⟨file, []⟩ := by
    intro k b hb
    cases hb
  exact hnew.run hsound acts hquiet hrun t a offset ha (by rw [hreturned]; rfl)

/-- Two writers find a torn line. The first has its repair decided when the second repairs and appends. -/
def rivals : List Action :=
  [Action.appendSync [.bool true] [] false, .appendSync [.null] [] false] ++ List.replicate 9 (Action.call 0 9) ++
    List.replicate 12 (Action.call 1 9)

/-- The second has truncated too when the first cuts and appends, and appends after it. -/
theorem appended_of_run_repairs : ∃ s a,
    State.run ⟨none, none⟩ ⟨some [123], []⟩ (rivals.take 22 ++ List.replicate 3 (.call 0 9) ++ [.call 1 9]) = some s ∧
      s.appends[0]? = some a ∧ a.payload <+: s.bytes.drop 0 :=
  ⟨_, _, rfl, rfl, appended_of_run ⟨none, none⟩ (some [123])
    (rivals.take 22 ++ List.replicate 3 (Action.call 0 9) ++ [.call 1 9]) rfl (by decide) (t := 0) rfl (by decide)⟩

/-- The second has returned, and the first cuts its record off. -/
theorem repair_removes : ∃ s a, State.run ⟨none, none⟩ ⟨some [123], []⟩ (rivals ++ [.call 0 9]) = some s ∧
      s.appends[1]? = some a ∧ a.phase = .returned 0 ∧ ¬ a.payload <+: s.bytes.drop 0 :=
  ⟨_, _, rfl, rfl, by decide, by decide⟩

end EventLogRivals
end Core
end RePrime
