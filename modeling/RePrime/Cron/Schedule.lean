import RePrime.Lib.Calendar
import RePrime.Lib.Fallible
import RePrime.Lib.Text

/-!
# RePrime.Cron.Schedule

Schedules of jobs: their texts, and when a job runs next.

* `parseAgentCronSchedule`: `in 10m`, `every 5m`, `at <date>`, or five cron fields.
* `nextCronRunAfter`: minute by minute in local time, for 366 days.
* `search_isSome`: the search finds a run exactly when `RunsWithin` says there is one, so its bound
  is no bound of the model.
* `nextRun_ok_iff`: for which schedules there is a next run.

The time zone of the host is a parameter; of a zone it is only assumed that adding a minute to the
local time of an instant moves the instant forward by at least a minute.
-/

namespace RePrime
namespace Cron

open Calendar Fallible Option

/-! ## Dates -/

/-- The largest time a `Date` holds. -/
def maxTime : Int := 8640000000000000

/-- A `Date` that is not invalid, and the text `toISOString` gives for it. -/
structure Instant where
  time : Int
  lower : -maxTime ≤ time
  upper : time ≤ maxTime
  deriving DecidableEq, Repr

/-- `none` is the invalid `Date`. -/
abbrev Date := Option Instant

/-- `new Date(t)`. -/
def timeClip (t : Int) : Date := if h : -maxTime ≤ t ∧ t ≤ maxTime then some ⟨t, h.1, h.2⟩ else none

def toISOString : Date → Except String Instant
  | none => .error "Invalid time value"
  | some t => .ok t

theorem timeClip_time {t : Int} {i : Instant} (h : timeClip t = some i) : i.time = t := by
  unfold timeClip at h
  split at h
  · cases h
    rfl
  · cases h

/-- The host's time zone: local time minus UTC at an instant, and at a local time. -/
structure Zone where
  offset : Int → Int
  localOffset : Int → Int
  advances : ∀ l, l - localOffset l + 60000 ≤ l - localOffset l + offset (l - localOffset l) + 60000 -
      localOffset (l - localOffset l + offset (l - localOffset l) + 60000)

namespace Zone

/-- The zone that is always `ms` ahead of UTC. -/
def fixed (ms : Int) : Zone where
  offset _ := ms
  localOffset _ := ms
  advances l := by omega

variable (zone : Zone)

def localTime (t : Int) : Int := t + zone.offset t

/-- The time of a local time. -/
def utc (l : Int) : Int := l - zone.localOffset l

theorem utc_advances (l : Int) : zone.utc l + 60000 ≤ zone.utc (zone.localTime (zone.utc l) + 60000) := by
  have := zone.advances l
  simp only [utc, localTime]
  omega

end Zone

/-- What the host gives: its zone, its reading of a date text, and `path.resolve`. -/
structure Host where
  zone : Zone
  parseDate : String → Date
  resolve : String → String

/-- A host in UTC that reads no date texts. -/
def utcHost : Host where
  zone := Zone.fixed 0
  parseDate _ := none
  resolve path := path

/-! ## Cron fields -/

def parseCronNumber (value : List Char) (min max : Nat) : Except String Nat :=
  match Json.readNat value with
  | none => .error ("Invalid cron number: " ++ String.ofList value)
  | some parsed =>
    if parsed < min ∨ max < parsed then .error ("Cron number out of range: " ++ String.ofList value)
    else .ok parsed

/-- `start` and `end` of a part of a field. -/
def parseCronRange (rangeText : List Char) (min max : Nat) : Except String (Nat × Nat) :=
  if rangeText = ['*'] then .ok (min, max)
  else if '-' ∈ rangeText then do
    let ends := rangeText.splitOn '-'
    let start ← parseCronNumber (ends.getD 0 []) min max
    let stop ← parseCronNumber (ends.getD 1 []) min max
    if stop < start then .error ("Invalid cron range: " ++ String.ofList rangeText)
    else .ok (start, stop)
  else do
    let start ← parseCronNumber rangeText min max
    .ok (start, start)

def parseCronStep (stepText : Option (List Char)) (max : Nat) : Except String Nat :=
  match stepText with
  | none => .ok 1
  | some text => parseCronNumber text 1 max

/-- `for (value = start; value <= end; value += step)`. -/
def stepValues (start stop step : Nat) : List Nat := List.range' start ((stop - start) / step + 1) step

def parseCronPart (field part : List Char) (min max : Nat) : Except String (List Nat) :=
  if part = [] then .error ("Invalid cron field: " ++ String.ofList field)
  else do
    let pieces := part.splitOn '/'
    let step ← parseCronStep (pieces[1]?) max
    let range ← parseCronRange (pieces.getD 0 []) min max
    .ok (stepValues range.1 range.2 step)

def parseCronField (field : List Char) (min max : Nat) : Except String (List Nat) := do
  let values ← (field.splitOn ',').mapM fun part => parseCronPart field part min max
  .ok values.flatten

structure CronFields where
  minute : List Nat
  hour : List Nat
  dayOfMonth : List Nat
  month : List Nat
  dayOfWeek : List Nat
  deriving DecidableEq, Repr

/-- `text.trim().split(/\s+/)`. -/
def words (text : List Char) : List (List Char) :=
  (text.splitOnP Text.isSpace).filter fun w => w ≠ []

def parseCronExpression (expression : String) : Except String CronFields :=
  match words expression.toList with
  | [minute, hour, dayOfMonth, month, dayOfWeek] => do
    let minute ← parseCronField minute 0 59
    let hour ← parseCronField hour 0 23
    let dayOfMonth ← parseCronField dayOfMonth 1 31
    let month ← parseCronField month 1 12
    let dayOfWeek ← parseCronField dayOfWeek 0 7
    .ok { minute, hour, dayOfMonth, month, dayOfWeek }
  | _ =>
    .error ("Unsupported cron schedule. Use 'in 10m', 'at <ISO date>', @hourly, or five fields: " ++
      "minute hour day month weekday")

/-- The fields at a local time. -/
def matchesLocal (fields : CronFields) (l : Int) : Bool :=
  let day := weekDayOf l
  minuteOf l ∈ fields.minute && hourOf l ∈ fields.hour && dateOf l ∈ fields.dayOfMonth &&
    monthOf l ∈ fields.month && (day ∈ fields.dayOfWeek || (day == 0 && 7 ∈ fields.dayOfWeek))

def matchesCronFields (zone : Zone) (date : Instant) (fields : CronFields) : Bool :=
  matchesLocal fields (zone.localTime date.time)

/-! ## The search -/

/-- `date.setSeconds(0, 0)`. -/
def floorMinute (zone : Zone) (date : Instant) : Date :=
  let l := zone.localTime date.time
  timeClip (zone.utc (l - l % 60000))

/-- The local time of `date.setMinutes(date.getMinutes() + 1)`. -/
def nextLocal (zone : Zone) (date : Instant) : Int := zone.localTime date.time + 60000

/-- The candidate at a local time. -/
def candidateAt (zone : Zone) (l : Int) : Date := timeClip (zone.utc l)

def searchWindow : Int := 366 * 24 * 60 * 60000

/-- How many candidates the loop sees at most. -/
def searchSteps : Nat := 366 * 24 * 60 + 1

/-- The loop from the candidate at a local time on; `none` leaves it without a match. -/
def search (zone : Zone) (fields : CronFields) (deadline : Int) : Nat → Int → Date
  | 0, _ => none
  | n + 1, l =>
    match candidateAt zone l with
    | none => none
    | some candidate =>
      if candidate.time ≤ deadline then
        if matchesCronFields zone candidate fields then some candidate
        else search zone fields deadline n (nextLocal zone candidate)
      else none

/-- The local time of the first candidate, the minute after `after`. -/
def firstLocal (zone : Zone) (after : Date) : Option Int :=
  (after.bind (floorMinute zone)).map (nextLocal zone)

def searchAfter (zone : Zone) (fields : CronFields) (after : Date) : Date := do
  let l ← firstLocal zone after
  let first ← candidateAt zone l
  search zone fields (first.time + searchWindow) searchSteps l

def nextCronRunAfter (zone : Zone) (expression : String) (after : Date) : Except String Instant := do
  let fields ← parseCronExpression expression
  match searchAfter zone fields after with
  | some candidate => .ok candidate
  | none => .error ("Cron schedule did not match within one year: " ++ expression)

/-! ## Schedules -/

inductive AgentCronSchedule where
  | once (expression : String)
  | cron (expression : String)
  | interval (expression : String) (intervalMs : Int)
  deriving DecidableEq, Repr

/-- `new Date(after.getTime() + ms)`. -/
def Date.plus (after : Date) (ms : Int) : Date := after.bind fun t => timeClip (t.time + ms)

/-- The inner `none` is `undefined`. -/
def nextRunAtForSchedule (zone : Zone) (schedule : AgentCronSchedule) (after : Date) :
    Except String (Option Date) :=
  match schedule with
  | .once _ => .ok none
  | .interval expression intervalMs =>
    if intervalMs ≤ 0 then .error ("Invalid interval schedule: " ++ expression)
    else .ok (some (after.plus intervalMs))
  | .cron expression => (nextCronRunAfter zone expression after).map fun t => some (some t)

def lower (text : List Char) : List Char := text.map Char.toLower

def minuteUnits : List String := ["m", "min", "mins", "minute", "minutes"]

def hourUnits : List String := ["h", "hr", "hrs", "hour", "hours"]

def dayUnits : List String := ["d", "day", "days"]

def secondUnits : List String := ["s", "sec", "secs", "second", "seconds"]

/-- `/^(?:head)\s+(\d+)\s*(unit)$/i`: the number, and the unit in lower case. -/
def matchAmount (heads units : List String) (text : List Char) : Option (Nat × List Char) := do
  let head ← heads.find? fun h => h.toList.isPrefixOf (lower text)
  let rest := text.drop head.toList.length
  let amountText := rest.dropWhile Text.isSpace
  if rest.length = amountText.length then none
  else
    let amount ← Json.readNat (amountText.takeWhile Char.isDigit)
    let unit := lower ((amountText.dropWhile Char.isDigit).dropWhile Text.isSpace)
    if String.ofList unit ∈ units then some (amount, unit) else none

def normalizeCronAlias (text : String) : String :=
  if text = "@hourly" then "0 * * * *"
  else if text = "@daily" then "0 0 * * *"
  else if text = "@weekly" then "0 0 * * 0"
  else if text = "@monthly" then "0 0 1 * *"
  else text

def stripMatchingQuotes (value : List Char) : List Char :=
  match value with
  | [] | [_] => value
  | c :: rest =>
    if (c = '"' ∨ c = '\'') ∧ rest.getLast? = some c then rest.dropLast else value

structure ParsedSchedule where
  schedule : AgentCronSchedule
  nextRunAt : Date
  deriving DecidableEq

/-- The text with its quotes stripped, after the tests for `in` and `every`. -/
def parseOther (host : Host) (text : List Char) (now : Instant) : Except String ParsedSchedule :=
  if "at ".toList.isPrefixOf (lower text) then
    match host.parseDate (Text.trim (String.ofList (text.drop 3))) with
    | none => .error "Invalid one-shot schedule. Use: at <ISO date>"
    | some date =>
      if date.time ≤ now.time then .error "One-shot schedule must be in the future"
      else .ok { schedule := .once (String.ofList text), nextRunAt := some date }
  else do
    let expression := normalizeCronAlias (String.ofList text)
    let nextRunAt ← nextCronRunAfter host.zone expression (some now)
    .ok { schedule := .cron expression, nextRunAt := some nextRunAt }

/-- Milliseconds of a unit, by its first letter. -/
def unitMs (unit : List Char) : Int :=
  match unit.head? with
  | some 's' => 1000
  | some 'm' => 60000
  | some 'h' => 60 * 60000
  | _ => 24 * 60 * 60000

def parseEvery (text : List Char) (amount : Nat) (unit : List Char) (now : Instant) :
    Except String ParsedSchedule :=
  if amount * unitMs unit < 10 * 1000 then .error "Recurring interval must be at least 10 seconds"
  else
    .ok
      { schedule := .interval (String.ofList text) (amount * unitMs unit)
        nextRunAt := timeClip (now.time + amount * unitMs unit) }

def parseText (host : Host) (text : List Char) (now : Instant) : Except String ParsedSchedule :=
  if text = [] then .error "Cron schedule cannot be empty"
  else
    match matchAmount ["in"] (minuteUnits ++ hourUnits ++ dayUnits) text with
    | some (amount, unit) =>
      .ok
        { schedule := .once (String.ofList text)
          nextRunAt := timeClip (now.time + amount * unitMs unit) }
    | none =>
      match matchAmount ["every", "each"] (secondUnits ++ minuteUnits ++ hourUnits) text with
      | some (amount, unit) => parseEvery text amount unit now
      | none => parseOther host text now

def parseAgentCronSchedule (host : Host) (input : String) (now : Instant) :
    Except String ParsedSchedule :=
  parseText host (stripMatchingQuotes (Text.trimChars input.toList)) now

/-! ## What the search finds -/

/-- The local time of the candidate `k` rounds later. -/
def localAfter (zone : Zone) (l : Int) : Nat → Int
  | 0 => l
  | k + 1 => zone.localTime (zone.utc (localAfter zone l k)) + 60000

theorem localAfter_succ (zone : Zone) (l : Int) (k : Nat) :
    localAfter zone (zone.localTime (zone.utc l) + 60000) k = localAfter zone l (k + 1) := by
  induction k with
  | zero => rfl
  | succ k ih => rw [localAfter, ih, localAfter.eq_2 zone l (k + 1)]

theorem utc_localAfter (zone : Zone) (l : Int) (k : Nat) :
    zone.utc l + 60000 * k ≤ zone.utc (localAfter zone l k) := by
  induction k with
  | zero => simp [localAfter]
  | succ k ih =>
    have hstep := zone.utc_advances (localAfter zone l k)
    rw [localAfter]
    omega

/-- A candidate that matches comes before the deadline. -/
def RunsWithin (zone : Zone) (fields : CronFields) (deadline l : Int) : Prop :=
  ∃ k, zone.utc (localAfter zone l k) ≤ deadline ∧ zone.utc (localAfter zone l k) ≤ maxTime ∧
    matchesLocal fields (zone.localTime (zone.utc (localAfter zone l k))) = true

variable {zone : Zone} {l : Int}

theorem candidateAt_eq {candidate : Instant}
    (h : candidateAt zone l = some candidate) : candidate.time = zone.utc l := timeClip_time h

theorem candidateAt_eq_none (hl : -maxTime ≤ zone.utc l)
    (h : candidateAt zone l = none) : maxTime < zone.utc l := by
  unfold candidateAt timeClip at h
  split at h
  · cases h
  · omega

/-- With a round for every minute before the deadline, the loop ends as the conditions say. -/
theorem search_isSome (zone : Zone) (fields : CronFields) (deadline : Int) {n : Nat} :
    ∀ {l : Int}, -maxTime ≤ zone.utc l → deadline < zone.utc l + 60000 * n →
      ((search zone fields deadline n l).isSome = true ↔ RunsWithin zone fields deadline l) := by
  induction n with
  | zero =>
    intro l _ hn
    refine iff_of_false (by simp [search]) ?_
    rintro ⟨k, hk, -, -⟩
    have := utc_localAfter zone l k
    omega
  | succ n ih =>
    intro l hl hn
    rw [search]
    cases hc : candidateAt zone l with
    | none =>
      refine iff_of_false (by simp) ?_
      rintro ⟨k, -, hk, -⟩
      have := utc_localAfter zone l k
      have := candidateAt_eq_none hl hc
      omega
    | some candidate =>
      have htime := candidateAt_eq hc
      have hstep := zone.utc_advances l
      have hnext : nextLocal zone candidate = zone.localTime (zone.utc l) + 60000 := by
        rw [nextLocal, htime]
      simp only []
      by_cases hle : candidate.time ≤ deadline
      · rw [if_pos hle]
        cases hm : matchesCronFields zone candidate fields with
        | true =>
          refine iff_of_true rfl ⟨0, ?_, ?_, ?_⟩
          · rwa [localAfter, ← htime]
          · rw [localAfter, ← htime]
            exact candidate.upper
          · rwa [localAfter, ← htime]
        | false =>
          rw [if_neg (by simp), hnext, ih (by omega) (by omega)]
          constructor
          · rintro ⟨k, hk⟩
            rw [localAfter_succ] at hk
            exact ⟨k + 1, hk⟩
          · rintro ⟨k, hk⟩
            cases k with
            | zero =>
              have hm' := hk.2.2
              rw [localAfter, ← htime] at hm'
              exact absurd (hm.symm.trans hm') (by simp)
            | succ k =>
              refine ⟨k, ?_⟩
              rw [localAfter_succ]
              exact hk
      · rw [if_neg hle]
        refine iff_of_false (by simp) ?_
        rintro ⟨k, hk, -, -⟩
        have := utc_localAfter zone l k
        omega

theorem firstLocal_lower {after : Date} (h : firstLocal zone after = some l) : -maxTime ≤ zone.utc l := by
  unfold firstLocal at h
  obtain ⟨f, hf, rfl⟩ := map_eq_some_iff.1 h
  obtain ⟨a, -, hfloor⟩ := bind_eq_some_iff.1 hf
  have htime := timeClip_time hfloor
  have hstep := zone.utc_advances (zone.localTime a.time - zone.localTime a.time % 60000)
  rw [← htime] at hstep
  have hlower := f.lower
  rw [nextLocal]
  omega

/-- There is a run within the search window after an instant. -/
def RunsAfter (zone : Zone) (fields : CronFields) (after : Date) : Prop :=
  ∃ l, firstLocal zone after = some l ∧ RunsWithin zone fields (zone.utc l + searchWindow) l

theorem searchAfter_isSome (zone : Zone) (fields : CronFields) (after : Date) :
    (searchAfter zone fields after).isSome = true ↔ RunsAfter zone fields after := by
  unfold searchAfter RunsAfter
  cases hl : firstLocal zone after with
  | none => simp
  | some l =>
    have hlower := firstLocal_lower hl
    cases hc : candidateAt zone l with
    | none =>
      have hover := candidateAt_eq_none hlower hc
      refine iff_of_false (by simp [hc]) ?_
      rintro ⟨l', hl', k, -, hk, -⟩
      obtain rfl := Option.some.inj hl'
      have := utc_localAfter zone l k
      omega
    | some first =>
      have htime := candidateAt_eq hc
      have hsearch := @search_isSome zone fields (first.time + searchWindow) searchSteps l hlower (by
        rw [htime]
        simp only [searchWindow, searchSteps]
        omega)
      rw [htime] at hsearch
      simp only [bind_eq_bind, bind_some, hc, Option.some.injEq, exists_eq_left', htime, hsearch]

/-! ## Which schedules go on -/

/-- There is a next run after an instant, or none is needed. -/
def Continues (zone : Zone) (schedule : AgentCronSchedule) (after : Instant) : Prop :=
  match schedule with
  | .once _ => True
  | .interval _ intervalMs => after.time + intervalMs ≤ maxTime
  | .cron expression =>
    ∃ fields, parseCronExpression expression = .ok fields ∧ RunsAfter zone fields (some after)

/-- The value of `nextRunAtForSchedule(..)?.toISOString()`. -/
def nextRun (zone : Zone) (schedule : AgentCronSchedule) (after : Date) :
    Except String (Option Instant) := do
  match ← nextRunAtForSchedule zone schedule after with
  | none => .ok none
  | some date => (toISOString date).map some

/-- What `parseAgentCronSchedule` accepts. -/
def Accepted (schedule : AgentCronSchedule) : Prop :=
  match schedule with
  | .once _ => True
  | .interval _ intervalMs => 10000 ≤ intervalMs
  | .cron expression => ∃ fields, parseCronExpression expression = .ok fields

theorem nextCronRunAfter_parses {expression : String} {after : Date} {t : Instant}
    (h : nextCronRunAfter zone expression after = .ok t) :
    ∃ fields, parseCronExpression expression = .ok fields := by
  obtain ⟨fields, hp, -⟩ := bind_ok.1 h
  exact ⟨fields, hp⟩

variable {now : Instant} {p : ParsedSchedule}

theorem parseOther_accepted {host : Host} {text : List Char}
    (h : parseOther host text now = .ok p) : Accepted p.schedule := by
  unfold parseOther at h
  split at h
  · cases hd : host.parseDate (Text.trim (String.ofList (text.drop 3))) with
    | none =>
      simp only [hd] at h
      cases h
    | some date =>
      simp only [hd] at h
      split at h
      · cases h
      · cases h
        trivial
  · obtain ⟨t, ht, hp⟩ := bind_ok.1 h
    cases hp
    exact nextCronRunAfter_parses ht

theorem parseEvery_accepted {text unit : List Char} {amount : Nat}
    (h : parseEvery text amount unit now = .ok p) : Accepted p.schedule := by
  unfold parseEvery at h
  by_cases hmin : amount * unitMs unit < 10 * 1000
  · rw [if_pos hmin] at h
    cases h
  · rw [if_neg hmin] at h
    cases h
    exact Int.not_lt.1 hmin

theorem parseAgentCronSchedule_accepted {host : Host} {input : String}
    (h : parseAgentCronSchedule host input now = .ok p) : Accepted p.schedule := by
  unfold parseAgentCronSchedule parseText at h
  split at h
  · cases h
  · split at h
    · cases h
      trivial
    · split at h
      · exact parseEvery_accepted h
      · exact parseOther_accepted h

theorem nextCronRunAfter_ok_iff (zone : Zone) (expression : String) (after : Date) :
    (∃ t, nextCronRunAfter zone expression after = .ok t) ↔
      ∃ fields, parseCronExpression expression = .ok fields ∧ RunsAfter zone fields after := by
  constructor
  · rintro ⟨t, ht⟩
    obtain ⟨fields, hp, hs⟩ := bind_ok.1 ht
    refine ⟨fields, hp, (searchAfter_isSome zone fields after).1 ?_⟩
    cases hf : searchAfter zone fields after with
    | none =>
      simp only [hf] at hs
      cases hs
    | some t => rfl
  · rintro ⟨fields, hp, hr⟩
    obtain ⟨t, ht⟩ := isSome_iff_exists.1 ((searchAfter_isSome zone fields after).2 hr)
    exact ⟨t, bind_ok.2 ⟨fields, hp, by simp only [ht]⟩⟩

theorem nextRun_ok_iff {schedule : AgentCronSchedule} (h : Accepted schedule) (after : Instant) :
    (∃ next, nextRun zone schedule (some after) = .ok next) ↔ Continues zone schedule after := by
  cases schedule with
  | once expression => exact iff_of_true ⟨none, rfl⟩ trivial
  | interval expression intervalMs =>
    have hpos : (10000 : Int) ≤ intervalMs := h
    have hlower := after.lower
    by_cases hle : after.time + intervalMs ≤ maxTime
    · refine iff_of_true ⟨some ⟨after.time + intervalMs, by omega, hle⟩, ?_⟩ hle
      have hclip : timeClip (after.time + intervalMs) = some ⟨after.time + intervalMs, by omega, hle⟩ := by
        rw [timeClip, dif_pos ⟨by omega, hle⟩]
      simp only [nextRun, nextRunAtForSchedule, if_neg (show ¬ intervalMs ≤ 0 by omega), Date.plus,
        bind_some, hclip]
      rfl
    · refine iff_of_false ?_ hle
      rintro ⟨next, hn⟩
      have hclip : timeClip (after.time + intervalMs) = none := by
        rw [timeClip, dif_neg (by omega)]
      simp only [nextRun, nextRunAtForSchedule, if_neg (show ¬ intervalMs ≤ 0 by omega), Date.plus,
        bind_some, hclip] at hn
      cases hn
  | cron expression =>
    show _ ↔ ∃ fields, parseCronExpression expression = .ok fields ∧ RunsAfter zone fields (some after)
    rw [← nextCronRunAfter_ok_iff]
    constructor
    · rintro ⟨next, h⟩
      obtain ⟨date, hd, -⟩ := bind_ok.1 h
      obtain ⟨t, ht, -⟩ := map_ok.1 hd
      exact ⟨t, ht⟩
    · rintro ⟨t, ht⟩
      exact ⟨some t, bind_ok.2 ⟨some (some t), map_ok.2 ⟨t, ht, rfl⟩, rfl⟩⟩

end Cron
end RePrime
