import RePrime.Lib.JsonLines
import RePrime.Lib.Text
import Mathlib.Data.List.DropRight
import Mathlib.Data.List.Forall2

/-!
# RePrime.Core.EventLog

`EventLog`: an append-only file of JSON lines, whose last line may be torn.

* `appendSync`: one call, which may fail or be cut short anywhere; `repairTailSync` drops a torn line first.
* `replaySync`: what is read of the file.
* `replay_of_run`: after any calls, whole appends of those acknowledged and beginnings of the others.
-/

namespace RePrime
namespace Core
namespace EventLog

open Json List
open Utf8
open JsonLines

/-! ## The log -/

structure EventLogOptions where
  maxBytes : Option Nat
  maxRecords : Option Nat

inductive Failure where
  | missing
  | tooManyBytes (maxBytes size : Nat)
  | tooManyRecords (maxRecords : Nat)
  | rejected (line : List Char) (index : Nat)
  | notSerializable
  | shortWrite (written length : Nat)
  | interrupted

def exceeds : Option Nat → Nat → Bool
  | none, _ => false
  | some most, n => decide (most < n)

/-- The loop of `replaySync` over the lines. -/
def replayLines {T : Type} (maxRecords : Option Nat) (parse : List Char → Nat → Except Failure (Option T))
    (endsWithNewline : Bool) : Nat → Nat → List (List Char) → Except Failure (List T)
  | _, _, [] => .ok []
  | index, recordCount, raw :: rest =>
    let line := Text.trimChars raw
    if line = [] then replayLines maxRecords parse endsWithNewline (index + 1) recordCount rest
    else if rest = [] ∧ endsWithNewline = false then .ok []
    else if exceeds maxRecords (recordCount + 1) then .error (.tooManyRecords (maxRecords.getD 0))
    else
      match parse line index with
      | .error e => .error e
      | .ok none => replayLines maxRecords parse endsWithNewline (index + 1) (recordCount + 1) rest
      | .ok (some event) =>
        (replayLines maxRecords parse endsWithNewline (index + 1) (recordCount + 1) rest).map (event :: ·)

def replaySync {T : Type} (options : EventLogOptions) (parse : List Char → Nat → Except Failure (Option T))
    (missingFileThrows : Bool) (file : Option (List UInt8)) : Except Failure (List T) :=
  match file with
  | none => if missingFileThrows then .error .missing else .ok []
  | some bytes =>
    if exceeds options.maxBytes bytes.length then
      .error (.tooManyBytes (options.maxBytes.getD 0) bytes.length)
    else
      let contents := decode bytes
      replayLines options.maxRecords parse (contents.getLast? == some '\n') 0 0 (Lines.split '\n' contents)

/-- `lastIndexOf(0x0a) + 1` -/
def keep (bytes : List UInt8) : Nat := (bytes.rdropWhile (· != 10)).length

/-- `repairTailSync` when nobody else writes: both reads are the same, and so is the size. -/
def repairTailSync (options : EventLogOptions) (bytes : List UInt8) : Except Failure (List UInt8) :=
  if bytes.length = 0 then .ok bytes
  else if exceeds options.maxBytes bytes.length then
    .error (.tooManyBytes (options.maxBytes.getD 0) bytes.length)
  else if bytes.getLast? = some 10 then .ok bytes
  else .ok (bytes.take (keep bytes))

/-- How a call ends: well, before the repair, between the repair and the write, or after part of the payload,
or all of it, has reached the file. -/
inductive Fault where
  | none
  | unrepaired
  | unwritten
  | cut (written : Nat)
  deriving DecidableEq

/-- An event that is `none` is not JSON-serializable. -/
structure Call where
  events : List (Option Value)
  onCreate : List (Option Value)
  fault : Fault

def serializeAll (events : List (Option Value)) : Option (List Value) :=
  if events.all Option.isSome then some (events.filterMap id) else none

def payload (records : List Value) : List UInt8 := records.flatMap line

/-- The one write. -/
def write (fault : Fault) (records : List Value) (file : Option (List UInt8)) :
    Except Failure Unit × Option (List UInt8) :=
  match fault with
  | .unwritten => (.error .interrupted, file)
  | .cut written =>
    (.error (if written < (payload records).length then .shortWrite written (payload records).length
      else .interrupted), some (file.getD [] ++ (payload records).take written))
  | _ => (.ok (), some (file.getD [] ++ payload records))

def appendSync (options : EventLogOptions) (call : Call) (file : Option (List UInt8)) :
    Except Failure Unit × Option (List UInt8) :=
  match serializeAll call.events with
  | none => (.error .notSerializable, file)
  | some events =>
    if call.fault = .unrepaired then (.error .interrupted, file)
    else
      match file with
      | some bytes =>
        match repairTailSync options bytes with
        | .error e => (.error e, some bytes)
        | .ok bytes => write call.fault events (some bytes)
      | none =>
        match serializeAll call.onCreate with
        | none => (.error .notSerializable, none)
        | some leads => write call.fault (leads ++ events) none

/-! ## Runs -/

/-- What a call was to append, and whether it returned. -/
structure Entry where
  records : List Value
  acknowledged : Bool

structure State where
  file : Option (List UInt8)
  trace : List Entry

def attempted (call : Call) (file : Option (List UInt8)) : List Value :=
  (if file.isNone then call.onCreate.filterMap id else []) ++ call.events.filterMap id

def State.step (options : EventLogOptions) (s : State) (call : Call) : State :=
  let r := appendSync options call s.file
  { file := r.2, trace := s.trace ++ [{ records := attempted call s.file, acknowledged := r.1.isOk }] }

/-- Calls one after the other, on a file that does not exist at first. -/
def run (options : EventLogOptions) (calls : List Call) : State :=
  calls.foldl (State.step options) { file := none, trace := [] }

/-- A parser that rejects a line that is no JSON text. -/
def strict (line : List Char) (index : Nat) : Except Failure (Option Value) :=
  match parse line with
  | some v => .ok (some v)
  | none => .error (.rejected line index)

/-- All of an acknowledged append is kept, and a beginning of another. -/
def Kept (entry : Entry) (kept : List Value) : Prop :=
  kept <+: entry.records ∧ (entry.acknowledged = true → kept = entry.records)

/-- What a replay makes of the events in a file: it refuses to read beyond the bounds. -/
def bounded (options : EventLogOptions) (file : Option (List UInt8)) (events : List Value) :
    Except Failure (List Value) :=
  if exceeds options.maxBytes (file.getD []).length then
    .error (.tooManyBytes (options.maxBytes.getD 0) (file.getD []).length)
  else if exceeds options.maxRecords events.length then .error (.tooManyRecords (options.maxRecords.getD 0))
  else .ok events

/-! ## The file -/

/-- Part of the text of a value, without the line end. -/
def Torn (tail : List UInt8) : Prop := ∃ v, tail <+: encode (stringify v)

/-- Whole lines, and what is left of an append that was cut. -/
def Holds (file : Option (List UInt8)) (events : List Value) : Prop :=
  match file with
  | none => events = []
  | some bytes => ∃ tail, Torn tail ∧ bytes = payload events ++ tail

theorem torn_nil : Torn [] := ⟨.null, nil_prefix⟩

variable {tail : List UInt8}

theorem Torn.newline_not_mem (h : Torn tail) : (10 : UInt8) ∉ tail := by
  obtain ⟨v, hv⟩ := h
  intro hmem
  obtain ⟨c, hc, hcode⟩ := ascii_mem_encode (by decide) (hv.subset hmem)
  have hprintable := stringify_printable v c hc
  rw [hcode] at hprintable
  exact absurd hprintable (by decide)

theorem Torn.newline_not_mem_decode (h : Torn tail) : '\n' ∉ decode tail := by
  obtain ⟨v, hv⟩ := h
  obtain ⟨u, hu, hcase⟩ := decode_prefix hv
  have hnewline : '\n' ∉ u := fun hmem => newline_not_mem_stringify v (hu.subset hmem)
  obtain ⟨-, hd⟩ | ⟨-, hd⟩ := hcase
  · rw [hd]
    exact hnewline
  · rw [hd]
    simp [hnewline, replacement]

theorem payload_cons (v : Value) (vs : List Value) : payload (v :: vs) = line v ++ payload vs := rfl

theorem payload_append (vs ws : List Value) : payload (vs ++ ws) = payload vs ++ payload ws :=
  flatMap_append

theorem payload_terminated (vs : List Value) : JsonLines.Terminated (payload vs) := by
  obtain rfl | ⟨vs, v, rfl⟩ := vs.eq_nil_or_concat
  · exact .inl rfl
  · rw [concat_eq_append, payload_append]
    have hline := terminated_append_line (payload vs) v
    rwa [← append_nil (line v)] at hline

theorem payload_take (records : List Value) (n : Nat) :
    ∃ kept tail, kept <+: records ∧ Torn tail ∧ (payload records).take n = payload kept ++ tail := by
  induction records generalizing n with
  | nil => exact ⟨[], [], prefix_rfl, torn_nil, by simp [payload]⟩
  | cons v rest ih =>
    by_cases hn : (line v).length ≤ n
    · obtain ⟨kept, tail, hkept, htail, heq⟩ := ih (n - (line v).length)
      refine ⟨v :: kept, tail, (prefix_cons_inj v).2 hkept, htail, ?_⟩
      rw [payload_cons, take_append, take_of_length_le hn, heq, payload_cons, append_assoc]
    · refine ⟨[], (encode (stringify v)).take n, nil_prefix, ⟨v, take_prefix _ _⟩, ?_⟩
      have hlen : n ≤ (encode (stringify v)).length := by
        rw [line_eq, length_append, length_singleton] at hn
        omega
      rw [payload_cons, take_append_of_le_length (by omega), line_eq, take_append_of_le_length hlen]
      rfl

/-! ## Appending -/

variable {options : EventLogOptions} {events : List Value}

theorem repairTailSync_payload {bytes : List UInt8} (htail : Torn tail)
    (h : repairTailSync options (payload events ++ tail) = .ok bytes) : bytes = payload events := by
  have hnewline := htail.newline_not_mem
  rw [repairTailSync] at h
  split at h
  · rename_i hempty
    cases h
    rw [length_eq_zero_iff, append_eq_nil_iff] at hempty
    rw [hempty.1, hempty.2]
    rfl
  · split at h
    · cases h
    · split at h
      · rename_i hlast
        cases h
        obtain rfl | ⟨tail, b, rfl⟩ := tail.eq_nil_or_concat
        · rw [append_nil]
        · rw [concat_eq_append, ← append_assoc, getLast?_concat, Option.some.injEq] at hlast
          rw [hlast] at hnewline
          exact absurd (by simp) hnewline
      · cases h
        have hkeep : (payload events ++ tail).rdropWhile (· != 10) = payload events := by
          rw [List.rdropWhile, reverse_append, dropWhile_append_of_pos]
          · obtain hnil | ⟨a, ha⟩ := payload_terminated events
            · rw [hnil]
              rfl
            · rw [ha, reverse_append, reverse_singleton, singleton_append,
                dropWhile_cons_of_neg (by simp), reverse_cons, reverse_reverse]
          · intro b hb
            rw [mem_reverse] at hb
            rw [bne_iff_ne]
            intro hten
            exact hnewline (hten ▸ hb)
        rw [keep, hkeep, take_left]

variable {file : Option (List UInt8)}

theorem write_holds {fault : Fault} {records : List Value}
    (hfile : file.getD [] = payload events) (hholds : Holds file events) :
    ∃ kept, Kept ⟨records, (write fault records file).1.isOk⟩ kept ∧
      Holds (write fault records file).2 (events ++ kept) := by
  cases fault with
  | unwritten =>
    refine ⟨[], ⟨ nil_prefix, nofun⟩, ?_⟩
    rw [append_nil]
    exact hholds
  | cut n =>
    obtain ⟨kept, tail, hkept, htail, heq⟩ := payload_take records n
    refine ⟨kept, ⟨hkept, nofun⟩, tail, htail, ?_⟩
    rw [hfile, heq, payload_append, append_assoc]
  | _ =>
    refine ⟨records, ⟨prefix_rfl, fun _ => rfl⟩, [], torn_nil, ?_⟩
    rw [hfile, payload_append, append_nil]

theorem serializeAll_eq {given : List (Option Value)} {values : List Value} (h : serializeAll given = some values) :
    values = given.filterMap id := by
  rw [serializeAll] at h
  split at h
  · exact (Option.some.inj h).symm
  · cases h

theorem appendSync_holds (options : EventLogOptions) (call : Call) (hholds : Holds file events) :
    ∃ kept, Kept ⟨attempted call file, (appendSync options call file).1.isOk⟩ kept ∧
      Holds (appendSync options call file).2 (events ++ kept) := by
  -- A call that fails before its write keeps nothing and leaves the file as it is.
  have hfailed : ∀ e : Failure, ∃ kept, Kept ⟨attempted call file, (Except.error e : Except Failure Unit).isOk⟩ kept ∧
      Holds file (events ++ kept) := by
    intro e
    refine ⟨[], ⟨ nil_prefix, nofun⟩, ?_⟩
    rw [append_nil]
    exact hholds
  rw [appendSync]
  cases hevents : serializeAll call.events with
  | none => exact hfailed _
  | some records =>
    have hrecords := serializeAll_eq hevents
    simp only
    split
    · exact hfailed _
    · cases file with
      | some bytes =>
        obtain ⟨tail, htail, rfl⟩ := hholds
        simp only
        cases hrepair : repairTailSync options (payload events ++ tail) with
        | error e => exact hfailed e
        | ok repaired =>
          obtain rfl := repairTailSync_payload htail hrepair
          have hwhole : Holds (some (payload events)) events := ⟨[], torn_nil, (append_nil _).symm⟩
          have hattempted : attempted call (some (payload events ++ tail)) = records := by
            rw [hrecords]
            rfl
          rw [hattempted]
          exact write_holds rfl hwhole
      | none =>
        cases hleads : serializeAll call.onCreate with
        | none => exact hfailed _
        | some leads =>
          have hattempted : attempted call none = leads ++ records := by
            rw [hrecords, serializeAll_eq hleads]
            rfl
          rw [hattempted]
          have hnone : events = [] := hholds
          exact write_holds (by rw [hnone]; rfl) hholds

/-- After any calls the file holds what is kept of them, in order. -/
theorem run_holds (options : EventLogOptions) (calls : List Call) :
    ∃ kept, List.Forall₂ Kept (run options calls).trace kept ∧ Holds (run options calls).file kept.flatten := by
  induction calls using reverseRecOn with
  | nil => exact ⟨[], .nil, rfl⟩
  | append_singleton calls call ih =>
    obtain ⟨kept, hkept, hholds⟩ := ih
    obtain ⟨more, hmore, hholds'⟩ := appendSync_holds options call hholds
    refine ⟨kept ++ [more], ?_, ?_⟩
    · rw [run, foldl_append]
      exact rel_append hkept (.cons hmore .nil)
    · rw [run, foldl_append, flatten_append, flatten_singleton]
      exact hholds'

/-! ## Replaying -/

theorem trim_stringify (v : Value) : Text.trimChars (stringify v) = stringify v := by
  obtain ⟨c, t, hfirst, hc⟩ := stringify_first v
  obtain ⟨t', d, hlast, hd⟩ := stringify_last v
  exact Text.trimChars_eq_self hfirst (Text.isSpace_of_graphic hc.1 hc.2) hlast (Text.isSpace_of_graphic hd.1 hd.2)

/-- Whole lines are read as what was written, up to the bound, and the last one is skipped. -/
theorem replayLines_stringify {maxRecords : Option Nat} {endsWithNewline : Bool} {last : List Char}
    (hlast : Text.trimChars last = [] ∨ endsWithNewline = false) (events : List Value) :
    ∀ index recordCount, exceeds maxRecords recordCount = false →
      replayLines maxRecords strict endsWithNewline index recordCount (events.map stringify ++ [last]) =
        if exceeds maxRecords (recordCount + events.length) then .error (.tooManyRecords (maxRecords.getD 0))
        else .ok events := by
  induction events with
  | nil =>
    intro index recordCount hcount
    rw [length_nil, Nat.add_zero, hcount, map_nil, nil_append, replayLines]
    simp only [Bool.false_eq_true, if_false]
    by_cases htrim : Text.trimChars last = []
    · rw [if_pos htrim]
      rfl
    · rw [if_neg htrim, if_pos ⟨trivial, hlast.resolve_left htrim⟩]
  | cons v events ih =>
    intro index recordCount hcount
    have hnext : recordCount + (v :: events).length = recordCount + 1 + events.length := by
      rw [length_cons]
      omega
    have hnil : stringify v ≠ [] := stringify_ne_nil v
    have hrest : events.map stringify ++ [last] ≠ [] := by simp
    rw [map_cons, cons_append, replayLines]
    simp only [trim_stringify, hnil, hrest, false_and, if_false, hnext]
    cases hexceeds : exceeds maxRecords (recordCount + 1) with
    | true =>
      have hmore : exceeds maxRecords (recordCount + 1 + events.length) = true := by
        cases maxRecords with
        | none => cases hexceeds
        | some most =>
          rw [exceeds, decide_eq_true_iff] at hexceeds ⊢
          omega
      rw [if_pos rfl, if_pos hmore]
    | false =>
      rw [if_neg nofun, strict, parse_stringify]
      simp only [ih (index + 1) (recordCount + 1) hexceeds]
      split <;> rfl

theorem decode_payload (events : List Value) (tail : List UInt8) : decode (payload events ++ tail) =
      (events.map stringify).flatMap (fun text => text ++ ['\n']) ++ decode tail := by
  induction events with
  | nil => rfl
  | cons v events ih =>
    rw [payload_cons, line_eq, append_assoc, append_assoc, singleton_append,
      decode_newline, decode_encode, ih, map_cons, flatMap_cons]
    simp

theorem replaySync_holds (hholds : Holds file events) :
    replaySync options strict false file = bounded options file events := by
  cases file with
  | none =>
    have hnil : events = [] := hholds
    rw [hnil, bounded, replaySync]
    cases options.maxBytes <;> cases options.maxRecords <;> simp [exceeds]
  | some bytes =>
    obtain ⟨tail, htail, rfl⟩ := hholds
    have hnewline := htail.newline_not_mem_decode
    have htexts : ∀ text ∈ events.map stringify, '\n' ∉ text := by
      intro text htext
      obtain ⟨v, -, rfl⟩ := mem_map.1 htext
      exact newline_not_mem_stringify v
    have hsplit : Lines.split '\n' (decode (payload events ++ tail)) =
        events.map stringify ++ [decode tail] := by
      rw [decode_payload, Lines.split, Lines.feed_flatMap htexts, Lines.feed_of_not_mem hnewline]
      simp
    have hlast : Text.trimChars (decode tail) = [] ∨
        ((decode (payload events ++ tail)).getLast? == some '\n') = false := by
      obtain hnil | ⟨text, c, hc⟩ := (decode tail).eq_nil_or_concat
      · left
        rw [hnil]
        rfl
      · right
        rw [concat_eq_append] at hc
        rw [decode_payload, hc, ← append_assoc, getLast?_concat, beq_eq_false_iff_ne, Ne, Option.some.injEq]
        intro heq
        rw [hc, heq] at hnewline
        exact hnewline (by simp)
    have hstart : exceeds options.maxRecords 0 = false := by
      cases options.maxRecords <;> simp [exceeds]
    rw [replaySync, bounded, Option.getD_some]
    split
    · rfl
    · simp only [hsplit, replayLines_stringify hlast events 0 0 hstart, Nat.zero_add]

/-- Whatever calls fail, crash or are cut short, a replay returns all of the acknowledged appends and
beginnings of the others, in order, or refuses to read beyond the bounds of the log. -/
theorem replay_of_run (options : EventLogOptions) (calls : List Call) :
    ∃ kept, List.Forall₂ Kept (run options calls).trace kept ∧
      replaySync options strict false (run options calls).file =
        bounded options (run options calls).file kept.flatten := by
  obtain ⟨kept, hkept, hholds⟩ := run_holds options calls
  exact ⟨kept, hkept, replaySync_holds hholds⟩

/-- Two appends that were acknowledged, in a log of at most one record. -/
theorem replay_refuses :
    (run ⟨none, some 1⟩ [⟨[some .null], [], .none⟩, ⟨[some .null], [], .none⟩]).trace.map Entry.acknowledged =
        [true, true] ∧ (replaySync ⟨none, some 1⟩ strict false
        (run ⟨none, some 1⟩ [⟨[some .null], [], .none⟩, ⟨[some .null], [], .none⟩]).file).isOk = false := by
  decide

end EventLog
end Core
end RePrime
