import RePrime.Session.Store
import RePrime.Utils.FileLines

/-!
# RePrime.Session.Readers

The three readers of a session file: the loop over a buffer, the same loop with pauses, and the lines
of a stream.

* `parse` is `JSON.parse` of a line's text, `none` when it throws; what a text is parsed to is left
  open.
* `parseEntriesFromBuffer_lines`, `parseEntriesFromBufferAsync_eq`, `streamEntries_lines`: each
  reader gives the entries of the lines that are not empty.
* `readers_agree`: for every file, every cut into chunks and every threshold.
-/

namespace RePrime
namespace Session
namespace Readers

open List
open Lines
open FileLines (indexOfNewline subarray cut_some cut_none readLinesAsBuffers)

section

variable {Entry : Type} (parse : List Char → Option Entry)

/-! ## The loops -/

/-- An empty or malformed line is skipped. -/
def appendEntryFromBuffer (entries : List Entry) (buffer : Bytes) (start stop : Nat) : List Entry :=
  if stop ≤ start then entries
  else
    match parse (Utf8.decode (subarray buffer start stop)) with
    | some entry => entries ++ [entry]
    | none => entries

/-- Where the line that starts at `start` stops. -/
def lineEnd (buffer : Bytes) (start : Nat) : Nat := (indexOfNewline buffer start).getD buffer.length

variable {buffer : Bytes} {start : Nat}

theorem lt_lineEnd (h : start < buffer.length) : start ≤ lineEnd buffer start := by
  unfold lineEnd
  cases hend : indexOfNewline buffer start with
  | none => exact h.le
  | some stop => exact (cut_some hend).1

def parseFrom (buffer : Bytes) (start : Nat) (entries : List Entry) : List Entry :=
  if start < buffer.length then
    parseFrom buffer (lineEnd buffer start + 1)
      (appendEntryFromBuffer parse entries buffer start (lineEnd buffer start))
  else entries
termination_by buffer.length - start
decreasing_by
  rename_i hlt
  have := lt_lineEnd hlt
  omega

def parseEntriesFromBuffer (buffer : Bytes) : List Entry := parseFrom parse buffer 0 []

def sessionAsyncParseYieldBytes : Nat := 4 * 1024 * 1024

/-- The variables of an asynchronous reader; `yields` counts its pauses. -/
structure AsyncScan (Entry : Type) where
  entries : List Entry
  bytesSinceYield : Nat
  yields : Nat

def AsyncScan.init : AsyncScan Entry := { entries := [], bytesSinceYield := 0, yields := 0 }

/-- After the entry of a line with its newline: a pause when enough bytes are read. -/
def AsyncScan.add (s : AsyncScan Entry) (entries : List Entry) (bytes : Nat) : AsyncScan Entry :=
  if sessionAsyncParseYieldBytes ≤ s.bytesSinceYield + bytes then
    { entries, bytesSinceYield := 0, yields := s.yields + 1 }
  else { entries, bytesSinceYield := s.bytesSinceYield + bytes, yields := s.yields }

def parseFromAsync (buffer : Bytes) (start : Nat) (s : AsyncScan Entry) : AsyncScan Entry :=
  if start < buffer.length then
    parseFromAsync buffer (lineEnd buffer start + 1)
      (s.add (appendEntryFromBuffer parse s.entries buffer start (lineEnd buffer start))
        (lineEnd buffer start - start + 1))
  else s
termination_by buffer.length - start
decreasing_by
  rename_i hlt
  have := lt_lineEnd hlt
  omega

def parseEntriesFromBufferAsync (buffer : Bytes) : List Entry :=
  (parseFromAsync parse buffer 0 .init).entries

def AsyncScan.line (s : AsyncScan Entry) (line : Bytes) : AsyncScan Entry :=
  s.add (appendEntryFromBuffer parse s.entries line 0 line.length) (line.length + 1)

/-- The loop over the lines of a stream. -/
def streamEntries (chunks : List Bytes) : List Entry :=
  ((readLinesAsBuffers chunks).foldl (AsyncScan.line parse) .init).entries

/-! ## The loaders -/

variable (finalize : List Entry → List Entry)

/-- `file` is the content, `none` when there is no file. -/
def loadEntriesFromFile (file : Option Bytes) : List Entry :=
  match file with
  | none => []
  | some buffer => finalize (parseEntriesFromBuffer parse buffer)

/-- `file` is what its stream delivers; together the chunks are the content. -/
def loadEntriesFromFileAsync (file : Option (List Bytes)) (streamThresholdBytes : Nat) : List Entry :=
  match file with
  | none => []
  | some chunks =>
    if chunks.flatten.length < streamThresholdBytes then
      finalize (parseEntriesFromBufferAsync parse chunks.flatten)
    else finalize (streamEntries parse chunks)

/-! ## Each against the lines -/

/-- The entry of a line, if it holds one. -/
def entryOf (line : Bytes) : Option Entry := if line = [] then none else parse (Utf8.decode line)

variable {parse finalize}

theorem append_entryOf {stop : Nat} (h : start ≤ stop) (hstop : stop ≤ buffer.length) (entries : List Entry) :
    appendEntryFromBuffer parse entries buffer start stop =
      entries ++ (entryOf parse (subarray buffer start stop)).toList := by
  have hlen : (subarray buffer start stop).length = stop - start := by
    rw [subarray, length_drop, length_take, Nat.min_eq_left hstop]
  unfold appendEntryFromBuffer entryOf
  by_cases hle : stop ≤ start
  · have hnil : subarray buffer start stop = [] := length_eq_zero_iff.1 (by omega)
    rw [if_pos hle, if_pos hnil, Option.toList_none, append_nil]
  · have hne : subarray buffer start stop ≠ [] := fun hnil => by
      rw [hnil, length_nil] at hlen
      omega
    rw [if_neg hle, if_neg hne]
    cases parse (Utf8.decode (subarray buffer start stop)) <;> simp

/-- One round of either loop over a buffer: the line at `start`, and the lines behind it. -/
theorem lines_drop (h : start < buffer.length) : (lines 10 (buffer.drop start)).filterMap (entryOf parse) =
      (entryOf parse (subarray buffer start (lineEnd buffer start))).toList ++
        (lines 10 (buffer.drop (lineEnd buffer start + 1))).filterMap (entryOf parse) := by
  unfold lineEnd
  cases hend : indexOfNewline buffer start with
  | none =>
    have hne : buffer.drop start ≠ [] := by simpa using h
    have hrest : buffer.drop (buffer.length + 1) = [] := by simp
    rw [Option.getD_none, lines, feed_of_not_mem (cut_none hend), hrest, subarray, take_length]
    simp only [nil_append, hne, if_false, lines, feed, if_true, filterMap_nil,
      append_nil, filterMap_cons]
    cases entryOf parse (buffer.drop start) <;> rfl
  | some stop =>
    obtain ⟨-, -, hpart, hcut⟩ := cut_some hend
    have hlines : lines 10 (buffer.drop start) =
        subarray buffer start stop :: lines 10 (buffer.drop (stop + 1)) := by
      rw [hcut, lines, feed_part hpart, nil_append]
      rfl
    rw [Option.getD_some, hlines, filterMap_cons]
    cases entryOf parse (subarray buffer start stop) <;> rfl

theorem lineEnd_le : lineEnd buffer start ≤ buffer.length := by
  unfold lineEnd
  cases hend : indexOfNewline buffer start with
  | none => exact Nat.le_refl _
  | some stop => exact (cut_some hend).2.1.le

theorem parseFrom_lines (buffer : Bytes) (start : Nat) (entries : List Entry) :
    parseFrom parse buffer start entries =
      entries ++ (lines 10 (buffer.drop start)).filterMap (entryOf parse) := by
  induction start, entries using parseFrom.induct parse buffer with
  | case1 start entries hlt ih =>
    rw [parseFrom, if_pos hlt, ih, append_entryOf (lt_lineEnd hlt) lineEnd_le, lines_drop hlt, append_assoc]
  | case2 start entries hge =>
    have hnil : buffer.drop start = [] := by
      rw [drop_eq_nil_iff]
      omega
    rw [parseFrom, if_neg hge, hnil]
    simp [lines, feed]

theorem parseEntriesFromBuffer_lines (buffer : Bytes) :
    parseEntriesFromBuffer parse buffer = (lines 10 buffer).filterMap (entryOf parse) := by
  rw [parseEntriesFromBuffer, parseFrom_lines, nil_append, drop_zero]

theorem AsyncScan.entries_add (s : AsyncScan Entry) (entries : List Entry) (bytes : Nat) :
    (s.add entries bytes).entries = entries := by
  unfold AsyncScan.add
  split <;> rfl

theorem parseFromAsync_entries (buffer : Bytes) (start : Nat) (s : AsyncScan Entry) :
    (parseFromAsync parse buffer start s).entries = parseFrom parse buffer start s.entries := by
  induction start, s using parseFromAsync.induct parse buffer with
  | case1 start s hlt ih =>
    rw [parseFromAsync, if_pos hlt, ih, AsyncScan.entries_add]
    conv_rhs => rw [parseFrom, if_pos hlt]
  | case2 start s hge => rw [parseFromAsync, if_neg hge, parseFrom, if_neg hge]

theorem parseEntriesFromBufferAsync_eq (buffer : Bytes) :
    parseEntriesFromBufferAsync parse buffer = parseEntriesFromBuffer parse buffer :=
  parseFromAsync_entries buffer 0 .init

theorem foldl_lines (lines : List Bytes) : ∀ s : AsyncScan Entry,
    (lines.foldl (AsyncScan.line parse) s).entries = s.entries ++ lines.filterMap (entryOf parse) := by
  induction lines with
  | nil => intro s; rw [foldl_nil, filterMap_nil, append_nil]
  | cons line lines ih =>
    intro s
    have hline : subarray line 0 line.length = line := by rw [subarray, take_length, drop_zero]
    rw [foldl_cons, ih, AsyncScan.line, AsyncScan.entries_add, append_entryOf (Nat.zero_le _) (Nat.le_refl _), hline,
      append_assoc, filterMap_cons]
    cases entryOf parse line <;> rfl

theorem streamEntries_lines (chunks : List Bytes) :
    streamEntries parse chunks = (lines 10 chunks.flatten).filterMap (entryOf parse) := by
  rw [streamEntries, foldl_lines, FileLines.readLinesAsBuffers_eq]
  exact nil_append _

/-- **The three readers give the same entries**, and so do the loaders. -/
theorem readers_agree (parse : List Char → Option Entry) (finalize : List Entry → List Entry) (chunks : List Bytes) :
    parseEntriesFromBufferAsync parse chunks.flatten = parseEntriesFromBuffer parse chunks.flatten ∧
      streamEntries parse chunks = parseEntriesFromBuffer parse chunks.flatten ∧ ∀ streamThresholdBytes,
          loadEntriesFromFileAsync parse finalize (some chunks) streamThresholdBytes =
            loadEntriesFromFile parse finalize (some chunks.flatten) := by
  have hasync := @parseEntriesFromBufferAsync_eq _ parse chunks.flatten
  have hstream : streamEntries parse chunks = parseEntriesFromBuffer parse chunks.flatten := by
    rw [streamEntries_lines, parseEntriesFromBuffer_lines]
  refine ⟨hasync, hstream, fun streamThresholdBytes => ?_⟩
  unfold loadEntriesFromFileAsync loadEntriesFromFile
  dsimp only
  split
  · rw [hasync]
  · rw [hstream]

end

end Readers
end Session
end RePrime
