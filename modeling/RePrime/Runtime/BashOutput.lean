import RePrime.Lib.Delimiter
import RePrime.Lib.Utf8

/-!
# RePrime.Runtime.BashOutput

The output of a shell command: what the pump reads goes to a bounded buffer, and the completion
marker, which the wrapper script prints when the command is through, is taken out on the way.

* `Holds`: a buffer that got some bytes keeps the beginning and the end of them and counts the rest.
* `Read`: what a handle has made of the bytes it was given, before and after the marker.
* `output_framed`: however the bytes are cut into chunks.
-/

namespace RePrime
namespace Runtime

open Delimiter List

abbrev Bytes := List UInt8

/-- `_HEAD_CAP`. -/
def headCap : Nat := 512 * 1024

/-- `_TAIL_CAP`. -/
def tailCap : Nat := 3 * 512 * 1024

/-- `_COMPLETION_PREFIX`. -/
def completionPrefix : Bytes := Utf8.encode "\x1eprime-agent-complete:".toList

/-- `_COMPLETION_SUFFIX`. -/
def completionSuffix : Bytes := Utf8.encode "\x1f".toList

/-- `bytes.decode("utf-8", errors="replace")`. -/
def decodeReplace (bytes : Bytes) : List Char := Utf8.decode bytes

def droppedNotice (dropped : Nat) : List Char := s!"\n... [{dropped} bytes dropped] ...\n".toList

/-- `_BoundedBuffer`; the chunks of the tail stand oldest first. -/
structure BoundedBuffer where
  head : Bytes
  tail : List Bytes
  tailSize : Nat
  dropped : Nat

namespace BoundedBuffer

def new : BoundedBuffer := { head := [], tail := [], tailSize := 0, dropped := 0 }

/-- The loop at the end of `write`. -/
def trim (head : Bytes) : List Bytes → Nat → Nat → BoundedBuffer
  | [], tailSize, dropped => { head, tail := [], tailSize, dropped }
  | oldest :: tail, tailSize, dropped =>
    if tailCap < tailSize then
      let excess := tailSize - tailCap
      if oldest.length ≤ excess then
        trim head tail (tailSize - oldest.length) (dropped + oldest.length)
      else
        -- now the size is the cap, and the loop ends
        { head
          tail := oldest.drop excess :: tail
          tailSize := tailSize - excess
          dropped := dropped + excess }
    else { head, tail := oldest :: tail, tailSize, dropped }

def write (b : BoundedBuffer) (chunk : Bytes) : BoundedBuffer :=
  let take := headCap - b.head.length
  let head := if b.head.length < headCap then b.head ++ chunk.take take else b.head
  let rest := if b.head.length < headCap then chunk.drop take else chunk
  if rest = [] then { b with head }
  else trim head (b.tail ++ [rest]) (b.tailSize + rest.length) b.dropped

def size (b : BoundedBuffer) : Nat := b.head.length + b.tailSize

def text (b : BoundedBuffer) : List Char :=
  if b.dropped = 0 then decodeReplace (b.head ++ b.tail.flatten)
  else decodeReplace b.head ++ droppedNotice b.dropped ++ decodeReplace b.tail.flatten

end BoundedBuffer

/-- What `BashHandle` keeps of its output. -/
structure BashHandle where
  buffer : BoundedBuffer
  completionPending : Bytes
  completionOutput : Option (List Char)
  completionTerminal : Bool

open BashHandle

/-- `_completion_marker`. -/
def completionMarker (token : Bytes) : Bytes := completionPrefix ++ token ++ completionSuffix

namespace BashHandle

def new : BashHandle :=
  { buffer := .new
    completionPending := []
    completionOutput := none
    completionTerminal := false }

/-- `_consume_output`. -/
def consumeOutput (marker : Bytes) (h : BashHandle) (chunk : Bytes) : BashHandle :=
  if h.completionTerminal then { h with buffer := h.buffer.write chunk }
  else
    let data := h.completionPending ++ chunk
    match find? marker data with
    | some markerAt =>
      let before := h.buffer.write (data.take markerAt)
      { buffer := before.write (data.drop (markerAt + marker.length))
        completionPending := []
        completionOutput := some before.text
        completionTerminal := true }
    | none =>
      let retained := held marker data (min data.length (marker.length - 1))
      { h with
        buffer := h.buffer.write (data.take (data.length - retained))
        completionPending := data.drop (data.length - retained) }

/-- `_abandon_completion`. -/
def abandonCompletion (h : BashHandle) : BashHandle :=
  if h.completionTerminal then h
  else
    { h with
      buffer := h.buffer.write h.completionPending
      completionPending := []
      completionTerminal := true }

/-- The pump: every chunk it reads, and the end of the stream. -/
def pump (token : Bytes) (chunks : List Bytes) : BashHandle :=
  (chunks.foldl (consumeOutput (completionMarker token)) new).abandonCompletion

end BashHandle

/-! ## The bounded buffer -/

theorem rtake_rtake_append {α : Type} (bs cs : List α) (n : Nat) :
    (bs.rtake n ++ cs).rtake n = (bs ++ cs).rtake n := by
  simp only [List.rtake, length_append, length_drop]
  by_cases hn : bs.length ≤ n
  · have h0 : bs.length - n = 0 := by omega
    simp [h0]
  · rw [← drop_append_of_le_length (by omega), drop_drop]
    congr 1
    omega

/-- The bytes a buffer was given are `stream`. -/
structure Holds (b : BoundedBuffer) (stream : Bytes) : Prop where
  head : b.head = stream.take headCap
  tail : b.tail.flatten = (stream.drop headCap).rtake tailCap
  tailSize : b.tailSize = b.tail.flatten.length
  dropped : b.dropped = stream.length - headCap - tailCap

theorem Holds.new : Holds .new [] := by
  constructor <;> simp [BoundedBuffer.new, List.rtake]

theorem trim_spec (head : Bytes) : ∀ (tail : List Bytes) (tailSize dropped : Nat), tailSize = tail.flatten.length →
    let b := BoundedBuffer.trim head tail tailSize dropped
    b.head = head ∧ b.tail.flatten = tail.flatten.rtake tailCap ∧
      b.tailSize = b.tail.flatten.length ∧ b.dropped = dropped + (tailSize - tailCap) := by
  intro tail
  induction tail with
  | nil =>
    intro tailSize dropped hsize
    simp only [flatten_nil, length_nil] at hsize
    simp [BoundedBuffer.trim, List.rtake, hsize]
  | cons oldest tail ih =>
    intro tailSize dropped hsize
    simp only [flatten_cons, length_append] at hsize
    simp only [BoundedBuffer.trim]
    split
    · split
      · obtain ⟨hhead, htail, hsize', hdropped⟩ :=
          ih (tailSize - oldest.length) (dropped + oldest.length) (by omega)
        refine ⟨hhead, ?_, hsize', by omega⟩
        have hgone : oldest.drop (oldest.length + tail.flatten.length - tailCap) = [] :=
          drop_eq_nil_of_le (by omega)
        have hcut : oldest.length + tail.flatten.length - tailCap - oldest.length =
            tail.flatten.length - tailCap := by omega
        rw [htail, flatten_cons, List.rtake, List.rtake, length_append, drop_append, hgone, nil_append, hcut]
      · refine ⟨rfl, ?_, ?_, rfl⟩
        · rw [flatten_cons, flatten_cons, List.rtake, length_append, drop_append_of_le_length (by omega), hsize]
        · simp only [flatten_cons, length_append, length_drop]
          omega
    · refine ⟨rfl, ?_, hsize.trans (by simp), by simp only; omega⟩
      have h0 : (oldest :: tail).flatten.length - tailCap = 0 := by
        simp only [flatten_cons, length_append]
        omega
      rw [List.rtake, h0, drop_zero]

variable {stream : Bytes}

theorem Holds.write {b : BoundedBuffer} (h : Holds b stream) (chunk : Bytes) :
    Holds (b.write chunk) (stream ++ chunk) := by
  have hlen : b.head.length = min headCap stream.length := by rw [h.head, length_take]
  -- the head takes what it has room for, the rest goes to the tail
  have hhead : (if b.head.length < headCap then b.head ++ chunk.take (headCap - b.head.length)
      else b.head) = (stream ++ chunk).take headCap := by
    rw [take_append]
    split
    · rw [hlen, h.head]
      congr 2
      omega
    · have h0 : headCap - stream.length = 0 := by omega
      rw [h0, take_zero, append_nil, h.head]
  have hrest : (stream ++ chunk).drop headCap = stream.drop headCap ++
      (if b.head.length < headCap then chunk.drop (headCap - b.head.length) else chunk) := by
    rw [drop_append]
    split
    · congr 2
      omega
    · have h0 : headCap - stream.length = 0 := by omega
      rw [h0, drop_zero]
  simp only [BoundedBuffer.write, hhead]
  generalize (if b.head.length < headCap then chunk.drop (headCap - b.head.length) else chunk) = rest
    at hrest ⊢
  have hrestLen := congrArg List.length hrest
  simp only [length_drop, length_append] at hrestLen
  have htailLen := congrArg List.length h.tail
  simp only [List.rtake, length_drop] at htailLen
  split
  · subst rest
    rw [append_nil] at hrest
    refine ⟨rfl, by rw [hrest]; exact h.tail, h.tailSize, ?_⟩
    simp only [length_nil] at hrestLen
    simp only [h.dropped, length_append]
    omega
  · have htailSize : b.tailSize + rest.length = (b.tail ++ [rest]).flatten.length := by
      simp [h.tailSize]
    obtain ⟨hhead', htail', hsize', hdropped'⟩ :=
      trim_spec ((stream ++ chunk).take headCap) (b.tail ++ [rest]) (b.tailSize + rest.length)
        b.dropped htailSize
    refine ⟨hhead', ?_, hsize', ?_⟩
    · rw [htail', hrest, ← rtake_rtake_append (stream.drop headCap), ← h.tail]
      simp
    · rw [hdropped', h.dropped, h.tailSize, htailLen, length_append]
      omega

/-- The bounded text of `stream`: all of it, or its beginning, how much is left out, and the end of
the rest. -/
def boundedText (stream : Bytes) : List Char :=
  if stream.length ≤ headCap + tailCap then decodeReplace stream
  else
    decodeReplace (stream.take headCap) ++ droppedNotice (stream.length - headCap - tailCap) ++
      decodeReplace ((stream.drop headCap).rtake tailCap)

theorem Holds.text {b : BoundedBuffer} (h : Holds b stream) : b.text = boundedText stream := by
  simp only [BoundedBuffer.text, boundedText, h.dropped, h.head, h.tail]
  by_cases hshort : stream.length ≤ headCap + tailCap
  · have h0 : stream.length - headCap - tailCap = 0 := by omega
    have hall : (stream.drop headCap).rtake tailCap = stream.drop headCap := by
      rw [List.rtake, length_drop, h0, drop_zero]
    rw [if_pos h0, if_pos hshort, hall, take_append_drop]
  · have h0 : stream.length - headCap - tailCap ≠ 0 := by omega
    rw [if_neg h0, if_neg hshort]

/-! ## The completion marker -/

theorem completionMarker_ne_nil (token : Bytes) : completionMarker token ≠ [] := by
  simp [completionMarker, completionPrefix, Utf8.encode, Utf8.encodeChar]

/-- What a handle has made of `stream`: it looks for the marker, or it has found it. -/
inductive Read (marker stream : Bytes) (h : BashHandle) : Prop
  | seeking (terminal : h.completionTerminal = false) (output : h.completionOutput = none)
      (written : Bytes) (split : stream = written ++ h.completionPending)
      (scanned : Scanned marker stream h.completionPending) (buffer : Holds h.buffer written)
  | through (i : Nat) (terminal : h.completionTerminal = true)
      (found : find? marker stream = some i)
      (output : h.completionOutput = some (boundedText (stream.take i)))
      (buffer : Holds h.buffer (stream.take i ++ stream.drop (i + marker.length)))

variable {marker : Bytes}

theorem Read.new (hm : marker ≠ []) : Read marker [] .new :=
  .seeking rfl rfl [] rfl (Scanned.nil hm) Holds.new

theorem Read.consumeOutput {h : BashHandle} (hr : Read marker stream h)
    (chunk : Bytes) : Read marker (stream ++ chunk) (h.consumeOutput marker chunk) := by
  cases hr with
  | through i terminal found output buffer =>
    obtain ⟨-, hlen, -⟩ := find?_eq_some found
    simp only [BashHandle.consumeOutput, terminal, if_true]
    refine .through i rfl (find?_append chunk found) ?_ ?_
    · rw [take_append_of_le_length (by omega)]
      exact output
    · rw [take_append_of_le_length (by omega), drop_append_of_le_length hlen, ← append_assoc]
      exact buffer.write chunk
  | seeking terminal output written split scanned buffer =>
    subst stream
    have hfind := scanned.find?_append chunk
    simp only [BashHandle.consumeOutput, terminal, Bool.false_eq_true, if_false]
    cases hat : find? marker (h.completionPending ++ chunk) with
    | some markerAt =>
      rw [hat, Option.map_some, Nat.add_comm] at hfind
      have hwritten := buffer.write ((h.completionPending ++ chunk).take markerAt)
      refine .through (written.length + markerAt) rfl hfind ?_ ?_
      · rw [append_assoc, take_length_add_append]
        exact congrArg some hwritten.text
      · rw [append_assoc, take_length_add_append, Nat.add_assoc, drop_length_add_append]
        exact hwritten.write _
    | none =>
      dsimp only
      refine .seeking rfl output (written ++ _) ?_ (scanned.next hat) (buffer.write _)
      simp only [append_assoc, take_append_drop]

theorem Read.foldl : ∀ {chunks : List Bytes} {stream : Bytes} {h : BashHandle}, Read marker stream h →
      Read marker (stream ++ chunks.flatten) (chunks.foldl (BashHandle.consumeOutput marker) h) := by
  intro chunks
  induction chunks with
  | nil => intro stream h hr; simpa using hr
  | cons chunk chunks ih =>
    intro stream h hr
    simpa using ih (hr.consumeOutput chunk)

theorem Read.abandonCompletion {h : BashHandle} (hr : Read marker stream h) : (∀ i, find? marker stream = some i →
      h.abandonCompletion.completionOutput = some (boundedText (stream.take i)) ∧
      Holds h.abandonCompletion.buffer (stream.take i ++ stream.drop (i + marker.length))) ∧
    (find? marker stream = none →
      h.abandonCompletion.completionOutput = none ∧ Holds h.abandonCompletion.buffer stream) := by
  cases hr with
  | through i terminal found output buffer =>
    simp only [BashHandle.abandonCompletion, terminal, if_true]
    refine ⟨?_, fun hnone => by rw [found] at hnone; cases hnone⟩
    intro j hj
    rw [found] at hj
    cases hj
    exact ⟨output, buffer⟩
  | seeking terminal output written split scanned buffer =>
    simp only [BashHandle.abandonCompletion, terminal, Bool.false_eq_true, if_false]
    constructor
    · intro i hi
      rw [scanned.absent] at hi
      cases hi
    · intro _
      refine ⟨output, ?_⟩
      rw [split]
      exact buffer.write _

/-- Wherever the bytes are cut into chunks, the completion output is the bounded text of what stands
before the first marker, and the buffer keeps the stream without that marker. -/
theorem output_framed (token : Bytes) (chunks : List Bytes) :
    (∀ before after, First (completionMarker token) chunks.flatten before after →
      (pump token chunks).completionOutput = some (boundedText before) ∧
      Holds (pump token chunks).buffer (before ++ after) ∧
      (pump token chunks).buffer.text = boundedText (before ++ after)) ∧
    (¬ completionMarker token <:+: chunks.flatten → (pump token chunks).completionOutput = none ∧
      Holds (pump token chunks).buffer chunks.flatten ∧
      (pump token chunks).buffer.text = boundedText chunks.flatten) := by
  have hread : Read (completionMarker token) chunks.flatten
      (chunks.foldl (BashHandle.consumeOutput (completionMarker token)) .new) := by
    simpa using (Read.new (completionMarker_ne_nil token)).foldl
  obtain ⟨hfound, habsent⟩ := hread.abandonCompletion
  constructor
  · intro before after hfirst
    have hbefore : chunks.flatten.take before.length = before := by simp [hfirst.split]
    have hafter : chunks.flatten.drop (before.length + (completionMarker token).length) = after := by
      rw [hfirst.split, ← length_append, drop_left]
    have hends := hfound before.length hfirst.find?
    rw [hbefore, hafter] at hends
    exact ⟨hends.1, hends.2, hends.2.text⟩
  · intro hnot
    have hends := habsent (find?_eq_none_of_absent hnot)
    exact ⟨hends.1, hends.2, hends.2.text⟩

/-- A look-alike before the marker, and the marker cut after its first byte. -/
theorem output_framed_lookalike : let chunks := [[65, 30, 112], [66, 30], (completionMarker [97]).drop 1 ++ [67]]
    (pump [97] chunks).completionOutput = some (boundedText [65, 30, 112, 66]) ∧
    (pump [97] chunks).buffer.text = boundedText [65, 30, 112, 66, 67] := by
  intro chunks
  have hfind : find? (completionMarker [97]) chunks.flatten = some 4 := by decide
  have hframed := (output_framed [97] chunks).1 _ _ (first_of_find? hfind)
  exact ⟨hframed.1, hframed.2.2⟩

end Runtime
end RePrime
