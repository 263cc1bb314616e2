import RePrime.Lib.Lines

/-!
# RePrime.Utils.FileLines

`readLinesAsBuffers`: the lines of a file that arrives in chunks. A line that spans chunks is kept in
parts until its newline is there.

* `cut_some`, `cut_none`: what the search for a newline finds.
* `chunkLines_feed`: the loop over one chunk is `Lines.feed`.
* `readLinesAsBuffers_eq`: the lines do not depend on the chunks.
-/

namespace RePrime
namespace FileLines

open List

abbrev Bytes := List UInt8

/-- `buffer.indexOf(0x0a, start)` -/
def indexOfNewline (buffer : Bytes) (start : Nat) : Option Nat :=
  ((buffer.drop start).findIdx? fun b => b == 10).map (start + ·)

/-- `buffer.subarray(start, stop)` -/
def subarray (buffer : Bytes) (start stop : Nat) : Bytes := (buffer.take stop).drop start

/-- `Buffer.concat(parts, length)`: cut to the length, or filled up with zeros. -/
def concat (parts : List Bytes) (length : Nat) : Bytes :=
  parts.flatten.take length ++ List.replicate (length - parts.flatten.length) 0

variable {buffer : Bytes} {start : Nat}

theorem cut_none (h : indexOfNewline buffer start = none) : (10 : UInt8) ∉ buffer.drop start := by
  intro hmem
  rw [indexOfNewline, Option.map_eq_none_iff, findIdx?_eq_none_iff] at h
  simpa using h 10 hmem

theorem cut_some {stop : Nat} (h : indexOfNewline buffer start = some stop) :
    start ≤ stop ∧ stop < buffer.length ∧ (10 : UInt8) ∉ subarray buffer start stop ∧
      buffer.drop start = subarray buffer start stop ++ 10 :: buffer.drop (stop + 1) := by
  obtain ⟨i, hi, rfl⟩ := Option.map_eq_some_iff.1 h
  obtain ⟨hlt, hb, hbefore⟩ := findIdx?_eq_some_iff_getElem.1 hi
  have hpart : subarray buffer start (start + i) = (buffer.drop start).take i := by
    rw [subarray, drop_take, Nat.add_sub_cancel_left]
  have hlen : start + i < buffer.length := by
    rw [length_drop] at hlt
    omega
  refine ⟨Nat.le_add_right start i, hlen, ?_, ?_⟩
  · rw [hpart]
    intro hmem
    obtain ⟨j, hj, hget⟩ := mem_iff_getElem.1 hmem
    rw [length_take] at hj
    rw [getElem_take] at hget
    have hne := hbefore j (by omega)
    rw [hget] at hne
    simp at hne
  · have hat : (buffer.drop start)[i] = 10 := by simpa using hb
    rw [hpart, Nat.add_assoc, ← drop_drop]
    conv_lhs => rw [← take_append_drop i (buffer.drop start)]
    rw [drop_eq_getElem_cons hlt, hat]

/-! ### The loop over a chunk -/

structure Pending where
  parts : List Bytes
  bytes : Nat

def Pending.none : Pending := { parts := [], bytes := 0 }

def Pending.push (p : Pending) (part : Bytes) : Pending :=
  { parts := p.parts ++ [part], bytes := p.bytes + part.length }

/-- What `line` is when its newline is found, and what is pending then. -/
def Pending.finish (p : Pending) (part : Bytes) : Bytes × Pending :=
  if 0 < p.parts.length then (concat (p.push part).parts (p.push part).bytes, .none) else (part, p)

/-- The lines that a chunk yields from `start` on, and what it leaves pending. -/
def chunkLines (buffer : Bytes) (start : Nat) (p : Pending) : List Bytes × Pending :=
  if start < buffer.length then
    match h : indexOfNewline buffer start with
    | none => ([], p.push (buffer.drop start))
    | some stop =>
      let finished := p.finish (subarray buffer start stop)
      let later := chunkLines buffer (stop + 1) finished.2
      (finished.1 :: later.1, later.2)
  else ([], p)
termination_by buffer.length - start
decreasing_by
  have := cut_some h
  omega

def chunksLines : List Bytes → Pending → List Bytes
  | [], p => if 0 < p.parts.length then [concat p.parts p.bytes] else []
  | chunk :: chunks, p => (chunkLines chunk 0 p).1 ++ chunksLines chunks (chunkLines chunk 0 p).2

/-- The lines of a file whose stream delivers `chunks`. -/
def readLinesAsBuffers (chunks : List Bytes) : List Bytes := chunksLines chunks .none

/-! ### Against the lines of the whole -/

/-- The counted bytes are there, and no part is empty. -/
structure Pending.Sound (p : Pending) : Prop where
  bytes : p.bytes = p.parts.flatten.length
  parts : ∀ part ∈ p.parts, part ≠ []

theorem Pending.Sound.none : Pending.none.Sound := ⟨rfl, by simp [Pending.none]⟩

variable {p : Pending}

theorem Pending.Sound.push (h : p.Sound) {part : Bytes} (hne : part ≠ []) : (p.push part).Sound := by
  constructor
  · simp [Pending.push, h.bytes]
  · intro q hq
    obtain hq | hq := mem_append.1 hq
    · exact h.parts q hq
    · rw [mem_singleton.1 hq]
      exact hne

theorem concat_length (parts : List Bytes) : concat parts parts.flatten.length = parts.flatten := by
  rw [concat, take_length, Nat.sub_self, replicate_zero, append_nil]

theorem Pending.flatten_push (p : Pending) (part : Bytes) : (p.push part).parts.flatten = p.parts.flatten ++ part := by
  simp [Pending.push]

theorem Pending.flatten_eq_nil (h : p.Sound) : p.parts.flatten = [] ↔ p.parts.length = 0 := by
  constructor
  · intro hnil
    cases hparts : p.parts with
    | nil => rfl
    | cons part parts =>
      rw [hparts, flatten_cons, append_eq_nil_iff] at hnil
      exact absurd hnil.1 (h.parts part (by simp [hparts]))
  · intro hzero
    rw [length_eq_zero_iff.1 hzero, flatten_nil]

theorem Pending.finish_spec (h : p.Sound) (part : Bytes) :
    (p.finish part).1 = p.parts.flatten ++ part ∧ (p.finish part).2.parts.flatten = [] ∧ (p.finish part).2.Sound := by
  unfold Pending.finish
  split
  · have hbytes : (p.push part).bytes = (p.push part).parts.flatten.length := by
      simp [Pending.push, h.bytes]
    refine ⟨?_, rfl, .none⟩
    rw [hbytes, concat_length, p.flatten_push]
  · rename_i hzero
    have hnil := (Pending.flatten_eq_nil h).2 (by omega)
    exact ⟨by rw [hnil, nil_append], hnil, h⟩

theorem chunkLines_feed (h : p.Sound) :
    (chunkLines buffer start p).1 = (Lines.feed 10 p.parts.flatten (buffer.drop start)).1 ∧
      (chunkLines buffer start p).2.parts.flatten = (Lines.feed 10 p.parts.flatten (buffer.drop start)).2 ∧
        (chunkLines buffer start p).2.Sound := by
  induction start, p using chunkLines.induct buffer with
  | case1 start p hlt hnone =>
    have hne : buffer.drop start ≠ [] := by simpa using hlt
    unfold chunkLines
    rw [if_pos hlt]
    split
    · rw [Lines.feed_of_not_mem (cut_none hnone)]
      exact ⟨rfl, p.flatten_push _, h.push hne⟩
    · rename_i hsome
      rw [hnone] at hsome
      cases hsome
  | case2 start p hlt stop hsome finished ih =>
    obtain ⟨hline, hnil, hsound⟩ := Pending.finish_spec h (subarray buffer start stop)
    obtain ⟨-, -, hpart, hrest⟩ := cut_some hsome
    obtain ⟨hlines, hpending, hlater⟩ := ih hsound
    unfold chunkLines
    rw [if_pos hlt]
    split
    · rename_i hnone
      rw [hnone] at hsome
      cases hsome
    · rename_i stop' hsome'
      rw [hsome] at hsome'
      cases hsome'
      rw [hrest, Lines.feed_part hpart]
      rw [hnil] at hlines hpending
      refine ⟨?_, hpending, hlater⟩
      show finished.1 :: (chunkLines buffer (stop + 1) finished.2).1 = _
      rw [hlines]
      exact congrArg (· :: _) hline
  | case3 start p hge =>
    have hnil : buffer.drop start = [] := by
      rw [drop_eq_nil_iff]
      omega
    unfold chunkLines
    rw [if_neg hge, hnil]
    exact ⟨rfl, rfl, h⟩

theorem chunksLines_feed (chunks : List Bytes) : ∀ {p : Pending}, p.Sound →
    chunksLines chunks p = (Lines.feed 10 p.parts.flatten chunks.flatten).1 ++
      if (Lines.feed 10 p.parts.flatten chunks.flatten).2 = [] then []
      else [(Lines.feed 10 p.parts.flatten chunks.flatten).2] := by
  induction chunks with
  | nil =>
    intro p h
    rw [chunksLines, flatten_nil, Lines.feed, nil_append]
    by_cases hnil : p.parts.flatten = []
    · have hzero := (Pending.flatten_eq_nil h).1 hnil
      rw [if_pos hnil, if_neg (by omega)]
    · have hpos : 0 < p.parts.length :=
        Nat.pos_of_ne_zero fun hzero => hnil ((Pending.flatten_eq_nil h).2 hzero)
      rw [if_neg hnil, if_pos hpos, h.bytes, concat_length]
  | cons chunk chunks ih =>
    intro p h
    obtain ⟨hlines, hpending, hsound⟩ := @chunkLines_feed chunk 0 p h
    rw [drop_zero] at hlines hpending
    rw [chunksLines, ih hsound, hlines, hpending, flatten_cons, Lines.feed_append]
    simp only [append_assoc]

/-- **However a file is cut into chunks, its lines are those of the whole.** -/
theorem readLinesAsBuffers_eq (chunks : List Bytes) : readLinesAsBuffers chunks = Lines.lines 10 chunks.flatten := by
  rw [readLinesAsBuffers, chunksLines_feed chunks .none]
  rfl

end FileLines
end RePrime
