import RePrime.Tools.Truncate

/-!
# RePrime.Tools.OutputAccumulator

Output that arrives in chunks, of which only the end is kept, against the end of all of it.

* `Holds`: what is kept of a text.
* `snapshot_eq_iff`: a snapshot is the truncation of the whole text exactly when enough is kept.
-/

namespace RePrime
namespace Tools

open Truncate List
open TruncationResult
open Utf8 (TextDecoder)

structure OutputAccumulatorOptions where
  maxLines : Option Nat
  maxBytes : Option Nat

structure OutputSnapshot where
  content : List Char
  truncation : TruncationResult

structure OutputAccumulator where
  maxLines : Nat
  maxBytes : Nat
  maxRollingBytes : Nat
  decoder : TextDecoder
  tailText : List Char
  tailBytes : Nat
  tailStartsAtLineBoundary : Bool
  totalDecodedBytes : Nat
  totalLines : Nat
  currentLineBytes : Nat
  finished : Bool

/-- `text.slice(text.indexOf("\n") + 1)`, when there is a newline. -/
def afterNewline : List Char → Option (List Char)
  | [] => none
  | c :: text => if c = '\n' then some text else afterNewline text

namespace OutputAccumulator

def new (options : OutputAccumulatorOptions) : OutputAccumulator :=
  { maxLines := options.maxLines.getD defaultMaxLines
    maxBytes := options.maxBytes.getD defaultMaxBytes
    maxRollingBytes := max (options.maxBytes.getD defaultMaxBytes * 2) 1
    decoder := .new
    tailText := []
    tailBytes := 0
    tailStartsAtLineBoundary := true
    totalDecodedBytes := 0
    totalLines := 1
    currentLineBytes := 0
    finished := false }

def trimTail (acc : OutputAccumulator) : OutputAccumulator :=
  let buffer := Utf8.encode acc.tailText
  if buffer.length ≤ acc.maxRollingBytes then { acc with tailBytes := buffer.length }
  else
    let start := Utf8.charBoundary buffer (buffer.length - acc.maxRollingBytes)
    let tailText := Utf8.decode (buffer.drop start)
    { acc with
      tailStartsAtLineBoundary :=
        if start = 0 then acc.tailStartsAtLineBoundary else buffer[start - 1]? == some 10
      tailText
      tailBytes := byteLength tailText }

def appendDecodedText (acc : OutputAccumulator) (text : List Char) : OutputAccumulator :=
  if text.length = 0 then acc
  else
    let bytes := byteLength text
    let acc := { acc with
        totalDecodedBytes := acc.totalDecodedBytes + bytes
        tailText := acc.tailText ++ text
        tailBytes := acc.tailBytes + bytes }
    let acc := if acc.maxRollingBytes * 2 < acc.tailBytes then acc.trimTail else acc
    let newlines := text.count '\n'
    if newlines = 0 then { acc with currentLineBytes := acc.currentLineBytes + bytes }
    else
      { acc with
        totalLines := acc.totalLines + newlines
        currentLineBytes := byteLength (Lines.feed '\n' [] text).2 }

def append (acc : OutputAccumulator) (data : List UInt8) : Except String OutputAccumulator :=
  if acc.finished then .error "Cannot append to a finished output accumulator"
  else
    let decoded := acc.decoder.decodeStream data
    .ok ({ acc with decoder := decoded.2 }.appendDecodedText decoded.1)

def finish (acc : OutputAccumulator) : OutputAccumulator :=
  if acc.finished then acc
  else { acc with finished := true }.appendDecodedText acc.decoder.decodeEnd

def getSnapshotText (acc : OutputAccumulator) : List Char :=
  if acc.tailStartsAtLineBoundary then acc.tailText else (afterNewline acc.tailText).getD acc.tailText

def snapshot (acc : OutputAccumulator) : OutputSnapshot :=
  let tailTruncation :=
    truncateTail acc.getSnapshotText { maxLines := some acc.maxLines, maxBytes := some acc.maxBytes }
  let truncated := decide (acc.maxLines < acc.totalLines ∨ acc.maxBytes < acc.totalDecodedBytes)
  let truncatedBy :=
    if truncated then
      some (tailTruncation.truncatedBy.getD
        (if acc.maxBytes < acc.totalDecodedBytes then .bytes else .lines))
    else none
  let truncation := { tailTruncation with
      truncated, truncatedBy
      totalLines := acc.totalLines
      totalBytes := acc.totalDecodedBytes
      maxLines := acc.maxLines
      maxBytes := acc.maxBytes }
  { content := truncation.content, truncation }

/-! ## What is kept -/

/-- The end of a text is kept, and `before` is dropped. -/
structure Holds (maxLines maxBytes : Nat) (acc : OutputAccumulator) (text before : List Char) : Prop where
  lines : acc.maxLines = maxLines
  bytes : acc.maxBytes = maxBytes
  rolling : acc.maxRollingBytes = max (maxBytes * 2) 1
  split : text = before ++ acc.tailText
  tailBytes : acc.tailBytes = byteLength acc.tailText
  totalBytes : acc.totalDecodedBytes = byteLength text
  totalLines : acc.totalLines = (Lines.split '\n' text).length
  boundary : acc.tailStartsAtLineBoundary = true ↔ ∀ b c, before = b ++ [c] → c = '\n'
  kept : ∀ b c, before = b ++ [c] → acc.maxRollingBytes < byteLength [c] + byteLength acc.tailText

variable {maxLines maxBytes : Nat} {acc : OutputAccumulator} {text before : List Char}

theorem holds_new (options : OutputAccumulatorOptions) :
    Holds (options.maxLines.getD defaultMaxLines) (options.maxBytes.getD defaultMaxBytes) (new options) [] [] where
  lines := rfl
  bytes := rfl
  rolling := rfl
  split := rfl
  tailBytes := rfl
  totalBytes := rfl
  totalLines := rfl
  boundary := by simp [new]
  kept := by simp

theorem getLast?_encode (u : List Char) (c : Char) :
    ((Utf8.encode (u ++ [c])).getLast? == some 10) = decide (c = '\n') := by
  have hlast : (Utf8.encode (u ++ [c])).getLast? = (Utf8.encodeChar c).getLast? := by
    have hne : Utf8.encodeChar c ≠ [] := by
      have h := @Utf8.encode_ne_nil [c] (by simp)
      simpa [Utf8.encode] using h
    rw [Utf8.encode_append, Utf8.encode_cons, Utf8.encode, Utf8.encode, flatMap_nil, append_nil,
      getLast?_append_of_ne_nil _ hne]
  rw [hlast]
  by_cases hc : c = '\n'
  · rw [hc]
    rfl
  · rw [decide_eq_false hc, beq_eq_false_iff_ne]
    intro h
    have hmem := Utf8.ascii_mem_encodeChar (b := 10) (by decide) (mem_of_getLast? h)
    exact hc (Char.ext (UInt32.toNat_inj.1 hmem))

/-- A tail that is trimmed loses what is before a character, which was not needed to be long enough. -/
theorem trimTail_eq (h : acc.maxRollingBytes < byteLength acc.tailText) :
    ∃ u c v, acc.tailText = u ++ [c] ++ v ∧ acc.maxRollingBytes < byteLength [c] + byteLength v ∧ acc.trimTail =
        { acc with tailStartsAtLineBoundary := decide (c = '\n'), tailText := v, tailBytes := byteLength v } := by
  have hlong : ¬ (Utf8.encode acc.tailText).length ≤ acc.maxRollingBytes := Nat.not_le_of_lt h
  obtain ⟨u, v, htext, hbound, hle, hlast⟩ := Utf8.charBoundary_spec acc.tailText
    (Nat.sub_le (Utf8.encode acc.tailText).length acc.maxRollingBytes)
  obtain rfl | ⟨u', c, rfl⟩ := u.eq_nil_or_concat
  · have hnil : (Utf8.encode []).length = 0 := rfl
    omega
  · rw [concat_eq_append] at htext hbound hle hlast
    have hstart : (Utf8.encode (u' ++ [c])).length ≠ 0 := by omega
    have hfirst := hlast u' c rfl
    have hbytes : byteLength acc.tailText = byteLength u' + (byteLength [c] + byteLength v) := by
      rw [htext, byteLength_append, byteLength_append, Nat.add_assoc]
    refine ⟨u', c, v, htext, ?_, ?_⟩
    · unfold byteLength at *
      omega
    · have hbyte : ((Utf8.encode acc.tailText)[(Utf8.encode (u' ++ [c])).length - 1]? == some 10) =
          decide (c = '\n') := by
        rw [htext, Utf8.encode_append (u' ++ [c]), getElem?_append_left (by omega), ← getLast?_eq_getElem?,
          getLast?_encode]
      have hdrop : (Utf8.encode acc.tailText).drop (Utf8.encode (u' ++ [c])).length = Utf8.encode v := by
        rw [htext, Utf8.encode_append (u' ++ [c]), drop_left]
      rw [trimTail]
      simp only []
      rw [if_neg hlong, hbound, if_neg hstart, hbyte, hdrop, Utf8.decode_encode]

theorem Holds.appendDecodedText (h : Holds maxLines maxBytes acc text before) (more : List Char) :
    ∃ before', Holds maxLines maxBytes (acc.appendDecodedText more) (text ++ more) before' := by
  unfold OutputAccumulator.appendDecodedText
  split
  · rename_i hnil
    rw [length_eq_zero_iff.1 hnil, append_nil]
    exact ⟨before, h⟩
  · have htotal : acc.totalDecodedBytes + byteLength more = byteLength (text ++ more) := by
      rw [byteLength_append, h.totalBytes]
    have htail : acc.tailBytes + byteLength more = byteLength (acc.tailText ++ more) := by
      rw [byteLength_append, h.tailBytes]
    have hlines : acc.totalLines + more.count '\n' = (Lines.split '\n' (text ++ more)).length := by
      rw [h.totalLines, Lines.length_split, Lines.length_split, count_append]
      omega
    have hsplit : text ++ more = before ++ (acc.tailText ++ more) := by
      rw [← append_assoc, ← h.split]
    -- the counters at the end do not touch the tail
    have hcounters : ∀ {acc' : OutputAccumulator} {before' : List Char} {current : Nat},
        acc'.maxLines = maxLines → acc'.maxBytes = maxBytes → acc'.maxRollingBytes = max (maxBytes * 2) 1 →
        text ++ more = before' ++ acc'.tailText → acc'.tailBytes = byteLength acc'.tailText →
        acc'.totalDecodedBytes = byteLength (text ++ more) → acc'.totalLines = acc.totalLines →
        (acc'.tailStartsAtLineBoundary = true ↔ ∀ b c, before' = b ++ [c] → c = '\n') →
        (∀ b c, before' = b ++ [c] → acc'.maxRollingBytes < byteLength [c] + byteLength acc'.tailText) →
        Holds maxLines maxBytes
          (if more.count '\n' = 0 then { acc' with currentLineBytes := current }
            else { acc' with
              totalLines := acc'.totalLines + more.count '\n'
              currentLineBytes := byteLength (Lines.feed '\n' [] more).2 }) (text ++ more) before' := by
      intro acc' before' current h1 h2 h3 h4 h5 h6 h7 h8 h9
      split
      · rename_i hzero
        rw [hzero, Nat.add_zero] at hlines
        exact ⟨h1, h2, h3, h4, h5, h6, h7.trans hlines, h8, h9⟩
      · exact ⟨h1, h2, h3, h4, h5, h6, by rw [h7]; exact hlines, h8, h9⟩
    simp only []
    by_cases hlong : acc.maxRollingBytes * 2 < acc.tailBytes + byteLength more
    · rw [if_pos hlong]
      obtain ⟨u, c, v, hu, hkept, htrim⟩ := @trimTail_eq
        { acc with
          totalDecodedBytes := acc.totalDecodedBytes + byteLength more
          tailText := acc.tailText ++ more
          tailBytes := acc.tailBytes + byteLength more } (by simp only []; omega)
      simp only [] at hu hkept
      have hlast : ∀ b c', before ++ u ++ [c] = b ++ [c'] → c' = c := fun b c' hb =>
        (singleton_inj.1 (append_inj' hb rfl).2).symm
      rw [htrim]
      refine ⟨before ++ u ++ [c], hcounters h.lines h.bytes h.rolling ?_ rfl htotal rfl ?_ ?_⟩
      · rw [hsplit, hu]
        simp
      · rw [decide_eq_true_iff]
        constructor
        · intro hc b c' hb
          rw [hlast b c' hb, hc]
        · intro hall
          exact hall _ c rfl
      · intro b c' hb
        rw [hlast b c' hb]
        exact hkept
    · rw [if_neg hlong]
      refine ⟨before, hcounters h.lines h.bytes h.rolling hsplit htail htotal rfl h.boundary ?_⟩
      intro b c hb
      have hkept := h.kept b c hb
      simp only [byteLength_append] at hkept ⊢
      omega

/-! ## Snapshots -/

/-- A snapshot is the truncation of a text. -/
def Matches (acc : OutputAccumulator) (text : List Char) (options : OutputAccumulatorOptions) : Prop :=
  acc.snapshot.content = (truncateTail text ⟨options.maxLines, options.maxBytes⟩).content ∧
    acc.snapshot.truncation = truncateTail text ⟨options.maxLines, options.maxBytes⟩

/-- Nothing is dropped, or the lines that are kept whole are over a limit, or they are fewer than the limit
and something is on them. -/
def Covers (acc : OutputAccumulator) : Prop :=
  acc.tailBytes = acc.totalDecodedBytes ∨ ¬ Fits acc.maxLines acc.maxBytes acc.getSnapshotText ∨
    ('\n' ∈ acc.tailText ∧ (Lines.split '\n' acc.getSnapshotText).length < acc.maxLines ∧
      ∃ line ∈ Lines.split '\n' acc.getSnapshotText, line ≠ [])

theorem snapshot_of_over (hbytes : acc.maxBytes < acc.totalDecodedBytes)
    (h : ¬ Fits acc.maxLines acc.maxBytes acc.getSnapshotText) :
    acc.snapshot.truncation = ofCollected acc.maxLines acc.maxBytes acc.totalLines acc.totalDecodedBytes
      (collectText acc.maxLines acc.maxBytes acc.getSnapshotText) := by
  simp only [snapshot, truncateTail_of_over h, ofCollected, hbytes, or_true, decide_true, if_true, Option.getD_some]

theorem snapshot_of_fits (hbytes : acc.maxBytes < acc.totalDecodedBytes)
    (h : Fits acc.maxLines acc.maxBytes acc.getSnapshotText) : acc.snapshot.truncation =
      { content := acc.getSnapshotText, truncated := true, truncatedBy := some .bytes
        totalLines := acc.totalLines, totalBytes := acc.totalDecodedBytes
        outputLines := (Lines.split '\n' acc.getSnapshotText).length
        outputBytes := byteLength acc.getSnapshotText
        lastLinePartial := false, firstLineExceedsLimit := false
        maxLines := acc.maxLines, maxBytes := acc.maxBytes } := by
  simp only [snapshot, truncateTail_of_fits h, hbytes, or_true, decide_true, if_true, Option.getD_none]

theorem afterNewline_eq_none {text : List Char} (h : afterNewline text = none) : '\n' ∉ text := by
  induction text with
  | nil => simp
  | cons c text ih =>
    rw [afterNewline] at h
    split at h
    · cases h
    · rename_i hc
      simpa [Ne.symm hc] using ih h

theorem afterNewline_eq_some {text rest : List Char} (h : afterNewline text = some rest) :
    ∃ line, text = line ++ '\n' :: rest ∧ '\n' ∉ line := by
  induction text with
  | nil => cases h
  | cons c text ih =>
    rw [afterNewline] at h
    split at h
    · rename_i hc
      cases h
      exact ⟨[], by rw [hc]; rfl, by simp⟩
    · rename_i hc
      obtain ⟨line, rfl, hline⟩ := ih h
      exact ⟨c :: line, rfl, by simpa [Ne.symm hc] using hline⟩

/-- As long as nothing is dropped, a snapshot is the truncation. -/
theorem Holds.snapshot_whole (h : Holds maxLines maxBytes acc text []) :
    acc.snapshot.truncation = truncateTail text { maxLines := some maxLines, maxBytes := some maxBytes } := by
  have htail : acc.getSnapshotText = text := by
    rw [getSnapshotText, if_pos (h.boundary.2 (by simp)), h.split, nil_append]
  by_cases hfits : Fits maxLines maxBytes text
  · have hnot : ¬ (maxLines < (Lines.split '\n' text).length ∨ maxBytes < byteLength text) := by
      unfold Fits at hfits
      omega
    simp only [snapshot, htail, h.lines, h.bytes, h.totalLines, h.totalBytes, truncateTail_of_fits hfits, hnot,
      decide_false, Bool.false_eq_true, if_false]
  · have hover : maxLines < (Lines.split '\n' text).length ∨ maxBytes < byteLength text := by
      unfold Fits at hfits
      omega
    simp only [snapshot, htail, h.lines, h.bytes, h.totalLines, h.totalBytes, truncateTail_of_over hfits, hover,
      decide_true, if_true, ofCollected, Option.getD_some]

theorem Holds.byteLength_lt (h : Holds maxLines maxBytes acc text before) (hne : before ≠ []) :
    maxBytes < byteLength text ∧ acc.tailBytes ≠ acc.totalDecodedBytes := by
  obtain rfl | ⟨b, c, rfl⟩ := before.eq_nil_or_concat
  · exact absurd rfl hne
  · rw [concat_eq_append] at h
    have hkept := h.kept b c rfl
    have hrolling := h.rolling
    have hpos := @byteLength_pos [c] (by simp)
    rw [h.tailBytes, h.totalBytes, h.split, byteLength_append, byteLength_append]
    omega

variable {b : List Char}

theorem Holds.over_of_boundary (h : Holds maxLines maxBytes acc text (b ++ ['\n'])) :
    acc.getSnapshotText = acc.tailText ∧ maxBytes < byteLength acc.tailText ∧ text = b ++ '\n' :: acc.tailText := by
  have hflag : acc.tailStartsAtLineBoundary = true :=
    h.boundary.2 fun b' c hb => (singleton_inj.1 (append_inj' hb rfl).2).symm
  have hkept := h.kept b '\n' rfl
  have hnewline : byteLength ['\n'] = 1 := rfl
  have hrolling := h.rolling
  refine ⟨by rw [getSnapshotText, if_pos hflag], by omega, ?_⟩
  rw [h.split, append_assoc, singleton_append]

theorem Holds.matches_of_over (h : Holds maxLines maxBytes acc text before) (hne : before ≠ [])
    (htext : text = b ++ '\n' :: acc.getSnapshotText) (hover : ¬ Fits maxLines maxBytes acc.getSnapshotText) :
    acc.snapshot.truncation = truncateTail text { maxLines := some maxLines, maxBytes := some maxBytes } := by
  obtain ⟨hlt, -⟩ := h.byteLength_lt hne
  have hsnapshot := @snapshot_of_over acc (by rw [h.bytes, h.totalBytes]; exact hlt)
    (by rw [h.lines, h.bytes]; exact hover)
  rw [hsnapshot, truncateTail_of_over (fun hfits => Nat.not_le_of_lt hlt hfits.2), h.lines, h.bytes, h.totalLines,
    h.totalBytes]
  conv_rhs => rw [htext, collectText_of_over hover, ← htext]

/-- Only a part of the last line is kept: the snapshot is the truncation when the part is over a limit. -/
theorem Holds.truncation_iff_of_part {c : Char}
    (h : Holds maxLines maxBytes acc text (b ++ [c])) (hc : c ≠ '\n') (hnone : '\n' ∉ acc.tailText)
    (htail : acc.getSnapshotText = acc.tailText) :
    acc.snapshot.truncation = truncateTail text { maxLines := some maxLines, maxBytes := some maxBytes } ↔
      acc.Covers := by
  obtain ⟨hlt, hdropped⟩ := h.byteLength_lt (by simp)
  have hlt' : acc.maxBytes < acc.totalDecodedBytes := by rw [h.bytes, h.totalBytes]; exact hlt
  have hovertext : ¬ Fits maxLines maxBytes text := fun hfits => Nat.not_le_of_lt hlt hfits.2
  obtain ⟨q, earlier, hrev⟩ := @Lines.reverse_split_append _ _ _ acc.tailText b c hc hnone
  rw [← h.split] at hrev
  have hkept := h.kept b c rfl
  have hrolling := h.rolling
  have hlong : maxBytes < byteLength (q ++ [c] ++ acc.tailText) := by
    rw [byteLength_append, byteLength_append]
    omega
  have hpart : (Lines.split '\n' acc.tailText).reverse = acc.tailText :: [] := by
    rw [Lines.split_of_not_mem hnone]
    rfl
  by_cases hfits : Fits maxLines maxBytes acc.tailText
  · -- the part is taken as a whole line
    refine iff_of_false ?_ ?_
    · have hlines : 0 < maxLines := by
        have hle := hfits.1
        rw [Lines.split_of_not_mem hnone, length_singleton] at hle
        omega
      rw [snapshot_of_fits hlt' (by rw [h.lines, h.bytes, htail]; exact hfits), truncateTail_of_over hovertext,
        collectText_of_long hrev hlines hlong]
      intro heq
      have hpartial := congrArg lastLinePartial heq
      simp [ofCollected] at hpartial
    · rintro (hall | hover | ⟨hmem, -⟩)
      · exact hdropped hall
      · rw [h.lines, h.bytes, htail] at hover
        exact hover hfits
      · exact hnone hmem
  · have hover : ¬ Fits acc.maxLines acc.maxBytes acc.getSnapshotText := by rw [h.lines, h.bytes, htail]; exact hfits
    refine iff_of_true ?_ (.inr (.inl hover))
    rw [snapshot_of_over hlt' hover, truncateTail_of_over hovertext, h.lines, h.bytes, h.totalLines, h.totalBytes,
      htail]
    by_cases hlines : maxLines = 0
    · rw [hlines, collectText_noLines, collectText_noLines]
    · have hpos := Nat.pos_of_ne_zero hlines
      have hbytes : maxBytes < byteLength acc.tailText := by
        unfold Fits at hfits
        rw [Lines.split_of_not_mem hnone, length_singleton] at hfits
        omega
      rw [collectText_of_long hpart hpos hbytes, collectText_of_long hrev hpos hlong,
        truncateStringToBytesFromEnd_append hbytes]

/-- A part of a line is kept and dropped from the snapshot, and the lines after it. -/
theorem Holds.truncation_iff_of_rest {line rest : List Char} {c : Char}
    (h : Holds maxLines maxBytes acc text (b ++ [c])) (hc : c ≠ '\n') (hline : '\n' ∉ line)
    (htail : acc.tailText = line ++ '\n' :: rest) (hrest : acc.getSnapshotText = rest) :
    acc.snapshot.truncation = truncateTail text { maxLines := some maxLines, maxBytes := some maxBytes } ↔
      acc.Covers := by
  have hne : b ++ [c] ≠ [] := by simp
  obtain ⟨hlt, hdropped⟩ := h.byteLength_lt hne
  have hlt' : acc.maxBytes < acc.totalDecodedBytes := by rw [h.bytes, h.totalBytes]; exact hlt
  have hovertext : ¬ Fits maxLines maxBytes text := fun hfits => Nat.not_le_of_lt hlt hfits.2
  have htext : text = b ++ [c] ++ line ++ '\n' :: rest := by
    rw [h.split, htail, ← append_assoc]
  by_cases hfits : Fits maxLines maxBytes rest
  · have hfits' : Fits acc.maxLines acc.maxBytes acc.getSnapshotText := by rw [h.lines, h.bytes, hrest]; exact hfits
    obtain ⟨q, earlier, hrev⟩ := @Lines.reverse_split_append _ _ _ line b c hc hline
    have hkept := h.kept b c rfl
    have hrolling := h.rolling
    have hlong : maxBytes < byteLength rest + (byteLength (q ++ [c] ++ line) + 1) := by
      rw [htail, byteLength_append, byteLength_newline_cons] at hkept
      rw [byteLength_append, byteLength_append]
      omega
    have hcollect := @collectText_of_fits maxLines maxBytes rest hfits (b ++ [c] ++ line)
    rw [hrev, collect_next (Lines.split_ne_nil rest) hlong] at hcollect
    rw [snapshot_of_fits hlt' hfits', truncateTail_of_over hovertext, htext, hcollect, ← htext, hrest, h.lines,
      h.bytes, h.totalLines, h.totalBytes]
    have hcovers : acc.Covers ↔ (Lines.split '\n' rest).length < maxLines ∧
        ∃ l ∈ Lines.split '\n' rest, l ≠ [] := by
      rw [Covers, hrest, h.lines]
      constructor
      · rintro (hall | hover | ⟨-, hfew⟩)
        · exact absurd hall hdropped
        · rw [h.bytes] at hover
          exact absurd hfits hover
        · exact hfew
      · intro hfew
        exact .inr (.inr ⟨by rw [htail]; simp, hfew⟩)
    rw [hcovers]
    by_cases hfull : maxLines ≤ (Lines.split '\n' rest).length
    · rw [if_pos hfull]
      refine iff_of_false (fun heq => ?_) (fun hfew => Nat.not_le_of_lt hfew.1 hfull)
      have hby := congrArg truncatedBy heq
      simp [ofCollected, hfull, hfits.2] at hby
    · rw [if_neg hfull]
      by_cases hblank : (Lines.split '\n' rest).all (fun collected => collected.length == 0) = true
      · rw [if_pos hblank]
        refine iff_of_false (fun heq => ?_) ?_
        · have hpartial := congrArg lastLinePartial heq
          simp [ofCollected] at hpartial
        · rintro ⟨-, l, hl, hsome⟩
          have hempty := all_eq_true.1 hblank l hl
          exact hsome (length_eq_zero_iff.1 (beq_iff_eq.1 hempty))
      · rw [if_neg hblank]
        refine iff_of_true ?_ ⟨Nat.lt_of_not_le hfull, ?_⟩
        · simp only [ofCollected, hfull, false_and, if_false, Lines.join_split]
        · simpa using hblank
  · have hover : ¬ Fits maxLines maxBytes acc.getSnapshotText := by rw [hrest]; exact hfits
    refine iff_of_true (h.matches_of_over hne (by rw [hrest]; exact htext) hover) (.inr (.inl ?_))
    rw [h.lines, h.bytes]
    exact hover

theorem Holds.truncation_iff (h : Holds maxLines maxBytes acc text before) :
    acc.snapshot.truncation = truncateTail text { maxLines := some maxLines, maxBytes := some maxBytes } ↔
      acc.Covers := by
  obtain rfl | ⟨b, c, rfl⟩ := before.eq_nil_or_concat
  · refine iff_of_true h.snapshot_whole (.inl ?_)
    rw [h.tailBytes, h.totalBytes, h.split]
    rfl
  · rw [concat_eq_append] at h
    by_cases hc : c = '\n'
    · rw [hc] at h
      obtain ⟨htail, hlt, htext⟩ := h.over_of_boundary
      have hover : ¬ Fits maxLines maxBytes acc.getSnapshotText := by
        rw [htail]
        exact fun hfits => Nat.not_le_of_lt hlt hfits.2
      refine iff_of_true (h.matches_of_over (by simp) (by rw [htail]; exact htext) hover) (.inr (.inl ?_))
      rw [h.lines, h.bytes]
      exact hover
    · have hflag : ¬ acc.tailStartsAtLineBoundary = true := fun hflag => hc (h.boundary.1 hflag b c rfl)
      cases hafter : afterNewline acc.tailText with
      | none =>
        refine h.truncation_iff_of_part hc (afterNewline_eq_none hafter) ?_
        rw [getSnapshotText, if_neg hflag, hafter]
        rfl
      | some rest =>
        obtain ⟨line, htail, hline⟩ := afterNewline_eq_some hafter
        refine h.truncation_iff_of_rest hc hline htail ?_
        rw [getSnapshotText, if_neg hflag, hafter]
        rfl

/-! ## Runs -/

@[simp] theorem trimTail_decoder (acc : OutputAccumulator) : acc.trimTail.decoder = acc.decoder := by
  unfold trimTail
  simp only []
  split <;> rfl

@[simp] theorem trimTail_finished (acc : OutputAccumulator) : acc.trimTail.finished = acc.finished := by
  unfold trimTail
  simp only []
  split <;> rfl

theorem appendDecodedText_frame (acc : OutputAccumulator) (text : List Char) :
    (acc.appendDecodedText text).decoder = acc.decoder ∧ (acc.appendDecodedText text).finished = acc.finished := by
  unfold appendDecodedText
  split
  · exact ⟨rfl, rfl⟩
  · simp only []
    split
    · split <;> simp
    · split <;> simp

variable {options : OutputAccumulatorOptions}

theorem Holds.matches_iff
    (h : Holds (options.maxLines.getD defaultMaxLines) (options.maxBytes.getD defaultMaxBytes) acc text before) :
    acc.Matches text options ↔ acc.Covers := by
  rw [← h.truncation_iff]
  constructor
  · exact fun hmatches => hmatches.2
  · intro heq
    have hcontent : acc.snapshot.truncation.content = _ := congrArg content heq
    exact ⟨hcontent, heq⟩

/-- What an accumulator that is not finished has received. -/
structure Received (options : OutputAccumulatorOptions) (acc : OutputAccumulator) (bytes : List UInt8) : Prop where
  finished : acc.finished = false
  decoder : acc.decoder = (TextDecoder.new.decodeStream bytes).2
  holds : ∃ before, Holds (options.maxLines.getD defaultMaxLines) (options.maxBytes.getD defaultMaxBytes) acc
    (TextDecoder.new.decodeStream bytes).1 before

theorem Received.append {bytes : List UInt8} (h : Received options acc bytes)
    (data : List UInt8) : ∃ acc', acc.append data = .ok acc' ∧ Received options acc' (bytes ++ data) := by
  obtain ⟨before, hholds⟩ := h.holds
  have hsame : Holds (options.maxLines.getD defaultMaxLines) (options.maxBytes.getD defaultMaxBytes)
      { acc with decoder := (acc.decoder.decodeStream data).2 } (TextDecoder.new.decodeStream bytes).1 before :=
    ⟨hholds.lines, hholds.bytes, hholds.rolling, hholds.split, hholds.tailBytes, hholds.totalBytes,
      hholds.totalLines, hholds.boundary, hholds.kept⟩
  obtain ⟨before', hnew⟩ := hsame.appendDecodedText (acc.decoder.decodeStream data).1
  obtain ⟨hdecoder, hfinished⟩ :=
    appendDecodedText_frame { acc with decoder := (acc.decoder.decodeStream data).2 }
      (acc.decoder.decodeStream data).1
  refine ⟨_, by rw [OutputAccumulator.append, h.finished]; rfl, hfinished.trans h.finished, ?_, before', ?_⟩
  · rw [hdecoder, TextDecoder.decodeStream_append, h.decoder]
  · rw [TextDecoder.decodeStream_append, ← h.decoder]
    exact hnew

theorem Received.appendAll {chunks : List (List UInt8)} :
    ∀ {acc : OutputAccumulator} {bytes : List UInt8}, Received options acc bytes →
      ∃ acc', chunks.foldlM OutputAccumulator.append acc = .ok acc' ∧
        Received options acc' (bytes ++ chunks.flatten) := by
  induction chunks with
  | nil =>
    intro acc bytes h
    rw [flatten_nil, append_nil]
    exact ⟨acc, rfl, h⟩
  | cons chunk chunks ih =>
    intro acc bytes h
    obtain ⟨acc', happend, hreceived⟩ := h.append chunk
    obtain ⟨acc'', hall, hreceived'⟩ := ih hreceived
    refine ⟨acc'', ?_, ?_⟩
    · rw [foldlM_cons, happend]
      exact hall
    · rw [flatten_cons, ← append_assoc]
      exact hreceived'

theorem Received.finish {bytes : List UInt8} (h : Received options acc bytes) :
    ∃ before, Holds (options.maxLines.getD defaultMaxLines) (options.maxBytes.getD defaultMaxBytes) acc.finish
      (TextDecoder.decodeAll bytes) before := by
  obtain ⟨before, hholds⟩ := h.holds
  have hsame : Holds (options.maxLines.getD defaultMaxLines) (options.maxBytes.getD defaultMaxBytes)
      { acc with finished := true } (TextDecoder.new.decodeStream bytes).1 before :=
    ⟨hholds.lines, hholds.bytes, hholds.rolling, hholds.split, hholds.tailBytes, hholds.totalBytes,
      hholds.totalLines, hholds.boundary, hholds.kept⟩
  rw [OutputAccumulator.finish, h.finished, TextDecoder.decodeAll_eq, ← h.decoder]
  exact hsame.appendDecodedText acc.decoder.decodeEnd

/-- However a stream is cut into chunks, a snapshot on the way or at the end is the truncation of all the
text exactly when enough of it is kept. -/
theorem snapshot_eq_iff (options : OutputAccumulatorOptions) (chunks : List (List UInt8)) :
    ∃ acc, chunks.foldlM append (new options) = .ok acc ∧
      (acc.Matches (TextDecoder.new.decodeStream chunks.flatten).1 options ↔ acc.Covers) ∧
      (acc.finish.Matches (TextDecoder.decodeAll chunks.flatten) options ↔ acc.finish.Covers) := by
  have hnew : Received options (new options) [] := ⟨rfl, rfl, [], holds_new options⟩
  obtain ⟨acc, hall, hreceived⟩ := @Received.appendAll options chunks _ _ hnew
  obtain ⟨before, hholds⟩ := hreceived.holds
  obtain ⟨before', hfinish⟩ := hreceived.finish
  exact ⟨acc, hall, hholds.matches_iff, hfinish.matches_iff⟩

/-- A long line and its newline: all of it is the part of a line that is left out. -/
theorem snapshot_drops_line : ∃ acc,
    [List.replicate 20 97 ++ [10]].foldlM append (new { maxLines := some 10, maxBytes := some 4 }) = .ok acc ∧
      acc.snapshot.content = [] ∧
      (truncateTail (TextDecoder.new.decodeStream (List.replicate 20 97 ++ [10])).1
        { maxLines := some 10, maxBytes := some 4 }).content = ['a', 'a', 'a', '\n'] := by
  refine ⟨_, rfl, ?_, ?_⟩
  · decide
  · decide

end OutputAccumulator

end Tools
end RePrime
