import RePrime.Lib.Lines
import RePrime.Lib.Utf8Stream
import Mathlib.Data.Nat.Find
import Mathlib.Algebra.GroupWithZero.Nat

/-!
# RePrime.Tools.Truncate

The beginning and the end of a text within a number of lines and a number of bytes.

* `truncateHead_content`: the beginning is as many whole lines as the limits allow.
* `collect_of_over`: lines before the ones that are over a limit make no difference.
* `collect_of_fits`: lines that are within the limits are all taken.
-/

namespace RePrime
namespace Tools
namespace Truncate

open List Lines
open Utf8

def byteLength (text : List Char) : Nat := (encode text).length

def defaultMaxLines : Nat := 2000

def defaultMaxBytes : Nat := 50 * 1024

inductive TruncatedBy where
  | lines
  | bytes
  deriving DecidableEq

structure TruncationResult where
  content : List Char
  truncated : Bool
  truncatedBy : Option TruncatedBy
  totalLines : Nat
  totalBytes : Nat
  outputLines : Nat
  outputBytes : Nat
  lastLinePartial : Bool
  firstLineExceedsLimit : Bool
  maxLines : Nat
  maxBytes : Nat
  deriving DecidableEq

structure TruncationOptions where
  maxLines : Option Nat
  maxBytes : Option Nat

def truncateStringToBytesFromEnd (str : List Char) (maxBytes : Nat) : List Char :=
  let buf := encode str
  if buf.length ≤ maxBytes then str
  else decode (buf.drop (charBoundary buf (buf.length - maxBytes)))

structure Collected where
  outputLinesArr : List (List Char)
  outputBytesCount : Nat
  truncatedBy : TruncatedBy
  lastLinePartial : Bool

/-- The loop from the last line to the first. -/
def collect (maxLines maxBytes : Nat) : List (List Char) → List (List Char) → Nat → Collected
  | [], outputLinesArr, outputBytesCount => ⟨outputLinesArr, outputBytesCount, .lines, false⟩
  | line :: earlier, outputLinesArr, outputBytesCount =>
    if maxLines ≤ outputLinesArr.length then ⟨outputLinesArr, outputBytesCount, .lines, false⟩
    else
      let lineBytes := byteLength line + (if 0 < outputLinesArr.length then 1 else 0)
      if maxBytes < outputBytesCount + lineBytes then
        -- blank lines at the end do not count as output
        if outputLinesArr.all (fun collected => collected.length == 0) then
          let keptBlanks := min outputLinesArr.length (max 0 (maxBytes - 1))
          let truncatedLine := truncateStringToBytesFromEnd line (maxBytes - keptBlanks)
          ⟨truncatedLine :: outputLinesArr.take keptBlanks, byteLength truncatedLine + keptBlanks, .bytes, true⟩
        else ⟨outputLinesArr, outputBytesCount, .bytes, false⟩
      else collect maxLines maxBytes earlier (line :: outputLinesArr) (outputBytesCount + lineBytes)

def truncateTail (content : List Char) (options : TruncationOptions) : TruncationResult :=
  let maxLines := options.maxLines.getD defaultMaxLines
  let maxBytes := options.maxBytes.getD defaultMaxBytes
  let totalBytes := byteLength content
  let lines := split '\n' content
  let totalLines := lines.length
  if totalLines ≤ maxLines ∧ totalBytes ≤ maxBytes then
    { content, truncated := false, truncatedBy := none, totalLines, totalBytes, outputLines := totalLines
      outputBytes := totalBytes, lastLinePartial := false, firstLineExceedsLimit := false, maxLines, maxBytes }
  else
    let collected := collect maxLines maxBytes lines.reverse [] 0
    let truncatedBy :=
      if maxLines ≤ collected.outputLinesArr.length ∧ collected.outputBytesCount ≤ maxBytes then .lines
      else collected.truncatedBy
    let outputContent := join '\n' collected.outputLinesArr
    { content := outputContent, truncated := true, truncatedBy := some truncatedBy, totalLines, totalBytes
      outputLines := collected.outputLinesArr.length, outputBytes := byteLength outputContent
      lastLinePartial := collected.lastLinePartial, firstLineExceedsLimit := false, maxLines, maxBytes }

/-- The loop from the first line to the last. -/
def collectHead (maxLines maxBytes : Nat) : List (List Char) → List (List Char) → Nat → Collected
  | [], outputLinesArr, outputBytesCount => ⟨outputLinesArr, outputBytesCount, .lines, false⟩
  | line :: later, outputLinesArr, outputBytesCount =>
    if maxLines ≤ outputLinesArr.length then ⟨outputLinesArr, outputBytesCount, .lines, false⟩
    else
      let lineBytes := byteLength line + (if 0 < outputLinesArr.length then 1 else 0)
      if maxBytes < outputBytesCount + lineBytes then ⟨outputLinesArr, outputBytesCount, .bytes, false⟩
      else collectHead maxLines maxBytes later (outputLinesArr ++ [line]) (outputBytesCount + lineBytes)

def truncateHead (content : List Char) (options : TruncationOptions) : TruncationResult :=
  let maxLines := options.maxLines.getD defaultMaxLines
  let maxBytes := options.maxBytes.getD defaultMaxBytes
  let totalBytes := byteLength content
  let lines := split '\n' content
  let totalLines := lines.length
  if totalLines ≤ maxLines ∧ totalBytes ≤ maxBytes then
    { content, truncated := false, truncatedBy := none, totalLines, totalBytes, outputLines := totalLines
      outputBytes := totalBytes, lastLinePartial := false, firstLineExceedsLimit := false, maxLines, maxBytes }
  else if maxBytes < byteLength (lines.headD []) then
    { content := [], truncated := true, truncatedBy := some .bytes, totalLines, totalBytes, outputLines := 0
      outputBytes := 0, lastLinePartial := false, firstLineExceedsLimit := true, maxLines, maxBytes }
  else
    let collected := collectHead maxLines maxBytes lines [] 0
    let truncatedBy :=
      if maxLines ≤ collected.outputLinesArr.length ∧ collected.outputBytesCount ≤ maxBytes then .lines
      else collected.truncatedBy
    let outputContent := join '\n' collected.outputLinesArr
    { content := outputContent, truncated := true, truncatedBy := some truncatedBy, totalLines, totalBytes
      outputLines := collected.outputLinesArr.length, outputBytes := byteLength outputContent
      lastLinePartial := false, firstLineExceedsLimit := false, maxLines, maxBytes }

/-! ## Bytes of lines -/

theorem byteLength_append (a b : List Char) : byteLength (a ++ b) = byteLength a + byteLength b := by
  rw [byteLength, encode_append, length_append, byteLength, byteLength]

theorem byteLength_le_of_suffix {a b : List Char} (h : a <:+ b) : byteLength a ≤ byteLength b := by
  obtain ⟨front, rfl⟩ := h
  rw [byteLength_append]
  exact Nat.le_add_left _ _

theorem byteLength_newline_cons (text : List Char) : byteLength ('\n' :: text) = 1 + byteLength text :=
  byteLength_append ['\n'] text

theorem byteLength_pos {text : List Char} (h : text ≠ []) : 0 < byteLength text :=
  length_pos_of_ne_nil (encode_ne_nil h)

variable {lines : List (List Char)}

theorem byteLength_join (h : lines ≠ []) :
    byteLength (join '\n' lines) + 1 = (lines.map fun line => byteLength line + 1).sum := by
  induction lines with
  | nil => exact absurd rfl h
  | cons line lines ih =>
    by_cases hnil : lines = []
    · rw [hnil, join_singleton]
      rfl
    · rw [join_cons line hnil, byteLength_append, byteLength_newline_cons, map_cons, sum_cons, ← ih hnil]
      omega

/-- Bytes of lines after `n` others, with the newlines between them. -/
def linesBytes : Nat → List (List Char) → Nat
  | _, [] => 0
  | n, line :: earlier => byteLength line + (if 0 < n then 1 else 0) + linesBytes (n + 1) earlier

theorem linesBytes_succ (n : Nat) (lines : List (List Char)) :
    linesBytes (n + 1) lines = (lines.map fun line => byteLength line + 1).sum := by
  induction lines generalizing n with
  | nil => rfl
  | cons line lines ih => rw [linesBytes, ih, if_pos (Nat.succ_pos n), map_cons, sum_cons]

theorem linesBytes_split (text : List Char) : linesBytes 0 (split '\n' text).reverse = byteLength text := by
  have hne := @Lines.split_ne_nil _ _ '\n' text
  have hsum := byteLength_join hne
  rw [join_split] at hsum
  rw [← sum_reverse, ← map_reverse] at hsum
  cases hlines : (split '\n' text).reverse with
  | nil => exact absurd (reverse_eq_nil_iff.1 hlines) hne
  | cons line earlier =>
    rw [hlines, map_cons, sum_cons] at hsum
    rw [linesBytes, linesBytes_succ, if_neg (Nat.lt_irrefl 0)]
    omega

theorem linesBytes_append (n : Nat) (lines more : List (List Char)) :
    linesBytes n (lines ++ more) = linesBytes n lines + linesBytes (n + lines.length) more := by
  induction lines generalizing n with
  | nil => simp [linesBytes]
  | cons line lines ih =>
    rw [cons_append, linesBytes, linesBytes, ih, length_cons, Nat.add_right_comm n 1, ← Nat.add_assoc,
      ← Nat.add_assoc]

theorem byteLength_join_eq (lines : List (List Char)) : byteLength (join '\n' lines) = linesBytes 0 lines := by
  cases lines with
  | nil => rfl
  | cons line lines =>
    have hjoin := byteLength_join (cons_ne_nil line lines)
    rw [map_cons, sum_cons] at hjoin
    rw [linesBytes, linesBytes_succ, if_neg (Nat.lt_irrefl 0)]
    omega

theorem linesBytes_reverse (lines : List (List Char)) : linesBytes 0 lines.reverse = linesBytes 0 lines := by
  cases hlines : lines with
  | nil => rfl
  | cons line more =>
    have hne : lines.reverse ≠ [] := by simp [hlines]
    have hrev := byteLength_join hne
    have hjoin := byteLength_join (cons_ne_nil line more)
    rw [map_reverse, sum_reverse, hlines, ← hjoin, byteLength_join_eq, byteLength_join_eq] at hrev
    exact Nat.add_right_cancel hrev

theorem linesBytes_blanks (blanks : Nat) : linesBytes 0 (List.replicate blanks []) = blanks - 1 := by
  cases blanks with
  | zero => rfl
  | succ n => simp [replicate_succ, linesBytes, linesBytes_succ, byteLength, encode]

theorem eq_replicate_of_blank (h : ¬ ∃ line ∈ lines, line ≠ []) : lines = List.replicate lines.length [] := by
  rw [eq_replicate_iff]
  refine ⟨rfl, ?_⟩
  intro line hline
  by_contra hne
  exact h ⟨line, hline, hne⟩

/-- `k` first lines are within the limits, and one more is not or there is none. -/
structure Taken (maxLines maxBytes : Nat) (lines : List (List Char)) (k : Nat) : Prop where
  length_le : k ≤ lines.length
  lines_le : k ≤ maxLines
  bytes_le : linesBytes 0 (lines.take k) ≤ maxBytes
  next : k = lines.length ∨ k = maxLines ∨ maxBytes < linesBytes 0 (lines.take (k + 1))

theorem exists_taken (maxLines maxBytes : Nat) (lines : List (List Char)) : ∃ k, Taken maxLines maxBytes lines k := by
  let fits := fun k => linesBytes 0 (lines.take k) ≤ maxBytes
  have hle := Nat.findGreatest_le (P := fits) (min lines.length maxLines)
  have hmost := fun k => Nat.findGreatest_is_greatest (P := fits) (n := min lines.length maxLines) (k := k)
  have hfits : fits (Nat.findGreatest fits (min lines.length maxLines)) :=
    Nat.findGreatest_spec (Nat.zero_le _) (Nat.zero_le maxBytes)
  generalize Nat.findGreatest fits (min lines.length maxLines) = k at hle hmost hfits
  refine ⟨k, ?_, ?_, hfits, ?_⟩
  · omega
  · omega
  · by_cases hlast : k = lines.length ∨ k = maxLines
    · exact hlast.elim .inl fun h => .inr (.inl h)
    · have hover := hmost (k + 1) (Nat.lt_succ_self k) (by omega)
      exact .inr (.inr (Nat.lt_of_not_le hover))

variable {k : Nat}

theorem linesBytes_take_mono {j : Nat} (h : j ≤ k) : linesBytes 0 (lines.take j) ≤ linesBytes 0 (lines.take k) := by
  rw [← Nat.add_sub_cancel' h, take_add, linesBytes_append]
  exact Nat.le_add_right _ _

theorem Taken.le {maxLines maxBytes j : Nat} (h : Taken maxLines maxBytes lines k)
    (hlength : j ≤ lines.length) (hlines : j ≤ maxLines) (hbytes : linesBytes 0 (lines.take j) ≤ maxBytes) :
    j ≤ k := by
  obtain hk | hk | hk := h.next
  · omega
  · omega
  · by_contra hlt
    have hnext : k + 1 ≤ j := by omega
    exact absurd (hbytes.trans_lt hk) (Nat.not_lt_of_le (linesBytes_take_mono hnext))

theorem Taken.next_over {maxLines maxBytes : Nat} {later : List (List Char)} {line : List Char}
    (h : Taken maxLines maxBytes lines k) (hrest : lines.drop k = line :: later) (hfull : ¬ maxLines ≤ k) :
    maxBytes < linesBytes 0 (lines.take k) + (byteLength line + (if 0 < k then 1 else 0)) := by
  have hlen := congrArg List.length hrest
  rw [length_drop, length_cons] at hlen
  have hover : maxBytes < linesBytes 0 (lines.take (k + 1)) := by
    have hnext := h.next
    omega
  have hline : lines.take (k + 1) = lines.take k ++ [line] := by
    rw [take_add, hrest]
    rfl
  rwa [hline, linesBytes_append, length_take_of_le h.length_le, Nat.zero_add, linesBytes, linesBytes,
    Nat.add_zero] at hover

/-! ## The loop -/

section

variable {maxLines maxBytes : Nat}

variable {lines : List (List Char)}

theorem collect_of_over : ∀ {out : List (List Char)} {count : Nat}, out.length ≤ maxLines → count ≤ maxBytes →
    maxLines < out.length + lines.length ∨ maxBytes < count + linesBytes out.length lines →
    ∀ earlier, collect maxLines maxBytes (lines ++ earlier) out count = collect maxLines maxBytes lines out count := by
  induction lines with
  | nil =>
    intro out count hlen hcount hover earlier
    simp only [length_nil, linesBytes] at hover
    omega
  | cons line lines ih =>
    intro out count hlen hcount hover earlier
    rw [linesBytes, length_cons] at hover
    rw [cons_append, collect, collect]
    simp only []
    generalize byteLength line + (if 0 < out.length then 1 else 0) = lineBytes at hover ⊢
    by_cases hfull : maxLines ≤ out.length
    · rw [if_pos hfull, if_pos hfull]
    · rw [if_neg hfull, if_neg hfull]
      by_cases hbytes : maxBytes < count + lineBytes
      · rw [if_pos hbytes, if_pos hbytes]
      · rw [if_neg hbytes, if_neg hbytes]
        refine ih (by rw [length_cons]; omega) (by omega) ?_ earlier
        rw [length_cons]
        omega

theorem collect_of_fits : ∀ {out : List (List Char)} {count : Nat},
    out.length + lines.length ≤ maxLines → count + linesBytes out.length lines ≤ maxBytes →
    ∀ earlier, collect maxLines maxBytes (lines ++ earlier) out count =
      collect maxLines maxBytes earlier (lines.reverse ++ out) (count + linesBytes out.length lines) := by
  induction lines with
  | nil => exact fun _ _ earlier => rfl
  | cons line lines ih =>
    intro out count hlen hcount earlier
    rw [length_cons] at hlen
    rw [linesBytes] at hcount
    rw [cons_append, collect, if_neg (by omega)]
    simp only []
    rw [if_neg (by omega), ih (by rw [length_cons]; omega) (by rw [length_cons]; omega),
      reverse_cons, append_assoc, singleton_append, linesBytes, length_cons, Nat.add_assoc]

theorem collect_extends (maxLines maxBytes : Nat) (lines : List (List Char)) : ∀ {out : List (List Char)} (count : Nat),
    (∃ line ∈ out, line ≠ []) → ∃ front, (collect maxLines maxBytes lines out count).outputLinesArr = front ++ out := by
  induction lines with
  | nil => exact fun _ _ => ⟨[], rfl⟩
  | cons line lines ih =>
    intro out count hout
    have hblank : ¬ out.all (fun collected => collected.length == 0) = true := by
      obtain ⟨l, hl, hne⟩ := hout
      intro hall
      have hlen := all_eq_true.1 hall l hl
      exact hne (length_eq_zero_iff.1 (beq_iff_eq.1 hlen))
    rw [collect]
    simp only []
    generalize byteLength line + (if 0 < out.length then 1 else 0) = lineBytes
    by_cases hfull : maxLines ≤ out.length
    · rw [if_pos hfull]
      exact ⟨[], rfl⟩
    · by_cases hover : maxBytes < count + lineBytes
      · rw [if_neg hfull, if_pos hover, if_neg hblank]
        exact ⟨[], rfl⟩
      · obtain ⟨front, hfront⟩ := @ih (line :: out) (count + lineBytes)
          (hout.imp fun l hl => ⟨mem_cons_of_mem _ hl.1, hl.2⟩)
        rw [if_neg hfull, if_neg hover, hfront]
        exact ⟨front ++ [line], by rw [append_assoc, singleton_append]⟩

/-! ## Whole texts -/

/-- A text that is within the limits. -/
def Fits (maxLines maxBytes : Nat) (text : List Char) : Prop :=
  (split '\n' text).length ≤ maxLines ∧ byteLength text ≤ maxBytes

def collectText (maxLines maxBytes : Nat) (text : List Char) : Collected :=
  collect maxLines maxBytes (split '\n' text).reverse [] 0

/-- The result for the lines that were taken. -/
def ofCollected (maxLines maxBytes totalLines totalBytes : Nat) (collected : Collected) : TruncationResult :=
  { content := join '\n' collected.outputLinesArr
    truncated := true
    truncatedBy := some
      (if maxLines ≤ collected.outputLinesArr.length ∧ collected.outputBytesCount ≤ maxBytes then .lines
        else collected.truncatedBy)
    totalLines, totalBytes
    outputLines := collected.outputLinesArr.length
    outputBytes := byteLength (join '\n' collected.outputLinesArr)
    lastLinePartial := collected.lastLinePartial
    firstLineExceedsLimit := false
    maxLines, maxBytes }

variable {text : List Char}

theorem truncateTail_of_over (h : ¬ Fits maxLines maxBytes text) :
    truncateTail text { maxLines := some maxLines, maxBytes := some maxBytes } =
      ofCollected maxLines maxBytes (split '\n' text).length (byteLength text)
        (collectText maxLines maxBytes text) :=
  if_neg h

theorem truncateTail_of_fits (h : Fits maxLines maxBytes text) :
    truncateTail text { maxLines := some maxLines, maxBytes := some maxBytes } =
      { content := text, truncated := false, truncatedBy := none
        totalLines := (split '\n' text).length, totalBytes := byteLength text
        outputLines := (split '\n' text).length, outputBytes := byteLength text
        lastLinePartial := false, firstLineExceedsLimit := false, maxLines, maxBytes } :=
  if_pos h

theorem reverse_split (before text : List Char) : (split '\n' (before ++ '\n' :: text)).reverse =
      (split '\n' text).reverse ++ (split '\n' before).reverse := by
  rw [split_append_sep, reverse_append]

theorem collectText_of_over (h : ¬ Fits maxLines maxBytes text) (before : List Char) :
    collectText maxLines maxBytes (before ++ '\n' :: text) = collectText maxLines maxBytes text := by
  rw [collectText, reverse_split]
  refine collect_of_over (Nat.zero_le _) (Nat.zero_le _) ?_ _
  rw [length_nil, linesBytes_split, length_reverse]
  unfold Fits at h
  omega

/-- A text within the limits is taken, and the lines before it are next. -/
theorem collectText_of_fits (h : Fits maxLines maxBytes text) (before : List Char) :
    collectText maxLines maxBytes (before ++ '\n' :: text) =
      collect maxLines maxBytes (split '\n' before).reverse (split '\n' text) (byteLength text) := by
  have hbytes := linesBytes_split text
  rw [collectText, reverse_split, collect_of_fits, reverse_reverse, append_nil, length_nil, hbytes, Nat.zero_add]
  · rw [length_nil, length_reverse, Nat.zero_add]
    exact h.1
  · rw [length_nil, hbytes, Nat.zero_add]
    exact h.2

theorem collectText_noLines (text : List Char) : collectText 0 maxBytes text = ⟨[], 0, .lines, false⟩ := by
  unfold collectText
  cases (split '\n' text).reverse with
  | nil => rfl
  | cons line earlier => rfl

variable {k : Nat}

/-- As many lines are taken as the limits allow. The next one is over a limit: it is cut when nothing but blank
lines was taken. -/
theorem collectText_cases (h : ¬ Fits maxLines maxBytes text)
    (hk : Taken maxLines maxBytes (split '\n' text).reverse k) :
    (k = maxLines ∧ collectText maxLines maxBytes text =
      ⟨((split '\n' text).reverse.take k).reverse, linesBytes 0 ((split '\n' text).reverse.take k),
        .lines, false⟩) ∨ (k < maxLines ∧ (∃ line ∈ (split '\n' text).reverse.take k, line ≠ []) ∧
      maxBytes < linesBytes 0 ((split '\n' text).reverse.take (k + 1)) ∧ collectText maxLines maxBytes text =
        ⟨((split '\n' text).reverse.take k).reverse, linesBytes 0 ((split '\n' text).reverse.take k),
          .bytes, false⟩) ∨ (k < maxLines ∧ k ≤ maxBytes + 1 ∧ ∃ before line,
      split '\n' text = before ++ line :: List.replicate k [] ∧ maxBytes < byteLength line + k ∧
      collectText maxLines maxBytes text = ⟨truncateStringToBytesFromEnd line (maxBytes - min k (maxBytes - 1)) ::
            List.replicate (min k (maxBytes - 1)) [],
          byteLength (truncateStringToBytesFromEnd line (maxBytes - min k (maxBytes - 1))) + min k (maxBytes - 1),
          .bytes, true⟩) := by
  have hlength : ((split '\n' text).reverse.take k).length = k := length_take_of_le hk.length_le
  have hlines := hk.lines_le
  have hbytes := hk.bytes_le
  have hfits := @collect_of_fits maxLines maxBytes ((split '\n' text).reverse.take k) [] 0
    (by rw [hlength, length_nil]; omega) (by rw [length_nil, Nat.zero_add]; exact hbytes)
    ((split '\n' text).reverse.drop k)
  rw [take_append_drop, append_nil, length_nil, Nat.zero_add] at hfits
  rw [collectText, hfits]
  cases hrest : (split '\n' text).reverse.drop k with
  | nil =>
    -- All lines were taken.
    have hall : (split '\n' text).length ≤ k := by
      rw [← length_reverse]
      exact drop_eq_nil_iff.1 hrest
    have hwhole := linesBytes_split text
    rw [take_of_length_le (by rw [length_reverse]; exact hall), hwhole] at hbytes
    exact absurd ⟨hall.trans hlines, hbytes⟩ h
  | cons line earlier =>
    rw [collect, length_reverse, hlength]
    by_cases hfull : maxLines ≤ k
    · rw [if_pos hfull]
      exact .inl ⟨Nat.le_antisymm hlines hfull, rfl⟩
    · have hover := hk.next_over hrest hfull
      rw [if_neg hfull]
      simp only []
      rw [if_pos hover]
      by_cases hblank : ∃ l ∈ (split '\n' text).reverse.take k, l ≠ []
      · have hall : ¬ ((split '\n' text).reverse.take k).reverse.all
            (fun collected => collected.length == 0) = true := by
          obtain ⟨l, hl, hne⟩ := hblank
          intro hall
          have hzero := all_eq_true.1 hall l (mem_reverse.2 hl)
          exact hne (length_eq_zero_iff.1 (beq_iff_eq.1 hzero))
        have hnext : (split '\n' text).reverse.take (k + 1) =
            (split '\n' text).reverse.take k ++ [line] := by
          rw [take_add, hrest]
          rfl
        rw [if_neg hall]
        refine .inr (.inl ⟨Nat.lt_of_not_le hfull, hblank, ?_, rfl⟩)
        rwa [hnext, linesBytes_append, hlength, Nat.zero_add, linesBytes, linesBytes, Nat.add_zero]
      · have htaken := eq_replicate_of_blank hblank
        rw [hlength] at htaken
        rw [htaken, linesBytes_blanks] at hbytes hover
        have hall : (List.replicate k ([] : List Char)).all (fun collected => collected.length == 0) = true := by
          simp
        have hlong : maxBytes < byteLength line + k := by
          split at hover <;> omega
        have hsplit : split '\n' text = earlier.reverse ++ line :: List.replicate k [] := by
          have happend := take_append_drop k (split '\n' text).reverse
          rw [htaken, hrest] at happend
          rw [← reverse_reverse (split '\n' text), ← happend, reverse_append, reverse_cons,
            reverse_replicate, append_assoc, singleton_append]
        have hmin : min (min k (maxBytes - 1)) k = min k (maxBytes - 1) := by omega
        rw [htaken, reverse_replicate, if_pos hall, Nat.zero_max, take_replicate, hmin]
        exact .inr (.inr ⟨Nat.lt_of_not_le hfull, by omega, earlier.reverse, line, hsplit, hlong, rfl⟩)

variable {line : List Char}

theorem collectText_of_long {earlier : List (List Char)}
    (hsplit : (split '\n' text).reverse = line :: earlier) (hlines : 0 < maxLines)
    (hlong : maxBytes < byteLength line) : collectText maxLines maxBytes text =
      ⟨[truncateStringToBytesFromEnd line maxBytes],
        byteLength (truncateStringToBytesFromEnd line maxBytes), .bytes, true⟩ := by
  rw [collectText, hsplit, collect]
  simp only [length_nil, Nat.lt_irrefl, if_false, Nat.add_zero, Nat.zero_add]
  rw [if_neg (Nat.not_le_of_lt hlines), if_pos hlong]
  simp

theorem collect_next {earlier out : List (List Char)} {count : Nat} (hout : out ≠ [])
    (hlong : maxBytes < count + (byteLength line + 1)) : collect maxLines maxBytes (line :: earlier) out count =
      if maxLines ≤ out.length then ⟨out, count, .lines, false⟩
      else if out.all (fun collected => collected.length == 0) then
        ⟨truncateStringToBytesFromEnd line (maxBytes - min out.length (max 0 (maxBytes - 1))) ::
            out.take (min out.length (max 0 (maxBytes - 1))),
          byteLength (truncateStringToBytesFromEnd line (maxBytes - min out.length (max 0 (maxBytes - 1)))) +
            min out.length (max 0 (maxBytes - 1)), .bytes, true⟩ else ⟨out, count, .bytes, false⟩ := by
  rw [collect]
  simp only [if_pos (length_pos_of_ne_nil hout)]
  rw [if_pos hlong]

/-- What is left of a line that is too long is the same for every line that ends alike. -/
theorem truncateStringToBytesFromEnd_append (h : maxBytes < byteLength line) (before : List Char) :
    truncateStringToBytesFromEnd (before ++ line) maxBytes = truncateStringToBytesFromEnd line maxBytes := by
  have hline : ¬ (encode line).length ≤ maxBytes := Nat.not_le_of_lt h
  have hskip : (encode before).length + (encode line).length - maxBytes =
      (encode before).length + ((encode line).length - maxBytes) := by omega
  unfold truncateStringToBytesFromEnd
  simp only [encode_append, length_append]
  rw [if_neg (by omega), if_neg hline, hskip, charBoundary_append, drop_length_add_append]

theorem truncateStringToBytesFromEnd_spec (line : List Char) (maxBytes : Nat) :
    truncateStringToBytesFromEnd line maxBytes <:+ line ∧
      byteLength (truncateStringToBytesFromEnd line maxBytes) ≤ maxBytes ∧
      ∀ more, more <:+ line → byteLength more ≤ maxBytes →
        more.length ≤ (truncateStringToBytesFromEnd line maxBytes).length := by
  unfold truncateStringToBytesFromEnd
  simp only []
  split
  · rename_i hfits
    exact ⟨suffix_rfl, hfits, fun more hmore _ => hmore.length_le⟩
  · rename_i hlong
    obtain ⟨u, v, rfl, hbound, hle, hlast⟩ :=
      charBoundary_spec line (Nat.sub_le (encode line).length maxBytes)
    rw [hbound, encode_append, drop_left, decode_encode]
    rw [encode_append, length_append] at hlong hle hlast
    refine ⟨suffix_append u v, ?_, ?_⟩
    · rw [byteLength]
      omega
    · intro more hmore hbytes
      refine Nat.le_of_not_lt fun hlt => ?_
      obtain rfl | ⟨u', c, rfl⟩ := eq_nil_or_concat u
      · exact absurd hmore.length_le (Nat.not_le_of_lt hlt)
      · -- One more character is already too much.
        rw [concat_eq_append] at hmore hlong hlast
        have hone : c :: v <:+ more := by
          refine suffix_of_suffix_length_le ?_ hmore hlt
          rw [append_assoc]
          exact suffix_append u' _
        have hbound := hlast u' c rfl
        have hmost := (byteLength_le_of_suffix hone).trans hbytes
        rw [encode_append, length_append] at hbound hlong
        have hcut : byteLength (c :: v) = (encode [c]).length + (encode v).length := byteLength_append [c] v
        omega

/-! ## The beginning of a text -/

theorem collectHead_of_fits : ∀ {out : List (List Char)} {count : Nat},
    out.length + lines.length ≤ maxLines → count + linesBytes out.length lines ≤ maxBytes →
    ∀ later, collectHead maxLines maxBytes (lines ++ later) out count =
      collectHead maxLines maxBytes later (out ++ lines) (count + linesBytes out.length lines) := by
  induction lines with
  | nil =>
    intro out count _ _ later
    rw [append_nil]
    rfl
  | cons line lines ih =>
    intro out count hlen hcount later
    rw [length_cons] at hlen
    rw [linesBytes] at hcount
    have hnext : (out ++ [line]).length = out.length + 1 := by simp
    rw [cons_append, collectHead, if_neg (by omega)]
    simp only []
    rw [if_neg (by omega), ih (by rw [hnext]; omega) (by rw [hnext]; omega), append_assoc,
      singleton_append, linesBytes, hnext, Nat.add_assoc]

theorem collectHead_taken (h : Taken maxLines maxBytes lines k) :
    collectHead maxLines maxBytes lines [] 0 = ⟨lines.take k, linesBytes 0 (lines.take k),
      if maxLines ≤ k ∨ lines.length ≤ k then .lines else .bytes, false⟩ := by
  have hlength : (lines.take k).length = k := length_take_of_le h.length_le
  have hlines := h.lines_le
  have hfits : collectHead maxLines maxBytes (lines.take k ++ lines.drop k) [] 0 =
      collectHead maxLines maxBytes (lines.drop k) ([] ++ lines.take k) (0 + linesBytes 0 (lines.take k)) :=
    collectHead_of_fits (by rw [hlength, length_nil]; omega)
      (by rw [length_nil, Nat.zero_add]; exact h.bytes_le) _
  rw [take_append_drop, nil_append, Nat.zero_add] at hfits
  rw [hfits]
  cases hrest : lines.drop k with
  | nil => rw [collectHead, if_pos (.inr (drop_eq_nil_iff.1 hrest))]
  | cons line later =>
    rw [collectHead, hlength]
    by_cases hfull : maxLines ≤ k
    · rw [if_pos hfull, if_pos (.inl hfull)]
    · have hlater : ¬ lines.length ≤ k := fun hall => by
        rw [drop_eq_nil_iff.2 hall] at hrest
        exact cons_ne_nil line later hrest.symm
      rw [if_neg hfull, if_neg (not_or_intro hfull hlater)]
      simp only []
      rw [if_pos (h.next_over hrest hfull)]

theorem Taken.eq_zero (h : Taken maxLines maxBytes lines k)
    (hfirst : maxBytes < byteLength (lines.headD [])) : k = 0 := by
  by_contra hpos
  have hmono : linesBytes 0 (lines.take 1) ≤ linesBytes 0 (lines.take k) :=
    linesBytes_take_mono (Nat.pos_of_ne_zero hpos)
  have hbytes := h.bytes_le
  cases lines with
  | nil => exact absurd hfirst (Nat.not_lt_zero maxBytes)
  | cons line later =>
    simp only [headD_cons] at hfirst
    simp [linesBytes] at hmono
    omega

/-- The beginning of a text that is over a limit is as many whole lines as the limits allow. -/
theorem truncateHead_content (h : ¬ Fits maxLines maxBytes text)
    (hk : Taken maxLines maxBytes (split '\n' text) k) :
    (truncateHead text { maxLines := some maxLines, maxBytes := some maxBytes }).content =
      join '\n' ((split '\n' text).take k) := by
  have hover : ¬ ((split '\n' text).length ≤ maxLines ∧ byteLength text ≤ maxBytes) := h
  rw [truncateHead]
  simp only [Option.getD_some, if_neg hover]
  by_cases hfirst : maxBytes < byteLength ((split '\n' text).headD [])
  · rw [if_pos hfirst]
    rw [hk.eq_zero hfirst]
    rfl
  · rw [if_neg hfirst]
    simp only [collectHead_taken hk]

end

end Truncate
end Tools
end RePrime
