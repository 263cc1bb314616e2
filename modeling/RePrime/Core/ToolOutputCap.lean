import RePrime.Lib.Binary64
import RePrime.Lib.Json
import RePrime.Lib.Text
import RePrime.Tools.Truncate

/-!
# RePrime.Core.ToolOutputCap

`capToolOutput`: a tool result that is too long is shown by its beginning and its end.

* `window`: the two parts, each cut by limits of its own.
* `HeadWindow`, `TailWindow`: the parts that those limits admit, of which `window` takes the longest.
* `shown_within_iff`: when both together are within the limits of the whole.
-/

namespace RePrime
namespace Core
namespace ToolOutputCap

open Tools.Truncate List Lines

/-! ## The cap -/

/-- All are doubles. The callers resolve the limits to positive integers, and the ratio to one between 0 and 1. -/
structure ToolOutputCapOptions where
  maxLines : Nat
  maxBytes : Nat
  headRatio : Rat
  maxLines_double : Binary64.round maxLines = maxLines
  maxBytes_double : Binary64.round maxBytes = maxBytes
  headRatio_double : Binary64.round headRatio = headRatio
  maxLines_pos : 0 < maxLines
  maxBytes_pos : 0 < maxBytes
  headRatio_nonneg : 0 ≤ headRatio
  headRatio_le_one : headRatio ≤ 1

inductive Part where
  | text (content : List Char)
  | image (data mimeType : List Char)
  deriving DecidableEq

def Part.text? : Part → Option (List Char)
  | .text content => some content
  | .image _ _ => none

def Part.imageBytes : Part → Nat
  | .text _ => 0
  | .image data _ => Text.length data * 3 / 4

/-- `writeScratchpad` answers with a path, or throws. -/
structure CapToolOutputInput where
  content : List Part
  existingFullOutputPath : Option (List Char)
  options : ToolOutputCapOptions
  writeScratchpad : List Char → Option (List Char)

structure CappedToolOutput where
  content : List Part
  capped : Bool
  fullOutputPath : Option (List Char)
  originalBytes : Nat

def beyondPointerOmitted : List Char := "[... middle omitted; see full output file ...]".toList

def exceedsOutputCap (text : List Char) (options : ToolOutputCapOptions) : Bool :=
  decide (options.maxBytes < byteLength text) || decide (options.maxLines < (split '\n' text).length)

def digits (n : Nat) : List Char := Json.natDigits (n + 1) n

def buildPointer (fullOutputPath : List Char) (totalLines totalBytes : Nat) (options : ToolOutputCapOptions) :
    List Char :=
  join '\n'
    ["[Output exceeded ".toList ++ digits options.maxLines ++ " lines / ".toList ++ digits options.maxBytes ++
        " bytes (".toList ++ digits totalLines ++ " lines, ".toList ++ digits totalBytes ++ " bytes).]".toList,
      "[Full output: ".toList ++ fullOutputPath ++ "]".toList,
      "[Use grep/awk/sed on that file to inspect specific sections.]".toList]

namespace ToolOutputCapOptions

variable (options : ToolOutputCapOptions)

def headLines : Nat := max 1 ⌊Binary64.round (options.maxLines * options.headRatio)⌋₊

def headBytes : Nat := max 1 ⌈Binary64.round (options.maxBytes * options.headRatio)⌉₊

-- a difference that is no double is of more lines than a text has
def tailLines : Nat := options.maxLines - options.headLines

end ToolOutputCapOptions

/-- What is kept of the beginning and of the end. -/
def window (text : List Char) (options : ToolOutputCapOptions) : List Char × List Char :=
  ((truncateHead text { maxLines := some options.headLines, maxBytes := some options.headBytes }).content,
    if 0 < options.tailLines then
      (truncateTail text { maxLines := some options.tailLines, maxBytes := some options.maxBytes }).content
    else [])

def textOf (content : List Part) : List Char := join '\n' (content.filterMap Part.text?)

def capToolOutput (input : CapToolOutputInput) : CappedToolOutput :=
  let restParts := input.content.filter fun part => part.text?.isNone
  let text := textOf input.content
  let originalBytes := byteLength text + (restParts.map Part.imageBytes).sum
  if exceedsOutputCap text input.options then
    match input.existingFullOutputPath.or (input.writeScratchpad text) with
    | none => { content := input.content, capped := false, fullOutputPath := none, originalBytes := 0 }
    | some path =>
      let parts := window text input.options
      let sections := [parts.1, parts.2].filter fun part => part ≠ []
      let windowed := List.intercalate ('\n' :: beyondPointerOmitted ++ ['\n']) sections
      let pointer := buildPointer path (split '\n' text).length (byteLength text) input.options
      let bounded := if 0 < windowed.length then windowed ++ '\n' :: pointer else pointer
      { content := .text bounded :: restParts, capped := true, fullOutputPath := some path, originalBytes }
  else { content := input.content, capped := false, fullOutputPath := none, originalBytes }

/-- The parts of the text that the result shows. -/
def shown (input : CapToolOutputInput) : List Char × List Char :=
  if (capToolOutput input).capped then window (textOf input.content) input.options else (textOf input.content, [])

/-! ## Within the limits -/

/-- A part that is empty is left out. -/
def lineCount (part : List Char) : Nat := if part = [] then 0 else (split '\n' part).length

/-- The parts are the beginning and the end of a text, do not overlap, and are within the limits together. -/
structure Within (text : List Char) (options : ToolOutputCapOptions) (parts : List Char × List Char) : Prop where
  lines : lineCount parts.1 + lineCount parts.2 ≤ options.maxLines
  bytes : byteLength parts.1 + byteLength parts.2 ≤ options.maxBytes
  head : parts.1 <+: text
  tail : parts.2 <:+ text
  disjoint : parts.1.length + parts.2.length ≤ text.length

/-- Whole lines at the beginning that are within the limits of the beginning. -/
def HeadWindow (text : List Char) (options : ToolOutputCapOptions) (head : List Char) : Prop :=
  ∃ k ≤ options.headLines, head = join '\n' ((split '\n' text).take k) ∧ byteLength head ≤ options.headBytes

/-- The end of a line that is too long, with blank lines after it, of which one byte of the limit is not for them. -/
def rescued (maxBytes : Nat) (line : List Char) (blanks : Nat) : List Char :=
  truncateStringToBytesFromEnd line (maxBytes - min blanks (maxBytes - 1)) ++
    List.replicate (min blanks (maxBytes - 1)) '\n'

/-- Whole lines at the end that are within the limits of the end, and not only blank ones if there may be more;
or the end of a line that is too long, if only blank ones come after it. -/
inductive TailWindow (text : List Char) (options : ToolOutputCapOptions) : List Char → Prop
  | whole (before lines : List (List Char)) (hsplit : split '\n' text = before ++ lines)
      (hlines : lines.length ≤ options.tailLines)
      (hbytes : byteLength (join '\n' lines) ≤ options.maxBytes)
      (hblank : (∃ line ∈ lines, line ≠ []) ∨ lines.length = options.tailLines) :
      TailWindow text options (join '\n' lines)
  | cut (before : List (List Char)) (line : List Char) (blanks : Nat)
      (hsplit : split '\n' text = before ++ line :: List.replicate blanks [])
      (hlines : blanks < options.tailLines) (hblanks : blanks ≤ options.maxBytes + 1)
      (hlong : options.maxBytes < byteLength line + blanks) :
      TailWindow text options (rescued options.maxBytes line blanks)

/-! ## The limits of the parts -/

section Limits

variable (options : ToolOutputCapOptions)

theorem round_share_le {limit : Nat} (h : Binary64.round limit = limit) :
    Binary64.round (limit * options.headRatio) ≤ limit :=
  Binary64.round_le (mul_nonneg (Nat.cast_nonneg _) options.headRatio_nonneg) h
    (mul_le_of_le_one_right (Nat.cast_nonneg _) options.headRatio_le_one)

theorem headLines_le : options.headLines ≤ options.maxLines := by
  rw [ToolOutputCapOptions.headLines, max_le_iff]
  exact ⟨options.maxLines_pos, Nat.floor_le_of_le (round_share_le options options.maxLines_double)⟩

theorem headBytes_le : options.headBytes ≤ options.maxBytes := by
  rw [ToolOutputCapOptions.headBytes, max_le_iff, Nat.ceil_le]
  exact ⟨options.maxBytes_pos, round_share_le options options.maxBytes_double⟩

theorem headLines_add_tailLines : options.headLines + options.tailLines = options.maxLines :=
  Nat.add_sub_cancel' (headLines_le options)

end Limits

theorem exceedsOutputCap_iff {text : List Char} {options : ToolOutputCapOptions} :
    exceedsOutputCap text options = true ↔ ¬ Fits options.maxLines options.maxBytes text := by
  rw [exceedsOutputCap, Bool.or_eq_true, decide_eq_true_iff, decide_eq_true_iff, Fits]
  omega

section Window

variable {text : List Char} {options : ToolOutputCapOptions}

variable {maxLines maxBytes : Nat}

theorem not_fits_of_exceeds (h : ¬ Fits options.maxLines options.maxBytes text)
    (hlines : maxLines ≤ options.maxLines) (hbytes : maxBytes ≤ options.maxBytes) : ¬ Fits maxLines maxBytes text := by
  intro hfits
  exact h ⟨hfits.1.trans hlines, hfits.2.trans hbytes⟩

theorem take_prefix (k : Nat) : join '\n' ((split '\n' text).take k) <+: text := by
  have hprefix : join '\n' ((split '\n' text).take k) <+:
      join '\n' ((split '\n' text).take k ++ (split '\n' text).drop k) := join_prefix _ _
  rwa [take_append_drop, join_split] at hprefix

theorem lineCount_join {lines : List (List Char)} (h : ∀ line ∈ lines, '\n' ∉ line) :
    lineCount (join '\n' lines) ≤ lines.length := by
  rw [lineCount]
  split
  · exact Nat.zero_le _
  · rename_i hne
    by_cases hnil : lines = []
    · exact absurd (by rw [hnil]; rfl) hne
    · rw [split_join hnil h]

/-! ## The head -/

theorem headWindow_window (h : ¬ Fits options.maxLines options.maxBytes text) :
    HeadWindow text options (window text options).1 := by
  have hover := not_fits_of_exceeds h (headLines_le options) (headBytes_le options)
  obtain ⟨k, hk⟩ := exists_taken options.headLines options.headBytes (split '\n' text)
  refine ⟨k, hk.lines_le, truncateHead_content hover hk, ?_⟩
  rw [window, truncateHead_content hover hk, byteLength_join_eq]
  exact hk.bytes_le

variable {head : List Char}

theorem headWindow_le (h : ¬ Fits options.maxLines options.maxBytes text)
    (hhead : HeadWindow text options head) : byteLength head ≤ byteLength (window text options).1 := by
  have hover := not_fits_of_exceeds h (headLines_le options) (headBytes_le options)
  obtain ⟨k, hk⟩ := exists_taken options.headLines options.headBytes (split '\n' text)
  obtain ⟨j, hj, rfl, hbytes⟩ := hhead
  rw [byteLength_join_eq] at hbytes ⊢
  rw [window, truncateHead_content hover hk, byteLength_join_eq]
  have htake : (split '\n' text).take j = (split '\n' text).take (min j (split '\n' text).length) := by
    rw [← take_take, take_length]
  rw [htake] at hbytes ⊢
  exact linesBytes_take_mono (hk.le (Nat.min_le_right _ _) ((Nat.min_le_left _ _).trans hj) hbytes)

/-! ## The tail -/

theorem collect_blanks {blanks : Nat} {line : List Char} (earlier : List (List Char))
    (hlines : blanks < maxLines) (hlong : maxBytes < byteLength line + blanks) :
    join '\n' (collect maxLines maxBytes (line :: earlier) (List.replicate blanks []) (blanks - 1)).outputLinesArr =
      rescued maxBytes line blanks := by
  have hblank : (List.replicate blanks ([] : List Char)).all (fun collected => collected.length == 0) = true := by simp
  have hover : maxBytes < blanks - 1 + (byteLength line +
      (if 0 < (List.replicate blanks ([] : List Char)).length then 1 else 0)) := by
    rw [length_replicate]
    split <;> omega
  rw [collect]
  simp only []
  rw [if_neg (by rw [length_replicate]; omega), if_pos hover, if_pos hblank]
  have hmin : min (min blanks (maxBytes - 1)) blanks = min blanks (maxBytes - 1) := by omega
  simp only [length_replicate, Nat.zero_max, take_replicate, hmin, join_replicate_nil, rescued]

theorem collectText_append {before lines : List (List Char)} (hsplit : split '\n' text = before ++ lines)
    (hlines : lines.length ≤ maxLines) (hbytes : linesBytes 0 lines ≤ maxBytes) :
    collectText maxLines maxBytes text = collect maxLines maxBytes before.reverse lines (linesBytes 0 lines) := by
  have hfits := @collect_of_fits maxLines maxBytes lines.reverse [] 0
    (by rw [length_nil, length_reverse, Nat.zero_add]; exact hlines)
    (by rw [length_nil, Nat.zero_add, linesBytes_reverse]; exact hbytes) before.reverse
  rw [reverse_reverse, append_nil, length_nil, Nat.zero_add, linesBytes_reverse] at hfits
  rw [collectText, hsplit, reverse_append, hfits]

theorem window_tail (h : ¬ Fits options.maxLines options.maxBytes text) (hpos : 0 < options.tailLines) :
    (window text options).2 = join '\n' (collectText options.tailLines options.maxBytes text).outputLinesArr := by
  have hover : ¬ Fits options.tailLines options.maxBytes text :=
    not_fits_of_exceeds h (Nat.sub_le _ _) (Nat.le_refl _)
  rw [window]
  simp only []
  rw [if_pos hpos, truncateTail_of_over hover]
  rfl

theorem tailWindow_window (h : ¬ Fits options.maxLines options.maxBytes text) :
    TailWindow text options (window text options).2 := by
  by_cases hpos : 0 < options.tailLines
  · have hover : ¬ Fits options.tailLines options.maxBytes text :=
      not_fits_of_exceeds h (Nat.sub_le _ _) (Nat.le_refl _)
    obtain ⟨k, hk⟩ := exists_taken options.tailLines options.maxBytes (split '\n' text).reverse
    have hlength : ((split '\n' text).reverse.take k).reverse.length = k := by
      rw [length_reverse]
      exact length_take_of_le hk.length_le
    have hbytes : byteLength (join '\n' ((split '\n' text).reverse.take k).reverse) ≤ options.maxBytes := by
      rw [byteLength_join_eq, linesBytes_reverse]
      exact hk.bytes_le
    have hsplit : split '\n' text =
        ((split '\n' text).reverse.drop k).reverse ++ ((split '\n' text).reverse.take k).reverse := by
      rw [← reverse_append, take_append_drop, reverse_reverse]
    rw [window_tail h hpos]
    rcases collectText_cases hover hk with ⟨hfull, hc⟩ | ⟨-, ⟨line, hline, hne⟩, -, hc⟩ |
      ⟨hlt, hle, before, line, hcut, hlong, hc⟩
    · rw [hc]
      exact .whole _ _ hsplit (hlength.le.trans hk.lines_le) hbytes (.inr (hlength.trans hfull))
    · rw [hc]
      exact .whole _ _ hsplit (hlength.le.trans hk.lines_le) hbytes (.inl ⟨line, mem_reverse.2 hline, hne⟩)
    · rw [hc, join_replicate_nil]
      exact .cut before line k hcut hlt hle hlong
  · have hzero : options.tailLines = 0 := Nat.eq_zero_of_not_pos hpos
    rw [window, if_neg hpos]
    exact .whole (split '\n' text) [] (append_nil _).symm (Nat.zero_le _) (Nat.zero_le _) (.inr hzero.symm)

variable {tail : List Char}

theorem tailWindow_le (h : ¬ Fits options.maxLines options.maxBytes text) (htail : TailWindow text options tail) :
    tail = (window text options).2 ∨ tail <:+ text ∧ byteLength tail ≤ byteLength (window text options).2 := by
  cases htail with
  | whole before lines hsplit hlines hbytes hblank =>
    have hsuffix : join '\n' lines <:+ text := by
      have hjoin : join '\n' lines <:+ join '\n' (before ++ lines) := join_suffix _ _
      rwa [← hsplit, join_split] at hjoin
    rw [byteLength_join_eq] at hbytes
    by_cases hpos : 0 < options.tailLines
    · rw [window_tail h hpos, collectText_append hsplit hlines hbytes]
      by_cases hfull : lines.length = options.tailLines
      · left
        cases before.reverse with
        | nil => rfl
        | cons line earlier => rw [collect, if_pos (Nat.le_of_eq hfull.symm)]
      · obtain ⟨front, hfront⟩ := collect_extends options.tailLines options.maxBytes before.reverse
          (linesBytes 0 lines) (hblank.resolve_right hfull)
        right
        refine ⟨hsuffix, ?_⟩
        rw [hfront]
        exact byteLength_le_of_suffix (join_suffix front lines)
    · right
      have hnil : lines = [] := eq_nil_of_length_eq_zero (by omega)
      exact ⟨hsuffix, by rw [hnil]; exact Nat.zero_le _⟩
  | cut before line blanks hsplit hlines hblanks hlong =>
    left
    have hsplit' : split '\n' text = (before ++ [line]) ++ List.replicate blanks [] := by
      rw [hsplit, append_assoc, singleton_append]
    rw [window_tail h (by omega), collectText_append hsplit' (by rw [length_replicate]; omega)
      (by rw [linesBytes_blanks]; omega), reverse_append, reverse_singleton, singleton_append,
      linesBytes_blanks, collect_blanks before.reverse hlines hlong]

/-! ## Both parts -/

theorem lineCount_of_ne_nil {part : List Char} (h : part ≠ []) : lineCount part = part.count '\n' + 1 := by
  rw [lineCount, if_neg h, length_split]

/-- A beginning and an end that overlap are too long together, since the text is. -/
theorem disjoint_of_within (h : ¬ Fits options.maxLines options.maxBytes text)
    (hhead : head <+: text) (htail : tail <:+ text) (hlines : lineCount head + lineCount tail ≤ options.maxLines)
    (hbytes : byteLength head + byteLength tail ≤ options.maxBytes) : head.length + tail.length ≤ text.length := by
  by_contra hoverlap
  obtain ⟨rest, rfl⟩ := hhead
  have hlength := htail.length_le
  rw [length_append] at hoverlap hlength
  -- The tail covers what the head leaves.
  have hrest : rest <:+ tail := by
    refine suffix_of_suffix_length_le (suffix_append head rest) htail ?_
    omega
  have hne : head ≠ [] ∧ tail ≠ [] := by
    constructor
    · rintro rfl
      rw [length_nil] at hoverlap hlength
      omega
    · rintro rfl
      rw [length_nil] at hoverlap
      omega
  rw [lineCount_of_ne_nil hne.1, lineCount_of_ne_nil hne.2] at hlines
  have hcount := hrest.sublist.count_le '\n'
  have hle := byteLength_le_of_suffix hrest
  apply h
  constructor
  · rw [length_split, count_append]
    omega
  · rw [byteLength_append]
    omega

theorem lineCount_head_le (hhead : HeadWindow text options head) : lineCount head ≤ options.headLines := by
  obtain ⟨k, hk, rfl, -⟩ := hhead
  refine (lineCount_join ?_).trans ((length_take_le _ _).trans hk)
  intro line hline
  exact sep_not_mem_of_mem_split (mem_of_mem_take hline)

theorem lineCount_tail_le (htail : TailWindow text options tail) : lineCount tail ≤ options.tailLines := by
  cases htail with
  | whole before lines hsplit hlines hbytes hblank =>
    refine (lineCount_join ?_).trans hlines
    intro line hline
    have hmem : line ∈ split '\n' text := by
      rw [hsplit]
      exact mem_append_right _ hline
    exact sep_not_mem_of_mem_split hmem
  | cut before line blanks hsplit hlines hblanks hlong =>
    have hmem : line ∈ split '\n' text := by
      rw [hsplit]
      exact mem_append_right _ mem_cons_self
    have hline := sep_not_mem_of_mem_split hmem
    rw [rescued, ← join_replicate_nil]
    refine (lineCount_join ?_).trans ?_
    · intro l hl
      obtain rfl | hl := mem_cons.1 hl
      · exact fun hmem => hline ((truncateStringToBytesFromEnd_spec line _).1.subset hmem)
      · rw [eq_of_mem_replicate hl]
        exact not_mem_nil
    · rw [length_cons, length_replicate]
      omega

/-- The parts of a text that is too long are within the limits when all that the two windows admit is. -/
theorem window_within_iff (h : ¬ Fits options.maxLines options.maxBytes text) :
    Within text options (window text options) ↔ ∀ head tail, HeadWindow text options head →
      TailWindow text options tail → tail <:+ text ∧ byteLength head + byteLength tail ≤ options.maxBytes := by
  have hhead := headWindow_window h
  have htail := tailWindow_window h
  constructor
  · intro hwithin head tail hhead' htail'
    have hbytes := hwithin.bytes
    have hle := headWindow_le h hhead'
    obtain rfl | ⟨hsuffix, hle'⟩ := tailWindow_le h htail'
    · exact ⟨hwithin.tail, by omega⟩
    · exact ⟨hsuffix, by omega⟩
  · intro hall
    obtain ⟨hsuffix, hbytes⟩ := hall _ _ hhead htail
    have hprefix : (window text options).1 <+: text := by
      obtain ⟨k, -, heq, -⟩ := hhead
      rw [heq]
      exact take_prefix k
    have hlines : lineCount (window text options).1 + lineCount (window text options).2 ≤ options.maxLines := by
      rw [← headLines_add_tailLines options]
      exact Nat.add_le_add (lineCount_head_le hhead) (lineCount_tail_le htail)
    exact ⟨hlines, hbytes, hprefix, hsuffix, disjoint_of_within h hprefix hsuffix hlines hbytes⟩

theorem within_all_iff : Within text options (text, []) ↔ Fits options.maxLines options.maxBytes text := by
  constructor
  · intro h
    have hlines := h.lines
    refine ⟨?_, by simpa [byteLength, Utf8.encode] using h.bytes⟩
    by_cases hnil : text = []
    · rw [hnil]
      exact options.maxLines_pos
    · rw [lineCount, if_neg hnil] at hlines
      exact (Nat.le_add_right _ _).trans hlines
  · intro h
    refine ⟨?_, by simpa [byteLength, Utf8.encode] using h.2, prefix_rfl, nil_suffix, by simp⟩
    rw [lineCount, lineCount]
    split
    · exact Nat.zero_le _
    · exact h.1

end Window

/-- The result shows parts within the limits exactly when the text is, or when it is saved and no beginning and
end that their own limits admit are too long together. -/
theorem shown_within_iff (input : CapToolOutputInput) : Within (textOf input.content) input.options (shown input) ↔
      exceedsOutputCap (textOf input.content) input.options = false ∨
        (input.existingFullOutputPath.or (input.writeScratchpad (textOf input.content))).isSome ∧
          ∀ head tail, HeadWindow (textOf input.content) input.options head →
            TailWindow (textOf input.content) input.options tail →
              tail <:+ textOf input.content ∧ byteLength head + byteLength tail ≤ input.options.maxBytes := by
  rw [shown, capToolOutput]
  cases hexceeds : exceedsOutputCap (textOf input.content) input.options with
  | false =>
    have hfits : Fits input.options.maxLines input.options.maxBytes (textOf input.content) := by
      by_contra hover
      rw [exceedsOutputCap_iff.2 hover] at hexceeds
      cases hexceeds
    simpa [hexceeds] using within_all_iff.2 hfits
  | true =>
    have hover := exceedsOutputCap_iff.1 hexceeds
    cases hpath : input.existingFullOutputPath.or (input.writeScratchpad (textOf input.content)) with
    | none => simpa [hexceeds, hpath] using mt within_all_iff.1 hover
    | some path => simpa [hexceeds, hpath] using window_within_iff hover

/-- Four lines and six bytes. -/
def tight : ToolOutputCapOptions where
  maxLines := 4
  maxBytes := 6
  headRatio := 1 / 2
  maxLines_double := by decide +kernel
  maxBytes_double := by decide +kernel
  headRatio_double := by decide +kernel
  maxLines_pos := by decide
  maxBytes_pos := by decide
  headRatio_nonneg := by norm_num
  headRatio_le_one := by norm_num

/-- Three lines of eight bytes: the second is shown twice. -/
def threeLines : CapToolOutputInput :=
  ⟨[.text "a\nb\ncccc".toList], none, tight, fun _ => some "/full".toList⟩

theorem shown_repeats : shown threeLines = ("a\nb".toList, "b\ncccc".toList) ∧
    ¬ Within (textOf threeLines.content) tight (shown threeLines) := by
  have hshown : shown threeLines = ("a\nb".toList, "b\ncccc".toList) := by decide +kernel
  refine ⟨hshown, ?_⟩
  intro h
  have hbytes := h.bytes
  rw [hshown] at hbytes
  exact absurd hbytes (by decide)

end ToolOutputCap
end Core
end RePrime
