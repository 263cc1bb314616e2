import RePrime.Tools.Truncate

/-!
# RePrime.Tools.TruncateLimits

What `truncateHead` and `truncateTail` return and report, for every text and all limits.

* `Longest`: as many whole lines as both limits allow, and the limit that the next line is over.
* `CutTail`: the end of a line that is too long, with blank lines after it.
* `truncation_limits`: the one or the other is returned, and the report is about what is returned.
-/

namespace RePrime
namespace Tools
namespace Truncate

open List Lines

/-- What a result says about the text, about the limits and about its own content. -/
structure Reported (maxLines maxBytes : Nat) (text : List Char) (r : TruncationResult) : Prop where
  limits : r.maxLines = maxLines ∧ r.maxBytes = maxBytes
  totalLines : r.totalLines = (split '\n' text).length
  totalBytes : r.totalBytes = byteLength text
  outputLines : r.outputLines = (split '\n' r.content).length ∨ r.outputLines = 0 ∧ r.content = []
  outputBytes : r.outputBytes = byteLength r.content
  lines_le : r.outputLines ≤ maxLines
  bytes_le : byteLength r.content ≤ maxBytes
  truncated : r.truncated = true ↔ ¬ Fits maxLines maxBytes text
  limit : r.truncatedBy = none ↔ r.truncated = false

/-- The first of the lines, as many as both limits allow, and the limit that the next one is over. -/
structure Longest (maxLines maxBytes : Nat) (lines kept : List (List Char)) (truncatedBy : Option TruncatedBy) :
    Prop where
  part : kept <+: lines
  lines_le : kept.length ≤ maxLines
  bytes_le : linesBytes 0 kept ≤ maxBytes
  longest : ∀ more, more <+: lines → more.length ≤ maxLines → linesBytes 0 more ≤ maxBytes →
    more.length ≤ kept.length
  whole : truncatedBy = none ↔ kept = lines
  byLines : truncatedBy = some .lines → kept.length = maxLines
  byBytes : truncatedBy = some .bytes → maxBytes < linesBytes 0 (lines.take (kept.length + 1))

/-- The end of the last line that is not blank, as long as the bytes allow, and one byte for each blank line after
it that is kept. -/
structure CutTail (maxLines maxBytes : Nat) (text : List Char) (r : TruncationResult) (before : List (List Char))
    (line cut : List Char) (blanks kept : Nat) : Prop where
  split : split '\n' text = before ++ line :: List.replicate blanks []
  long : maxBytes < byteLength line + blanks
  kept_eq : kept = min blanks (maxBytes - 1)
  part : cut <:+ line
  bytes_le : byteLength cut ≤ maxBytes - kept
  longest : ∀ more, more <:+ line → byteLength more ≤ maxBytes - kept → more.length ≤ cut.length
  content : r.content = cut ++ List.replicate kept '\n'
  suffix : r.content ++ List.replicate (blanks - kept) '\n' <:+ text
  outputLines : r.outputLines = kept + 1
  limit : r.outputLines < maxLines → r.truncatedBy = some .bytes

section

variable {maxLines maxBytes : Nat} {text : List Char}

theorem Fits.reported (h : Fits maxLines maxBytes text) : Reported maxLines maxBytes text
    { content := text, truncated := false, truncatedBy := none, totalLines := (split '\n' text).length
      totalBytes := byteLength text, outputLines := (split '\n' text).length, outputBytes := byteLength text
      lastLinePartial := false, firstLineExceedsLimit := false, maxLines, maxBytes } where
  limits := ⟨rfl, rfl⟩
  totalLines := rfl
  totalBytes := rfl
  outputLines := .inl rfl
  outputBytes := rfl
  lines_le := h.1
  bytes_le := h.2
  truncated := iff_of_false nofun (not_not_intro h)
  limit := iff_of_true rfl rfl

theorem reported_ofCollected (h : ¬ Fits maxLines maxBytes text) {collected : Collected}
    (hlines : collected.outputLinesArr.length ≤ maxLines) (hbytes : linesBytes 0 collected.outputLinesArr ≤ maxBytes)
    (hparts : ∀ line ∈ collected.outputLinesArr, '\n' ∉ line) : Reported maxLines maxBytes text
      (ofCollected maxLines maxBytes (split '\n' text).length (byteLength text) collected) where
  limits := ⟨rfl, rfl⟩
  totalLines := rfl
  totalBytes := rfl
  outputLines := by
    by_cases hnil : collected.outputLinesArr = []
    · refine .inr ⟨?_, ?_⟩
      · rw [ofCollected, hnil, length_nil]
      · rw [ofCollected, hnil]
        rfl
    · exact .inl (by rw [ofCollected, split_join hnil hparts])
  outputBytes := rfl
  lines_le := hlines
  bytes_le := by
    rw [ofCollected, byteLength_join_eq]
    exact hbytes
  truncated := iff_of_true rfl h
  limit := iff_of_false nofun nofun

variable {lines : List (List Char)}

theorem Fits.longest (h : Fits maxLines maxBytes text)
    (hlength : lines.length = (split '\n' text).length) (hbytes : linesBytes 0 lines = byteLength text) :
    Longest maxLines maxBytes lines lines none where
  part := prefix_rfl
  lines_le := hlength.le.trans h.1
  bytes_le := hbytes.le.trans h.2
  longest _ hmore _ _ := hmore.length_le
  whole := iff_of_true rfl rfl
  byLines := nofun
  byBytes := nofun

variable {k : Nat}

/-- Lines that were taken before the end, with the limit that is reported for them. -/
theorem Taken.longest {out : List (List Char)} (hk : Taken maxLines maxBytes lines k)
    (hlt : k < lines.length) (hout : out.length = k) {reason : TruncatedBy} (hreason : k < maxLines → reason = .bytes)
    (totalLines totalBytes : Nat) : Longest maxLines maxBytes lines (lines.take k)
      (ofCollected maxLines maxBytes totalLines totalBytes
        ⟨out, linesBytes 0 (lines.take k), reason, false⟩).truncatedBy := by
  have hlength : (lines.take k).length = k := length_take_of_le hk.length_le
  refine ⟨ take_prefix k lines, hlength.le.trans hk.lines_le, hk.bytes_le, ?_, ?_, ?_, ?_⟩
  · intro more hmore hfew hsmall
    rw [prefix_iff_eq_take.1 hmore] at hsmall
    rw [hlength]
    exact hk.le hmore.length_le hfew hsmall
  · refine iff_of_false nofun fun hall => ?_
    rw [hall] at hlength
    omega
  · rw [hlength, ofCollected, hout, Option.some.injEq]
    by_cases hfull : maxLines ≤ k
    · exact fun _ => Nat.le_antisymm hk.lines_le hfull
    · rw [if_neg fun h => hfull h.1, hreason (Nat.lt_of_not_le hfull)]
      exact nofun
  · rw [hlength, ofCollected, hout, Option.some.injEq]
    by_cases hfull : maxLines ≤ k
    · rw [if_pos ⟨hfull, hk.bytes_le⟩]
      exact nofun
    · have hnext := hk.next
      exact fun _ => by omega

theorem Taken.lt_of_over (hk : Taken maxLines maxBytes lines k)
    (h : ¬ Fits maxLines maxBytes text) (hbytes : linesBytes 0 lines = byteLength text)
    (hlength : lines.length = (split '\n' text).length) : k < lines.length := by
  refine Nat.lt_of_le_of_ne hk.length_le fun hall => h ⟨hlength ▸ hall ▸ hk.lines_le, ?_⟩
  have hle := hk.bytes_le
  rwa [hall, take_length, hbytes] at hle

/-- The content is whole lines from the end of the text. -/
def WholeTail (maxLines maxBytes : Nat) (text : List Char) (r : TruncationResult) : Prop :=
  ∃ kept, Longest maxLines maxBytes (split '\n' text).reverse kept r.truncatedBy ∧
    r.content = join '\n' kept.reverse ∧ r.outputLines = kept.length ∧ r.content <:+ text

/-- The content is whole lines from the beginning of the text. -/
def WholeHead (maxLines maxBytes : Nat) (text : List Char) (r : TruncationResult) : Prop :=
  ∃ kept, Longest maxLines maxBytes (split '\n' text) kept r.truncatedBy ∧
    r.content = join '\n' kept ∧ r.outputLines = kept.length ∧ r.content <+: text

variable {r : TruncationResult}

theorem wholeTail_of_longest {kept : List (List Char)}
    (h : Longest maxLines maxBytes (split '\n' text).reverse kept r.truncatedBy)
    (hcontent : r.content = join '\n' kept.reverse) (hlines : r.outputLines = kept.length) :
    WholeTail maxLines maxBytes text r := by
  refine ⟨kept, h, hcontent, hlines, ?_⟩
  obtain ⟨rest, hrest⟩ := h.part
  rw [hcontent, ← @Lines.join_split _ _ '\n' text, ← reverse_reverse (split '\n' text), ← hrest, reverse_append]
  exact join_suffix _ _

theorem wholeHead_of_longest {kept : List (List Char)}
    (h : Longest maxLines maxBytes (split '\n' text) kept r.truncatedBy)
    (hcontent : r.content = join '\n' kept) (hlines : r.outputLines = kept.length) :
    WholeHead maxLines maxBytes text r := by
  refine ⟨kept, h, hcontent, hlines, ?_⟩
  obtain ⟨rest, hrest⟩ := h.part
  rw [hcontent, ← @Lines.join_split _ _ '\n' text, ← hrest]
  exact join_prefix _ _

/-! ## The end of a text -/

/-- The last line that is not blank was cut, and as many blank lines as the bytes allow are kept after it. -/
theorem cutTail_of_split {before : List (List Char)} {line : List Char} {blanks : Nat}
    (hsplit : split '\n' text = before ++ line :: List.replicate blanks [])
    (hlong : maxBytes < byteLength line + blanks) :
    CutTail maxLines maxBytes text (ofCollected maxLines maxBytes (split '\n' text).length (byteLength text)
      ⟨truncateStringToBytesFromEnd line (maxBytes - min blanks (maxBytes - 1)) ::
          List.replicate (min blanks (maxBytes - 1)) [],
        byteLength (truncateStringToBytesFromEnd line (maxBytes - min blanks (maxBytes - 1))) +
          min blanks (maxBytes - 1), .bytes, true⟩)
      before line (truncateStringToBytesFromEnd line (maxBytes - min blanks (maxBytes - 1))) blanks
      (min blanks (maxBytes - 1)) := by
  obtain ⟨hpart, hbytes, hmost⟩ := truncateStringToBytesFromEnd_spec line (maxBytes - min blanks (maxBytes - 1))
  refine ⟨hsplit, hlong, rfl, hpart, hbytes, hmost, join_replicate_nil _ _, ?_, ?_, ?_⟩
  · rw [ofCollected, join_replicate_nil, append_assoc, replicate_append_replicate,
      Nat.add_sub_cancel' (Nat.min_le_left blanks (maxBytes - 1)), ← @Lines.join_split _ _ '\n' text, hsplit]
    refine List.IsSuffix.trans ?_ (join_suffix before (line :: List.replicate blanks []))
    obtain ⟨front, hfront⟩ := hpart
    rw [join_replicate_nil]
    exact ⟨front, by rw [← append_assoc, hfront]⟩
  · rw [ofCollected, length_cons, length_replicate]
  · intro hlt
    rw [ofCollected] at hlt ⊢
    rw [if_neg fun hfull => absurd hfull.1 (Nat.not_le_of_lt hlt)]

theorem ofCollected_tail (h : ¬ Fits maxLines maxBytes text)
    (hk : Taken maxLines maxBytes (split '\n' text).reverse k) {reason : TruncatedBy}
    (hreason : k < maxLines → reason = .bytes)
    (hr : ofCollected maxLines maxBytes (split '\n' text).length (byteLength text)
      ⟨((split '\n' text).reverse.take k).reverse, linesBytes 0 ((split '\n' text).reverse.take k),
        reason, false⟩ = r) : Reported maxLines maxBytes text r ∧ WholeTail maxLines maxBytes text r := by
  have hlt := hk.lt_of_over h (linesBytes_split text) length_reverse
  have hlength : ((split '\n' text).reverse.take k).length = k := length_take_of_le hk.length_le
  have hlongest := hk.longest hlt ((length_reverse ..).trans hlength) hreason (split '\n' text).length
    (byteLength text)
  subst hr
  refine ⟨reported_ofCollected h ?_ ?_ ?_, wholeTail_of_longest hlongest rfl (length_reverse ..)⟩
  · rw [length_reverse, hlength]
    exact hk.lines_le
  · rw [linesBytes_reverse]
    exact hk.bytes_le
  · intro line hline
    exact sep_not_mem_of_mem_split (mem_reverse.1 (mem_of_mem_take (mem_reverse.1 hline)))

theorem truncateTail_limits (maxLines maxBytes : Nat) (text : List Char)
    (hr : truncateTail text { maxLines := some maxLines, maxBytes := some maxBytes } = r) :
    Reported maxLines maxBytes text r ∧ (r.lastLinePartial = false → WholeTail maxLines maxBytes text r) ∧
      (r.lastLinePartial = true →
        ∃ before line cut blanks kept, CutTail maxLines maxBytes text r before line cut blanks kept) := by
  by_cases h : Fits maxLines maxBytes text
  · rw [truncateTail_of_fits h] at hr
    subst hr
    have hlines := @List.length_reverse _ (split '\n' text)
    refine ⟨h.reported, fun _ => wholeTail_of_longest (h.longest hlines (linesBytes_split text)) ?_ hlines.symm, nofun⟩
    rw [reverse_reverse, join_split]
  · obtain ⟨k, hk⟩ := exists_taken maxLines maxBytes (split '\n' text).reverse
    rw [truncateTail_of_over h] at hr
    obtain ⟨hfull, hc⟩ | ⟨hfew, -, -, hc⟩ | ⟨hfew, -, before, line, hsplit, hlong, hc⟩ := collectText_cases h hk
    · rw [hc] at hr
      obtain ⟨hreported, hwhole⟩ := ofCollected_tail h hk (fun hfew => absurd hfull hfew.ne) hr
      subst hr
      exact ⟨hreported, fun _ => hwhole, nofun⟩
    · rw [hc] at hr
      obtain ⟨hreported, hwhole⟩ := ofCollected_tail h hk (fun _ => rfl) hr
      subst hr
      exact ⟨hreported, fun _ => hwhole, nofun⟩
    · rw [hc] at hr
      subst hr
      obtain ⟨hpart, hbytes, -⟩ := truncateStringToBytesFromEnd_spec line (maxBytes - min k (maxBytes - 1))
      refine ⟨reported_ofCollected h ?_ ?_ ?_, nofun, fun _ => ⟨_, _, _, _, _, cutTail_of_split hsplit hlong⟩⟩
      · rw [length_cons, length_replicate]
        omega
      · have hblank : byteLength [] + 1 = 1 := rfl
        rw [linesBytes, linesBytes_succ, if_neg (Nat.lt_irrefl 0), map_replicate, sum_replicate_nat, hblank]
        omega
      · rw [forall_mem_cons]
        have hline : line ∈ split '\n' text := hsplit ▸ mem_append_right before mem_cons_self
        refine ⟨fun hmem => sep_not_mem_of_mem_split hline (hpart.subset hmem), fun blank hblank => ?_⟩
        rw [eq_of_mem_replicate hblank]
        exact not_mem_nil

/-! ## The beginning of a text -/

theorem reported_noLines (h : ¬ Fits maxLines maxBytes text) : Reported maxLines maxBytes text
    { content := [], truncated := true, truncatedBy := some .bytes, totalLines := (split '\n' text).length
      totalBytes := byteLength text, outputLines := 0, outputBytes := 0, lastLinePartial := false
      firstLineExceedsLimit := true, maxLines, maxBytes } where
  limits := ⟨rfl, rfl⟩
  totalLines := rfl
  totalBytes := rfl
  outputLines := .inr ⟨rfl, rfl⟩
  outputBytes := rfl
  lines_le := Nat.zero_le _
  bytes_le := Nat.zero_le _
  truncated := iff_of_true rfl h
  limit := iff_of_false nofun nofun

theorem longest_noLines (hfirst : maxBytes < byteLength (lines.headD [])) :
    Longest maxLines maxBytes lines [] (some .bytes) := by
  obtain ⟨k, hk⟩ := exists_taken maxLines maxBytes lines
  have hzero := hk.eq_zero hfirst
  cases lines with
  | nil => exact absurd hfirst (Nat.not_lt_zero maxBytes)
  | cons line later =>
    refine ⟨ nil_prefix, Nat.zero_le _, Nat.zero_le _, ?_, iff_of_false nofun nofun, nofun, fun _ => ?_⟩
    · intro more hmore hfew hsmall
      rw [prefix_iff_eq_take.1 hmore] at hsmall
      exact (hk.le hmore.length_le hfew hsmall).trans hzero.le
    · exact hfirst

theorem truncateHead_limits (maxLines maxBytes : Nat) (text : List Char)
    (hr : truncateHead text { maxLines := some maxLines, maxBytes := some maxBytes } = r) :
    Reported maxLines maxBytes text r ∧ WholeHead maxLines maxBytes text r := by
  have hwhole := (linesBytes_reverse _).symm.trans (linesBytes_split text)
  by_cases h : Fits maxLines maxBytes text
  · have hfits := (if_pos h).symm.trans hr
    subst hfits
    exact ⟨h.reported, wholeHead_of_longest (h.longest rfl hwhole) (join_split text).symm rfl⟩
  · have hover := (if_neg h).symm.trans hr
    by_cases hfirst : maxBytes < byteLength ((split '\n' text).headD [])
    · have hnone := (if_pos hfirst).symm.trans hover
      subst hnone
      exact ⟨reported_noLines h, wholeHead_of_longest (longest_noLines hfirst) rfl rfl⟩
    · obtain ⟨k, hk⟩ := exists_taken maxLines maxBytes (split '\n' text)
      have hlt := hk.lt_of_over h hwhole rfl
      have hlength : ((split '\n' text).take k).length = k := length_take_of_le hk.length_le
      have hsome := (if_neg hfirst).symm.trans hover
      simp only [Option.getD_some, collectHead_taken hk] at hsome
      subst hsome
      have hreported := @reported_ofCollected maxLines maxBytes text h
        ⟨(split '\n' text).take k, linesBytes 0 ((split '\n' text).take k),
          if maxLines ≤ k ∨ (split '\n' text).length ≤ k then .lines else .bytes, false⟩
        (hlength.le.trans hk.lines_le) hk.bytes_le
        (fun line hline => sep_not_mem_of_mem_split (mem_of_mem_take hline))
      refine ⟨hreported, wholeHead_of_longest ?_ rfl rfl⟩
      exact hk.longest hlt hlength (fun hfew => if_neg (by omega)) _ _

end

/-- The end of a text is its longest end of whole lines within both limits, or it is the end of the last line that is
not blank, with the blank lines after it as far as the bytes allow. The beginning is the longest beginning of whole
lines within both limits. -/
theorem truncation_limits (text : List Char) (options : TruncationOptions) :
    (Reported (options.maxLines.getD defaultMaxLines) (options.maxBytes.getD defaultMaxBytes) text
        (truncateTail text options) ∧ ((truncateTail text options).lastLinePartial = false →
        WholeTail (options.maxLines.getD defaultMaxLines) (options.maxBytes.getD defaultMaxBytes) text
          (truncateTail text options)) ∧
      ((truncateTail text options).lastLinePartial = true → ∃ before line cut blanks kept,
        CutTail (options.maxLines.getD defaultMaxLines) (options.maxBytes.getD defaultMaxBytes) text
          (truncateTail text options) before line cut blanks kept)) ∧
    (Reported (options.maxLines.getD defaultMaxLines) (options.maxBytes.getD defaultMaxBytes) text
        (truncateHead text options) ∧
      WholeHead (options.maxLines.getD defaultMaxLines) (options.maxBytes.getD defaultMaxBytes) text
        (truncateHead text options)) :=
  ⟨truncateTail_limits _ _ text rfl, truncateHead_limits _ _ text rfl⟩

/-- Blank lines at the end are dropped before the line that is cut, and what is left is no end of the text. -/
theorem truncateTail_drops_blanks :
    ¬ (truncateTail "abc\n\n\n".toList { maxLines := none, maxBytes := some 2 }).content <:+ "abc\n\n\n".toList := by
  decide

end Truncate
end Tools
end RePrime
