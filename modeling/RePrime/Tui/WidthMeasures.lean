import RePrime.Tui.CompositeColumns
import RePrime.Tui.StripAnsi
import RePrime.Tui.WrapBounds

/-!
# RePrime.Tui.WidthMeasures

The measures of a line against each other: its width, the width without sequences, and what the slices of its
columns show and report.

* `taken`: the clusters of a range of columns. `sliceWithWidth_taken`: a slice has those, and reports their width.
* `taken_split`: the clusters before a column and from there on are all of them.
* `widths_agree`: stripping keeps the width and is idempotent, a slice is as wide as it says, and the slices on both
  sides of a column show the line.
-/

namespace RePrime
namespace Tui

open List
open JsText (ofAscii)

variable (M : Metrics)

/-! ### The clusters of a range -/

/-- The clusters of the columns from `startCol` to `endCol`; the next one stands at `col`. -/
def taken (startCol endCol : Nat) (strict : Bool) : Nat → List JsString → List JsString
  | _, [] => []
  | col, g :: gs =>
    let w := M.graphemeWidth g
    (if (startCol ≤ col ∧ col < endCol) ∧ (strict = false ∨ col + w ≤ endCol) then [g] else []) ++
      if endCol ≤ col + w then [] else taken startCol endCol strict (col + w) gs

def graphemesWidth (gs : List JsString) : Nat := (gs.map M.graphemeWidth).sum

/-- A run of clusters of the line is as wide as they are. -/
def Adds (line : JsString) : Prop :=
  ∀ gs, gs <:+: tokenPieces M line → M.clusterWidth gs.flatten = graphemesWidth M gs

variable {M}

theorem graphemesWidth_cons (g : JsString) (gs : List JsString) :
    graphemesWidth M (g :: gs) = M.graphemeWidth g + graphemesWidth M gs := sum_cons

theorem cols_pieces (T : List Segment) : cols M T = graphemesWidth M (T.filterMap Segment.piece) := by
  induction T with
  | nil => rfl
  | cons x T ih =>
    cases x with
    | ansi code => exact ih
    | grapheme g =>
      change M.graphemeWidth g + cols M T = graphemesWidth M (g :: T.filterMap Segment.piece)
      rw [graphemesWidth_cons, ih]

variable {startCol endCol : Nat} {strict : Bool}

theorem taken_initial {col : Nat} (h : startCol ≤ col) (gs : List JsString) :
    taken M startCol endCol strict col gs <+: gs := by
  induction gs generalizing col with
  | nil => exact prefix_rfl
  | cons g gs ih =>
    rw [taken]
    by_cases hend : endCol ≤ col + M.graphemeWidth g
    · rw [if_pos hend, append_nil]
      split
      · exact ⟨gs, rfl⟩
      · exact nil_prefix
    · rw [if_neg hend, if_pos ⟨⟨h, by omega⟩, .inr (by omega)⟩]
      exact (prefix_cons_inj g).mpr (ih (by omega))

theorem infix_taken (col : Nat) (gs : List JsString) : taken M startCol endCol strict col gs <:+: gs := by
  induction gs generalizing col with
  | nil => exact infix_rfl
  | cons g gs ih =>
    by_cases hstart : startCol ≤ col
    · exact (taken_initial hstart (g :: gs)).isInfix
    · rw [taken, if_neg fun h => hstart h.1.1, nil_append]
      split
      · exact nil_infix
      · exact (ih _).trans ⟨[g], [], by simp⟩

theorem taken_width (col : Nat) (gs : List JsString) :
    graphemesWidth M (taken M startCol endCol true col gs) ≤ endCol - max startCol col := by
  induction gs generalizing col with
  | nil => exact Nat.zero_le _
  | cons g gs ih =>
    have hrest := ih (col + M.graphemeWidth g)
    rw [taken]
    by_cases hin : (startCol ≤ col ∧ col < endCol) ∧ (true = false ∨ col + M.graphemeWidth g ≤ endCol)
    · have hfits : col + M.graphemeWidth g ≤ endCol := hin.2.resolve_left (by simp)
      rw [if_pos hin, cons_append, nil_append, graphemesWidth_cons]
      split
      · have hnil : graphemesWidth M [] = 0 := rfl
        omega
      · omega
    · rw [if_neg hin, nil_append]
      split
      · exact Nat.zero_le _
      · omega

theorem taken_none (col : Nat) (gs : List JsString) (h : endCol ≤ startCol) :
    taken M startCol endCol strict col gs = [] := by
  induction gs generalizing col with
  | nil => rfl
  | cons g gs ih =>
    rw [taken, if_neg (by omega), ih]
    split
    · rfl
    · rfl

theorem taken_all {col : Nat} (gs : List JsString) (hstart : startCol ≤ col)
    (hend : col + graphemesWidth M gs < endCol) : taken M startCol endCol strict col gs = gs := by
  induction gs generalizing col with
  | nil => rfl
  | cons g gs ih =>
    rw [graphemesWidth_cons] at hend
    rw [taken, if_pos ⟨⟨hstart, by omega⟩, .inr (by omega)⟩, if_neg (by omega), ih (by omega) (by omega)]
    rfl

/-- What the first range does not take, the range from its end on takes. -/
theorem taken_split {k col : Nat} (gs : List JsString) (hcol : col < k) (hend : col + graphemesWidth M gs < endCol) :
    taken M 0 k false col gs ++ taken M k endCol false col gs = gs := by
  induction gs generalizing col with
  | nil => rfl
  | cons g gs ih =>
    rw [graphemesWidth_cons] at hend
    have hfirst : taken M 0 k false col (g :: gs) =
        g :: if k ≤ col + M.graphemeWidth g then [] else taken M 0 k false (col + M.graphemeWidth g) gs := by
      rw [taken, if_pos ⟨⟨Nat.zero_le _, hcol⟩, .inl rfl⟩]
      rfl
    have hsecond : taken M k endCol false col (g :: gs) = taken M k endCol false (col + M.graphemeWidth g) gs := by
      rw [taken, if_neg (by omega), if_neg (by omega), nil_append]
    rw [hfirst, hsecond]
    by_cases hk : k ≤ col + M.graphemeWidth g
    · rw [if_pos hk, taken_all gs hk (by omega)]
      rfl
    · rw [if_neg hk, cons_append, ih (by omega) (by omega)]

/-! ### Slices -/

theorem sliceSegments_write (T : List Segment) {st : SliceState} {g : JsString}
    (h : (startCol ≤ st.currentCol ∧ st.currentCol < endCol) ∧
      (strict = false ∨ st.currentCol + M.graphemeWidth g ≤ endCol)) :
    sliceSegments M startCol endCol strict st (.grapheme g :: T) =
      if endCol ≤ st.currentCol + M.graphemeWidth g then ⟨st.result ++ st.pendingAnsi ++ g,
        st.resultWidth + M.graphemeWidth g, st.currentCol + M.graphemeWidth g, []⟩
      else sliceSegments M startCol endCol strict ⟨st.result ++ st.pendingAnsi ++ g,
        st.resultWidth + M.graphemeWidth g, st.currentCol + M.graphemeWidth g, []⟩ T := by
  simp only [sliceSegments, sliceCluster, h, and_self, if_true]

theorem sliceSegments_pass (T : List Segment) {st : SliceState} {g : JsString}
    (h : ¬((startCol ≤ st.currentCol ∧ st.currentCol < endCol) ∧
      (strict = false ∨ st.currentCol + M.graphemeWidth g ≤ endCol))) :
    sliceSegments M startCol endCol strict st (.grapheme g :: T) =
      if endCol ≤ st.currentCol + M.graphemeWidth g then { st with currentCol := st.currentCol + M.graphemeWidth g }
      else sliceSegments M startCol endCol strict { st with currentCol := st.currentCol + M.graphemeWidth g } T := by
  simp only [sliceSegments, sliceCluster, h, if_false]

/-- In the range, with no sequence pending, the loop takes a run of the line. -/
theorem sliceSegments_inRange (T : List Segment) {st : SliceState} (hstart : startCol ≤ st.currentCol)
    (hend : st.currentCol < endCol) (hpending : st.pendingAnsi = []) :
    ∃ X, X <+: T ∧ (sliceSegments M startCol endCol strict st T).result = st.result ++ textOf X ∧
      (sliceSegments M startCol endCol strict st T).resultWidth = st.resultWidth + cols M X ∧
      X.filterMap Segment.piece = taken M startCol endCol strict st.currentCol (T.filterMap Segment.piece) := by
  induction T generalizing st with
  | nil => exact ⟨[], prefix_rfl, by simp [sliceSegments], rfl, rfl⟩
  | cons x T ih =>
    cases x with
    | ansi code =>
      obtain ⟨X, hX, hresult, hwidth, htaken⟩ := @ih { st with result := st.result ++ code } hstart hend hpending
      rw [sliceSegments, sliceAnsi, if_pos ⟨hstart, hend⟩]
      refine ⟨.ansi code :: X, (prefix_cons_inj _).mpr hX, ?_, hwidth, htaken⟩
      have hcons : textOf (.ansi code :: X) = code ++ textOf X := by
        rw [← singleton_append, textOf_append, textOf_ansi]
      rw [hresult, hcons, append_assoc]
    | grapheme g =>
      have hcons : (Segment.grapheme g :: T).filterMap Segment.piece = g :: T.filterMap Segment.piece := rfl
      have hnone : ∃ X, X <+: Segment.grapheme g :: T ∧ st.result = st.result ++ textOf X ∧
          st.resultWidth = st.resultWidth + cols M X ∧ X.filterMap Segment.piece = [] :=
        ⟨[], nil_prefix, (append_nil _).symm, rfl, rfl⟩
      rw [hcons]
      by_cases hfits : strict = false ∨ st.currentCol + M.graphemeWidth g ≤ endCol
      · rw [taken, if_pos ⟨⟨hstart, hend⟩, hfits⟩, sliceSegments_write T ⟨⟨hstart, hend⟩, hfits⟩, hpending, append_nil]
        have hcols : ∀ X, cols M (.grapheme g :: X) = M.graphemeWidth g + cols M X := fun X => rfl
        have htext : ∀ X, textOf (.grapheme g :: X) = g ++ textOf X := by
          intro X
          rw [← singleton_append, textOf_append, textOf_grapheme]
        by_cases hover : endCol ≤ st.currentCol + M.graphemeWidth g
        · rw [if_pos hover, if_pos hover]
          exact ⟨[.grapheme g], ⟨T, rfl⟩, by rw [textOf_grapheme], by rw [hcols]; rfl, rfl⟩
        · rw [if_neg hover, if_neg hover]
          obtain ⟨X, hX, hresult, hwidth, htaken⟩ := @ih ⟨st.result ++ g, st.resultWidth + M.graphemeWidth g,
            st.currentCol + M.graphemeWidth g, []⟩ (Nat.le_add_right_of_le hstart) (Nat.lt_of_not_le hover) rfl
          refine ⟨.grapheme g :: X, (prefix_cons_inj _).mpr hX, ?_, ?_, congrArg (g :: ·) htaken⟩
          · rw [hresult, htext, append_assoc]
          · rw [hwidth, hcols, Nat.add_assoc]
      · have hover : endCol ≤ st.currentCol + M.graphemeWidth g := by
          rw [not_or] at hfits
          omega
        rw [taken, if_neg fun h => hfits h.2, sliceSegments_pass T fun h => hfits h.2, if_pos hover, if_pos hover]
        exact hnone

/-- The loop takes sequences of the line first, and then a run of the line. -/
theorem sliceSegments_taken (T : List Segment) {st : SliceState} {P : List Segment} (hP : st.pendingAnsi = textOf P)
    (hansi : ∀ x ∈ P, x.isAnsi = true) :
    ∃ C X, (∀ x ∈ C, x.isAnsi = true ∧ x ∈ P ++ T) ∧ X <:+: T ∧
      (sliceSegments M startCol endCol strict st T).result = st.result ++ textOf (C ++ X) ∧
      (sliceSegments M startCol endCol strict st T).resultWidth = st.resultWidth + cols M X ∧
      X.filterMap Segment.piece = taken M startCol endCol strict st.currentCol (T.filterMap Segment.piece) := by
  induction T generalizing st P with
  | nil => exact ⟨[], [], by simp, infix_rfl, by simp [sliceSegments], rfl, rfl⟩
  | cons x T ih =>
    have hlater : ∀ {C : List Segment} {y : Segment}, (∀ x ∈ C, x.isAnsi = true ∧ x ∈ P ++ T) →
        ∀ x ∈ C, x.isAnsi = true ∧ x ∈ P ++ y :: T := by
      intro C y hC x hx
      refine ⟨(hC x hx).1, ?_⟩
      obtain hmem | hmem := mem_append.mp (hC x hx).2
      · exact mem_append_left _ hmem
      · exact mem_append_right _ (mem_cons_of_mem _ hmem)
    cases x with
    | ansi code =>
      rw [sliceSegments, sliceAnsi]
      by_cases hin : startCol ≤ st.currentCol ∧ st.currentCol < endCol
      · rw [if_pos hin]
        obtain ⟨C, X, hC, hX, hresult, hwidth, htaken⟩ := @ih { st with result := st.result ++ code } P hP hansi
        refine ⟨.ansi code :: C, X, ?_, infix_cons hX, ?_, hwidth, htaken⟩
        · intro y hy
          obtain rfl | hy := mem_cons.mp hy
          · exact ⟨rfl, mem_append_right _ mem_cons_self⟩
          · exact hlater hC y hy
        · have hcons : textOf (.ansi code :: C ++ X) = code ++ textOf (C ++ X) := by
            rw [cons_append, ← singleton_append, textOf_append, textOf_ansi]
          rw [hresult, hcons, append_assoc]
      · rw [if_neg hin]
        split
        · obtain ⟨C, X, hC, hX, hresult, hwidth, htaken⟩ :=
            @ih { st with pendingAnsi := st.pendingAnsi ++ code } (P ++ [Segment.ansi code])
              (by rw [textOf_append, textOf_ansi, ← hP]) (by
                intro y hy
                rcases mem_append.mp hy with hy | hy
                · exact hansi y hy
                · rw [mem_singleton.mp hy]
                  rfl)
          rw [append_assoc, singleton_append] at hC
          exact ⟨C, X, hC, infix_cons hX, hresult, hwidth, htaken⟩
        · obtain ⟨C, X, hC, hX, hresult, hwidth, htaken⟩ := ih hP hansi
          exact ⟨C, X, hlater hC, infix_cons hX, hresult, hwidth, htaken⟩
    | grapheme g =>
      by_cases hin : startCol ≤ st.currentCol ∧ st.currentCol < endCol
      · -- what is pending is written before the first cluster of the range
        by_cases hfits : strict = false ∨ st.currentCol + M.graphemeWidth g ≤ endCol
        · have hflush : sliceSegments M startCol endCol strict st (.grapheme g :: T) = sliceSegments M startCol endCol
              strict { st with result := st.result ++ st.pendingAnsi, pendingAnsi := [] } (.grapheme g :: T) := by
            have hflushed := @sliceSegments_write M startCol endCol strict T
              { st with result := st.result ++ st.pendingAnsi, pendingAnsi := [] } g ⟨hin, hfits⟩
            rw [append_nil] at hflushed
            rw [sliceSegments_write T ⟨hin, hfits⟩, hflushed]
          obtain ⟨X, hX, hresult, hwidth, htaken⟩ := @sliceSegments_inRange M startCol endCol strict (.grapheme g :: T)
            { st with result := st.result ++ st.pendingAnsi, pendingAnsi := [] } hin.1 hin.2 rfl
          rw [hflush]
          refine ⟨P, X, fun y hy => ⟨hansi y hy, mem_append_left _ hy⟩, hX.isInfix, ?_, hwidth, htaken⟩
          rw [hresult, hP, textOf_append, append_assoc]
        · have hover : endCol ≤ st.currentCol + M.graphemeWidth g := by
            rw [not_or] at hfits
            omega
          have hcons : (Segment.grapheme g :: T).filterMap Segment.piece = g :: T.filterMap Segment.piece := rfl
          rw [hcons, taken, if_neg fun h => hfits h.2, sliceSegments_pass T fun h => hfits h.2, if_pos hover,
            if_pos hover]
          exact ⟨[], [], by simp, nil_infix, (append_nil _).symm, rfl, rfl⟩
      · have hcons : (Segment.grapheme g :: T).filterMap Segment.piece = g :: T.filterMap Segment.piece := rfl
        rw [hcons, taken, if_neg fun h => hin h.1, nil_append, sliceSegments_pass T fun h => hin h.1]
        split
        · exact ⟨[], [], by simp, nil_infix, (append_nil _).symm, rfl, rfl⟩
        · obtain ⟨C, X, hC, hX, hresult, hwidth, htaken⟩ :=
            @ih { st with currentCol := st.currentCol + M.graphemeWidth g } P hP hansi
          exact ⟨C, X, hlater hC, infix_cons hX, hresult, hwidth, htaken⟩

theorem segments_items (line : JsString) : (segments M line).flatMap Segment.items = scan line := by
  rw [segments, wordSegments_items, map_nil, nil_append]

/-- A slice is the clusters of its range with sequences of the line, reports their width, and is scanned as it was in
the line: a run of the line is, and so is complete sequences before it. -/
theorem sliceWithWidth_taken (line : JsString) (startCol length : Nat) (strict : Bool) :
    ∃ X, sliceWithWidth M line startCol length strict = (textOf X, cols M X) ∧ (∀ x ∈ X, x ∈ segments M line) ∧
      Scanned (X.flatMap Segment.items) ∧
      X.filterMap Segment.piece = taken M startCol (startCol + length) strict 0 (tokenPieces M line) := by
  rw [sliceWithWidth]
  by_cases hlen : length = 0
  · rw [if_pos hlen, taken_none 0 _ (by omega)]
    exact ⟨[], rfl, by simp, trivial, rfl⟩
  · rw [if_neg hlen]
    obtain ⟨C, X, hC, hX, hresult, hwidth, htaken⟩ :=
      @sliceSegments_taken M startCol (startCol + length) strict (segments M line) ⟨[], 0, 0, []⟩ [] rfl (by simp)
    have hcodes : ∀ x ∈ C, ∃ code, x = .ansi code ∧ Complete code := by
      intro x hx
      obtain ⟨hansi, hmem⟩ := hC x hx
      cases x with
      | ansi code =>
        have hcode : Item.code code ∈ scan line := by
          rw [← segments_items (M := M)]
          exact mem_flatMap.mpr ⟨_, hmem, mem_cons_self⟩
        exact ⟨code, rfl, complete_of_mem_scanFrom hcode⟩
      | grapheme g => cases hansi
    have hscanned : Scanned (X.flatMap Segment.items) := by
      obtain ⟨before, after, hline⟩ := hX
      have hall : Scanned ((segments M line).flatMap Segment.items) := by
        rw [segments_items]
        exact scanned_scanFrom (Nat.le_refl _)
      rw [← hline, flatMap_append, flatMap_append] at hall
      exact hall.left.right
    refine ⟨C ++ X, ?_, ?_, ?_, ?_⟩
    · dsimp only at hresult hwidth ⊢
      rw [hresult, hwidth, nil_append, Nat.zero_add, cols_append, cols_ansi fun x hx => (hC x hx).1, Nat.zero_add]
    · intro x hx
      obtain hx | hx := mem_append.mp hx
      · exact (hC x hx).2
      · exact hX.subset hx
    · clear hC hresult
      induction C with
      | nil => exact hscanned
      | cons x C ih =>
        obtain ⟨code, rfl, hcode⟩ := hcodes x mem_cons_self
        exact ⟨hcode, ih fun y hy => hcodes y (mem_cons_of_mem _ hy)⟩
    · have hnone : C.filterMap Segment.piece = [] := by
        rw [filterMap_eq_nil_iff]
        intro x hx
        obtain ⟨code, rfl, -⟩ := hcodes x hx
        rfl
      rw [filterMap_append, hnone, nil_append]
      exact htaken

theorem units_scan_textOf {X : List Segment} (h : Scanned (X.flatMap Segment.items)) :
    units (scan (textOf X)) = (X.filterMap Segment.piece).flatten := by
  rw [textOf, scan_of_scanned h, units_segments]

theorem flatten_pieces (line : JsString) : (tokenPieces M line).flatten = units (scan line) := by
  rw [← segments_items (M := M), units_segments]
  rfl

theorem visibleWidth_units {s : JsString} (h : 9 ∉ s) : visibleWidth M s = M.clusterWidth (units (scan s)) := by
  unfold visibleWidth
  split
  · rename_i hnil
    rw [hnil]
    exact (M.ascii [] fun c hc => by cases hc).symm
  · split
    · rename_i hprintable
      have hall := esc_not_printable hprintable
      have hclosed : Closed (s.map Item.unit) := by
        intro x hx
        obtain ⟨c, hc, rfl⟩ := mem_map.mp hx
        rintro rfl
        exact absurd (hall _ hc).1 (by decide)
      have hscan := scan_render hclosed
      rw [render_units] at hscan
      rw [hscan, units_map_unit]
      exact (M.ascii s hall).symm
    · rw [expandTabs_none]
      rintro c hc rfl
      exact h hc

theorem visibleWidth_slice {line : JsString} (htab : 9 ∉ line) (hadd : Adds M line)
    (startCol length : Nat) (strict : Bool) : visibleWidth M (sliceWithWidth M line startCol length strict).1 =
      (sliceWithWidth M line startCol length strict).2 := by
  obtain ⟨X, hslice, hmem, hscanned, htaken⟩ := sliceWithWidth_taken (M := M) line startCol length strict
  have hinfix := @infix_taken M startCol (startCol + length) strict 0 (tokenPieces M line)
  rw [← htaken] at hinfix
  have hnotab : 9 ∉ textOf X := by
    intro hc
    obtain ⟨item, hitem, hc⟩ := mem_flatMap.mp hc
    obtain ⟨x, hx, hitem⟩ := mem_flatMap.mp hitem
    refine htab ?_
    rw [← render_scan line, ← segments_items (M := M)]
    exact mem_flatMap.mpr ⟨item, mem_flatMap.mpr ⟨x, hmem x hx, hitem⟩, hc⟩
  rw [hslice]
  dsimp only
  rw [visibleWidth_units hnotab, units_scan_textOf hscanned, hadd _ hinfix, cols_pieces]

theorem slices_show (line : JsString) {k n : Nat} (hend : cols M (segments M line) < k + n) :
    units (scan (sliceWithWidth M line 0 k false).1) ++ units (scan (sliceWithWidth M line k n false).1) =
      units (scan line) := by
  obtain ⟨X, hX, -, hscannedX, htakenX⟩ := sliceWithWidth_taken (M := M) line 0 k false
  obtain ⟨Y, hY, -, hscannedY, htakenY⟩ := sliceWithWidth_taken (M := M) line k n false
  have hwidth : 0 + graphemesWidth M (tokenPieces M line) < k + n := by
    rw [cols_pieces] at hend
    rw [Nat.zero_add]
    exact hend
  rw [hX, hY]
  dsimp only
  rw [units_scan_textOf hscannedX, units_scan_textOf hscannedY, htakenX, htakenY, ← flatten_append,
    ← flatten_pieces (M := M), Nat.zero_add]
  congr 1
  by_cases hk : k = 0
  · subst hk
    rw [taken_none 0 _ (Nat.le_refl _), nil_append]
    exact taken_all _ (Nat.le_refl _) hwidth
  · exact taken_split _ (Nat.pos_of_ne_zero hk) hwidth

theorem slice_strict (line : JsString) (startCol length : Nat) :
    (sliceWithWidth M line startCol length true).2 ≤ length := by
  obtain ⟨X, hslice, -, -, htaken⟩ := sliceWithWidth_taken (M := M) line startCol length true
  have hwidth := @taken_width M startCol (startCol + length) 0 (tokenPieces M line)
  rw [hslice]
  dsimp only
  rw [cols_pieces, htaken]
  omega

theorem visibleWidth_stripAnsi {s : JsString} (h : WellFormed s)
    (hinside : ∀ code, .code code ∈ scan s → NoCsiInside code) : visibleWidth M (stripAnsi s) = visibleWidth M s := by
  have hclosed := visibleWidth_closed M h.closed
  have hunits := visibleWidth_closed M (closed_units h.closed)
  rw [render_scan] at hclosed
  rw [render_units, units_map_unit] at hunits
  rw [stripAnsi_units h hinside, hclosed, hunits]

/-- Stripping keeps the width of text in which every ESC starts a complete sequence and none has a CSI sequence inside,
and is idempotent. A strict slice is within its length; without tabs a slice is as wide as it says, and the slices on
both sides of a column show the line, also one with escapes that are malformed. -/
theorem widths_agree (M : Metrics) (s : JsString) :
    (WellFormed s → (∀ code, .code code ∈ scan s → NoCsiInside code) →
      visibleWidth M (stripAnsi s) = visibleWidth M s) ∧ stripAnsi (stripAnsi s) = stripAnsi s ∧
    (∀ startCol length, (sliceWithWidth M s startCol length true).2 ≤ length) ∧
    (9 ∉ s → Adds M s → ∀ startCol length strict,
      visibleWidth M (sliceWithWidth M s startCol length strict).1 = (sliceWithWidth M s startCol length strict).2) ∧
    (∀ k n, cols M (segments M s) < k + n →
      units (scan (sliceWithWidth M s 0 k false).1) ++ units (scan (sliceWithWidth M s k n false).1) =
        units (scan s)) := by
  refine ⟨?_, ?_, ?_, ?_, ?_⟩
  · intro h hinside
    exact visibleWidth_stripAnsi h hinside
  · exact stripAnsi_stripAnsi s
  · intro startCol length
    exact slice_strict s startCol length
  · intro htab hadd startCol length strict
    exact visibleWidth_slice htab hadd startCol length strict
  · intro k n hend
    exact slices_show s hend

/-! ### Lines that are cut -/

theorem adds_wideMetrics (line : JsString) : Adds wideMetrics line := by
  intro gs hgs
  have hsingle : ∀ g ∈ gs, ∃ c, g = [c] := by
    intro g hg
    obtain ⟨x, hx, hxg⟩ := mem_filterMap.mp (hgs.subset hg)
    cases x with
    | ansi code => cases hxg
    | grapheme g' =>
      cases hxg
      exact single_segments hx
  clear hgs
  have hsegment : wideMetrics.segment gs.flatten = gs := by
    induction gs with
    | nil => rfl
    | cons g gs ih =>
      obtain ⟨c, rfl⟩ := hsingle g mem_cons_self
      change [c] :: wideMetrics.segment gs.flatten = [c] :: gs
      rw [ih fun g' hg' => hsingle g' (mem_cons_of_mem _ hg')]
  rw [Metrics.clusterWidth, hsegment]
  rfl

/-- A digit with U+FE0F and U+20E3 after it is one cluster. -/
def keycapSegment : JsString → List JsString
  | a :: b :: c :: s =>
    if JsText.isDigit a ∧ b = 0xfe0f ∧ c = 0x20e3 then [a, b, c] :: keycapSegment s
    else [a] :: keycapSegment (b :: c :: s)
  | [a, b] => [[a], [b]]
  | [a] => [[a]]
  | [] => []

def keycapWidth (g : JsString) : Nat :=
  if g.length = 3 then 2 else (g.map fun c => if c = 0xfe0f ∨ c = 0x20e3 then 0 else unitWidth c).sum

theorem keycapSegment_printable {s : JsString} (h : ∀ c ∈ s, 0x20 ≤ c ∧ c ≤ 0x7e) :
    keycapSegment s = s.map fun c => [c] := by
  induction s using keycapSegment.induct with
  | case1 a b c s hkey ih => exact absurd (hkey.2.1 ▸ (h b (by simp)).2) (by decide)
  | case2 a b c s hkey ih =>
    rw [keycapSegment, if_neg hkey, ih fun d hd => h d (mem_cons_of_mem _ hd)]
    rfl
  | _ => rfl

theorem keycapWidth_printable {c : UInt16} (h : 0x20 ≤ c ∧ c ≤ 0x7e) : keycapWidth [c] = 1 := by
  have hmark : ¬ (c = 0xfe0f ∨ c = 0x20e3) := by
    rintro (rfl | rfl)
    · exact absurd h.2 (by decide)
    · exact absurd h.2 (by decide)
  rw [keycapWidth, if_neg (by simp), map_singleton, sum_singleton, if_neg hmark, unitWidth,
    if_neg (UInt16.not_lt.mpr h.1), if_pos (UInt16.lt_of_le_of_lt h.2 (by decide))]

def keycapMetrics : Metrics where
  segment := keycapSegment
  graphemeWidth := keycapWidth
  segment_flatten := by
    intro s
    induction s using keycapSegment.induct with
    | case1 a b c s hkey ih =>
      rw [keycapSegment, if_pos hkey, flatten_cons, ih]
      rfl
    | case2 a b c s hkey ih =>
      rw [keycapSegment, if_neg hkey, flatten_cons, ih]
      rfl
    | _ => rfl
  segment_ne_nil := by
    intro s
    induction s using keycapSegment.induct with
    | case1 a b c s hkey ih =>
      rw [keycapSegment, if_pos hkey]
      rintro g (_ | ⟨_, hg⟩)
      · exact cons_ne_nil _ _
      · exact ih g hg
    | case2 a b c s hkey ih =>
      rw [keycapSegment, if_neg hkey]
      rintro g (_ | ⟨_, hg⟩)
      · exact cons_ne_nil _ _
      · exact ih g hg
    | _ => simp [keycapSegment]
  ascii := by
    intro s hs
    rw [keycapSegment_printable hs]
    induction s with
    | nil => rfl
    | cons c s ih =>
      have hrest := ih fun d hd => hs d (mem_cons_of_mem _ hd)
      rw [map_cons, map_cons, sum_cons, hrest, keycapWidth_printable (hs c mem_cons_self),
        length_cons, Nat.add_comm]

/-- A wide character in bold, cut in its middle: it is on the left. -/
theorem widths_agree_bold : visibleWidth wideMetrics (stripAnsi (ofAscii "\x1b[1m" ++ [0x4f60, 0x62])) =
        visibleWidth wideMetrics (ofAscii "\x1b[1m" ++ [0x4f60, 0x62]) ∧
      visibleWidth wideMetrics (sliceWithWidth wideMetrics (ofAscii "\x1b[1m" ++ [0x4f60, 0x62]) 0 1 false).1 = 2 ∧
      units (scan (sliceWithWidth wideMetrics (ofAscii "\x1b[1m" ++ [0x4f60, 0x62]) 0 1 false).1) ++
        units (scan (sliceWithWidth wideMetrics (ofAscii "\x1b[1m" ++ [0x4f60, 0x62]) 1 5 false).1) =
          [0x4f60, 0x62] := by
  have hscan : scan (ofAscii "\x1b[1m" ++ [0x4f60, 0x62]) =
      [.code (ofAscii "\x1b[1m"), .unit 0x4f60, .unit 0x62] := by decide
  have hwell : WellFormed (ofAscii "\x1b[1m" ++ [0x4f60, 0x62]) := by
    intro c hc
    rw [hscan] at hc
    simp only [mem_cons, reduceCtorEq, Item.unit.injEq, not_mem_nil, or_false, false_or] at hc
    rcases hc with rfl | rfl
    · decide
    · decide
  have hinside : ∀ code, .code code ∈ scan (ofAscii "\x1b[1m" ++ [0x4f60, 0x62]) → NoCsiInside code := by
    intro code hc
    rw [hscan] at hc
    simp only [mem_cons, reduceCtorEq, Item.code.injEq, not_mem_nil, or_false] at hc
    subst hc
    intro a b hab ha
    cases b with
    | nil => rfl
    | cons c b =>
      refine commonCsi_head ?_
      rintro rfl
      obtain ⟨d, a, rfl⟩ := exists_cons_of_ne_nil ha
      have hmem : esc ∈ (ofAscii "\x1b[1m").tail := by
        rw [hab]
        exact mem_append_right _ mem_cons_self
      exact absurd hmem (by decide)
  obtain ⟨hstrip, -, -, hslice, hshow⟩ := widths_agree wideMetrics (ofAscii "\x1b[1m" ++ [0x4f60, 0x62])
  refine ⟨hstrip hwell hinside, ?_, ?_⟩
  · rw [hslice (by decide) (adds_wideMetrics _) 0 1 false]
    decide
  · rw [hshow 1 5 (by decide), hscan]
    rfl

/-- A two-unit escape, a CSI sequence inside a control string, a tab, and a cluster that a sequence divides: the
measures are not the same. -/
theorem widths_differ : visibleWidth wideMetrics (stripAnsi [esc, 0x63]) ≠ visibleWidth wideMetrics [esc, 0x63] ∧
      visibleWidth wideMetrics (stripAnsi (ofAscii "\x1b]\x1b\x1b[m\\b\x07")) ≠
        visibleWidth wideMetrics (ofAscii "\x1b]\x1b\x1b[m\\b\x07") ∧
      visibleWidth wideMetrics (sliceWithWidth wideMetrics [9] 0 1 false).1 ≠
        (sliceWithWidth wideMetrics [9] 0 1 false).2 ∧
      visibleWidth keycapMetrics
        (sliceWithWidth keycapMetrics (0x31 :: ofAscii "\x1b[m" ++ [0xfe0f, 0x20e3]) 0 9 false).1 ≠
        (sliceWithWidth keycapMetrics (0x31 :: ofAscii "\x1b[m" ++ [0xfe0f, 0x20e3]) 0 9 false).2 := by
  refine ⟨?_, ?_, ?_, ?_⟩
  · decide
  · decide
  · decide
  · decide

end Tui
end RePrime
