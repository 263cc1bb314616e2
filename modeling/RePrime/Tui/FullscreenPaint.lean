import RePrime.Lib.Runs
import RePrime.Lib.Screen
import RePrime.Tui.CompositeColumns
import RePrime.Tui.Fullscreen
import RePrime.Tui.WrapContent

/-!
# RePrime.Tui.FullscreenPaint

What is on the terminal after the frames of the viewport are painted (`paint` in `fullscreen.ts`): only the rows that
differ from the frame before are written.

* `paint`: the output for a frame. `write`: what a terminal does with output.
* `write_blocks`: output that is sequences with text between them, block by block.
* `Painted`: the screen shows the frame that the viewport remembers. `paint_shows`: a paint makes it so.
* `fullscreen_shows`: after each paint the screen shows the frame, in every run; and the lines that are visible stay
  where they are when lines are appended.
-/

namespace RePrime
namespace Tui

open List
open Screen
open JsText (ofAscii decimal Digits isDigit)

/-! ### Painting -/

def syncBegin : JsString := ofAscii "\x1b[?2026h"
def syncEnd : JsString := ofAscii "\x1b[?2026l"
def eraseScreen : JsString := ofAscii "\x1b[2J"
def cursorHome : JsString := ofAscii "\x1b[H"
def eraseLine : JsString := ofAscii "\x1b[2K"

/-- Rows and columns from one. -/
def cursorTo (row col : Nat) : JsString := [esc, 0x5b] ++ (decimal row ++ [semicolon] ++ decimal col) ++ [0x48]

variable (M : Metrics)

/-- A row that is too wide is cut. -/
def clampLine (line : JsString) (width : Nat) : JsString :=
  if width < visibleWidth M line then sliceByColumn M line 0 width true else line

/-- The output for a row: nothing when the row is as before. -/
def paintRow (prevFrame frame : List JsString) (width row : Nat) : JsString :=
  let line := frame[row]?.getD []
  if prevFrame[row]? = some line then [] else cursorTo (row + 1) 1 ++ eraseLine ++ clampLine M line width

namespace FullscreenViewport

variable {α : Type}

/-- The viewport after a frame is painted, and the output. -/
def paint (v : FullscreenViewport α) (frame : List JsString) (width height : Nat) (cursorPos : Option (Nat × Nat)) :
    FullscreenViewport α × JsString :=
  let frame := bottomRows frame height
  let clear : Bool := width ≠ v.prevWidth ∨ height ≠ v.prevHeight ∨ v.prevFrame = []
  let prevFrame := if clear then [] else v.prevFrame
  let buffer := syncBegin ++ (if clear then eraseScreen ++ cursorHome else []) ++
    (List.range height).flatMap (paintRow M prevFrame frame width) ++
    (match cursorPos with
      | some (row, col) => cursorTo (min (row + 1) height) (col + 1)
      | none => []) ++ syncEnd
  ({ v with prevFrame := frame, prevWidth := width, prevHeight := height }, buffer)

def reset (v : FullscreenViewport α) : FullscreenViewport α := { v with prevFrame := [] }

end FullscreenViewport

/-! ### The terminal -/

/-- The row and the column of a cursor movement, from one. -/
def cursorParams (code : JsString) : Option (Nat × Nat) :=
  match code with
  | _ :: b :: rest =>
    if b = 0x5b ∧ rest.getLast? = some 0x48 then
      match splitOn semicolon rest.dropLast with
      | p :: q :: _ => some ((parseInt p).getD 1, (parseInt q).getD 1)
      | [p] => some ((parseInt p).getD 1, 1)
      | [] => none
    else none
  | _ => none

/-- What a sequence does to the cells and the cursor. -/
def control (s : Screen JsString) (code : JsString) : Screen JsString :=
  if code = eraseScreen then s.erase
  else if code = eraseLine then s.eraseRow
  else
    match cursorParams code with
    | some (row, col) => s.moveTo (row - 1) (col - 1)
    | none => s

/-- A cluster is printed; some control characters move the cursor. -/
def put (s : Screen JsString) (g : JsString) : Screen JsString :=
  if g = [0x0a] then s.lineFeed
  else if g = [0x0d] then s.carriageReturn
  else if g = [0x0d, 0x0a] then s.lineFeed.carriageReturn
  else if g = [0x08] then { s with col := s.col - 1 }
  else if g = [0x09] then { s with col := min (s.width - 1) (8 * (s.col / 8 + 1)) }
  else s.print g (M.graphemeWidth g)

def writeSegment (s : Screen JsString) : Segment → Screen JsString
  | .ansi code => control s code
  | .grapheme g => put M s g

/-- What the terminal does with output. -/
def write (s : Screen JsString) (data : JsString) : Screen JsString := (segments M data).foldl (writeSegment M) s

/-- The clusters of a line with their widths. -/
def rowClusters (line : JsString) : List (JsString × Nat) := (M.segment line).map fun g => (g, M.graphemeWidth g)

/-- No control characters. -/
def Plain (line : JsString) : Prop := ∀ c ∈ line, 0x20 ≤ c ∧ ¬ (0x7f ≤ c ∧ c ≤ 0x9f)

instance (line : JsString) : Decidable (Plain line) := inferInstanceAs (Decidable (∀ c ∈ line, _))

/-! ### Output in blocks -/

/-- A sequence and the text after it. -/
abbrev Block := JsString × JsString

def blockText (blocks : List Block) : JsString := blocks.flatMap fun b => b.1 ++ b.2

def blockSegments (blocks : List Block) : List Segment :=
  blocks.flatMap fun b => .ansi b.1 :: (M.segment b.2).map .grapheme

def writeBlock (s : Screen JsString) (b : Block) : Screen JsString := (M.segment b.2).foldl (put M) (control s b.1)

/-- The sequence is complete and the text has no control characters. -/
def BlockOk (b : Block) : Prop := Complete b.1 ∧ Plain b.2

variable {M}

variable {line : JsString}

theorem Plain.ne_esc (h : Plain line) : ∀ c ∈ line, c ≠ esc := by
  rintro c hc rfl
  exact absurd (h esc hc).1 (by decide)

theorem textOf_clusters (line : JsString) : textOf ((M.segment line).map .grapheme) = line := by
  have hflat : ∀ gs : List JsString, textOf (gs.map .grapheme) = gs.flatten := by
    intro gs
    induction gs with
    | nil => rfl
    | cons g gs ih =>
      rw [map_cons, ← singleton_append, textOf_append, textOf_grapheme, ih, flatten_cons]
  rw [hflat, M.segment_flatten]

theorem blockSegments_cons (b : Block) (blocks : List Block) : blockSegments M (b :: blocks) =
      [Segment.ansi b.1] ++ ((M.segment b.2).map .grapheme ++ blockSegments M blocks) := rfl

theorem textOf_blockSegments (blocks : List Block) : textOf (blockSegments M blocks) = blockText blocks := by
  induction blocks with
  | nil => rfl
  | cons b blocks ih =>
    rw [blockSegments_cons, textOf_append, textOf_append, textOf_ansi, textOf_clusters, ih, ← append_assoc]
    rfl

theorem closed_blocks {blocks : List Block} (h : ∀ b ∈ blocks, BlockOk b) :
    Closed ((blockSegments M blocks).flatMap Segment.items) := by
  intro y hy
  obtain ⟨x, hx, hyx⟩ := mem_flatMap.mp hy
  obtain ⟨b, hb, hxb⟩ := mem_flatMap.mp hx
  obtain ⟨hcode, hplain⟩ := h b hb
  rcases mem_cons.mp hxb with rfl | hg
  · rw [mem_singleton.mp hyx]
    exact hcode
  · obtain ⟨g, hcluster, rfl⟩ := mem_map.mp hg
    obtain ⟨c, hc, rfl⟩ := mem_map.mp hyx
    refine hplain.ne_esc c ?_
    rw [← M.segment_flatten b.2]
    exact mem_flatten.mpr ⟨g, hcluster, hc⟩

theorem segmented_ansi (run gs : List JsString) (code : JsString) (T : List Segment) :
    Segmented M run (gs.map .grapheme ++ Segment.ansi code :: T) ↔
      M.segment (run ++ gs).flatten = run ++ gs ∧ Segmented M [] T := by
  induction gs generalizing run with
  | nil =>
    rw [append_nil]
    exact Iff.rfl
  | cons g gs ih =>
    rw [map_cons, cons_append, Segmented, ih, append_assoc]
    rfl

theorem segmented_blocks (line : JsString) (blocks : List Block) :
    Segmented M [] ((M.segment line).map .grapheme ++ blockSegments M blocks) := by
  induction blocks generalizing line with
  | nil =>
    have hnil : blockSegments M [] = [] := rfl
    rw [hnil, append_nil, segmented_graphemes, nil_append, M.segment_flatten]
  | cons b blocks ih =>
    rw [blockSegments_cons, singleton_append, segmented_ansi, nil_append, M.segment_flatten]
    exact ⟨rfl, ih b.2⟩

theorem write_blocks {blocks : List Block} (h : ∀ b ∈ blocks, BlockOk b) (s : Screen JsString) :
    write M s (blockText blocks) = blocks.foldl (writeBlock M) s := by
  have hsegmented := segmented_blocks (M := M) [] blocks
  rw [segment_nil, map_nil, nil_append] at hsegmented
  rw [write, ← textOf_blockSegments (M := M), segments_textOf (closed_blocks h) hsegmented]
  clear h hsegmented
  induction blocks generalizing s with
  | nil => rfl
  | cons b blocks ih =>
    rw [blockSegments_cons, foldl_append, foldl_append, foldl_map, ih]
    rfl

/-! ### Sequences -/

theorem params_decimal (n : Nat) : Params (decimal n) := by
  intro c hc
  have hdigit := (JsText.digits_decimal n).2 c hc
  rw [isDigit] at hdigit
  rw [AnsiCodeTracker.isParam, hdigit]
  rfl

theorem semicolon_not_mem_decimal (n : Nat) : semicolon ∉ decimal n := by
  intro h
  exact absurd ((JsText.digits_decimal n).2 _ h) (by decide)

theorem parseInt_decimal (n : Nat) : parseInt (decimal n) = some n := by
  have hfold : ∀ (cs : List Char) (acc : Nat), (∀ c ∈ cs, c ∈ Nat.toDigits 10 n) →
      (cs.map fun c => UInt16.ofNat c.toNat).foldl (fun k c => 10 * k + (c.toNat - 48)) acc =
        Nat.ofDigitChars 10 cs acc := by
    intro cs
    induction cs with
    | nil => intro acc _; rfl
    | cons c cs ih =>
      intro acc hcs
      have hval := (JsText.toNat_digit (hcs c mem_cons_self)).1
      rw [map_cons, foldl_cons, hval, ih _ fun d hd => hcs d (mem_cons_of_mem _ hd)]
      rfl
  rw [parseInt, if_neg (JsText.digits_decimal n).1, decimal, hfold _ 0 fun c hc => hc, Nat.ofDigitChars_ten_toDigits]

theorem complete_cursorTo (row col : Nat) : Complete (cursorTo row col) := by
  have hparams : Params (decimal row ++ [semicolon] ++ decimal col) := by
    intro c hc
    rw [append_assoc, mem_append, mem_append] at hc
    rcases hc with hc | hc | hc
    · exact params_decimal row c hc
    · rw [mem_singleton.mp hc]
      decide
    · exact params_decimal col c hc
  have hlen : (cursorTo row col).length = (decimal row ++ [semicolon] ++ decimal col).length + 1 + 2 := by
    simp only [cursorTo, length_append, length_cons, length_nil]
    omega
  rw [Complete, hlen]
  change (csiLength false ((decimal row ++ [semicolon] ++ decimal col) ++ [0x48])).map (· + 2) = _
  rw [csiLength_final hparams (by decide)]
  rfl

theorem control_cursorTo (s : Screen JsString) (row col : Nat) :
    control s (cursorTo row col) = s.moveTo (row - 1) (col - 1) := by
  have hlast : (cursorTo row col).getLast? = some 0x48 := getLast?_concat
  have hscreen : cursorTo row col ≠ eraseScreen := by
    intro h
    rw [h] at hlast
    exact absurd hlast (by decide)
  have hline : cursorTo row col ≠ eraseLine := by
    intro h
    rw [h] at hlast
    exact absurd hlast (by decide)
  have hparams : cursorParams (cursorTo row col) = some (row, col) := by
    have hsplit : splitOn semicolon (decimal row ++ [semicolon] ++ decimal col) = [decimal row, decimal col] := by
      rw [append_assoc, singleton_append, splitOn_append, splitOn_absent (semicolon_not_mem_decimal row),
        splitOn_absent (semicolon_not_mem_decimal col)]
      rfl
    change (if (0x5b : UInt16) = 0x5b ∧
      ((decimal row ++ [semicolon] ++ decimal col) ++ [0x48]).getLast? = some 0x48 then
      (match splitOn semicolon ((decimal row ++ [semicolon] ++ decimal col) ++ [0x48]).dropLast with
        | p :: q :: _ => some ((parseInt p).getD 1, (parseInt q).getD 1)
        | [p] => some ((parseInt p).getD 1, 1)
        | [] => none) else none) = _
    rw [if_pos ⟨rfl, getLast?_concat⟩, dropLast_concat, hsplit]
    dsimp only
    rw [parseInt_decimal, parseInt_decimal]
    rfl
  rw [control, if_neg hscreen, if_neg hline, hparams]

theorem control_other (s : Screen JsString) {code : JsString} (hscreen : code ≠ eraseScreen) (hline : code ≠ eraseLine)
    (h : cursorParams code = none) : control s code = s := by
  rw [control, if_neg hscreen, if_neg hline, h]

/-! ### Rows -/

theorem visibleWidth_plain (h : Plain line) : visibleWidth M line = clustersWidth (rowClusters M line) := by
  have hclosed : Closed (line.map .unit) := by
    intro x hx
    obtain ⟨c, hc, rfl⟩ := mem_map.mp hx
    exact h.ne_esc c hc
  have hnotab : ∀ c ∈ line, c ≠ 9 := by
    rintro c hc rfl
    exact absurd (h 9 hc).1 (by decide)
  have hwidth := visibleWidth_closed M hclosed
  rw [render_units, units_map_unit, expandTabs_none hnotab] at hwidth
  rw [hwidth, Metrics.clusterWidth, clustersWidth, rowClusters, map_map]
  rfl

theorem foldl_put (h : Plain line) (s : Screen JsString) :
    (M.segment line).foldl (put M) s = s.printAll (rowClusters M line) := by
  have hprint : ∀ g ∈ M.segment line, ∀ s, put M s g = s.print g (M.graphemeWidth g) := by
    intro g hg s
    have hunits : ∀ c ∈ g, 0x20 ≤ c := by
      intro c hc
      refine (h c ?_).1
      rw [← M.segment_flatten line]
      exact mem_flatten.mpr ⟨g, hg, hc⟩
    have hne : ∀ (c : UInt16) (t : JsString), c < 0x20 → g ≠ c :: t := by
      rintro c t hc rfl
      exact absurd (hunits c mem_cons_self) (UInt16.not_le.mpr hc)
    rw [put, if_neg (hne _ _ (by decide)), if_neg (hne _ _ (by decide)), if_neg (hne _ _ (by decide)),
      if_neg (hne _ _ (by decide)), if_neg (hne _ _ (by decide))]
  rw [printAll, rowClusters, foldl_map]
  revert hprint
  generalize M.segment line = gs
  intro hprint
  induction gs generalizing s with
  | nil => rfl
  | cons g gs ih =>
    rw [foldl_cons, foldl_cons, hprint g mem_cons_self]
    exact ih _ fun g' hg' => hprint g' (mem_cons_of_mem _ hg')

variable (M)

/-- A row that fits and has no control characters. -/
def RowOk (width : Nat) (line : JsString) : Prop := Plain line ∧ visibleWidth M line ≤ width

instance (width : Nat) (line : JsString) : Decidable (RowOk M width line) := inferInstanceAs (Decidable (_ ∧ _))

def lineOf (frame : List JsString) (row : Nat) : JsString := frame[row]?.getD []

/-- The cells of the rows of a frame. -/
def frameRows (frame : List JsString) (row : Nat) : List (JsString × Nat) := rowClusters M (lineOf frame row)

variable {M}

def rowBlocks (prevFrame frame : List JsString) (row : Nat) : List Block :=
  if prevFrame[row]? = some (lineOf frame row) then []
  else [(cursorTo (row + 1) 1, []), (eraseLine, lineOf frame row)]

theorem plain_nil : Plain [] := fun c hc => by cases hc

variable {width : Nat} {frame : List JsString}

theorem rowOk_lineOf (h : ∀ line ∈ frame, RowOk M width line) (row : Nat) : RowOk M width (lineOf frame row) := by
  rw [lineOf]
  cases hrow : frame[row]? with
  | none => exact ⟨plain_nil, Nat.zero_le _⟩
  | some line => exact h line (mem_of_getElem? hrow)

theorem blockText_rowBlocks (prevFrame : List JsString) (h : ∀ line ∈ frame, RowOk M width line) (row : Nat) :
    blockText (rowBlocks prevFrame frame row) = paintRow M prevFrame frame width row := by
  have hclamp : clampLine M (lineOf frame row) width = lineOf frame row :=
    if_neg (Nat.not_lt.mpr (rowOk_lineOf h row).2)
  rw [rowBlocks, paintRow]
  change _ = if prevFrame[row]? = some (lineOf frame row) then [] else
    cursorTo (row + 1) 1 ++ eraseLine ++ clampLine M (lineOf frame row) width
  split
  · rfl
  · rw [hclamp]
    simp [blockText]

theorem complete_eraseLine : Complete eraseLine := by
  unfold Complete
  decide

theorem rowBlocks_ok (prevFrame : List JsString)
    (h : ∀ line ∈ frame, RowOk M width line) (row : Nat) : ∀ b ∈ rowBlocks prevFrame frame row, BlockOk b := by
  intro b hb
  rw [rowBlocks] at hb
  split at hb
  · cases hb
  · simp only [mem_cons, not_mem_nil, or_false] at hb
    rcases hb with rfl | rfl
    · exact ⟨complete_cursorTo _ _, plain_nil⟩
    · exact ⟨complete_eraseLine, (rowOk_lineOf h row).1⟩

theorem foldl_rowBlocks {prevFrame : List JsString} (h : ∀ line ∈ frame, RowOk M width line)
    (row : Nat) (s : Screen JsString) : (rowBlocks prevFrame frame row).foldl (writeBlock M) s =
      if prevFrame[row]? = some (lineOf frame row) then s else s.writeRow row (frameRows M frame row) := by
  have heraseLine : ∀ s : Screen JsString, control s eraseLine = s.eraseRow := by
    intro s
    rw [control, if_neg (by decide), if_pos rfl]
  rw [rowBlocks]
  split
  · rfl
  · rw [foldl_cons, foldl_cons, foldl_nil, writeBlock, writeBlock, segment_nil, foldl_nil,
      control_cursorTo, heraseLine, foldl_put (rowOk_lineOf h row).1]
    rfl

/-- The rows that are written hold the frame, and so do the rows that did before. -/
theorem foldl_rows {prevFrame : List JsString} {s : Screen JsString} (h : ∀ line ∈ frame, RowOk M s.width line)
    (hprev : ∀ r < s.height, prevFrame[r]? = some (lineOf frame r) →
      ∀ c, s.cells r c = (clusterCells (frameRows M frame r))[c]?) (k : Nat) (hk : k ≤ s.height) :
    let painted := ((List.range k).flatMap (rowBlocks prevFrame frame)).foldl (writeBlock M) s
    painted.width = s.width ∧ painted.height = s.height ∧ ∀ r < s.height, ∀ c,
      painted.cells r c = if r < k then (clusterCells (frameRows M frame r))[c]? else s.cells r c := by
  induction k with
  | zero => exact ⟨rfl, rfl, fun r _ c => by rw [if_neg (Nat.not_lt_zero r)]; rfl⟩
  | succ k ih =>
    obtain ⟨hwidth, hheight, hcells⟩ := ih (by omega)
    have hfits : clustersWidth (frameRows M frame k) ≤ s.width := by
      have hrow := rowOk_lineOf h k
      rw [frameRows, ← visibleWidth_plain hrow.1]
      exact hrow.2
    rw [range_succ, flatMap_append, flatMap_singleton]
    dsimp only at hwidth hheight hcells ⊢
    rw [foldl_append, foldl_rowBlocks h]
    split
    · rename_i hsame
      refine ⟨hwidth, hheight, fun r hr c => ?_⟩
      rw [hcells r hr c]
      by_cases hlt : r < k
      · rw [if_pos hlt, if_pos (by omega)]
      · rw [if_neg hlt]
        by_cases heq : r = k
        · rw [if_pos (by omega), heq]
          exact hprev k (by omega) hsame c
        · rw [if_neg (by omega)]
    · rw [← hwidth] at hfits
      obtain ⟨hw, hh⟩ := @Screen.writeRow_size _ _ _ k hfits
      refine ⟨hw.trans hwidth, hh.trans hheight, fun r hr c => ?_⟩
      rw [writeRow_cells (by omega) hfits, hcells r hr c]
      by_cases heq : r = k
      · rw [if_pos heq, if_pos (by omega), heq]
      · rw [if_neg heq]
        by_cases hlt : r < k
        · rw [if_pos hlt, if_pos (by omega)]
        · rw [if_neg hlt, if_neg (by omega)]

/-! ### Frames -/

def cursorBlocks (height : Nat) : Option (Nat × Nat) → List Block
  | some (row, col) => [(cursorTo (min (row + 1) height) (col + 1), [])]
  | none => []

/-- The output for a frame, in blocks. -/
def paintBlocks (clear : Bool) (prevFrame frame : List JsString) (height : Nat) (cursorPos : Option (Nat × Nat)) :
    List Block :=
  [(syncBegin, [])] ++ (if clear then [(eraseScreen, []), (cursorHome, [])] else []) ++
    (List.range height).flatMap (rowBlocks prevFrame frame) ++ cursorBlocks height cursorPos ++ [(syncEnd, [])]

@[simp] theorem blockText_append (a b : List Block) : blockText (a ++ b) = blockText a ++ blockText b :=
  flatMap_append

theorem paintBlocks_ok {height : Nat} (clear : Bool) (prevFrame : List JsString)
    (h : ∀ line ∈ frame, RowOk M width line) (cursorPos : Option (Nat × Nat)) :
    ∀ b ∈ paintBlocks clear prevFrame frame height cursorPos, BlockOk b := by
  have hcode : ∀ {code : JsString}, Complete code → BlockOk (code, []) := fun hc => ⟨hc, plain_nil⟩
  intro b hb
  simp only [paintBlocks, mem_append, mem_singleton] at hb
  rcases hb with (((rfl | hb) | hb) | hb) | rfl
  · exact hcode (by unfold Complete; decide)
  · cases clear with
    | false => cases hb
    | true =>
      simp only [if_true, mem_cons, not_mem_nil, or_false] at hb
      rcases hb with rfl | rfl
      · exact hcode (by unfold Complete; decide)
      · exact hcode (by unfold Complete; decide)
  · obtain ⟨row, -, hb⟩ := mem_flatMap.mp hb
    exact rowBlocks_ok prevFrame h row b hb
  · cases cursorPos with
    | none => cases hb
    | some pos =>
      rw [mem_singleton.mp hb]
      exact hcode (complete_cursorTo _ _)
  · exact hcode (by unfold Complete; decide)

namespace FullscreenViewport

variable {α : Type}

theorem paint_data (v : FullscreenViewport α) {frame : List JsString} {width height : Nat}
    (h : ∀ line ∈ bottomRows frame height, RowOk M width line) (cursorPos : Option (Nat × Nat)) :
    ∃ clear : Bool, (clear = true ↔ width ≠ v.prevWidth ∨ height ≠ v.prevHeight ∨ v.prevFrame = []) ∧
      (v.paint M frame width height cursorPos).2 =
        blockText (paintBlocks clear (if clear then [] else v.prevFrame)
          (bottomRows frame height) height cursorPos) := by
  refine ⟨decide (width ≠ v.prevWidth ∨ height ≠ v.prevHeight ∨ v.prevFrame = []), decide_eq_true_iff, ?_⟩
  unfold paint
  dsimp only
  generalize decide (width ≠ v.prevWidth ∨ height ≠ v.prevHeight ∨ v.prevFrame = []) = clear
  have hrows : ∀ rows : List Nat,
      rows.flatMap (paintRow M (if clear then [] else v.prevFrame) (bottomRows frame height) width) =
      blockText (rows.flatMap (rowBlocks (if clear then [] else v.prevFrame) (bottomRows frame height))) := by
    intro rows
    induction rows with
    | nil => rfl
    | cons row rows ih =>
      rw [flatMap_cons, flatMap_cons, blockText_append, blockText_rowBlocks _ h, ih]
  have hclear : blockText (if clear then [(eraseScreen, []), (cursorHome, [])] else []) =
      if clear then eraseScreen ++ cursorHome else [] := by
    cases clear with
    | false => rfl
    | true => simp [blockText]
  have hcursor : blockText (cursorBlocks height cursorPos) = (match cursorPos with
        | some (row, col) => cursorTo (min (row + 1) height) (col + 1)
        | none => []) := by
    cases cursorPos with
    | none => rfl
    | some pos => simp [cursorBlocks, blockText]
  have hsync : ∀ code : JsString, blockText [(code, [])] = code := by
    intro code
    simp [blockText]
  rw [paintBlocks, blockText_append, blockText_append, blockText_append, blockText_append, hsync, hsync,
    hclear, hcursor,
    hrows]

/-- The screen shows the frame after a paint, when the rows that are left as they were show their line. -/
theorem write_paint (v : FullscreenViewport α) {frame : List JsString} {s : Screen JsString}
    (h : ∀ line ∈ bottomRows frame s.height, RowOk M s.width line)
    (hprev : s.width = v.prevWidth → s.height = v.prevHeight → v.prevFrame ≠ [] → s.Shows (frameRows M v.prevFrame))
    (cursorPos : Option (Nat × Nat)) : let painted := write M s (v.paint M frame s.width s.height cursorPos).2
    painted.width = s.width ∧ painted.height = s.height ∧ painted.Shows (frameRows M (bottomRows frame s.height)) := by
  obtain ⟨clear, hclear, hdata⟩ := v.paint_data h cursorPos
  have hother : ∀ (s : Screen JsString) {code : JsString}, code ≠ eraseScreen → code ≠ eraseLine →
      cursorParams code = none → writeBlock M s (code, []) = s := by
    intro s code hscreen hline hparams
    rw [writeBlock, segment_nil, foldl_nil, control_other s hscreen hline hparams]
  have hbegin : ∀ s : Screen JsString, writeBlock M s (syncBegin, []) = s :=
    fun s => hother s (by decide) (by decide) (by decide)
  have hend : ∀ s : Screen JsString, writeBlock M s (syncEnd, []) = s :=
    fun s => hother s (by decide) (by decide) (by decide)
  -- the rows to write start from the old rows, or from a screen without any
  obtain ⟨start, hstart, hwidth, hheight, hsame⟩ : ∃ start : Screen JsString,
      (if clear then [(eraseScreen, ([] : JsString)), (cursorHome, [])] else []).foldl (writeBlock M) s = start ∧
      start.width = s.width ∧ start.height = s.height ∧
      ∀ r < start.height, (if clear then [] else v.prevFrame)[r]? = some (lineOf (bottomRows frame s.height) r) →
        ∀ c, start.cells r c = (clusterCells (frameRows M (bottomRows frame s.height) r))[c]? := by
    refine ⟨_, rfl, ?_⟩
    cases clear with
    | true =>
      have herase : control s eraseScreen = s.erase := by rw [control, if_pos rfl]
      have hhome : control s.erase cursorHome = s.erase.moveTo 0 0 := by
        have hparams : cursorParams cursorHome = some (1, 1) := by decide
        rw [control, if_neg (by decide), if_neg (by decide), hparams]
      have hwrite : [(eraseScreen, ([] : JsString)), (cursorHome, [])].foldl (writeBlock M) s = s.erase.moveTo 0 0 := by
        rw [foldl_cons, foldl_cons, foldl_nil, writeBlock, writeBlock, segment_nil, foldl_nil,
          foldl_nil, herase, hhome]
      rw [if_pos rfl, hwrite]
      exact ⟨rfl, rfl, fun r _ hr => by cases hr⟩
    | false =>
      rw [if_neg (by simp), foldl_nil]
      refine ⟨rfl, rfl, fun r hr hline c => ?_⟩
      rw [if_neg (by simp)] at hline
      have hkeep : ¬ (s.width ≠ v.prevWidth ∨ s.height ≠ v.prevHeight ∨ v.prevFrame = []) := by
        intro hc
        cases hclear.mpr hc
      push Not at hkeep
      have hshown := hprev hkeep.1 hkeep.2.1 hkeep.2.2 r hr c
      rw [hshown, frameRows, frameRows, lineOf, hline]
      rfl
  have hrowsOk : ∀ line ∈ bottomRows frame s.height, RowOk M start.width line := by
    rw [hwidth]
    exact h
  obtain ⟨hw, hh, hcells⟩ := foldl_rows (M := M) hrowsOk hsame s.height (Nat.le_of_eq hheight.symm)
  rw [hdata, write_blocks (paintBlocks_ok clear _ h cursorPos), paintBlocks, foldl_append, foldl_append,
    foldl_append, foldl_append, foldl_cons, foldl_nil, hend, foldl_cons, foldl_nil,
    hbegin, hstart]
  dsimp only at hw hh hcells ⊢
  have hshows : ∀ t : Screen JsString, t.width = start.width ∧ t.height = start.height ∧ (∀ r < start.height, ∀ c,
      t.cells r c = if r < s.height then (clusterCells (frameRows M (bottomRows frame s.height) r))[c]?
        else start.cells r c) → t.width = s.width ∧ t.height = s.height ∧
        t.Shows (frameRows M (bottomRows frame s.height)) := by
    rintro t ⟨htw, hth, htc⟩
    refine ⟨htw.trans hwidth, hth.trans hheight, fun r hr c => ?_⟩
    rw [htc r (by omega) c, if_pos (by omega)]
  cases cursorPos with
  | none => exact hshows _ ⟨hw, hh, hcells⟩
  | some pos =>
    rw [cursorBlocks, foldl_cons, foldl_nil, writeBlock, segment_nil, foldl_nil, control_cursorTo]
    exact hshows _ ⟨hw, hh, hcells⟩

/-! ### Lines that are appended -/

theorem windowRow_congr {v v' : FullscreenViewport α} {lineIndex : Nat}
    (h : v'.selectedSpans lineIndex = v.selectedSpans lineIndex) (line : JsString) :
    v'.windowRow M lineIndex line = v.windowRow M lineIndex line := by
  rw [windowRow, windowRow, h]

/-- What the window shows stays where it is while the viewport does not follow, and what is selected stays selected. -/
structure Stays (c₁ c₂ : FullscreenViewport α × List JsString) (transcript : List JsString) : Prop where
  scrollTop : c₂.1.scrollTop = c₁.1.scrollTop
  lines : ∀ row, c₂.1.lineAt .transcript row = c₁.1.lineAt .transcript row
  rows : ∀ row line, c₁.1.lineAt .transcript row = some line → line < transcript.length →
    c₂.2[row.toNat]? = c₁.2[row.toNat]?
  selected : ∀ lineIndex, c₂.1.selectedSpans lineIndex = c₁.1.selectedSpans lineIndex

theorem selectedSpans_congr {v v' : FullscreenViewport α} (hmode : v'.selectionMode = v.selectionMode)
    (hends : v'.orderedSelection = v.orderedSelection) (htable : v.selectionMode = some .table → ∀ lineIndex sel,
      v'.selectedTableSpans lineIndex sel = v.selectedTableSpans lineIndex sel) (lineIndex : Nat) :
    v'.selectedSpans lineIndex = v.selectedSpans lineIndex := by
  rw [selectedSpans, selectedSpans, hmode, hends]
  cases hm : v.selectionMode with
  | none => rfl
  | some mode =>
    cases v.orderedSelection with
    | none => cases mode with
      | _ => rfl
    | some sel => cases mode with
      | transcript => rfl
      | frame => rfl
      | table => exact htable hm lineIndex sel

theorem composeFrame_append (v : FullscreenViewport α) (transcript more dock : List JsString) (height : Nat)
    {regions regions' : List TableCellSelectionRegion} (header : List JsString) (hfollowing : v.following = false)
    (hregions : v.selectionMode = some .table → regions' = regions) :
    Stays (v.composeFrame M transcript dock height regions header)
      ((v.composeFrame M transcript dock height regions header).1.composeFrame M (transcript ++ more) dock height
        regions' header) transcript := by
  have hlayout := v.composeFrame_layout (M := M) transcript dock height regions header
  have hrows := fun area row line => @composeFrame_row α M v transcript dock height regions header area row line
  have hstill : (v.composeFrame M transcript dock height regions header).1.following = false := hfollowing
  have htable : (v.composeFrame M transcript dock height regions header).1.selectionMode = some .table →
      regions' = (v.composeFrame M transcript dock height regions header).1.tableCellSelectionRegions := hregions
  revert hlayout hrows hstill htable
  generalize v.composeFrame M transcript dock height regions header = c₁
  rintro ⟨hdock, -, hheader, -, hwindow, hmax, hscroll⟩ hrows hstill htable
  have hlayout' := c₁.1.composeFrame_layout (M := M) (transcript ++ more) dock height regions' header
  have hrows' := fun area row line =>
    @composeFrame_row α M c₁.1 (transcript ++ more) dock height regions' header area row line
  have hspans : ∀ lineIndex, (c₁.1.composeFrame M (transcript ++ more) dock height regions' header).1.selectedSpans
      lineIndex = c₁.1.selectedSpans lineIndex := by
    refine selectedSpans_congr rfl rfl fun hmode lineIndex sel => ?_
    rw [htable hmode]
    rfl
  revert hlayout' hrows' hspans
  generalize c₁.1.composeFrame M (transcript ++ more) dock height regions' header = c₂
  rintro ⟨hdock', -, hheader', -, hwindow', hmax', hscroll'⟩ hrows' hspans
  rw [hfollowing, if_neg (by simp)] at hscroll
  rw [hstill, if_neg (by simp)] at hscroll'
  rw [length_append] at hmax'
  have hdockSame : c₂.1.lastDockHeight = c₁.1.lastDockHeight := by rw [hdock', hdock]
  have hheaderSame : c₂.1.lastHeaderHeight = c₁.1.lastHeaderHeight := by rw [hheader', hheader, hdockSame]
  have hwindowSame : c₂.1.lastWindowHeight = c₁.1.lastWindowHeight := by
    rw [hwindow', hwindow, hdockSame, hheaderSame]
  have htop : c₂.1.scrollTop = c₁.1.scrollTop := by
    rw [hscroll', hmax', hwindowSame]
    omega
  have hlines : ∀ row, c₂.1.lineAt .transcript row = c₁.1.lineAt .transcript row := by
    intro row
    simp only [lineAt, hheaderSame, hwindowSame, htop]
  refine ⟨htop, hlines, fun row line hline hlt => ?_, hspans⟩
  obtain ⟨-, hpos, hrow⟩ := hrows _ _ _ hline
  obtain ⟨-, -, hrow'⟩ := hrows' _ _ _ ((hlines row).trans hline)
  have hget : (transcript ++ more)[line.toNat]? = transcript[line.toNat]? := getElem?_append_left (by omega)
  rw [hrow', hrow, areaLine, areaLine, hget, getElem?_eq_getElem (show line.toNat < transcript.length by omega),
    Option.map_some, Option.map_some, windowRow_congr (hspans line.toNat)]

end FullscreenViewport

/-! ### Runs -/

/-- The viewport and the terminal. -/
structure World (α : Type) where
  viewport : FullscreenViewport α
  screen : Screen JsString
  /-- The terminal has changed its size since the last paint. -/
  resized : Bool

inductive Event (α : Type) where
  | reset
  /-- Frames are composed, scrolled and selected in: what the last paint left is kept. -/
  | arrange (v : FullscreenViewport α)
  /-- The terminal changes its size, with anything on it. -/
  | resize (screen : Screen JsString)
  | paint (frame : List JsString) (cursorPos : Option (Nat × Nat))

namespace World

variable {α : Type}

variable (M) in
/-- A paint at the size that the terminal has. -/
def paint (w : World α) (frame : List JsString) (cursorPos : Option (Nat × Nat)) : World α where
  viewport := (w.viewport.paint M frame w.screen.width w.screen.height cursorPos).1
  screen := write M w.screen (w.viewport.paint M frame w.screen.width w.screen.height cursorPos).2
  resized := false

variable (M) in
def step (w : World α) : Event α → Option (World α)
  | .reset => some { w with viewport := w.viewport.reset }
  | .arrange v =>
    some { w with viewport := { v with
      prevFrame := w.viewport.prevFrame
      prevWidth := w.viewport.prevWidth
      prevHeight := w.viewport.prevHeight } }
  | .resize screen => some { w with screen := screen, resized := true }
  | .paint frame cursorPos => some (w.paint M frame cursorPos)

variable (M) in
/-- The rows of a paint fit and have no control characters. A terminal that changed its size has another one than at
the last paint, or the viewport was reset. -/
def Allowed (w : World α) : Event α → Prop
  | .paint frame _ =>
    (∀ line ∈ FullscreenViewport.bottomRows frame w.screen.height, RowOk M w.screen.width line) ∧
      (w.resized = true → w.screen.width ≠ w.viewport.prevWidth ∨ w.screen.height ≠ w.viewport.prevHeight ∨
        w.viewport.prevFrame = [])
  | _ => True

instance (w : World α) (e : Event α) : Decidable (w.Allowed M e) :=
  match e with
  | .paint _ _ => inferInstanceAs (Decidable (_ ∧ _))
  | .reset => inferInstanceAs (Decidable True)
  | .arrange _ => inferInstanceAs (Decidable True)
  | .resize _ => inferInstanceAs (Decidable True)

variable (M) in
/-- The screen shows the frame that the viewport remembers. -/
def Painted (w : World α) : Prop :=
  w.resized = false → w.viewport.prevFrame ≠ [] →
    w.screen.width = w.viewport.prevWidth ∧ w.screen.height = w.viewport.prevHeight ∧
      w.screen.Shows (frameRows M w.viewport.prevFrame)

theorem paint_shows {w : World α} (h : w.Painted M) {frame : List JsString} {cursorPos : Option (Nat × Nat)}
    (hallowed : w.Allowed M (.paint frame cursorPos)) : (w.paint M frame cursorPos).Painted M ∧
      (w.paint M frame cursorPos).screen.Shows
        (frameRows M (FullscreenViewport.bottomRows frame w.screen.height)) := by
  obtain ⟨hrows, hsize⟩ := hallowed
  have hprev : w.screen.width = w.viewport.prevWidth → w.screen.height = w.viewport.prevHeight →
      w.viewport.prevFrame ≠ [] → w.screen.Shows (frameRows M w.viewport.prevFrame) := by
    intro hwidth hheight hne
    cases hresized : w.resized with
    | false => exact (h hresized hne).2.2
    | true =>
      rcases hsize hresized with hw | hh | hnil
      · exact absurd hwidth hw
      · exact absurd hheight hh
      · exact absurd hnil hne
  obtain ⟨hw, hh, hshows⟩ := w.viewport.write_paint hrows hprev cursorPos
  exact ⟨fun _ _ => ⟨hw, hh, hshows⟩, hshows⟩

theorem painted_step {w w' : World α} {e : Event α} (h : w.Painted M) (hallowed : w.Allowed M e)
    (hstep : w.step M e = some w') : w'.Painted M := by
  cases e with
  | reset =>
    cases hstep
    exact fun _ hne => absurd rfl hne
  | arrange v =>
    cases hstep
    exact h
  | resize screen =>
    cases hstep
    exact fun hresized => by cases hresized
  | paint frame cursorPos =>
    cases hstep
    exact (paint_shows h hallowed).1

/-- In every run from a viewport that has painted nothing, the screen shows the frame after each paint. While the
viewport does not follow, lines that are appended leave the window and the selection where they are. -/
theorem fullscreen_shows {w w' : World α} (hfresh : w.viewport.prevFrame = [])
    (hrun : Transition.GuardedRuns (step M) (Allowed M) w w') {frame : List JsString} {cursorPos : Option (Nat × Nat)}
    (hallowed : w'.Allowed M (.paint frame cursorPos)) : (w'.paint M frame cursorPos).screen.Shows
        (frameRows M (FullscreenViewport.bottomRows frame w'.screen.height)) ∧
      ∀ (v : FullscreenViewport α) (transcript more dock : List JsString) (height : Nat)
        (regions regions' : List TableCellSelectionRegion) (header : List JsString), v.following = false →
        (v.selectionMode = some .table → regions' = regions) →
        FullscreenViewport.Stays (v.composeFrame M transcript dock height regions header)
          ((v.composeFrame M transcript dock height regions header).1.composeFrame M (transcript ++ more) dock height
            regions' header) transcript := by
  have hstart : w.Painted M := fun _ hne => absurd hfresh hne
  have hpainted : w'.Painted M := hrun.keeps hstart fun _ _ _ h hg hs => painted_step h hg hs
  refine ⟨(paint_shows hpainted hallowed).2, ?_⟩
  intro v transcript more dock height regions regions' header hfollowing hregions
  exact v.composeFrame_append transcript more dock height header hfollowing hregions

/-- A viewport that has painted nothing, on an empty screen. -/
def opened (width height : Nat) : World Unit := ⟨.initial, Screen.blank width height, true⟩

/-- The second frame differs in its second row. -/
theorem fullscreen_shows_diff :
    ∃ w', Transition.GuardedRuns (step wideMetrics) (Allowed wideMetrics) (opened 4 2) w' ∧
      (w'.paint wideMetrics [ofAscii "ab", ofAscii "xy"] none).screen.cells 1 0 = some (ofAscii "x", 0) := by
  have hrun : Transition.GuardedRuns (step wideMetrics) (Allowed wideMetrics) (opened 4 2)
      ((opened 4 2).paint wideMetrics [ofAscii "ab", ofAscii "cd"] none) :=
    .single ⟨.paint [ofAscii "ab", ofAscii "cd"] none, by decide, rfl⟩
  have hshows := (@fullscreen_shows wideMetrics Unit (opened 4 2) _ rfl hrun [ofAscii "ab", ofAscii "xy"] none
    (by decide)).1
  exact ⟨_, hrun, (hshows 1 (by decide) 0).trans (by decide)⟩

/-- A row with a line feed moves the rows. A terminal that was made smaller and large again between two paints has lost
a row that is not written again. -/
theorem fullscreen_differs : (esc ∉ [0x61, 0x0a, 0x62] ∧ visibleWidth wideMetrics [0x61, 0x0a, 0x62] ≤ 3 ∧
      ¬ ((opened 3 1).paint wideMetrics [[0x61, 0x0a, 0x62]] none).screen.Shows
        (frameRows wideMetrics [[0x61, 0x0a, 0x62]])) ∧ ∃ w', Transition.Runs (step wideMetrics)
        ((opened 2 2).paint wideMetrics [ofAscii "a", ofAscii "b"] none) w' ∧
      w'.screen.width = 2 ∧ w'.screen.height = 2 ∧
      ¬ (w'.paint wideMetrics [ofAscii "a", ofAscii "b"] none).screen.Shows
        (frameRows wideMetrics [ofAscii "a", ofAscii "b"]) := by
  refine ⟨⟨by decide, by decide, fun h => ?_⟩, ?_⟩
  · have hcell := h 0 (by decide) 0
    revert hcell
    decide
  · -- only the top row is kept
    let painted := (opened 2 2).paint wideMetrics [ofAscii "a", ofAscii "b"] none
    let small : Screen JsString := ⟨2, 1, 0, 0, fun r c => if r = 0 then painted.screen.cells 0 c else none⟩
    let large : Screen JsString := ⟨2, 2, 0, 0, small.cells⟩
    have hsmall : Transition.Runs (step wideMetrics) painted { painted with screen := small, resized := true } :=
      .single ⟨.resize small, rfl⟩
    refine ⟨{ painted with screen := large, resized := true }, hsmall.tail ⟨.resize large, rfl⟩, rfl, rfl, fun h => ?_⟩
    have hcell := h 1 (by decide) 0
    revert hcell
    decide

end World

end Tui
end RePrime
