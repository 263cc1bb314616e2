import RePrime.Tui.Composite
import RePrime.Tui.StripAnsi
import Mathlib.Algebra.GroupWithZero.Nat

/-!
# RePrime.Tui.Fullscreen

The viewport of the alternate screen (`fullscreen.ts`): a window over the transcript, with a header above and a dock
below.

* `composeFrame`: the rows of a frame, and what the viewport remembers of its layout.
* `lineAt`: the line of the header, the transcript or the dock that a row of the frame shows.
* `composeFrame_row`: the row has the text of that line.
-/

namespace RePrime
namespace Tui

open List
open JsText (ofAscii)

/-! ### The viewport -/

def FULLSCREEN_MIN_TRANSCRIPT_ROWS : Nat := 3

def clippedFullscreenDockHeight (dockLength height : Nat) : Nat :=
  min dockLength (height - FULLSCREEN_MIN_TRANSCRIPT_ROWS)

def IMAGE_PLACEHOLDER : JsString :=
  ofAscii "\x1b[2m[image " ++ [0x2014] ++ ofAscii " view in inline mode]\x1b[0m"

/-- A line of the transcript and a column. -/
structure SelectionPoint where
  line : Nat
  col : Nat
deriving DecidableEq

structure ColumnSpan where
  fromCol : Nat
  toCol : Nat

inductive SelectionMode where
  | transcript
  | table
  | frame
deriving DecidableEq

structure TableCellSelectionRegion where
  line : Nat
  col : Nat
  width : Nat
  /-- Which table. -/
  table : Nat
  row : Nat
  column : Nat

structure TableCellPosition where
  row : Nat
  column : Nat

structure ActiveTableSelection where
  table : Nat
  anchor : TableCellPosition

/-- A rectangle that can be clicked; `onClick` is its handler. -/
structure ClickRegion (α : Type) where
  line : Int
  col : Int
  width : Int
  height : Int
  onClick : α
deriving DecidableEq

/-- A region on one row of the frame. `anchor` is the row of the region's top line. -/
structure FrameClickTarget (α : Type) where
  row : Int
  col : Int
  width : Int
  anchor : Int
  region : ClickRegion α
deriving DecidableEq

structure FullscreenViewport (α : Type) where
  scrollTop : Nat
  following : Bool
  prevFrame : List JsString
  prevWidth : Nat
  prevHeight : Nat
  lastMaxScroll : Nat
  lastWindowHeight : Nat
  lastHeaderHeight : Nat
  lastHeaderLines : Nat
  lastDockLines : Nat
  lastDockHeight : Nat
  frameClickTargets : List (FrameClickTarget α)
  tableCellSelectionRegions : List TableCellSelectionRegion
  activeTableSelection : Option ActiveTableSelection
  selectionAnchor : Option SelectionPoint
  selectionHead : Option SelectionPoint
  selectionMode : Option SelectionMode

namespace FullscreenViewport

variable {α : Type}

def initial : FullscreenViewport α where
  scrollTop := 0
  following := true
  prevFrame := []
  prevWidth := 0
  prevHeight := 0
  lastMaxScroll := 0
  lastWindowHeight := 0
  lastHeaderHeight := 0
  lastHeaderLines := 0
  lastDockLines := 0
  lastDockHeight := 0
  frameClickTargets := []
  tableCellSelectionRegions := []
  activeTableSelection := none
  selectionAnchor := none
  selectionHead := none
  selectionMode := none

/-! ### Selections -/

/-- The ends of the selection, in order. -/
def orderedSelection (v : FullscreenViewport α) : Option (SelectionPoint × SelectionPoint) :=
  match v.selectionAnchor, v.selectionHead with
  | some a, some b =>
    if a = b then none
    else if a.line > b.line ∨ (a.line = b.line ∧ a.col > b.col) then some (b, a)
    else some (a, b)
  | _, _ => none

def MAX_SAFE_INTEGER : Nat := 2 ^ 53 - 1

def selectionSpan (lineIndex : Nat) (sel : SelectionPoint × SelectionPoint) : Option ColumnSpan :=
  if lineIndex < sel.1.line ∨ lineIndex > sel.2.line then none
  else
    some
      { fromCol := if lineIndex = sel.1.line then sel.1.col else 0
        toCol := if lineIndex = sel.2.line then sel.2.col else MAX_SAFE_INTEGER }

def tableRegions (v : FullscreenViewport α) (table : Nat) : List TableCellSelectionRegion :=
  v.tableCellSelectionRegions.filter fun region => region.table = table

def lineDistance (point : SelectionPoint) (region : TableCellSelectionRegion) : Nat :=
  (point.line - region.line) + (region.line - point.line)

def columnDistance (point : SelectionPoint) (region : TableCellSelectionRegion) : Nat :=
  let stop := region.col + region.width
  if point.col < region.col then region.col - point.col else if point.col > stop then point.col - stop else 0

/-- The cell nearest to the point, the first of several. -/
def closestTableCell (v : FullscreenViewport α) (table : Nat) (point : SelectionPoint) : Option TableCellPosition :=
  let nearest := (v.tableRegions table).foldl
    (fun (best : Option TableCellSelectionRegion) region =>
      match best with
      | none => some region
      | some closest =>
        if lineDistance point region < lineDistance point closest ∨
            (lineDistance point region = lineDistance point closest ∧
              columnDistance point region < columnDistance point closest) then some region
        else some closest) none
  nearest.map fun region => ⟨region.row, region.column⟩

structure TableSelectionRange where
  fromRow : Nat
  toRow : Nat
  fromColumn : Nat
  toColumn : Nat

def activeTableRange (v : FullscreenViewport α) : Option (ActiveTableSelection × TableSelectionRange) :=
  match v.activeTableSelection, v.selectionHead with
  | some active, some head =>
    (v.closestTableCell active.table head).map fun headCell =>
      (active,
        { fromRow := min active.anchor.row headCell.row
          toRow := max active.anchor.row headCell.row
          fromColumn := min active.anchor.column headCell.column
          toColumn := max active.anchor.column headCell.column })
  | _, _ => none

def selectedTableSpans (v : FullscreenViewport α) (lineIndex : Nat) (sel : SelectionPoint × SelectionPoint) :
    List ColumnSpan :=
  match v.activeTableRange with
  | none => []
  | some (active, range) =>
    let singleCell := range.fromRow = range.toRow ∧ range.fromColumn = range.toColumn
    let span := if singleCell then selectionSpan lineIndex sel else none
    if singleCell ∧ span.isNone then []
    else
      let spans := v.tableCellSelectionRegions.filterMap fun region =>
        if region.line ≠ lineIndex ∨ region.table ≠ active.table ∨ region.row < range.fromRow ∨
            region.row > range.toRow ∨ region.column < range.fromColumn ∨ region.column > range.toColumn then none
        else
          let fromCol := match span with
            | some s => max s.fromCol region.col
            | none => region.col
          let toCol := match span with
            | some s => min s.toCol (region.col + region.width)
            | none => region.col + region.width
          if toCol > fromCol then some ⟨fromCol, toCol⟩ else none
      spans.mergeSort fun a b => a.fromCol ≤ b.fromCol

/-- The selected columns of a line of the transcript. -/
def selectedSpans (v : FullscreenViewport α) (lineIndex : Nat) : List ColumnSpan :=
  match v.selectionMode, v.orderedSelection with
  | some .transcript, some sel => (selectionSpan lineIndex sel).toList
  | some .table, some sel => v.selectedTableSpans lineIndex sel
  | _, _ => []

variable (M : Metrics)

def highlightLine (line : JsString) (span : ColumnSpan) : JsString :=
  let width := visibleWidth M line
  let fromCol := min span.fromCol width
  let toCol := min span.toCol width
  if toCol ≤ fromCol then line
  else
    sliceByColumn M line 0 fromCol false ++ ofAscii "\x1b[0m\x1b[7m" ++
      stripAnsi (sliceByColumn M line fromCol (toCol - fromCol) false) ++ ofAscii "\x1b[27m" ++
      sliceByColumn M line toCol (width - toCol) false

/-! ### Frames -/

/-- A row of the window: the line, or the text that stands for an image, with what is selected of it. -/
def windowRow (v : FullscreenViewport α) (lineIndex : Nat) (line : JsString) : JsString :=
  (v.selectedSpans lineIndex).foldr (fun span row => highlightLine M row span)
    (if isImageLine line then IMAGE_PLACEHOLDER else line)

/-- The bottom rows of a header or dock that is too tall. -/
def bottomRows (lines : List JsString) (height : Nat) : List JsString :=
  if lines.length > height then lines.drop (lines.length - height) else lines

def composeFrame (v : FullscreenViewport α) (transcript dock : List JsString) (height : Nat)
    (tableCellSelectionRegions : List TableCellSelectionRegion) (header : List JsString) :
    FullscreenViewport α × List JsString :=
  let dockLines := bottomRows dock (clippedFullscreenDockHeight dock.length height)
  let maxHeader := height - dockLines.length - FULLSCREEN_MIN_TRANSCRIPT_ROWS
  let headerLines := bottomRows header (min header.length maxHeader)
  let windowHeight := height - dockLines.length - headerLines.length
  let maxScroll := transcript.length - windowHeight
  let v := { v with
    scrollTop := if v.following then maxScroll else min v.scrollTop maxScroll
    lastMaxScroll := maxScroll
    lastWindowHeight := windowHeight
    lastHeaderHeight := headerLines.length
    lastHeaderLines := header.length
    lastDockLines := dock.length
    lastDockHeight := dockLines.length
    tableCellSelectionRegions := tableCellSelectionRegions }
  let window := ((transcript.drop v.scrollTop).take windowHeight).mapIdx fun i line =>
    v.windowRow M (v.scrollTop + i) line
  (v, headerLines ++ (window ++ List.replicate (windowHeight - window.length) []) ++ dockLines)

/-! ### Scrolling -/

/-! ### The lines that a frame shows -/

inductive Area where
  | header
  | transcript
  | dock
deriving DecidableEq

/-- The line of the area that the row of the frame shows. The blank rows after the transcript count as its lines. -/
def lineAt (v : FullscreenViewport α) (area : Area) (row : Int) : Option Int :=
  match area with
  | .header =>
    if 0 ≤ row ∧ row < v.lastHeaderHeight then some (row + (v.lastHeaderLines - v.lastHeaderHeight : Nat)) else none
  | .transcript =>
    if v.lastHeaderHeight ≤ row ∧ row < v.lastHeaderHeight + v.lastWindowHeight then
      some (row - v.lastHeaderHeight + v.scrollTop)
    else none
  | .dock =>
    let base : Int := v.lastHeaderHeight + v.lastWindowHeight
    if base ≤ row ∧ row < base + v.lastDockHeight then
      some (row - base + (v.lastDockLines - v.lastDockHeight : Nat))
    else none

/-- The text of a line of an area. -/
def areaLine (v : FullscreenViewport α) (header transcript dock : List JsString) (area : Area) (line : Nat) :
    Option JsString :=
  match area with
  | .header => header[line]?
  | .transcript => some (((transcript)[line]?.map (v.windowRow M line)).getD [])
  | .dock => dock[line]?

variable {M}

@[simp] theorem length_bottomRows (lines : List JsString) (height : Nat) :
    (bottomRows lines height).length = min lines.length height := by
  rw [bottomRows]
  split
  · rw [length_drop]
    omega
  · omega

theorem getElem?_bottomRows (lines : List JsString) (height i : Nat) :
    (bottomRows lines height)[i]? = lines[i + (lines.length - min lines.length height)]? := by
  rw [bottomRows]
  split
  · rw [getElem?_drop]
    congr 1
    omega
  · congr 1
    omega

theorem length_window (lines : List JsString) (f : Nat → JsString → JsString) (start windowHeight : Nat) :
    let window := ((lines.drop start).take windowHeight).mapIdx f
    (window ++ List.replicate (windowHeight - window.length) []).length = windowHeight := by
  simp only [length_append, length_mapIdx, length_take, length_drop, length_replicate]
  omega

theorem getElem?_window (lines : List JsString) (f : Nat → JsString → JsString) (start : Nat) {windowHeight i : Nat}
    (h : i < windowHeight) :
    let window := ((lines.drop start).take windowHeight).mapIdx fun j line => f (start + j) line
    (window ++ List.replicate (windowHeight - window.length) [])[i]? =
      some ((lines[start + i]?.map (f (start + i))).getD []) := by
  dsimp only
  have hlen : (((lines.drop start).take windowHeight).mapIdx fun j line => f (start + j) line).length =
      min windowHeight (lines.length - start) := by simp
  by_cases hi : start + i < lines.length
  · rw [getElem?_append_left (by omega), getElem?_mapIdx, getElem?_take_of_lt h, getElem?_drop,
      getElem?_eq_getElem hi]
    rfl
  · rw [getElem?_append_right (by omega), hlen, getElem?_replicate, if_pos (by omega), getElem?_eq_none (by omega)]
    rfl

section Compose

variable (v : FullscreenViewport α) (transcript dock : List JsString) (height : Nat)
  (regions : List TableCellSelectionRegion) (header : List JsString)

theorem composeFrame_layout : let v' := (v.composeFrame M transcript dock height regions header).1
    v'.lastDockHeight = min dock.length (height - 3) ∧ v'.lastDockLines = dock.length ∧
      v'.lastHeaderHeight = min header.length (height - v'.lastDockHeight - 3) ∧ v'.lastHeaderLines = header.length ∧
      v'.lastWindowHeight = height - v'.lastDockHeight - v'.lastHeaderHeight ∧
      v'.lastMaxScroll = transcript.length - v'.lastWindowHeight ∧
      v'.scrollTop = if v.following then v'.lastMaxScroll else min v.scrollTop v'.lastMaxScroll := by
  have hdock : min dock.length (min dock.length (height - 3)) = min dock.length (height - 3) := by omega
  simp only [composeFrame, length_bottomRows, clippedFullscreenDockHeight, FULLSCREEN_MIN_TRANSCRIPT_ROWS, hdock,
    and_true, true_and]
  omega

/-- The frame is the bottom of the header, the window, and the bottom of the dock. -/
theorem composeFrame_frame : let v' := (v.composeFrame M transcript dock height regions header).1
    ∃ window : List JsString,
      (v.composeFrame M transcript dock height regions header).2 =
        bottomRows header v'.lastHeaderHeight ++ window ++ bottomRows dock v'.lastDockHeight ∧
      window.length = v'.lastWindowHeight ∧
      ∀ i < v'.lastWindowHeight, window[i]? =
        some ((transcript[v'.scrollTop + i]?.map (v'.windowRow M (v'.scrollTop + i))).getD []) := by
  have hclip : ∀ (lines : List JsString) (h : Nat),
      bottomRows lines (bottomRows lines h).length = bottomRows lines h := by
    intro lines h
    refine ext_getElem? fun i => ?_
    rw [getElem?_bottomRows, getElem?_bottomRows, length_bottomRows]
    congr 1
    omega
  refine ⟨_, ?_, length_window _ _ _ _, fun i hi => getElem?_window transcript _ _ hi⟩
  simp only [composeFrame, hclip]

theorem composeFrame_row {area : Area} {row line : Int}
    (h : (v.composeFrame M transcript dock height regions header).1.lineAt area row = some line) :
    0 ≤ row ∧ 0 ≤ line ∧ (v.composeFrame M transcript dock height regions header).2[row.toNat]? =
      (v.composeFrame M transcript dock height regions header).1.areaLine M header transcript dock area line.toNat := by
  obtain ⟨window, hframe, hlen, hrows⟩ := composeFrame_frame (M := M) v transcript dock height regions header
  obtain ⟨hdock, hdockLines, hheader, hheaderLines, hwindow, -⟩ :=
    composeFrame_layout (M := M) v transcript dock height regions header
  revert h hframe hlen hrows hdock hdockLines hheader hheaderLines hwindow
  generalize (v.composeFrame M transcript dock height regions header).1 = v'
  intro h hframe hlen hrows hdock hdockLines hheader hheaderLines hwindow
  have hheaderLen : (bottomRows header v'.lastHeaderHeight).length = v'.lastHeaderHeight := by
    rw [length_bottomRows]
    omega
  rw [hframe]
  cases area with
  | header =>
    simp only [lineAt] at h
    split at h
    · cases h
      refine ⟨by omega, by omega, ?_⟩
      rw [getElem?_append_left (by rw [length_append]; omega), getElem?_append_left (by omega),
        getElem?_bottomRows, areaLine]
      congr 1
      omega
    · cases h
  | transcript =>
    simp only [lineAt] at h
    split at h
    · cases h
      refine ⟨by omega, by omega, ?_⟩
      rw [getElem?_append_left (by rw [length_append]; omega), getElem?_append_right (by omega),
        hheaderLen, hrows _ (by omega), areaLine]
      have hline : v'.scrollTop + (row.toNat - v'.lastHeaderHeight) =
          (row - v'.lastHeaderHeight + v'.scrollTop).toNat := by omega
      rw [hline]
    · cases h
  | dock =>
    simp only [lineAt] at h
    split at h
    · cases h
      refine ⟨by omega, by omega, ?_⟩
      rw [getElem?_append_right (by rw [length_append]; omega), length_append, hheaderLen, hlen,
        getElem?_bottomRows, areaLine]
      congr 1
      omega
    · cases h

end Compose

end FullscreenViewport

end Tui
end RePrime
