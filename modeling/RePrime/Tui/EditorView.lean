import RePrime.Tui.EditorEdit

/-!
# RePrime.Tui.EditorView

How the editor lays its text out, and what goes by the layout: drawing, moves from row to row, and clicks.

Where `wordWrapLine` throws, so does its caller, and the editor keeps what was assigned before.

* `layoutText`, `render`: the rows of a width, and the layout that clicks are mapped through.
* `buildVisualLineMap`, `moveToVisualLine`, `moveCursor`, `pageScroll`: the rows as places in the text, and the moves.
* `placeCursorFromClick`: the cursor at a clicked cell.
-/

namespace RePrime
namespace Tui
namespace Editor

open JsText

variable (h : Host)

/-! ### Layout -/

/-- The chunks that a line is shown as, without its hidden start. -/
def displayChunks (ed : Editor) (width i : Nat) (line : JsString) : Option (List TextChunk) :=
  let displayLine := line.drop (h.lineStart i line)
  if displayLine = [] then some [⟨[], 0, 0⟩]
  else if visibleWidth h.metrics displayLine ≤ width then some [⟨displayLine, 0, displayLine.length⟩]
  else wordWrapLine h.metrics displayLine width (ed.segment h displayLine)

/-- The rows of a line, whose hidden start is `hidden`. The last takes a cursor at its end. -/
def layoutRows (isCurrentLine : Bool) (cursorPos hidden i : Nat) : List TextChunk → List LayoutLine
  | [] => []
  | chunk :: chunks =>
    ⟨chunk.text, isCurrentLine && (chunk.startIndex ≤ cursorPos && (chunks.isEmpty || cursorPos < chunk.endIndex)), i,
      hidden + chunk.startIndex⟩ :: layoutRows isCurrentLine cursorPos hidden i chunks

def layoutFrom (ed : Editor) (contentWidth : Nat) : Nat → List JsString → Option (List LayoutLine)
  | _, [] => some []
  | i, line :: lines =>
    let hidden := h.lineStart i line
    let cursorPos := (ed.state.cursorCol - hidden).toNat
    (ed.displayChunks h contentWidth i line).bind fun chunks =>
      (ed.layoutFrom contentWidth (i + 1) lines).map fun rows =>
        layoutRows (i == ed.state.cursorLine) cursorPos hidden i chunks ++ rows

def layoutText (ed : Editor) (contentWidth : Nat) : Option (List LayoutLine) :=
  if ed.state.lines = [] ∨ ed.isEditorEmpty then some [⟨[], true, 0, 0⟩]
  else ed.layoutFrom h contentWidth 0 ed.state.lines

structure RenderMetrics where
  paddingX : Nat
  promptPrefixWidth : Nat
  inputWidth : Nat

def getRenderMetrics (ed : Editor) (width : Nat) : RenderMetrics :=
  let maxPadding := (width - 1) / 2
  let configuredPaddingX := min h.paddingX maxPadding
  let paddingX := if h.useBackgroundSurface then min (max configuredPaddingX 2) maxPadding else configuredPaddingX
  let contentWidth := max 1 (width - paddingX * 2)
  let promptPrefixWidth := min (visibleWidth h.metrics (h.getPromptPrefix ed.state.lines)) (contentWidth - 1)
  ⟨paddingX, promptPrefixWidth, max 1 (contentWidth - promptPrefixWidth)⟩

/-- `Math.max(5, Math.floor(terminalRows * 0.3))` -/
def pageSize (ed : Editor) : Nat := max 5 (ed.terminalRows * 3 / 10)

/-- `render(width)`, for what it leaves in the editor. -/
def render (ed : Editor) (width : Nat) : Editor :=
  let metrics := ed.getRenderMetrics h width
  let layoutWidth := max 1 (metrics.inputWidth - if metrics.paddingX = 0 then 1 else 0)
  let ed : Editor := { ed with lastWidth := layoutWidth }
  match ed.layoutText h layoutWidth with
  | none => ed
  | some layoutLines =>
    let maxVisibleLines := ed.pageSize
    let cursorLineIndex := (layoutLines.findIdx? (·.hasCursor)).getD 0
    let scrolled :=
      if cursorLineIndex < ed.scrollOffset then cursorLineIndex
      else if cursorLineIndex ≥ ed.scrollOffset + maxVisibleLines then cursorLineIndex - maxVisibleLines + 1
      else ed.scrollOffset
    let scrollOffset := min scrolled (layoutLines.length - maxVisibleLines)
    { ed with
      scrollOffset := scrollOffset
      clickLayout := some ⟨metrics.paddingX, metrics.promptPrefixWidth, layoutLines, scrollOffset⟩ }

/-! ### Rows as places in the text -/

structure VisualLine where
  logicalLine : Nat
  startCol : Nat
  length : Nat
deriving DecidableEq

def visualLinesFrom (ed : Editor) (width : Nat) : Nat → List JsString → Option (List VisualLine)
  | _, [] => some []
  | i, line :: lines =>
    (ed.displayChunks h width i line).bind fun chunks =>
      (ed.visualLinesFrom width (i + 1) lines).map fun rest =>
        chunks.map (fun chunk => ⟨i, h.lineStart i line + chunk.startIndex, chunk.endIndex - chunk.startIndex⟩) ++ rest

def buildVisualLineMap (ed : Editor) (width : Nat) : Option (List VisualLine) :=
  ed.visualLinesFrom h width 0 ed.state.lines

/-- A row is the last of its line when the next belongs to another. -/
def isLastOfLine (vl : VisualLine) (next : Option VisualLine) : Bool :=
  next.all fun n => n.logicalLine != vl.logicalLine

def findVisualLineFrom (line hidden : Nat) (col : Int) : Nat → List VisualLine → Option Nat
  | _, [] => none
  | i, vl :: rest =>
    let offset := col - vl.startCol
    if vl.logicalLine = line ∧ ((hidden > 0 ∧ col < hidden ∧ vl.startCol = hidden) ∨
          (0 ≤ offset ∧ (offset < vl.length ∨ (isLastOfLine vl rest.head? ∧ offset = vl.length)))) then some i
    else findVisualLineFrom line hidden col (i + 1) rest

def findVisualLineAt (ed : Editor) (visualLines : List VisualLine) (line : Nat) (col : Int) : Nat :=
  (findVisualLineFrom line (h.lineStart line (ed.lineAt line)) col 0 visualLines).getD (visualLines.length - 1)

def findCurrentVisualLine (ed : Editor) (visualLines : List VisualLine) : Nat :=
  ed.findVisualLineAt h visualLines ed.state.cursorLine ed.state.cursorCol

/-! ### Moves from row to row -/

/-- The column to move to, and the preferred column to keep. -/
def computeVerticalMoveColumn (preferred : Option Int) (currentVisualCol sourceMaxVisualCol targetMaxVisualCol : Int) :
    Int × Option Int :=
  let targetTooShort := targetMaxVisualCol < currentVisualCol
  match preferred with
  | some p =>
    if currentVisualCol < sourceMaxVisualCol then
      if targetTooShort then (targetMaxVisualCol, some currentVisualCol) else (currentVisualCol, none)
    else if targetTooShort ∨ targetMaxVisualCol < p then (targetMaxVisualCol, some p)
    else (p, none)
  | none => if targetTooShort then (targetMaxVisualCol, some currentVisualCol) else (currentVisualCol, none)

/-- The greatest column on a row; on one that is not the last of its line the end belongs to the next. -/
def maxVisualCol (visualLines : List VisualLine) (i : Nat) (vl : VisualLine) : Nat :=
  if isLastOfLine vl visualLines[i + 1]? then vl.length else vl.length - 1

/-- The column of the cursor on its row. A cursor that was snapped to the start of a segment counts where it would
have been. -/
def currentVisualCol (ed : Editor) (visualLines : List VisualLine) (currentVL : VisualLine) : Int :=
  match ed.snappedFromCursorCol with
  | some col =>
    let vlIndex := ed.findVisualLineAt h visualLines currentVL.logicalLine col
    col - (visualLines[vlIndex]?.elim 0 (·.startCol) : Nat)
  | none => ed.state.cursorCol - currentVL.startCol

/-- The segment of several units that the cursor is in or at the start of. -/
def segmentAtCursor (ed : Editor) (line : JsString) : Option Seg :=
  ((ed.segment h line).takeWhile fun seg => decide ((seg.index : Int) ≤ ed.state.cursorCol)).find? fun seg =>
    decide (seg.segment.length > 1) && decide (ed.state.cursorCol < seg.stop)

/-- The cursor on the target row, before it is snapped. -/
def landOn (ed : Editor) (visualLines : List VisualLine) (current target : Nat) (currentVL targetVL : VisualLine) :
    Editor :=
  let (moveToVisualCol, preferred) := computeVerticalMoveColumn ed.preferredVisualCol
    (ed.currentVisualCol h visualLines currentVL) (maxVisualCol visualLines current currentVL)
    (maxVisualCol visualLines target targetVL)
  let targetCol := targetVL.startCol + moveToVisualCol
  { ed with
    state := { ed.state with
      cursorLine := targetVL.logicalLine
      cursorCol := min targetCol (ed.lineAt targetVL.logicalLine).length }
    preferredVisualCol := preferred }

/-- The first row below the target that does not start inside a segment that ends at `segEnd`. -/
def nextAfterSegment (visualLines : List VisualLine) (target logicalLine segEnd : Nat) : Nat :=
  target + 1 + ((visualLines.drop (target + 1)).takeWhile fun vl =>
    vl.logicalLine == logicalLine && decide (vl.startCol < segEnd)).length

/-- `moveToVisualLine`. It calls itself with a lower row, so as many calls as there are rows are enough. -/
def moveToVisualLineFrom (visualLines : List VisualLine) : Nat → Editor → Nat → Nat → Editor
  | 0, ed, _, _ => ed
  | calls + 1, ed, current, target =>
    match visualLines[current]?, visualLines[target]? with
    | some currentVL, some targetVL =>
      let ed := ed.landOn h visualLines current target currentVL targetVL
      match ed.segmentAtCursor h (ed.lineAt targetVL.logicalLine) with
      | some seg =>
        let snapped : Editor := { ed with
            state := { ed.state with cursorCol := seg.index }
            snappedFromCursorCol := some ed.state.cursorCol }
        if seg.index < targetVL.startCol ∧ target > current then
          let next := nextAfterSegment visualLines target targetVL.logicalLine seg.stop
          if next < visualLines.length then moveToVisualLineFrom visualLines calls ed current next else snapped
        else snapped
      | none => { ed with snappedFromCursorCol := none }
    | _, _ => ed

def moveToVisualLine (ed : Editor) (visualLines : List VisualLine) (current target : Nat) : Editor :=
  moveToVisualLineFrom h visualLines visualLines.length ed current target

/-- `moveCursor(1, 0)` and `moveCursor(-1, 0)` -/
def moveCursorLine (ed : Editor) (direction : Direction) : Editor :=
  let ed : Editor := { ed with lastAction := none }
  match ed.buildVisualLineMap h ed.lastWidth with
  | none => ed
  | some visualLines =>
    let current := ed.findCurrentVisualLine h visualLines
    match direction with
    | .forward =>
      if current + 1 < visualLines.length then ed.moveToVisualLine h visualLines current (current + 1) else ed
    | .backward => if current ≥ 1 then ed.moveToVisualLine h visualLines current (current - 1) else ed

/-- `moveCursor(0, 1)` -/
def moveCursorRight (ed : Editor) : Editor :=
  let ed : Editor := { ed with lastAction := none }
  match ed.buildVisualLineMap h ed.lastWidth with
  | none => ed
  | some visualLines =>
    if ed.state.cursorCol < ed.currentLine.length then ed.setCursorCol (ed.state.cursorCol + ed.lengthAfter h)
    else if ed.isLastLine then
      match visualLines[ed.findCurrentVisualLine h visualLines]? with
      | some currentVL => { ed with preferredVisualCol := some (ed.state.cursorCol - currentVL.startCol) }
      | none => ed
    else ed.toNextLine

/-- `moveCursor(0, -1)` -/
def moveCursorLeft (ed : Editor) : Editor :=
  let ed : Editor := { ed with lastAction := none }
  match ed.buildVisualLineMap h ed.lastWidth with
  | none => ed
  | some _ =>
    let lineStartCol := ed.lineStartCol h
    if ed.state.cursorCol > lineStartCol then
      ed.setCursorCol (max lineStartCol (ed.state.cursorCol - ed.lengthBefore h))
    else if ed.state.cursorLine > 0 then ed.toPreviousLineEnd
    else ed

def pageScroll (ed : Editor) (direction : Direction) : Editor :=
  let ed : Editor := { ed with lastAction := none }
  match ed.buildVisualLineMap h ed.lastWidth with
  | none => ed
  | some visualLines =>
    let current := ed.findCurrentVisualLine h visualLines
    let target := match direction with
      | .forward => min (visualLines.length - 1) (current + ed.pageSize)
      | .backward => min (visualLines.length - 1) (current - ed.pageSize)
    ed.moveToVisualLine h visualLines current target

/-- `isOnFirstVisualLine`; none where it throws. -/
def isOnFirstVisualLine (ed : Editor) : Option Bool :=
  (ed.buildVisualLineMap h ed.lastWidth).map fun visualLines => ed.findCurrentVisualLine h visualLines == 0

def isOnLastVisualLine (ed : Editor) : Option Bool :=
  (ed.buildVisualLineMap h ed.lastWidth).map fun visualLines =>
    ed.findCurrentVisualLine h visualLines == visualLines.length - 1

/-! ### Clicks -/

/-- The offset of the segment border that is nearest to column `rel` of the chunk from `start` to `stop`, none past
its text. -/
def clickScan (sourceLine : JsString) (start stop rel : Nat) : Nat → List Seg → Option Nat
  | _, [] => none
  | chunkCol, seg :: segs =>
    if seg.stop ≤ start then clickScan sourceLine start stop rel chunkCol segs
    else if seg.index ≥ stop then none
    else
      let sliceStart := max seg.index start
      let inChunkWidth := visibleWidth h.metrics (slice sourceLine sliceStart (min seg.stop stop : Nat))
      if chunkCol + inChunkWidth > rel then
        let withinSegment :=
          (if sliceStart > seg.index then visibleWidth h.metrics (slice sourceLine seg.index sliceStart) else 0) +
            (rel - chunkCol)
        some (if 2 * withinSegment ≥ visibleWidth h.metrics seg.segment then seg.stop else seg.index)
      else clickScan sourceLine start stop rel (chunkCol + inChunkWidth) segs

/-- The loop of `snapCursorOffset`. -/
def snapOffset (offset : Nat) : List Seg → Nat
  | [] => offset
  | seg :: segs =>
    if seg.index ≥ offset then offset
    else if offset < seg.stop then
      if 2 * (offset - seg.index) ≥ seg.segment.length then seg.stop else seg.index
    else snapOffset offset segs

def snapCursorOffset (ed : Editor) (line : JsString) (offset : Nat) : Nat := snapOffset offset (ed.segment h line)

/-- Where a click puts the cursor. -/
def clickOffset (ed : Editor) (layout : ClickLayout) (layoutLine : LayoutLine) (col : Nat) : Nat :=
  let rel := col - (layout.paddingX + layout.promptPrefixWidth)
  let sourceLine := ed.lineAt layoutLine.sourceLine
  let stop := layoutLine.sourceStart + layoutLine.text.length
  ed.snapCursorOffset h sourceLine
    ((clickScan h sourceLine layoutLine.sourceStart stop rel 0 (ed.segment h sourceLine)).getD stop)

def placeCursorFromClick (ed : Editor) (row col : Nat) : Editor :=
  match ed.clickLayout with
  | none => ed
  | some layout =>
    match layout.layoutLines[layout.scrollOffset + row]? with
    | none => ed
    | some layoutLine =>
      let placed := ed.clickOffset h layout layoutLine col
      (({ ed with lastAction := none } : Editor).setCursorLine layoutLine.sourceLine).setCursorCol placed

end Editor
end Tui
end RePrime
