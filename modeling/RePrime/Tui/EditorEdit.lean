import RePrime.Tui.Editor

/-!
# RePrime.Tui.EditorEdit

The operations of the editor on its text: typing and pasting, deleting, killing and yanking, undo, the history, and
the moves that do not depend on how the text is laid out.

* `insertTextAtCursorInternal`, `insertCharacter`, `handlePaste`, `addNewLine`, `setText`: text goes in.
* `handleBackspace`, `handleForwardDelete`, `deleteToStartOfLine`, …: text goes out.
* `yank`, `yankPop`, `undo`, `navigateHistory`: text comes back.
* `moveCursorRight`, `moveCursorLeft`, `moveWordBackwards`, `moveWordForwards`, `jumpToChar`: only the cursor moves.
* `submitValue`: the text is given away.
-/

namespace RePrime
namespace Tui
namespace Editor

open JsText

/-! ### Typing and pasting -/

/-- `text.replace(/\r\n/g, "\n").replace(/\r/g, "\n").replace(/\t/g, "    ")` -/
def normalizeText (text : JsString) : JsString :=
  let lf := replaceAll (fun s => (eat [0x0d, 0x0a] s).map fun _ => (2, [newline])) text
  (lf.map fun u => if u = 0x0d then newline else u).flatMap fun u => if u = 9 then ofAscii "    " else [u]

def insertTextAtCursorInternal (ed : Editor) (text : JsString) : Editor :=
  if text = [] then ed
  else
    let normalized := normalizeText text
    let insertedLines := Lines.split newline normalized
    let beforeCursor := ed.textBeforeCursor
    let afterCursor := ed.textAfterCursor
    if insertedLines.length = 1 then
      (ed.setLine ed.state.cursorLine (beforeCursor ++ normalized ++ afterCursor)).setCursorCol
        (ed.state.cursorCol + normalized.length)
    else
      let first := insertedLines.headD []
      let last := insertedLines.getLastD []
      let lines := ed.state.lines.take ed.state.cursorLine ++ [beforeCursor ++ first] ++
        insertedLines.tail.dropLast ++ [last ++ afterCursor] ++ ed.state.lines.drop (ed.state.cursorLine + 1)
      ((ed.setLines lines).setCursorLine (ed.state.cursorLine + (insertedLines.length - 1))).setCursorCol last.length

def insertCharacter (ed : Editor) (char : JsString) : Editor :=
  let ed : Editor := { ed with historyIndex := none }
  let ed := if isWhitespaceChar char || ed.lastAction != some .typeWord then ed.pushUndoSnapshot else ed
  let ed : Editor := { ed with lastAction := some .typeWord }
  let before := ed.textBeforeCursor
  let after := ed.textAfterCursor
  let ed := (ed.setLine ed.state.cursorLine (before ++ char ++ after)).setCursorCol (ed.state.cursorCol + char.length)
  if ed.autocomplete.isSome then ed.refreshAutocompleteAfterEdit false else ed.triggerAfterCharacter char

/-- `/\x1b\[(\d+);5u/` and the byte that it stands for: a control key that was sent as a sequence. -/
def controlSequence (s : JsString) : Option (Nat × JsString) :=
  (eat (ofAscii "\x1b[") s).bind fun t => (eatDigits t).bind fun d => (eat (ofAscii ";5u") d.2).map fun rest =>
    let length := s.length - rest.length
    let cp := (parseInt d.1).getD 0
    if 97 ≤ cp ∧ cp ≤ 122 then (length, [UInt16.ofNat (cp - 96)])
    else if 65 ≤ cp ∧ cp ≤ 90 then (length, [UInt16.ofNat (cp - 64)])
    else (length, s.take length)

/-- `/\w/` -/
def isWordUnit (u : UInt16) : Bool :=
  isDigit u || (0x41 ≤ u && u ≤ 0x5a) || (0x61 ≤ u && u ≤ 0x7a) || u == 0x5f

/-- The text of a paste after decoding, normalizing and filtering, with a space before a path that follows a word. -/
def pastedContent (ed : Editor) (pastedText : JsString) : JsString :=
  let cleanText := normalizeText (replaceAll controlSequence pastedText)
  let filteredText := cleanText.filter fun u => u == newline || 32 ≤ u
  let isPath := filteredText.head?.any fun u => u == 0x2f || u == 0x7e || u == 0x2e
  if isPath && (unitBefore ed.currentLine ed.state.cursorCol).any isWordUnit then 0x20 :: filteredText
  else filteredText

def pasteMarkerText (pasteId lineCount totalChars : Nat) : JsString :=
  if lineCount > 10 then pasteOpen ++ decimal pasteId ++ ofAscii " +" ++ decimal lineCount ++ ofAscii " lines]"
  else pasteOpen ++ decimal pasteId ++ ofAscii " " ++ decimal totalChars ++ ofAscii " chars]"

def handlePaste (ed : Editor) (pastedText : JsString) : Editor :=
  let ed : Editor := ({ ed.cancelAutocomplete with historyIndex := none, lastAction := none }).pushUndoSnapshot
  let filteredText := ed.pastedContent pastedText
  let lineCount := (Lines.split newline filteredText).length
  let totalChars := filteredText.length
  if lineCount > 10 ∨ totalChars > 1000 then
    let pasteId := ed.pasteCounter + 1
    let ed : Editor := { ed with pasteCounter := pasteId, pastes := ed.pastes.set pasteId filteredText }
    ed.insertTextAtCursorInternal (pasteMarkerText pasteId lineCount totalChars)
  else ed.insertTextAtCursorInternal filteredText

def addNewLine (ed : Editor) : Editor :=
  let ed : Editor := ({ ed.cancelAutocomplete with historyIndex := none, lastAction := none }).pushUndoSnapshot
  let before := ed.textBeforeCursor
  let after := ed.textAfterCursor
  let ed := ed.setLine ed.state.cursorLine before
  let ed := ed.setLines (splice ed.state.lines (ed.state.cursorLine + 1) 0 [after])
  (ed.setCursorLine (ed.state.cursorLine + 1)).setCursorCol 0

/-- `setTextInternal` -/
def setTextInternal (ed : Editor) (text : JsString) : Editor :=
  let lines := Lines.split newline text
  let ed := (ed.setLines lines).setCursorLine (lines.length - 1)
  { ed.setCursorCol ed.currentLine.length with scrollOffset := 0 }

def setText (ed : Editor) (text : JsString) : Editor :=
  let ed := { ed.cancelAutocomplete with lastAction := none, historyIndex := none }
  let normalized := normalizeText text
  let ed := if ed.getText ≠ normalized then ed.pushUndoSnapshot else ed
  ed.setTextInternal normalized

def insertTextAtCursor (ed : Editor) (text : JsString) : Editor :=
  if text = [] then ed
  else
    let ed := { ed.cancelAutocomplete.pushUndoSnapshot with lastAction := none, historyIndex := none }
    ed.insertTextAtCursorInternal text

def getExpandedText (ed : Editor) : JsString := expandPasteMarkers ed.pastes ed.getText

def submitValue (ed : Editor) : Editor :=
  let ed := ed.cancelAutocomplete
  { ed with
    state := ⟨[[]], 0, 0⟩
    pastes := .empty
    pasteCounter := 0
    historyIndex := none
    scrollOffset := 0
    undoStack := []
    lastAction := none
    submitted := trim ed.getExpandedText :: ed.submitted }

/-! ### Moving -/

/-- Column 0 of the next line, unless the line is the last. -/
def toNextLine (ed : Editor) : Editor := (ed.setCursorLine (ed.state.cursorLine + 1)).setCursorCol 0

/-- The end of the line before, for a line that is not the first. -/
def toPreviousLineEnd (ed : Editor) : Editor :=
  let ed := ed.setCursorLine (ed.state.cursorLine - 1)
  ed.setCursorCol ed.currentLine.length

def isLastLine (ed : Editor) : Bool := !decide (ed.state.cursorLine + 1 < ed.state.lines.length)

variable (h : Host)

/-- `getLineHiddenTextPrefixLength` of the line of the cursor. -/
def lineStartCol (ed : Editor) : Nat := h.lineStart ed.state.cursorLine ed.currentLine

def moveToLineStart (ed : Editor) : Editor :=
  ({ ed with lastAction := none }).setCursorCol (ed.lineStartCol h)

def moveToLineEnd (ed : Editor) : Editor := ({ ed with lastAction := none }).setCursorCol ed.currentLine.length

/-- `segment.length` of a grapheme, 1 if there is none. -/
def unitLength (seg : Option Seg) : Nat := (seg.map (·.segment.length)).getD 1

/-- The text from the hidden start of the line to the cursor. -/
def visibleBeforeCursor (ed : Editor) : JsString := slice ed.currentLine (ed.lineStartCol h) ed.state.cursorCol

def lengthBefore (ed : Editor) : Nat := unitLength (ed.segment h (ed.visibleBeforeCursor h)).getLast?

def lengthAfter (ed : Editor) : Nat := unitLength (ed.segment h ed.textAfterCursor).head?

/-- The units that a word move goes over, from the segments in its direction: white space, then one marker, or what
there is of punctuation, or of a word. -/
def wordLength (segs : List Seg) : Nat :=
  let isSpaceSeg : Seg → Bool := fun s => !isAtomicMarker s.segment && isWhitespaceChar s.segment
  let isPunctuationSeg : Seg → Bool := fun s => isPunctuationChar s.segment && !isAtomicMarker s.segment
  let isWordSeg : Seg → Bool := fun s =>
    !isWhitespaceChar s.segment && !isPunctuationChar s.segment && !isAtomicMarker s.segment
  let rest := segs.dropWhile isSpaceSeg
  let part := match rest with
    | [] => []
    | seg :: _ =>
      if isAtomicMarker seg.segment then [seg]
      else if isPunctuationChar seg.segment then rest.takeWhile isPunctuationSeg
      else rest.takeWhile isWordSeg
  ((segs.takeWhile isSpaceSeg ++ part).map (·.segment.length)).sum

def moveWordBackwards (ed : Editor) : Editor :=
  let ed : Editor := { ed with lastAction := none }
  let lineStartCol := ed.lineStartCol h
  if ed.state.cursorCol ≤ lineStartCol then
    if ed.state.cursorLine > 0 then ed.toPreviousLineEnd else ed
  else
    let length := wordLength (ed.segment h (ed.visibleBeforeCursor h)).reverse
    ed.setCursorCol (max lineStartCol (ed.state.cursorCol - length))

def moveWordForwards (ed : Editor) : Editor :=
  let ed : Editor := { ed with lastAction := none }
  if ed.state.cursorCol ≥ ed.currentLine.length then
    if ed.isLastLine then ed else ed.toNextLine
  else ed.setCursorCol (ed.state.cursorCol + wordLength (ed.segment h ed.textAfterCursor))

/-! ### Deleting -/

/-- The line of the cursor goes to the end of the line before it. -/
def joinWithPrevious (ed : Editor) : Editor :=
  let currentLine := ed.currentLine
  let previousLine := ed.lineAt (ed.state.cursorLine - 1)
  let ed := ed.setLine (ed.state.cursorLine - 1) (previousLine ++ currentLine)
  let ed := ed.setLines (splice ed.state.lines ed.state.cursorLine 1 [])
  (ed.setCursorLine (ed.state.cursorLine - 1)).setCursorCol previousLine.length

/-- The line after the cursor's goes to the end of it. The cursor stays. -/
def joinWithNext (ed : Editor) : Editor :=
  let currentLine := ed.currentLine
  let nextLine := ed.lineAt (ed.state.cursorLine + 1)
  let ed := ed.setLine ed.state.cursorLine (currentLine ++ nextLine)
  ed.setLines (splice ed.state.lines (ed.state.cursorLine + 1) 1 [])

def handleBackspace (ed : Editor) : Editor :=
  let ed : Editor := { ed with historyIndex := none, lastAction := none }
  let line := ed.currentLine
  let lineStartCol := ed.lineStartCol h
  let ed :=
    if ed.state.cursorCol > lineStartCol then
      let ed := ed.pushUndoSnapshot
      let col := ed.state.cursorCol - ed.lengthBefore h
      (ed.setLine ed.state.cursorLine (sliceTo line col ++ ed.textAfterCursor)).setCursorCol col
    else if lineStartCol > 0 ∧ line.length = lineStartCol then
      (ed.pushUndoSnapshot.setLine ed.state.cursorLine []).setCursorCol 0
    else if ed.state.cursorLine > 0 then ed.pushUndoSnapshot.joinWithPrevious
    else ed
  ed.refreshAutocompleteAfterEdit true

def handleForwardDelete (ed : Editor) : Editor :=
  let ed : Editor := { ed with historyIndex := none, lastAction := none }
  let line := ed.currentLine
  let ed :=
    if ed.state.cursorCol < line.length then
      let ed := ed.pushUndoSnapshot
      ed.setLine ed.state.cursorLine
        (sliceTo line ed.state.cursorCol ++ sliceFrom line (ed.state.cursorCol + ed.lengthAfter h))
    else if ed.isLastLine then ed
    else ed.pushUndoSnapshot.joinWithNext
  ed.refreshAutocompleteAfterEdit true

def deleteToStartOfLine (ed : Editor) : Editor :=
  let ed : Editor := { ed with historyIndex := none }
  let line := ed.currentLine
  let lineStartCol := ed.lineStartCol h
  let ed :=
    if ed.state.cursorCol > lineStartCol then
      let ed := ed.pushUndoSnapshot.kill (ed.visibleBeforeCursor h) true ed.wasKill
      (ed.setLine ed.state.cursorLine (sliceTo line lineStartCol ++ ed.textAfterCursor)).setCursorCol lineStartCol
    else if ed.state.cursorLine > 0 then (ed.pushUndoSnapshot.kill [newline] true ed.wasKill).joinWithPrevious
    else ed
  ed.refreshAutocompleteAfterEdit false

def deleteToEndOfLine (ed : Editor) : Editor :=
  let ed : Editor := { ed with historyIndex := none }
  let ed :=
    if ed.state.cursorCol < ed.currentLine.length then
      let ed := ed.pushUndoSnapshot.kill ed.textAfterCursor false ed.wasKill
      ed.setLine ed.state.cursorLine ed.textBeforeCursor
    else if ed.isLastLine then ed
    else (ed.pushUndoSnapshot.kill [newline] false ed.wasKill).joinWithNext
  ed.refreshAutocompleteAfterEdit false

def deleteWordBackwards (ed : Editor) : Editor :=
  let ed : Editor := { ed with historyIndex := none }
  let line := ed.currentLine
  let ed :=
    if ed.state.cursorCol = 0 then
      if ed.state.cursorLine > 0 then (ed.pushUndoSnapshot.kill [newline] true ed.wasKill).joinWithPrevious
      else ed
    else
      let oldCursorCol := ed.state.cursorCol
      let wasKill := ed.wasKill
      let ed := ed.pushUndoSnapshot.moveWordBackwards h
      let deleteFrom := ed.state.cursorCol
      let ed := (ed.setCursorCol oldCursorCol).kill (slice line deleteFrom oldCursorCol) true wasKill
      (ed.setLine ed.state.cursorLine (sliceTo line deleteFrom ++ sliceFrom line oldCursorCol)).setCursorCol deleteFrom
  ed.refreshAutocompleteAfterEdit false

def deleteWordForward (ed : Editor) : Editor :=
  let ed : Editor := { ed with historyIndex := none }
  let line := ed.currentLine
  let ed :=
    if ed.state.cursorCol ≥ line.length then
      if ed.isLastLine then ed else (ed.pushUndoSnapshot.kill [newline] false ed.wasKill).joinWithNext
    else
      let oldCursorCol := ed.state.cursorCol
      let wasKill := ed.wasKill
      let ed := ed.pushUndoSnapshot.moveWordForwards h
      let deleteTo := ed.state.cursorCol
      let ed := (ed.setCursorCol oldCursorCol).kill (slice line oldCursorCol deleteTo) false wasKill
      ed.setLine ed.state.cursorLine (sliceTo line oldCursorCol ++ sliceFrom line deleteTo)
  ed.refreshAutocompleteAfterEdit false

/-! ### Yanking -/

/-- `insertYankedText` -/
def insertYankedText (ed : Editor) (text : JsString) : Editor :=
  let ed : Editor := { ed with historyIndex := none }
  let lines := Lines.split newline text
  let before := ed.textBeforeCursor
  let after := ed.textAfterCursor
  if lines.length = 1 then
    (ed.setLine ed.state.cursorLine (before ++ text ++ after)).setCursorCol (ed.state.cursorCol + text.length)
  else
    let last := lines.getLastD []
    let ed := ed.setLine ed.state.cursorLine (before ++ lines.headD [])
    -- the source puts the lines in one by one, each after the one before
    let ed := ed.setLines (splice ed.state.lines (ed.state.cursorLine + 1) 0 (lines.tail.dropLast ++ [last ++ after]))
    (ed.setCursorLine (ed.state.cursorLine + (lines.length - 1))).setCursorCol last.length

/-- `deleteYankedText` -/
def deleteYankedText (ed : Editor) : Editor :=
  match ed.killRing with
  | [] => ed
  | yankedText :: _ =>
    if yankedText = [] then ed
    else
      let yankLines := Lines.split newline yankedText
      if yankLines.length = 1 then
        let col := ed.state.cursorCol - yankedText.length
        (ed.setLine ed.state.cursorLine (sliceTo ed.currentLine col ++ ed.textAfterCursor)).setCursorCol col
      else
        let startLine := ed.state.cursorLine - (yankLines.length - 1)
        let startCol : Int := (ed.lineAt startLine).length - (yankLines.headD []).length
        let merged := sliceTo (ed.lineAt startLine) startCol ++ ed.textAfterCursor
        let ed := ed.setLines (splice ed.state.lines startLine yankLines.length [merged])
        (ed.setCursorLine startLine).setCursorCol startCol

def yank (ed : Editor) : Editor :=
  match ed.killRing with
  | [] => ed
  | text :: _ =>
    ({ ed.pushUndoSnapshot.insertYankedText text with lastAction := some .yank }).refreshAutocompleteAfterEdit false

def yankPop (ed : Editor) : Editor :=
  if ed.lastAction ≠ some .yank ∨ ed.killRing.length ≤ 1 then ed
  else
    let ed := ed.pushUndoSnapshot.deleteYankedText
    let ed : Editor := { ed with killRing := rotateKills ed.killRing }
    let ed := ed.insertYankedText (ed.killRing.headD [])
    ({ ed with lastAction := some .yank }).refreshAutocompleteAfterEdit false

/-! ### Undo and history -/

def undo (ed : Editor) : Editor :=
  let ed : Editor := { ed with historyIndex := none }
  match ed.undoStack with
  | [] => ed
  | snapshot :: rest =>
    ({ ed with
      undoStack := rest
      state := snapshot.toEditorState
      pastes := snapshot.pastes
      pasteCounter := snapshot.pasteCounter
      lastAction := none
      preferredVisualCol := none }).refreshAutocompleteAfterEdit false

/-- `historyIndex - direction`, where -1 is none; `Up` is backward. -/
def newHistoryIndex (ed : Editor) : Direction → Option (Option Nat)
  | .backward => some (some (ed.historyIndex.elim 0 (· + 1)))
  | .forward =>
    match ed.historyIndex with
    | none => none
    | some 0 => some none
    | some (i + 1) => some (some i)

def navigateHistory (ed : Editor) (direction : Direction) : Editor :=
  let ed : Editor := { ed with lastAction := none }
  if ed.history = [] then ed
  else
    match ed.newHistoryIndex direction with
    | none => ed
    | some none => ({ ed with historyIndex := none }).setTextInternal []
    | some (some i) =>
      if i ≥ ed.history.length then ed
      else
        let ed := if ed.historyIndex = none then ed.pushUndoSnapshot else ed
        ({ ed with historyIndex := some i }).setTextInternal (ed.history.getD i [])

def addToHistory (ed : Editor) (text : JsString) : Editor :=
  let trimmed := trim text
  if trimmed = [] ∨ ed.history.head? = some trimmed then ed
  else { ed with history := (trimmed :: ed.history).take 100 }

/-! ### Jumping -/

/-- `line.indexOf(char, position)` -/
def indexOfFrom (char line : JsString) (position : Int) : Option Nat :=
  (indexOf char (line.drop position.toNat)).map (· + position.toNat)

/-- `line.lastIndexOf(char, position)` -/
def lastIndexOf (char line : JsString) : Nat → Option Nat
  | 0 => if char <+: line then some 0 else none
  | i + 1 => if char <+: line.drop (i + 1) then some (i + 1) else lastIndexOf char line i

/-- The first of some lines that has the text, and where. -/
def searchForward (char : JsString) : Nat → List JsString → Option (Nat × Nat)
  | _, [] => none
  | i, line :: lines =>
    match indexOf char line with
    | some j => some (i, j)
    | none => searchForward char (i + 1) lines

/-- The last line before line `i` that has the text, and where it is last. -/
def searchBackward (ed : Editor) (char : JsString) : Nat → Option (Nat × Nat)
  | 0 => none
  | i + 1 =>
    match lastIndexOf char (ed.lineAt i) (ed.lineAt i).length with
    | some j => some (i, j)
    | none => ed.searchBackward char i

/-- Where the jump goes. From a line past the last one, the source looks forward for ever; here it finds nothing. -/
def jumpTarget (ed : Editor) (char : JsString) : Direction → Option (Nat × Nat)
  | .forward =>
    match indexOfFrom char ed.currentLine (ed.state.cursorCol + 1) with
    | some j => some (ed.state.cursorLine, j)
    | none => searchForward char (ed.state.cursorLine + 1) (ed.state.lines.drop (ed.state.cursorLine + 1))
  | .backward =>
    match lastIndexOf char ed.currentLine (ed.state.cursorCol - 1).toNat with
    | some j => some (ed.state.cursorLine, j)
    | none => ed.searchBackward char ed.state.cursorLine

def jumpToChar (ed : Editor) (char : JsString) (direction : Direction) : Editor :=
  let ed : Editor := { ed with lastAction := none }
  match ed.jumpTarget char direction with
  | some (i, j) => (ed.setCursorLine i).setCursorCol j
  | none => ed

end Editor
end Tui
end RePrime
