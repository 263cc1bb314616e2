import RePrime.Lib.Lines
import RePrime.Tui.WordWrapLine

/-!
# RePrime.Tui.Editor

The state of the editor (`components/editor.ts`) and the operations on its text: inserting, deleting, killing and
yanking, undo, history, and the moves of the cursor inside the text.

Columns are integers: `slice` of JavaScript counts a negative one from the end, and some operations can make one.
A line past the end of the text reads as empty.

* `Editor`: the state. `Host`: what an editor is built with.
* `Editor.segment`: the units that the cursor moves over.
* `pushUndoSnapshot`, `undo`: the undo stack, `UndoStack` with its copies.
-/

namespace RePrime
namespace Tui

open JsText

/-! ### Texts and columns -/

/-- The offset that `slice` takes a column for, in a text of `n` units. -/
def sliceOffset (n : Nat) (i : Int) : Nat := if i < 0 then (n + i).toNat else i.toNat

/-- `s.slice(0, i)` -/
def sliceTo (s : JsString) (i : Int) : JsString := s.take (sliceOffset s.length i)

/-- `s.slice(i)` -/
def sliceFrom (s : JsString) (i : Int) : JsString := s.drop (sliceOffset s.length i)

/-- `s.slice(i, j)` -/
def slice (s : JsString) (i j : Int) : JsString := sliceFrom (sliceTo s j) (sliceOffset s.length i)

/-- `s[i - 1]` for a column that is positive. -/
def unitBefore (s : JsString) (i : Int) : Option UInt16 := if i > 0 then s[(i - 1).toNat]? else none

/-- `s.trim()` -/
def trim (s : JsString) : JsString := trimEnd (s.dropWhile isSpace)

/-- `isPunctuationChar` -/
def isPunctuationChar (char : JsString) : Bool :=
  char.any fun u => (ofAscii "(){}[]<>.,;:'\"!?+-=*/\\|&%^$#@~\x60").contains u

/-! ### The state -/

structure EditorState where
  lines : List JsString
  cursorLine : Nat
  cursorCol : Int
deriving DecidableEq

/-- The cursor is at a column of one of the lines. -/
structure EditorState.CursorInside (st : EditorState) : Prop where
  line : st.cursorLine < st.lines.length
  col_nonneg : 0 ≤ st.cursorCol
  col_le : st.cursorCol ≤ (st.lines.getD st.cursorLine []).length

/-- What an undo brings back. -/
structure EditorUndoSnapshot extends EditorState where
  pastes : OrderedMap Nat JsString
  pasteCounter : Nat

/-- A row of the layout. The text that is drawn on it is left out. -/
structure LayoutLine where
  text : JsString
  hasCursor : Bool
  sourceLine : Nat
  sourceStart : Nat
deriving DecidableEq

structure ClickLayout where
  paddingX : Nat
  promptPrefixWidth : Nat
  layoutLines : List LayoutLine
  scrollOffset : Nat

inductive LastAction where
  | kill
  | yank
  | typeWord
deriving DecidableEq

inductive Direction where
  | forward
  | backward
deriving DecidableEq

structure AutocompleteItem where
  value : JsString
  label : JsString
deriving DecidableEq

inductive SuggestionKind where
  | slashCommand
  | file
deriving DecidableEq

structure AutocompleteSuggestions where
  items : List AutocompleteItem
  prefixText : JsString
  kind : Option SuggestionKind

inductive AutocompleteMode where
  | regular
  | force
deriving DecidableEq

/-- The list that is shown: `autocompleteState`, `autocompletePrefix`, `autocompleteKind` and `autocompleteList` with
its selection. They are set and cleared together. -/
structure AutocompleteList where
  state : AutocompleteMode
  prefixText : JsString
  kind : Option SuggestionKind
  items : List AutocompleteItem
  selectedIndex : Nat

structure RequestOptions where
  force : Bool
  explicitTab : Bool

/-- A request whose answer is awaited, with what the editor held when it was made. -/
structure AutocompleteRequest where
  requestId : Nat
  aborted : Bool
  snapshotText : JsString
  snapshotLine : Nat
  snapshotCol : Int
  options : RequestOptions

/-- `AutocompleteProvider`, without the asking: an answer comes as an action of its own. -/
structure AutocompleteProvider where
  applyCompletion : List JsString → Nat → Int → AutocompleteItem → JsString → EditorState
  shouldTriggerFileCompletion : List JsString → Nat → Int → Bool

/-- The fields of an editor. `submitted` lists what `onSubmit` was called with, the last first. -/
structure Editor where
  state : EditorState
  lastWidth : Nat
  scrollOffset : Nat
  clickLayout : Option ClickLayout
  autocompleteProvider : Option AutocompleteProvider
  autocomplete : Option AutocompleteList
  autocompleteStartToken : Nat
  autocompleteRequestId : Nat
  waitingRequests : List (Nat × RequestOptions)
  runningRequest : Option AutocompleteRequest
  pastes : OrderedMap Nat JsString
  pasteCounter : Nat
  pasteBuffer : JsString
  isInPaste : Bool
  history : List JsString
  historyIndex : Option Nat
  killRing : List JsString
  lastAction : Option LastAction
  jumpMode : Option Direction
  preferredVisualCol : Option Int
  snappedFromCursorCol : Option Int
  undoStack : List EditorUndoSnapshot
  disableSubmit : Bool
  terminalRows : Nat
  submitted : List JsString

namespace Editor

/-- The editor when it is built. -/
def new (terminalRows : Nat) : Editor where
  state := ⟨[[]], 0, 0⟩
  lastWidth := 80
  scrollOffset := 0
  clickLayout := none
  autocompleteProvider := none
  autocomplete := none
  autocompleteStartToken := 0
  autocompleteRequestId := 0
  waitingRequests := []
  runningRequest := none
  pastes := .empty
  pasteCounter := 0
  pasteBuffer := []
  isInPaste := false
  history := []
  historyIndex := none
  killRing := []
  lastAction := none
  jumpMode := none
  preferredVisualCol := none
  snappedFromCursorCol := none
  undoStack := []
  disableSubmit := false
  terminalRows := terminalRows
  submitted := []

end Editor

inductive Binding where
  | jumpForward | jumpBackward | copy | undo
  | selectCancel | selectUp | selectDown | selectConfirm
  | tab | newLine | submit
  | deleteToLineEnd | deleteToLineStart | deleteWordBackward | deleteWordForward
  | deleteCharBackward | deleteCharForward
  | yank | yankPop
  | cursorLineStart | cursorLineEnd | cursorWordLeft | cursorWordRight
  | cursorUp | cursorDown | cursorRight | cursorLeft | pageUp | pageDown
deriving DecidableEq

inductive Key where
  | shiftBackspace | shiftDelete | enter | shiftSpace
deriving DecidableEq

/-- What an editor is built with: the terminal's text metrics, the keys, the options that bear on the layout, and the
prompt and the hidden start of a line, which a subclass may override. -/
structure Host where
  metrics : Metrics
  matchesBinding : Binding → JsString → Bool
  matchesKey : Key → JsString → Bool
  decodePrintableKey : JsString → Option JsString
  submitsOnShiftEnter : Bool
  paddingX : Nat
  useBackgroundSurface : Bool
  getPromptPrefix : List JsString → JsString
  getHiddenTextPrefixLength : Nat → JsString → Nat

namespace Editor

/-! ### Reading the text -/

/-- `this.state.lines[i] || ""` -/
def lineAt (ed : Editor) (i : Nat) : JsString := ed.state.lines.getD i []

def currentLine (ed : Editor) : JsString := ed.lineAt ed.state.cursorLine

def getText (ed : Editor) : JsString := Lines.join newline ed.state.lines

def textBeforeCursor (ed : Editor) : JsString := sliceTo ed.currentLine ed.state.cursorCol

def textAfterCursor (ed : Editor) : JsString := sliceFrom ed.currentLine ed.state.cursorCol

def isEditorEmpty (ed : Editor) : Bool := ed.state.lines == [[]]

/-- `this.segment(text)` -/
def segment (h : Host) (ed : Editor) (text : JsString) : List Seg := segmentWithMarkers h.metrics text ed.pastes.keys

end Editor

/-- `getLineHiddenTextPrefixLength` -/
def Host.lineStart (h : Host) (lineIndex : Nat) (line : JsString) : Nat :=
  min line.length (h.getHiddenTextPrefixLength lineIndex line)

namespace Editor

/-! ### Writing the text -/

/-- `lines[i] = line`. An index past the end leaves holes before it, which read as empty lines. -/
def putLine (lines : List JsString) (i : Nat) (line : JsString) : List JsString :=
  if i < lines.length then lines.set i line else lines ++ List.replicate (i - lines.length) [] ++ [line]

/-- `lines.splice(start, deleteCount, ...items)` -/
def splice (lines : List JsString) (start deleteCount : Nat) (items : List JsString) : List JsString :=
  lines.take start ++ items ++ lines.drop (start + deleteCount)

def setLines (ed : Editor) (lines : List JsString) : Editor := { ed with state := { ed.state with lines := lines } }

def setLine (ed : Editor) (i : Nat) (line : JsString) : Editor := ed.setLines (putLine ed.state.lines i line)

def setCursorLine (ed : Editor) (i : Nat) : Editor := { ed with state := { ed.state with cursorLine := i } }

def setCursorCol (ed : Editor) (col : Int) : Editor :=
  { ed with
    state := { ed.state with cursorCol := col }
    preferredVisualCol := none
    snappedFromCursorCol := none }

def pushUndoSnapshot (ed : Editor) : Editor :=
  { ed with undoStack := ⟨ed.state, ed.pastes, ed.pasteCounter⟩ :: ed.undoStack }

/-- `KillRing.push`; the last entry is the first of the list. -/
def pushKill (ring : List JsString) (text : JsString) (toStart accumulate : Bool) : List JsString :=
  if text = [] then ring
  else
    match accumulate, ring with
    | true, last :: ring => (if toStart then text ++ last else last ++ text) :: ring
    | _, ring => text :: ring

/-- `KillRing.rotate` -/
def rotateKills : List JsString → List JsString
  | last :: next :: ring => next :: ring ++ [last]
  | ring => ring

/-- The kill ring after a deletion, and `lastAction`. -/
def kill (ed : Editor) (text : JsString) (toStart accumulate : Bool) : Editor :=
  { ed with killRing := pushKill ed.killRing text toStart accumulate, lastAction := some .kill }

def wasKill (ed : Editor) : Bool := ed.lastAction == some .kill

/-! ### Completion requests -/

def cancelAutocompleteRequest (ed : Editor) : Editor :=
  { ed with
    autocompleteStartToken := ed.autocompleteStartToken + 1
    runningRequest := ed.runningRequest.map fun r => { r with aborted := true } }

def cancelAutocomplete (ed : Editor) : Editor := { ed.cancelAutocompleteRequest with autocomplete := none }

/-- `requestAutocomplete`. The request is made later, after those before it and the debounce time. -/
def requestAutocomplete (ed : Editor) (options : RequestOptions) : Editor :=
  match ed.autocompleteProvider with
  | none => ed
  | some provider =>
    if options.force &&
        !provider.shouldTriggerFileCompletion ed.state.lines ed.state.cursorLine ed.state.cursorCol then ed
    else
      let ed := ed.cancelAutocompleteRequest
      { ed with
        autocompleteStartToken := ed.autocompleteStartToken + 1
        waitingRequests := ed.waitingRequests ++ [(ed.autocompleteStartToken + 1, options)] }

/-- The fields that completions use. -/
structure Completion where
  autocomplete : Option AutocompleteList
  startToken : Nat
  waiting : List (Nat × RequestOptions)
  running : Option AutocompleteRequest

def withCompletion (ed : Editor) (c : Completion) : Editor :=
  { ed with
    autocomplete := c.autocomplete
    autocompleteStartToken := c.startToken
    waitingRequests := c.waiting
    runningRequest := c.running }

theorem cancelAutocomplete_eq (ed : Editor) :
    ∃ c, ed.cancelAutocomplete = ed.withCompletion c ∧ c.autocomplete = none :=
  ⟨⟨none, _, _, _⟩, rfl, rfl⟩

theorem requestAutocomplete_eq (ed : Editor) (options : RequestOptions) :
    ∃ c, ed.requestAutocomplete options = ed.withCompletion c ∧ c.autocomplete = ed.autocomplete := by
  unfold requestAutocomplete
  split
  · exact ⟨⟨_, _, _, _⟩, rfl, rfl⟩
  · split
    · exact ⟨⟨_, _, _, _⟩, rfl, rfl⟩
    · exact ⟨⟨_, _, _, _⟩, rfl, rfl⟩

inductive SlashCommandContext where
  | name (prefixText : JsString) (isAtPromptStart : Bool)
  | argument (commandName prefixText : JsString)
deriving DecidableEq

def isBlankUnit (u : UInt16) : Bool := u == 0x20 || u == 9

def slash : UInt16 := 0x2f

end Editor

open Editor in
/-- `getSlashCommandContext` -/
def getSlashCommandContext (lines : List JsString) (cursorLine : Nat) (cursorCol : Int) : Option SlashCommandContext :=
  let textBeforeCursor := sliceTo (lines.getD cursorLine []) cursorCol
  let trimmedStart := textBeforeCursor.dropWhile isSpace
  if cursorLine = 0 ∧ trimmedStart.head? = some slash then
    let commandToken := trimmedStart.takeWhile fun u => !isBlankUnit u
    if commandToken.tail.contains slash then none
    else
      match trimmedStart.dropWhile fun u => !isBlankUnit u with
      | [] => some (.name commandToken true)
      | _ :: rest => if commandToken.tail = [] then none else some (.argument commandToken.tail rest)
  else
    let prefixText := textBeforeCursor.rtakeWhile fun u => !isBlankUnit u
    if prefixText.head? ≠ some slash ∨ prefixText.tail.contains slash then none else some (.name prefixText false)

namespace Editor

/-- `slashContext?.kind === "name"` -/
def isNameContext : Option SlashCommandContext → Bool
  | some (.name _ _) => true
  | _ => false

def slashContext (ed : Editor) : Option SlashCommandContext :=
  getSlashCommandContext ed.state.lines ed.state.cursorLine ed.state.cursorCol

/-- `/(?:^|[\s])[@#][^\s]*$/` -/
def endsInSymbolToken (text : JsString) : Bool :=
  match (text.rtakeWhile fun u => !isSpace u).head? with
  | some u => u == 0x40 || u == 0x23
  | none => false

def refreshAutocompleteAfterEdit (ed : Editor) (retrigger : Bool) : Editor :=
  let hasCompletionContext := ed.slashContext.isSome || endsInSymbolToken ed.textBeforeCursor
  match ed.autocomplete with
  | some list =>
    if ed.getText.all isSpace || (list.state == .regular && !hasCompletionContext) then ed.cancelAutocomplete
    else ed.requestAutocomplete ⟨list.state == .force, false⟩
  | none => if retrigger && hasCompletionContext then ed.requestAutocomplete ⟨false, false⟩ else ed

theorem refreshAutocompleteAfterEdit_eq (ed : Editor) (retrigger : Bool) :
    ∃ c, ed.refreshAutocompleteAfterEdit retrigger = ed.withCompletion c := by
  unfold refreshAutocompleteAfterEdit
  dsimp only
  split
  · split
    · obtain ⟨c, hc, -⟩ := ed.cancelAutocomplete_eq
      exact ⟨c, hc⟩
    · obtain ⟨c, hc, -⟩ := ed.requestAutocomplete_eq _
      exact ⟨c, hc⟩
  · split
    · obtain ⟨c, hc, -⟩ := ed.requestAutocomplete_eq _
      exact ⟨c, hc⟩
    · exact ⟨⟨_, _, _, _⟩, rfl⟩

/-- `/[a-zA-Z0-9.\-_]/` -/
def isNameUnit (u : UInt16) : Bool :=
  isDigit u || (0x41 ≤ u && u ≤ 0x5a) || (0x61 ≤ u && u ≤ 0x7a) || u == 0x2e || u == 0x2d || u == 0x5f

/-- What `insertCharacter` does about completions when no list is shown. -/
def triggerAfterCharacter (ed : Editor) (char : JsString) : Editor :=
  let trigger := ed.requestAutocomplete ⟨false, false⟩
  let before := ed.textBeforeCursor
  if char = ofAscii "/" ∧ isNameContext ed.slashContext then trigger
  else if char = ofAscii "@" ∨ char = ofAscii "#" then
    if before.length = 1 ∨ before.dropLast.getLast?.any isBlankUnit then trigger else ed
  else if char.any isNameUnit ∧ (ed.slashContext.isSome ∨ endsInSymbolToken before) then trigger
  else ed

theorem triggerAfterCharacter_eq (ed : Editor) (char : JsString) :
    ∃ c, ed.triggerAfterCharacter char = ed.withCompletion c := by
  have htrigger : ∃ c, ed.requestAutocomplete ⟨false, false⟩ = ed.withCompletion c := by
    obtain ⟨c, hc, -⟩ := ed.requestAutocomplete_eq _
    exact ⟨c, hc⟩
  have hsame : ∃ c, ed = ed.withCompletion c := ⟨⟨_, _, _, _⟩, rfl⟩
  unfold triggerAfterCharacter
  dsimp only
  split
  · exact htrigger
  · split
    · split
      · exact htrigger
      · exact hsame
    · split
      · exact htrigger
      · exact hsame

end Editor
end Tui
end RePrime
