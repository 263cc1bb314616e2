import RePrime.Tui.EditorView

/-!
# RePrime.Tui.EditorInput

What an editor does with its input, and its steps.

* `commandOf`, `Command.run`: the keys that `handleInput` tests for, and what each does.
* `handleInput`: jumps, bracketed pastes, the completion list, and then the commands.
* `suggestionsArrived`: the answer to a request for completions.
* `step`: one call from outside, or one turn of the requests.
-/

namespace RePrime
namespace Tui
open JsText

namespace Editor

/-! ### Completions -/

/-- `this.autocompleteProvider.applyCompletion(…)` and the assignments of its result. -/
def applyCompletion (ed : Editor) (provider : AutocompleteProvider) (item : AutocompleteItem) (prefixText : JsString) :
    Editor :=
  let result := provider.applyCompletion ed.state.lines ed.state.cursorLine ed.state.cursorCol item prefixText
  ((ed.setLines result.lines).setCursorLine result.cursorLine).setCursorCol result.cursorCol

/-- The editor after an item of the list is taken. -/
def acceptItem (ed : Editor) (provider : AutocompleteProvider) (item : AutocompleteItem) (prefixText : JsString) :
    Editor :=
  (({ ed.pushUndoSnapshot with lastAction := none } : Editor).applyCompletion
    provider item prefixText).cancelAutocomplete

/-- The selected item of the list, and the provider, when there are both. -/
def acceptable (ed : Editor) (list : AutocompleteList) : Option (AutocompleteProvider × AutocompleteItem) :=
  ed.autocompleteProvider.bind fun provider => list.items[list.selectedIndex]?.map fun item => (provider, item)

/-- `isSlashNameCompletionAtPromptStart` -/
def isSlashNameCompletionAtPromptStart (ed : Editor) (list : AutocompleteList) : Bool :=
  let isSlashCommandCompletion := list.kind == some .slashCommand ||
    (list.kind == none && list.state == .regular && decide (ofAscii "/" <+: list.prefixText))
  isSlashCommandCompletion &&
    match ed.slashContext with
    | some (.name _ isAtPromptStart) => isAtPromptStart
    | _ => false

/-- `SelectList.handleInput` for the two keys that move the selection. -/
def moveSelection (list : AutocompleteList) (up : Bool) : AutocompleteList :=
  let last := list.items.length - 1
  { list with
    selectedIndex :=
      if up then (if list.selectedIndex = 0 then last else list.selectedIndex - 1)
      else if list.selectedIndex = last then 0 else list.selectedIndex + 1 }

/-- `getBestAutocompleteMatchIndex`; none where it is -1. -/
def getBestAutocompleteMatchIndex (items : List AutocompleteItem) (prefixText : JsString) : Option Nat :=
  if prefixText = [] then none
  else
    (items.findIdx? fun item => item.value == prefixText).or
      (items.findIdx? fun item => decide (prefixText <+: item.value))

/-- `applyAutocompleteSuggestions` -/
def applyAutocompleteSuggestions (ed : Editor) (suggestions : AutocompleteSuggestions) (state : AutocompleteMode) :
    Editor :=
  let matchingPrefix :=
    if suggestions.kind = some .slashCommand then suggestions.prefixText.drop 1 else suggestions.prefixText
  let selected := (getBestAutocompleteMatchIndex suggestions.items matchingPrefix).getD 0
  { ed with
    autocomplete := some ⟨state, suggestions.prefixText, suggestions.kind, suggestions.items, selected⟩ }

/-- The start of the request at `i`, when no other is running: what the editor holds is remembered. -/
def startRequest (ed : Editor) (i : Nat) : Option Editor :=
  match ed.runningRequest, ed.waitingRequests[i]? with
  | none, some (startToken, options) =>
    let ed : Editor := { ed with waitingRequests := ed.waitingRequests.eraseIdx i }
    if startToken ≠ ed.autocompleteStartToken ∨ ed.autocompleteProvider.isNone then some ed
    else
      let requestId := ed.autocompleteRequestId + 1
      some { ed with
        autocompleteRequestId := requestId
        runningRequest := some ⟨requestId, false, ed.getText, ed.state.cursorLine, ed.state.cursorCol, options⟩ }
  | _, _ => none

/-- `isAutocompleteRequestCurrent` -/
def isAutocompleteRequestCurrent (ed : Editor) (request : AutocompleteRequest) : Bool :=
  !request.aborted && request.requestId == ed.autocompleteRequestId && ed.getText == request.snapshotText &&
    ed.state.cursorLine == request.snapshotLine && ed.state.cursorCol == request.snapshotCol

/-- The answer of the provider to the request that is running. -/
def suggestionsArrived (ed : Editor) (suggestions : Option AutocompleteSuggestions) : Option Editor :=
  match ed.runningRequest with
  | none => none
  | some request =>
    let ed : Editor := { ed with runningRequest := none }
    if !ed.isAutocompleteRequestCurrent request then some ed
    else
      match suggestions with
      | none => some ed.cancelAutocomplete
      | some suggestions =>
        match suggestions.items, ed.autocompleteProvider with
        | [], _ => some ed.cancelAutocomplete
        | [item], some provider =>
          if request.options.force && request.options.explicitTab then
            let ed : Editor := { ed.pushUndoSnapshot with lastAction := none }
            some (ed.applyCompletion provider item suggestions.prefixText)
          else some (ed.applyAutocompleteSuggestions suggestions (if request.options.force then .force else .regular))
        | _, _ =>
          some (ed.applyAutocompleteSuggestions suggestions (if request.options.force then .force else .regular))

/-- `handleTabCompletion` -/
def handleTabCompletion (ed : Editor) : Editor :=
  match ed.slashContext with
  | some (.name _ _) => ed.requestAutocomplete ⟨false, true⟩
  | _ => ed.requestAutocomplete ⟨true, true⟩

/-! ### Commands -/

/-- What a key stands for once the completion list has let it pass. -/
inductive Command where
  | tabCompletion
  | deleteToEndOfLine | deleteToStartOfLine | deleteWordBackwards | deleteWordForward
  | backspace | forwardDelete
  | yank | yankPop
  | lineStart | lineEnd | wordBackwards | wordForwards
  | newLine | submit
  | cursorUp | cursorDown | cursorRight | cursorLeft | pageUp | pageDown
  | jump (direction : Direction)
  | insert (text : JsString)
  | nothing
deriving DecidableEq

variable (h : Host)

/-- The test for a key that puts in a line break. -/
def isNewLineKey (data : JsString) : Bool :=
  h.matchesBinding .newLine data || (data.head? == some 10 && decide (data.length > 1)) || data == [0x1b, 0x0d] ||
    data == ofAscii "\x1b[13;2~" || (decide (data.length > 1) && data.contains 0x1b && data.contains 0x0d) ||
    data == [0x0a]

/-- The command of some data. `listShown` is whether `autocompleteState` is set. -/
def commandOf (listShown : Bool) (data : JsString) : Command :=
  if h.matchesBinding .tab data && !listShown then .tabCompletion
  else if h.matchesBinding .deleteToLineEnd data then .deleteToEndOfLine
  else if h.matchesBinding .deleteToLineStart data then .deleteToStartOfLine
  else if h.matchesBinding .deleteWordBackward data then .deleteWordBackwards
  else if h.matchesBinding .deleteWordForward data then .deleteWordForward
  else if h.matchesBinding .deleteCharBackward data || h.matchesKey .shiftBackspace data then .backspace
  else if h.matchesBinding .deleteCharForward data || h.matchesKey .shiftDelete data then .forwardDelete
  else if h.matchesBinding .yank data then .yank
  else if h.matchesBinding .yankPop data then .yankPop
  else if h.matchesBinding .cursorLineStart data then .lineStart
  else if h.matchesBinding .cursorLineEnd data then .lineEnd
  else if h.matchesBinding .cursorWordLeft data then .wordBackwards
  else if h.matchesBinding .cursorWordRight data then .wordForwards
  else if isNewLineKey h data then .newLine
  else if h.matchesBinding .submit data then .submit
  else if h.matchesBinding .cursorUp data then .cursorUp
  else if h.matchesBinding .cursorDown data then .cursorDown
  else if h.matchesBinding .cursorRight data then .cursorRight
  else if h.matchesBinding .cursorLeft data then .cursorLeft
  else if h.matchesBinding .pageUp data then .pageUp
  else if h.matchesBinding .pageDown data then .pageDown
  else if h.matchesBinding .jumpForward data then .jump .forward
  else if h.matchesBinding .jumpBackward data then .jump .backward
  else if h.matchesKey .shiftSpace data then .insert (ofAscii " ")
  else
    match h.decodePrintableKey data with
    | some printable => .insert printable
    | none => if data.head?.any (32 ≤ ·) then .insert data else .nothing

/-- The character before the cursor is a backslash. -/
def afterBackslash (ed : Editor) : Bool := unitBefore ed.currentLine ed.state.cursorCol == some 0x5c

/-- `shouldSubmitOnBackslashEnter` -/
def shouldSubmitOnBackslashEnter (ed : Editor) (data : JsString) : Bool :=
  !ed.disableSubmit && h.matchesKey .enter data && h.submitsOnShiftEnter && ed.afterBackslash

def cursorUp (ed : Editor) : Editor :=
  if ed.isEditorEmpty then ed.navigateHistory .backward
  else
    match ed.isOnFirstVisualLine h with
    | none => ed
    | some true => if ed.historyIndex.isSome then ed.navigateHistory .backward else ed.moveToLineStart h
    | some false => ed.moveCursorLine h .backward

def cursorDown (ed : Editor) : Editor :=
  match ed.isOnLastVisualLine h with
  | none => ed
  | some true => if ed.historyIndex.isSome then ed.navigateHistory .forward else ed.moveToLineEnd
  | some false => ed.moveCursorLine h .forward

def Command.run (ed : Editor) (data : JsString) : Command → Editor
  | .tabCompletion => ed.handleTabCompletion
  | .deleteToEndOfLine => ed.deleteToEndOfLine
  | .deleteToStartOfLine => ed.deleteToStartOfLine h
  | .deleteWordBackwards => ed.deleteWordBackwards h
  | .deleteWordForward => ed.deleteWordForward h
  | .backspace => ed.handleBackspace h
  | .forwardDelete => ed.handleForwardDelete h
  | .yank => ed.yank
  | .yankPop => ed.yankPop
  | .lineStart => ed.moveToLineStart h
  | .lineEnd => ed.moveToLineEnd
  | .wordBackwards => ed.moveWordBackwards h
  | .wordForwards => ed.moveWordForwards h
  | .newLine =>
    if ed.shouldSubmitOnBackslashEnter h data then (ed.handleBackspace h).submitValue else ed.addNewLine
  | .submit =>
    if ed.disableSubmit then ed
    else if ed.afterBackslash then (ed.handleBackspace h).addNewLine
    else ed.submitValue
  | .cursorUp => ed.cursorUp h
  | .cursorDown => ed.cursorDown h
  | .cursorRight => ed.moveCursorRight h
  | .cursorLeft => ed.moveCursorLeft h
  | .pageUp => ed.pageScroll h .backward
  | .pageDown => ed.pageScroll h .forward
  | .jump direction => { ed with jumpMode := some direction }
  | .insert text => ed.insertCharacter text
  | .nothing => ed

def runCommand (ed : Editor) (data : JsString) : Editor :=
  (commandOf h ed.autocomplete.isSome data).run h ed data

/-- What `Enter` does with the list that is shown. A typed command that the item does not change goes on to the
command of the key. -/
def confirmSelection (ed : Editor) (list : AutocompleteList) (data : JsString) : Editor :=
  match ed.acceptable list with
  | some (provider, item) =>
    let isTypedExactSlashCommand := ed.isSlashNameCompletionAtPromptStart list
    let accepted := ed.acceptItem provider item list.prefixText
    if isTypedExactSlashCommand && accepted.state.lines == ed.state.lines then accepted.runCommand h data
    else accepted
  | none => ed.runCommand h data

/-- A key outside a jump and a paste. -/
def handleKey (ed : Editor) (data : JsString) : Editor :=
  if h.matchesBinding .copy data then ed
  else if h.matchesBinding .undo data then ed.undo
  else
    match ed.autocomplete with
    | none => ed.runCommand h data
    | some list =>
      if h.matchesBinding .selectCancel data then ed.cancelAutocomplete
      else if h.matchesBinding .selectUp data then { ed with autocomplete := some (moveSelection list true) }
      else if h.matchesBinding .selectDown data then { ed with autocomplete := some (moveSelection list false) }
      else if h.matchesBinding .tab data then
        match ed.acceptable list with
        | some (provider, item) => ed.acceptItem provider item list.prefixText
        | none => ed
      else if h.matchesBinding .selectConfirm data then ed.confirmSelection h list data
      else ed.runCommand h data

/-! ### Jumps and pastes -/

def pasteStartSequence : JsString := ofAscii "\x1b[200~"
def pasteEndSequence : JsString := ofAscii "\x1b[201~"

/-- The character that a jump looks for. -/
def printableOf (data : JsString) : Option JsString :=
  (h.decodePrintableKey data).or (if data.head?.any (32 ≤ ·) then some data else none)

/-- The jump that is awaited takes the data, or is given up; then the data is left. -/
def handleJump (ed : Editor) (data : JsString) : Editor × Bool :=
  match ed.jumpMode with
  | none => (ed, false)
  | some direction =>
    let ed : Editor := { ed with jumpMode := none }
    if h.matchesBinding .jumpForward data || h.matchesBinding .jumpBackward data then (ed, true)
    else
      match printableOf h data with
      | some printable => (ed.jumpToChar printable direction, true)
      | none => (ed, false)

/-- `data.replace("\x1b[200~", "")` -/
def withoutPasteStart (data : JsString) : JsString :=
  match indexOf pasteStartSequence data with
  | some i => data.take i ++ data.drop (i + pasteStartSequence.length)
  | none => data

/-- `handleInput`. What follows a paste is handled in the same way; it is shorter than the data. -/
def handleInputFrom : Nat → Editor → JsString → Editor
  | 0, ed, _ => ed
  | calls + 1, ed, data =>
    match ed.handleJump h data with
    | (ed, true) => ed
    | (ed, false) =>
      let starts := (indexOf pasteStartSequence data).isSome
      let ed : Editor := if starts then { ed with isInPaste := true, pasteBuffer := [] } else ed
      let data := withoutPasteStart data
      if ed.isInPaste then
        let pasteBuffer := ed.pasteBuffer ++ data
        match indexOf pasteEndSequence pasteBuffer with
        | some endIndex =>
          let pasteContent := pasteBuffer.take endIndex
          let remaining := pasteBuffer.drop (endIndex + 6)
          let ed := if pasteContent.length > 0 then ed.handlePaste pasteContent else ed
          let ed : Editor := { ed with isInPaste := false, pasteBuffer := [] }
          if remaining.length > 0 then handleInputFrom calls ed remaining else ed
        | none => { ed with pasteBuffer := pasteBuffer }
      else ed.handleKey h data

def handleInput (ed : Editor) (data : JsString) : Editor :=
  handleInputFrom h (ed.pasteBuffer.length + data.length + 1) ed data

/-! ### Steps -/

inductive Action where
  | input (data : JsString)
  | setText (text : JsString)
  | insertTextAtCursor (text : JsString)
  | restorePasteSnapshot (pastes : OrderedMap Nat JsString) (pasteCounter : Nat)
  | addToHistory (text : JsString)
  | clearHistory
  | render (width : Nat)
  | resize (rows : Nat)
  | click (row col : Nat)
  | setAutocompleteProvider (provider : AutocompleteProvider)
  | cancelAutocomplete
  | startRequest (i : Nat)
  | suggestions (answer : Option AutocompleteSuggestions)
  | setDisableSubmit (value : Bool)

def step (ed : Editor) : Action → Option Editor
  | .input data => some (ed.handleInput h data)
  | .setText text => some (ed.setText text)
  | .insertTextAtCursor text => some (ed.insertTextAtCursor text)
  | .restorePasteSnapshot pastes pasteCounter => some { ed with pastes := pastes, pasteCounter := pasteCounter }
  | .addToHistory text => some (ed.addToHistory text)
  | .clearHistory => some { ed with history := [], historyIndex := none }
  | .render width => some (ed.render h width)
  | .resize rows => some { ed with terminalRows := rows }
  | .click row col => some (ed.placeCursorFromClick h row col)
  | .setAutocompleteProvider provider =>
    some { ed.cancelAutocomplete with autocompleteProvider := some provider }
  | .cancelAutocomplete => some ed.cancelAutocomplete
  | .startRequest i => ed.startRequest i
  | .suggestions answer => ed.suggestionsArrived answer
  | .setDisableSubmit value => some { ed with disableSubmit := value }

end Editor

/-- The default keys, as a terminal without key protocols sends them. -/
def defaultKeys : Binding → List JsString
  | .jumpForward => [[0x1d]]
  | .jumpBackward => [[0x1b, 0x1d]]
  | .copy => [[3]]
  | .undo => [[0x1f]]
  | .selectCancel => [[0x1b], [3]]
  | .selectUp | .cursorUp => [ofAscii "\x1b[A"]
  | .selectDown | .cursorDown => [ofAscii "\x1b[B"]
  | .selectConfirm | .submit => [[0x0d]]
  | .tab => [[9]]
  | .newLine => [[0x1b, 0x0d]]
  | .deleteToLineEnd => [[0x0b]]
  | .deleteToLineStart => [[0x15]]
  | .deleteWordBackward => [[0x17], [0x1b, 0x7f]]
  | .deleteWordForward => [ofAscii "\x1bd"]
  | .deleteCharBackward => [[0x7f]]
  | .deleteCharForward => [ofAscii "\x1b[3~", [4]]
  | .yank => [[0x19]]
  | .yankPop => [ofAscii "\x1by"]
  | .cursorLineStart => [ofAscii "\x1b[H", [1]]
  | .cursorLineEnd => [ofAscii "\x1b[F", [5]]
  | .cursorWordLeft => [ofAscii "\x1bb"]
  | .cursorWordRight => [ofAscii "\x1bf"]
  | .cursorRight => [ofAscii "\x1b[C", [6]]
  | .cursorLeft => [ofAscii "\x1b[D", [2]]
  | .pageUp => [ofAscii "\x1b[5~"]
  | .pageDown => [ofAscii "\x1b[6~"]

/-- An editor without a prompt, with the default keys. -/
def Host.plain : Host where
  metrics := unitMetrics
  matchesBinding := fun binding data => (defaultKeys binding).contains data
  matchesKey := fun key data => key == .enter && data == [0x0d]
  decodePrintableKey := fun _ => none
  submitsOnShiftEnter := false
  paddingX := 0
  useBackgroundSurface := false
  getPromptPrefix := fun _ => []
  getHiddenTextPrefixLength := fun _ _ => 0

end Tui
end RePrime
