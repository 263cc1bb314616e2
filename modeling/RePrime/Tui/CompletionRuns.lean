import RePrime.Lib.Runs
import RePrime.Tui.Autocomplete
import RePrime.Tui.EditorInput

/-!
# RePrime.Tui.CompletionRuns

The completion list from when it comes up to when an item of it is taken.

* `step_keepsList`: no step but an answer brings up a list, or changes what a list is for.
* `completion_exact`: after any steps in between, taking an item replaces its prefix just when the prefix is at the
  cursor.
-/

namespace RePrime
namespace Tui

open JsText Autocomplete

namespace Editor

/-! ### Lists over runs -/

/-- A list that is shown after is the one that was shown before, but for its selection. -/
def KeepsList (ed ed' : Editor) : Prop :=
  ∀ list', ed'.autocomplete = some list' → ∃ list, ed.autocomplete = some list ∧
    list'.prefixText = list.prefixText ∧ list'.items = list.items

variable {ed ed' : Editor}

theorem keepsList_of_eq (h : ed'.autocomplete = ed.autocomplete) : KeepsList ed ed' :=
  fun list' hlist => ⟨list', h.symm.trans hlist, rfl, rfl⟩

theorem keepsList_of_none (h : ed'.autocomplete = none) : KeepsList ed ed' := by
  intro list' hlist
  rw [h] at hlist
  cases hlist

theorem KeepsList.trans {ed₁ ed₂ ed₃ : Editor} (h : KeepsList ed₁ ed₂) (h' : KeepsList ed₂ ed₃) :
    KeepsList ed₁ ed₃ := by
  intro list₃ hlist₃
  obtain ⟨list₂, hlist₂, hprefix₂, hitems₂⟩ := h' list₃ hlist₃
  obtain ⟨list₁, hlist₁, hprefix₁, hitems₁⟩ := h list₂ hlist₂
  exact ⟨list₁, hlist₁, hprefix₂.trans hprefix₁, hitems₂.trans hitems₁⟩

theorem KeepsList.request (h : KeepsList ed ed') (options : RequestOptions) :
    KeepsList ed (ed'.requestAutocomplete options) := by
  obtain ⟨c, hc, hsame⟩ := ed'.requestAutocomplete_eq options
  rw [hc]
  exact h.trans (keepsList_of_eq hsame)

theorem KeepsList.refresh (h : KeepsList ed ed') (retrigger : Bool) :
    KeepsList ed (ed'.refreshAutocompleteAfterEdit retrigger) := by
  unfold refreshAutocompleteAfterEdit
  dsimp only
  split
  · split
    · exact keepsList_of_none rfl
    · exact h.request _
  · split
    · exact h.request _
    · exact h

theorem KeepsList.trigger (h : KeepsList ed ed') (char : JsString) :
    KeepsList ed (ed'.triggerAfterCharacter char) := by
  unfold triggerAfterCharacter
  dsimp only
  split_ifs
  · exact h.request _
  · exact h.request _
  · exact h
  · exact h.request _
  · exact h

theorem insertTextAtCursorInternal_keepsList (ed : Editor) (text : JsString) :
    KeepsList ed (ed.insertTextAtCursorInternal text) := by
  unfold insertTextAtCursorInternal
  dsimp only
  split_ifs
  all_goals exact keepsList_of_eq rfl

theorem insertCharacter_keepsList (ed : Editor) (char : JsString) : KeepsList ed (ed.insertCharacter char) := by
  have hrest : ∀ ed' : Editor, KeepsList ed ed' → KeepsList ed
      (if ed'.autocomplete.isSome = true then ed'.refreshAutocompleteAfterEdit false
        else ed'.triggerAfterCharacter char) := by
    intro ed' hed'
    split
    · exact hed'.refresh false
    · exact hed'.trigger char
  unfold insertCharacter
  refine hrest _ (keepsList_of_eq ?_)
  dsimp only
  split_ifs
  all_goals rfl

theorem handlePaste_keepsList (ed : Editor) (text : JsString) : KeepsList ed (ed.handlePaste text) := by
  unfold handlePaste
  dsimp only
  split
  · exact (keepsList_of_none rfl).trans (insertTextAtCursorInternal_keepsList _ _)
  · exact (keepsList_of_none rfl).trans (insertTextAtCursorInternal_keepsList _ _)

theorem setText_keepsList (ed : Editor) (text : JsString) : KeepsList ed (ed.setText text) := by
  unfold setText
  dsimp only
  split
  · exact keepsList_of_none rfl
  · exact keepsList_of_none rfl

theorem insertTextAtCursor_keepsList (ed : Editor) (text : JsString) :
    KeepsList ed (ed.insertTextAtCursor text) := by
  unfold insertTextAtCursor
  dsimp only
  split
  · exact keepsList_of_eq rfl
  · exact (keepsList_of_none rfl).trans (insertTextAtCursorInternal_keepsList _ _)

theorem insertYankedText_autocomplete (ed : Editor) (text : JsString) :
    (ed.insertYankedText text).autocomplete = ed.autocomplete := by
  unfold insertYankedText
  dsimp only
  split_ifs
  all_goals rfl

theorem deleteYankedText_autocomplete (ed : Editor) : ed.deleteYankedText.autocomplete = ed.autocomplete := by
  unfold deleteYankedText
  dsimp only
  split
  · rfl
  · split_ifs
    all_goals rfl

theorem yank_keepsList (ed : Editor) : KeepsList ed ed.yank := by
  unfold yank
  split
  · exact keepsList_of_eq rfl
  · refine KeepsList.refresh (keepsList_of_eq ?_) false
    exact insertYankedText_autocomplete _ _

theorem yankPop_keepsList (ed : Editor) : KeepsList ed ed.yankPop := by
  unfold yankPop
  dsimp only
  split
  · exact keepsList_of_eq rfl
  · refine KeepsList.refresh (keepsList_of_eq ?_) false
    refine (insertYankedText_autocomplete _ _).trans ?_
    exact deleteYankedText_autocomplete _

theorem undo_keepsList (ed : Editor) : KeepsList ed ed.undo := by
  unfold undo
  dsimp only
  split
  · exact keepsList_of_eq rfl
  · exact (keepsList_of_eq rfl).refresh false

theorem navigateHistory_keepsList (ed : Editor) (direction : Direction) :
    KeepsList ed (ed.navigateHistory direction) := by
  unfold navigateHistory
  dsimp only
  split
  · exact keepsList_of_eq rfl
  · split
    · exact keepsList_of_eq rfl
    · exact keepsList_of_eq rfl
    · split_ifs
      all_goals exact keepsList_of_eq rfl

theorem jumpToChar_keepsList (ed : Editor) (char : JsString) (direction : Direction) :
    KeepsList ed (ed.jumpToChar char direction) := by
  unfold jumpToChar
  dsimp only
  split
  · exact keepsList_of_eq rfl
  · exact keepsList_of_eq rfl

variable (h : Host)

theorem moveWordBackwards_autocomplete (ed : Editor) : (ed.moveWordBackwards h).autocomplete = ed.autocomplete := by
  unfold moveWordBackwards
  dsimp only
  split_ifs
  all_goals rfl

theorem moveWordForwards_autocomplete (ed : Editor) : (ed.moveWordForwards h).autocomplete = ed.autocomplete := by
  unfold moveWordForwards
  dsimp only
  split_ifs
  all_goals rfl

theorem handleBackspace_keepsList (ed : Editor) : KeepsList ed (ed.handleBackspace h) := by
  unfold handleBackspace
  dsimp only
  refine KeepsList.refresh ?_ true
  split_ifs
  all_goals exact keepsList_of_eq rfl

theorem handleForwardDelete_keepsList (ed : Editor) : KeepsList ed (ed.handleForwardDelete h) := by
  unfold handleForwardDelete
  dsimp only
  refine KeepsList.refresh ?_ true
  split_ifs
  all_goals exact keepsList_of_eq rfl

theorem deleteToStartOfLine_keepsList (ed : Editor) : KeepsList ed (ed.deleteToStartOfLine h) := by
  unfold deleteToStartOfLine
  dsimp only
  refine KeepsList.refresh ?_ false
  split_ifs
  all_goals exact keepsList_of_eq rfl

theorem deleteToEndOfLine_keepsList (ed : Editor) : KeepsList ed ed.deleteToEndOfLine := by
  unfold deleteToEndOfLine
  dsimp only
  refine KeepsList.refresh ?_ false
  split_ifs
  all_goals exact keepsList_of_eq rfl

theorem deleteWordBackwards_keepsList (ed : Editor) : KeepsList ed (ed.deleteWordBackwards h) := by
  unfold deleteWordBackwards
  dsimp only
  refine KeepsList.refresh ?_ false
  split_ifs
  · exact keepsList_of_eq rfl
  · exact keepsList_of_eq rfl
  · exact keepsList_of_eq (moveWordBackwards_autocomplete h _)

theorem deleteWordForward_keepsList (ed : Editor) : KeepsList ed (ed.deleteWordForward h) := by
  unfold deleteWordForward
  dsimp only
  refine KeepsList.refresh ?_ false
  split_ifs
  · exact keepsList_of_eq rfl
  · exact keepsList_of_eq rfl
  · exact keepsList_of_eq (moveWordForwards_autocomplete h _)

theorem moveToVisualLineFrom_autocomplete (visualLines : List VisualLine) (calls : Nat) (ed : Editor)
    (current target : Nat) :
    (moveToVisualLineFrom h visualLines calls ed current target).autocomplete = ed.autocomplete := by
  induction calls generalizing ed target with
  | zero => rfl
  | succ calls ih =>
    rw [moveToVisualLineFrom]
    split
    · dsimp only
      split
      · split_ifs
        · exact ih (ed.landOn h visualLines current target _ _) _
        · rfl
        · rfl
      · rfl
    · rfl

theorem moveCursorLine_keepsList (ed : Editor) (direction : Direction) :
    KeepsList ed (ed.moveCursorLine h direction) := by
  have hmove : ∀ visualLines current target,
      KeepsList ed (({ ed with lastAction := none } : Editor).moveToVisualLine h visualLines current target) :=
    fun visualLines current target => keepsList_of_eq (moveToVisualLineFrom_autocomplete h visualLines _ _ _ _)
  unfold moveCursorLine
  dsimp only
  split
  · exact keepsList_of_eq rfl
  · split
    · split
      · exact hmove _ _ _
      · exact keepsList_of_eq rfl
    · split
      · exact hmove _ _ _
      · exact keepsList_of_eq rfl

theorem pageScroll_keepsList (ed : Editor) (direction : Direction) : KeepsList ed (ed.pageScroll h direction) := by
  unfold pageScroll
  dsimp only
  split
  · exact keepsList_of_eq rfl
  · exact keepsList_of_eq (moveToVisualLineFrom_autocomplete h _ _ _ _ _)

theorem moveCursorRight_keepsList (ed : Editor) : KeepsList ed (ed.moveCursorRight h) := by
  unfold moveCursorRight
  dsimp only
  split
  · exact keepsList_of_eq rfl
  · split_ifs
    · exact keepsList_of_eq rfl
    · split
      all_goals exact keepsList_of_eq rfl
    · exact keepsList_of_eq rfl

theorem moveCursorLeft_keepsList (ed : Editor) : KeepsList ed (ed.moveCursorLeft h) := by
  unfold moveCursorLeft
  dsimp only
  split
  · exact keepsList_of_eq rfl
  · split_ifs
    all_goals exact keepsList_of_eq rfl

theorem cursorUp_keepsList (ed : Editor) : KeepsList ed (ed.cursorUp h) := by
  unfold cursorUp
  split
  · exact navigateHistory_keepsList ed .backward
  · split
    · exact keepsList_of_eq rfl
    · split
      · exact navigateHistory_keepsList ed .backward
      · exact keepsList_of_eq rfl
    · exact moveCursorLine_keepsList h ed .backward

theorem cursorDown_keepsList (ed : Editor) : KeepsList ed (ed.cursorDown h) := by
  unfold cursorDown
  split
  · exact keepsList_of_eq rfl
  · split
    · exact navigateHistory_keepsList ed .forward
    · exact keepsList_of_eq rfl
  · exact moveCursorLine_keepsList h ed .forward

theorem Command.run_keepsList (ed : Editor) (data : JsString) (command : Command) :
    KeepsList ed (command.run h ed data) := by
  cases command with
  | tabCompletion =>
    rw [Command.run, handleTabCompletion.eq_def]
    split
    · exact (keepsList_of_eq rfl).request _
    · exact (keepsList_of_eq rfl).request _
  | deleteToEndOfLine => exact deleteToEndOfLine_keepsList ed
  | deleteToStartOfLine => exact deleteToStartOfLine_keepsList h ed
  | deleteWordBackwards => exact deleteWordBackwards_keepsList h ed
  | deleteWordForward => exact deleteWordForward_keepsList h ed
  | backspace => exact handleBackspace_keepsList h ed
  | forwardDelete => exact handleForwardDelete_keepsList h ed
  | yank => exact yank_keepsList ed
  | yankPop => exact yankPop_keepsList ed
  | lineStart | lineEnd => exact keepsList_of_eq rfl
  | wordBackwards => exact keepsList_of_eq (moveWordBackwards_autocomplete h ed)
  | wordForwards => exact keepsList_of_eq (moveWordForwards_autocomplete h ed)
  | newLine =>
    rw [Command.run]
    split
    · exact keepsList_of_none rfl
    · exact keepsList_of_none rfl
  | submit =>
    rw [Command.run]
    split_ifs
    · exact keepsList_of_eq rfl
    · exact keepsList_of_none rfl
    · exact keepsList_of_none rfl
  | cursorUp => exact cursorUp_keepsList h ed
  | cursorDown => exact cursorDown_keepsList h ed
  | cursorRight => exact moveCursorRight_keepsList h ed
  | cursorLeft => exact moveCursorLeft_keepsList h ed
  | pageUp => exact pageScroll_keepsList h ed .backward
  | pageDown => exact pageScroll_keepsList h ed .forward
  | jump direction => exact keepsList_of_eq rfl
  | insert text => exact insertCharacter_keepsList ed text
  | nothing => exact keepsList_of_eq rfl

theorem handleKey_keepsList (ed : Editor) (data : JsString) : KeepsList ed (ed.handleKey h data) := by
  have hcommand : ∀ ed' : Editor, KeepsList ed ed' → KeepsList ed (ed'.runCommand h data) :=
    fun ed' hed' => hed'.trans (Command.run_keepsList h ed' data _)
  have hsame : KeepsList ed ed := keepsList_of_eq rfl
  unfold handleKey
  split
  · exact hsame
  split
  · exact undo_keepsList ed
  cases hlist : ed.autocomplete with
  | none => exact hcommand ed hsame
  | some list =>
    dsimp only
    have hmoved : ∀ up, KeepsList ed { ed with autocomplete := some (moveSelection list up) } := by
      intro up list' hlist'
      cases hlist'
      exact ⟨list, hlist, rfl, rfl⟩
    split
    · exact keepsList_of_none rfl
    split
    · exact hmoved true
    split
    · exact hmoved false
    split
    · split
      · exact keepsList_of_none rfl
      · exact hsame
    split
    · unfold confirmSelection
      split
      · dsimp only
        split
        · exact hcommand _ (keepsList_of_none rfl)
        · exact keepsList_of_none rfl
      · exact hcommand ed hsame
    · exact hcommand ed hsame

theorem handleJump_keepsList (ed : Editor) (data : JsString) : KeepsList ed (ed.handleJump h data).1 := by
  unfold handleJump
  split
  · exact keepsList_of_eq rfl
  · dsimp only
    split
    · exact keepsList_of_eq rfl
    · split
      · exact (keepsList_of_eq rfl).trans (jumpToChar_keepsList _ _ _)
      · exact keepsList_of_eq rfl

theorem handleInputFrom_keepsList (calls : Nat) (ed : Editor) (data : JsString) :
    KeepsList ed (handleInputFrom h calls ed data) := by
  induction calls generalizing ed data with
  | zero => exact keepsList_of_eq rfl
  | succ calls ih =>
    rw [handleInputFrom]
    have hjump := handleJump_keepsList h ed data
    generalize ed.handleJump h data = jumped at hjump ⊢
    obtain ⟨ed₁, done⟩ := jumped
    cases done with
    | true => exact hjump
    | false =>
      dsimp only at hjump ⊢
      refine hjump.trans ?_
      have hstart : KeepsList ed₁ (if (indexOf pasteStartSequence data).isSome = true
          then { ed₁ with isInPaste := true, pasteBuffer := [] } else ed₁) := by
        split
        · exact keepsList_of_eq rfl
        · exact keepsList_of_eq rfl
      generalize (if (indexOf pasteStartSequence data).isSome = true
        then ({ ed₁ with isInPaste := true, pasteBuffer := [] } : Editor) else ed₁) = ed₂ at hstart ⊢
      refine hstart.trans ?_
      split
      · split
        · rename_i endIndex _
          have hpaste : KeepsList ed₂ (if ((ed₂.pasteBuffer ++ withoutPasteStart data).take endIndex).length > 0
              then ed₂.handlePaste ((ed₂.pasteBuffer ++ withoutPasteStart data).take endIndex) else ed₂) := by
            split
            · exact handlePaste_keepsList ed₂ _
            · exact keepsList_of_eq rfl
          generalize (if ((ed₂.pasteBuffer ++ withoutPasteStart data).take endIndex).length > 0
            then ed₂.handlePaste ((ed₂.pasteBuffer ++ withoutPasteStart data).take endIndex) else ed₂) = ed₃
            at hpaste ⊢
          refine hpaste.trans ?_
          have hend : KeepsList ed₃ { ed₃ with isInPaste := false, pasteBuffer := [] } := keepsList_of_eq rfl
          split
          · exact hend.trans (ih _ _)
          · exact hend
        · exact keepsList_of_eq rfl
      · exact handleKey_keepsList h ed₂ _

/-- An answer to a request is the one action that brings up a list. -/
def Action.isAnswer : Action → Bool
  | .suggestions _ => true
  | _ => false

theorem step_keepsList {a : Action} (ha : a.isAnswer = false) (hstep : step h ed a = some ed') :
    KeepsList ed ed' := by
  cases a with
  | input data =>
    cases hstep
    exact handleInputFrom_keepsList h _ ed data
  | setText text =>
    cases hstep
    exact setText_keepsList ed text
  | insertTextAtCursor text =>
    cases hstep
    exact insertTextAtCursor_keepsList ed text
  | restorePasteSnapshot pastes pasteCounter =>
    cases hstep
    exact keepsList_of_eq rfl
  | addToHistory text =>
    cases hstep
    unfold addToHistory
    dsimp only
    split
    · exact keepsList_of_eq rfl
    · exact keepsList_of_eq rfl
  | clearHistory =>
    cases hstep
    exact keepsList_of_eq rfl
  | render width =>
    cases hstep
    unfold render
    dsimp only
    split
    · exact keepsList_of_eq rfl
    · exact keepsList_of_eq rfl
  | resize rows =>
    cases hstep
    exact keepsList_of_eq rfl
  | click row col =>
    cases hstep
    unfold placeCursorFromClick
    split
    · exact keepsList_of_eq rfl
    · split
      · exact keepsList_of_eq rfl
      · exact keepsList_of_eq rfl
  | setAutocompleteProvider provider =>
    cases hstep
    exact keepsList_of_none rfl
  | cancelAutocomplete =>
    cases hstep
    exact keepsList_of_none rfl
  | startRequest i =>
    change ed.startRequest i = some ed' at hstep
    unfold startRequest at hstep
    split at hstep
    · dsimp only at hstep
      split at hstep
      · cases hstep
        exact keepsList_of_eq rfl
      · cases hstep
        exact keepsList_of_eq rfl
    · cases hstep
  | suggestions answer => cases ha
  | setDisableSubmit value =>
    cases hstep
    exact keepsList_of_eq rfl

theorem runs_keepsList
    (hruns : Transition.GuardedRuns (step h) (fun _ a => a.isAnswer = false) ed ed') : KeepsList ed ed' := by
  refine hruns.keeps (P := fun s => KeepsList ed s) (keepsList_of_eq rfl) ?_
  intro s s' a hs ha hstep
  exact hs.trans (step_keepsList h ha hstep)

/-! ### Taking an item -/

/-- The list of an answer comes up. Its request is current, so the answer is for the text and the cursor that the
editor holds. -/
structure Appears (ed : Editor) (answer : AutocompleteSuggestions) (ed' : Editor) : Prop where
  arrives : ed.suggestionsArrived (some answer) = some ed'
  shown : ∃ mode, ed' = ({ ed with runningRequest := none } : Editor).applyAutocompleteSuggestions answer mode

/-- Tab or Enter, past the keys that are tested before them, takes the selected item of the list that is shown. -/
structure TakesItem (ed : Editor) (data : JsString) (list : AutocompleteList) (provider : AutocompleteProvider)
    (item : AutocompleteItem) : Prop where
  shown : ed.autocomplete = some list
  selected : ed.acceptable list = some (provider, item)
  before : ∀ binding ∈ [Binding.copy, .undo, .selectCancel, .selectUp, .selectDown],
    h.matchesBinding binding data = false
  key : h.matchesBinding .tab data = true ∨ h.matchesBinding .selectConfirm data = true

/-- What the key does: the item is taken. Enter may go on, when that changes nothing. -/
theorem handleKey_takes {data : JsString} {list : AutocompleteList} {provider : AutocompleteProvider}
    {item : AutocompleteItem} (htakes : TakesItem h ed data list provider item) :
    let accepted := ed.acceptItem provider item list.prefixText
    ed.handleKey h data = accepted ∨
      (accepted.state.lines = ed.state.lines ∧ ed.handleKey h data = accepted.runCommand h data) := by
  intro accepted
  obtain ⟨hshown, hselected, hbefore, hkey⟩ := htakes
  simp only [List.forall_mem_cons, List.not_mem_nil, false_implies, implies_true, and_true] at hbefore
  obtain ⟨hcopy, hundo, hcancel, hup, hdown⟩ := hbefore
  unfold handleKey
  simp only [hcopy, hundo, hcancel, hup, hdown, hshown, hselected, Bool.false_eq_true, if_false]
  split
  · exact .inl rfl
  · rw [if_pos (hkey.resolve_left ‹_›)]
    unfold confirmSelection
    simp only [hselected]
    split
    · rename_i hsame
      rw [Bool.and_eq_true, beq_iff_eq] at hsame
      exact .inr ⟨hsame.2, rfl⟩
    · exact .inl rfl

/-- The place that an answer is for: its prefix is at the end of the text before the cursor. -/
theorem place_of_suffix {st : EditorState} {p : JsString} (hinside : st.CursorInside)
    (hsuffix : p <:+ sliceTo (st.lines.getD st.cursorLine []) st.cursorCol) :
    ∃ place : Place, place.Holds st p ∧ place.Ends st p := by
  obtain ⟨hline, hnonneg, hle⟩ := hinside
  obtain ⟨before, hbefore⟩ := hsuffix
  refine ⟨⟨st.cursorLine, before, sliceFrom (st.lines.getD st.cursorLine []) st.cursorCol⟩, ?_, rfl, ?_⟩
  · rw [Place.Holds, hbefore, sliceTo, sliceFrom, List.take_append_drop, List.getD_eq_getElem?_getD,
      List.getElem?_eq_getElem hline, Option.getD_some]
  · have hlen := congrArg List.length hbefore
    rw [List.length_append, sliceTo, sliceOffset, if_neg (by omega), List.length_take] at hlen
    dsimp only
    omega

/-- **Taking an item replaces its prefix, wherever it stands by then, just when the cursor is at its end there**, after
any steps since the list of the answer came up. The answer was for the place that ends at the cursor of its request,
and this is the place that is replaced as long as the text and the cursor are left. -/
theorem completion_exact (commands : List SlashCommand) {ed₀ ed₁ ed : Editor} {answer : AutocompleteSuggestions}
    (happears : Appears ed₀ answer ed₁)
    (hruns : Transition.GuardedRuns (step h) (fun _ a => a.isAnswer = false) ed₁ ed)
    {data : JsString} {list : AutocompleteList} {item : AutocompleteItem}
    (htakes : TakesItem h ed data list (combinedAutocompleteProvider commands) item) :
    let accepted := ed.acceptItem (combinedAutocompleteProvider commands) item list.prefixText
    item ∈ answer.items ∧
    (ed.handleKey h data = accepted ∨
      (accepted.state.lines = ed.state.lines ∧ ed.handleKey h data = accepted.runCommand h data)) ∧
    ∃ c : Replacement item.value,
      (∀ place : Place, place.Holds ed.state answer.prefixText →
        (ed.state.CursorInside ∧ ReplacesAt c answer.prefixText ed.state accepted.state place ↔
          place.Ends ed.state answer.prefixText ∨ place.LoneQuote ed.state answer.prefixText item.value)) ∧
      (∀ force kind, answerPrefix ed₀.state.lines ed₀.state.cursorLine ed₀.state.cursorCol force
          = some (answer.prefixText, kind) → ed₀.state.CursorInside →
        ∃ place : Place, place.Holds ed₀.state answer.prefixText ∧ place.Ends ed₀.state answer.prefixText ∧
          (ed.state = ed₀.state → ReplacesAt c answer.prefixText ed.state accepted.state place)) := by
  intro accepted
  obtain ⟨mode, rfl⟩ := happears.shown
  obtain ⟨list₁, hlist₁, hprefix, hitems⟩ := runs_keepsList h hruns list htakes.shown
  cases hlist₁
  have hstate : accepted.state = Autocomplete.applyCompletion commands ed.state.lines ed.state.cursorLine
      ed.state.cursorCol item answer.prefixText :=
    congrArg (Autocomplete.applyCompletion commands ed.state.lines ed.state.cursorLine ed.state.cursorCol item) hprefix
  obtain ⟨c, hiff⟩ := applyCompletion_replacesAt_iff commands ed.state item answer.prefixText
  rw [← hstate] at hiff
  refine ⟨?_, handleKey_takes h htakes, c, hiff, fun force kind hanswer hinside => ?_⟩
  · obtain ⟨provider, -, hselected⟩ := Option.bind_eq_some_iff.mp htakes.selected
    obtain ⟨item', hitem, hpair⟩ := Option.map_eq_some_iff.mp hselected
    cases hpair
    have hmem := List.mem_of_getElem? hitem
    rwa [hitems] at hmem
  · obtain ⟨place, hholds, hends⟩ := place_of_suffix hinside (answerPrefix_suffix hanswer)
    refine ⟨place, hholds, hends, fun hsame => ?_⟩
    rw [← hsame] at hholds hends
    exact ((hiff place hholds).mpr (.inl hends)).2

def modelItem : AutocompleteItem := ⟨ofAscii "model", ofAscii "model"⟩

def modelAnswer : AutocompleteSuggestions := ⟨[modelItem], ofAscii "/mo", some .slashCommand⟩

/-- An editor that has asked for the completions of a typed `/mo`. -/
def askedForModel : Editor :=
  { new 24 with
    state := ⟨[ofAscii "/mo"], 0, 3⟩
    autocompleteProvider := some (combinedAutocompleteProvider [⟨ofAscii "model", false⟩])
    runningRequest := some ⟨0, false, ofAscii "/mo", 0, 3, ⟨false, false⟩⟩ }

/-- `/mo` is completed to `/model` when the list was only looked at. -/
theorem completion_exact_model :
    let ed : Editor := { askedForModel.applyAutocompleteSuggestions modelAnswer .regular with
      runningRequest := none, terminalRows := 30 }
    ∃ c : Replacement (ofAscii "model"), ReplacesAt c (ofAscii "/mo") ed.state
      (ed.acceptItem (combinedAutocompleteProvider [⟨ofAscii "model", false⟩]) modelItem (ofAscii "/mo")).state
      ⟨0, [], []⟩ := by
  intro ed
  have happears : Appears askedForModel modelAnswer
      { askedForModel.applyAutocompleteSuggestions modelAnswer .regular with runningRequest := none } :=
    ⟨rfl, .regular, rfl⟩
  have htakes : TakesItem Host.plain ed [9] ⟨.regular, ofAscii "/mo", some .slashCommand, [modelItem], 0⟩
      (combinedAutocompleteProvider [⟨ofAscii "model", false⟩]) modelItem :=
    ⟨rfl, rfl, by decide, .inl rfl⟩
  obtain ⟨-, -, c, hexact, -⟩ := completion_exact Host.plain [⟨ofAscii "model", false⟩] happears
    (.single ⟨.resize 30, rfl, rfl⟩) htakes
  exact ⟨c, ((hexact ⟨0, [], []⟩ rfl).mpr (.inl ⟨rfl, rfl⟩)).2⟩

/-- The failing run: `/mo` is typed, the list comes up, the cursor is moved to the left, and Tab takes `model`. The
`/mo` that the list is for is not what is replaced, whatever is put in for the item. -/
theorem completion_misplaced : ((Transition.steps (step Host.plain)
      [.setAutocompleteProvider (combinedAutocompleteProvider [⟨ofAscii "model", false⟩]), .input (ofAscii "/"),
        .input (ofAscii "m"), .input (ofAscii "o"), .startRequest 2, .suggestions (some modelAnswer),
        .input (ofAscii "\x1b[D")] (new 24)).any fun ed =>
      ed.state = ⟨[ofAscii "/mo"], 0, 2⟩ ∧ ed.autocomplete.any (fun list => list.prefixText == ofAscii "/mo") ∧
        (ed.handleInput Host.plain [9]).state = ⟨[ofAscii "/mmodelo"], 0, 7⟩) = true ∧
    (∀ (c : Replacement (ofAscii "model")) (place : Place), place.Holds ⟨[ofAscii "/mo"], 0, 2⟩ (ofAscii "/mo") →
      ¬ ReplacesAt c (ofAscii "/mo") ⟨[ofAscii "/mo"], 0, 2⟩ ⟨[ofAscii "/mmodelo"], 0, 7⟩ place) := by
  refine ⟨by decide, ?_⟩
  intro c place hholds hreplaces
  obtain ⟨hlines, hline, hcol, -⟩ := hreplaces
  dsimp only at hlines hline hcol
  rw [Place.Holds, ← hline] at hholds
  have hlength := congrArg List.length (Option.some.inj hholds)
  have hhigh := c.offset_high
  have hlead : c.lead.length ≤ 1 := by
    rcases c.lead_cases with hlead | hlead
    all_goals
      rw [hlead]
      decide
  have hmo : (ofAscii "/mo").length = 3 := rfl
  have hmodel : (ofAscii "model").length = 5 := rfl
  -- the line is only `/mo`, so the cursor would be at most seven units in, with a slash that is not there
  simp only [List.length_append] at hlength
  have hbefore : place.before = [] := List.eq_nil_of_length_eq_zero (by omega)
  have hafter : place.after = [] := List.eq_nil_of_length_eq_zero (by omega)
  rw [← hline, hbefore, hafter] at hlines
  rcases hlines with hlines | ⟨quoted, rest, -, -, hquote, -⟩
  · have htext := congrArg (fun lines => (lines.getD 0 []).length) hlines
    have htrail : c.trail.length ≤ 1 := by
      rcases c.trail_cases with htrail | htrail
      all_goals
        rw [htrail]
        decide
    simp only [List.set_cons_zero, List.getD_cons_zero, Replacement.text, List.length_append, List.length_nil] at htext
    have height : (ofAscii "/mmodelo").length = 8 := rfl
    omega
  · cases hquote

end Editor
end Tui
end RePrime
