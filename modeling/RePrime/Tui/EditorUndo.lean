import RePrime.Lib.Runs
import RePrime.Tui.EditorInput

/-!
# RePrime.Tui.EditorUndo

The undo stack of the editor over whole runs.

Each operation is a turn of one of a few kinds, by what it does to the text and to the stack: it leaves both, takes a
snapshot, goes on with a word that is typed or with a walk through the history, undoes, or submits. An input may be
several turns.

* `step_turns`: every step of the editor is a sequence of turns.
* `undo_restores`: an undo brings back what the editor held when the snapshot was taken that it uses.
* `undo_of_change`: what one undo brings back after a turn that changes the text.
* `undo_to_origin`: undoing again and again ends at the text under the stack, which no turn but a submit changes.
* `undo_exact`: the three together, for the steps of the editor.
-/

namespace RePrime
namespace Tui

open JsText Relation List

namespace Editor

/-! ### Turns -/

/-- What a snapshot holds of an editor. -/
def document (ed : Editor) : EditorUndoSnapshot := ⟨ed.state, ed.pastes, ed.pasteCounter⟩

/-- The text and the cursor after a character is typed. -/
def typed (st : EditorState) (char : JsString) : EditorState :=
  let line := st.lines.getD st.cursorLine []
  { lines := putLine st.lines st.cursorLine (sliceTo line st.cursorCol ++ char ++ sliceFrom line st.cursorCol)
    cursorLine := st.cursorLine
    cursorCol := st.cursorCol + char.length }

/-- A word typed at the cursor: any character, and after it no white space. -/
inductive Word (st : EditorState) : EditorState → Prop
  | first (char : JsString) : Word st (typed st char)
  | next {st' : EditorState} {char : JsString} : Word st st' → isWhitespaceChar char = false → Word st (typed st' char)

/-- The kinds of turns. `takeBrowsing` takes a snapshot while a text of the history is shown and stays in the
history; only a completion does so. -/
inductive Kind where
  | keep | take | takeBrowsing | type | browse | undo | submit
deriving DecidableEq

def isTyping (ed : Editor) : Prop := ed.lastAction = some .typeWord

def isBrowsing (ed : Editor) : Prop := ed.historyIndex.isSome = true

inductive Turn : Kind → Editor → Editor → Prop
  | keep {ed ed' : Editor} (text : ed'.getText = ed.getText) (stack : ed'.undoStack = ed.undoStack)
      (word : ed'.isTyping → ed.isTyping ∧ ed'.state = ed.state) (walk : ed'.isBrowsing → ed.isBrowsing) :
      Turn .keep ed ed'
  | take {ed ed' : Editor} (stack : ed'.undoStack = ed.document :: ed.undoStack)
      (word : ed'.isTyping → ∃ char, ed'.state = typed ed.state char) (walk : ed'.isBrowsing → ed.state.lines = [[]]) :
      Turn .take ed ed'
  | takeBrowsing {ed ed' : Editor} (stack : ed'.undoStack = ed.document :: ed.undoStack) (word : ¬ ed'.isTyping)
      (walk : ed.isBrowsing) : Turn .takeBrowsing ed ed'
  | type {ed ed' : Editor} (char : JsString) (stack : ed'.undoStack = ed.undoStack) (before : ed.isTyping)
      (space : isWhitespaceChar char = false) (state : ed'.state = typed ed.state char) (walk : ¬ ed'.isBrowsing) :
      Turn .type ed ed'
  | browse {ed ed' : Editor} (stack : ed'.undoStack = ed.undoStack) (before : ed.isBrowsing) (word : ¬ ed'.isTyping)
      (shown : ed'.getText = [] ∨ ed'.getText ∈ ed.history) : Turn .browse ed ed'
  | undo {ed ed' : Editor} (stack : ed.undoStack = ed'.document :: ed'.undoStack) (word : ¬ ed'.isTyping)
      (walk : ¬ ed'.isBrowsing) : Turn .undo ed ed'
  | submit {ed ed' : Editor} (stack : ed'.undoStack = []) (word : ¬ ed'.isTyping) (walk : ¬ ed'.isBrowsing) :
      Turn .submit ed ed'

/-- Turns in a row, of kinds that are allowed. -/
def Turns (allowed : Kind → Prop) : Editor → Editor → Prop := ReflTransGen fun ed ed' => ∃ k, allowed k ∧ Turn k ed ed'

/-- Nothing can be undone, and nothing that was begun goes on: an editor that is new, or was just submitted. -/
structure Fresh (ed : Editor) : Prop where
  stack : ed.undoStack = []
  word : ¬ ed.isTyping
  walk : ¬ ed.isBrowsing

/-! ### Undoing -/

variable {ed : Editor}

theorem undo_cons {top : EditorUndoSnapshot} {rest : List EditorUndoSnapshot}
    (h : ed.undoStack = top :: rest) :
    ed.undo.document = top ∧ ed.undo.undoStack = rest ∧ ¬ ed.undo.isTyping ∧ ¬ ed.undo.isBrowsing := by
  unfold undo
  dsimp only
  rw [h]
  dsimp only
  obtain ⟨c, hc⟩ := refreshAutocompleteAfterEdit_eq _ false
  rw [hc]
  exact ⟨rfl, rfl, fun hword => (by cases hword), fun hwalk => (by cases hwalk)⟩

theorem undo_nil (h : ed.undoStack = []) : ed.undo = { ed with historyIndex := none } := by
  unfold undo
  dsimp only
  rw [h]

/-- What a stack held at a time stays under it until it is undone. -/
theorem suffix_of_turns {m : Editor} (hne : m.undoStack ≠ [])
    (h : ReflTransGen (fun s s' => (∃ k, Turn k s s') ∧ m.undoStack.length ≤ s'.undoStack.length) m ed) :
    m.undoStack <:+ ed.undoStack := by
  induction h with
  | refl => exact suffix_refl _
  | tail _ hlast ih =>
    obtain ⟨⟨k, hturn⟩, hlen⟩ := hlast
    cases hturn with
    | keep _ hstack => rwa [hstack]
    | take hstack =>
      rw [hstack]
      exact ih.trans (suffix_cons _ _)
    | takeBrowsing hstack =>
      rw [hstack]
      exact ih.trans (suffix_cons _ _)
    | type _ hstack => rwa [hstack]
    | browse hstack => rwa [hstack]
    | undo hstack =>
      rw [hstack, suffix_cons_iff] at ih
      rcases ih with heq | hsuffix
      · rw [heq, length_cons] at hlen
        omega
      · exact hsuffix
    | submit hstack =>
      rw [hstack, length_nil, Nat.le_zero, length_eq_zero_iff] at hlen
      exact absurd hlen hne

/-- **An undo restores its snapshot.** Once everything that was put on the stack after a snapshot is undone, one more
undo brings back what the editor held when the snapshot was taken, and the stack under it. -/
theorem undo_restores {m m' : Editor} (htake : m'.undoStack = m.document :: m.undoStack)
    (hrun : ReflTransGen (fun s s' => (∃ k, Turn k s s') ∧ m'.undoStack.length ≤ s'.undoStack.length) m' ed)
    (hlen : ed.undoStack.length = m'.undoStack.length) :
    ed.undo.document = m.document ∧ ed.undo.undoStack = m.undoStack := by
  have hsuffix := suffix_of_turns (by rw [htake]; exact cons_ne_nil _ _) hrun
  have heq : ed.undoStack = m.document :: m.undoStack := by
    rw [← htake]
    exact (hsuffix.eq_of_length hlen.symm).symm
  obtain ⟨hdoc, hstack, -⟩ := undo_cons heq
  exact ⟨hdoc, hstack⟩

/-- What goes on has a snapshot under it. -/
structure Backed (ed : Editor) : Prop where
  word : ed.isTyping → ed.undoStack ≠ []
  walk : ed.isBrowsing → ed.undoStack ≠ []

/-- The text under everything that can be undone. -/
def origin (ed : Editor) : JsString :=
  match ed.undoStack.getLast? with
  | some snapshot => Lines.join newline snapshot.lines
  | none => ed.getText

theorem origin_cons {top : EditorUndoSnapshot} {rest : List EditorUndoSnapshot}
    (h : ed.undoStack = top :: rest) :
    ed.origin = match rest.getLast? with
      | some snapshot => Lines.join newline snapshot.lines
      | none => Lines.join newline top.lines := by
  unfold origin
  rw [h]
  cases rest with
  | nil => rfl
  | cons next rest => rw [getLast?_cons_cons, getLast?_cons]

variable {ed' : Editor}

theorem origin_congr (hstack : ed'.undoStack = ed.undoStack) (hne : ed.undoStack ≠ []) :
    ed'.origin = ed.origin := by
  obtain ⟨top, rest, h⟩ := exists_cons_of_ne_nil hne
  rw [origin_cons h, origin_cons (hstack.trans h)]

theorem origin_taken (hstack : ed'.undoStack = ed.document :: ed.undoStack) :
    ed'.origin = ed.origin := by
  rw [origin_cons hstack]
  rfl

variable {k : Kind}

theorem Turn.backed (h : Turn k ed ed') (hb : ed.Backed) (hk : k ≠ .submit) :
    ed'.Backed ∧ ed'.origin = ed.origin := by
  cases h with
  | keep text stack word walk =>
    refine ⟨⟨fun hw => ?_, fun hw => ?_⟩, ?_⟩
    · rw [stack]
      exact hb.word (word hw).1
    · rw [stack]
      exact hb.walk (walk hw)
    · unfold origin
      rw [stack, text]
  | take stack =>
    exact ⟨⟨fun _ => by rw [stack]; exact cons_ne_nil _ _, fun _ => by rw [stack]; exact cons_ne_nil _ _⟩,
      origin_taken stack⟩
  | takeBrowsing stack =>
    exact ⟨⟨fun _ => by rw [stack]; exact cons_ne_nil _ _, fun _ => by rw [stack]; exact cons_ne_nil _ _⟩,
      origin_taken stack⟩
  | type _ stack before =>
    have hne := hb.word before
    exact ⟨⟨fun _ => by rwa [stack], fun _ => by rwa [stack]⟩, origin_congr stack hne⟩
  | browse stack before =>
    have hne := hb.walk before
    exact ⟨⟨fun _ => by rwa [stack], fun _ => by rwa [stack]⟩, origin_congr stack hne⟩
  | undo stack word walk =>
    refine ⟨⟨fun hw => absurd hw word, fun hw => absurd hw walk⟩, ?_⟩
    rw [origin_cons stack]
    rfl
  | submit => exact absurd rfl hk

theorem Fresh.backed (h : ed.Fresh) : ed.Backed :=
  ⟨fun hw => absurd hw h.word, fun hw => absurd hw h.walk⟩

variable {ed₀ : Editor}

theorem Turns.backed (hfresh : ed₀.Fresh) (h : Turns (· ≠ .submit) ed₀ ed) :
    ed.Backed ∧ ed.origin = ed₀.getText := by
  induction h with
  | refl =>
    refine ⟨hfresh.backed, ?_⟩
    unfold origin
    rw [hfresh.stack]
    rfl
  | tail _ hlast ih =>
    obtain ⟨k, hk, hturn⟩ := hlast
    obtain ⟨hb, horigin⟩ := hturn.backed ih.1 hk
    exact ⟨hb, horigin.trans ih.2⟩

/-- `undo` pressed until nothing is left. -/
theorem undo_to_origin (ed : Editor) :
    (undo^[ed.undoStack.length] ed).undoStack = [] ∧ (undo^[ed.undoStack.length] ed).getText = ed.origin := by
  generalize hn : ed.undoStack.length = n
  induction n generalizing ed with
  | zero =>
    have hnil := length_eq_zero_iff.mp hn
    refine ⟨hnil, ?_⟩
    unfold origin
    rw [hnil]
    rfl
  | succ n ih =>
    obtain ⟨top, rest, h⟩ := exists_cons_of_length_eq_add_one hn
    obtain ⟨hdoc, hstack, -, -⟩ := undo_cons h
    have hlen : ed.undo.undoStack.length = n := by
      rw [hstack]
      rw [h, length_cons] at hn
      omega
    have horigin : ed.undo.origin = ed.origin := by
      rw [origin_cons h]
      unfold origin
      rw [hstack]
      have htext : ed.undo.getText = Lines.join newline top.lines := by rw [← hdoc]; rfl
      rw [htext]
    rw [Function.iterate_succ_apply]
    obtain ⟨hnil, htext⟩ := ih ed.undo hlen
    exact ⟨hnil, htext.trans horigin⟩

/-! ### What one undo brings back -/

/-- The word that is typed, and the walk through the history that goes on, started at the last snapshot. -/
structure Started (ed : Editor) : Prop where
  word : ed.isTyping → ∃ top rest, ed.undoStack = top :: rest ∧ Word top.toEditorState ed.state
  walk : ed.isBrowsing → ∃ top rest, ed.undoStack = top :: rest ∧ top.lines = [[]]

theorem Turn.started (h : Turn k ed ed') (hs : ed.Started) (hk : k ≠ .takeBrowsing) :
    ed'.Started := by
  cases h with
  | keep text stack word walk =>
    refine ⟨fun hw => ?_, fun hw => ?_⟩
    · obtain ⟨top, rest, hstack, hword⟩ := hs.word (word hw).1
      exact ⟨top, rest, stack.trans hstack, by rw [(word hw).2]; exact hword⟩
    · obtain ⟨top, rest, hstack, hempty⟩ := hs.walk (walk hw)
      exact ⟨top, rest, stack.trans hstack, hempty⟩
  | take stack word walk =>
    refine ⟨fun hw => ?_, fun hw => ⟨_, _, stack, walk hw⟩⟩
    obtain ⟨char, hstate⟩ := word hw
    exact ⟨_, _, stack, by rw [hstate]; exact .first char⟩
  | takeBrowsing => exact absurd rfl hk
  | type char stack before space state walk =>
    refine ⟨fun _ => ?_, fun hw => absurd hw walk⟩
    obtain ⟨top, rest, hstack, hword⟩ := hs.word before
    exact ⟨top, rest, stack.trans hstack, by rw [state]; exact .next hword space⟩
  | browse stack before word =>
    refine ⟨fun hw => absurd hw word, fun _ => ?_⟩
    obtain ⟨top, rest, hstack, hempty⟩ := hs.walk before
    exact ⟨top, rest, stack.trans hstack, hempty⟩
  | undo _ word walk => exact ⟨fun hw => absurd hw word, fun hw => absurd hw walk⟩
  | submit _ word walk => exact ⟨fun hw => absurd hw word, fun hw => absurd hw walk⟩

theorem Turns.started (hfresh : ed₀.Fresh) (h : Turns (· ≠ .takeBrowsing) ed₀ ed) : ed.Started := by
  induction h with
  | refl => exact ⟨fun hw => absurd hw hfresh.word, fun hw => absurd hw hfresh.walk⟩
  | tail _ hlast ih =>
    obtain ⟨k, hk, hturn⟩ := hlast
    exact hturn.started ih hk

/-- What one undo brings back after a turn: what was there before it, or before the word that it goes on with, or the
empty text that the walk through the history started from. -/
inductive Undoes (ed : Editor) (back : EditorUndoSnapshot) : Prop
  | own : back = ed.document → Undoes ed back
  | word : Word back.toEditorState ed.state → Undoes ed back
  | walk : ed.isBrowsing → back.lines = [[]] → Undoes ed back

theorem undo_of_change (hs : ed.Started) (hturn : Turn k ed ed')
    (hk : k ≠ .undo ∧ k ≠ .submit) (hchange : ed'.getText ≠ ed.getText) : Undoes ed ed'.undo.document := by
  cases hturn with
  | keep text => exact absurd text hchange
  | take stack => exact .own (undo_cons stack).1
  | takeBrowsing stack => exact .own (undo_cons stack).1
  | type char stack before =>
    obtain ⟨top, rest, hstack, hword⟩ := hs.word before
    rw [(undo_cons (stack.trans hstack)).1]
    exact .word hword
  | browse stack before =>
    obtain ⟨top, rest, hstack, hempty⟩ := hs.walk before
    rw [(undo_cons (stack.trans hstack)).1]
    exact .walk before hempty
  | undo => exact absurd rfl hk.1
  | submit => exact absurd rfl hk.2

/-! ### Operations are turns -/

/-- Any kind, but `undo`, `submit` and `takeBrowsing` under these conditions only. -/
structure Allowed (undoes submits completes : Prop) (k : Kind) : Prop where
  undoes : k = .undo → undoes
  submits : k = .submit → submits
  completes : k = .takeBrowsing → completes

/-- One turn, which is no undo, no submit and no completion in the history. -/
def OneTurn (ed ed' : Editor) : Prop := ∃ k, Allowed False False False k ∧ Turn k ed ed'

theorem OneTurn.withCompletion (h : OneTurn ed ed') (c : Completion) :
    OneTurn ed (ed'.withCompletion c) := by
  obtain ⟨k, hk, h⟩ := h
  refine ⟨k, hk, ?_⟩
  cases h with
  | keep text stack word walk => exact .keep text stack word walk
  | take stack word walk => exact .take stack word walk
  | takeBrowsing stack word walk => exact .takeBrowsing stack word walk
  | type char stack before space state walk => exact .type char stack before space state walk
  | browse stack before word shown => exact .browse stack before word shown
  | undo stack word walk => exact .undo stack word walk
  | submit stack word walk => exact .submit stack word walk

theorem OneTurn.refresh (h : OneTurn ed ed') (retrigger : Bool) :
    OneTurn ed (ed'.refreshAutocompleteAfterEdit retrigger) := by
  obtain ⟨c, hc⟩ := ed'.refreshAutocompleteAfterEdit_eq retrigger
  rw [hc]
  exact h.withCompletion c

theorem OneTurn.trigger (h : OneTurn ed ed') (char : JsString) :
    OneTurn ed (ed'.triggerAfterCharacter char) := by
  obtain ⟨c, hc⟩ := ed'.triggerAfterCharacter_eq char
  rw [hc]
  exact h.withCompletion c

variable {ed₁ : Editor}

theorem OneTurn.after (h : OneTurn ed₁ ed') (hdoc : ed₁.document = ed.document)
    (hstack : ed₁.undoStack = ed.undoStack) (hhistory : ed₁.history = ed.history) (hword : ed₁.isTyping → ed.isTyping)
    (hwalk : ed₁.isBrowsing → ed.isBrowsing) : OneTurn ed ed' := by
  have hstate : ed₁.state = ed.state := congrArg EditorUndoSnapshot.toEditorState hdoc
  have htext : ed₁.getText = ed.getText := by unfold getText; rw [hstate]
  obtain ⟨k, hk, h⟩ := h
  refine ⟨k, hk, ?_⟩
  cases h with
  | keep text stack word walk =>
    refine .keep (text.trans htext) (stack.trans hstack) (fun hw => ?_) fun hw => hwalk (walk hw)
    exact ⟨hword (word hw).1, (word hw).2.trans hstate⟩
  | take stack word walk =>
    rw [hdoc, hstack] at stack
    rw [hstate] at word walk
    exact .take stack word walk
  | takeBrowsing stack word walk =>
    rw [hdoc, hstack] at stack
    exact .takeBrowsing stack word (hwalk walk)
  | type char stack before space state walk =>
    rw [hstate] at state
    exact .type char (stack.trans hstack) (hword before) space state walk
  | browse stack before word shown => exact .browse (stack.trans hstack) (hwalk before) word (hhistory ▸ shown)
  | undo stack word walk => exact .undo (hstack.symm.trans stack) word walk
  | submit stack word walk => exact .submit stack word walk

theorem OneTurn.leave {action : Option LastAction}
    (h : OneTurn { ed with historyIndex := none, lastAction := action } ed')
    (haction : action = some .typeWord → ed.isTyping) : OneTurn ed ed' :=
  h.after rfl rfl rfl haction fun hwalk => by cases hwalk

theorem oneTurn_keep (h : Turn .keep ed ed') : OneTurn ed ed' := ⟨.keep, ⟨nofun, nofun, nofun⟩, h⟩

theorem oneTurn_refl (ed : Editor) : OneTurn ed ed := oneTurn_keep (.keep rfl rfl (fun hw => ⟨hw, rfl⟩) id)

theorem oneTurn_take (hstack : ed'.undoStack = ed.document :: ed.undoStack)
    (hword : ed'.lastAction ≠ some .typeWord) (hwalk : ed'.historyIndex = none) : OneTurn ed ed' :=
  ⟨.take, ⟨nofun, nofun, nofun⟩, .take hstack (fun hw => absurd hw hword) fun hw => by
    rw [isBrowsing, hwalk] at hw
    cases hw⟩

theorem oneTurn_move (hlines : ed'.state.lines = ed.state.lines)
    (hstack : ed'.undoStack = ed.undoStack) (hword : ed'.lastAction ≠ some .typeWord)
    (hwalk : ed'.historyIndex = ed.historyIndex) : OneTurn ed ed' := by
  refine oneTurn_keep (.keep ?_ hstack (fun hw => absurd hw hword) fun hw => ?_)
  · unfold getText
    rw [hlines]
  · rwa [isBrowsing, hwalk] at hw

/-- Fields that the writing of text leaves alone. -/
structure SameLog (ed ed' : Editor) : Prop where
  stack : ed'.undoStack = ed.undoStack
  action : ed'.lastAction = ed.lastAction
  history : ed'.historyIndex = ed.historyIndex

theorem insertTextAtCursorInternal_log (ed : Editor) (text : JsString) :
    SameLog ed (ed.insertTextAtCursorInternal text) := by
  unfold insertTextAtCursorInternal
  dsimp only
  split_ifs
  · exact ⟨rfl, rfl, rfl⟩
  · exact ⟨rfl, rfl, rfl⟩
  · exact ⟨rfl, rfl, rfl⟩

theorem insertYankedText_log (ed : Editor) (text : JsString) :
    SameLog { ed with historyIndex := none } (ed.insertYankedText text) := by
  unfold insertYankedText
  dsimp only
  split_ifs
  · exact ⟨rfl, rfl, rfl⟩
  · exact ⟨rfl, rfl, rfl⟩

theorem deleteYankedText_log (ed : Editor) : SameLog ed ed.deleteYankedText := by
  unfold deleteYankedText
  dsimp only
  split
  · exact ⟨rfl, rfl, rfl⟩
  · split_ifs
    · exact ⟨rfl, rfl, rfl⟩
    · exact ⟨rfl, rfl, rfl⟩
    · exact ⟨rfl, rfl, rfl⟩

theorem insertCharacter_turn (ed : Editor) (char : JsString) : OneTurn ed (ed.insertCharacter char) := by
  unfold insertCharacter
  dsimp only
  cases hc : (isWhitespaceChar char || ed.lastAction != some .typeWord) with
  | true =>
    rw [if_pos rfl]
    have hturn : OneTurn ed { ed.pushUndoSnapshot with
        state := typed ed.state char, historyIndex := none, lastAction := some .typeWord,
        preferredVisualCol := none, snappedFromCursorCol := none } :=
      ⟨.take, ⟨nofun, nofun, nofun⟩, .take rfl (fun _ => ⟨char, rfl⟩) fun hwalk => by cases hwalk⟩
    split
    · exact hturn.refresh false
    · exact hturn.trigger char
  | false =>
    simp only [Bool.or_eq_false_iff, bne_eq_false_iff_eq] at hc
    rw [if_neg Bool.false_ne_true]
    have hturn : OneTurn ed { ed with
        state := typed ed.state char, historyIndex := none, lastAction := some .typeWord,
        preferredVisualCol := none, snappedFromCursorCol := none } :=
      ⟨.type, ⟨nofun, nofun, nofun⟩, .type char rfl hc.2 hc.1 rfl fun hwalk => by cases hwalk⟩
    split
    · exact hturn.refresh false
    · exact hturn.trigger char

theorem handlePaste_turn (ed : Editor) (text : JsString) : OneTurn ed (ed.handlePaste text) := by
  unfold handlePaste
  dsimp only
  split
  · have hlog := insertTextAtCursorInternal_log
    refine oneTurn_take ((hlog _ _).stack.trans rfl) ?_ ((hlog _ _).history.trans rfl)
    rw [(hlog _ _).action]
    exact nofun
  · have hlog := insertTextAtCursorInternal_log
    refine oneTurn_take ((hlog _ _).stack.trans rfl) ?_ ((hlog _ _).history.trans rfl)
    rw [(hlog _ _).action]
    exact nofun

theorem addNewLine_turn (ed : Editor) : OneTurn ed ed.addNewLine := oneTurn_take rfl nofun rfl

theorem getText_setTextInternal (ed : Editor) (text : JsString) : (ed.setTextInternal text).getText = text :=
  Lines.join_split text

theorem setText_turn (ed : Editor) (text : JsString) : OneTurn ed (ed.setText text) := by
  unfold setText
  dsimp only
  split
  · exact oneTurn_take rfl nofun rfl
  · rename_i hsame
    refine oneTurn_keep (.keep ?_ rfl nofun nofun)
    rw [getText_setTextInternal]
    exact (not_not.mp hsame).symm

theorem insertTextAtCursor_turn (ed : Editor) (text : JsString) : OneTurn ed (ed.insertTextAtCursor text) := by
  unfold insertTextAtCursor
  dsimp only
  split
  · exact oneTurn_refl ed
  · have hlog := insertTextAtCursorInternal_log
    refine oneTurn_take ((hlog _ _).stack.trans rfl) ?_ ((hlog _ _).history.trans rfl)
    rw [(hlog _ _).action]
    exact nofun

variable (h : Host)

theorem moveWordBackwards_log (ed : Editor) :
    (ed.moveWordBackwards h).state.lines = ed.state.lines ∧
      SameLog { ed with lastAction := none } (ed.moveWordBackwards h) := by
  unfold moveWordBackwards
  dsimp only
  split_ifs
  · exact ⟨rfl, rfl, rfl, rfl⟩
  · exact ⟨rfl, rfl, rfl, rfl⟩
  · exact ⟨rfl, rfl, rfl, rfl⟩

theorem moveWordForwards_log (ed : Editor) :
    (ed.moveWordForwards h).state.lines = ed.state.lines ∧
      SameLog { ed with lastAction := none } (ed.moveWordForwards h) := by
  unfold moveWordForwards
  dsimp only
  split_ifs
  · exact ⟨rfl, rfl, rfl, rfl⟩
  · exact ⟨rfl, rfl, rfl, rfl⟩
  · exact ⟨rfl, rfl, rfl, rfl⟩

theorem handleBackspace_turn (ed : Editor) : OneTurn ed (ed.handleBackspace h) := by
  unfold handleBackspace
  dsimp only
  refine OneTurn.refresh ?_ true
  split_ifs
  · exact oneTurn_take rfl nofun rfl
  · exact oneTurn_take rfl nofun rfl
  · exact oneTurn_take rfl nofun rfl
  · exact (oneTurn_refl _).leave nofun

theorem handleForwardDelete_turn (ed : Editor) : OneTurn ed (ed.handleForwardDelete h) := by
  unfold handleForwardDelete
  dsimp only
  refine OneTurn.refresh ?_ true
  split_ifs
  · exact oneTurn_take rfl nofun rfl
  · exact (oneTurn_refl _).leave nofun
  · exact oneTurn_take rfl nofun rfl

theorem deleteToStartOfLine_turn (ed : Editor) : OneTurn ed (ed.deleteToStartOfLine h) := by
  unfold deleteToStartOfLine
  dsimp only
  refine OneTurn.refresh ?_ false
  split_ifs
  · exact oneTurn_take rfl nofun rfl
  · exact oneTurn_take rfl nofun rfl
  · exact (oneTurn_refl _).leave id

theorem deleteToEndOfLine_turn (ed : Editor) : OneTurn ed ed.deleteToEndOfLine := by
  unfold deleteToEndOfLine
  dsimp only
  refine OneTurn.refresh ?_ false
  split_ifs
  · exact oneTurn_take rfl nofun rfl
  · exact (oneTurn_refl _).leave id
  · exact oneTurn_take rfl nofun rfl

theorem deleteWordBackwards_turn (ed : Editor) : OneTurn ed (ed.deleteWordBackwards h) := by
  unfold deleteWordBackwards
  dsimp only
  refine OneTurn.refresh ?_ false
  split_ifs
  · exact oneTurn_take rfl nofun rfl
  · exact (oneTurn_refl _).leave id
  · have hlog := (moveWordBackwards_log h ({ ed with historyIndex := none } : Editor).pushUndoSnapshot).2
    exact oneTurn_take (hlog.stack.trans rfl) nofun (hlog.history.trans rfl)

theorem deleteWordForward_turn (ed : Editor) : OneTurn ed (ed.deleteWordForward h) := by
  unfold deleteWordForward
  dsimp only
  refine OneTurn.refresh ?_ false
  split_ifs
  · exact (oneTurn_refl _).leave id
  · exact oneTurn_take rfl nofun rfl
  · have hlog := (moveWordForwards_log h ({ ed with historyIndex := none } : Editor).pushUndoSnapshot).2
    exact oneTurn_take (hlog.stack.trans rfl) nofun (hlog.history.trans rfl)

theorem yank_turn (ed : Editor) : OneTurn ed ed.yank := by
  unfold yank
  split
  · exact oneTurn_refl ed
  · rename_i text _ _
    have hlog := insertYankedText_log ed.pushUndoSnapshot text
    refine OneTurn.refresh ?_ false
    exact oneTurn_take (hlog.stack.trans rfl) nofun hlog.history

theorem yankPop_turn (ed : Editor) : OneTurn ed ed.yankPop := by
  unfold yankPop
  dsimp only
  split
  · exact oneTurn_refl ed
  · have hdel := deleteYankedText_log ed.pushUndoSnapshot
    have hlog := insertYankedText_log
      { ed.pushUndoSnapshot.deleteYankedText with
        killRing := rotateKills ed.pushUndoSnapshot.deleteYankedText.killRing }
      ((rotateKills ed.pushUndoSnapshot.deleteYankedText.killRing).headD [])
    refine OneTurn.refresh ?_ false
    exact oneTurn_take (hlog.stack.trans hdel.stack) nofun hlog.history

/-- The history is entered from an empty editor only, and while it is shown no snapshot is taken. -/
theorem navigateHistory_turn (ed : Editor) (direction : Direction)
    (hempty : ed.historyIndex = none → ed.isEditorEmpty = true) : OneTurn ed (ed.navigateHistory direction) := by
  have hnone : ∀ {i : Option Nat} {text : JsString}, ed.historyIndex.isSome = true → text = [] ∨ text ∈ ed.history →
      OneTurn ed (({ ed with lastAction := none, historyIndex := i } : Editor).setTextInternal text) := by
    intro i text hbrowsing hshown
    refine ⟨.browse, ⟨nofun, nofun, nofun⟩, .browse rfl hbrowsing nofun ?_⟩
    rw [getText_setTextInternal]
    exact hshown
  unfold navigateHistory
  dsimp only
  split
  · exact oneTurn_move rfl rfl nofun rfl
  · split
    · exact oneTurn_move rfl rfl nofun rfl
    · rename_i hindex
      refine hnone ?_ (.inl rfl)
      cases hi : ed.historyIndex with
      | some i => rfl
      | none =>
        cases direction with
        | forward | backward => simp [newHistoryIndex, hi] at hindex
    · rename_i i hindex
      split
      · exact oneTurn_move rfl rfl nofun rfl
      · rename_i hlt
        by_cases hi : ed.historyIndex = none
        · rw [if_pos hi]
          have hlines : ed.state.lines = [[]] := by simpa [isEditorEmpty] using hempty hi
          exact ⟨.take, ⟨nofun, nofun, nofun⟩, .take rfl nofun fun _ => hlines⟩
        · rw [if_neg hi]
          refine hnone (Option.isSome_iff_ne_none.mpr hi) (.inr ?_)
          rw [getD_eq_getElem?_getD, getElem?_eq_getElem (Nat.lt_of_not_le hlt), Option.getD_some]
          exact getElem_mem _

theorem jumpToChar_turn (ed : Editor) (char : JsString) (direction : Direction) :
    OneTurn ed (ed.jumpToChar char direction) := by
  unfold jumpToChar
  dsimp only
  split
  · exact oneTurn_move rfl rfl nofun rfl
  · exact oneTurn_move rfl rfl nofun rfl

/-- A move to another row leaves everything but the cursor and what the next such move goes by. -/
theorem moveToVisualLineFrom_log (visualLines : List VisualLine) (calls : Nat) (ed : Editor) (current target : Nat) :
    (moveToVisualLineFrom h visualLines calls ed current target).state.lines = ed.state.lines ∧
      SameLog ed (moveToVisualLineFrom h visualLines calls ed current target) := by
  induction calls generalizing ed target with
  | zero => exact ⟨rfl, rfl, rfl, rfl⟩
  | succ calls ih =>
    rw [moveToVisualLineFrom]
    split
    · dsimp only
      split
      · split
        · split
          · obtain ⟨hlines, hlog⟩ := ih (ed.landOn h visualLines current target _ _) _
            exact ⟨hlines, hlog.stack, hlog.action, hlog.history⟩
          · exact ⟨rfl, rfl, rfl, rfl⟩
        · exact ⟨rfl, rfl, rfl, rfl⟩
      · exact ⟨rfl, rfl, rfl, rfl⟩
    · exact ⟨rfl, rfl, rfl, rfl⟩

theorem oneTurn_moveToVisualLine (ed : Editor) (visualLines : List VisualLine) (current target : Nat) :
    OneTurn ed (({ ed with lastAction := none } : Editor).moveToVisualLine h visualLines current target) := by
  obtain ⟨hlines, hlog⟩ := moveToVisualLineFrom_log h visualLines visualLines.length { ed with lastAction := none }
    current target
  refine oneTurn_move hlines hlog.stack ?_ hlog.history
  rw [moveToVisualLine, hlog.action]
  exact nofun

theorem moveCursorLine_turn (ed : Editor) (direction : Direction) : OneTurn ed (ed.moveCursorLine h direction) := by
  unfold moveCursorLine
  dsimp only
  split
  · exact oneTurn_move rfl rfl nofun rfl
  · split
    · split
      · exact oneTurn_moveToVisualLine h ed _ _ _
      · exact oneTurn_move rfl rfl nofun rfl
    · split
      · exact oneTurn_moveToVisualLine h ed _ _ _
      · exact oneTurn_move rfl rfl nofun rfl

theorem moveCursorRight_turn (ed : Editor) : OneTurn ed (ed.moveCursorRight h) := by
  unfold moveCursorRight
  dsimp only
  split
  · exact oneTurn_move rfl rfl nofun rfl
  · split_ifs
    · exact oneTurn_move rfl rfl nofun rfl
    · split
      · exact oneTurn_move rfl rfl nofun rfl
      · exact oneTurn_move rfl rfl nofun rfl
    · exact oneTurn_move rfl rfl nofun rfl

theorem moveCursorLeft_turn (ed : Editor) : OneTurn ed (ed.moveCursorLeft h) := by
  unfold moveCursorLeft
  dsimp only
  split
  · exact oneTurn_move rfl rfl nofun rfl
  · split_ifs
    · exact oneTurn_move rfl rfl nofun rfl
    · exact oneTurn_move rfl rfl nofun rfl
    · exact oneTurn_move rfl rfl nofun rfl

theorem pageScroll_turn (ed : Editor) (direction : Direction) : OneTurn ed (ed.pageScroll h direction) := by
  unfold pageScroll
  dsimp only
  split
  · exact oneTurn_move rfl rfl nofun rfl
  · exact oneTurn_moveToVisualLine h ed _ _ _

theorem placeCursorFromClick_turn (ed : Editor) (row col : Nat) : OneTurn ed (ed.placeCursorFromClick h row col) := by
  unfold placeCursorFromClick
  split
  · exact oneTurn_refl ed
  · split
    · exact oneTurn_refl ed
    · exact oneTurn_move rfl rfl nofun rfl

theorem render_turn (ed : Editor) (width : Nat) : OneTurn ed (ed.render h width) := by
  unfold render
  dsimp only
  split
  · exact oneTurn_keep (.keep rfl rfl (fun hw => ⟨hw, rfl⟩) id)
  · exact oneTurn_keep (.keep rfl rfl (fun hw => ⟨hw, rfl⟩) id)

theorem oneTurn_of_document (hdoc : ed'.document = ed.document)
    (hstack : ed'.undoStack = ed.undoStack) (haction : ed'.lastAction = ed.lastAction)
    (hhistory : ed'.historyIndex = ed.historyIndex) : OneTurn ed ed' := by
  have hstate : ed'.state = ed.state := congrArg EditorUndoSnapshot.toEditorState hdoc
  refine oneTurn_keep (.keep ?_ hstack (fun hw => ?_) fun hw => ?_)
  · unfold getText
    rw [hstate]
  · exact ⟨by rwa [isTyping, haction] at hw, hstate⟩
  · rwa [isBrowsing, hhistory] at hw

/-! ### Steps are turns -/

variable {undoes submits completes : Prop}

theorem OneTurn.turns (h : OneTurn ed ed') : Turns (Allowed undoes submits completes) ed ed' := by
  obtain ⟨k, hk, h⟩ := h
  exact .single ⟨k, ⟨fun hu => (hk.undoes hu).elim, fun hs => (hk.submits hs).elim,
    fun hc => (hk.completes hc).elim⟩, h⟩

theorem undo_turns (ed : Editor) (hu : undoes) : Turns (Allowed undoes submits completes) ed ed.undo := by
  cases hstack : ed.undoStack with
  | nil =>
    rw [undo_nil hstack]
    exact ((oneTurn_refl _).leave id : OneTurn ed { ed with historyIndex := none }).turns
  | cons top rest =>
    obtain ⟨hdoc, hrest, hword, hwalk⟩ := undo_cons hstack
    exact .single ⟨.undo, ⟨fun _ => hu, nofun, nofun⟩, .undo (by rw [hstack, hdoc, hrest]) hword hwalk⟩

theorem submitValue_turns (ed : Editor) (hs : submits) :
    Turns (Allowed undoes submits completes) ed ed.submitValue :=
  .single ⟨.submit, ⟨nofun, fun _ => hs, nofun⟩, .submit rfl nofun nofun⟩

/-- The text and the cursor that a completion gives, after its snapshot. In the history it stays there. -/
theorem turns_completion (hstack : ed'.undoStack = ed.document :: ed.undoStack)
    (haction : ed'.lastAction = none) (hhistory : ed'.historyIndex = ed.historyIndex)
    (hc : ed.isBrowsing → completes) : Turns (Allowed undoes submits completes) ed ed' := by
  have hword : ¬ ed'.isTyping := by
    rw [isTyping, haction]
    exact nofun
  by_cases hwalk : ed.isBrowsing
  · exact .single ⟨.takeBrowsing, ⟨nofun, nofun, fun _ => hc hwalk⟩, .takeBrowsing hstack hword hwalk⟩
  · exact (oneTurn_take hstack hword (hhistory.trans (Option.not_isSome_iff_eq_none.mp hwalk))).turns

theorem acceptItem_turns (ed : Editor) (provider : AutocompleteProvider) (item : AutocompleteItem)
    (prefixText : JsString) (hc : ed.isBrowsing → completes) :
    Turns (Allowed undoes submits completes) ed (ed.acceptItem provider item prefixText) :=
  turns_completion rfl rfl rfl hc

theorem cursorUp_turn (ed : Editor) : OneTurn ed (ed.cursorUp h) := by
  unfold cursorUp
  split
  · exact navigateHistory_turn ed .backward fun _ => ‹_›
  · split
    · exact oneTurn_refl ed
    · split
      · rename_i hsome
        refine navigateHistory_turn ed .backward fun hnone => ?_
        rw [hnone] at hsome
        cases hsome
      · exact oneTurn_move rfl rfl nofun rfl
    · exact moveCursorLine_turn h ed .backward

theorem cursorDown_turn (ed : Editor) : OneTurn ed (ed.cursorDown h) := by
  unfold cursorDown
  split
  · exact oneTurn_refl ed
  · split
    · rename_i hsome
      refine navigateHistory_turn ed .forward fun hnone => ?_
      rw [hnone] at hsome
      cases hsome
    · exact oneTurn_move rfl rfl nofun rfl
  · exact moveCursorLine_turn h ed .forward

theorem handleTabCompletion_turn (ed : Editor) : OneTurn ed ed.handleTabCompletion := by
  have hrequest : ∀ options, OneTurn ed (ed.requestAutocomplete options) := by
    intro options
    obtain ⟨c, hc, -⟩ := ed.requestAutocomplete_eq options
    rw [hc]
    exact (oneTurn_refl ed).withCompletion c
  unfold handleTabCompletion
  split
  · exact hrequest _
  · exact hrequest _

theorem handleBackspace_submitted (ed : Editor) : (ed.handleBackspace h).submitted = ed.submitted := by
  unfold handleBackspace
  dsimp only
  obtain ⟨c, hc⟩ := refreshAutocompleteAfterEdit_eq _ true
  rw [hc]
  split_ifs <;> rfl

theorem submitValue_ne (ed : Editor) {log : List JsString} (hlog : ed.submitted = log) :
    ed.submitValue.submitted ≠ log := by
  rw [← hlog]
  exact cons_ne_self _ _

theorem Command.run_turns (ed : Editor) (data : JsString) (command : Command) :
    Turns (Allowed undoes ((command.run h ed data).submitted ≠ ed.submitted) completes) ed (command.run h ed data) := by
  cases command with
  | tabCompletion => exact (handleTabCompletion_turn ed).turns
  | deleteToEndOfLine => exact (deleteToEndOfLine_turn ed).turns
  | deleteToStartOfLine => exact (deleteToStartOfLine_turn h ed).turns
  | deleteWordBackwards => exact (deleteWordBackwards_turn h ed).turns
  | deleteWordForward => exact (deleteWordForward_turn h ed).turns
  | backspace => exact (handleBackspace_turn h ed).turns
  | forwardDelete => exact (handleForwardDelete_turn h ed).turns
  | yank => exact (yank_turn ed).turns
  | yankPop => exact (yankPop_turn ed).turns
  | lineStart => exact (oneTurn_move rfl rfl nofun rfl : OneTurn ed (ed.moveToLineStart h)).turns
  | lineEnd => exact (oneTurn_move rfl rfl nofun rfl : OneTurn ed ed.moveToLineEnd).turns
  | wordBackwards =>
    obtain ⟨hlines, hlog⟩ := moveWordBackwards_log h ed
    exact (oneTurn_move hlines hlog.stack (by rw [hlog.action]; exact nofun) hlog.history).turns
  | wordForwards =>
    obtain ⟨hlines, hlog⟩ := moveWordForwards_log h ed
    exact (oneTurn_move hlines hlog.stack (by rw [hlog.action]; exact nofun) hlog.history).turns
  | newLine =>
    rw [Command.run]
    split
    · exact (handleBackspace_turn h ed).turns.trans
        (submitValue_turns _ (submitValue_ne _ (handleBackspace_submitted h ed)))
    · exact (addNewLine_turn ed).turns
  | submit =>
    rw [Command.run]
    split
    · exact .refl
    · split
      · exact (handleBackspace_turn h ed).turns.trans (addNewLine_turn _).turns
      · exact submitValue_turns ed (submitValue_ne ed rfl)
  | cursorUp => exact (cursorUp_turn h ed).turns
  | cursorDown => exact (cursorDown_turn h ed).turns
  | cursorRight => exact (moveCursorRight_turn h ed).turns
  | cursorLeft => exact (moveCursorLeft_turn h ed).turns
  | pageUp => exact (pageScroll_turn h ed .backward).turns
  | pageDown => exact (pageScroll_turn h ed .forward).turns
  | jump direction =>
    have hmode : OneTurn ed { ed with jumpMode := some direction } := oneTurn_of_document rfl rfl rfl rfl
    exact hmode.turns
  | insert text => exact (insertCharacter_turn ed text).turns
  | nothing => exact .refl

theorem runCommand_turns (ed : Editor) (data : JsString) :
    Turns (Allowed undoes ((ed.runCommand h data).submitted ≠ ed.submitted) completes) ed (ed.runCommand h data) :=
  Command.run_turns h ed data _

theorem handleKey_turns (ed : Editor) (data : JsString) (hu : h.matchesBinding .undo data = true → undoes) :
    Turns (Allowed undoes ((ed.handleKey h data).submitted ≠ ed.submitted)
      (ed.isBrowsing ∧ ed.autocomplete.isSome = true)) ed (ed.handleKey h data) := by
  have hquiet : ∀ c, OneTurn ed (ed.withCompletion c) := fun c => (oneTurn_refl ed).withCompletion c
  unfold handleKey
  split
  · exact .refl
  split
  · rename_i hundo
    exact undo_turns ed (hu hundo)
  cases hlist : ed.autocomplete with
  | none => exact runCommand_turns h ed data
  | some list =>
    dsimp only
    split
    · exact (hquiet ⟨_, _, _, _⟩).turns
    split
    · exact (hquiet ⟨_, _, _, _⟩).turns
    split
    · exact (hquiet ⟨_, _, _, _⟩).turns
    split
    · split
      · exact acceptItem_turns ed _ _ _ fun hw => ⟨hw, rfl⟩
      · exact .refl
    split
    · unfold confirmSelection
      split
      · rename_i provider item _
        dsimp only
        split
        · have haccept : ∀ submits : Prop, Turns (Allowed undoes submits (ed.isBrowsing ∧ (some list).isSome = true)) ed
              (ed.acceptItem provider item list.prefixText) :=
            fun _ => acceptItem_turns ed provider item list.prefixText fun hw => ⟨hw, rfl⟩
          exact (haccept _).trans (runCommand_turns h _ data)
        · exact acceptItem_turns ed _ _ _ fun hw => ⟨hw, rfl⟩
      · exact runCommand_turns h ed data
    · exact runCommand_turns h ed data

/-- What a part of an input leaves as it was: nothing is submitted, and no list comes up over the history. -/
structure Calm (ed ed' : Editor) : Prop where
  submitted : ed'.submitted = ed.submitted
  list : ed'.isBrowsing ∧ ed'.autocomplete.isSome = true → ed.isBrowsing ∧ ed.autocomplete.isSome = true

theorem Calm.trans {ed₂ ed₃ : Editor} (h : Calm ed₁ ed₂) (h' : Calm ed₂ ed₃) : Calm ed₁ ed₃ :=
  ⟨h'.submitted.trans h.submitted, fun hl => h.list (h'.list hl)⟩

theorem Calm.turns (hcalm : Calm ed ed₁)
    (hturns : Turns (Allowed undoes (ed'.submitted ≠ ed.submitted)
      (ed.isBrowsing ∧ ed.autocomplete.isSome = true)) ed ed₁)
    (h : Turns (Allowed undoes (ed'.submitted ≠ ed₁.submitted)
      (ed₁.isBrowsing ∧ ed₁.autocomplete.isSome = true)) ed₁ ed') :
    Turns (Allowed undoes (ed'.submitted ≠ ed.submitted)
      (ed.isBrowsing ∧ ed.autocomplete.isSome = true)) ed ed' := by
  rw [hcalm.submitted] at h
  refine hturns.trans (ReflTransGen.mono ?_ _ _ h)
  rintro s s' ⟨k, hk, hturn⟩
  exact ⟨k, ⟨hk.undoes, hk.submits, fun hcomp => hcalm.list (hk.completes hcomp)⟩, hturn⟩

theorem handleJump_turns (ed : Editor) (data : JsString) :
    Turns (Allowed undoes submits completes) ed (ed.handleJump h data).1 ∧ Calm ed (ed.handleJump h data).1 ∧
      (ed.handleJump h data).1.isInPaste = ed.isInPaste ∧ (ed.handleJump h data).1.pasteBuffer = ed.pasteBuffer := by
  have hmode : OneTurn ed { ed with jumpMode := none } := oneTurn_of_document rfl rfl rfl rfl
  unfold handleJump
  split
  · exact ⟨.refl, ⟨rfl, id⟩, rfl, rfl⟩
  · dsimp only
    split
    · exact ⟨hmode.turns, ⟨rfl, id⟩, rfl, rfl⟩
    · split
      · refine ⟨hmode.turns.trans (jumpToChar_turn _ _ _).turns, ?_⟩
        unfold jumpToChar
        dsimp only
        split
        · exact ⟨⟨rfl, id⟩, rfl, rfl⟩
        · exact ⟨⟨rfl, id⟩, rfl, rfl⟩
      · exact ⟨hmode.turns, ⟨rfl, id⟩, rfl, rfl⟩

theorem handlePaste_calm (ed : Editor) (text : JsString) : Calm ed (ed.handlePaste text) := by
  have hsub : ∀ (ed : Editor) (text : JsString), (ed.insertTextAtCursorInternal text).submitted = ed.submitted := by
    intro ed text
    unfold insertTextAtCursorInternal
    dsimp only
    split_ifs <;> rfl
  unfold handlePaste
  dsimp only
  split
  · refine ⟨hsub _ _, fun hl => ?_⟩
    have hnone := hl.1
    rw [isBrowsing, (insertTextAtCursorInternal_log _ _).history] at hnone
    cases hnone
  · refine ⟨hsub _ _, fun hl => ?_⟩
    have hnone := hl.1
    rw [isBrowsing, (insertTextAtCursorInternal_log _ _).history] at hnone
    cases hnone

theorem withoutPasteStart_sublist (data : JsString) : withoutPasteStart data <+ data := by
  unfold withoutPasteStart
  split
  · rename_i i _
    have hdrop : data.drop (i + pasteStartSequence.length) <+ data.drop i := by
      rw [← drop_drop]
      exact drop_sublist _ _
    have hjoin := (Sublist.refl (data.take i)).append hdrop
    rwa [take_append_drop] at hjoin
  · exact Sublist.refl _

/-- The steps that may undo: the input of the undo key, also among what is pasted or follows it. -/
def PressesUndo (ed : Editor) : Action → Prop
  | .input data => h.matchesBinding .undo data = true ∨
      (ed.isInPaste = true ∨ (indexOf pasteStartSequence data).isSome = true) ∧
        ∃ key, h.matchesBinding .undo key = true ∧ key <+ ed.pasteBuffer ++ data
  | _ => False

/-- A paste that begins drops what was kept of an earlier one. -/
theorem pasteStart_turn (ed : Editor) (data : JsString) : ∃ ed',
    (if (indexOf pasteStartSequence data).isSome = true then { ed with isInPaste := true, pasteBuffer := [] }
      else ed) = ed' ∧ OneTurn ed ed' ∧ Calm ed ed' ∧
    (ed'.isInPaste = true → ed.isInPaste = true ∨ (indexOf pasteStartSequence data).isSome = true) ∧
    ed'.pasteBuffer <+ ed.pasteBuffer ∧ (ed'.isInPaste = false → withoutPasteStart data = data) := by
  refine ⟨_, rfl, ?_⟩
  split
  · rename_i hstarts
    exact ⟨oneTurn_of_document rfl rfl rfl rfl, ⟨rfl, id⟩, fun _ => .inr hstarts, nil_sublist _,
      fun hout => by cases hout⟩
  · rename_i hstarts
    refine ⟨oneTurn_refl ed, ⟨rfl, id⟩, .inl, Sublist.refl _, fun _ => ?_⟩
    rw [withoutPasteStart, Option.not_isSome_iff_eq_none.mp hstarts]

/-- An empty paste is none. -/
theorem paste_turn (ed : Editor) (text : JsString) : ∃ ed',
    (if text.length > 0 then ed.handlePaste text else ed) = ed' ∧ OneTurn ed ed' ∧ Calm ed ed' := by
  refine ⟨_, rfl, ?_⟩
  split
  · exact ⟨handlePaste_turn ed text, handlePaste_calm ed text⟩
  · exact ⟨oneTurn_refl ed, rfl, id⟩

theorem handleInputFrom_turns (calls : Nat) (ed : Editor) (data : JsString)
    (hu : ed.PressesUndo h (.input data) → undoes) :
    Turns (Allowed undoes ((handleInputFrom h calls ed data).submitted ≠ ed.submitted)
      (ed.isBrowsing ∧ ed.autocomplete.isSome = true)) ed (handleInputFrom h calls ed data) := by
  induction calls generalizing ed data with
  | zero => exact .refl
  | succ calls ih =>
    rw [handleInputFrom]
    obtain ⟨hjump, hcalm, hmode, hbuffer⟩ :
        (∀ {s c : Prop}, Turns (Allowed undoes s c) ed (ed.handleJump h data).1) ∧
        Calm ed (ed.handleJump h data).1 ∧ (ed.handleJump h data).1.isInPaste = ed.isInPaste ∧
          (ed.handleJump h data).1.pasteBuffer = ed.pasteBuffer :=
      ⟨(handleJump_turns h ed data).1, (@handleJump_turns h True True True ed data).2⟩
    generalize ed.handleJump h data = jumped at hjump hcalm hmode hbuffer ⊢
    obtain ⟨ed₁, done⟩ := jumped
    cases done with
    | true => exact hjump
    | false =>
      dsimp only at hjump hcalm hmode hbuffer ⊢
      refine hcalm.turns hjump ?_
      obtain ⟨ed₂, hstarted, hturn, hcalm₂, hpasting, hkeys, hwhole⟩ := pasteStart_turn ed₁ data
      rw [hmode] at hpasting
      rw [hbuffer] at hkeys
      rw [hstarted]
      refine hcalm₂.turns hturn.turns ?_
      split
      · rename_i hin
        split
        · rename_i endIndex _
          obtain ⟨ed₃, hpasted, hpaste, hcalmPaste⟩ :=
            paste_turn ed₂ ((ed₂.pasteBuffer ++ withoutPasteStart data).take endIndex)
          rw [hpasted]
          have hend : OneTurn ed₃ { ed₃ with isInPaste := false, pasteBuffer := [] } :=
            oneTurn_of_document rfl rfl rfl rfl
          have hcalmEnd : Calm ed₃ { ed₃ with isInPaste := false, pasteBuffer := [] } := ⟨rfl, id⟩
          refine (hcalmPaste.trans hcalmEnd).turns (hpaste.turns.trans hend.turns) ?_
          split
          · refine ih _ _ fun hpress => hu (.inr ⟨hpasting hin, ?_⟩)
            -- the rest of the input is a part of what was kept and of the input
            have hrest : (ed₂.pasteBuffer ++ withoutPasteStart data).drop (endIndex + 6) <+ ed.pasteBuffer ++ data :=
              (drop_sublist _ _).trans (hkeys.append (withoutPasteStart_sublist data))
            obtain hkey | ⟨-, key, hkey, hpart⟩ := hpress
            · exact ⟨_, hkey, hrest⟩
            · exact ⟨key, hkey, hpart.trans hrest⟩
          · exact .refl
        · exact (oneTurn_of_document rfl rfl rfl rfl : OneTurn ed₂ { ed₂ with
            pasteBuffer := ed₂.pasteBuffer ++ withoutPasteStart data }).turns
      · rename_i hout
        rw [hwhole (Bool.not_eq_true _ ▸ hout)]
        exact handleKey_turns h ed₂ data fun hkey => hu (.inl hkey)

theorem suggestionsArrived_turns {answer : Option AutocompleteSuggestions}
    (hstep : ed.suggestionsArrived answer = some ed') : Turns (Allowed undoes submits ed.isBrowsing) ed ed' := by
  have hquiet : ∀ c, OneTurn ed (ed.withCompletion c) := fun c => (oneTurn_refl ed).withCompletion c
  unfold suggestionsArrived at hstep
  split at hstep
  · cases hstep
  · dsimp only at hstep
    split at hstep
    · cases hstep
      exact (hquiet ⟨_, _, _, _⟩).turns
    · split at hstep
      · cases hstep
        exact (hquiet ⟨_, _, _, _⟩).turns
      · split at hstep
        · cases hstep
          exact (hquiet ⟨_, _, _, _⟩).turns
        · split at hstep
          · cases hstep
            exact turns_completion rfl rfl rfl id
          · cases hstep
            exact (hquiet ⟨_, _, _, _⟩).turns
        · cases hstep
          exact (hquiet ⟨_, _, _, _⟩).turns

/-- The steps that may apply a completion while a text of the history is shown: an input to the list that is shown
over it, and an answer. -/
def CompletesInHistory (ed : Editor) : Action → Prop
  | .input _ => ed.isBrowsing ∧ ed.autocomplete.isSome = true
  | .suggestions _ => ed.isBrowsing
  | _ => False

/-- **Steps are turns.** They undo only when the key for that is pressed, and submit only when `onSubmit` is called. -/
theorem step_turns {a : Action} (hstep : step h ed a = some ed') :
    Turns (Allowed (ed.PressesUndo h a) (ed'.submitted ≠ ed.submitted) (ed.CompletesInHistory a)) ed ed' := by
  cases a with
  | input data =>
    cases hstep
    exact handleInputFrom_turns h _ ed data id
  | setText text =>
    cases hstep
    exact (setText_turn ed text).turns
  | insertTextAtCursor text =>
    cases hstep
    exact (insertTextAtCursor_turn ed text).turns
  | restorePasteSnapshot pastes pasteCounter =>
    cases hstep
    refine OneTurn.turns ?_
    exact oneTurn_keep (.keep rfl rfl (fun hw => ⟨hw, rfl⟩) id)
  | addToHistory text =>
    cases hstep
    unfold addToHistory
    dsimp only
    split
    · exact .refl
    · refine OneTurn.turns ?_
      exact oneTurn_of_document rfl rfl rfl rfl
  | clearHistory =>
    cases hstep
    refine OneTurn.turns ?_
    exact oneTurn_keep (.keep rfl rfl (fun hw => ⟨hw, rfl⟩) nofun)
  | render width =>
    cases hstep
    exact (render_turn h ed width).turns
  | resize rows =>
    cases hstep
    refine OneTurn.turns ?_
    exact oneTurn_of_document rfl rfl rfl rfl
  | click row col =>
    cases hstep
    exact (placeCursorFromClick_turn h ed row col).turns
  | setAutocompleteProvider provider =>
    cases hstep
    refine OneTurn.turns ?_
    exact oneTurn_of_document rfl rfl rfl rfl
  | cancelAutocomplete =>
    cases hstep
    refine OneTurn.turns ?_
    exact oneTurn_of_document rfl rfl rfl rfl
  | startRequest i =>
    change ed.startRequest i = some ed' at hstep
    unfold startRequest at hstep
    split at hstep
    · dsimp only at hstep
      split at hstep
      · cases hstep
        refine OneTurn.turns ?_
        exact oneTurn_of_document rfl rfl rfl rfl
      · cases hstep
        refine OneTurn.turns ?_
        exact oneTurn_of_document rfl rfl rfl rfl
    · cases hstep
  | suggestions answer => exact suggestionsArrived_turns hstep
  | setDisableSubmit value =>
    cases hstep
    refine OneTurn.turns ?_
    exact oneTurn_of_document rfl rfl rfl rfl

theorem new_fresh (rows : Nat) : (new rows).Fresh := ⟨rfl, nofun, nofun⟩

/-- A turn that can be undone: one undo brings back what it changed, unless it is an undo or a submit itself. -/
def Undoable (allowed : Kind → Prop) (ed ed' : Editor) : Prop :=
  ∃ k, allowed k ∧ Turn k ed ed' ∧ (k ≠ .undo ∧ k ≠ .submit → ed'.getText ≠ ed.getText → Undoes ed ed'.undo.document)

/-- A step that does not submit. -/
def quietStep (ed : Editor) (a : Action) : Option Editor :=
  (step h ed a).filter fun ed' => ed'.submitted = ed.submitted

theorem turns_of_guardedRuns
    (hruns : Transition.GuardedRuns (step h) (fun ed a => ¬ ed.CompletesInHistory a) ed₀ ed) :
    Turns (· ≠ .takeBrowsing) ed₀ ed := by
  induction hruns with
  | refl => exact .refl
  | tail _ hlast ih =>
    obtain ⟨a, hguard, hstep⟩ := hlast
    refine ih.trans (ReflTransGen.mono ?_ _ _ (step_turns h hstep))
    rintro s s' ⟨k, hk, hturn⟩
    exact ⟨k, fun hbrowsing => hguard (hk.completes hbrowsing), hturn⟩

theorem turns_of_quiet (hruns : Transition.Runs (quietStep h) ed₀ ed) : Turns (· ≠ .submit) ed₀ ed := by
  induction hruns with
  | refl => exact .refl
  | tail _ hlast ih =>
    obtain ⟨a, hlast⟩ := hlast
    obtain ⟨hstep, hquiet⟩ := Option.filter_eq_some_iff.mp hlast
    refine ih.trans (ReflTransGen.mono ?_ _ _ (step_turns h hstep))
    rintro s s' ⟨k, hk, hturn⟩
    exact ⟨k, fun hsubmit => hk.submits hsubmit (of_decide_eq_true hquiet), hturn⟩

/-- Turns that go on after turns from a fresh editor are undoable, one by one. -/
theorem Turns.undoable {allowed : Kind → Prop} (hallowed : ∀ k, allowed k → k ≠ .takeBrowsing) (hfresh : ed₀.Fresh)
    (hbefore : Turns (· ≠ .takeBrowsing) ed₀ ed) (hturns : Turns allowed ed ed') :
    ReflTransGen (Undoable allowed) ed ed' := by
  have hgo : ∀ {s}, Turns allowed ed s → Turns (· ≠ .takeBrowsing) ed s :=
    fun hs => ReflTransGen.mono (fun _ _ ⟨k, hk, hturn⟩ => ⟨k, hallowed k hk, hturn⟩) _ _ hs
  induction hturns with
  | refl => exact .refl
  | tail hturns hlast ih =>
    obtain ⟨k, hk, hturn⟩ := hlast
    have hs := Turns.started hfresh (hbefore.trans (hgo hturns))
    exact ih.tail ⟨k, hk, hturn, undo_of_change hs hturn⟩

/-- **Undo is exact**, from an editor that is new or was just submitted. Steps are turns, which undo and submit only
when that is asked for; an undo restores the last snapshot that is not undone; what changes the text can be undone,
unless it is an undo or a submit or follows a completion in the history; and undoing again and again without a submit
ends at the text of the start. -/
theorem undo_exact (ed₀ : Editor) (hfresh : ed₀.Fresh) :
    (∀ ed ed' a, step h ed a = some ed' →
      Turns (Allowed (ed.PressesUndo h a) (ed'.submitted ≠ ed.submitted) (ed.CompletesInHistory a)) ed ed') ∧
    (∀ m m' ed : Editor, m'.undoStack = m.document :: m.undoStack →
      ReflTransGen (fun s s' => (∃ k, Turn k s s') ∧ m'.undoStack.length ≤ s'.undoStack.length) m' ed →
      ed.undoStack.length = m'.undoStack.length →
      ed.undo.document = m.document ∧ ed.undo.undoStack = m.undoStack) ∧
    (∀ ed ed' a, Transition.GuardedRuns (step h) (fun ed a => ¬ ed.CompletesInHistory a) ed₀ ed →
      ¬ ed.CompletesInHistory a → step h ed a = some ed' →
      ReflTransGen (Undoable (Allowed (ed.PressesUndo h a) (ed'.submitted ≠ ed.submitted) False)) ed ed') ∧
    (∀ ed, Transition.Runs (quietStep h) ed₀ ed → (undo^[ed.undoStack.length] ed).undoStack = [] ∧
        (undo^[ed.undoStack.length] ed).getText = ed₀.getText) := by
  refine ⟨fun ed ed' a hstep => step_turns h hstep,
    fun m m' ed htake hrun hlen => undo_restores htake hrun hlen, ?_, ?_⟩
  · intro ed ed' a hruns hguard hstep
    have hturns := step_turns h hstep
    rw [eq_false hguard] at hturns
    exact Turns.undoable (fun k hk hbrowsing => hk.completes hbrowsing) hfresh (turns_of_guardedRuns h hruns) hturns
  · intro ed hruns
    obtain ⟨hnil, htext⟩ := undo_to_origin ed
    obtain ⟨-, horigin⟩ := Turns.backed hfresh (turns_of_quiet h hruns)
    exact ⟨hnil, htext.trans horigin⟩

/-- Two words are typed, and two undos end at the empty prompt. -/
theorem undo_exact_typed :
    ∃ ed, Transition.Runs (quietStep Host.plain) (new 24) ed ∧ ed.getText = ofAscii "a b" ∧
      ed.undoStack.length = 2 ∧ (undo^[2] ed).getText = [] := by
  have hrun : ((Transition.steps (quietStep Host.plain)
      [.input (ofAscii "a"), .input (ofAscii " "), .input (ofAscii "b")] (new 24)).any fun ed =>
        ed.getText = ofAscii "a b" ∧ ed.undoStack.length = 2) = true := by
    decide
  obtain ⟨ed, hruns, htest⟩ := Transition.exists_run hrun
  obtain ⟨htext, hlen⟩ := of_decide_eq_true htest
  obtain ⟨-, -, -, hends⟩ := undo_exact Host.plain (new 24) (new_fresh 24)
  have hempty := (hends ed hruns).2
  rw [hlen] at hempty
  exact ⟨ed, hruns, htext, hlen, hempty⟩

/-- A provider that completes to `item`. -/
def completesTo (item : JsString) : AutocompleteProvider where
  applyCompletion := fun _ _ _ _ _ => ⟨[item], 0, item.length⟩
  shouldTriggerFileCompletion := fun _ _ _ => true

/-- A submit changes the text to nothing, and no undo brings it back. And a text that is completed while an entry of
the history is shown is lost by the next move in the history: the undo brings back the entry. -/
theorem undo_inexact :
    ((Transition.steps (step Host.plain) [.input (ofAscii "a"), .input [0x0d]] (new 24)).any fun ed =>
      ed.getText = [] ∧ ed.undo.getText = []) = true ∧
    ((Transition.steps (step Host.plain)
      [.addToHistory (ofAscii "a"), .setAutocompleteProvider (completesTo (ofAscii "abc")), .input (ofAscii "\x1b[A"),
        .input [9], .startRequest 0,
        .suggestions (some ⟨[⟨ofAscii "abc", ofAscii "abc"⟩], ofAscii "a", some .file⟩)] (new 24)).any fun ed =>
      ed.getText = ofAscii "abc" ∧ (ed.handleInput Host.plain (ofAscii "\x1b[B")).getText = [] ∧
        (ed.handleInput Host.plain (ofAscii "\x1b[B")).undo.getText = ofAscii "a") = true := by
  exact ⟨by decide, by decide⟩

end Editor
end Tui
end RePrime
