import Mathlib.Data.List.Rotate
import RePrime.Tui.CompletionRuns

/-!
# RePrime.Tui.KillYank

Kill commands, yanks and yank-pops. A run of kill commands is one entry of the kill ring, and a yank puts it back.

* `EditorState.around`: a state whose line is cut at the cursor. `textBefore`, `textAfter`: the text on both sides.
* `KillCommand`, `runKills`: the commands and their runs. `Kills`: what one of them does. `Clears`: none is given in the
  hidden start of a line.
* `Killed`: what a run has taken out, with the ring. `runKills_killed`: every run does so.
* `PutIn`, `Yanked`: a text at the cursor, and the ring it is from. `Yanked.pops`: it stays so over pops.
* `kill_yank`: a run of kills and a yank give the text back; pops go round the ring.
-/

namespace RePrime
namespace Tui

open JsText List

/-! ### A state around its cursor -/

/-- The state with a line that is cut at the cursor, and the lines before and after it. -/
def EditorState.around (front : List JsString) (before after : JsString) (back : List JsString) : EditorState :=
  ⟨front ++ (before ++ after) :: back, front.length, before.length⟩

/-- The text before the cursor. -/
def EditorState.textBefore (st : EditorState) : JsString :=
  Lines.join newline (st.lines.take st.cursorLine ++ [sliceTo (st.lines.getD st.cursorLine []) st.cursorCol])

/-- The text after the cursor. -/
def EditorState.textAfter (st : EditorState) : JsString :=
  Lines.join newline (sliceFrom (st.lines.getD st.cursorLine []) st.cursorCol :: st.lines.drop (st.cursorLine + 1))

theorem sliceTo_append (a b : JsString) : sliceTo (a ++ b) a.length = a := by
  rw [sliceTo, sliceOffset, if_neg (by omega), Int.toNat_natCast, take_left]

theorem sliceFrom_append (a b : JsString) : sliceFrom (a ++ b) a.length = b := by
  rw [sliceFrom, sliceOffset, if_neg (by omega), Int.toNat_natCast, drop_left]

theorem split_single {s : JsString} (h : (Lines.split newline s).length = 1) : newline ∉ s := by
  rw [Lines.length_split] at h
  exact count_eq_zero.mp (by omega)

theorem split_parts {text : JsString} (h : (Lines.split newline text).length ≠ 1) :
    ∃ first middle last, Lines.split newline text = first :: (middle ++ [last]) := by
  obtain ⟨first, rest, hparts⟩ := exists_cons_of_ne_nil (@Lines.split_ne_nil _ _ newline text)
  rw [hparts] at h ⊢
  rcases eq_nil_or_concat' rest with rfl | ⟨middle, last, rfl⟩
  · exact absurd rfl h
  · exact ⟨first, middle, last, rfl⟩

theorem getD_middle (front : List JsString) (line : JsString) (back : List JsString) :
    (front ++ line :: back).getD front.length [] = line := by
  rw [getD_eq_getElem?_getD, getElem?_append_right le_rfl, Nat.sub_self, getElem?_cons_zero, Option.getD_some]

theorem drop_middle (front : List JsString) (line : JsString) (back : List JsString) :
    (front ++ line :: back).drop (front.length + 1) = back := by
  rw [drop_append, drop_of_length_le (Nat.le_succ _), Nat.add_sub_cancel_left]
  rfl

section
variable (front : List JsString) (before after : JsString) (back : List JsString)

theorem around_inside : (EditorState.around front before after back).CursorInside := by
  refine ⟨?_, Int.natCast_nonneg _, ?_⟩
  · change front.length < (front ++ (before ++ after) :: back).length
    rw [length_append, length_cons]
    omega
  · change (before.length : Int) ≤ ((front ++ (before ++ after) :: back).getD front.length []).length
    rw [getD_middle, length_append]
    omega

theorem textBefore_around :
    (EditorState.around front before after back).textBefore = Lines.join newline (front ++ [before]) := by
  change Lines.join newline ((front ++ (before ++ after) :: back).take front.length ++
    [sliceTo ((front ++ (before ++ after) :: back).getD front.length []) before.length]) = _
  rw [take_left, getD_middle, sliceTo_append]

theorem textAfter_around :
    (EditorState.around front before after back).textAfter = Lines.join newline (after :: back) := by
  change Lines.join newline (sliceFrom ((front ++ (before ++ after) :: back).getD front.length []) before.length ::
    (front ++ (before ++ after) :: back).drop (front.length + 1)) = _
  rw [drop_middle, getD_middle, sliceFrom_append]

end

theorem EditorState.CursorInside.around {st : EditorState} (h : st.CursorInside) :
    ∃ front before after back, st = .around front before after back := by
  obtain ⟨lines, i, col⟩ := st
  obtain ⟨hline, hcol, hle⟩ := h
  obtain ⟨n, rfl⟩ := Int.eq_ofNat_of_zero_le hcol
  change i < lines.length at hline
  change (n : Int) ≤ (lines.getD i []).length at hle
  rw [getD_eq_getElem?_getD, getElem?_eq_getElem hline, Option.getD_some] at hle
  refine ⟨lines.take i, lines[i].take n, lines[i].drop n, lines.drop (i + 1), ?_⟩
  have hlines : lines.take i ++ (lines[i].take n ++ lines[i].drop n) :: lines.drop (i + 1) = lines := by
    rw [take_append_drop, ← drop_eq_getElem_cons hline, take_append_drop]
  have hi : (lines.take i).length = i := by
    rw [length_take]
    exact min_eq_left hline.le
  have hn : (lines[i].take n).length = n := by
    rw [length_take]
    exact min_eq_left (Int.ofNat_le.mp hle)
  rw [EditorState.around, hlines, hi, hn]

namespace Editor

section
variable {ed : Editor} {front : List JsString} {before after : JsString} {back : List JsString}
  (hst : ed.state = .around front before after back)

include hst

theorem cursorLine_around : ed.state.cursorLine = front.length := by rw [hst]; rfl

theorem cursorCol_around : ed.state.cursorCol = before.length := by rw [hst]; rfl

theorem lines_around : ed.state.lines = front ++ (before ++ after) :: back := by rw [hst]; rfl

theorem currentLine_around : ed.currentLine = before ++ after := by
  rw [currentLine, lineAt, lines_around hst, cursorLine_around hst, getD_middle]

theorem textBeforeCursor_around : ed.textBeforeCursor = before := by
  rw [textBeforeCursor, currentLine_around hst, cursorCol_around hst, sliceTo_append]

theorem textAfterCursor_around : ed.textAfterCursor = after := by
  rw [textAfterCursor, currentLine_around hst, cursorCol_around hst, sliceFrom_append]

theorem getText_around : ed.getText = Lines.join newline (front ++ [before]) ++ Lines.join newline (after :: back) := by
  rw [getText, lines_around hst, Lines.join_middle]

end

theorem getText_eq {ed : Editor} (hinside : ed.state.CursorInside) :
    ed.getText = ed.state.textBefore ++ ed.state.textAfter := by
  obtain ⟨front, before, after, back, hst⟩ := hinside.around
  rw [getText_around hst, hst, textBefore_around, textAfter_around]

theorem putLine_middle (front : List JsString) (line : JsString) (back : List JsString) (line' : JsString) :
    putLine (front ++ line :: back) front.length line' = front ++ line' :: back := by
  have hlt : front.length < (front ++ line :: back).length := by
    rw [length_append, length_cons]
    omega
  rw [putLine, if_pos hlt, set_append_right _ _ le_rfl, Nat.sub_self, set_cons_zero]

theorem splice_after (front : List JsString) (line : JsString) (back items : List JsString) (n : Nat) :
    splice (front ++ line :: back) (front.length + 1) n items = front ++ line :: (items ++ back.drop n) := by
  have htake : (front ++ line :: back).take (front.length + 1) = front ++ [line] := by
    rw [take_append, take_of_length_le (Nat.le_succ _), Nat.add_sub_cancel_left, take_one, head?_cons]
    rfl
  rw [splice, htake, ← drop_drop, drop_middle]
  simp only [append_assoc, cons_append, nil_append]

/-! ### Kill commands -/

inductive KillCommand where
  | toLineStart | toLineEnd | wordBackward | wordForward
deriving DecidableEq

variable (h : Host)

def KillCommand.run (ed : Editor) : KillCommand → Editor
  | .toLineStart => ed.deleteToStartOfLine h
  | .toLineEnd => ed.deleteToEndOfLine
  | .wordBackward => ed.deleteWordBackwards h
  | .wordForward => ed.deleteWordForward h

/-- The commands one after the other. -/
def runKills : List KillCommand → Editor → Editor
  | [], ed => ed
  | command :: commands, ed => runKills commands (command.run h ed)

/-- A kill backward is not made from inside the hidden start of a line, or from its end, unless there is no line
before it to go to. -/
def KillCommand.Clear (ed : Editor) : KillCommand → Prop
  | .toLineStart => ed.lineStartCol h < ed.state.cursorCol ∨ ed.state.cursorCol = 0 ∨ ed.state.cursorLine = 0
  | .wordBackward => ed.lineStartCol h < ed.state.cursorCol ∨ ed.state.cursorCol = 0
  | .toLineEnd | .wordForward => True

/-- Every command of the run is clear where it is given. -/
def Clears : List KillCommand → Editor → Prop
  | [], _ => True
  | command :: commands, ed => command.Clear h ed ∧ Clears commands (command.run h ed)

/-- What a kill command does: nothing, or it takes some text out before the cursor or after it. -/
inductive Kills (ed ed' : Editor) : Prop
  | nothing (state : ed'.state = ed.state) (ring : ed'.killRing = ed.killRing) (action : ed'.lastAction = ed.lastAction)
  | backward {killed : JsString} (hne : killed ≠ []) (inside : ed'.state.CursorInside)
      (textBefore : ed.state.textBefore = ed'.state.textBefore ++ killed)
      (textAfter : ed.state.textAfter = ed'.state.textAfter)
      (ring : ed'.killRing = pushKill ed.killRing killed true ed.wasKill) (action : ed'.lastAction = some .kill)
  | forward {killed : JsString} (hne : killed ≠ []) (inside : ed'.state.CursorInside)
      (textBefore : ed.state.textBefore = ed'.state.textBefore)
      (textAfter : ed.state.textAfter = killed ++ ed'.state.textAfter)
      (ring : ed'.killRing = pushKill ed.killRing killed false ed.wasKill) (action : ed'.lastAction = some .kill)

section
variable {ed ed' : Editor} {front : List JsString} {before after : JsString} {back : List JsString}

theorem Kills.refresh (hkills : Kills ed ed') (retrigger : Bool) :
    Kills ed (ed'.refreshAutocompleteAfterEdit retrigger) := by
  obtain ⟨c, hc⟩ := ed'.refreshAutocompleteAfterEdit_eq retrigger
  rw [hc]
  cases hkills with
  | nothing state ring action => exact .nothing state ring action
  | backward hne inside textBefore textAfter ring action => exact .backward hne inside textBefore textAfter ring action
  | forward hne inside textBefore textAfter ring action => exact .forward hne inside textBefore textAfter ring action

theorem Kills.inside (hinside : ed.state.CursorInside) (hkills : Kills ed ed') : ed'.state.CursorInside := by
  cases hkills with
  | nothing state => exact state ▸ hinside
  | backward _ inside => exact inside
  | forward _ inside => exact inside

theorem kills_before {killed : JsString} (hst : ed.state = .around front (before ++ killed) after back)
    (hst' : ed'.state = .around front before after back) (hne : killed ≠ [])
    (ring : ed'.killRing = pushKill ed.killRing killed true ed.wasKill) (action : ed'.lastAction = some .kill) :
    Kills ed ed' := by
  refine .backward hne (hst' ▸ around_inside _ _ _ _) ?_ ?_ ring action
  · rw [hst, hst', textBefore_around, textBefore_around, Lines.join_concat, Lines.join_concat, append_assoc]
  · rw [hst, hst', textAfter_around, textAfter_around]

theorem kills_after {killed : JsString} (hst : ed.state = .around front before (killed ++ after) back)
    (hst' : ed'.state = .around front before after back) (hne : killed ≠ [])
    (ring : ed'.killRing = pushKill ed.killRing killed false ed.wasKill) (action : ed'.lastAction = some .kill) :
    Kills ed ed' := by
  refine .forward hne (hst' ▸ around_inside _ _ _ _) ?_ ?_ ring action
  · rw [hst, hst', textBefore_around, textBefore_around]
  · rw [hst, hst', textAfter_around, textAfter_around]
    have hmiddle := @Lines.join_middle _ newline [] back killed after
    rwa [nil_append, nil_append, Lines.join_singleton] at hmiddle

variable {line : JsString}

theorem joinWithPrevious_around (hst : ed.state = .around (front ++ [line]) [] after back) :
    ed.joinWithPrevious.state = .around front line after back := by
  have hi : (front ++ [line]).length - 1 = front.length := by rw [length_append, length_singleton]; rfl
  have hlines : ed.state.lines = front ++ line :: after :: back := by
    rw [lines_around hst, append_assoc]
    rfl
  have hprevious : ed.lineAt (ed.state.cursorLine - 1) = line := by
    rw [lineAt, hlines, cursorLine_around hst, hi, getD_middle]
  have hput : putLine ed.state.lines (ed.state.cursorLine - 1) (line ++ ed.currentLine)
      = front ++ (line ++ after) :: after :: back := by
    rw [hlines, cursorLine_around hst, hi, putLine_middle, currentLine_around hst, nil_append]
  change EditorState.mk (splice (putLine ed.state.lines (ed.state.cursorLine - 1)
    (ed.lineAt (ed.state.cursorLine - 1) ++ ed.currentLine)) ed.state.cursorLine 1 []) (ed.state.cursorLine - 1)
    (ed.lineAt (ed.state.cursorLine - 1)).length = _
  rw [hprevious, hput, cursorLine_around hst, hi, length_append, length_singleton, splice_after]
  rfl

theorem joinWithNext_around (hst : ed.state = .around front before [] (line :: back)) :
    ed.joinWithNext.state = .around front before line back := by
  have hnext : ed.lineAt (ed.state.cursorLine + 1) = line := by
    rw [lineAt, lines_around hst, cursorLine_around hst, append_cons]
    have hi : front.length + 1 = (front ++ [before ++ []]).length := by rw [length_append, length_singleton]
    rw [hi, getD_middle]
  change EditorState.mk (splice (putLine ed.state.lines ed.state.cursorLine
    (ed.currentLine ++ ed.lineAt (ed.state.cursorLine + 1))) (ed.state.cursorLine + 1) 1 []) ed.state.cursorLine
    ed.state.cursorCol = _
  rw [hnext, lines_around hst, cursorLine_around hst, putLine_middle, splice_after, currentLine_around hst,
    cursorCol_around hst, append_nil]
  rfl

theorem kills_previous (hst : ed.state = .around (front ++ [line]) [] after back)
    (hst' : ed'.state = .around front line after back)
    (ring : ed'.killRing = pushKill ed.killRing [newline] true ed.wasKill) (action : ed'.lastAction = some .kill) :
    Kills ed ed' := by
  refine .backward (cons_ne_nil newline []) (hst' ▸ around_inside _ _ _ _) ?_ ?_ ring action
  · rw [hst, hst', textBefore_around, textBefore_around, Lines.join_append (by simp) (by simp), Lines.join_singleton]
  · rw [hst, hst', textAfter_around, textAfter_around]

theorem kills_next (hst : ed.state = .around front before [] (line :: back))
    (hst' : ed'.state = .around front before line back)
    (ring : ed'.killRing = pushKill ed.killRing [newline] false ed.wasKill) (action : ed'.lastAction = some .kill) :
    Kills ed ed' := by
  refine .forward (cons_ne_nil newline []) (hst' ▸ around_inside _ _ _ _) ?_ ?_ ring action
  · rw [hst, hst', textBefore_around, textBefore_around]
  · rw [hst, hst', textAfter_around, textAfter_around, Lines.join_cons _ (by simp), nil_append, singleton_append]

theorem setLine_around {before' after' : JsString} {col : Int} (hst : ed.state = .around front before after back)
    (hline : line = before' ++ after') (hcol : col = before'.length) :
    ((ed.setLine ed.state.cursorLine line).setCursorCol col).state = .around front before' after' back := by
  change EditorState.mk (putLine ed.state.lines ed.state.cursorLine line) ed.state.cursorLine col = _
  rw [lines_around hst, cursorLine_around hst, putLine_middle, hline, hcol]
  rfl

variable {col : Nat}

theorem kills_from (hst : ed.state = .around front before after back) (hcol : col < before.length)
    (hst' : ed'.state = .around front (before.take col) after back)
    (ring : ed'.killRing = pushKill ed.killRing (before.drop col) true ed.wasKill)
    (action : ed'.lastAction = some .kill) :
    Kills ed ed' := by
  have hne : before.drop col ≠ [] := by
    rw [Ne, drop_eq_nil_iff]
    omega
  rw [← take_append_drop col before] at hst
  exact kills_before hst hst' hne ring action

theorem kills_to {n : Nat} (hst : ed.state = .around front before after back) (hn : 0 < n) (hafter : after ≠ [])
    (hst' : ed'.state = .around front before (after.drop n) back)
    (ring : ed'.killRing = pushKill ed.killRing (after.take n) false ed.wasKill)
    (action : ed'.lastAction = some .kill) :
    Kills ed ed' := by
  have hne : after.take n ≠ [] := by
    rw [Ne, take_eq_nil_iff]
    exact not_or.mpr ⟨Nat.ne_of_gt hn, hafter⟩
  rw [← take_append_drop n after] at hst
  exact kills_after hst hst' hne ring action

theorem sliceOffset_nat (n col : Nat) : sliceOffset n (col : Int) = col := by
  rw [sliceOffset, if_neg (by omega), Int.toNat_natCast]

theorem slice_before : slice (before ++ after) col before.length = before.drop col := by
  rw [slice, sliceTo_append, sliceOffset_nat, sliceFrom, sliceOffset_nat]

theorem sliceTo_before (hcol : col ≤ before.length) : sliceTo (before ++ after) col = before.take col := by
  rw [sliceTo, sliceOffset_nat, take_append_of_le_length hcol]

theorem slice_after (n : Nat) : slice (before ++ after) before.length (before.length + n) = after.take n := by
  rw [slice, sliceOffset_nat, sliceFrom, sliceOffset_nat, sliceTo, ← Int.natCast_add, sliceOffset_nat,
    take_length_add_append, drop_left]

theorem sliceFrom_after (n : Nat) : sliceFrom (before ++ after) (before.length + n) = after.drop n := by
  rw [sliceFrom, ← Int.natCast_add, sliceOffset_nat, drop_length_add_append]

variable (hst : ed.state = .around front before after back)

include hst

theorem setLineAfter_around {after' : JsString} (hline : line = before ++ after') :
    (ed.setLine ed.state.cursorLine line).state = .around front before after' back := by
  change EditorState.mk (putLine ed.state.lines ed.state.cursorLine line) ed.state.cursorLine ed.state.cursorCol = _
  rw [lines_around hst, cursorLine_around hst, cursorCol_around hst, putLine_middle, hline]
  rfl

/-- At the start of a line there is no text before the cursor, and a line before it if it is not the first. -/
theorem at_lineStart (hzero : ed.state.cursorCol = 0)
    (hpos : 0 < ed.state.cursorLine) : ∃ front line, ed.state = .around (front ++ [line]) [] after back := by
  rw [cursorCol_around hst] at hzero
  rw [cursorLine_around hst] at hpos
  rw [length_eq_zero_iff.mp (Int.ofNat_eq_zero.mp hzero)] at hst
  obtain rfl | ⟨front, line, rfl⟩ := eq_nil_or_concat' front
  · exact absurd hpos (Nat.lt_irrefl 0)
  · exact ⟨front, line, hst⟩

/-- At the end of a line there is no text after the cursor, and a line after it if it is not the last. -/
theorem at_lineEnd (hend : ¬ed.state.cursorCol < ed.currentLine.length) (hlast : ¬ed.isLastLine = true) :
    ∃ line back, ed.state = .around front before [] (line :: back) := by
  rw [cursorCol_around hst, currentLine_around hst, length_append] at hend
  have hafter : after = [] := length_eq_zero_iff.mp (by omega)
  rw [hafter] at hst
  cases back with
  | nil =>
    refine absurd ?_ hlast
    rw [isLastLine, lines_around hst, cursorLine_around hst, length_append]
    simp
  | cons line back => exact ⟨line, back, hst⟩

theorem after_ne_nil (hlt : ed.state.cursorCol < ed.currentLine.length) : after ≠ [] := by
  rintro rfl
  rw [cursorCol_around hst, currentLine_around hst, append_nil] at hlt
  exact absurd hlt (Int.lt_irrefl _)

omit hst

theorem deleteToStartOfLine_kills (hinside : ed.state.CursorInside) (hclear : KillCommand.toLineStart.Clear h ed) :
    Kills ed (ed.deleteToStartOfLine h) := by
  obtain ⟨front, before, after, back, hst⟩ := hinside.around
  have hline := currentLine_around hst
  have hcol := cursorCol_around hst
  unfold deleteToStartOfLine
  refine Kills.refresh ?_ false
  dsimp only
  split
  · rename_i hgt
    have hlt : ed.lineStartCol h < before.length := by
      rw [hcol] at hgt
      exact Int.ofNat_lt.mp hgt
    refine kills_from hst hlt ?_ ?_ rfl
    · refine setLine_around hst ?_ ?_
      · change sliceTo ed.currentLine (ed.lineStartCol h) ++ ed.textAfterCursor = _
        rw [hline, sliceTo_before hlt.le, textAfterCursor_around hst]
      · change ((ed.lineStartCol h : Nat) : Int) = _
        rw [length_take, min_eq_left hlt.le]
    · change pushKill ed.killRing (ed.visibleBeforeCursor h) true ed.wasKill = _
      rw [visibleBeforeCursor, hline, hcol, slice_before]
  · rename_i hle
    split
    · rename_i hpos
      have hzero : ed.state.cursorCol = 0 := by
        rcases hclear with hlt | hzero | htop
        · exact absurd hlt hle
        · exact hzero
        · exact absurd htop (Nat.ne_of_gt hpos)
      obtain ⟨front, line, hst⟩ := at_lineStart hst hzero hpos
      refine kills_previous hst (joinWithPrevious_around ?_) ?_ ?_
      · exact hst
      · rfl
      · rfl
    · exact .nothing rfl rfl rfl

theorem deleteToEndOfLine_kills (hinside : ed.state.CursorInside) : Kills ed ed.deleteToEndOfLine := by
  obtain ⟨front, before, after, back, hst⟩ := hinside.around
  unfold deleteToEndOfLine
  refine Kills.refresh ?_ false
  dsimp only
  split
  · rename_i hlt
    have hne := after_ne_nil hst hlt
    refine kills_to hst (length_pos_of_ne_nil hne) hne ?_ ?_ rfl
    · refine setLineAfter_around hst ?_
      rw [drop_length, append_nil]
      exact textBeforeCursor_around hst
    · rw [take_length, ← textAfterCursor_around hst]
      rfl
  · rename_i hend
    split
    · exact .nothing rfl rfl rfl
    · rename_i hlast
      obtain ⟨line, back, hst⟩ := at_lineEnd hst hend hlast
      refine kills_next hst (joinWithNext_around ?_) ?_ ?_
      · exact hst
      · rfl
      · rfl

theorem wordLength_pos {segs : List Seg} (hne : segs ≠ []) (hpos : ∀ seg ∈ segs, 0 < seg.segment.length) :
    0 < wordLength segs := by
  obtain ⟨seg, segs, rfl⟩ := exists_cons_of_ne_nil hne
  have hseg := hpos seg mem_cons_self
  have hfirst : ∀ tail : List Seg, 0 < ((seg :: tail).map (·.segment.length)).sum := by
    intro tail
    rw [map_cons, sum_cons]
    omega
  unfold wordLength
  dsimp only
  generalize hp : (fun s : Seg => !isAtomicMarker s.segment && isWhitespaceChar s.segment) = isSpaceSeg
  have hvalue : isSpaceSeg seg = (!isAtomicMarker seg.segment && isWhitespaceChar seg.segment) := by rw [← hp]
  by_cases hspace : isSpaceSeg seg = true
  · rw [takeWhile_cons_of_pos hspace, cons_append]
    exact hfirst _
  · rw [takeWhile_cons_of_neg hspace, dropWhile_cons_of_neg hspace, nil_append]
    dsimp only
    split_ifs with hatomic hpunctuation
    · exact hfirst _
    · rw [takeWhile_cons_of_pos (by simp [hatomic, hpunctuation])]
      exact hfirst _
    · have hword : isWhitespaceChar seg.segment = false := by simpa [hvalue, hatomic] using hspace
      rw [takeWhile_cons_of_pos (by simp [hatomic, hpunctuation, hword])]
      exact hfirst _

theorem moveWordBackwards_inside (hst : ed.state = .around front before after back)
    (hgt : ed.lineStartCol h < before.length) :
    ∃ col : Nat, col < before.length ∧ ∀ ed₁ : Editor, ed₁.state = ed.state → ed₁.pastes = ed.pastes →
      ed₁.moveWordBackwards h = ({ ed₁ with lastAction := none } : Editor).setCursorCol col := by
  have hcol := cursorCol_around hst
  have hvisible : ed.visibleBeforeCursor h = before.drop (ed.lineStartCol h) := by
    rw [visibleBeforeCursor, currentLine_around hst, hcol, slice_before]
  have hword : 0 < wordLength (ed.segment h (ed.visibleBeforeCursor h)).reverse := by
    refine wordLength_pos ?_ fun seg hseg => segmentWithMarkers_pos _ _ _ seg (mem_reverse.mp hseg)
    rw [Ne, reverse_eq_nil_iff, hvisible]
    refine segmentWithMarkers_ne_nil _ ?_ _
    rw [Ne, drop_eq_nil_iff]
    omega
  generalize hn : wordLength (ed.segment h (ed.visibleBeforeCursor h)).reverse = n at hword
  refine ⟨max (ed.lineStartCol h) (before.length - n), by omega, fun ed₁ hstate hpastes => ?_⟩
  have hstart : ed₁.lineStartCol h = ed.lineStartCol h := by
    rw [lineStartCol, lineStartCol, currentLine, currentLine, lineAt, lineAt, hstate]
  have hlength : wordLength (ed₁.segment h (ed₁.visibleBeforeCursor h)).reverse = n := by
    rw [← hn, segment, segment, hpastes, visibleBeforeCursor, visibleBeforeCursor, hstart, currentLine, currentLine,
      lineAt, lineAt, hstate]
  unfold moveWordBackwards
  dsimp only
  rw [if_neg ?_]
  · change setCursorCol _ (max (ed₁.lineStartCol h : Int)
      (ed₁.state.cursorCol - wordLength (ed₁.segment h (ed₁.visibleBeforeCursor h)).reverse)) = _
    rw [hlength, hstart, hstate, hcol]
    congr 1
    omega
  · change ¬ed₁.state.cursorCol ≤ (ed₁.lineStartCol h : Int)
    rw [hstart, hstate, hcol]
    omega

theorem deleteWordBackwards_kills (hinside : ed.state.CursorInside) (hclear : KillCommand.wordBackward.Clear h ed) :
    Kills ed (ed.deleteWordBackwards h) := by
  obtain ⟨front, before, after, back, hst⟩ := hinside.around
  have hline := currentLine_around hst
  have hcol := cursorCol_around hst
  unfold deleteWordBackwards
  refine Kills.refresh ?_ false
  dsimp only
  split
  · rename_i hzero
    split
    · rename_i hpos
      obtain ⟨front, line, hst⟩ := at_lineStart hst hzero hpos
      refine kills_previous hst (joinWithPrevious_around ?_) ?_ ?_
      · exact hst
      · rfl
      · rfl
    · exact .nothing rfl rfl rfl
  · rename_i hzero
    have hgt : (ed.lineStartCol h : Int) < ed.state.cursorCol := hclear.resolve_right hzero
    obtain ⟨col, hlt, hmove⟩ := moveWordBackwards_inside h hst (by omega)
    rw [hmove ({ ed with historyIndex := none } : Editor).pushUndoSnapshot rfl rfl]
    refine kills_from hst hlt ?_ ?_ rfl
    · refine setLine_around hst ?_ ?_
      · change sliceTo ed.currentLine col ++ sliceFrom ed.currentLine ed.state.cursorCol = _
        rw [hline, hcol, sliceTo_before hlt.le, sliceFrom_append]
      · change (col : Int) = _
        rw [length_take, min_eq_left hlt.le]
    · change pushKill ed.killRing (slice ed.currentLine col ed.state.cursorCol) true ed.wasKill = _
      rw [hline, hcol, slice_before]

theorem moveWordForwards_inside (hst : ed.state = .around front before after back) (hne : after ≠ []) :
    ∃ n : Nat, 0 < n ∧ ∀ ed₁ : Editor, ed₁.state = ed.state → ed₁.pastes = ed.pastes →
      ed₁.moveWordForwards h = ({ ed₁ with lastAction := none } : Editor).setCursorCol (before.length + n) := by
  have hword : 0 < wordLength (ed.segment h ed.textAfterCursor) := by
    refine wordLength_pos (segmentWithMarkers_ne_nil _ ?_ _) (segmentWithMarkers_pos _ _ _)
    rwa [textAfterCursor_around hst]
  refine ⟨_, hword, fun ed₁ hstate hpastes => ?_⟩
  have hst₁ := hstate.trans hst
  unfold moveWordForwards
  dsimp only
  rw [if_neg ?_]
  · change setCursorCol _ (ed₁.state.cursorCol + wordLength (ed₁.segment h ed₁.textAfterCursor)) = _
    rw [segment, segment, hpastes, textAfterCursor_around hst₁, textAfterCursor_around hst, cursorCol_around hst₁]
  · change ¬ed₁.state.cursorCol ≥ (ed₁.currentLine.length : Int)
    have := length_pos_of_ne_nil hne
    rw [cursorCol_around hst₁, currentLine_around hst₁, length_append]
    omega

theorem deleteWordForward_kills (hinside : ed.state.CursorInside) : Kills ed (ed.deleteWordForward h) := by
  obtain ⟨front, before, after, back, hst⟩ := hinside.around
  have hline := currentLine_around hst
  have hcol := cursorCol_around hst
  unfold deleteWordForward
  refine Kills.refresh ?_ false
  dsimp only
  split
  · rename_i hge
    split
    · exact .nothing rfl rfl rfl
    · rename_i hlast
      obtain ⟨line, back, hst⟩ := at_lineEnd hst (Int.not_lt.mpr hge) hlast
      refine kills_next hst (joinWithNext_around ?_) ?_ ?_
      · exact hst
      · rfl
      · rfl
  · rename_i hlt
    have hne := after_ne_nil hst (Int.not_le.mp hlt)
    obtain ⟨n, hn, hmove⟩ := moveWordForwards_inside h hst hne
    rw [hmove ({ ed with historyIndex := none } : Editor).pushUndoSnapshot rfl rfl]
    refine kills_to hst hn hne ?_ ?_ rfl
    · refine setLineAfter_around hst ?_
      change sliceTo ed.currentLine ed.state.cursorCol ++ sliceFrom ed.currentLine (before.length + n) = _
      rw [hline, hcol, sliceTo_append, sliceFrom_after]
    · change pushKill ed.killRing (slice ed.currentLine ed.state.cursorCol (before.length + n)) false ed.wasKill = _
      rw [hline, hcol, slice_after]

theorem KillCommand.run_kills (hinside : ed.state.CursorInside) (command : KillCommand) (hclear : command.Clear h ed) :
    Kills ed (command.run h ed) := by
  cases command with
  | toLineStart => exact deleteToStartOfLine_kills h hinside hclear
  | toLineEnd => exact deleteToEndOfLine_kills hinside
  | wordBackward => exact deleteWordBackwards_kills h hinside hclear
  | wordForward => exact deleteWordForward_kills h hinside

end

/-! ### Runs of kill commands -/

/-- A run of kill commands has taken `before` out before the cursor and `after` after it. They are one entry of the
kill ring, or none if both are empty. -/
structure Killed (ed₀ ed : Editor) (before after : JsString) : Prop where
  inside : ed.state.CursorInside
  textBefore : ed₀.state.textBefore = ed.state.textBefore ++ before
  textAfter : ed₀.state.textAfter = after ++ ed.state.textAfter
  none : before ++ after = [] → ed.killRing = ed₀.killRing ∧ ed.wasKill = false
  some : before ++ after ≠ [] → ed.killRing = (before ++ after) :: ed₀.killRing ∧ ed.wasKill = true

variable {h} {ed₀ ed ed' : Editor} {before after : JsString}

theorem pushKill_new {killed : JsString} (hne : killed ≠ []) (ring : List JsString) (toStart : Bool) :
    pushKill ring killed toStart false = killed :: ring := by
  change (if killed = [] then ring else killed :: ring) = _
  rw [if_neg hne]

theorem pushKill_more {killed : JsString} (hne : killed ≠ []) (last : JsString) (ring : List JsString)
    (toStart : Bool) :
    pushKill (last :: ring) killed toStart true = (if toStart then killed ++ last else last ++ killed) :: ring := by
  rw [pushKill, if_neg hne]

theorem Killed.step (hkilled : Killed ed₀ ed before after) (hkills : Kills ed ed') :
    ∃ before' after', Killed ed₀ ed' before' after' := by
  obtain ⟨inside, htextBefore, htextAfter, hnone, hsome⟩ := hkilled
  cases hkills with
  | nothing state ring action =>
    refine ⟨before, after, state ▸ inside, state ▸ htextBefore, state ▸ htextAfter, fun he => ?_, fun hne => ?_⟩
    · rw [wasKill, action, ring]
      exact hnone he
    · rw [wasKill, action, ring]
      exact hsome hne
  | @backward killed hne inside' textBefore textAfter ring action =>
    refine ⟨killed ++ before, after, inside', ?_, ?_, fun he => ?_, fun _ => ⟨?_, ?_⟩⟩
    · rw [htextBefore, textBefore, append_assoc]
    · rw [htextAfter, textAfter]
    · exact absurd (append_eq_nil_iff.mp (append_eq_nil_iff.mp he).1).1 hne
    · rw [ring, append_assoc]
      by_cases he : before ++ after = []
      · obtain ⟨hring, hkill⟩ := hnone he
        rw [hkill, hring, he, append_nil, pushKill_new hne]
      · obtain ⟨hring, hkill⟩ := hsome he
        rw [hkill, hring, pushKill_more hne, if_pos rfl]
    · rw [wasKill, action]
      rfl
  | @forward killed hne inside' textBefore textAfter ring action =>
    refine ⟨before, after ++ killed, inside', ?_, ?_, fun he => ?_, fun _ => ⟨?_, ?_⟩⟩
    · rw [htextBefore, textBefore]
    · rw [htextAfter, textAfter, append_assoc]
    · exact absurd (append_eq_nil_iff.mp (append_eq_nil_iff.mp he).2).2 hne
    · rw [ring, ← append_assoc]
      by_cases he : before ++ after = []
      · obtain ⟨hring, hkill⟩ := hnone he
        rw [hkill, hring, he, nil_append, pushKill_new hne]
      · obtain ⟨hring, hkill⟩ := hsome he
        rw [hkill, hring, pushKill_more hne, if_neg Bool.false_ne_true]
    · rw [wasKill, action]
      rfl

theorem runKills_killed {commands : List KillCommand} (hkilled : Killed ed₀ ed before after)
    (hclear : Clears h commands ed) : ∃ before after, Killed ed₀ (runKills h commands ed) before after := by
  induction commands generalizing ed before after with
  | nil => exact ⟨before, after, hkilled⟩
  | cons command commands ih =>
    obtain ⟨hcommand, hrest⟩ := hclear
    obtain ⟨before', after', hkilled'⟩ := hkilled.step (KillCommand.run_kills h hkilled.inside command hcommand)
    exact ih hkilled' hrest

theorem clears_of_unhidden (hnone : ∀ i line, h.getHiddenTextPrefixLength i line = 0)
    (hinside : ed.state.CursorInside) (commands : List KillCommand) : Clears h commands ed := by
  induction commands generalizing ed with
  | nil => trivial
  | cons command commands ih =>
    have hstart : ed.lineStartCol h = 0 := by
      rw [lineStartCol, Host.lineStart, hnone]
      exact Nat.min_zero _
    have hcol : ed.lineStartCol h < ed.state.cursorCol ∨ ed.state.cursorCol = 0 := by
      have := hinside.col_nonneg
      omega
    have hclear : command.Clear h ed := by
      cases command with
      | toLineStart => exact hcol.elim .inl fun hzero => .inr (.inl hzero)
      | toLineEnd => trivial
      | wordBackward => exact hcol
      | wordForward => trivial
    exact ⟨hclear, ih ((KillCommand.run_kills h hinside command hclear).inside hinside)⟩

/-! ### Yanks -/

/-- `text` is put between the text before a cursor and the text after it, which changes the lines before the cursor
and the text before it in its line. -/
inductive PutIn (front : List JsString) (before text : JsString) : List JsString → JsString → Prop
  | single (hparts : Lines.split newline text = [text]) : PutIn front before text front (before ++ text)
  | several {first last : JsString} {middle : List JsString}
      (hparts : Lines.split newline text = first :: (middle ++ [last])) :
      PutIn front before text (front ++ (before ++ first) :: middle) last

variable {front front' back : List JsString} {before' text : JsString}

theorem PutIn.joined (hput : PutIn front before text front' before') :
    Lines.join newline (front' ++ [before']) = Lines.join newline (front ++ [before]) ++ text := by
  cases hput with
  | single hparts => rw [Lines.join_concat, Lines.join_concat, append_assoc]
  | @several first _ middle hparts =>
    have htext : Lines.join newline (first :: (middle ++ [before'])) = text := by rw [← hparts, Lines.join_split]
    rw [append_assoc, cons_append, Lines.join_middle, htext]

theorem insertYankedText_around (hst : ed.state = .around front before after back) (text : JsString) :
    ∃ front' before', PutIn front before text front' before' ∧
      (ed.insertYankedText text).state = .around front' before' after back := by
  have hbefore := textBeforeCursor_around hst
  have hafter := textAfterCursor_around hst
  unfold insertYankedText
  dsimp only
  split
  · rename_i hsingle
    refine ⟨front, before ++ text, .single (Lines.split_of_not_mem (split_single hsingle)), ?_⟩
    refine setLine_around hst ?_ ?_
    · change ed.textBeforeCursor ++ text ++ ed.textAfterCursor = _
      rw [hbefore, hafter]
    · rw [cursorCol_around hst, length_append]
      omega
  · rename_i hmulti
    obtain ⟨first, middle, last, hparts⟩ := split_parts hmulti
    refine ⟨_, _, .several hparts, ?_⟩
    rw [hparts, getLastD_cons, getLastD_concat, headD_cons, tail_cons, dropLast_concat,
      length_cons, length_append, length_singleton, Nat.add_sub_cancel]
    change EditorState.mk (splice (putLine ed.state.lines ed.state.cursorLine (ed.textBeforeCursor ++ first))
      (ed.state.cursorLine + 1) 0 (middle ++ [last ++ ed.textAfterCursor]))
      (ed.state.cursorLine + (middle.length + 1)) last.length = _
    rw [lines_around hst, cursorLine_around hst, putLine_middle, splice_after, hbefore, hafter, drop_zero,
      EditorState.around, length_append, length_cons]
    simp only [append_assoc, cons_append, nil_append]

/-- The text that was put in is taken out again, if it is the last entry of the ring. -/
theorem deleteYankedText_around {ring : List JsString} (hput : PutIn front before text front' before')
    (hst : ed.state = .around front' before' after back) (hring : ed.killRing = text :: ring) :
    ed.deleteYankedText.state = .around front before after back := by
  have hline := currentLine_around hst
  have hcol := cursorCol_around hst
  have hafter := textAfterCursor_around hst
  unfold deleteYankedText
  rw [hring]
  dsimp only
  cases hput with
  | single hparts =>
    split
    · rename_i hempty
      rw [hst, hempty, append_nil]
    · rw [hparts, if_pos length_singleton]
      have hstart : ed.state.cursorCol - (text.length : Int) = before.length := by
        rw [hcol, length_append]
        omega
      refine setLine_around hst ?_ hstart
      rw [hstart, hline, hafter, append_assoc, sliceTo_append]
  | @several first _ middle hparts =>
    have hlength : (first :: (middle ++ [before'])).length = middle.length + 2 := by simp
    split
    · rename_i hempty
      rw [hempty] at hparts
      exact absurd (congrArg List.length hparts) (by rw [hlength]; simp [Lines.split, Lines.feed])
    · rw [hparts, hlength, if_neg (by omega), headD_cons]
      have hlines : ed.state.lines = front ++ (before ++ first) :: (middle ++ (before' ++ after) :: back) := by
        rw [lines_around hst, append_assoc]
        rfl
      have hi : ed.state.cursorLine - (middle.length + 2 - 1) = front.length := by
        rw [cursorLine_around hst, length_append, length_cons]
        omega
      have hlineAt : ed.lineAt front.length = before ++ first := by rw [lineAt, hlines, getD_middle]
      have hstart : ((before ++ first).length : Int) - first.length = before.length := by
        rw [length_append]
        omega
      rw [hi, hlineAt, hstart, sliceTo_append, hafter]
      change EditorState.mk (splice ed.state.lines front.length (middle.length + 2) [before ++ after]) front.length
        before.length = _
      have hsplice : splice ed.state.lines front.length (middle.length + 2) [before ++ after]
          = front ++ (before ++ after) :: back := by
        have hdrop : (middle ++ (before' ++ after) :: back).drop (middle.length + 1) = back := drop_middle _ _ _
        rw [splice, hlines, take_left, drop_length_add_append, drop_succ_cons, hdrop, append_assoc]
        rfl
      rw [hsplice]
      rfl

/-- After a yank: the last entry of the ring stands between the text before a cursor and the text after it. -/
structure Yanked (front : List JsString) (before after : JsString) (back ring : List JsString) (ed : Editor) :
    Prop where
  put : ∃ front' before', PutIn front before (ring.headD []) front' before' ∧
    ed.state = .around front' before' after back
  ring : ed.killRing = ring
  action : ed.lastAction = some .yank

variable {ring : List JsString}

theorem Yanked.refresh (hyanked : Yanked front before after back ring ed) (retrigger : Bool) :
    Yanked front before after back ring (ed.refreshAutocompleteAfterEdit retrigger) := by
  obtain ⟨c, hc⟩ := ed.refreshAutocompleteAfterEdit_eq retrigger
  rw [hc]
  exact ⟨hyanked.put, hyanked.ring, hyanked.action⟩

theorem Yanked.getText (hyanked : Yanked front before after back ring ed) :
    ed.getText = Lines.join newline (front ++ [before]) ++ ring.headD [] ++ Lines.join newline (after :: back) := by
  obtain ⟨⟨front', before', hput, hst⟩, -, -⟩ := hyanked
  rw [getText_around hst, hput.joined]

theorem insertYankedText_ring (ed : Editor) (text : JsString) : (ed.insertYankedText text).killRing = ed.killRing := by
  unfold insertYankedText
  dsimp only
  split
  · rfl
  · rfl

theorem deleteYankedText_ring (ed : Editor) : ed.deleteYankedText.killRing = ed.killRing := by
  unfold deleteYankedText
  dsimp only
  split
  · rfl
  · split_ifs
    · rfl
    · rfl
    · rfl

theorem rotateKills_eq (ring : List JsString) : rotateKills ring = ring.rotate 1 := by
  match ring with
  | [] => rfl
  | [_] => exact (rotate_singleton _ _).symm
  | _ :: _ :: _ => rfl

theorem yank_yanked (hst : ed.state = .around front before after back) (hring : ed.killRing ≠ []) :
    Yanked front before after back ed.killRing ed.yank := by
  unfold yank
  split
  · exact absurd ‹_› hring
  · rename_i text rest hcons
    refine Yanked.refresh ⟨?_, ?_, rfl⟩ false
    · have hhead : ed.killRing.headD [] = text := by rw [hcons, headD_cons]
      rw [hhead]
      exact insertYankedText_around (show ed.pushUndoSnapshot.state = _ from hst) text
    · exact insertYankedText_ring _ _

theorem Yanked.pop (hyanked : Yanked front before after back ring ed) (hne : ring ≠ []) :
    Yanked front before after back (ring.rotate 1) ed.yankPop := by
  obtain ⟨text, rest, rfl⟩ := exists_cons_of_ne_nil hne
  obtain ⟨⟨front', before', hput, hst⟩, hring, haction⟩ := hyanked
  unfold yankPop
  split
  · rename_i hstop
    have hrest : rest = [] := by
      have hlen := hstop.resolve_left (not_not.mpr haction)
      rw [hring, length_cons] at hlen
      exact length_eq_zero_iff.mp (by omega)
    rw [hrest] at hring ⊢
    rw [rotate_singleton]
    exact ⟨⟨front', before', hput, hst⟩, hring, haction⟩
  · have hback : ed.pushUndoSnapshot.deleteYankedText.state = .around front before after back :=
      deleteYankedText_around hput hst hring
    have hrotated : rotateKills ed.pushUndoSnapshot.deleteYankedText.killRing = (text :: rest).rotate 1 := by
      rw [deleteYankedText_ring, rotateKills_eq]
      exact congrArg (List.rotate · 1) hring
    refine Yanked.refresh ⟨?_, ?_, rfl⟩ false
    · dsimp only
      rw [hrotated]
      have hrotatedState : ({ ed.pushUndoSnapshot.deleteYankedText with killRing := (text :: rest).rotate 1 } :
          Editor).state = .around front before after back := hback
      exact insertYankedText_around hrotatedState _
    · exact (insertYankedText_ring _ _).trans hrotated

theorem Yanked.pops (hyanked : Yanked front before after back ring ed) (hne : ring ≠ []) (k : Nat) :
    Yanked front before after back (ring.rotate k) (yankPop^[k] ed) := by
  induction k with
  | zero =>
    rw [rotate_zero]
    exact hyanked
  | succ k ih =>
    rw [Function.iterate_succ_apply', ← rotate_rotate]
    exact ih.pop fun hnil => hne (rotate_eq_nil_iff.mp hnil)

theorem headD_rotate (ring : List JsString) (k : Nat) :
    (ring.rotate k).headD [] = ring.getD (k % ring.length) [] := by
  by_cases hne : ring = []
  · rw [hne]
    rfl
  · have hlt : k % ring.length < ring.length := Nat.mod_lt _ (length_pos_of_ne_nil hne)
    rw [← rotate_mod, headD_eq_head?_getD, head?_rotate hlt, getD_eq_getElem?_getD]

theorem yankPop_nil (hring : ed.killRing = []) (k : Nat) : yankPop^[k] ed = ed := by
  refine Function.iterate_fixed ?_ k
  rw [yankPop, if_pos (.inr (by rw [hring]; exact Nat.zero_le 1))]

/-- The text after a yank and `k` pops. -/
theorem getText_yankPop (hinside : ed.state.CursorInside) (k : Nat) : (yankPop^[k] ed.yank).getText =
      ed.state.textBefore ++ ed.killRing.getD (k % ed.killRing.length) [] ++ ed.state.textAfter := by
  by_cases hring : ed.killRing = []
  · have hyank : ed.yank = ed := by
      rw [yank]
      split
      · rfl
      · rename_i hcons
        exact absurd (hring.symm.trans hcons) (cons_ne_nil _ _).symm
    rw [hyank, yankPop_nil hring, hring, getText_eq hinside]
    simp
  · obtain ⟨front, before, after, back, hst⟩ := hinside.around
    rw [((yank_yanked hst hring).pops hring k).getText, headD_rotate, hst, textBefore_around, textAfter_around]

/-- **Kills come back.** A run of kill commands that is not the rest of a longer one, and that changes the text, is
undone by a yank; and after a yank, `k` pops put the entry in the place of the yanked text that is `k` back in the ring,
so that the ring once round gives the yanked text again. -/
theorem kill_yank (ed : Editor) (hinside : ed.state.CursorInside) :
    (∀ commands, ed.lastAction ≠ some .kill → Clears h commands ed → (runKills h commands ed).getText ≠ ed.getText →
      (runKills h commands ed).yank.getText = ed.getText) ∧ ed.getText = ed.state.textBefore ++ ed.state.textAfter ∧
    (∀ k, (yankPop^[k] ed.yank).getText =
      ed.state.textBefore ++ ed.killRing.getD (k % ed.killRing.length) [] ++ ed.state.textAfter) ∧
    (yankPop^[ed.killRing.length] ed.yank).getText = ed.yank.getText := by
  refine ⟨fun commands hfirst hclear hchange => ?_, getText_eq hinside, getText_yankPop hinside, ?_⟩
  · have hstart : Killed ed ed [] [] := by
      refine ⟨hinside, (append_nil _).symm, rfl, fun _ => ⟨rfl, ?_⟩, fun hne => absurd rfl hne⟩
      rw [wasKill]
      exact beq_false_of_ne hfirst
    obtain ⟨before, after, hkilled⟩ := runKills_killed hstart hclear
    generalize runKills h commands ed = ed' at hkilled hchange
    have hne : before ++ after ≠ [] := by
      intro hnil
      obtain ⟨rfl, rfl⟩ := append_eq_nil_iff.mp hnil
      refine hchange ?_
      rw [getText_eq hinside, getText_eq hkilled.inside, hkilled.textBefore, hkilled.textAfter, append_nil,
        nil_append]
    obtain ⟨hring, -⟩ := hkilled.some hne
    have hyank := getText_yankPop hkilled.inside 0
    rw [Function.iterate_zero_apply, hring, Nat.zero_mod, getD_cons_zero] at hyank
    rw [hyank, getText_eq hinside, hkilled.textBefore, hkilled.textAfter]
    simp only [append_assoc]
  · have hcycle := getText_yankPop hinside ed.killRing.length
    have hyank := getText_yankPop hinside 0
    rw [Nat.mod_self] at hcycle
    rw [Nat.zero_mod] at hyank
    exact hcycle.trans hyank.symm

/-- The line is joined to the one before it, a word before the cursor is killed, then the rest of the line. -/
theorem kill_yank_lines : let ed : Editor := { new 24 with state := ⟨[ofAscii "one two", ofAscii "three"], 1, 0⟩ }
    (runKills Host.plain [.toLineStart, .wordBackward, .toLineEnd] ed).getText = ofAscii "one " ∧
      (runKills Host.plain [.toLineStart, .wordBackward, .toLineEnd] ed).yank.getText = ofAscii "one two\nthree" := by
  intro ed
  have hinside : ed.state.CursorInside := ⟨by decide, by decide, by decide⟩
  have hkilled : (runKills Host.plain [.toLineStart, .wordBackward, .toLineEnd] ed).getText = ofAscii "one " := by
    decide
  have hback := (kill_yank (h := Host.plain) ed hinside).1 [.toLineStart, .wordBackward, .toLineEnd] nofun
    (clears_of_unhidden (fun _ _ => rfl) hinside _) (by rw [hkilled]; decide)
  exact ⟨hkilled, hback⟩

/-- At the end of the text there is nothing to kill, and the yank puts in what was killed before. -/
theorem kill_yank_nothing :
    ((Transition.steps (step Host.plain) [.input (ofAscii "b"), .input [0x15], .input (ofAscii "a")] (new 24)).any
      fun ed => ed.lastAction ≠ some .kill ∧ ed.getText = ofAscii "a" ∧
        (runKills Host.plain [.toLineEnd] ed).yank.getText = ofAscii "ab") = true := by
  decide

end Editor
end Tui
end RePrime
