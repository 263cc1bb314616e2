import RePrime.Tui.Ansi

/-!
# RePrime.Tui.Wrap

`wrapTextWithAnsi` (`utils.ts`): text with escape sequences broken into lines of a width.

* `visibleWidth`: the columns of a string, from the grapheme clusters of what is left without the sequences.
* `splitIntoTokensWithAnsi`, `breakLongWord`: words and runs of spaces, and the pieces of a word that is too long.
* `wrapToken`: one round of the loop of `wrapSingleLine`.
-/

namespace RePrime
namespace Tui

open JsText (isSpace trimEnd)

/-- `Intl.Segmenter` and `graphemeWidth`. A segmenter cuts its text into clusters, and a printable ASCII
character is one column. -/
structure Metrics where
  segment : JsString → List JsString
  graphemeWidth : JsString → Nat
  segment_flatten : ∀ s, (segment s).flatten = s
  segment_ne_nil : ∀ s, ∀ g ∈ segment s, g ≠ []
  ascii : ∀ s : JsString, (∀ c ∈ s, 0x20 ≤ c ∧ c ≤ 0x7e) → ((segment s).map graphemeWidth).sum = s.length

theorem flatten_units (s : JsString) : (s.map fun c => [c]).flatten = s := by
  induction s with
  | nil => rfl
  | cons c s ih => rw [List.map_cons, List.flatten_cons, ih]; rfl

theorem unit_ne_nil (s : JsString) : ∀ g ∈ s.map fun c => [c], g ≠ [] := by
  intro g hg
  obtain ⟨c, -, rfl⟩ := List.mem_map.mp hg
  exact List.cons_ne_nil _ _

/-- One column a unit. -/
def unitMetrics : Metrics where
  segment := fun s => s.map fun c => [c]
  graphemeWidth := fun _ => 1
  segment_flatten := flatten_units
  segment_ne_nil := unit_ne_nil
  ascii := by
    intro s _
    simp [Function.comp_def]

theorem segment_nil {M : Metrics} : M.segment [] = [] := by
  have hflat := M.segment_flatten []
  cases hs : M.segment [] with
  | nil => rfl
  | cons g gs =>
    rw [hs, List.flatten_cons] at hflat
    exact absurd (List.append_eq_nil_iff.mp hflat).1 (M.segment_ne_nil [] g (by rw [hs]; exact List.mem_cons_self))

variable (M : Metrics)

def Metrics.clusterWidth (s : JsString) : Nat := ((M.segment s).map M.graphemeWidth).sum

def isPrintableAscii (s : JsString) : Bool := s.all fun c => 0x20 ≤ c && c ≤ 0x7e

/-- `replace(/\t/g, "   ")`. -/
def expandTabs (s : JsString) : JsString := s.flatMap fun c => if c = 9 then [0x20, 0x20, 0x20] else [c]

def visibleWidth (s : JsString) : Nat :=
  if s = [] then 0
  else if isPrintableAscii s then s.length
  else M.clusterWidth (units (scan (expandTabs s)))

theorem visibleWidth_printable {N : Metrics} {s : JsString} (h : ∀ u ∈ s, 0x20 ≤ u ∧ u ≤ 0x7e) :
    visibleWidth N s = s.length := by
  unfold visibleWidth
  split
  · rename_i hnil
    rw [hnil]
    rfl
  · have hprintable : isPrintableAscii s = true := List.all_eq_true.mpr fun u hu => by simpa using h u hu
    rw [if_pos hprintable]

/-- `token.trim() === ""`. -/
def isBlank (s : JsString) : Bool := s.all isSpace

/-! ### Tokens -/

structure TokenState where
  tokens : List JsString
  current : JsString
  pendingAnsi : JsString
  inWhitespace : Bool

def tokenStep (st : TokenState) : Item → TokenState
  | .code s => { st with pendingAnsi := st.pendingAnsi ++ s }
  | .unit c =>
    let charIsSpace : Bool := c = 0x20
    let switch := charIsSpace ≠ st.inWhitespace ∧ st.current ≠ []
    { tokens := if switch then st.tokens ++ [st.current] else st.tokens
      current := (if switch then [] else st.current) ++ st.pendingAnsi ++ [c]
      pendingAnsi := []
      inWhitespace := charIsSpace }

/-- The pending sequences at the end go to the last token. -/
def TokenState.finish (st : TokenState) : List JsString :=
  if st.current ++ st.pendingAnsi = [] then st.tokens else st.tokens ++ [st.current ++ st.pendingAnsi]

def splitIntoTokensWithAnsi (text : JsString) : List JsString :=
  ((scan text).foldl tokenStep ⟨[], [], [], false⟩).finish

/-! ### Long words -/

inductive Segment where
  | ansi (s : JsString)
  | grapheme (s : JsString)

/-- The sequences of a word and the graphemes of the text between them; `run` is the text so far. -/
def wordSegments (run : JsString) : List Item → List Segment
  | [] => (M.segment run).map .grapheme
  | .code s :: rest => (M.segment run).map .grapheme ++ Segment.ansi s :: wordSegments [] rest
  | .unit c :: rest => wordSegments (run ++ [c]) rest

structure BreakState where
  lines : List JsString
  currentLine : JsString
  currentWidth : Nat
  tracker : AnsiCodeTracker

def breakStep (width : Nat) (st : BreakState) : Segment → BreakState
  | .ansi s => { st with currentLine := st.currentLine ++ s, tracker := st.tracker.process s }
  | .grapheme g =>
    if g = [] then st
    else if st.currentWidth + visibleWidth M g > width then
      { st with
        lines := st.lines ++ [st.currentLine ++ st.tracker.getLineEndReset]
        currentLine := st.tracker.getActiveCodes ++ g
        currentWidth := visibleWidth M g }
    else
      { st with
        currentLine := st.currentLine ++ g
        currentWidth := st.currentWidth + visibleWidth M g }

/-- The lines of a word, all but the last and the last, with the tracker after it. -/
def breakLongWord (word : JsString) (width : Nat) (tracker : AnsiCodeTracker) :
    List JsString × JsString × AnsiCodeTracker :=
  let st := (wordSegments M [] (scan word)).foldl (breakStep M width) ⟨[], tracker.getActiveCodes, 0, tracker⟩
  let lines := if st.currentLine = [] then st.lines else st.lines ++ [st.currentLine]
  let lines := if lines = [] then [[]] else lines
  (lines.dropLast, lines.getLast?.getD [], st.tracker)

/-! ### Lines -/

structure WrapState where
  wrapped : List JsString
  currentLine : JsString
  currentVisibleLength : Nat
  tracker : AnsiCodeTracker

def WrapState.start : WrapState := ⟨[], [], 0, .fresh⟩

/-- The line that is open when a word is broken is closed as it is. -/
def WrapState.flush (st : WrapState) : List JsString :=
  if st.currentLine = [] then st.wrapped else st.wrapped ++ [st.currentLine ++ st.tracker.getLineEndReset]

def wrapToken (width : Nat) (st : WrapState) (token : JsString) : WrapState :=
  if visibleWidth M token > width ∧ isBlank token = false then
    let (closed, last, tracker) := breakLongWord M token width st.tracker
    { wrapped := st.flush ++ closed
      currentLine := last
      currentVisibleLength := visibleWidth M last
      tracker := tracker }
  else if st.currentVisibleLength + visibleWidth M token > width ∧ st.currentVisibleLength > 0 then
    { wrapped := st.wrapped ++ [trimEnd st.currentLine ++ st.tracker.getLineEndReset]
      currentLine := st.tracker.getActiveCodes ++ if isBlank token then [] else token
      currentVisibleLength := if isBlank token then 0 else visibleWidth M token
      tracker := st.tracker.update token }
  else
    { st with
      currentLine := st.currentLine ++ token
      currentVisibleLength := st.currentVisibleLength + visibleWidth M token
      tracker := st.tracker.update token }

def wrapSingleLine (line : JsString) (width : Nat) : List JsString :=
  if line = [] then [[]]
  else if visibleWidth M line ≤ width then [line]
  else
    let st := (splitIntoTokensWithAnsi line).foldl (wrapToken M width) .start
    let wrapped := if st.currentLine = [] then st.wrapped else st.wrapped ++ [st.currentLine]
    if wrapped = [] then [[]] else wrapped.map trimEnd

/-- The loop over the input lines: the lines so far and the tracker. -/
def wrapInputLine (width : Nat) (st : List JsString × AnsiCodeTracker) (inputLine : JsString) :
    List JsString × AnsiCodeTracker :=
  let start := if st.1 = [] then [] else st.2.getActiveCodes
  (st.1 ++ wrapSingleLine M (start ++ inputLine) width, st.2.update inputLine)

def wrapTextWithAnsi (text : JsString) (width : Nat) : List JsString :=
  if text = [] then [[]]
  else
    let result := ((splitOn JsText.newline text).foldl (wrapInputLine M width) ([], .fresh)).1
    if result = [] then [[]] else result

end Tui
end RePrime
