import RePrime.Tui.Wrap

/-!
# RePrime.Tui.Composite

An overlay painted over a line of the screen (`compositeLineAt` in `tui.ts`), with the functions that cut a line
by columns (`sliceWithWidth`, `extractSegments` in `utils.ts`).

The loops over the sequences of a line and the clusters of the text between them are loops over `segments`; a loop
that is left early stops at a cluster.
-/

namespace RePrime
namespace Tui

open JsText (ofAscii)

variable (M : Metrics)

/-- The sequences of a line and the clusters of the text between them. -/
def segments (line : JsString) : List Segment := wordSegments M [] (scan line)

/-! ### Slices -/

structure SliceState where
  result : JsString
  resultWidth : Nat
  currentCol : Nat
  pendingAnsi : JsString

def sliceAnsi (startCol endCol : Nat) (st : SliceState) (code : JsString) : SliceState :=
  if startCol ≤ st.currentCol ∧ st.currentCol < endCol then { st with result := st.result ++ code }
  else if st.currentCol < startCol then { st with pendingAnsi := st.pendingAnsi ++ code }
  else st

def sliceCluster (startCol endCol : Nat) (strict : Bool) (st : SliceState) (g : JsString) : SliceState :=
  let w := M.graphemeWidth g
  let inRange := startCol ≤ st.currentCol ∧ st.currentCol < endCol
  let fits := strict = false ∨ st.currentCol + w ≤ endCol
  if inRange ∧ fits then
    { result := st.result ++ st.pendingAnsi ++ g
      resultWidth := st.resultWidth + w
      currentCol := st.currentCol + w
      pendingAnsi := [] }
  else { st with currentCol := st.currentCol + w }

def sliceSegments (startCol endCol : Nat) (strict : Bool) : SliceState → List Segment → SliceState
  | st, [] => st
  | st, .ansi code :: rest => sliceSegments startCol endCol strict (sliceAnsi startCol endCol st code) rest
  | st, .grapheme g :: rest =>
    let st := sliceCluster M startCol endCol strict st g
    if endCol ≤ st.currentCol then st else sliceSegments startCol endCol strict st rest

/-- The text of the columns, and their number. -/
def sliceWithWidth (line : JsString) (startCol length : Nat) (strict : Bool) : JsString × Nat :=
  if length = 0 then ([], 0)
  else
    let st := sliceSegments M startCol (startCol + length) strict ⟨[], 0, 0, []⟩ (segments M line)
    (st.result, st.resultWidth)

def sliceByColumn (line : JsString) (startCol length : Nat) (strict : Bool) : JsString :=
  (sliceWithWidth M line startCol length strict).1

/-! ### The line around the overlay -/

structure ExtractState where
  before : JsString
  beforeWidth : Nat
  after : JsString
  afterWidth : Nat
  currentCol : Nat
  pendingAnsiBefore : JsString
  afterStarted : Bool
  tracker : AnsiCodeTracker

def extractCode (beforeEnd afterStart afterEnd : Nat) (st : ExtractState) (code : JsString) : ExtractState :=
  let st := { st with tracker := st.tracker.process code }
  if st.currentCol < beforeEnd then { st with pendingAnsiBefore := st.pendingAnsiBefore ++ code }
  else if afterStart ≤ st.currentCol ∧ st.currentCol < afterEnd ∧ st.afterStarted then
    { st with after := st.after ++ code }
  else st

def extractCluster (beforeEnd afterStart afterEnd : Nat) (strictAfter : Bool) (st : ExtractState) (g : JsString) :
    ExtractState :=
  let w := M.graphemeWidth g
  let moved := { st with currentCol := st.currentCol + w }
  if st.currentCol < beforeEnd then
    { moved with
      before := st.before ++ st.pendingAnsiBefore ++ g
      pendingAnsiBefore := []
      beforeWidth := st.beforeWidth + w }
  else if afterStart ≤ st.currentCol ∧ st.currentCol < afterEnd ∧
      (strictAfter = false ∨ st.currentCol + w ≤ afterEnd) then
    -- the styles of the text before come first
    { moved with
      after := st.after ++ (if st.afterStarted then [] else st.tracker.getActiveCodes) ++ g
      afterStarted := true
      afterWidth := st.afterWidth + w }
  else moved

def extractFrom (beforeEnd afterStart afterLen : Nat) (strictAfter : Bool) :
    ExtractState → List Segment → ExtractState
  | st, [] => st
  | st, .ansi code :: rest =>
    extractFrom beforeEnd afterStart afterLen strictAfter
      (extractCode beforeEnd afterStart (afterStart + afterLen) st code) rest
  | st, .grapheme g :: rest =>
    let st := extractCluster M beforeEnd afterStart (afterStart + afterLen) strictAfter st g
    if (if afterLen = 0 then beforeEnd ≤ st.currentCol else afterStart + afterLen ≤ st.currentCol) then st
    else extractFrom beforeEnd afterStart afterLen strictAfter st rest

def ExtractState.initial : ExtractState := ⟨[], 0, [], 0, 0, [], false, .fresh⟩

def extractSegments (line : JsString) (beforeEnd afterStart afterLen : Nat) (strictAfter : Bool) : ExtractState :=
  extractFrom M beforeEnd afterStart afterLen strictAfter .initial (segments M line)

/-! ### The composite -/

def kittyPrefix : JsString := ofAscii "\x1b_G"
def iterm2Prefix : JsString := ofAscii "\x1b]1337;File="

def isImageLine (line : JsString) : Bool := kittyPrefix <:+: line || iterm2Prefix <:+: line

/-- Tabs as three spaces, and the Thai and Lao vowels AM in two parts. -/
def normalizeUnit (c : UInt16) : JsString :=
  if c = 9 then [0x20, 0x20, 0x20]
  else if c = 0x0e33 then [0x0e4d, 0x0e32]
  else if c = 0x0eb3 then [0x0ecd, 0x0eb2]
  else [c]

def normalizeTerminalOutput (s : JsString) : JsString := s.flatMap normalizeUnit

def segmentReset : JsString := ofAscii "\x1b[0m\x1b]8;;\x07"

def spaces (n : Nat) : JsString := List.replicate n 0x20

/-- The line before it is cut to the width of the terminal. -/
def composed (baseLine overlayLine : JsString) (startCol overlayWidth totalWidth : Nat) : JsString :=
  let afterStart := startCol + overlayWidth
  let base := extractSegments M (normalizeTerminalOutput baseLine) startCol afterStart (totalWidth - afterStart) true
  let before := sliceWithWidth M base.before 0 startCol true
  let overlay := sliceWithWidth M overlayLine 0 overlayWidth true
  let beforePad := startCol - before.2
  let overlayPad := overlayWidth - overlay.2
  let actualBeforeWidth := max startCol before.2
  let actualOverlayWidth := max overlayWidth overlay.2
  let afterTarget := totalWidth - actualBeforeWidth - actualOverlayWidth
  let afterPad := afterTarget - base.afterWidth
  before.1 ++ spaces beforePad ++ segmentReset ++ overlay.1 ++ spaces overlayPad ++ segmentReset ++
    base.after ++ spaces afterPad

def compositeLineAt (baseLine overlayLine : JsString) (startCol overlayWidth totalWidth : Nat) : JsString :=
  if isImageLine baseLine then baseLine
  else
    let result := composed M baseLine overlayLine startCol overlayWidth totalWidth
    if visibleWidth M result ≤ totalWidth then result else sliceByColumn M result 0 totalWidth true

end Tui
end RePrime
