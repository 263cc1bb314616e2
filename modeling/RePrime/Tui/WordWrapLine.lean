import RePrime.Tui.Markers

/-!
# RePrime.Tui.WordWrapLine

`wordWrapLine` (`editor.ts`): a line of the editor cut into chunks of a width, at the words where it can.

A segment that is wider than the width is wrapped again on its own, grapheme by grapheme. For one grapheme that
is too wide this never ends, and the call throws; `none` stands for that.

* `Chunks`: chunks that lie one after the other in a line and cover it.
-/

namespace RePrime
namespace Tui

open JsText (isSpace)

structure TextChunk where
  text : JsString
  startIndex : Nat
  endIndex : Nat
deriving DecidableEq

/-- `line.slice(startIndex, endIndex)` with its place. -/
def chunkOf (line : JsString) (startIndex endIndex : Nat) : TextChunk :=
  ⟨(line.drop startIndex).take (endIndex - startIndex), startIndex, endIndex⟩

/-- `isWhitespaceChar` -/
def isWhitespaceChar (char : JsString) : Bool := char.any isSpace

/-- The variables of the loop; `wrapOppIndex` is -1 in the source where it is none here. -/
structure WordWrapState where
  chunks : List TextChunk
  currentWidth : Nat
  chunkStart : Nat
  wrapOppIndex : Option Nat
  wrapOppWidth : Nat

variable (M : Metrics)

/-- The overflow check before a segment is taken. -/
def wrapOverflow (line : JsString) (maxWidth gWidth charIndex : Nat) (st : WordWrapState) : WordWrapState :=
  if st.currentWidth + gWidth > maxWidth then
    let forced : WordWrapState :=
      if st.chunkStart < charIndex then
        { st with
          chunks := st.chunks ++ [chunkOf line st.chunkStart charIndex]
          chunkStart := charIndex
          currentWidth := 0
          wrapOppIndex := none }
      else { st with wrapOppIndex := none }
    match st.wrapOppIndex with
    | some i =>
      if st.currentWidth - st.wrapOppWidth + gWidth ≤ maxWidth then
        { st with
          chunks := st.chunks ++ [chunkOf line st.chunkStart i]
          chunkStart := i
          currentWidth := st.currentWidth - st.wrapOppWidth
          wrapOppIndex := none }
      else forced
    | none => forced
  else st

/-- `isWs && next && (isAtomicMarker(next.segment) || !isWhitespaceChar(next.segment))` -/
def wrapOpportunity (grapheme : JsString) (next : Option Seg) : Option Nat :=
  if !isAtomicMarker grapheme && isWhitespaceChar grapheme then
    (next.filter fun n => isAtomicMarker n.segment || !isWhitespaceChar n.segment).map (·.index)
  else none

/-- The chunks of a segment that was wrapped on its own: all but the last are done. -/
def wrapNested (charIndex : Nat) (subChunks : List TextChunk) (st : WordWrapState) : WordWrapState :=
  let last := subChunks.getLastD ⟨[], 0, 0⟩
  { st with
    chunks := st.chunks ++
      subChunks.dropLast.map fun sc => ⟨sc.text, charIndex + sc.startIndex, charIndex + sc.endIndex⟩
    chunkStart := charIndex + last.startIndex
    currentWidth := visibleWidth M last.text
    wrapOppIndex := none }

/-- One round of the loop, for a segment and the one after it. -/
def wrapSegment (rewrap : JsString → Option (List TextChunk)) (line : JsString) (maxWidth : Nat) (st : WordWrapState)
    (seg : Seg) (next : Option Seg) : Option WordWrapState :=
  let gWidth := visibleWidth M seg.segment
  let st := wrapOverflow line maxWidth gWidth seg.index st
  if gWidth > maxWidth then (rewrap seg.segment).map fun subChunks => wrapNested M seg.index subChunks st
  else
    let st := { st with currentWidth := st.currentWidth + gWidth }
    match wrapOpportunity seg.segment next with
    | some i => some { st with wrapOppIndex := some i, wrapOppWidth := st.currentWidth }
    | none => some st

def wrapSegments (rewrap : JsString → Option (List TextChunk)) (line : JsString) (maxWidth : Nat) :
    WordWrapState → List Seg → Option WordWrapState
  | st, [] => some st
  | st, seg :: segs =>
    (wrapSegment M rewrap line maxWidth st seg segs.head?).bind fun st => wrapSegments rewrap line maxWidth st segs

def wordWrapWith (rewrap : JsString → Option (List TextChunk)) (line : JsString) (maxWidth : Nat)
    (segments : List Seg) : Option (List TextChunk) :=
  if line = [] ∨ maxWidth = 0 then some [⟨[], 0, 0⟩]
  else if visibleWidth M line ≤ maxWidth then some [⟨line, 0, line.length⟩]
  else (wrapSegments M rewrap line maxWidth ⟨[], 0, 0, none, 0⟩ segments).map fun st =>
    st.chunks ++ [⟨line.drop st.chunkStart, st.chunkStart, line.length⟩]

/-- `wordWrapLine(line, maxWidth)`. A grapheme of the line is shorter than the line or the line itself, and then the
call is repeated for ever, so as many levels as the line has units are enough. -/
def wordWrapGraphemes : Nat → JsString → Nat → Option (List TextChunk)
  | 0, _, _ => none
  | depth + 1, line, maxWidth =>
    wordWrapWith M (fun grapheme => wordWrapGraphemes depth grapheme maxWidth) line maxWidth (baseSegments M line)

/-- `wordWrapLine(line, maxWidth, preSegmented)` -/
def wordWrapLine (line : JsString) (maxWidth : Nat) (preSegmented : List Seg) : Option (List TextChunk) :=
  wordWrapWith M (fun grapheme => wordWrapGraphemes M grapheme.length grapheme maxWidth) line maxWidth preSegmented

/-! ### Chunks -/

/-- Chunks that lie one after the other between two offsets of a line, with as much text as they say. -/
def Chunks (hi : Nat) : Nat → List TextChunk → Prop
  | lo, [] => lo = hi
  | lo, chunk :: chunks =>
    chunk.startIndex = lo ∧ chunk.endIndex = lo + chunk.text.length ∧ Chunks hi chunk.endIndex chunks

end Tui
end RePrime
