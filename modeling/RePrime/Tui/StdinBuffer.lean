import Mathlib.Data.List.Find
import RePrime.Lib.Delimiter
import RePrime.Lib.Incremental
import RePrime.Tui.Ansi

/-!
# RePrime.Tui.StdinBuffer

The buffer between the terminal and the components (`stdin-buffer.ts`): it emits the characters and escape
sequences of its input one by one, each when it is complete, and the text of a bracketed paste as a whole.

* `isCompleteSequence`, `extractCompleteSequences`: the sequences at the start of a text.
* `sequenceReader`: the same as a reader of a stream; `extractCompleteSequences_eq`.
* `process`: what a chunk of input emits. Chunks are strings, as the terminal decodes its bytes; the timer that
  flushes an incomplete sequence is not part of the model.
-/

namespace RePrime
namespace Tui
namespace StdinBuffer

open List
open JsText (ofAscii indexOf)

/-! ### Sequences -/

inductive Completeness where
  | complete
  | incomplete
  | notEscape
deriving DecidableEq

def isDigit (u : UInt16) : Bool := 0x30 ≤ u && u ≤ 0x39

/-- `/^\d+$/` -/
def isDigits (s : JsString) : Bool := !s.isEmpty && s.all isDigit

/-- `/^<\d+;\d+;\d+[Mm]$/`, for a payload that starts with `<` and ends in a letter; the test of the three parts
that follows it in the source accepts the same payloads. -/
def isMouse (payload : JsString) : Bool :=
  (payload.getLast? == some 0x4d || payload.getLast? == some 0x6d) &&
    (let parts := (payload.drop 1).dropLast.splitOn semicolon
     parts.length == 3 && parts.all isDigits)

/-- For a text that starts with `ESC [`. -/
def isCompleteCsiSequence (data : JsString) : Completeness :=
  let payload := data.drop 2
  match payload.getLast? with
  | none => .incomplete
  | some last =>
    if 0x40 ≤ last ∧ last ≤ 0x7e then
      if payload.head? = some 0x3c then
        if isMouse payload then .complete else .incomplete
      else .complete
    else .incomplete

def stringTerminator : JsString := [esc, backslash]

/-- The kinds that end with ST, which is `ESC \` or, for some, BEL. -/
def isCompleteControlString (allowBel : Bool) (data : JsString) : Completeness :=
  if stringTerminator <:+ data ∨ (allowBel ∧ data.getLast? = some bel) then .complete else .incomplete

def isCompleteOscSequence : JsString → Completeness := isCompleteControlString true
def isCompleteDcsSequence : JsString → Completeness := isCompleteControlString false
def isCompleteApcSequence : JsString → Completeness := isCompleteControlString false

def isCompleteSequence : JsString → Completeness
  | [] => .notEscape
  | [e] => if e = esc then .incomplete else .notEscape
  | e :: kind :: rest =>
    if e ≠ esc then .notEscape
    else if kind = 0x5b then
      if rest.head? = some 0x4d then
        -- an old mouse report has three bytes after its M
        if 6 ≤ (e :: kind :: rest).length then .complete else .incomplete
      else isCompleteCsiSequence (e :: kind :: rest)
    else if kind = 0x5d then isCompleteOscSequence (e :: kind :: rest)
    else if kind = 0x50 then isCompleteDcsSequence (e :: kind :: rest)
    else if kind = 0x5f then isCompleteApcSequence (e :: kind :: rest)
    else if kind = 0x4f then if rest = [] then .incomplete else .complete
    else .complete

/-- The shortest start of the text that is not incomplete. -/
def sequenceEnd (remaining : JsString) : Option Nat :=
  (List.range' 1 remaining.length).find? fun seqEnd => isCompleteSequence (remaining.take seqEnd) != .incomplete

structure Extracted where
  sequences : List JsString
  remainder : JsString
deriving DecidableEq

def Extracted.after (sequences : List JsString) (e : Extracted) : Extracted :=
  { e with sequences := sequences ++ e.sequences }

/-- The loop, one round for each unit of fuel. -/
def extractFrom : Nat → JsString → Extracted
  | 0, remaining => ⟨[], remaining⟩
  | _ + 1, [] => ⟨[], []⟩
  | fuel + 1, u :: rest =>
    if u = esc then
      match sequenceEnd (u :: rest) with
      | some seqEnd => .after [(u :: rest).take seqEnd] (extractFrom fuel ((u :: rest).drop seqEnd))
      | none => ⟨[], u :: rest⟩
    else .after [[u]] (extractFrom fuel rest)

def extractCompleteSequences (buffer : JsString) : Extracted := extractFrom buffer.length buffer

variable {s : JsString} {n : Nat}

theorem sequenceEnd_pos (h : sequenceEnd s = some n) : 1 ≤ n ∧ n ≤ s.length := by
  have hmem := mem_of_find?_eq_some h
  rw [mem_range'_1] at hmem
  omega

theorem sequenceEnd_append (h : sequenceEnd s = some n) (more : JsString) : sequenceEnd (s ++ more) = some n := by
  have hcong : (List.range' 1 s.length).find?
      (fun seqEnd => isCompleteSequence ((s ++ more).take seqEnd) != .incomplete) = some n := by
    rw [← h]
    refine find?_congr fun k hk => ?_
    rw [mem_range'_1] at hk
    rw [take_append_of_le_length (by omega)]
  rw [sequenceEnd, length_append, ← range'_append_1, find?_append, hcong]
  rfl

theorem sequenceEnd_take (h : sequenceEnd s = some n) : sequenceEnd (s.take n) = some n := by
  obtain ⟨h1, hn⟩ := sequenceEnd_pos h
  have hlen : (s.take n).length = n := by
    rw [length_take]
    omega
  rw [sequenceEnd, find?_range'_eq_some] at h ⊢
  obtain ⟨hend, -, hearlier⟩ := h
  refine ⟨by rwa [take_take, min_self], mem_range'_1.2 (by omega), ?_⟩
  intro j hj hlt
  rw [take_take, min_eq_left (by omega)]
  exact hearlier j hj hlt

/-! ### As a reader -/

def nextSequence : JsString → Incremental.Found UInt16 JsString Unit
  | [] => .wait
  | u :: rest =>
    if u = esc then
      match sequenceEnd (u :: rest) with
      | some seqEnd => .item ((u :: rest).take seqEnd) ((u :: rest).drop seqEnd)
      | none => .wait
    else .item [u] rest

variable {x rest : JsString}

theorem nextSequence_item (h : nextSequence s = .item x rest) : s = x ++ rest ∧ x ≠ [] := by
  cases s with
  | nil => cases h
  | cons u s =>
    rw [nextSequence] at h
    split at h
    · cases hend : sequenceEnd (u :: s) with
      | none =>
        rw [hend] at h
        cases h
      | some n =>
        rw [hend] at h
        cases h
        obtain ⟨h1, hn⟩ := sequenceEnd_pos hend
        refine ⟨(take_append_drop n _).symm, ?_⟩
        intro hnil
        have hlen : ((u :: s).take n).length = 0 := by rw [hnil, length_nil]
        rw [length_take] at hlen
        omega
    · cases h
      exact ⟨rfl, by simp⟩

theorem nextSequence_whole (h : nextSequence s = .item x rest) (more : JsString) :
    nextSequence (x ++ more) = .item x more := by
  cases s with
  | nil => cases h
  | cons u s =>
    rw [nextSequence] at h
    split at h
    · rename_i hu
      cases hend : sequenceEnd (u :: s) with
      | none =>
        rw [hend] at h
        cases h
      | some n =>
        rw [hend] at h
        cases h
        obtain ⟨h1, hn⟩ := sequenceEnd_pos hend
        obtain ⟨n, rfl⟩ : ∃ k, n = k + 1 := ⟨n - 1, by omega⟩
        have hlen : (u :: s.take n).length = n + 1 := by
          rw [← take_succ_cons, length_take]
          omega
        have hwhole := sequenceEnd_append (sequenceEnd_take hend) more
        rw [take_succ_cons] at hwhole ⊢
        rw [cons_append] at hwhole ⊢
        rw [nextSequence, if_pos hu, hwhole, ← cons_append]
        simp only
        rw [take_left' hlen, drop_left' hlen]
    · rename_i hu
      cases h
      rw [cons_append, nextSequence, if_neg hu]
      rfl

theorem nextSequence_append (h : nextSequence s = .item x rest) (more : JsString) :
    nextSequence (s ++ more) = .item x (rest ++ more) := by
  have hsplit := (nextSequence_item h).1
  rw [hsplit, append_assoc]
  exact nextSequence_whole h (rest ++ more)

theorem nextSequence_ne_failure (s : JsString) (e : Unit) : nextSequence s ≠ .failure e := by
  intro h
  cases s with
  | nil => cases h
  | cons u s =>
    rw [nextSequence] at h
    split at h
    · split at h
      · cases h
      · cases h
    · cases h

def sequenceReader : Incremental UInt16 JsString Unit where
  find := nextSequence
  shrinks := by
    intro s x rest h
    obtain ⟨rfl, hx⟩ := nextSequence_item h
    have hlen := length_pos_iff.2 hx
    rw [length_append]
    omega
  item_append := fun h more => nextSequence_append h more
  failure_append := fun h _ => absurd h (nextSequence_ne_failure _ _)

theorem extractFrom_eq {fuel : Nat} (h : s.length ≤ fuel) :
    extractFrom fuel s = ⟨(sequenceReader.drain s).items, (sequenceReader.drain s).rest⟩ := by
  induction fuel generalizing s with
  | zero =>
    obtain rfl := length_eq_zero_iff.1 (Nat.le_zero.1 h)
    have hfind : sequenceReader.find [] = .wait := rfl
    rw [Incremental.drain_wait hfind]
    rfl
  | succ fuel ih =>
    cases s with
    | nil =>
      have hfind : sequenceReader.find [] = .wait := rfl
      rw [Incremental.drain_wait hfind]
      rfl
    | cons u s =>
      rw [extractFrom]
      by_cases hu : u = esc
      · rw [if_pos hu]
        cases hend : sequenceEnd (u :: s) with
        | none =>
          have hfind : sequenceReader.find (u :: s) = .wait := by
            simp only [sequenceReader, nextSequence, if_pos hu, hend]
          rw [Incremental.drain_wait hfind]
        | some n =>
          have hfind : sequenceReader.find (u :: s) = .item ((u :: s).take n) ((u :: s).drop n) := by
            simp only [sequenceReader, nextSequence, if_pos hu, hend]
          have h1 := (sequenceEnd_pos hend).1
          have hlen : ((u :: s).drop n).length ≤ fuel := by
            rw [length_drop]
            omega
          rw [Incremental.drain_item hfind]
          simp only [ih hlen]
          rfl
      · have hfind : sequenceReader.find (u :: s) = .item [u] s := by
          simp only [sequenceReader, nextSequence, if_neg hu]
        rw [if_neg hu, Incremental.drain_item hfind, ih (by simpa using h)]
        rfl

theorem extractCompleteSequences_eq (s : JsString) :
    extractCompleteSequences s = ⟨(sequenceReader.drain s).items, (sequenceReader.drain s).rest⟩ :=
  extractFrom_eq le_rfl

/-! ### Input -/

def pasteStart : JsString := ofAscii "\x1b[200~"
def pasteEnd : JsString := ofAscii "\x1b[201~"

/-- `/^\x1b\[(\d+)(?::\d*)?(?::\d+)?u$/`: the code point, when it is printable. -/
def parseUnmodifiedKittyPrintableCodepoint (sequence : JsString) : Option Nat :=
  if [esc, 0x5b] <+: sequence ∧ sequence.getLast? = some 0x75 then
    let codepoint (digits : JsString) : Option Nat :=
      let n := digits.foldl (fun n d => 10 * n + (d.toNat - 0x30)) 0
      if isDigits digits ∧ 32 ≤ n then some n else none
    match (sequence.drop 2).dropLast.splitOn 0x3a with
    | [code] => codepoint code
    | [code, shifted] => if shifted.all isDigit then codepoint code else none
    | [code, shifted, base] => if shifted.all isDigit ∧ isDigits base then codepoint code else none
    | _ => none
  else none

def isLineBreak (u : UInt16) : Bool := u == 0x0d || u == 0x0a

/-- `/[^\r\n][\r\n]+[^\r\n]/` -/
def enclosesLineBreak : JsString → Bool
  | [] => false
  | u :: rest =>
    (!isLineBreak u && !(rest.takeWhile isLineBreak).isEmpty && !(rest.dropWhile isLineBreak).isEmpty) ||
      enclosesLineBreak rest

def isRawMultilinePaste (data : JsString) : Bool := !data.contains esc && enclosesLineBreak data

inductive Event where
  | data (sequence : JsString)
  | paste (content : JsString)
deriving DecidableEq

structure State where
  buffer : JsString
  pasteMode : Bool
  pasteBuffer : JsString
  pendingKittyPrintableCodepoint : Option Nat
deriving DecidableEq

def State.initial : State := ⟨[], false, [], none⟩

/-- What is emitted, and the code point that is pending then. -/
def emitDataSequence (pending : Option Nat) (sequence : JsString) : List Event × Option Nat :=
  match sequence, pending with
  | [u], some codepoint =>
    if u.toNat = codepoint then ([], none)
    else ([.data sequence], parseUnmodifiedKittyPrintableCodepoint sequence)
  | _, _ => ([.data sequence], parseUnmodifiedKittyPrintableCodepoint sequence)

def emitDataSequences : Option Nat → List JsString → List Event × Option Nat
  | pending, [] => ([], pending)
  | pending, sequence :: rest =>
    let first := emitDataSequence pending sequence
    let later := emitDataSequences first.2 rest
    (first.1 ++ later.1, later.2)

/-- One call, and the text it goes on with when there is any. -/
structure Processed where
  events : List Event
  state : State
  remaining : JsString

/-- In a paste: its end is looked for. -/
def takePaste (events : List Event) (pasteBuffer : JsString) (pending : Option Nat) : Processed :=
  match indexOf pasteEnd pasteBuffer with
  | some endIndex =>
    { events := events ++ [Event.paste (pasteBuffer.take endIndex)]
      state := ⟨[], false, [], none⟩
      remaining := pasteBuffer.drop (endIndex + pasteEnd.length) }
  | none => { events := events, state := ⟨[], true, pasteBuffer, pending⟩, remaining := [] }

def processOnce (s : State) (str : JsString) : Processed :=
  if str = [] ∧ s.buffer = [] then
    let emitted := emitDataSequence s.pendingKittyPrintableCodepoint []
    { events := emitted.1, state := { s with pendingKittyPrintableCodepoint := emitted.2 }, remaining := [] }
  else
    let buffer := s.buffer ++ str
    if s.pasteMode then takePaste [] (s.pasteBuffer ++ buffer) s.pendingKittyPrintableCodepoint
    else
      match indexOf pasteStart buffer with
      | some startIndex =>
        -- the remainder of the text before the paste is not kept
        let result := extractCompleteSequences (buffer.take startIndex)
        let emitted := emitDataSequences s.pendingKittyPrintableCodepoint result.sequences
        takePaste emitted.1 (buffer.drop (startIndex + pasteStart.length)) none
      | none =>
        if isRawMultilinePaste buffer then
          { events := [.paste buffer], state := ⟨[], false, s.pasteBuffer, none⟩, remaining := [] }
        else
          let result := extractCompleteSequences buffer
          let emitted := emitDataSequences s.pendingKittyPrintableCodepoint result.sequences
          { events := emitted.1, state := ⟨result.remainder, false, s.pasteBuffer, emitted.2⟩, remaining := [] }

/-- `process` calls itself with what follows a paste. -/
def processFrom : Nat → State → JsString → List Event × State
  | 0, s, _ => ([], s)
  | fuel + 1, s, str =>
    let once := processOnce s str
    if once.remaining = [] then (once.events, once.state)
    else
      let later := processFrom fuel once.state once.remaining
      (once.events ++ later.1, later.2)

def process (s : State) (str : JsString) : List Event × State :=
  processFrom ((s.pasteBuffer ++ s.buffer ++ str).length + 1) s str

/-- The chunks one after the other. -/
def processAll : State → List JsString → List Event × State
  | s, [] => ([], s)
  | s, chunk :: chunks =>
    let first := process s chunk
    let later := processAll first.2 chunks
    (first.1 ++ later.1, later.2)

end StdinBuffer
end Tui
end RePrime
