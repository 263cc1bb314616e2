import RePrime.Lib.Runs
import RePrime.Tools.OutputAccumulator

/-!
# RePrime.Tools.OutputSpill

The file that all of an output goes to once it is over a limit.

* `WriteStream`: what was written to a stream reaches its file later, or never.
* `OutputSpill`: opened once, with what was kept until then; its path is withdrawn when the stream fails.
* `spill_complete`: a file that was closed holds every chunk, whenever it was opened.
-/

namespace RePrime
namespace Tools

open List

/-- A stream to a file: `content` is in the file, and `pending` was written and is not there yet. -/
structure WriteStream where
  content : List UInt8
  pending : List UInt8
  ended : Bool
  errored : Bool
  closed : Bool
  removed : Bool
  deriving DecidableEq

namespace WriteStream

def new : WriteStream :=
  { content := [], pending := [], ended := false, errored := false, closed := false, removed := false }

def write (w : WriteStream) (chunk : List UInt8) : WriteStream := { w with pending := w.pending ++ chunk }

end WriteStream

/-- `streams` is every stream that was created; a stream's number stands for it and for its path. -/
structure OutputSpill where
  path : Option Nat
  stream : Option Nat
  failed : Bool
  streams : List WriteStream

namespace OutputSpill

def new : OutputSpill := { path := none, stream := none, failed := false, streams := [] }

def isOpen (spill : OutputSpill) : Bool := spill.stream.isSome

def currentPath (spill : OutputSpill) : Option Nat := spill.path

/-- `open` -/
def openSpill (spill : OutputSpill) (replay : List (List UInt8)) : OutputSpill :=
  if spill.stream.isSome ∨ spill.failed = true then spill
  else
    { spill with
      path := some spill.streams.length
      stream := some spill.streams.length
      streams := spill.streams ++ [replay.foldl WriteStream.write .new] }

def write (spill : OutputSpill) (chunk : List UInt8) : OutputSpill :=
  match spill.stream with
  | none => spill
  | some i => { spill with streams := spill.streams.modify i fun w => w.write chunk }

/-- `finalize` up to where it waits for the stream to close. -/
def finalize (spill : OutputSpill) : OutputSpill :=
  match spill.stream with
  | none => spill
  | some i =>
    { spill with
      stream := none
      streams := spill.streams.modify i fun w => if w.closed then w else { w with ended := true } }

/-- The listener for `error` on a stream. -/
def onError (spill : OutputSpill) (i : Nat) : OutputSpill :=
  { path := none
    failed := true
    stream := if spill.stream = some i then none else spill.stream
    streams := spill.streams.modify i fun w => { w with errored := true } }

end OutputSpill

/-- All fields of `OutputAccumulator`. -/
structure SpillingAccumulator extends OutputAccumulator where
  rawChunks : List (List UInt8)
  totalRawBytes : Nat
  spill : OutputSpill

open SpillingAccumulator

namespace SpillingAccumulator

def new (options : OutputAccumulatorOptions) : SpillingAccumulator :=
  { OutputAccumulator.new options with rawChunks := [], totalRawBytes := 0, spill := .new }

def shouldUseTempFile (acc : SpillingAccumulator) : Bool :=
  decide (acc.maxBytes < acc.totalRawBytes ∨ acc.maxBytes < acc.totalDecodedBytes ∨ acc.maxLines < acc.totalLines)

def ensureTempFile (acc : SpillingAccumulator) : SpillingAccumulator :=
  { acc with spill := acc.spill.openSpill acc.rawChunks, rawChunks := [] }

def append (acc : SpillingAccumulator) (data : List UInt8) : Except String SpillingAccumulator :=
  match acc.toOutputAccumulator.append data with
  | .error message => .error message
  | .ok decoded =>
    let acc := { acc with toOutputAccumulator := decoded, totalRawBytes := acc.totalRawBytes + data.length }
    if acc.spill.isOpen ∨ acc.shouldUseTempFile then
      let acc := acc.ensureTempFile
      .ok { acc with spill := acc.spill.write data }
    else if 0 < data.length then .ok { acc with rawChunks := acc.rawChunks ++ [data] }
    else .ok acc

def finish (acc : SpillingAccumulator) : SpillingAccumulator :=
  if acc.finished then acc
  else
    let acc := { acc with toOutputAccumulator := acc.toOutputAccumulator.finish }
    if acc.shouldUseTempFile then acc.ensureTempFile else acc

/-- `snapshot().fullOutputPath` -/
def fullOutputPath (acc : SpillingAccumulator) : Option Nat := acc.spill.currentPath

def closeTempFile (acc : SpillingAccumulator) : SpillingAccumulator := { acc with spill := acc.spill.finalize }

end SpillingAccumulator

namespace OutputSpill

/-- `chunks` is every chunk that was appended. -/
structure State where
  acc : SpillingAccumulator
  chunks : List (List UInt8)

/-- Calls, and what becomes of a stream: bytes reach its file, it fails, it closes; the file of a stream that
failed is removed then, when that works. -/
inductive Action where
  | append (data : List UInt8)
  | finish
  | closeTempFile
  | flush (i n : Nat)
  | error (i : Nat)
  | close (i : Nat) (removed : Bool)

namespace State

def new (options : OutputAccumulatorOptions) : State := { acc := .new options, chunks := [] }

def modifyStream (s : State) (i : Nat) (f : WriteStream → WriteStream) : State :=
  { s with acc := { s.acc with spill := { s.acc.spill with streams := s.acc.spill.streams.modify i f } } }

def step (s : State) : Action → Option State
  | .append data =>
    match s.acc.append data with
    | .error _ => some s
    | .ok acc => some { acc, chunks := s.chunks ++ [data] }
  | .finish => some { s with acc := s.acc.finish }
  | .closeTempFile => some { s with acc := s.acc.closeTempFile }
  | .flush i n =>
    match s.acc.spill.streams[i]? with
    | none => none
    | some w =>
      if w.errored ∨ w.closed then none
      else some (s.modifyStream i fun w =>
        { w with content := w.content ++ w.pending.take n, pending := w.pending.drop n })
  | .error i =>
    match s.acc.spill.streams[i]? with
    | none => none
    | some w =>
      if w.errored ∨ w.closed then none
      else some { s with acc := { s.acc with spill := s.acc.spill.onError i } }
  | .close i removed =>
    match s.acc.spill.streams[i]? with
    | none => none
    | some w =>
      if w.closed = false ∧ (w.errored ∨ w.ended ∧ w.pending = []) then
        some (s.modifyStream i fun w => { w with closed := true, removed := w.errored && removed })
      else none

/-- The output is finished before its file is closed. -/
def FinishFirst (s : State) : Action → Prop
  | .closeTempFile => s.acc.finished = true
  | .append _ | .finish | .flush _ _ | .error _ | .close _ _ => True

instance (s : State) (a : Action) : Decidable (s.FinishFirst a) :=
  match a with
  | .closeTempFile => inferInstanceAs (Decidable (s.acc.finished = true))
  | .append _ | .finish | .flush _ _ | .error _ | .close _ _ => inferInstanceAs (Decidable True)

end State

/-! ## Limits stay crossed -/

theorem trimTail_totals (acc : OutputAccumulator) (p : Prop) [Decidable p] :
    (if p then acc.trimTail else acc).maxLines = acc.maxLines ∧
    (if p then acc.trimTail else acc).maxBytes = acc.maxBytes ∧
    (if p then acc.trimTail else acc).totalDecodedBytes = acc.totalDecodedBytes ∧
    (if p then acc.trimTail else acc).totalLines = acc.totalLines := by
  unfold OutputAccumulator.trimTail
  simp only []
  split_ifs <;> exact ⟨rfl, rfl, rfl, rfl⟩

theorem appendDecodedText_totals (acc : OutputAccumulator) (text : List Char) :
    (acc.appendDecodedText text).maxLines = acc.maxLines ∧ (acc.appendDecodedText text).maxBytes = acc.maxBytes ∧
    acc.totalDecodedBytes ≤ (acc.appendDecodedText text).totalDecodedBytes ∧
    acc.totalLines ≤ (acc.appendDecodedText text).totalLines := by
  unfold OutputAccumulator.appendDecodedText
  split
  · exact ⟨rfl, rfl, Nat.le_refl _, Nat.le_refl _⟩
  · simp only []
    obtain ⟨hlines, hbytes, hdecoded, htotal⟩ := trimTail_totals
      { acc with
        totalDecodedBytes := acc.totalDecodedBytes + Truncate.byteLength text
        tailText := acc.tailText ++ text
        tailBytes := acc.tailBytes + Truncate.byteLength text }
      (acc.maxRollingBytes * 2 < acc.tailBytes + Truncate.byteLength text)
    split
    · refine ⟨hlines, hbytes, ?_, ?_⟩
      · rw [hdecoded]
        exact Nat.le_add_right _ _
      · rw [htotal]
    · refine ⟨hlines, hbytes, ?_, ?_⟩
      · simp only [hdecoded]
        exact Nat.le_add_right _ _
      · simp only [htotal]
        exact Nat.le_add_right _ _

theorem shouldUseTempFile_mono {acc acc' : SpillingAccumulator} (h : acc.shouldUseTempFile = true)
    (hlines : acc'.maxLines = acc.maxLines) (hbytes : acc'.maxBytes = acc.maxBytes)
    (hraw : acc.totalRawBytes ≤ acc'.totalRawBytes) (hdecoded : acc.totalDecodedBytes ≤ acc'.totalDecodedBytes)
    (htotal : acc.totalLines ≤ acc'.totalLines) : acc'.shouldUseTempFile = true := by
  simp only [shouldUseTempFile, decide_eq_true_iff] at *
  omega

/-! ## One file -/

/-- No file yet: all chunks are kept. -/
structure Unopened (s : State) : Prop where
  spill : s.acc.spill = .new
  buffered : s.acc.rawChunks.flatten = s.chunks.flatten
  within : s.acc.finished = true → s.acc.shouldUseTempFile = false

/-- One file: what was written to it is every chunk. -/
structure Opened (s : State) (w : WriteStream) : Prop where
  streams : s.acc.spill.streams = [w]
  failed : s.acc.spill.failed = w.errored
  path : s.acc.spill.path = if w.errored then none else some 0
  stream : s.acc.spill.stream = if w.errored ∨ w.ended then none else some 0
  written : w.errored = false → w.content ++ w.pending = s.chunks.flatten
  ended : w.ended = true → s.acc.finished = true
  closed : w.closed = true → w.errored = true ∨ w.ended = true ∧ w.pending = []
  overLimit : s.acc.shouldUseTempFile = true

def Inv (s : State) : Prop := Unopened s ∨ ∃ w, Opened s w

theorem foldl_write (replay : List (List UInt8)) (w : WriteStream) :
    replay.foldl WriteStream.write w = { w with pending := w.pending ++ replay.flatten } := by
  induction replay generalizing w with
  | nil => simp
  | cons chunk replay ih => simp [ih, WriteStream.write]

theorem Unopened.open {s : State} (h : Unopened s) {acc : SpillingAccumulator} (hspill : acc.spill = s.acc.spill)
    (hraw : acc.rawChunks = s.acc.rawChunks) (hover : acc.shouldUseTempFile = true) :
    Opened { s with acc := acc.ensureTempFile } { WriteStream.new with pending := s.chunks.flatten } := by
  have hopen : acc.spill.openSpill acc.rawChunks =
      { path := some 0, stream := some 0, failed := false
        streams := [{ WriteStream.new with pending := s.chunks.flatten }] } := by
    rw [hspill, h.spill, hraw, openSpill, if_neg (by simp [OutputSpill.new]), foldl_write, h.buffered]
    rfl
  refine ⟨?_, ?_, ?_, ?_, ?_, Bool.noConfusion, Bool.noConfusion, hover⟩
  · simp only [SpillingAccumulator.ensureTempFile, hopen]
  · simp only [SpillingAccumulator.ensureTempFile, hopen]
    rfl
  · simp only [SpillingAccumulator.ensureTempFile, hopen]
    rfl
  · simp only [SpillingAccumulator.ensureTempFile, hopen]
    rfl
  · exact fun _ => nil_append _

namespace Opened

variable {s : State} {w : WriteStream}

theorem with_acc (h : Opened s w) {acc : SpillingAccumulator} (hspill : acc.spill = s.acc.spill)
    (hfinished : s.acc.finished = true → acc.finished = true) (hover : acc.shouldUseTempFile = true) :
    Opened { s with acc } w := by
  refine ⟨?_, ?_, ?_, ?_, h.written, fun hended => hfinished (h.ended hended), h.closed, hover⟩
  · rw [hspill, h.streams]
  · rw [hspill, h.failed]
  · rw [hspill, h.path]
  · rw [hspill, h.stream]

theorem not_ended (h : Opened s w) (hfinished : s.acc.finished = false) : w.ended = false := by
  rw [← Bool.not_eq_true]
  intro hended
  have := h.ended hended
  rw [hfinished] at this
  cases this

theorem ensureTempFile (h : Opened s w) (hopen : w.ended = false) : s.acc.ensureTempFile.spill = s.acc.spill := by
  rw [SpillingAccumulator.ensureTempFile, openSpill, if_pos]
  rw [h.stream, h.failed, hopen]
  cases w.errored with
  | true => exact .inr rfl
  | false => exact .inl rfl

theorem write (h : Opened s w) (hopen : w.ended = false) (data : List UInt8) :
    Opened { acc := { s.acc with spill := s.acc.spill.write data }, chunks := s.chunks ++ [data] }
      (if w.errored then w else w.write data) := by
  have hstream := h.stream
  rw [hopen] at hstream
  cases herrored : w.errored with
  | true =>
    have hsame : s.acc.spill.write data = s.acc.spill := by rw [OutputSpill.write, hstream, herrored]; rfl
    rw [if_pos rfl, hsame]
    refine ⟨h.streams, h.failed, h.path, h.stream, fun hok => ?_, h.ended, h.closed, h.overLimit⟩
    rw [herrored] at hok
    cases hok
  | false =>
    have hwrite : s.acc.spill.write data = { s.acc.spill with streams := [w.write data] } := by
      rw [herrored] at hstream
      have hstream : s.acc.spill.stream = some 0 := hstream
      simp only [OutputSpill.write, hstream, h.streams]
      rfl
    rw [if_neg Bool.noConfusion, hwrite]
    refine ⟨rfl, h.failed, h.path, h.stream, fun _ => ?_, h.ended, fun hclosed => ?_, h.overLimit⟩
    · have hwritten := h.written herrored
      simp only [WriteStream.write, flatten_append, flatten_singleton, ← hwritten, append_assoc]
    · obtain hfailed | ⟨hended, -⟩ := h.closed hclosed
      · exact .inl hfailed
      · rw [hopen] at hended
        cases hended

end Opened

/-! ## Steps -/

theorem inv_new (options : OutputAccumulatorOptions) : Inv (State.new options) :=
  .inl ⟨rfl, rfl, Bool.noConfusion⟩

theorem append_totals {acc decoded : OutputAccumulator} {data : List UInt8} (h : acc.append data = .ok decoded) :
    acc.finished = false ∧ decoded.finished = false ∧ decoded.maxLines = acc.maxLines ∧
    decoded.maxBytes = acc.maxBytes ∧ acc.totalDecodedBytes ≤ decoded.totalDecodedBytes ∧
    acc.totalLines ≤ decoded.totalLines := by
  rw [OutputAccumulator.append] at h
  cases hfinished : acc.finished with
  | true =>
    rw [if_pos hfinished] at h
    cases h
  | false =>
    rw [if_neg (by rw [hfinished]; exact Bool.noConfusion)] at h
    cases h
    obtain ⟨hlines, hbytes, hdecoded, htotal⟩ := appendDecodedText_totals
      { acc with decoder := (acc.decoder.decodeStream data).2 } (acc.decoder.decodeStream data).1
    obtain ⟨-, hframe⟩ := OutputAccumulator.appendDecodedText_frame
      { acc with decoder := (acc.decoder.decodeStream data).2 } (acc.decoder.decodeStream data).1
    exact ⟨rfl, hframe.trans hfinished, hlines, hbytes, hdecoded, htotal⟩

theorem finish_totals {acc : OutputAccumulator} (h : acc.finished = false) :
    acc.finish.finished = true ∧ acc.finish.maxLines = acc.maxLines ∧ acc.finish.maxBytes = acc.maxBytes ∧
    acc.totalDecodedBytes ≤ acc.finish.totalDecodedBytes ∧ acc.totalLines ≤ acc.finish.totalLines := by
  rw [OutputAccumulator.finish, if_neg (by rw [h]; exact Bool.noConfusion)]
  obtain ⟨-, hframe⟩ := OutputAccumulator.appendDecodedText_frame { acc with finished := true } acc.decoder.decodeEnd
  exact ⟨hframe, appendDecodedText_totals { acc with finished := true } acc.decoder.decodeEnd⟩

variable {s : State}

theorem inv_append (h : Inv s) {data : List UInt8} {acc : SpillingAccumulator} (happend : s.acc.append data = .ok acc) :
    Inv { acc, chunks := s.chunks ++ [data] } := by
  rw [append] at happend
  split at happend
  · cases happend
  · rename_i decoded hdecoded
    obtain ⟨hbefore, hafter, hlines, hbytes, hmore, htotal⟩ := append_totals hdecoded
    generalize hacc : ({ s.acc with
      toOutputAccumulator := decoded
      totalRawBytes := s.acc.totalRawBytes + data.length } : SpillingAccumulator) = received at happend
    have hspill : received.spill = s.acc.spill := by rw [← hacc]
    have hraw : received.rawChunks = s.acc.rawChunks := by rw [← hacc]
    have hunfinished : received.finished = false := by rw [← hacc]; exact hafter
    simp only [] at happend
    obtain h | ⟨w, h⟩ := h
    · have hclosed : received.spill.isOpen = false := by rw [hspill, h.spill]; rfl
      rw [hclosed] at happend
      by_cases hover : received.shouldUseTempFile = true
      · rw [if_pos (.inr hover)] at happend
        cases happend
        have hopened := (h.open hspill hraw hover).write rfl data
        exact .inr ⟨_, hopened⟩
      · rw [if_neg (by rintro (hopen | hused); exacts [Bool.noConfusion hopen, hover hused])] at happend
        have hlate : ∀ {acc : SpillingAccumulator}, acc.finished = received.finished → acc.finished = true →
            acc.shouldUseTempFile = false := by
          intro acc hsame hfinished
          rw [hsame, hunfinished] at hfinished
          cases hfinished
        split at happend
        · cases happend
          refine .inl ⟨hspill.trans h.spill, ?_, hlate rfl⟩
          simp only [hraw, flatten_append, h.buffered]
        · rename_i hempty
          cases happend
          refine .inl ⟨hspill.trans h.spill, ?_, hlate rfl⟩
          have hnil : data = [] := length_eq_zero_iff.1 (Nat.eq_zero_of_not_pos hempty)
          rw [hraw, h.buffered, hnil, flatten_append]
          simp
    · have hopen := h.not_ended hbefore
      have hover : received.shouldUseTempFile = true := by
        rw [← hacc]
        exact shouldUseTempFile_mono h.overLimit hlines hbytes (Nat.le_add_right _ _) hmore htotal
      rw [if_pos (.inr hover)] at happend
      cases happend
      have hcarried : Opened { s with acc := received } w :=
        h.with_acc hspill (fun hfinished => by rw [hbefore] at hfinished; cases hfinished) hover
      have hensured : Opened { s with acc := received.ensureTempFile } w :=
        h.with_acc ((hcarried.ensureTempFile hopen).trans hspill)
          (fun hfinished => by rw [hbefore] at hfinished; cases hfinished) hover
      exact .inr ⟨_, hensured.write hopen data⟩

theorem inv_finish (h : Inv s) : Inv { s with acc := s.acc.finish } := by
  rw [finish]
  split
  · exact h
  · rename_i hfinished
    rw [Bool.not_eq_true] at hfinished
    obtain ⟨hafter, hlines, hbytes, hmore, htotal⟩ := finish_totals hfinished
    generalize hacc : ({ s.acc with
      toOutputAccumulator := s.acc.toOutputAccumulator.finish } : SpillingAccumulator) = ended
    have hspill : ended.spill = s.acc.spill := by rw [← hacc]
    have hraw : ended.rawChunks = s.acc.rawChunks := by rw [← hacc]
    simp only []
    obtain h | ⟨w, h⟩ := h
    · split
      · rename_i hover
        exact .inr ⟨_, h.open hspill hraw hover⟩
      · rename_i hover
        rw [Bool.not_eq_true] at hover
        exact .inl ⟨hspill.trans h.spill, by rw [hraw, h.buffered], fun _ => hover⟩
    · have hopen := h.not_ended hfinished
      have hover : ended.shouldUseTempFile = true := by
        rw [← hacc]
        exact shouldUseTempFile_mono h.overLimit hlines hbytes (Nat.le_refl _) hmore htotal
      have hdone : ended.finished = true := by
        rw [← hacc]
        exact hafter
      rw [if_pos hover]
      have hcarried : Opened { s with acc := ended } w := h.with_acc hspill (fun _ => hdone) hover
      exact .inr ⟨w, h.with_acc ((hcarried.ensureTempFile hopen).trans hspill) (fun _ => hdone) hover⟩

theorem inv_closeTempFile (h : Inv s) (hfinished : s.acc.finished = true) :
    Inv { s with acc := s.acc.closeTempFile } := by
  obtain h | ⟨w, h⟩ := h
  · have hsame : s.acc.spill.finalize = s.acc.spill := by rw [h.spill]; rfl
    exact .inl ⟨hsame.trans h.spill, h.buffered, h.within⟩
  · by_cases hstream : w.errored = true ∨ w.ended = true
    · have hsame : s.acc.spill.finalize = s.acc.spill := by
        rw [finalize, h.stream, if_pos hstream]
      exact .inr ⟨w, h.with_acc hsame id h.overLimit⟩
    · have hstream' := h.stream
      rw [if_neg hstream] at hstream'
      rw [not_or, Bool.not_eq_true, Bool.not_eq_true] at hstream
      have hclosed : w.closed = false := by
        rw [← Bool.not_eq_true]
        intro hclosed
        obtain herrored | ⟨hended, -⟩ := h.closed hclosed
        · rw [hstream.1] at herrored
          cases herrored
        · rw [hstream.2] at hended
          cases hended
      have hfinal : s.acc.spill.finalize =
          { s.acc.spill with stream := none, streams := [{ w with ended := true }] } := by
        simp only [finalize, hstream', h.streams, modify_zero_cons, hclosed, Bool.false_eq_true, if_false]
      refine .inr ⟨{ w with ended := true }, ?_⟩
      rw [closeTempFile, hfinal]
      refine ⟨rfl, h.failed, h.path, ?_, h.written, fun _ => hfinished, fun hclose => ?_, h.overLimit⟩
      · rw [if_pos (.inr rfl)]
      · have hclose : w.closed = true := hclose
        rw [hclosed] at hclose
        cases hclose

theorem Opened.of_getElem? {w w' : WriteStream} {i : Nat} (h : Opened s w) (hi : s.acc.spill.streams[i]? = some w') :
    i = 0 ∧ w' = w := by
  rw [h.streams] at hi
  cases i with
  | zero => exact ⟨rfl, (Option.some.inj hi).symm⟩
  | succ i => cases hi

theorem inv_stream (h : Inv s) {i : Nat} {w : WriteStream} (hi : s.acc.spill.streams[i]? = some w) :
    Opened s w ∧ i = 0 := by
  obtain h | ⟨w', h⟩ := h
  · rw [h.spill] at hi
    cases hi
  · obtain ⟨hzero, rfl⟩ := h.of_getElem? hi
    exact ⟨h, hzero⟩

theorem inv_step {s' : State} {a : Action} (hguard : s.FinishFirst a) (hstep : s.step a = some s') (h : Inv s) :
    Inv s' := by
  cases a with
  | append data =>
    rw [State.step] at hstep
    split at hstep
    · cases hstep
      exact h
    · rename_i acc happend
      cases hstep
      exact inv_append h happend
  | finish =>
    cases hstep
    exact inv_finish h
  | closeTempFile =>
    cases hstep
    exact inv_closeTempFile h hguard
  | flush i n =>
    rw [State.step] at hstep
    split at hstep
    · cases hstep
    · rename_i w hi
      split at hstep
      · cases hstep
      · rename_i hlive
        cases hstep
        obtain ⟨h, rfl⟩ := inv_stream h hi
        refine .inr ⟨{ w with content := w.content ++ w.pending.take n, pending := w.pending.drop n }, ?_⟩
        refine ⟨?_, h.failed, h.path, h.stream, fun hok => ?_, h.ended, fun hclosed => ?_, h.overLimit⟩
        · simp only [State.modifyStream, h.streams, modify_zero_cons]
        · rw [append_assoc, take_append_drop]
          exact h.written hok
        · exact absurd (.inr hclosed) hlive
  | error i =>
    rw [State.step] at hstep
    split at hstep
    · cases hstep
    · rename_i w hi
      split at hstep
      · cases hstep
      · cases hstep
        obtain ⟨h, rfl⟩ := inv_stream h hi
        refine .inr ⟨{ w with errored := true }, ?_, rfl, rfl, ?_, Bool.noConfusion, h.ended, fun _ => .inl rfl,
          h.overLimit⟩
        · simp only [onError, h.streams, modify_zero_cons]
        · have hstream : s.acc.spill.stream = none ∨ s.acc.spill.stream = some 0 := by
            rw [h.stream]
            split
            · exact .inl rfl
            · exact .inr rfl
          rw [if_pos (.inl rfl)]
          obtain hstream | hstream := hstream
          · simp only [onError, hstream]
            rfl
          · simp only [onError, hstream, if_true]
  | close i removed =>
    rw [State.step] at hstep
    split at hstep
    · cases hstep
    · rename_i w hi
      split at hstep
      · rename_i hready
        cases hstep
        obtain ⟨h, rfl⟩ := inv_stream h hi
        refine .inr ⟨{ w with closed := true, removed := w.errored && removed }, ?_, h.failed, h.path, h.stream,
          h.written, h.ended, fun _ => hready.2, h.overLimit⟩
        simp only [State.modifyStream, h.streams, modify_zero_cons]
      · cases hstep

/-- Whenever the file was opened: once it is closed it holds every chunk from the first one on, unless its stream
failed, and then its path is withdrawn. A path that is given out is that of the file that gets all chunks, and at
the end there is one exactly when the output is over a limit. -/
theorem spill_complete (options : OutputAccumulatorOptions) {s : State}
    (h : Transition.GuardedRuns State.step State.FinishFirst (State.new options) s) :
    (∀ w ∈ s.acc.spill.streams, w.closed = true → w.errored = false → w.content = s.chunks.flatten) ∧
    (∀ w ∈ s.acc.spill.streams, w.errored = true → s.acc.fullOutputPath = none) ∧
    (∀ i, s.acc.fullOutputPath = some i → ∃ w, s.acc.spill.streams = [w] ∧ i = 0 ∧
      w.content ++ w.pending = s.chunks.flatten) ∧ s.acc.spill.streams.length ≤ 1 ∧
    (s.acc.finished = true → (s.acc.spill.streams ≠ [] ↔ s.acc.shouldUseTempFile = true)) := by
  have hinv : Inv s := h.keeps (inv_new options) fun _ _ _ hs hguard hstep => inv_step hguard hstep hs
  obtain h | ⟨w, h⟩ := hinv
  · have hstreams : s.acc.spill.streams = [] := by rw [h.spill]; rfl
    have hpath : s.acc.fullOutputPath = none := by
      rw [fullOutputPath, h.spill]
      rfl
    rw [hstreams, hpath]
    refine ⟨?_, fun _ _ _ => rfl, ?_, Nat.zero_le 1, fun hfinished => ?_⟩
    · intro w hw
      cases hw
    · intro i hi
      cases hi
    · rw [h.within hfinished]
      exact iff_of_false (fun hne => hne rfl) Bool.noConfusion
  · have hpath : s.acc.fullOutputPath = if w.errored then none else some 0 := h.path
    rw [h.streams]
    refine ⟨?_, ?_, ?_, Nat.le_refl 1, fun _ => iff_of_true (cons_ne_nil w []) h.overLimit⟩
    · intro w' hw hclosed herrored
      obtain rfl := mem_singleton.1 hw
      obtain hfailed | ⟨-, hpending⟩ := h.closed hclosed
      · rw [herrored] at hfailed
        cases hfailed
      · rw [← h.written herrored, hpending, append_nil]
    · intro w' hw herrored
      obtain rfl := mem_singleton.1 hw
      rw [hpath, if_pos herrored]
    · intro i hi
      rw [hpath] at hi
      split at hi
      · cases hi
      · rename_i herrored
        cases hi
        exact ⟨w, rfl, rfl, h.written (Bool.not_eq_true _ ▸ herrored)⟩

/-- Two chunks of which the second is over the limit, and a third: the file has all three. -/
theorem spill_complete_third : ∃ s : State, s.chunks = [[97], [98, 98, 98], [99]] ∧
    ∃ w ∈ s.acc.spill.streams, w.content = [97, 98, 98, 98, 99] := by
  obtain ⟨s, hrun, htest⟩ := @Transition.exists_guardedRun State Action State.step State.FinishFirst
    (State.new { maxLines := some 10, maxBytes := some 3 }) _
    [.append [97], .append [98, 98, 98], .flush 0 2, .append [99], .finish, .closeTempFile, .flush 0 3, .close 0 false]
    (fun s => decide (s.chunks = [[97], [98, 98, 98], [99]]) &&
      s.acc.spill.streams.any fun w => w.closed && !w.errored) (by decide)
  rw [Bool.and_eq_true, decide_eq_true_iff, any_eq_true] at htest
  obtain ⟨hchunks, w, hw, hclosed⟩ := htest
  rw [Bool.and_eq_true, Bool.not_eq_true'] at hclosed
  refine ⟨s, hchunks, w, hw, ?_⟩
  rw [(spill_complete { maxLines := some 10, maxBytes := some 3 } hrun).1 w hw hclosed.1 hclosed.2, hchunks]
  rfl

end OutputSpill
end Tools
end RePrime
