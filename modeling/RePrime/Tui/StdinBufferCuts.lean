import RePrime.Tui.StdinBuffer

/-!
# RePrime.Tui.StdinBufferCuts

What the input buffer emits for a stream, however the stream is cut into chunks.

* `readText`: a whole stream as its events, and what is left at its end. `process_eq`: `process` on what is held
  and a chunk reads the two together.
* `PastesStartClean`: no paste starts in the middle of an escape sequence.
* `readText_append`: of such a stream, the rest can be read with what was left.
* `nothingLost_iff`: every cut gives the events of the uncut stream, and they give the stream back, for exactly
  these streams.
-/

namespace RePrime
namespace Tui
namespace StdinBuffer

open Delimiter

open List hiding find?
open JsText (ofAscii indexOf)
open Delimiter (find?)

theorem indexOf_eq_find? (t s : JsString) : indexOf t s = find? t s := by
  induction s with
  | nil => rfl
  | cons u s ih => rw [indexOf, find?, ih]

/-! ### The sequences of a text -/

variable {s : JsString}

theorem extract_of_wait (h : nextSequence s = .wait) : extractCompleteSequences s = ⟨[], s⟩ := by
  rw [extractCompleteSequences_eq, Incremental.drain_wait (r := sequenceReader) h]

theorem extract_item {x rest : JsString} (h : nextSequence s = .item x rest) :
    extractCompleteSequences s = .after [x] (extractCompleteSequences rest) := by
  rw [extractCompleteSequences_eq, extractCompleteSequences_eq rest, Incremental.drain_item (r := sequenceReader) h]
  rfl

theorem extract_induction {P : JsString → Prop} (wait : ∀ s, nextSequence s = .wait → P s)
    (item : ∀ s x rest, nextSequence s = .item x rest → P rest → P s) (s : JsString) : P s := by
  induction s using Incremental.drain_induction (r := sequenceReader) with
  | item s x rest h ih => exact item s x rest h ih
  | wait s h => exact wait s h
  | failure s e h => exact absurd h (nextSequence_ne_failure s e)

theorem nextSequence_remainder (s : JsString) : nextSequence (extractCompleteSequences s).remainder = .wait := by
  induction s using extract_induction with
  | wait s h =>
    rw [extract_of_wait h]
    exact h
  | item s x rest h ih =>
    rw [extract_item h]
    exact ih

theorem extract_flatten (s : JsString) :
    (extractCompleteSequences s).sequences.flatten ++ (extractCompleteSequences s).remainder = s := by
  induction s using extract_induction with
  | wait s h => rw [extract_of_wait h, flatten_nil, nil_append]
  | item s x rest h ih =>
    rw [extract_item h, Extracted.after]
    simp only [cons_append, nil_append, flatten_cons, append_assoc, ih]
    exact (nextSequence_item h).1.symm

theorem extract_taken (s more : JsString) :
    extractCompleteSequences ((extractCompleteSequences s).sequences.flatten ++ more) =
      .after (extractCompleteSequences s).sequences (extractCompleteSequences more) := by
  induction s using extract_induction with
  | wait s h =>
    rw [extract_of_wait h]
    rfl
  | item s x rest h ih =>
    rw [extract_item h, Extracted.after]
    simp only [cons_append, nil_append, flatten_cons, append_assoc]
    rw [extract_item (nextSequence_whole h _), ih]
    rfl

theorem extract_append (s more : JsString) :
    extractCompleteSequences (s ++ more) = .after (extractCompleteSequences s).sequences
      (extractCompleteSequences ((extractCompleteSequences s).remainder ++ more)) := by
  have h := extract_taken s ((extractCompleteSequences s).remainder ++ more)
  rwa [← append_assoc, extract_flatten] at h

variable {t : JsString}

theorem wait_of_start (h : nextSequence t = .wait) (hs : s <+: t) : nextSequence s = .wait := by
  obtain ⟨more, rfl⟩ := hs
  cases hfind : nextSequence s with
  | wait => rfl
  | item x rest =>
    rw [nextSequence_append hfind more] at h
    cases h
  | failure e => exact absurd hfind (nextSequence_ne_failure s e)

theorem head_of_wait {u : UInt16} (h : nextSequence (u :: s) = .wait) : u = esc := by
  rw [nextSequence] at h
  split at h
  · assumption
  · cases h

/-! ### A whole stream -/

/-- The events, and what is left: text in a paste, or an incomplete sequence. -/
structure Reading where
  events : List Event
  inPaste : Bool
  rest : JsString

def Reading.after (events : List Event) (r : Reading) : Reading := { r with events := events ++ r.events }

def readText (inPaste : Bool) (s : JsString) : Reading :=
  match inPaste with
  | false =>
    match _h : find? pasteStart s with
    | none =>
      let result := extractCompleteSequences s
      ⟨result.sequences.map .data, false, result.remainder⟩
    | some i =>
      .after ((extractCompleteSequences (s.take i)).sequences.map .data)
        (readText true (s.drop (i + pasteStart.length)))
  | true =>
    match _h : find? pasteEnd s with
    | none => ⟨[], true, s⟩
    | some j => .after [.paste (s.take j)] (readText false (s.drop (j + pasteEnd.length)))
termination_by s.length
decreasing_by
  all_goals
    have hlen := (find?_eq_some _h).2.1
    simp only [pasteStart, pasteEnd, ofAscii, length_drop, length_map] at *
    simp at *
    omega

theorem readText_plain (h : find? pasteStart s = none) :
    readText false s = ⟨(extractCompleteSequences s).sequences.map .data, false,
      (extractCompleteSequences s).remainder⟩ := by
  rw [readText]
  split
  · rfl
  · rename_i h'
    rw [h] at h'
    cases h'

variable {i : Nat}

theorem readText_start (h : find? pasteStart s = some i) :
    readText false s = .after ((extractCompleteSequences (s.take i)).sequences.map .data)
      (readText true (s.drop (i + pasteStart.length))) := by
  rw [readText]
  split
  · rename_i h'
    rw [h] at h'
    cases h'
  · rename_i h'
    rw [h] at h'
    cases h'
    rfl

theorem readText_open (h : find? pasteEnd s = none) : readText true s = ⟨[], true, s⟩ := by
  rw [readText]
  split
  · rfl
  · rename_i h'
    rw [h] at h'
    cases h'

variable {j : Nat}

theorem readText_end (h : find? pasteEnd s = some j) :
    readText true s = .after [.paste (s.take j)] (readText false (s.drop (j + pasteEnd.length))) := by
  conv_lhs => rw [readText]
  split
  · rename_i h'
    rw [h] at h'
    cases h'
  · rename_i h'
    rw [h] at h'
    cases h'
    rfl

theorem pasteStart_length : pasteStart.length = 6 := rfl

theorem pasteEnd_length : pasteEnd.length = 6 := rfl

theorem readText_induction {P : Bool → JsString → Prop} (plain : ∀ s, find? pasteStart s = none → P false s)
    (start : ∀ s i, find? pasteStart s = some i → P true (s.drop (i + pasteStart.length)) → P false s)
    (opened : ∀ s, find? pasteEnd s = none → P true s)
    (stop : ∀ s j, find? pasteEnd s = some j → P false (s.drop (j + pasteEnd.length)) → P true s)
    (inPaste : Bool) (s : JsString) : P inPaste s := by
  generalize hn : s.length = n
  induction n using Nat.strong_induction_on generalizing inPaste s with
  | _ n ih =>
    cases inPaste with
    | false =>
      cases h : find? pasteStart s with
      | none => exact plain s h
      | some i =>
        have hlen := (find?_eq_some h).2.1
        rw [pasteStart_length] at hlen
        exact start s i h (ih _ (by rw [← hn, length_drop, pasteStart_length]; omega) true _ rfl)
    | true =>
      cases h : find? pasteEnd s with
      | none => exact opened s h
      | some j =>
        have hlen := (find?_eq_some h).2.1
        rw [pasteEnd_length] at hlen
        exact stop s j h (ih _ (by rw [← hn, length_drop, pasteEnd_length]; omega) false _ rfl)

/-- Where a paste starts, the text before it is a sequence of complete sequences. -/
inductive PastesStartClean : Bool → JsString → Prop where
  | plain {s : JsString} : find? pasteStart s = none → PastesStartClean false s
  | start {s : JsString} {i : Nat} : find? pasteStart s = some i →
      (extractCompleteSequences (s.take i)).remainder = [] →
      PastesStartClean true (s.drop (i + pasteStart.length)) → PastesStartClean false s
  | opened {s : JsString} : find? pasteEnd s = none → PastesStartClean true s
  | stop {s : JsString} {j : Nat} : find? pasteEnd s = some j →
      PastesStartClean false (s.drop (j + pasteEnd.length)) → PastesStartClean true s

theorem PastesStartClean.start_inv (h : PastesStartClean false s) (hi : find? pasteStart s = some i) :
    (extractCompleteSequences (s.take i)).remainder = [] ∧
      PastesStartClean true (s.drop (i + pasteStart.length)) := by
  cases h with
  | plain hnone =>
    rw [hi] at hnone
    cases hnone
  | start hi' hclean hrest =>
    rw [hi] at hi'
    cases hi'
    exact ⟨hclean, hrest⟩

theorem PastesStartClean.stop_inv (h : PastesStartClean true s)
    (hj : find? pasteEnd s = some j) : PastesStartClean false (s.drop (j + pasteEnd.length)) := by
  cases h with
  | opened hnone =>
    rw [hj] at hnone
    cases hnone
  | stop hj' hrest =>
    rw [hj] at hj'
    cases hj'
    exact hrest

theorem wait_of_marker {p : JsString} (hp : p <+: pasteStart) (hlen : p.length < pasteStart.length) :
    nextSequence p = .wait := by
  rw [pasteStart_length] at hlen
  rw [prefix_iff_eq_take.1 hp]
  generalize p.length = n at hlen
  have hall : ∀ n < 6, sequenceEnd (pasteStart.take n) = none := by decide
  cases n with
  | zero => rfl
  | succ n =>
    have h := hall (n + 1) hlen
    change sequenceEnd (esc :: _) = none at h
    change nextSequence (esc :: _) = .wait
    rw [nextSequence, if_pos rfl, h]

variable {a b : JsString}

/-- No paste starts in the sequences that were taken before all of it is there. -/
theorem find?_taken (ha : find? pasteStart a = none) (hclean : PastesStartClean false (a ++ b)) :
    find? pasteStart (a ++ b) = (find? pasteStart ((extractCompleteSequences a).remainder ++ b)).map
      (· + (extractCompleteSequences a).sequences.flatten.length) := by
  have hsplit : a ++ b = (extractCompleteSequences a).sequences.flatten ++
      ((extractCompleteSequences a).remainder ++ b) := by
    rw [← append_assoc, extract_flatten]
  rw [hsplit]
  refine find?_append_of_absent _ fun j hj hfound => ?_
  rw [← drop_append_of_le_length (by omega), ← hsplit] at hfound
  -- the first one begins in `a`, and ends after it
  cases hfind : find? pasteStart (a ++ b) with
  | none =>
    refine find?_eq_none hfind j ?_ hfound
    rw [hsplit, length_append]
    omega
  | some i =>
    obtain ⟨hi, hilen, hearlier⟩ := find?_eq_some hfind
    have hij : i ≤ j := by
      by_contra hlt
      exact hearlier j (by omega) hfound
    have htaken : (extractCompleteSequences a).sequences.flatten.length +
        (extractCompleteSequences a).remainder.length = a.length := by
      rw [← length_append, extract_flatten]
    rw [drop_append_of_le_length (by omega)] at hi
    have hshort : (a.drop i).length < pasteStart.length := by
      by_contra hge
      have hwhole : pasteStart <+: a.drop i := prefix_of_prefix_length_le hi (prefix_append _ _) (by omega)
      exact find?_eq_none ha i (by omega) hwhole
    have hbegun : a.drop i <+: pasteStart := prefix_of_prefix_length_le (prefix_append _ b) hi (by omega)
    have hrem := (hclean.start_inv hfind).1
    rw [take_append_of_le_length (by omega)] at hrem
    have hread := extract_append (a.take i) (a.drop i)
    rw [take_append_drop, hrem, nil_append, extract_of_wait (wait_of_marker hbegun hshort)] at hread
    have hlen : (extractCompleteSequences a).remainder.length = a.length - i := by
      rw [hread]
      exact length_drop
    omega

/-- The second part is read with what the first one left. -/
structure Resumes (inPaste : Bool) (a b : JsString) : Prop where
  reads : readText inPaste (a ++ b) =
    .after (readText inPaste a).events (readText (readText inPaste a).inPaste ((readText inPaste a).rest ++ b))
  before : PastesStartClean inPaste a
  after : PastesStartClean (readText inPaste a).inPaste ((readText inPaste a).rest ++ b)

theorem resumes_plain (ha : find? pasteStart a = none)
    (hclean : PastesStartClean false (a ++ b)) : Resumes false a b := by
  have hfind := find?_taken ha hclean
  have hsplit : a ++ b = (extractCompleteSequences a).sequences.flatten ++
      ((extractCompleteSequences a).remainder ++ b) := by
    rw [← append_assoc, extract_flatten]
  have htake : ∀ k, (a ++ b).take (k + (extractCompleteSequences a).sequences.flatten.length) =
      (extractCompleteSequences a).sequences.flatten ++ ((extractCompleteSequences a).remainder ++ b).take k := by
    intro k
    rw [hsplit, Nat.add_comm]
    exact take_length_add_append k
  have hdrop : ∀ k, (a ++ b).drop (k + (extractCompleteSequences a).sequences.flatten.length) =
      ((extractCompleteSequences a).remainder ++ b).drop k := by
    intro k
    rw [hsplit, Nat.add_comm]
    exact drop_length_add_append k
  have hread := readText_plain ha
  cases hrest : find? pasteStart ((extractCompleteSequences a).remainder ++ b) with
  | none =>
    rw [hrest, Option.map_none] at hfind
    refine ⟨?_, .plain ha, ?_⟩
    · rw [hread, readText_plain hfind, readText_plain hrest, extract_append]
      simp only [Reading.after, Extracted.after, map_append]
    · rw [hread]
      exact .plain hrest
  | some k =>
    rw [hrest, Option.map_some] at hfind
    obtain ⟨hrem, hafter⟩ := hclean.start_inv hfind
    rw [htake, extract_taken] at hrem
    rw [Nat.add_right_comm, hdrop] at hafter
    refine ⟨?_, .plain ha, ?_⟩
    · rw [hread, readText_start hfind, readText_start hrest, htake, extract_taken, Nat.add_right_comm, hdrop]
      simp only [Reading.after, Extracted.after, map_append, append_assoc]
    · rw [hread]
      exact .start hrest hrem hafter

variable {inPaste : Bool}

theorem readText_append (hclean : PastesStartClean inPaste (a ++ b)) : Resumes inPaste a b := by
  induction inPaste, a using readText_induction with
  | plain a ha => exact resumes_plain ha hclean
  | start a i hi ih =>
    have hi' := find?_append b hi
    have hlen := (find?_eq_some hi).2.1
    obtain ⟨hrem, hrest⟩ := hclean.start_inv hi'
    rw [drop_append_of_le_length hlen] at hrest
    rw [take_append_of_le_length (by omega)] at hrem
    obtain ⟨hreads, hbefore, hafter⟩ := ih hrest
    have hread := readText_start hi
    refine ⟨?_, .start hi hrem hbefore, ?_⟩
    · rw [hread, readText_start hi', take_append_of_le_length (by omega), drop_append_of_le_length hlen, hreads]
      simp only [Reading.after, append_assoc]
    · rw [hread]
      exact hafter
  | opened a ha =>
    have hread := readText_open ha
    refine ⟨?_, .opened ha, ?_⟩
    · rw [hread]
      rfl
    · rw [hread]
      exact hclean
  | stop a j hj ih =>
    have hj' := find?_append b hj
    have hlen := (find?_eq_some hj).2.1
    have hrest := hclean.stop_inv hj'
    rw [drop_append_of_le_length hlen] at hrest
    obtain ⟨hreads, hbefore, hafter⟩ := ih hrest
    have hread := readText_end hj
    refine ⟨?_, .stop hj hbefore, ?_⟩
    · rw [hread, readText_end hj', take_append_of_le_length (by omega), drop_append_of_le_length hlen, hreads]
      simp only [Reading.after, append_assoc]
    · rw [hread]
      exact hafter

theorem readText_idle {p : JsString} (hp : p <+: (readText inPaste s).rest) :
    readText (readText inPaste s).inPaste p = ⟨[], (readText inPaste s).inPaste, p⟩ := by
  induction inPaste, s using readText_induction with
  | plain s hs =>
    rw [readText_plain hs] at hp ⊢
    have hpart : p <:+: s := by
      refine hp.isInfix.trans (List.IsSuffix.isInfix ⟨(extractCompleteSequences s).sequences.flatten, ?_⟩)
      exact extract_flatten s
    rw [readText_plain (find?_eq_none_of_absent fun h =>
        absurd (h.trans hpart) (absent_of_find?_eq_none hs)),
      extract_of_wait (wait_of_start (nextSequence_remainder s) hp)]
    rfl
  | start s i hi ih =>
    rw [readText_start hi] at hp ⊢
    exact ih hp
  | opened s hs =>
    rw [readText_open hs] at hp ⊢
    exact readText_open (find?_eq_none_of_absent fun h =>
      absurd (h.trans hp.isInfix) (absent_of_find?_eq_none hs))
  | stop s j hj ih =>
    rw [readText_end hj] at hp ⊢
    exact ih hp

theorem nextSequence_rest (h : (readText inPaste s).inPaste = false) :
    nextSequence (readText inPaste s).rest = .wait := by
  induction inPaste, s using readText_induction with
  | plain s hs =>
    rw [readText_plain hs]
    exact nextSequence_remainder s
  | start s i hi ih =>
    rw [readText_start hi] at h ⊢
    exact ih h
  | opened s hs =>
    rw [readText_open hs] at h
    cases h
  | stop s j hj ih =>
    rw [readText_end hj] at h ⊢
    exact ih h

/-! ### One chunk -/

/-- No text outside the pastes and the sequences looks like a paste of several lines. -/
def Quiet (inPaste : Bool) (s : JsString) : Prop :=
  ∀ a q b, s = a ++ q ++ b → (readText inPaste a).inPaste = false → (readText inPaste a).rest = [] →
    isRawMultilinePaste q = false

theorem Quiet.not_raw (h : Quiet false s) : isRawMultilinePaste s = false := by
  have hread : readText false [] = ⟨[], false, []⟩ := readText_plain (find?_nil_data (by decide))
  refine h [] s [] (by simp) ?_ ?_
  · rw [hread]
  · rw [hread]

theorem quiet_of_noBreak (h : s.all (fun u => !isLineBreak u) = true) : Quiet false s := by
  intro a q b hs _ _
  have hq : ∀ u ∈ q, isLineBreak u = false := by
    intro u hu
    have hmem : u ∈ s := by
      rw [hs]
      simp [hu]
    simpa using all_eq_true.1 h u hmem
  have hnone : enclosesLineBreak q = false := by
    clear hs
    induction q with
    | nil => rfl
    | cons u q ih =>
      have hrest : q.takeWhile isLineBreak = [] := by
        cases q with
        | nil => rfl
        | cons v q => rw [takeWhile_cons, hq v (by simp)]; rfl
      rw [enclosesLineBreak, hrest, ih fun v hv => hq v (mem_cons_of_mem _ hv)]
      simp
  rw [isRawMultilinePaste, hnone, Bool.and_false]

theorem Quiet.left (h : Quiet inPaste (s ++ t)) : Quiet inPaste s := by
  intro a q b hs ha hrest
  refine h a q (b ++ t) ?_ ha hrest
  rw [hs, append_assoc]

theorem split_later {q : JsString} {n : Nat} (h : s.drop n = a ++ q ++ b) :
    s = s.take (n + a.length) ++ q ++ b ∧ (s.take (n + a.length)).drop n = a := by
  constructor
  · have hdrop : s.drop (n + a.length) = q ++ b := by
      rw [← drop_drop, h, append_assoc, drop_left]
    rw [append_assoc, ← hdrop, take_append_drop]
  · rw [drop_take, h, Nat.add_sub_cancel_left, append_assoc, take_left]

theorem Quiet.start (h : Quiet false s) (hi : find? pasteStart s = some i) :
    Quiet true (s.drop (i + pasteStart.length)) := by
  intro a q b hs ha hrest
  have hlen := (find?_eq_some hi).2.1
  have hbefore := readText_start (find?_take (n := i + pasteStart.length + a.length) hi (by omega))
  obtain ⟨hsplit, hdrop⟩ := split_later hs
  rw [hdrop] at hbefore
  refine h _ q b hsplit ?_ ?_
  · rw [hbefore]
    exact ha
  · rw [hbefore]
    exact hrest

theorem Quiet.stop (h : Quiet true s) (hj : find? pasteEnd s = some j) :
    Quiet false (s.drop (j + pasteEnd.length)) := by
  intro a q b hs ha hrest
  have hlen := (find?_eq_some hj).2.1
  have hbefore := readText_end (find?_take (n := j + pasteEnd.length + a.length) hj (by omega))
  obtain ⟨hsplit, hdrop⟩ := split_later hs
  rw [hdrop] at hbefore
  refine h _ q b hsplit ?_ ?_
  · rw [hbefore]
    exact ha
  · rw [hbefore]
    exact hrest

theorem Quiet.resume (hclean : PastesStartClean inPaste (a ++ b))
    (h : Quiet inPaste (a ++ b)) : Quiet (readText inPaste a).inPaste ((readText inPaste a).rest ++ b) := by
  intro p q t hs hp hrest
  by_cases hlen : (readText inPaste a).rest.length ≤ p.length
  · -- the segment is in the second part
    obtain ⟨p, rfl⟩ : (readText inPaste a).rest <+: p := by
      refine prefix_of_prefix_length_le (prefix_append _ b) ?_ hlen
      rw [hs, append_assoc]
      exact prefix_append _ _
    have hb : b = p ++ q ++ t := by simpa using hs
    rw [hb] at h hclean
    rw [append_assoc p, ← append_assoc a] at h hclean
    have hreads := (readText_append (readText_append hclean).before).reads
    refine h (a ++ p) q t (append_assoc _ _ _).symm ?_ ?_
    · rw [hreads]
      exact hp
    · rw [hreads]
      exact hrest
  · -- it starts in what was left, which begins with an escape character
    have hpart : p <+: (readText inPaste a).rest := by
      refine prefix_of_prefix_length_le ?_ (prefix_append _ b) (by omega)
      rw [hs, append_assoc]
      exact prefix_append _ _
    have hidle := readText_idle hpart
    rw [hidle] at hp hrest
    dsimp only at hp hrest
    subst hrest
    cases q with
    | nil => rfl
    | cons u q =>
      have hu : (readText inPaste a).rest.head? = some u := by
        have hhead := congrArg List.head? hs
        rw [head?_append_of_ne_nil] at hhead
        · rw [hhead]
          rfl
        · intro hnil
          rw [hnil] at hlen
          simp at hlen
      have hwait := nextSequence_rest hp
      cases hr : (readText inPaste a).rest with
      | nil =>
        rw [hr] at hu
        cases hu
      | cons v r =>
        rw [hr] at hu hwait
        cases hu
        have hesc := head_of_wait hwait
        rw [isRawMultilinePaste, hesc]
        rfl

def Event.kittyCodepoint : Event → Option Nat
  | .data sequence => parseUnmodifiedKittyPrintableCodepoint sequence
  | .paste _ => none

/-- No sequence is one that announces a printable character. -/
def NoKitty (events : List Event) : Prop := ∀ e ∈ events, e.kittyCodepoint = none

instance (events : List Event) : Decidable (NoKitty events) :=
  inferInstanceAs (Decidable (∀ e ∈ events, e.kittyCodepoint = none))

theorem emitDataSequences_eq {sequences : List JsString} (h : NoKitty (sequences.map .data)) :
    emitDataSequences none sequences = (sequences.map .data, none) := by
  induction sequences with
  | nil => rfl
  | cons sequence rest ih =>
    have hhead : parseUnmodifiedKittyPrintableCodepoint sequence = none := h (.data sequence) (by simp)
    have hrest : NoKitty (rest.map .data) := fun s hs => h s (mem_cons_of_mem _ hs)
    have hfirst : emitDataSequence none sequence = ([.data sequence], none) := by
      rw [emitDataSequence]
      · rw [hhead]
      · intro u codepoint _ hpending
        cases hpending
    rw [emitDataSequences, hfirst]
    simp only [ih hrest]
    rfl

/-- The state with some text held back. -/
def State.holding (inPaste : Bool) (rest : JsString) : State :=
  if inPaste then ⟨[], true, rest, none⟩ else ⟨rest, false, [], none⟩

variable {r c : JsString}

theorem processOnce_paste (hc : c ≠ []) : processOnce (.holding true r) c = takePaste [] (r ++ c) none := by
  simp only [processOnce, hc, false_and, if_false]
  rfl

theorem processOnce_start (hc : c ≠ []) (hi : find? pasteStart (r ++ c) = some i) :
    processOnce (.holding false r) c =
      takePaste (emitDataSequences none (extractCompleteSequences ((r ++ c).take i)).sequences).1
        ((r ++ c).drop (i + pasteStart.length)) none := by
  have hindex : indexOf pasteStart ((State.holding false r).buffer ++ c) = some i := by
    rw [indexOf_eq_find?]
    exact hi
  simp only [processOnce, hc, false_and, if_false, hindex]
  rfl

theorem processOnce_plain (hc : c ≠ []) (hnone : find? pasteStart (r ++ c) = none)
    (hraw : isRawMultilinePaste (r ++ c) = false) : processOnce (.holding false r) c =
      { events := (emitDataSequences none (extractCompleteSequences (r ++ c)).sequences).1
        state := ⟨(extractCompleteSequences (r ++ c)).remainder, false, [],
          (emitDataSequences none (extractCompleteSequences (r ++ c)).sequences).2⟩
        remaining := [] } := by
  have hindex : indexOf pasteStart ((State.holding false r).buffer ++ c) = none := by
    rw [indexOf_eq_find?]
    exact hnone
  have hraw' : isRawMultilinePaste ((State.holding false r).buffer ++ c) = false := hraw
  simp only [processOnce, hc, false_and, if_false, hindex, hraw']
  rfl

/-- The rest of a call, and the calls after it, once a paste is open. -/
theorem paste_loop {fuel : Nat} {events : List Event} (hquiet : Quiet true t)
    (hkitty : NoKitty (readText true t).events) (hfuel : t.length ≤ fuel)
    (ih : ∀ s, s ≠ [] → s.length < fuel → Quiet false s → NoKitty (readText false s).events →
      processFrom fuel .initial s = ((readText false s).events,
        .holding (readText false s).inPaste (readText false s).rest)) :
    (if (takePaste events t none).remaining = [] then
        ((takePaste events t none).events, (takePaste events t none).state) else
        ((takePaste events t none).events ++
          (processFrom fuel (takePaste events t none).state (takePaste events t none).remaining).1,
        (processFrom fuel (takePaste events t none).state (takePaste events t none).remaining).2)) =
      (events ++ (readText true t).events, .holding (readText true t).inPaste (readText true t).rest) := by
  rw [takePaste, indexOf_eq_find?]
  cases hend : find? pasteEnd t with
  | none =>
    rw [readText_open hend, if_pos rfl, append_nil]
    rfl
  | some j =>
    have hlen := (find?_eq_some hend).2.1
    have hread := readText_end hend
    rw [hread] at hkitty ⊢
    by_cases hnil : t.drop (j + pasteEnd.length) = []
    · rw [if_pos hnil, hnil, readText_plain (find?_nil_data (by decide))]
      rfl
    · have hlater := ih (t.drop (j + pasteEnd.length)) hnil
        (by rw [length_drop, pasteEnd_length] at *; omega) (hquiet.stop hend)
        (fun s hs => hkitty s (mem_append_right _ hs))
      rw [if_neg hnil]
      change (events ++ [Event.paste (t.take j)] ++ (processFrom fuel .initial _).1,
        (processFrom fuel .initial _).2) = _
      rw [hlater]
      simp only [Reading.after, append_assoc]

theorem processFrom_eq {fuel : Nat} (hc : c ≠ []) (hfuel : (r ++ c).length < fuel) (hquiet : Quiet inPaste (r ++ c))
    (hkitty : NoKitty (readText inPaste (r ++ c)).events) :
    processFrom fuel (.holding inPaste r) c = ((readText inPaste (r ++ c)).events,
      .holding (readText inPaste (r ++ c)).inPaste (readText inPaste (r ++ c)).rest) := by
  induction fuel generalizing inPaste r c with
  | zero => omega
  | succ fuel ih =>
    have hlater : ∀ s, s ≠ [] → s.length < fuel → Quiet false s → NoKitty (readText false s).events →
        processFrom fuel .initial s = ((readText false s).events,
          .holding (readText false s).inPaste (readText false s).rest) := by
      intro s hs hlen hq hk
      exact @ih false [] s hs hlen hq hk
    have hlen : (r ++ c).length ≤ fuel := by omega
    rw [processFrom]
    cases inPaste with
    | true =>
      rw [processOnce_paste hc]
      exact paste_loop hquiet hkitty hlen hlater
    | false =>
      cases hstart : find? pasteStart (r ++ c) with
      | some i =>
        have hle := (find?_eq_some hstart).2.1
        have hread := readText_start hstart
        rw [hread] at hkitty
        rw [processOnce_start hc hstart, emitDataSequences_eq fun s hs => hkitty s (mem_append_left _ hs),
          hread]
        exact paste_loop (hquiet.start hstart) (fun s hs => hkitty s (mem_append_right _ hs))
          (by rw [length_drop]; omega) hlater
      | none =>
        have hread := readText_plain hstart
        rw [hread] at hkitty ⊢
        rw [processOnce_plain hc hstart hquiet.not_raw, emitDataSequences_eq hkitty]
        rfl

theorem process_eq (hc : c ≠ []) (hquiet : Quiet inPaste (r ++ c))
    (hkitty : NoKitty (readText inPaste (r ++ c)).events) :
    process (.holding inPaste r) c = ((readText inPaste (r ++ c)).events,
      .holding (readText inPaste (r ++ c)).inPaste (readText inPaste (r ++ c)).rest) := by
  refine processFrom_eq hc ?_ hquiet hkitty
  cases inPaste with
  | true | false => simp [State.holding]

/-- The chunks of a stream whose pastes start clean are read as the stream. -/
theorem processAll_eq {chunks : List JsString} {inPaste : Bool} {r : JsString} (hne : ∀ c ∈ chunks, c ≠ [])
    (hidle : readText inPaste r = ⟨[], inPaste, r⟩) (hclean : PastesStartClean inPaste (r ++ chunks.flatten))
    (hquiet : Quiet inPaste (r ++ chunks.flatten))
    (hkitty : NoKitty (readText inPaste (r ++ chunks.flatten)).events) :
    processAll (.holding inPaste r) chunks = ((readText inPaste (r ++ chunks.flatten)).events,
      .holding (readText inPaste (r ++ chunks.flatten)).inPaste (readText inPaste (r ++ chunks.flatten)).rest) := by
  induction chunks generalizing inPaste r with
  | nil =>
    rw [flatten_nil, append_nil, hidle]
    rfl
  | cons c chunks ih =>
    rw [flatten_cons, ← append_assoc] at hclean hquiet hkitty ⊢
    obtain ⟨hreads, -, hafter⟩ := readText_append hclean
    have hlater := hquiet.resume hclean
    rw [hreads] at hkitty
    have hfirst := process_eq (hne c mem_cons_self) hquiet.left
      (fun s hs => hkitty s (mem_append_left _ hs))
    have hrest := ih (fun c' hc' => hne c' (mem_cons_of_mem _ hc')) (readText_idle prefix_rfl)
      hafter hlater (fun s hs => hkitty s (mem_append_right _ hs))
    rw [processAll, hfirst]
    simp only [hrest, hreads]
    rfl

/-! ### The text of the events -/

/-- What was emitted, a paste with its markers. -/
def Event.text : Event → JsString
  | .data sequence => sequence
  | .paste content => pasteStart ++ content ++ pasteEnd

/-- What is still held, a paste with the marker that opened it. -/
def State.remaining (s : State) : JsString := if s.pasteMode then pasteStart ++ s.pasteBuffer else s.buffer

def openMarker (inPaste : Bool) : JsString := if inPaste then pasteStart else []

def Reading.text (r : Reading) : JsString := (r.events.map Event.text).flatten ++ openMarker r.inPaste ++ r.rest

theorem remaining_holding (inPaste : Bool) (r : JsString) :
    (State.holding inPaste r).remaining = openMarker inPaste ++ r := by
  cases inPaste with
  | true | false => rfl

theorem text_data (sequences : List JsString) :
    ((sequences.map Event.data).map Event.text).flatten = sequences.flatten := by
  rw [map_map]
  congr 1
  exact map_id _

theorem text_after (events : List Event) (r : Reading) :
    (r.after events).text = (events.map Event.text).flatten ++ r.text := by
  simp only [Reading.text, Reading.after, map_append, flatten_append, append_assoc]

theorem split_marker {marker : JsString} (h : find? marker s = some i) :
    s = s.take i ++ (marker ++ s.drop (i + marker.length)) := by
  have hsplit := (first_of_find? h).split
  rwa [append_assoc] at hsplit

theorem readText_text_le (inPaste : Bool) (s : JsString) :
    (readText inPaste s).text.length ≤ (openMarker inPaste ++ s).length := by
  induction inPaste, s using readText_induction with
  | plain s hs =>
    have hflat := congrArg List.length (extract_flatten s)
    rw [readText_plain hs, Reading.text, text_data]
    simp only [openMarker, length_append, Bool.false_eq_true, if_false, length_nil] at hflat ⊢
    omega
  | start s i hi ih =>
    have hflat := congrArg List.length (extract_flatten (s.take i))
    have hsplit := congrArg List.length (split_marker hi)
    rw [readText_start hi, text_after, text_data]
    simp only [openMarker, length_append, Bool.false_eq_true, if_false, if_true, length_nil]
      at hflat hsplit ih ⊢
    omega
  | opened s hs =>
    rw [readText_open hs]
    exact le_rfl
  | stop s j hj ih =>
    have hsplit := congrArg List.length (split_marker hj)
    rw [readText_end hj, text_after]
    simp only [openMarker, length_append, Bool.false_eq_true, if_false, if_true, length_nil,
      map_cons, map_nil, flatten_cons, flatten_nil, Event.text] at hsplit ih ⊢
    omega

/-- The events give the stream back when the pastes start clean, and only then. -/
theorem readText_text_iff (inPaste : Bool) (s : JsString) :
    (readText inPaste s).text = openMarker inPaste ++ s ↔ PastesStartClean inPaste s := by
  induction inPaste, s using readText_induction with
  | plain s hs =>
    refine ⟨fun _ => .plain hs, fun _ => ?_⟩
    rw [readText_plain hs, Reading.text, text_data]
    simpa [openMarker] using extract_flatten s
  | start s i hi ih =>
    have hflat := extract_flatten (s.take i)
    have hsplit := split_marker hi
    rw [readText_start hi, text_after, text_data]
    constructor
    · intro htext
      -- nothing can have been left out before the marker
      have hle := readText_text_le true (s.drop (i + pasteStart.length))
      have hlen := congrArg List.length htext
      have hlen' := congrArg List.length hflat
      have hlen'' := congrArg List.length hsplit
      have hnil : (extractCompleteSequences (s.take i)).remainder.length = 0 := by
        simp only [openMarker, length_append, Bool.false_eq_true, if_false, if_true, length_nil]
          at hle hlen hlen' hlen''
        omega
      have hrem := length_eq_zero_iff.1 hnil
      refine .start hi hrem (ih.1 ?_)
      rw [hrem, append_nil] at hflat
      rw [hflat] at htext
      conv_rhs at htext => rw [hsplit]
      exact append_cancel_left htext
    · intro hclean
      obtain ⟨hrem, hrest⟩ := hclean.start_inv hi
      rw [hrem, append_nil] at hflat
      rw [hflat, ih.2 hrest]
      exact hsplit.symm
  | opened s hs =>
    refine ⟨fun _ => .opened hs, fun _ => ?_⟩
    rw [readText_open hs]
    rfl
  | stop s j hj ih =>
    have hsplit := split_marker hj
    have hwhole : openMarker true ++ s = (Event.paste (s.take j)).text ++
        (openMarker false ++ s.drop (j + pasteEnd.length)) := by
      conv_lhs => rw [hsplit]
      simp only [openMarker, Event.text, if_true, Bool.false_eq_true, if_false, nil_append, append_assoc]
    rw [readText_end hj, text_after, hwhole]
    simp only [map_cons, map_nil, flatten_cons, flatten_nil, append_nil]
    rw [append_cancel_left_eq, ih]
    exact ⟨fun hclean => .stop hj hclean, fun hclean => hclean.stop_inv hj⟩

/-! ### Every cut -/

/-- Streams of plain text, sequences and pastes: without sequences that announce a printable character, and
without text of several lines outside the pastes. -/
structure Ordinary (stream : JsString) : Prop where
  kitty : NoKitty (readText false stream).events
  quiet : Quiet false stream

/-- The stream as one chunk. -/
def uncut (stream : JsString) : List JsString := if stream = [] then [] else [stream]

/-- However the stream is cut, the events are the ones of the uncut stream, and with what is still held they are
the stream. -/
def NothingLost (stream : JsString) : Prop :=
  ∀ chunks : List JsString, chunks.flatten = stream → (∀ c ∈ chunks, c ≠ []) →
    (processAll .initial chunks).1 = (processAll .initial (uncut stream)).1 ∧
      ((processAll .initial chunks).1.map Event.text).flatten ++ (processAll .initial chunks).2.remaining = stream

theorem uncut_ne (stream : JsString) : ∀ c ∈ uncut stream, c ≠ [] := by
  intro c hc
  rw [uncut] at hc
  split at hc
  · cases hc
  · rename_i hne
    rw [mem_singleton] at hc
    exact hc ▸ hne

theorem flatten_uncut (stream : JsString) : (uncut stream).flatten = stream := by
  rw [uncut]
  split
  · rename_i hnil
    rw [hnil, flatten_nil]
  · rw [flatten_singleton]

theorem readText_nil : readText false [] = ⟨[], false, []⟩ :=
  readText_plain (find?_nil_data (by decide))

theorem processAll_uncut {stream : JsString} (h : Ordinary stream) :
    processAll .initial (uncut stream) = ((readText false stream).events,
      .holding (readText false stream).inPaste (readText false stream).rest) := by
  rw [uncut]
  split
  · rename_i hnil
    rw [hnil, readText_nil]
    rfl
  · rename_i hne
    have hone := @process_eq false [] stream hne h.quiet h.kitty
    rw [processAll]
    change ((process (.holding false []) stream).1 ++ [], _) = _
    rw [append_nil]
    exact hone

theorem nothingLost_iff {stream : JsString} (h : Ordinary stream) :
    NothingLost stream ↔ PastesStartClean false stream := by
  constructor
  · intro hnothing
    have htext := (hnothing _ (flatten_uncut stream) (uncut_ne stream)).2
    rw [processAll_uncut h, remaining_holding, ← append_assoc] at htext
    exact (readText_text_iff false stream).1 htext
  · intro hclean chunks hflat hne
    subst hflat
    have hall := @processAll_eq chunks false [] hne readText_nil hclean h.quiet h.kitty
    change processAll .initial chunks = _ at hall
    rw [nil_append] at hall
    rw [processAll_uncut h, hall, remaining_holding, ← append_assoc]
    exact ⟨rfl, (readText_text_iff false _).2 hclean⟩

/-- Keys, a sequence and a paste. -/
theorem nothingLost_paste : NothingLost (ofAscii "a\x1b[A\x1b[200~hi\x1b[201~b") := by
  refine (nothingLost_iff ⟨?_, quiet_of_noBreak (by decide)⟩).2 ?_
  · rw [readText_start (i := 4) (by decide), readText_end (j := 2) (by decide), readText_plain (by decide)]
    decide
  · exact .start (i := 4) (by decide) (by decide)
      (.stop (j := 2) (by decide) (.plain (by decide)))

/-- A lone escape before a paste. -/
theorem lost_escape :
    Ordinary (ofAscii "\x1b\x1b[200~hi\x1b[201~") ∧ ¬ NothingLost (ofAscii "\x1b\x1b[200~hi\x1b[201~") := by
  refine ⟨⟨?_, quiet_of_noBreak (by decide)⟩, ?_⟩
  · rw [readText_start (i := 1) (by decide), readText_end (j := 2) (by decide), readText_plain (by decide)]
    decide
  · intro h
    have htext := (h [ofAscii "\x1b\x1b[200~hi\x1b[201~"] (by decide) (by decide)).2
    revert htext
    decide

end StdinBuffer
end Tui
end RePrime
