import Mathlib.Data.List.Infix
import RePrime.Lib.Utf8

/-!
# RePrime.Lib.Utf8Stream

UTF-8 that arrives in chunks, and UTF-8 that is cut at characters.

* `TextDecoder`: the decoder of a stream, which keeps a cut character for the next chunk and leaves out a
  byte order mark at the beginning. `decodeStream_append`: it does not matter where the bytes are cut.
* `charBoundary`: the first character from an index on. `charBoundary_spec`: what it leaves out.
-/

namespace RePrime
namespace Utf8

open List

/-! ## Streams -/

/-- The characters that are complete, and the state for the bytes that follow. -/
def emit : DecodeState → List UInt8 → List Char × DecodeState
  | s, [] => ([], s)
  | s, b :: bs => ((s.step b.toNat).1 ++ (emit (s.step b.toNat).2 bs).1, (emit (s.step b.toNat).2 bs).2)

/-- A character that is not complete at the end. -/
def flush (s : DecodeState) : List Char := if s.needed = 0 then [] else [replacement]

theorem emit_append (s : DecodeState) (a b : List UInt8) :
    emit s (a ++ b) = ((emit s a).1 ++ (emit (emit s a).2 b).1, (emit (emit s a).2 b).2) := by
  induction a generalizing s with
  | nil => simp [emit]
  | cons c a ih => simp [emit, ih]

theorem decodeFrom_eq (s : DecodeState) (bytes : List UInt8) :
    decodeFrom s bytes = (emit s bytes).1 ++ flush (emit s bytes).2 := by
  induction bytes generalizing s with
  | nil => rfl
  | cons b bytes ih => simp [decodeFrom, emit, ih]

def byteOrderMark : Char := '\uFEFF'

/-- A byte order mark in front of everything is left out; `seen` says that something has come before. -/
def dropMark (seen : Bool) (chars : List Char) : List Char :=
  if seen = false ∧ chars.head? = some byteOrderMark then chars.tail else chars

def seenAfter (seen : Bool) (chars : List Char) : Bool := seen || !chars.isEmpty

theorem dropMark_append (seen : Bool) (a b : List Char) :
    dropMark seen (a ++ b) = dropMark seen a ++ dropMark (seenAfter seen a) b := by
  cases a with
  | nil => simp [dropMark, seenAfter]
  | cons c a =>
    by_cases hmark : seen = false ∧ c = byteOrderMark
    · simp [dropMark, seenAfter, hmark]
    · simp [dropMark, seenAfter, hmark]

theorem seenAfter_append (seen : Bool) (a b : List Char) :
    seenAfter seen (a ++ b) = seenAfter (seenAfter seen a) b := by
  cases a with
  | nil | cons => simp [seenAfter]

structure TextDecoder where
  state : DecodeState
  bomSeen : Bool

namespace TextDecoder

def new : TextDecoder := { state := .init, bomSeen := false }

/-- `decode(bytes, { stream: true })` -/
def decodeStream (d : TextDecoder) (bytes : List UInt8) : List Char × TextDecoder :=
  let r := emit d.state bytes
  (dropMark d.bomSeen r.1, { state := r.2, bomSeen := seenAfter d.bomSeen r.1 })

/-- `decode()` -/
def decodeEnd (d : TextDecoder) : List Char := dropMark d.bomSeen (flush d.state)

theorem decodeStream_append (d : TextDecoder) (a b : List UInt8) : d.decodeStream (a ++ b) =
      ((d.decodeStream a).1 ++ ((d.decodeStream a).2.decodeStream b).1,
        ((d.decodeStream a).2.decodeStream b).2) := by
  simp only [decodeStream, emit_append, dropMark_append, seenAfter_append]

/-- `new TextDecoder().decode(bytes)` -/
def decodeAll (bytes : List UInt8) : List Char := dropMark false (decode bytes)

theorem decodeAll_eq (bytes : List UInt8) :
    decodeAll bytes = (new.decodeStream bytes).1 ++ (new.decodeStream bytes).2.decodeEnd := by
  rw [decodeAll, decode, decodeFrom_eq, dropMark_append]
  rfl

end TextDecoder

/-! ## Boundaries -/

/-- `(byte & 0xc0) === 0x80` -/
def isContinuation (b : UInt8) : Bool := b &&& 0xC0 == 0x80

/-- The index of the first character that begins at or after an index. -/
def charBoundary (buffer : List UInt8) (start : Nat) : Nat :=
  start + ((buffer.drop start).takeWhile isContinuation).length

theorem charBoundary_append (a b : List UInt8) (start : Nat) :
    charBoundary (a ++ b) (a.length + start) = a.length + charBoundary b start := by
  rw [charBoundary, charBoundary, drop_length_add_append, Nat.add_assoc]

theorem isContinuation_ofNat {n : Nat} (h : n < 256) :
    isContinuation (.ofNat n) = decide (0x80 ≤ n ∧ n < 0xC0) := by
  have hall : ∀ k : Fin 256, isContinuation (.ofNat k.val) = decide (0x80 ≤ k.val ∧ k.val < 0xC0) := by
    decide +kernel
  exact hall ⟨n, h⟩

theorem encodeChar_shape (c : Char) : ∃ lead rest, encodeChar c = lead :: rest ∧
    isContinuation lead = false ∧ ∀ b ∈ rest, isContinuation b = true := by
  have hc := char_range c
  have hlast : ∀ x, isContinuation (.ofNat (0x80 + x % 64)) = true := by
    intro x
    rw [isContinuation_ofNat (by omega), decide_eq_true_eq]
    omega
  unfold encodeChar
  simp only []
  split
  · rename_i h
    refine ⟨_, _, rfl, ?_, by simp⟩
    rw [isContinuation_ofNat (by omega), decide_eq_false_iff_not]
    omega
  split
  · refine ⟨_, _, rfl, ?_, forall_mem_singleton.2 (hlast _)⟩
    rw [isContinuation_ofNat (by omega), decide_eq_false_iff_not]
    omega
  split
  · refine ⟨_, _, rfl, ?_, forall_mem_cons.2 ⟨hlast _, forall_mem_singleton.2 (hlast _)⟩⟩
    rw [isContinuation_ofNat (by omega), decide_eq_false_iff_not]
    omega
  · refine ⟨_, _, rfl, ?_,
      forall_mem_cons.2 ⟨hlast _, forall_mem_cons.2 ⟨hlast _, forall_mem_singleton.2 (hlast _)⟩⟩⟩
    rw [isContinuation_ofNat (by omega), decide_eq_false_iff_not]
    omega

theorem takeWhile_encode (text : List Char) : (encode text).takeWhile isContinuation = [] := by
  cases text with
  | nil => rfl
  | cons c text =>
    obtain ⟨lead, rest, hshape, hlead, -⟩ := encodeChar_shape c
    rw [encode_cons, hshape, cons_append, takeWhile_cons, if_neg (by simp [hlead])]

/-- From an index on, the characters that begin there are left; the one before them begins before it. -/
theorem charBoundary_spec : ∀ (text : List Char) {k : Nat}, k ≤ (encode text).length →
    ∃ u v, text = u ++ v ∧ charBoundary (encode text) k = (encode u).length ∧ k ≤ (encode u).length ∧
      ∀ u' c, u = u' ++ [c] → (encode u').length < k := by
  intro text
  induction text with
  | nil =>
    intro k hk
    obtain rfl : k = 0 := Nat.le_zero.1 hk
    exact ⟨[], [], rfl, rfl, Nat.le_refl 0, by simp⟩
  | cons c text ih =>
    intro k hk
    rw [encode_cons, length_append] at hk
    by_cases hzero : k = 0
    · refine ⟨[], c :: text, rfl, ?_, by omega, by simp⟩
      rw [charBoundary, hzero, drop_zero, takeWhile_encode]
      rfl
    · by_cases hin : k < (encodeChar c).length
      · -- the index is inside the first character
        obtain ⟨lead, rest, hshape, -, hrest⟩ := encodeChar_shape c
        have hdrop : (encode (c :: text)).drop k = (encodeChar c).drop k ++ encode text := by
          rw [encode_cons, drop_append_of_le_length (Nat.le_of_lt hin)]
        have hall : ∀ b ∈ (encodeChar c).drop k, isContinuation b = true := by
          intro b hb
          rw [hshape, ← Nat.succ_pred_eq_of_ne_zero hzero, drop_succ_cons] at hb
          exact hrest b (mem_of_mem_drop hb)
        refine ⟨[c], text, rfl, ?_, ?_, ?_⟩
        · rw [charBoundary, hdrop, takeWhile_append_of_pos hall, takeWhile_encode, append_nil,
            length_drop, encode_cons, encode, flatMap_nil, append_nil]
          omega
        · rw [encode_cons, encode, flatMap_nil, append_nil]
          omega
        · intro u' c' hu
          cases u' with
          | nil => exact Nat.pos_of_ne_zero hzero
          | cons d u' => simp at hu
      · obtain ⟨u, v, rfl, hbound, hle, hlast⟩ := @ih (k - (encodeChar c).length) (by omega)
        have hdrop : (encode (c :: (u ++ v))).drop k =
            (encode (u ++ v)).drop (k - (encodeChar c).length) := by
          rw [encode_cons, drop_append, drop_eq_nil_of_le (Nat.le_of_not_lt hin), nil_append]
        refine ⟨c :: u, v, rfl, ?_, ?_, ?_⟩
        · rw [charBoundary] at hbound
          rw [charBoundary, hdrop, encode_cons, length_append]
          omega
        · rw [encode_cons, length_append]
          omega
        · intro u' c' hu
          cases u' with
          | nil =>
            have hpos : 0 < k := Nat.pos_of_ne_zero hzero
            exact hpos
          | cons d u' =>
            obtain ⟨rfl, hrest⟩ := List.cons.inj hu
            have hlt := hlast u' c' hrest
            rw [encode_cons, length_append]
            omega

end Utf8
end RePrime
