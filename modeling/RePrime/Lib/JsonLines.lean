import RePrime.Lib.JsonPrefix
import RePrime.Lib.Lines
import RePrime.Lib.Utf8

/-!
# RePrime.Lib.JsonLines

Files of JSON texts, one on a line, that are appended to. A reader skips the lines that are no JSON
text, so an append that was cut short is not read, as long as nothing is appended after it.

* `values`: what is read. `line`: what is appended.
* `values_append`, `values_take`: after a whole line, or a part of one.
-/

namespace RePrime
namespace JsonLines

open Json List
open Utf8

/-- The values of the lines that are JSON texts. -/
def values (bytes : List UInt8) : List Value :=
  ((Lines.split '\n' (decode bytes)).filter fun line => line ≠ []).filterMap parse

def line (v : Value) : List UInt8 := encode (stringify v ++ ['\n'])

/-- A file that is empty, or ends with a newline. -/
def Terminated (bytes : List UInt8) : Prop := bytes = [] ∨ ∃ a, bytes = a ++ [10]

theorem values_nil : values [] = [] := rfl

theorem values_newline (a b : List UInt8) : values (a ++ 10 :: b) = values a ++ values b := by
  unfold values
  rw [decode_newline, Lines.split_append_sep, filter_append, filterMap_append]

theorem values_append {bytes : List UInt8} (h : Terminated bytes) (b : List UInt8) :
    values (bytes ++ b) = values bytes ++ values b := by
  obtain rfl | ⟨a, rfl⟩ := h
  · rfl
  · rw [append_assoc, singleton_append, values_newline, values_newline, values_nil, append_nil]

theorem newline_not_mem_stringify (v : Value) : '\n' ∉ stringify v := by
  intro h
  exact absurd (stringify_printable v _ h) (by decide)

theorem values_of_decode {bytes : List UInt8} {text : List Char} (hd : decode bytes = text)
    (h : '\n' ∉ text) : values bytes = (parse text).toList := by
  unfold values
  rw [hd, Lines.split_of_not_mem h]
  cases text with
  | nil => rfl
  | cons c text =>
    show [c :: text].filterMap parse = _
    cases hp : parse (c :: text) with
    | none => rw [filterMap_cons_none hp]; rfl
    | some v => rw [filterMap_cons_some hp]; rfl

theorem line_eq (v : Value) : line v = encode (stringify v) ++ [10] := by
  rw [line, encode_append]
  rfl

theorem values_stringify (v : Value) : values (encode (stringify v)) = [v] := by
  rw [values_of_decode (decode_encode _) (newline_not_mem_stringify v), parse_stringify]
  rfl

theorem values_line (v : Value) : values (line v) = [v] := by
  rw [line_eq, values_newline, values_stringify, values_nil, append_nil]

theorem terminated_append_line (bytes : List UInt8) (v : Value) : Terminated (bytes ++ line v) :=
  .inr ⟨bytes ++ encode (stringify v), by rw [line_eq, append_assoc]⟩

theorem terminated_line (v : Value) : Terminated (line v) :=
  .inr ⟨encode (stringify v), line_eq v⟩

theorem values_flatMap (vs : List Value) : values (vs.flatMap line) = vs := by
  induction vs with
  | nil => rfl
  | cons v vs ih => rw [flatMap_cons, values_append (terminated_line v), ih, values_line]; rfl

theorem values_prefix {fields : List (String × Value)} {p : List UInt8}
    (hp : p <+: encode (stringify (.object fields)))
    (hne : p ≠ encode (stringify (.object fields))) : values p = [] := by
  obtain ⟨u, hu, hcase⟩ := decode_prefix hp
  have hnewline : '\n' ∉ u := fun h => newline_not_mem_stringify _ (hu.subset h)
  obtain ⟨rfl, hd⟩ | ⟨-, hd⟩ := hcase
  · have hu' : u ≠ stringify (.object fields) := fun h => hne (by rw [h])
    rw [values_of_decode hd hnewline, parse_prefix hu hu']
    rfl
  · have hnewline' : '\n' ∉ u ++ [replacement] := by simp [hnewline, replacement]
    rw [values_of_decode hd hnewline', replacement, parse_cut hu]
    rfl

/-- What is read of the first bytes of a line: nothing, or the whole text of the object. -/
theorem values_take (fields : List (String × Value)) (n : Nat) : values ((line (.object fields)).take n) =
      if (encode (stringify (.object fields))).length ≤ n then [.object fields] else [] := by
  rw [line_eq]
  split
  · rename_i hn
    by_cases hlen : n = (encode (stringify (.object fields))).length
    · rw [hlen, take_left, values_stringify]
    · rw [take_of_length_le (by simp; omega), ← line_eq, values_line]
  · rename_i hn
    rw [take_append_of_le_length (by omega)]
    refine values_prefix ( take_prefix _ _) fun he => hn ?_
    have hlen := congrArg List.length he
    rw [length_take] at hlen
    omega

/-! ## Files that are written whole -/

/-- The texts joined by newlines, and a newline. -/
def joined (vs : List Value) : List UInt8 :=
  encode (List.intercalate ['\n'] (vs.map stringify) ++ ['\n'])

theorem joined_cons (v : Value) (vs : List Value) : joined (v :: vs) = (v :: vs).flatMap line := by
  induction vs generalizing v with
  | nil => simp [joined, List.intercalate, line]
  | cons w vs ih =>
    rw [flatMap_cons, ← ih w]
    simp [joined, List.intercalate, line, encode]

theorem values_joined (vs : List Value) : values (joined vs) = vs := by
  cases vs with
  | nil => rfl
  | cons v vs => rw [joined_cons, values_flatMap]

end JsonLines
end RePrime
