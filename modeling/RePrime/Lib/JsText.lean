import Mathlib.Data.List.DropRight
import Mathlib.Data.List.Infix

/-!
# RePrime.Lib.JsText

Strings of JavaScript as the lists of their UTF-16 code units, with the methods that count in units:
`indexOf`, `split`, `trimEnd`.

* `indexOf_some`: where a text is found. `indexOf_eq_none`: that it is nowhere.
-/

namespace RePrime

/-- Code units. -/
abbrev JsString : Type := List UInt16

namespace JsText

/-- A statement about the units of a text is decided over the text, not over all that a unit can be. -/
instance (priority := 2000) decidableUnits (p : UInt16 → Prop) [DecidablePred p] (s : JsString) :
    Decidable (∀ u ∈ s, p u) := List.decidableBAll p s

/-- The units of a text of ASCII characters. -/
def ofAscii (s : String) : JsString := s.toList.map fun c => UInt16.ofNat c.toNat

/-- `s.indexOf(t)` -/
def indexOf (t : JsString) : JsString → Option Nat
  | [] => if t = [] then some 0 else none
  | u :: s => if t <+: u :: s then some 0 else (indexOf t s).map (· + 1)

theorem indexOf_some {t s : JsString} {i : Nat} (h : indexOf t s = some i) : t <+: s.drop i := by
  induction s generalizing i with
  | nil =>
    rw [indexOf] at h
    split at h
    · rename_i ht
      rw [ht]
      exact List.nil_prefix
    · cases h
  | cons u s ih =>
    rw [indexOf] at h
    split at h
    · rename_i ht
      cases h
      exact ht
    · obtain ⟨j, hj, rfl⟩ := Option.map_eq_some_iff.1 h
      exact ih hj

theorem indexOf_eq_none {t s : JsString} : indexOf t s = none ↔ ¬ t <:+: s := by
  induction s with
  | nil =>
    rw [indexOf]
    by_cases ht : t = []
    · simp [ht]
    · simp [ht]
  | cons u s ih =>
    rw [indexOf]
    by_cases ht : t <+: u :: s
    · simp [ht, ht.isInfix]
    · rw [if_neg ht, Option.map_eq_none_iff, ih, List.infix_cons_iff]
      simp [ht]

theorem indexOf_nil (s : JsString) : indexOf [] s = some 0 := by
  cases s with
  | nil => rfl
  | cons u s => rw [indexOf, if_pos List.nil_prefix]

theorem indexOf_le {t s : JsString} {i : Nat} (h : indexOf t s = some i) : i + t.length ≤ s.length := by
  induction s generalizing i with
  | nil =>
    rw [indexOf] at h
    split at h
    · rename_i ht
      cases h
      simp [ht]
    · cases h
  | cons u s ih =>
    rw [indexOf] at h
    split at h
    · rename_i ht
      cases h
      rw [Nat.zero_add]
      exact ht.length_le
    · obtain ⟨j, hj, rfl⟩ := Option.map_eq_some_iff.1 h
      have hle := ih hj
      rw [List.length_cons]
      omega

/-- The occurrences of a text that is not empty, one after the other; `skip` units belong to the last. -/
def occurrencesFrom (t : JsString) : Nat → JsString → Nat
  | _, [] => 0
  | skip + 1, _ :: s => occurrencesFrom t skip s
  | 0, u :: s => if t <+: u :: s then occurrencesFrom t (t.length - 1) s + 1 else occurrencesFrom t 0 s

/-- `s.split(t).length - 1`; an empty separator splits into units. -/
def splitLength (t s : JsString) : Int :=
  if t = [] then (s.length : Int) - 1 else occurrencesFrom t 0 s

/-- White space of `trimEnd`. -/
def isSpace (u : UInt16) : Bool :=
  (9 ≤ u && u ≤ 13) || u == 32 || u == 0xA0 || u == 0x1680 || (0x2000 ≤ u && u ≤ 0x200A) || u == 0x2028 ||
    u == 0x2029 || u == 0x202F || u == 0x205F || u == 0x3000 || u == 0xFEFF

def trimEnd (s : JsString) : JsString := s.rdropWhile isSpace

def newline : UInt16 := 10

end JsText
end RePrime
