import RePrime.Lib.JsText

/-!
# RePrime.Lib.JsScan

Regular expressions of JavaScript, as functions that read a match off the start of a string and return what
follows it, and the global replacement of their matches.

* `eat`, `eatDigits`: a literal, and `\d+`.
* `replaceAll`: `s.replace(/…/g, f)`. `replaceAll_match`, `replaceAll_unit`: one step. `replaceAll_append`: over a
  part of the text where nothing matches.
* `matchAll`: `s.matchAll(/…/g)`.
* `decimal`: the text of a natural number. `decimal_inj`, `eatDigits_append`: digits are read back.
-/

namespace RePrime
namespace JsText

open List

/-! ### Literals and digits -/

/-- A literal at the start. -/
def eat (literal s : JsString) : Option JsString :=
  if literal <+: s then some (s.drop literal.length) else none

theorem eat_eq_some {literal s rest : JsString} : eat literal s = some rest ↔ s = literal ++ rest := by
  unfold eat
  constructor
  · intro h
    split at h
    · rename_i hpre
      obtain ⟨t, rfl⟩ := hpre
      cases h
      simp
    · cases h
  · rintro rfl
    rw [if_pos (prefix_append literal rest), drop_left]

@[simp] theorem eat_append (literal rest : JsString) : eat literal (literal ++ rest) = some rest :=
  eat_eq_some.2 rfl

def isDigit (u : UInt16) : Bool := 0x30 ≤ u && u ≤ 0x39

/-- `\d+` at the start, and what follows it. -/
def eatDigits (s : JsString) : Option (JsString × JsString) :=
  if s.takeWhile isDigit = [] then none else some (s.takeWhile isDigit, s.dropWhile isDigit)

/-- Some digits, at least one. -/
def Digits (s : JsString) : Prop := s ≠ [] ∧ ∀ u ∈ s, isDigit u = true

instance (s : JsString) : Decidable (Digits s) := inferInstanceAs (Decidable (_ ∧ _))

theorem eatDigits_eq_some {s digits rest : JsString} (h : eatDigits s = some (digits, rest)) :
    s = digits ++ rest ∧ Digits digits ∧ ∀ u ∈ rest.head?, isDigit u = false := by
  unfold eatDigits at h
  split at h
  · cases h
  · rename_i hne
    cases h
    refine ⟨takeWhile_append_dropWhile.symm, ⟨hne, fun u hu => mem_takeWhile_imp hu⟩, fun u hu => ?_⟩
    have hhead := head?_dropWhile_not isDigit s
    rw [Option.mem_def.mp hu] at hhead
    exact hhead

theorem eatDigits_append {digits rest : JsString} (hd : Digits digits) (hr : ∀ u ∈ rest.head?, isDigit u = false) :
    eatDigits (digits ++ rest) = some (digits, rest) := by
  have hrest : rest.takeWhile isDigit = [] ∧ rest.dropWhile isDigit = rest := by
    cases rest with
    | nil => exact ⟨rfl, rfl⟩
    | cons u t =>
      have hu : isDigit u = false := hr u (by simp)
      exact ⟨by simp [hu], by simp [hu]⟩
  unfold eatDigits
  rw [takeWhile_append_of_pos hd.2, dropWhile_append_of_pos hd.2, hrest.1, hrest.2, append_nil, if_neg hd.1]

/-! ### The text of a number -/

/-- `String(n)` -/
def decimal (n : Nat) : JsString := (Nat.toDigits 10 n).map fun c => UInt16.ofNat c.toNat

theorem toNat_digit {n : Nat} {c : Char} (hc : c ∈ Nat.toDigits 10 n) :
    (UInt16.ofNat c.toNat).toNat = c.toNat ∧ 48 ≤ c.toNat ∧ c.toNat ≤ 57 := by
  have hdigit := Nat.isDigit_of_mem_toDigits (by decide) (by decide) hc
  obtain ⟨h0, h9⟩ := Char.isDigit_iff_toNat.mp hdigit
  have h0 : 48 ≤ c.toNat := h0
  have h9 : c.toNat ≤ 57 := h9
  exact ⟨by rw [UInt16.toNat_ofNat', Nat.mod_eq_of_lt (by omega)], h0, h9⟩

theorem digits_decimal (n : Nat) : Digits (decimal n) := by
  constructor
  · simp [decimal, Nat.toDigits_ne_nil]
  · intro u hu
    obtain ⟨c, hc, rfl⟩ := mem_map.mp hu
    obtain ⟨hval, h0, h9⟩ := toNat_digit hc
    simp only [isDigit, Bool.and_eq_true, decide_eq_true_eq, UInt16.le_iff_toNat_le, hval]
    exact ⟨h0, h9⟩

theorem decimal_inj {m n : Nat} (h : decimal m = decimal n) : m = n := by
  have hback : ∀ k, (decimal k).map (fun u => Char.ofNat u.toNat) = Nat.toDigits 10 k := by
    intro k
    rw [decimal, map_map]
    conv_rhs => rw [← map_id (Nat.toDigits 10 k)]
    refine map_congr_left fun c hc => ?_
    simp only [Function.comp_apply, (toNat_digit hc).1, Char.ofNat_toNat, id_eq]
  calc
    m = Nat.ofDigitChars 10 (Nat.toDigits 10 m) 0 := Nat.ofDigitChars_ten_toDigits.symm
    _ = Nat.ofDigitChars 10 (Nat.toDigits 10 n) 0 := by rw [← hback m, ← hback n, h]
    _ = n := Nat.ofDigitChars_ten_toDigits

/-! ### Global replacement -/

section Replace

variable {α : Type}

/-- `f` reads a match off the start: how many units it has, and what takes its place. `skip` units belong to the
last match. -/
def replaceFrom (f : List α → Option (Nat × List α)) : Nat → List α → List α
  | _, [] => []
  | skip + 1, _ :: s => replaceFrom f skip s
  | 0, u :: s =>
    match f (u :: s) with
    | some (n, t) => t ++ replaceFrom f (n - 1) s
    | none => u :: replaceFrom f 0 s

def replaceAll (f : List α → Option (Nat × List α)) (s : List α) : List α := replaceFrom f 0 s

variable {f : List α → Option (Nat × List α)}

theorem replaceFrom_drop (f : List α → Option (Nat × List α)) (skip : Nat) (s : List α) :
    replaceFrom f skip s = replaceAll f (s.drop skip) := by
  induction s generalizing skip with
  | nil => cases skip <;> simp [replaceAll, replaceFrom]
  | cons u s ih =>
    cases skip with
    | zero => rfl
    | succ skip => rw [replaceFrom, ih, drop_succ_cons]

@[simp] theorem replaceAll_nil : replaceAll f [] = [] := rfl

theorem replaceAll_match {m rest t : List α} (h : f (m ++ rest) = some (m.length, t)) (hm : m ≠ []) :
    replaceAll f (m ++ rest) = t ++ replaceAll f rest := by
  obtain ⟨u, m, rfl⟩ := exists_cons_of_ne_nil hm
  rw [replaceAll, cons_append, replaceFrom]
  rw [cons_append] at h
  rw [h]
  simp only [length_cons, Nat.add_sub_cancel]
  rw [replaceFrom_drop, drop_left]

theorem replaceAll_unit {u : α} {s : List α} (h : f (u :: s) = none) :
    replaceAll f (u :: s) = u :: replaceAll f s := by
  rw [replaceAll, replaceFrom, h]
  rfl

/-- No match starts in `part`, which `rest` follows. -/
def NoMatch (f : List α → Option (Nat × List α)) (part rest : List α) : Prop :=
  ∀ a b, part = a ++ b → b ≠ [] → f (b ++ rest) = none

theorem NoMatch.tail {u : α} {part rest : List α} (h : NoMatch f (u :: part) rest) : NoMatch f part rest := by
  intro a b hab hb
  exact h (u :: a) b (by rw [hab, cons_append]) hb

theorem replaceAll_append {part rest : List α} (h : NoMatch f part rest) :
    replaceAll f (part ++ rest) = part ++ replaceAll f rest := by
  induction part with
  | nil => rfl
  | cons u part ih =>
    have hu : f (u :: (part ++ rest)) = none := h [] (u :: part) rfl (by simp)
    rw [cons_append, cons_append, replaceAll_unit hu, ih h.tail]

/-- A match: where it starts and stops, and what its groups hold. -/
structure Match (β : Type) where
  start : Nat
  stop : Nat
  groups : β
deriving DecidableEq

def matchesFrom {β : Type} (f : List α → Option (Nat × β)) : Nat → Nat → List α → List (Match β)
  | _, _, [] => []
  | skip + 1, i, _ :: s => matchesFrom f skip (i + 1) s
  | 0, i, u :: s =>
    match f (u :: s) with
    | some (n, groups) => ⟨i, i + n, groups⟩ :: matchesFrom f (n - 1) (i + 1) s
    | none => matchesFrom f 0 (i + 1) s

def matchAll {β : Type} (f : List α → Option (Nat × β)) (s : List α) : List (Match β) := matchesFrom f 0 0 s

end Replace

end JsText
end RePrime
