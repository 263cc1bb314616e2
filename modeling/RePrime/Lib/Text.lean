import Mathlib.Data.List.TakeWhile
import Mathlib.Algebra.GroupWithZero.Nat

/-!
# RePrime.Lib.Text

What JavaScript does with strings: lengths and order in UTF-16 code units, `trim`.
-/

namespace RePrime
namespace Text

open List

/-- UTF-16 code units of a character. -/
def units (c : Char) : Nat := if c.toNat < 0x10000 then 1 else 2

/-- The code units themselves: a character above the basic plane is a surrogate pair. -/
def codeUnits (c : Char) : List Nat :=
  if c.toNat < 0x10000 then [c.toNat]
  else [0xD800 + (c.toNat - 0x10000) / 0x400, 0xDC00 + (c.toNat - 0x10000) % 0x400]

def utf16 (s : String) : List Nat := s.toList.flatMap codeUnits

/-- The order of `sort` on strings: by code units. -/
def unitsLe : List Nat → List Nat → Bool
  | [], _ => true
  | _ :: _, [] => false
  | a :: s, b :: t => a < b || (a == b && unitsLe s t)

def sort (l : List String) : List String := l.mergeSort fun s t => unitsLe (utf16 s) (utf16 t)

/-- `s.length`. -/
def length (s : List Char) : Nat := (s.map units).sum

/-- The white space and line terminators `trim` removes. -/
def isSpace (c : Char) : Bool :=
  let n := c.toNat
  (9 ≤ n && n ≤ 13) || n == 0x20 || n == 0xA0 || n == 0x1680 || (0x2000 ≤ n && n ≤ 0x200A) ||
    n == 0x2028 || n == 0x2029 || n == 0x202F || n == 0x205F || n == 0x3000 || n == 0xFEFF

def trimChars (s : List Char) : List Char :=
  ((s.dropWhile isSpace).reverse.dropWhile isSpace).reverse

def trim (s : String) : String := String.ofList (trimChars s.toList)

/-- `t.includes(s)`. -/
def Includes (t s : String) : Prop := s.toList <:+: t.toList

theorem isSpace_of_isDigit {c : Char} (h : c.isDigit = true) : isSpace c = false := by
  have hrange : 48 ≤ c.toNat ∧ c.toNat ≤ 57 := by
    rw [Char.isDigit, Bool.and_eq_true, decide_eq_true_iff, decide_eq_true_iff] at h
    exact h
  simp only [isSpace, Bool.or_eq_false_iff, Bool.and_eq_false_iff, decide_eq_false_iff_not, beq_eq_false_iff_ne]
  omega

theorem isSpace_of_graphic {c : Char} (h : 33 ≤ c.toNat) (h' : c.toNat < 127) : isSpace c = false := by
  simp only [isSpace, Bool.or_eq_false_iff, Bool.and_eq_false_iff, decide_eq_false_iff_not, beq_eq_false_iff_ne]
  omega

theorem trimChars_eq_self {s s' t : List Char} {c d : Char} (hfirst : s = c :: t) (hc : isSpace c = false)
    (hlast : s = s' ++ [d]) (hd : isSpace d = false) : trimChars s = s := by
  have hhead : s.dropWhile isSpace = s := by
    rw [hfirst, dropWhile_cons_of_neg (by simp [hc])]
  rw [trimChars, hhead, hlast, reverse_append, reverse_singleton, singleton_append,
    dropWhile_cons_of_neg (by simp [hd]), reverse_cons, reverse_reverse]

theorem trimChars_append {s t : List Char} (hs : ∀ c ∈ s, isSpace c = false) (ht : ∀ c ∈ t, isSpace c = true) :
    trimChars (s ++ t) = s := by
  have hkeep : ∀ {l : List Char}, (∀ c ∈ l, isSpace c = false) → l.dropWhile isSpace = l := by
    intro l hl
    cases l with
    | nil => rfl
    | cons c l => rw [dropWhile_cons_of_neg (by simp [hl c (by simp)])]
  have hdrop : (s ++ t).dropWhile isSpace = s ++ t ∨ s = [] := by
    cases s with
    | nil => exact .inr rfl
    | cons c s =>
      left
      rw [cons_append, dropWhile_cons_of_neg (by simp [hs c (by simp)])]
  rw [trimChars]
  obtain hdrop | rfl := hdrop
  · rw [hdrop, reverse_append, dropWhile_append_of_pos (by simpa using ht),
      hkeep (by simpa using hs), reverse_reverse]
  · rw [nil_append, dropWhile_eq_nil_iff.2 ht]
    rfl

/-- A text occurs in two parts around a long run of one character only within a part, if it neither
starts nor ends with that character. -/
theorem infix_around_run {α : Type} {s a b : List α} {x : α} {n : Nat} (hhead : s.head? ≠ some x)
    (hlast : s.getLast? ≠ some x) (hn : s.length < n) :
    s <:+: a ++ List.replicate n x ++ b ↔ s <:+: a ∨ s <:+: b := by
  constructor
  · rintro ⟨p, q, h⟩
    cases s with
    | nil => exact .inl nil_infix
    | cons y s =>
      have hlen := congrArg List.length h
      simp only [length_append, length_cons, length_replicate] at hlen hn
      -- Which part the first and the last character of the occurrence lie in.
      by_cases hend : p.length + (s.length + 1) ≤ a.length
      · left
        have hpre : p ++ y :: s <+: a := by
          refine prefix_of_prefix_length_le ⟨q, h⟩ ⟨List.replicate n x ++ b, by simp⟩ ?_
          simpa using hend
        exact (infix_append_right).trans hpre.isInfix
      · by_cases hstart : a.length + n ≤ p.length
        · right
          have hwhole : y :: s ++ q <:+ a ++ List.replicate n x ++ b := ⟨p, by rw [← h]; simp⟩
          have hsuf : y :: s ++ q <:+ b := by
            refine suffix_of_suffix_length_le hwhole ⟨_, rfl⟩ ?_
            simp only [length_append, length_cons]
            omega
          exact (infix_append_left).trans hsuf.isInfix
        · exfalso
          simp only [append_assoc] at h
          have hrun : ∀ i, a.length ≤ i → i < a.length + n → (p ++ (y :: s ++ q))[i]? = some x := by
            intro i hlo hhi
            rw [h, getElem?_append_right hlo, getElem?_append_left (by simp; omega),
              getElem?_replicate_of_lt (by omega)]
          by_cases hin : a.length ≤ p.length
          · apply hhead
            have := hrun p.length hin (by omega)
            simpa using this
          · apply hlast
            have := hrun (p.length + s.length) (by omega) (by omega)
            rw [getElem?_append_right (by omega), getElem?_append_left (by simp)] at this
            rw [getLast?_eq_getElem?]
            simpa using this
  · rintro (h | h)
    · exact (h.trans (infix_append_left)).trans (infix_append_left)
    · exact h.trans (infix_append_right)

/-! ## Sorting -/

theorem unitsLe_total (s t : List Nat) : (unitsLe s t || unitsLe t s) = true := by
  induction s generalizing t with
  | nil => rfl
  | cons a s ih =>
    cases t with
    | nil => rfl
    | cons b t =>
      have ih := ih t
      simp only [unitsLe, Bool.or_eq_true, Bool.and_eq_true, decide_eq_true_iff, beq_iff_eq] at ih ⊢
      obtain h | rfl | h := Nat.lt_trichotomy a b
      · exact .inl (.inl h)
      · exact ih.imp (fun h => .inr ⟨rfl, h⟩) fun h => .inr ⟨rfl, h⟩
      · exact .inr (.inl h)

theorem unitsLe_trans {s t u : List Nat} (h : unitsLe s t = true) (h' : unitsLe t u = true) :
    unitsLe s u = true := by
  induction s generalizing t u with
  | nil => rfl
  | cons a s ih =>
    cases t with
    | nil => cases h
    | cons b t =>
      cases u with
      | nil => cases h'
      | cons c u =>
        simp only [unitsLe, Bool.or_eq_true, Bool.and_eq_true, decide_eq_true_iff, beq_iff_eq] at h h' ⊢
        obtain h | ⟨rfl, h⟩ := h
        · omega
        · obtain h' | ⟨rfl, h'⟩ := h'
          · exact .inl h'
          · exact .inr ⟨rfl, ih h h'⟩

theorem mem_sort {s : String} {l : List String} : s ∈ sort l ↔ s ∈ l := mem_mergeSort

theorem pairwise_sort (l : List String) : (sort l).Pairwise fun s t => unitsLe (utf16 s) (utf16 t) = true :=
  pairwise_mergeSort (fun s t u => @unitsLe_trans (utf16 s) (utf16 t) (utf16 u))
    (fun s t => unitsLe_total (utf16 s) (utf16 t)) l

/-- What a cap cuts off a sorted list comes behind all that stays. -/
theorem mem_take_sort {l : List String} {s : String} (h : s ∈ l) (n : Nat) : s ∈ (sort l).take n ∨
      ((sort l).take n).length = n ∧ ∀ t ∈ (sort l).take n, unitsLe (utf16 t) (utf16 s) = true := by
  have hsplit := take_append_drop n (sort l)
  rw [← mem_sort, ← hsplit, mem_append] at h
  refine h.imp_right fun hdrop => ⟨?_, fun t ht => ?_⟩
  · have := length_pos_of_mem hdrop
    rw [length_drop] at this
    rw [length_take]
    omega
  · have hpair := pairwise_sort l
    rw [← hsplit] at hpair
    exact (pairwise_append.1 hpair).2.2 t ht s hdrop

end Text
end RePrime
