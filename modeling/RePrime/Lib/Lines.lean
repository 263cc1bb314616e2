import Mathlib.Data.List.Basic

/-!
# RePrime.Lib.Lines

Splitting a sequence at a separator, in one piece or chunk by chunk.

* `feed`: the separated parts of a chunk and the unfinished part, which the next chunk continues.
  `feed_append`: it does not matter where a sequence is cut into chunks.
* `lines`: the parts of a whole sequence, the last one with or without its separator.
* `split`: all parts, with the empty one after a last separator. `split_join`, `join_split`: parts and
  what they are joined to.
* `lines_flatMap`: parts written with a separator after each are the parts read.
-/

namespace RePrime
namespace Lines

open List

variable {α : Type} [DecidableEq α] (sep : α)

/-- The finished parts and the unfinished one; `carry` is the part the chunk continues. -/
def feed (carry : List α) : List α → List (List α) × List α
  | [] => ([], carry)
  | b :: bs =>
    if b = sep then (carry :: (feed [] bs).1, (feed [] bs).2)
    else feed (carry ++ [b]) bs

def lines (bs : List α) : List (List α) :=
  (feed sep [] bs).1 ++ if (feed sep [] bs).2 = [] then [] else [(feed sep [] bs).2]

/-- `text.split(sep)`. -/
def split (bs : List α) : List (List α) := (feed sep [] bs).1 ++ [(feed sep [] bs).2]

variable {sep}

theorem feed_append (bs : List α) : ∀ (carry cs : List α), feed sep carry (bs ++ cs) =
      ((feed sep carry bs).1 ++ (feed sep (feed sep carry bs).2 cs).1, (feed sep (feed sep carry bs).2 cs).2) := by
  induction bs with
  | nil => intro carry cs; simp [feed]
  | cons b bs ih =>
    intro carry cs
    by_cases hb : b = sep
    · simp [feed, hb, ih]
    · simp [feed, hb, ih]

variable {bs : List α}

theorem feed_of_not_mem (h : sep ∉ bs) : ∀ carry : List α, feed sep carry bs = ([], carry ++ bs) := by
  induction bs with
  | nil => intro carry; simp [feed]
  | cons b bs ih =>
    intro carry
    have hb : b ≠ sep := fun hb => h (by simp [hb])
    rw [feed, if_neg hb, ih (fun hm => h (mem_cons_of_mem b hm))]
    simp

variable {part : List α}

theorem feed_part (h : sep ∉ part) (carry rest : List α) : feed sep carry (part ++ sep :: rest) =
      ((carry ++ part) :: (feed sep [] rest).1, (feed sep [] rest).2) := by
  rw [feed_append, feed_of_not_mem h]
  simp [feed]

variable {parts : List (List α)}

theorem feed_flatMap (h : ∀ p ∈ parts, sep ∉ p) (rest : List α) :
    feed sep [] (parts.flatMap (fun p => p ++ [sep]) ++ rest) =
      (parts ++ (feed sep [] rest).1, (feed sep [] rest).2) := by
  induction parts with
  | nil => simp
  | cons p parts ih =>
    have hp := feed_part (h p (by simp)) [] (parts.flatMap (fun p => p ++ [sep]) ++ rest)
    rw [flatMap_cons, append_assoc, append_assoc, singleton_append, hp, ih fun q hq => h q (mem_cons_of_mem p hq)]
    simp

theorem lines_flatMap (h : ∀ p ∈ parts, sep ∉ p) : lines sep (parts.flatMap fun p => p ++ [sep]) = parts := by
  have hf := feed_flatMap h []
  rw [append_nil] at hf
  simp [lines, hf, feed]

/-- Nothing is lost: the finished parts, each with its separator, and the unfinished one. -/
theorem flatMap_feed (bs : List α) : ∀ carry : List α,
    (feed sep carry bs).1.flatMap (fun p => p ++ [sep]) ++ (feed sep carry bs).2 = carry ++ bs := by
  induction bs with
  | nil => intro carry; simp [feed]
  | cons b bs ih =>
    intro carry
    by_cases hb : b = sep
    · have := ih []
      simp only [feed, hb, if_true, flatMap_cons, append_assoc, this]
      simp
    · simp only [feed, hb, if_false, ih]
      simp

theorem sep_not_mem_feed (bs : List α) : ∀ {carry : List α}, sep ∉ carry →
    (∀ p ∈ (feed sep carry bs).1, sep ∉ p) ∧ sep ∉ (feed sep carry bs).2 := by
  induction bs with
  | nil => intro carry h; simpa [feed] using h
  | cons b bs ih =>
    intro carry h
    by_cases hb : b = sep
    · have hrest := @ih [] (by simp)
      simp only [feed, hb, if_true]
      refine ⟨fun p hp => ?_, hrest.2⟩
      cases mem_cons.1 hp with
      | inl hp => rw [hp]; exact h
      | inr hp => exact hrest.1 p hp
    · rw [feed, if_neg hb]
      refine ih ?_
      simp only [mem_append, mem_singleton, not_or]
      exact ⟨h, Ne.symm hb⟩

theorem split_append_sep (a b : List α) : split sep (a ++ sep :: b) = split sep a ++ split sep b := by
  have hsep := @feed_part _ _ sep [] (by simp) (feed sep [] a).2 b
  rw [nil_append, append_nil] at hsep
  simp [split, feed_append, hsep]

theorem split_of_not_mem (h : sep ∉ bs) : split sep bs = [bs] := by
  simp [split, feed_of_not_mem h]

theorem split_ne_nil (bs : List α) : split sep bs ≠ [] := by
  simp [split]

theorem sep_not_mem_of_mem_split (h : part ∈ split sep bs) : sep ∉ part := by
  have hfeed := @sep_not_mem_feed _ _ sep bs [] (by simp)
  rw [split, mem_append, mem_singleton] at h
  obtain h | rfl := h
  · exact hfeed.1 part h
  · exact hfeed.2

theorem length_feed (bs : List α) : ∀ carry : List α, (feed sep carry bs).1.length = bs.count sep := by
  induction bs with
  | nil => intro carry; rfl
  | cons b bs ih =>
    intro carry
    by_cases hb : b = sep
    · simp [feed, hb, ih]
    · simp [feed, hb, ih]

theorem length_split (bs : List α) : (split sep bs).length = bs.count sep + 1 := by
  rw [split, length_append, length_feed]
  rfl

theorem reverse_split_append {a : List α} {b : α} (hb : b ≠ sep) (h : sep ∉ part) :
    ∃ q before, (split sep (a ++ [b] ++ part)).reverse = (q ++ [b] ++ part) :: before := by
  have hlast : feed sep [] (a ++ [b]) = ((feed sep [] a).1, (feed sep [] a).2 ++ [b]) := by
    rw [feed_append]
    simp [feed, hb]
  refine ⟨(feed sep [] a).2, (feed sep [] a).1.reverse, ?_⟩
  rw [split, feed_append, hlast, feed_of_not_mem h, append_nil, reverse_append]
  rfl

/-! ## Joined parts -/

/-- `parts.join(sep)` -/
def join (sep : α) (parts : List (List α)) : List α := List.intercalate [sep] parts

omit [DecidableEq α] in
theorem join_cons (part : List α) (h : parts ≠ []) : join sep (part :: parts) = part ++ sep :: join sep parts := by
  cases parts with
  | nil => exact absurd rfl h
  | cons l parts => simp [join, List.intercalate]

omit [DecidableEq α] in
theorem join_singleton (part : List α) : join sep [part] = part := by
  simp [join, List.intercalate]

theorem split_join (hne : parts ≠ []) (h : ∀ part ∈ parts, sep ∉ part) : split sep (join sep parts) = parts := by
  induction parts with
  | nil => exact absurd rfl hne
  | cons part parts ih =>
    have hpart := h part mem_cons_self
    by_cases hnil : parts = []
    · rw [hnil, join_singleton, split_of_not_mem hpart]
    · have hrest := ih hnil fun l hl => h l (mem_cons_of_mem _ hl)
      rw [join_cons part hnil, split_append_sep, split_of_not_mem hpart, hrest]
      rfl

omit [DecidableEq α] in
theorem join_concat (parts : List (List α)) (last : List α) :
    join sep (parts ++ [last]) = parts.flatMap (fun p => p ++ [sep]) ++ last := by
  induction parts with
  | nil => exact join_singleton last
  | cons p parts ih =>
    rw [cons_append, join_cons p (by simp), ih]
    simp

omit [DecidableEq α] in
theorem join_append {more : List (List α)} (h : parts ≠ []) (hmore : more ≠ []) :
    join sep (parts ++ more) = join sep parts ++ sep :: join sep more := by
  induction parts with
  | nil => exact absurd rfl h
  | cons part parts ih =>
    by_cases hnil : parts = []
    · rw [hnil, singleton_append, join_cons part hmore, join_singleton]
    · rw [cons_append, join_cons part (by simp [hnil]), ih hnil, join_cons part hnil, append_assoc, cons_append]

omit [DecidableEq α] in
theorem join_middle (front back : List (List α)) (a b : List α) :
    join sep (front ++ (a ++ b) :: back) = join sep (front ++ [a]) ++ join sep (b :: back) := by
  have hpart : join sep ((a ++ b) :: back) = a ++ join sep (b :: back) := by
    by_cases hback : back = []
    · rw [hback, join_singleton, join_singleton]
    · rw [join_cons _ hback, join_cons _ hback, append_assoc]
  induction front with
  | nil => rw [nil_append, nil_append, join_singleton, hpart]
  | cons part front ih =>
    rw [cons_append, cons_append, join_cons part (by simp), join_cons part (by simp), ih, append_assoc, cons_append]

omit [DecidableEq α] in
theorem join_prefix (parts more : List (List α)) : join sep parts <+: join sep (parts ++ more) := by
  by_cases h : parts = []
  · rw [h]
    exact nil_prefix
  · by_cases hmore : more = []
    · simp only [hmore, append_nil, prefix_rfl]
    · rw [join_append h hmore]
      exact prefix_append _ _

omit [DecidableEq α] in
theorem join_suffix (parts more : List (List α)) : join sep more <:+ join sep (parts ++ more) := by
  by_cases hmore : more = []
  · rw [hmore]
    exact nil_suffix
  · by_cases h : parts = []
    · simp only [h, nil_append, suffix_rfl]
    · rw [join_append h hmore]
      exact (suffix_cons _ _).trans (suffix_append _ _)

omit [DecidableEq α] in
theorem join_replicate_nil (part : List α) (n : Nat) :
    join sep (part :: List.replicate n []) = part ++ List.replicate n sep := by
  induction n generalizing part with
  | zero => rw [replicate_zero, join_singleton, replicate_zero, append_nil]
  | succ n ih => rw [replicate_succ, join_cons part (cons_ne_nil _ _), ih, nil_append, replicate_succ]

theorem join_split (bs : List α) : join sep (split sep bs) = bs := by
  rw [split, join_concat]
  simpa using flatMap_feed bs []

omit [DecidableEq α] in
theorem infix_join (h : part ∈ parts) : part <:+: join sep parts := by
  induction parts with
  | nil => cases h
  | cons l parts ih =>
    by_cases hnil : parts = []
    · rw [hnil, mem_singleton] at h
      simp only [hnil, join_singleton, h, infix_rfl]
    · rw [join_cons l hnil]
      obtain rfl | h := mem_cons.1 h
      · exact (prefix_append part _).isInfix
      · exact (ih h).trans ((suffix_cons _ _).trans (suffix_append _ _)).isInfix

end Lines
end RePrime
