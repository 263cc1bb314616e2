import Mathlib.Data.List.Basic
import Mathlib.Data.List.DropRight

/-!
# RePrime.Lib.Delimiter

The first occurrence of a marker in a sequence that arrives chunk by chunk.

* `find?`: where the marker is first found. `find?_eq_some`, `find?_eq_none`, `First`: what that says.
* `held`: how much at the end of a sequence may begin a marker.
* `Scanned`: a marker-free sequence of which the last part is held back. `Scanned.find?_append`: the
  held part is enough to find the marker once more has arrived; `Scanned.next`: it stays enough.
-/

namespace RePrime
namespace Delimiter

open List

variable {α : Type} [DecidableEq α]

/-- The first position at which `marker` stands. -/
def find? (marker : List α) : List α → Option Nat
  | [] => if marker = [] then some 0 else none
  | a :: data => if marker <+: a :: data then some 0 else (find? marker data).map (· + 1)

/-- The largest size up to the given one for which that much of `marker` ends `data`. -/
def held (marker data : List α) : Nat → Nat
  | 0 => 0
  | size + 1 => if marker.take (size + 1) <:+ data then size + 1 else held marker data size

variable {marker : List α}

theorem find?_nil : find? marker [] = if marker = [] then some 0 else none := rfl

theorem find?_cons (a : α) (data : List α) : find? marker (a :: data) =
    if marker <+: a :: data then some 0 else (find? marker data).map (· + 1) := rfl

theorem find?_eq_some : ∀ {data : List α} {i : Nat}, find? marker data = some i →
    marker <+: data.drop i ∧ i + marker.length ≤ data.length ∧ ∀ j < i, ¬ marker <+: data.drop j := by
  intro data
  induction data with
  | nil =>
    intro i h
    rw [find?_nil] at h
    split at h
    · rename_i hm
      simp only [Option.some.injEq] at h
      subst h hm
      simp
    · simp at h
  | cons a data ih =>
    intro i h
    rw [find?_cons] at h
    split at h
    · rename_i hm
      simp only [Option.some.injEq] at h
      subst h
      exact ⟨hm, by simpa using hm.length_le, by simp⟩
    · rename_i hm
      obtain ⟨k, hk, rfl⟩ := Option.map_eq_some_iff.mp h
      obtain ⟨hfound, hlen, hfirst⟩ := ih hk
      refine ⟨by simpa using hfound, by simp only [length_cons]; omega, ?_⟩
      intro j hj
      cases j with
      | zero => simpa using hm
      | succ j => simpa using hfirst j (by omega)

theorem find?_eq_none : ∀ {data : List α}, find? marker data = none →
    ∀ j, j ≤ data.length → ¬ marker <+: data.drop j := by
  intro data
  induction data with
  | nil =>
    intro h j _
    rw [find?_nil] at h
    split at h
    · simp at h
    · simpa using ‹_›
  | cons a data ih =>
    intro h j hj
    rw [find?_cons] at h
    split at h
    · simp at h
    · rename_i hm
      cases j with
      | zero => simpa using hm
      | succ j => simpa using ih (by simpa using h) j (by simpa using hj)

theorem find?_nil_data (h : marker ≠ []) : find? marker [] = none := by
  simp [find?_nil, h]

/-- More of the sequence does not change where the marker was found. -/
theorem find?_append (more : List α) : ∀ {data : List α} {i : Nat},
    find? marker data = some i → find? marker (data ++ more) = some i := by
  intro data
  induction data with
  | nil =>
    intro i h
    rw [find?_nil] at h
    split at h
    · subst marker
      cases more <;> simpa [find?_nil, find?_cons] using h
    · simp at h
  | cons a data ih =>
    intro i h
    rw [find?_cons] at h
    rw [cons_append, find?_cons]
    by_cases hm : marker <+: a :: data
    · have hm' : marker <+: a :: (data ++ more) := hm.trans (prefix_append (a :: data) more)
      simpa [hm, hm'] using h
    · rw [if_neg hm] at h
      obtain ⟨k, hk, rfl⟩ := Option.map_eq_some_iff.mp h
      have hm' : ¬ marker <+: a :: (data ++ more) := by
        intro hlater
        have hshort := (find?_eq_some hk).2.1
        exact hm (prefix_of_prefix_length_le hlater (prefix_append (a :: data) more)
          (by simp only [length_cons]; omega))
      rw [if_neg hm', ih hk, Option.map_some]

/-- `marker` stands between `before` and `after`, and no earlier. -/
structure First (marker data before after : List α) : Prop where
  split : data = before ++ marker ++ after
  earliest : ∀ before' after', data = before' ++ marker ++ after' → before.length ≤ before'.length

variable {data before : List α}

theorem First.find? {after : List α} (h : First marker data before after) :
    find? marker data = some before.length := by
  have hfound : marker <+: data.drop before.length := ⟨after, by simp [h.split]⟩
  cases hfind : Delimiter.find? marker data with
  | none => exact absurd hfound (find?_eq_none hfind _ (by simp [h.split]))
  | some i =>
    obtain ⟨hi, hlen, hearlier⟩ := find?_eq_some hfind
    obtain ⟨after', hsplit⟩ := hi
    have hle := h.earliest (data.take i) after' (by
      rw [append_assoc, hsplit, take_append_drop])
    have hge : i ≤ before.length := by
      by_contra hlt
      exact hearlier before.length (by omega) hfound
    simp only [length_take] at hle
    rw [show i = before.length by omega]

theorem first_of_find? {i : Nat} (h : find? marker data = some i) :
    First marker data (data.take i) (data.drop (i + marker.length)) := by
  obtain ⟨⟨rest, hrest⟩, hlen, hearlier⟩ := find?_eq_some h
  have hafter : data.drop (i + marker.length) = rest := by
    rw [← drop_drop, ← hrest, drop_left]
  refine ⟨by rw [hafter, append_assoc, hrest, take_append_drop], ?_⟩
  intro before' after' hsplit
  rw [length_take]
  by_contra hlt
  refine hearlier before'.length (by omega) ⟨after', ?_⟩
  rw [hsplit, append_assoc, drop_left]

theorem find?_eq_none_of_absent (h : ¬ marker <:+: data) : find? marker data = none := by
  cases hfind : find? marker data with
  | none => rfl
  | some i =>
    exact absurd ((find?_eq_some hfind).1.isInfix.trans (drop_suffix i data).isInfix) h

theorem absent_of_find?_eq_none (h : find? marker data = none) : ¬ marker <:+: data := by
  rintro ⟨before, after, rfl⟩
  refine find?_eq_none h before.length (by simp only [length_append]; omega) ?_
  rw [append_assoc, drop_left]
  exact prefix_append marker after

/-- The marker is found in every start of the sequence that holds it. -/
theorem find?_take {i n : Nat} (h : find? marker data = some i)
    (hn : i + marker.length ≤ n) : find? marker (data.take n) = some i := by
  obtain ⟨hi, -, -⟩ := find?_eq_some h
  cases htake : find? marker (data.take n) with
  | some k =>
    have hk := find?_append (data.drop n) htake
    rwa [take_append_drop, h, eq_comm] at hk
  | none =>
    refine absurd ?_ (absent_of_find?_eq_none htake)
    have hle := hi.length_le
    have hstart : marker <+: (data.drop i).take (n - i) :=
      prefix_of_prefix_length_le hi ( take_prefix _ _) (by
        rw [length_take]
        omega)
    rw [← drop_take] at hstart
    exact hstart.isInfix.trans (drop_suffix _ _).isInfix

theorem find?_append_of_absent : ∀ {before : List α} (data : List α),
    (∀ j < before.length, ¬ marker <+: before.drop j ++ data) →
    find? marker (before ++ data) = (find? marker data).map (· + before.length) := by
  intro before
  induction before with
  | nil => intro data _; simp
  | cons a before ih =>
    intro data h
    have hhead : ¬ marker <+: a :: (before ++ data) := by simpa using h 0 (by simp)
    have hrest : ∀ j < before.length, ¬ marker <+: before.drop j ++ data := by
      intro j hj
      simpa using h (j + 1) (by simpa using hj)
    simp only [cons_append, find?, if_neg hhead, ih data hrest, Option.map_map, length_cons]
    congr 1

theorem held_le (marker data : List α) : ∀ size, held marker data size ≤ size := by
  intro size
  induction size with
  | zero => simp [held]
  | succ size ih =>
    simp only [held]
    split <;> omega

theorem le_held {n : Nat} (h : marker.take n <:+ data) : ∀ {size}, n ≤ size → n ≤ held marker data size := by
  intro size
  induction size with
  | zero => intro hn; omega
  | succ size ih =>
    intro hn
    simp only [held]
    split
    · exact hn
    · rename_i hnot
      have : n ≠ size + 1 := fun he => hnot (he ▸ h)
      exact ih (by omega)

/-- `pending` ends a sequence without the marker, and no longer end of it begins a marker. -/
structure Scanned (marker stream pending : List α) : Prop where
  suffix : pending <:+ stream
  longest : ∀ n < marker.length, marker.take n <:+ stream → n ≤ pending.length
  absent : find? marker stream = none

theorem Scanned.nil (h : marker ≠ []) : Scanned marker [] [] where
  suffix := suffix_rfl
  longest := by
    intro n hn hsuffix
    have := hsuffix.length_le
    simp only [length_take, length_nil] at this
    simp only [length_nil]
    omega
  absent := find?_nil_data h

/-- What is held back is enough to find the marker: it does not begin any earlier. -/
theorem Scanned.find?_append {pending : List α} (h : Scanned marker (before ++ pending) pending) (chunk : List α) :
    find? marker (before ++ pending ++ chunk) = (find? marker (pending ++ chunk)).map (· + before.length) := by
  rw [append_assoc]
  refine find?_append_of_absent (pending ++ chunk) ?_
  intro j hj hfound
  have hdrop : before.drop j ++ (pending ++ chunk) = (before ++ pending).drop j ++ chunk := by
    rw [drop_append_of_le_length (by omega), append_assoc]
  rw [hdrop] at hfound
  have hj' : j ≤ (before ++ pending).length := by simp only [length_append]; omega
  have hshort : ((before ++ pending).drop j).length < marker.length := by
    by_contra hge
    have hwhole : marker <+: (before ++ pending).drop j :=
      prefix_of_prefix_length_le hfound (prefix_append _ _) (by omega)
    exact find?_eq_none h.absent j hj' hwhole
  -- the end of the sequence from `j` on begins a marker, so it is held back
  have htake : marker.take ((before ++ pending).drop j).length = (before ++ pending).drop j := by
    have hbegin : (before ++ pending).drop j <+: marker :=
      prefix_of_prefix_length_le (prefix_append _ chunk) hfound (by omega)
    exact (prefix_iff_eq_take.mp hbegin).symm
  have hend := h.longest _ hshort (by rw [htake]; exact drop_suffix _ _)
  simp only [length_drop, length_append] at hend
  omega

theorem Scanned.next {pending chunk : List α} (h : Scanned marker (before ++ pending) pending)
    (hnone : find? marker (pending ++ chunk) = none) :
    Scanned marker (before ++ pending ++ chunk) ((pending ++ chunk).drop ((pending ++ chunk).length -
      held marker (pending ++ chunk) (min (pending ++ chunk).length (marker.length - 1)))) := by
  have hsuffix : pending ++ chunk <:+ before ++ pending ++ chunk := ⟨before, by simp⟩
  refine ⟨(drop_suffix _ _).trans hsuffix, ?_, by rw [h.find?_append, hnone]; rfl⟩
  intro n hn hend
  have hlen : n ≤ (pending ++ chunk).length := by
    by_contra hlt
    -- what stands before the chunk was held back already
    have hsplit : marker.take (n - chunk.length) <:+ before ++ pending := by
      obtain ⟨rest, hrest⟩ := hend
      rw [← take_append_drop (n - chunk.length) (marker.take n), ← append_assoc] at hrest
      have hchunk : ((marker.take n).drop (n - chunk.length)).length = chunk.length := by
        simp only [length_append] at hlt
        simp only [length_drop, length_take]
        omega
      refine ⟨rest, ?_⟩
      simpa [take_take] using (append_inj' hrest hchunk).1
    have hheld := h.longest (n - chunk.length) (by omega) hsplit
    simp only [length_append] at hlt
    omega
  have hpending : marker.take n <:+ pending ++ chunk :=
    suffix_of_suffix_length_le hend hsuffix (by simp only [length_take]; omega)
  have hge : n ≤ held marker (pending ++ chunk) (min (pending ++ chunk).length (marker.length - 1)) :=
    le_held hpending (by omega)
  have hle := held_le marker (pending ++ chunk) (min (pending ++ chunk).length (marker.length - 1))
  simp only [length_drop]
  omega

end Delimiter
end RePrime
