import Mathlib.Data.List.Basic
import Mathlib.Data.List.Infix

/-!
# RePrime.Lib.Incremental

Readers of a stream that comes in chunks. A reader takes an item off the front of what it was given,
waits for more, or fails, and what it finds does not change when more comes.

* `drain`: the items at the front. `drain_append`: after more has come.
* `drain_encoded`: what is read of a part of a sequence of encoded items.
-/

namespace RePrime

open List

namespace Incremental

inductive Found (β ι ε : Type) where
  | item (x : ι) (rest : List β)
  | wait
  | failure (e : ε)

/-- The items that were taken, what is left, and why the reader stopped when it failed. -/
structure Drained (β ι ε : Type) where
  items : List ι
  rest : List β
  failure : Option ε

def Drained.after {β ι ε : Type} (items : List ι) (d : Drained β ι ε) : Drained β ι ε :=
  { d with items := items ++ d.items }

end Incremental

open Incremental

structure Incremental (β ι ε : Type) where
  find : List β → Found β ι ε
  shrinks : ∀ {bs x rest}, find bs = .item x rest → rest.length < bs.length
  item_append : ∀ {bs x rest}, find bs = .item x rest → ∀ more, find (bs ++ more) = .item x (rest ++ more)
  failure_append : ∀ {bs e}, find bs = .failure e → ∀ more, find (bs ++ more) = .failure e

namespace Incremental

variable {β ι ε : Type} (r : Incremental β ι ε)

def drain (bs : List β) : Drained β ι ε :=
  match _h : r.find bs with
  | .item x rest => .after [x] (drain rest)
  | .wait => { items := [], rest := bs, failure := none }
  | .failure e => { items := [], rest := bs, failure := some e }
termination_by bs.length
decreasing_by exact r.shrinks _h

variable {r} {bs : List β}

theorem drain_item {x : ι} {rest : List β} (h : r.find bs = .item x rest) :
    r.drain bs = .after [x] (r.drain rest) := by
  rw [drain]
  split
  · rename_i h'
    rw [h] at h'
    cases h'
    rfl
  · rename_i h'
    rw [h] at h'
    cases h'
  · rename_i h'
    rw [h] at h'
    cases h'

theorem drain_wait (h : r.find bs = .wait) :
    r.drain bs = { items := [], rest := bs, failure := none } := by
  rw [drain]
  split
  · rename_i h'
    rw [h] at h'
    cases h'
  · rfl
  · rename_i h'
    rw [h] at h'
    cases h'

theorem drain_failure {e : ε} (h : r.find bs = .failure e) :
    r.drain bs = { items := [], rest := bs, failure := some e } := by
  rw [drain]
  split
  · rename_i h'
    rw [h] at h'
    cases h'
  · rename_i h'
    rw [h] at h'
    cases h'
  · rename_i h'
    rw [h] at h'
    cases h'
    rfl

theorem drain_induction {P : List β → Prop} (item : ∀ bs x rest, r.find bs = .item x rest → P rest → P bs)
    (wait : ∀ bs, r.find bs = .wait → P bs) (failure : ∀ bs e, r.find bs = .failure e → P bs)
    (bs : List β) : P bs := by
  generalize hn : bs.length = n
  induction n using Nat.strong_induction_on generalizing bs with
  | _ n ih =>
    cases h : r.find bs with
    | item x rest =>
      have hlt := r.shrinks h
      exact item bs x rest h (ih _ (by omega) rest rfl)
    | wait => exact wait bs h
    | failure e => exact failure bs e h

theorem find_rest (bs : List β) :
    r.find (r.drain bs).rest =
      match (r.drain bs).failure with
      | none => .wait
      | some e => .failure e := by
  induction bs using drain_induction (r := r) with
  | item bs x rest h ih =>
    rw [drain_item h]
    exact ih
  | wait bs h =>
    rw [drain_wait h]
    exact h
  | failure bs e h =>
    rw [drain_failure h]
    exact h

theorem drain_append (h : (r.drain bs).failure = none) (more : List β) :
    r.drain (bs ++ more) = .after (r.drain bs).items (r.drain ((r.drain bs).rest ++ more)) := by
  induction bs using drain_induction (r := r) with
  | item bs x rest hx ih =>
    rw [drain_item hx] at h ⊢
    rw [drain_item (r.item_append hx more), ih h]
    rfl
  | wait bs hw =>
    rw [drain_wait hw]
    rfl
  | failure bs e he =>
    rw [drain_failure he] at h
    cases h

theorem failure_drain_append {e : ε} (h : (r.drain bs).failure = some e) (more : List β) :
    (r.drain (bs ++ more)).failure = some e := by
  induction bs using drain_induction (r := r) with
  | item bs x rest hx ih =>
    rw [drain_item hx] at h
    rw [drain_item (r.item_append hx more)]
    exact ih h
  | wait bs hw =>
    rw [drain_wait hw] at h
    cases h
  | failure bs e' he =>
    rw [drain_failure he] at h
    rw [drain_failure (r.failure_append he more)]
    exact h

/-! ## Encoded items -/

/-- The reader finds an item where it is encoded, and waits in the middle of it. -/
structure Reads (r : Incremental β ι ε) (x : ι) (encoding : List β) : Prop where
  whole : ∀ more, r.find (encoding ++ more) = .item x more
  part : ∀ p, p <+: encoding → p ≠ encoding → r.find p = .wait

theorem drain_of_reads {l : List (ι × List β)} (h : ∀ e ∈ l, r.Reads e.1 e.2) (more : List β) :
    r.drain ((l.map Prod.snd).flatten ++ more) = .after (l.map Prod.fst) (r.drain more) := by
  induction l with
  | nil => rfl
  | cons e l ih =>
    rw [map_cons, flatten_cons, append_assoc, drain_item ((h e mem_cons_self).whole _),
      ih fun e' he' => h e' (mem_cons_of_mem _ he')]
    rfl

theorem exists_of_prefix {l : List (ι × List β)} : ∀ {p : List β}, p <+: (l.map Prod.snd).flatten →
    ∃ before after q, l = before ++ after ∧ p = (before.map Prod.snd).flatten ++ q ∧
      (after = [] → q = []) ∧ ∀ e ∈ after.head?, q <+: e.2 ∧ q ≠ e.2 := by
  induction l with
  | nil =>
    intro p hp
    exact ⟨[], [], [], rfl, by simpa using hp, fun _ => rfl, by simp⟩
  | cons e l ih =>
    intro p hp
    rw [map_cons, flatten_cons] at hp
    by_cases hlen : e.2.length ≤ p.length
    · obtain ⟨t, rfl⟩ := prefix_of_prefix_length_le (prefix_append _ _) hp hlen
      obtain ⟨before, after, q, rfl, rfl, hnil, hhead⟩ := ih ((prefix_append_right_inj _).1 hp)
      exact ⟨e :: before, after, q, rfl, by simp, hnil, hhead⟩
    · have hpre : p <+: e.2 := prefix_of_prefix_length_le hp (prefix_append _ _) (by omega)
      refine ⟨[], e :: l, p, rfl, rfl, by simp, ?_⟩
      intro e' he'
      cases he'
      exact ⟨hpre, fun he => hlen (by rw [he])⟩

theorem drain_encoded {l : List (ι × List β)} (h : ∀ e ∈ l, r.Reads e.1 e.2)
    (hempty : r.find [] = .wait) {p : List β} (hp : p <+: (l.map Prod.snd).flatten) :
    ∃ before after q, l = before ++ after ∧ p = (before.map Prod.snd).flatten ++ q ∧
      r.drain p = { items := before.map Prod.fst, rest := q, failure := none } ∧
      (after = [] → q = []) ∧ ∀ e ∈ after.head?, q <+: e.2 ∧ q ≠ e.2 := by
  obtain ⟨before, after, q, rfl, rfl, hnil, hhead⟩ := exists_of_prefix hp
  refine ⟨before, after, q, rfl, rfl, ?_, hnil, hhead⟩
  have hwait : r.find q = .wait := by
    cases after with
    | nil =>
      rw [hnil rfl]
      exact hempty
    | cons e after =>
      obtain ⟨hq, hne⟩ := hhead e rfl
      exact (h e (mem_append_right _ mem_cons_self)).part q hq hne
  rw [drain_of_reads (fun e he => h e (mem_append_left _ he)), drain_wait hwait, Drained.after, append_nil]

end Incremental
end RePrime
