import Mathlib.Data.List.Chain
import Mathlib.Data.List.Nodup
import Mathlib.Data.List.Perm.Subperm
import Mathlib.Logic.Relation

/-!
# RePrime.Lib.ParentChain

Records that name a parent by key, and the walk from a record to its root.

* `walk`: the loop `while (current) { push(current); current = next(current) }`, with fuel. It has
  at most one result (`walk_unique`), which never repeats a record (`walk_nodup`), so as many
  steps as there are records decide whether the loop ends (`walk_eq_none`). `walk_of_chain` and
  `walk_of_cycle` compute it.
* `Acyclic`: no record that is met leads back to itself. `walk_isSome_iff`: then, and only then, the
  loop ends.
* `walks_meet`: where two walks meet, they are one from there on.
* `climb`: the same chain read off a list with the newest record first, by recursion on the list.
* `Linked`: every parent is an older record; with distinct keys that is `Backward`.
* `walk_eq_climb`: on a list where no record names itself or a newer one as its parent
  (`Backward`), the loop ends and gives `climb`.
* `live`: the nearest record that stays when some are dropped. `climb_relinked`: with the children
  of the dropped records re-linked to it, the chains are the old ones without those records.
-/

namespace RePrime
namespace ParentChain

open List Option

section Walk

variable {α : Type} {next : α → Option α}

/-- `none` when the fuel runs out. -/
def walk (next : α → Option α) : Nat → α → Option (List α)
  | 0, _ => none
  | n + 1, a =>
    match next a with
    | none => some [a]
    | some b => (walk next n b).map (a :: ·)

variable {a : α}

@[simp] theorem walk_zero : walk next 0 a = none := rfl

theorem walk_of_none (h : next a = none) (n : Nat) : walk next (n + 1) a = some [a] := by
  simp [walk, h]

variable {b : α}

theorem walk_of_some (h : next a = some b) (n : Nat) : walk next (n + 1) a = (walk next n b).map (a :: ·) := by
  simp [walk, h]

variable {n m : Nat}

theorem walk_mono (hnm : n ≤ m) : ∀ {a : α} {p : List α}, walk next n a = some p → walk next m a = some p := by
  induction n generalizing m with
  | zero => intro a p h; simp at h
  | succ n ih =>
    intro a p h
    obtain ⟨m, rfl⟩ : ∃ k, m = k + 1 := ⟨m - 1, by omega⟩
    cases hn : next a with
    | none => rw [walk_of_none hn] at h ⊢; exact h
    | some b =>
      rw [walk_of_some hn] at h ⊢
      obtain ⟨q, hq, rfl⟩ := map_eq_some_iff.1 h
      rw [ih (by omega) hq]
      rfl

variable {p : List α}

theorem walk_unique {q : List α} (hp : walk next n a = some p) (hq : walk next m a = some q) : p = q := by
  have h := walk_mono (Nat.le_max_left n m) hp
  rw [walk_mono (Nat.le_max_right n m) hq] at h
  exact (Option.some.inj h).symm

theorem walk_length : ∀ {a : α} {p : List α}, walk next n a = some p → p.length ≤ n := by
  induction n with
  | zero => intro a p h; simp at h
  | succ n ih =>
    intro a p h
    cases hn : next a with
    | none =>
      rw [walk_of_none hn] at h
      cases h
      simp
    | some b =>
      rw [walk_of_some hn] at h
      obtain ⟨q, hq, rfl⟩ := map_eq_some_iff.1 h
      have := ih hq
      simp only [length_cons]
      omega

/-- The steps a finished walk takes are its records: that much fuel is enough. -/
theorem walk_at_length : ∀ {a : α} {p : List α}, walk next n a = some p → walk next p.length a = some p := by
  induction n with
  | zero => intro a p h; simp at h
  | succ n ih =>
    intro a p h
    cases hn : next a with
    | none =>
      rw [walk_of_none hn] at h
      cases h
      exact walk_of_none hn 0
    | some b =>
      rw [walk_of_some hn] at h
      obtain ⟨q, hq, rfl⟩ := map_eq_some_iff.1 h
      rw [length_cons, walk_of_some hn, ih hq]
      rfl

theorem walk_of_mem : ∀ {a : α} {p : List α}, walk next n a = some p → ∀ b ∈ p,
      ∃ q, q <:+ p ∧ walk next n b = some q := by
  induction n with
  | zero => intro a p h; simp at h
  | succ n ih =>
    intro a p h b hb
    cases hn : next a with
    | none =>
      rw [walk_of_none hn] at h
      cases h
      obtain rfl := mem_singleton.1 hb
      exact ⟨_, suffix_refl _, walk_of_none hn n⟩
    | some c =>
      rw [walk_of_some hn] at h
      obtain ⟨q, hq, rfl⟩ := map_eq_some_iff.1 h
      cases mem_cons.1 hb with
      | inl hba =>
        subst hba
        exact ⟨_, suffix_refl _, by rw [walk_of_some hn, hq]; rfl⟩
      | inr hbq =>
        obtain ⟨r, hr, hw⟩ := ih hq b hbq
        exact ⟨r, hr.trans (suffix_cons _ _), walk_mono (Nat.le_succ n) hw⟩

theorem walk_head (h : walk next n a = some p) : ∃ q, p = a :: q := by
  cases n with
  | zero => simp at h
  | succ n =>
    cases hn : next a with
    | none => rw [walk_of_none hn] at h; cases h; exact ⟨_, rfl⟩
    | some b =>
      rw [walk_of_some hn] at h
      obtain ⟨q, _, rfl⟩ := map_eq_some_iff.1 h
      exact ⟨_, rfl⟩

theorem walk_nodup : ∀ {a : α} {p : List α}, walk next n a = some p → p.Nodup := by
  induction n with
  | zero => intro a p h; simp at h
  | succ n ih =>
    intro a p h
    cases hn : next a with
    | none => rw [walk_of_none hn] at h; cases h; simp
    | some b =>
      have hw := h
      rw [walk_of_some hn] at h
      obtain ⟨q, hq, rfl⟩ := map_eq_some_iff.1 h
      refine nodup_cons.2 ⟨fun ha => ?_, ih hq⟩
      obtain ⟨r, hr, hra⟩ := walk_of_mem hq a ha
      have hlen := hr.length_le
      rw [walk_unique hra hw, length_cons] at hlen
      omega

variable {s : List α}

/-- If the loop does not end within as many steps as there are records, it never ends. -/
theorem walk_eq_none (hs : ∀ a ∈ s, ∀ b, next a = some b → b ∈ s) (ha : a ∈ s)
    (h : walk next s.length a = none) (n : Nat) : walk next n a = none := by
  have hsub : ∀ n, ∀ a ∈ s, ∀ p, walk next n a = some p → p ⊆ s := by
    intro n
    induction n with
    | zero => intro a _ p hp; simp at hp
    | succ n ih =>
      intro a ha p hp
      cases hn : next a with
      | none =>
        rw [walk_of_none hn] at hp
        cases hp
        simpa using ha
      | some b =>
        rw [walk_of_some hn] at hp
        obtain ⟨q, hq, rfl⟩ := map_eq_some_iff.1 hp
        exact cons_subset.2 ⟨ha, ih b (hs a ha b hn) q hq⟩
  by_contra hne
  obtain ⟨p, hp⟩ := ne_none_iff_exists'.1 hne
  have hlen : p.length ≤ s.length := ((walk_nodup hp).subperm (hsub n a ha p hp)).length_le
  rw [walk_mono hlen (walk_at_length hp)] at h
  cases h

/-- A walk that ends does so within as many steps as there are records. -/
theorem walk_of_closed (hs : ∀ a ∈ s, ∀ b, next a = some b → b ∈ s) (ha : a ∈ s) (h : walk next n a = some p) :
    walk next s.length a = some p := by
  cases hw : walk next s.length a with
  | none => rw [walk_eq_none hs ha hw n] at h; cases h
  | some q => rw [walk_unique hw h]

variable {l : List α}

theorem prefix_of_walk : ∀ {x : α} {n : Nat} {p : List α}, (x :: l).IsChain (fun a b => next a = some b) →
      walk next n x = some p → x :: l <+: p := by
  induction l with
  | nil =>
    intro x n p _ h
    obtain ⟨q, rfl⟩ := walk_head h
    simp
  | cons y l ih =>
    intro x n p hc h
    obtain ⟨hxy, hc⟩ := isChain_cons_cons.1 hc
    cases n with
    | zero => simp at h
    | succ n =>
      rw [walk_of_some hxy] at h
      obtain ⟨q, hq, rfl⟩ := map_eq_some_iff.1 h
      exact cons_prefix_cons.2 ⟨rfl, ih hc hq⟩

theorem walk_of_chain : ∀ {x : α}, (x :: l).IsChain (fun a b => next a = some b) →
      (∀ y ∈ (x :: l).getLast?, next y = none) → walk next (l.length + 1) x = some (x :: l) := by
  induction l with
  | nil => intro x _ hl; exact walk_of_none (hl x (by simp)) 0
  | cons y l ih =>
    intro x hc hl
    obtain ⟨hxy, hc⟩ := isChain_cons_cons.1 hc
    rw [length_cons, walk_of_some hxy, ih hc fun z hz => hl z (by simpa using hz)]
    rfl

/-- A chain that comes back to one of its records is walked forever. -/
theorem walk_of_cycle {x y : α} (hc : (x :: (l ++ [y])).IsChain fun a b => next a = some b)
    (hy : y ∈ x :: l) (n : Nat) : walk next n x = none := by
  by_contra hne
  obtain ⟨p, hp⟩ := ne_none_iff_exists'.1 hne
  have hn := (walk_nodup hp).sublist (prefix_of_walk hc hp).sublist
  rw [← cons_append, nodup_append] at hn
  exact hn.2.2 y hy y (by simp) rfl

theorem walk_congr {next' : α → Option α} :
    ∀ {a : α} {p : List α}, walk next n a = some p → (∀ b ∈ p, next' b = next b) → walk next' n a = some p := by
  induction n with
  | zero => intro a p h; simp at h
  | succ n ih =>
    intro a p h hp
    cases hn : next a with
    | none =>
      rw [walk_of_none hn] at h
      cases h
      exact walk_of_none (by rw [hp a (by simp), hn]) n
    | some b =>
      rw [walk_of_some hn] at h
      obtain ⟨q, hq, rfl⟩ := map_eq_some_iff.1 h
      rw [walk_of_some (by rw [hp a (by simp), hn]), ih hq fun c hc => hp c (mem_cons_of_mem a hc)]
      rfl

/-! ### Cycles -/

/-- `b` comes after `a` on a walk. -/
def Follows (next : α → Option α) (a b : α) : Prop := next a = some b

/-- No record that is met from `a` on leads back to itself. -/
def Acyclic (next : α → Option α) (a : α) : Prop :=
  ∀ b, Relation.ReflTransGen (Follows next) a b → ¬ Relation.TransGen (Follows next) b b

theorem Acyclic.of_follows (h : Acyclic next a) (hab : Follows next a b) : Acyclic next b :=
  fun c hc => h c (Relation.ReflTransGen.head hab hc)

theorem Acyclic.antisymm (h : Acyclic next a) (hab : Relation.ReflTransGen (Follows next) a b)
    (hba : Relation.ReflTransGen (Follows next) b a) : a = b := by
  rcases Relation.reflTransGen_iff_eq_or_transGen.1 hab with rfl | hab
  · rfl
  · exact absurd (hab.trans_left hba) (h a .refl)

theorem walk_follows (h : walk next n a = some p) (hab : Follows next a b) :
    ∃ q, walk next n b = some q ∧ q.length < p.length := by
  cases n with
  | zero => simp at h
  | succ n =>
    rw [walk_of_some hab] at h
    obtain ⟨q, hq, rfl⟩ := map_eq_some_iff.1 h
    exact ⟨q, walk_mono (Nat.le_succ n) hq, by simp⟩

theorem walk_transGen (hab : Relation.TransGen (Follows next) a b) :
    ∀ {p : List α}, walk next n a = some p → ∃ q, walk next n b = some q ∧ q.length < p.length := by
  induction hab with
  | single hab => exact fun h => walk_follows h hab
  | tail _ hbc ih =>
    intro p h
    obtain ⟨q, hq, hlt⟩ := ih h
    obtain ⟨r, hr, hlt'⟩ := walk_follows hq hbc
    exact ⟨r, hr, by omega⟩

theorem acyclic_of_walk (h : walk next n a = some p) : Acyclic next a := by
  intro b hab hcycle
  obtain ⟨q, hq⟩ : ∃ q, walk next n b = some q := by
    rcases Relation.reflTransGen_iff_eq_or_transGen.1 hab with rfl | hab
    · exact ⟨p, h⟩
    · obtain ⟨q, hq, _⟩ := walk_transGen hab h
      exact ⟨q, hq⟩
  obtain ⟨r, hr, hlt⟩ := walk_transGen hcycle hq
  rw [walk_unique hr hq] at hlt
  omega

/-- `met` holds records from which `a` has been reached; each round adds one of `s`. -/
theorem walk_of_acyclic (hs : ∀ a ∈ s, ∀ b, next a = some b → b ∈ s) {k : Nat} :
    ∀ {a : α} {met : List α}, a ∈ s → met.length + k = s.length → met.Nodup → met ⊆ s →
      (∀ x ∈ met, Relation.TransGen (Follows next) x a) → Acyclic next a → ∃ p, walk next k a = some p := by
  induction k with
  | zero =>
    intro a met ha hlen hn hsub hmet hacyclic
    have hnew : a ∉ met := fun hmem => hacyclic a .refl (hmet a hmem)
    have hle := ((nodup_cons.2 ⟨hnew, hn⟩).subperm (cons_subset.2 ⟨ha, hsub⟩)).length_le
    rw [length_cons] at hle
    omega
  | succ k ih =>
    intro a met ha hlen hn hsub hmet hacyclic
    have hnew : a ∉ met := fun hmem => hacyclic a .refl (hmet a hmem)
    cases hab : next a with
    | none => exact ⟨[a], walk_of_none hab k⟩
    | some b =>
      obtain ⟨p, hp⟩ := @ih b (a :: met) (hs a ha b hab) (by rw [length_cons]; omega)
        (nodup_cons.2 ⟨hnew, hn⟩) (cons_subset.2 ⟨ha, hsub⟩)
        (fun x hx => by
          rcases mem_cons.1 hx with rfl | hx
          · exact .single hab
          · exact .tail (hmet x hx) hab)
        (hacyclic.of_follows hab)
      exact ⟨a :: p, by rw [walk_of_some hab, hp]; rfl⟩

theorem walk_isSome_iff (hs : ∀ a ∈ s, ∀ b, next a = some b → b ∈ s) (ha : a ∈ s) :
    (walk next s.length a).isSome = true ↔ Acyclic next a := by
  constructor
  · intro h
    obtain ⟨p, hp⟩ := isSome_iff_exists.1 h
    exact acyclic_of_walk hp
  · intro h
    obtain ⟨p, hp⟩ := @walk_of_acyclic _ _ _ hs s.length a [] ha (by simp) nodup_nil (by simp) (by simp) h
    rw [hp]
    rfl

/-! ### Two walks -/

variable {c : α}

theorem mem_walk_iff :
    ∀ {a : α} {p : List α}, walk next n a = some p → (c ∈ p ↔ Relation.ReflTransGen (Follows next) a c) := by
  induction n with
  | zero => intro a p h; simp at h
  | succ n ih =>
    intro a p h
    rw [Relation.ReflTransGen.cases_head_iff]
    cases hn : next a with
    | none =>
      rw [walk_of_none hn] at h
      cases h
      simp [Follows, hn, eq_comm]
    | some b =>
      rw [walk_of_some hn] at h
      obtain ⟨q, hq, rfl⟩ := map_eq_some_iff.1 h
      simp [Follows, hn, ih hq, eq_comm]

theorem walk_of_append {before after : List α} :
    ∀ {a : α}, walk next n a = some (before ++ c :: after) → walk next n c = some (c :: after) := by
  induction before generalizing n with
  | nil =>
    intro a h
    obtain ⟨q, hq⟩ := walk_head h
    obtain ⟨rfl, -⟩ := List.cons.inj hq
    exact h
  | cons y before ih =>
    intro a h
    cases n with
    | zero => simp at h
    | succ n =>
      cases hn : next a with
      | none =>
        rw [walk_of_none hn] at h
        simp at h
      | some b =>
        rw [walk_of_some hn] at h
        obtain ⟨q, hq, heq⟩ := map_eq_some_iff.1 h
        obtain ⟨-, rfl⟩ := List.cons.inj heq
        exact walk_mono (Nat.le_succ n) (ih hq)

/-- The first record of one walk that is on the other: from it on the walks are one, and nothing
before it is on both. -/
theorem walks_meet {q : List α} {onOther : α → Bool} (hp : walk next n a = some p) (hq : walk next m b = some q)
    (hon : ∀ x ∈ q, onOther x = true ↔ x ∈ p) (hc : q.find? onOther = some c) :
    ∃ front rest, walk next n c = some (c :: rest) ∧ p = front ++ c :: rest ∧ c ∉ front ∧
      ∀ x ∈ p, x ∈ q → x ∈ c :: rest := by
  obtain ⟨front, rest, rfl⟩ := append_of_mem
    ((hon c (mem_of_find?_eq_some hc)).1 (find?_some hc))
  obtain ⟨-, before, after, rfl, hbefore⟩ := find?_eq_some_iff_append.1 hc
  have hrest := walk_of_append hp
  refine ⟨front, rest, hrest, rfl, ?_, ?_⟩
  · have hn := walk_nodup hp
    rw [nodup_append] at hn
    exact fun hmem => hn.2.2 c hmem c mem_cons_self rfl
  · intro x hxp hxq
    rw [← walk_unique (walk_of_append hq) hrest]
    refine (mem_append.1 hxq).resolve_left fun hx => ?_
    have hnot := hbefore x hx
    rw [(hon x hxq).2 hxp] at hnot
    cases hnot

end Walk

section Climb

variable {α κ : Type} [DecidableEq κ] (key : α → κ) (parent : α → Option κ)

/-- The record with a key; with the newest record first, the one that was stored last. -/
def find (k : κ) (es : List α) : Option α := es.find? fun e => decide (key e = k)

/-- The record a record names as its parent. -/
def parentIn (es : List α) (e : α) : Option α := (parent e).bind fun k => find key k es

/-- The chain from the record with key `k` to its root; newest record first. -/
def climb (k : κ) : List α → List α
  | [] => []
  | e :: older =>
    if key e = k then
      e :: (match parent e with
        | none => []
        | some p => climb p older)
    else climb k older

/-- Newest first: no record names itself or a newer record as its parent. -/
def Backward : List α → Prop
  | [] => True
  | e :: older => (∀ x ∈ e :: older, parent x ≠ some (key e)) ∧ Backward older

/-- Newest first: every parent is an older record. -/
def Linked : List α → Prop
  | [] => True
  | e :: older => (∀ p, parent e = some p → ∃ x ∈ older, key x = p) ∧ Linked older

variable {key parent}

variable {e : α} {k : κ}

theorem find_cons_self (h : key e = k) (older : List α) : find key k (e :: older) = some e := by simp [find, h]

theorem find_cons_of_ne (h : key e ≠ k) (older : List α) :
    find key k (e :: older) = find key k older := by simp [find, h]

variable {es : List α}

theorem find_eq_none : find key k es = none ↔ ∀ e ∈ es, key e ≠ k := by
  simp [find, find?_eq_none]

theorem mem_of_find (h : find key k es = some e) : e ∈ es :=
  mem_of_find?_eq_some h

theorem key_of_find (h : find key k es = some e) : key e = k := by
  simpa using find?_some h

theorem climb_cons_self (h : key e = k) (older : List α) : climb key parent k (e :: older) =
      e :: (match parent e with | none => [] | some p => climb key parent p older) := by simp [climb, h]

theorem climb_cons_of_ne (h : key e ≠ k) (older : List α) :
    climb key parent k (e :: older) = climb key parent k older := by simp [climb, h]

theorem climb_eq_nil (h : find key k es = none) : climb key parent k es = [] := by
  induction es with
  | nil => rfl
  | cons e older ih =>
    by_cases he : key e = k
    · rw [find_cons_self he] at h; cases h
    · rw [find_cons_of_ne he] at h
      rw [climb_cons_of_ne he, ih h]

theorem climb_sublist (es : List α) : ∀ k, (climb key parent k es).Sublist es := by
  induction es with
  | nil => intro k; simp [climb]
  | cons e older ih =>
    intro k
    by_cases he : key e = k
    · rw [climb_cons_self he]
      cases parent e with
      | none => simp
      | some p => exact (ih p).cons_cons e
    · rw [climb_cons_of_ne he]; exact (ih k).cons e

omit [DecidableEq κ] in
theorem parent_mem_of_linked (h : Linked key parent es) {x : α} (hx : x ∈ es) {p : κ}
    (hp : parent x = some p) : ∃ y ∈ es, key y = p := by
  induction es with
  | nil => simp at hx
  | cons e older ih =>
    obtain ⟨he, hold⟩ := h
    obtain ⟨y, hy, hk⟩ : ∃ y ∈ older, key y = p := by
      cases mem_cons.1 hx with
      | inl hxe => subst hxe; exact he p hp
      | inr hxo => exact ih hold hxo
    exact ⟨y, mem_cons_of_mem e hy, hk⟩

omit [DecidableEq κ] in
/-- With distinct keys, parents that are older records point backwards. -/
theorem backward_of_linked (h : Linked key parent es) (hn : (es.map key).Nodup) : Backward key parent es := by
  induction es with
  | nil => trivial
  | cons e older ih =>
    have hold := h.2
    have hkey : ∀ y ∈ older, key y ≠ key e := fun y hy hk =>
      (nodup_cons.1 hn).1 (hk ▸ mem_map_of_mem hy)
    refine ⟨fun x hx hp => ?_, ih hold (nodup_cons.1 hn).2⟩
    obtain ⟨y, hy, hk⟩ : ∃ y ∈ older, key y = key e := by
      cases mem_cons.1 hx with
      | inl hxe => subst hxe; exact h.1 _ hp
      | inr hxo => exact parent_mem_of_linked hold hxo hp
    exact hkey y hy hk

theorem climb_head (h : find key k es = some e) : ∃ l, climb key parent k es = e :: l := by
  induction es with
  | nil => simp [find] at h
  | cons x older ih =>
    by_cases hx : key x = k
    · rw [find_cons_self hx] at h
      cases h
      rw [climb_cons_self hx]
      exact ⟨_, rfl⟩
    · rw [find_cons_of_ne hx] at h
      rw [climb_cons_of_ne hx]
      exact ih h

theorem climb_isChain (es : List α) : ∀ k, (climb key parent k es).IsChain fun a b => parent a = some (key b) := by
  induction es with
  | nil => intro k; exact isChain_nil
  | cons e older ih =>
    intro k
    by_cases he : key e = k
    · rw [climb_cons_self he]
      cases hp : parent e with
      | none => exact isChain_singleton e
      | some p =>
        show List.IsChain _ (e :: climb key parent p older)
        refine (ih p).cons fun y hy => ?_
        cases hf : find key p older with
        | none => rw [climb_eq_nil hf] at hy; simp at hy
        | some x =>
          obtain ⟨l, hl⟩ := @climb_head _ _ _ key parent _ _ _ hf
          rw [hl] at hy
          obtain rfl : x = y := by simpa using hy
          rw [hp, key_of_find hf]
    · rw [climb_cons_of_ne he]; exact ih k

/-- Where parents are never missing, a chain ends in a record without one. -/
theorem climb_root (h : Linked key parent es) : ∀ k, ∀ y ∈ (climb key parent k es).getLast?, parent y = none := by
  induction es with
  | nil => intro k y hy; simp [climb] at hy
  | cons e older ih =>
    intro k y hy
    by_cases he : key e = k
    · rw [climb_cons_self he] at hy
      cases hp : parent e with
      | none =>
        rw [hp] at hy
        obtain rfl : e = y := by simpa using hy
        exact hp
      | some p =>
        rw [hp] at hy
        obtain ⟨x, hx, hk⟩ := h.1 p hp
        obtain ⟨b, hb⟩ : ∃ b, find key p older = some b :=
          ne_none_iff_exists'.1 fun hn => find_eq_none.1 hn x hx hk
        obtain ⟨l, hl⟩ := @climb_head _ _ _ key parent _ _ _ hb
        refine ih h.2 p y ?_
        simpa [hl] using hy
    · rw [climb_cons_of_ne he] at hy
      exact ih h.2 k y hy

theorem walk_parentIn_cons {older : List α} (he : ∀ x ∈ older, parent x ≠ some (key e)) (n : Nat) :
    ∀ a ∈ older, walk (parentIn key parent (e :: older)) n a = walk (parentIn key parent older) n a := by
  induction n with
  | zero => intro a _; rfl
  | succ n ih =>
    intro a ha
    have hnext : parentIn key parent (e :: older) a = parentIn key parent older a := by
      unfold parentIn
      cases hp : parent a with
      | none => rfl
      | some p =>
        have hne : key e ≠ p := fun h => he a ha (by rw [hp, h])
        simp only [bind_some, find_cons_of_ne hne]
    cases hn : parentIn key parent older a with
    | none => rw [walk_of_none hn, walk_of_none (by rw [hnext, hn])]
    | some b =>
      have hb : b ∈ older := by
        obtain ⟨p, _, hf⟩ := bind_eq_some_iff.1 hn
        exact mem_of_find hf
      rw [walk_of_some hn, walk_of_some (by rw [hnext, hn]), ih b hb]

/-- **The loop is the recursion** on every list whose parents point backwards. -/
theorem walk_eq_climb (h : Backward key parent es) : ∀ {k : κ} {a : α}, find key k es = some a →
      walk (parentIn key parent es) es.length a = some (climb key parent k es) := by
  induction es with
  | nil => intro k a hf; simp [find] at hf
  | cons e older ih =>
    obtain ⟨he, hback⟩ := h
    have hskip := walk_parentIn_cons fun x hx => he x (mem_cons_of_mem e hx)
    intro k a hf
    by_cases hk : key e = k
    · rw [find_cons_self hk] at hf
      cases hf
      rw [climb_cons_self hk, length_cons]
      cases hp : parent e with
      | none => exact walk_of_none (by simp [parentIn, hp]) _
      | some p =>
        have hne : key e ≠ p := fun hc => he e (by simp) (by rw [hp, hc])
        show _ = some (e :: climb key parent p older)
        have hnext : parentIn key parent (e :: older) e = find key p older := by
          simp only [parentIn, hp, bind_some, find_cons_of_ne hne]
        cases hf : find key p older with
        | none =>
          rw [climb_eq_nil hf]
          exact walk_of_none (hnext.trans hf) _
        | some b =>
          rw [walk_of_some (hnext.trans hf), hskip _ b (mem_of_find hf), ih hback hf]
          rfl
    · rw [find_cons_of_ne hk] at hf
      rw [climb_cons_of_ne hk, length_cons, hskip _ a (mem_of_find hf)]
      exact walk_mono (Nat.le_succ _) (ih hback hf)

/-! ### Dropping records -/

variable (key parent) (gone : α → Bool)

/-- The key of the nearest record that stays, from the record with key `k` on towards its root. -/
def live : List α → κ → Option κ
  | [], k => some k
  | e :: older, k =>
    if key e = k ∧ gone e = true then (parent e).bind (live older) else live older k

/-- The chain from a key, if there is one. -/
def climbFrom (k : Option κ) (es : List α) : List α :=
  match k with
  | none => []
  | some k => climb key parent k es

variable {key parent gone}

theorem live_cons_of_gone (hk : key e = k) (hg : gone e = true) (older : List α) :
    live key parent gone (e :: older) k = (parent e).bind (live key parent gone older) := by
  simp [live, hk, hg]

theorem live_cons_of_ne (hk : key e ≠ k) (older : List α) :
    live key parent gone (e :: older) k = live key parent gone older k := by
  simp [live, hk]

theorem live_cons_of_stays (hg : gone e = false) (older : List α) (k : κ) :
    live key parent gone (e :: older) k = live key parent gone older k := by
  simp [live, hg]

theorem live_of_not_mem (h : k ∉ es.map key) : live key parent gone es k = some k := by
  induction es with
  | nil => rfl
  | cons e older ih =>
    simp only [map_cons, mem_cons, not_or] at h
    rw [live_cons_of_ne (Ne.symm h.1), ih h.2]

theorem live_mem (h : Linked key parent es) (hn : (es.map key).Nodup) :
    ∀ {k q : κ}, k ∈ es.map key → live key parent gone es k = some q → ∃ x ∈ es, key x = q ∧ gone x = false := by
  induction es with
  | nil => intro k q hk; simp at hk
  | cons e older ih =>
    intro k q hk hq
    obtain ⟨hnew, hold⟩ := nodup_cons.1 hn
    have hstep : ∀ {k : κ}, k ∈ older.map key → live key parent gone older k = some q →
        ∃ x ∈ e :: older, key x = q ∧ gone x = false := by
      intro k hk hq
      obtain ⟨x, hx, hkey, hg⟩ := ih h.2 hold hk hq
      exact ⟨x, mem_cons_of_mem e hx, hkey, hg⟩
    by_cases hek : key e = k
    · cases hg : gone e with
      | true =>
        rw [live_cons_of_gone hek hg] at hq
        obtain ⟨p, hp, hq⟩ := bind_eq_some_iff.1 hq
        obtain ⟨y, hy, hkey⟩ := h.1 p hp
        exact hstep (hkey ▸ mem_map_of_mem hy) hq
      | false =>
        rw [live_cons_of_stays hg, live_of_not_mem (hek ▸ hnew), Option.some.injEq] at hq
        exact ⟨e, by simp, hek.trans hq, hg⟩
    · rw [live_cons_of_ne hek] at hq
      have hk' : k ∈ older.map key := by
        cases mem_cons.1 hk with
        | inl he => exact absurd he.symm hek
        | inr hk => exact hk
      exact hstep hk' hq

theorem live_of_stays (hn : (es.map key).Nodup) {x : α} (hx : x ∈ es)
    (hg : gone x = false) : live key parent gone es (key x) = some (key x) := by
  induction es with
  | nil => cases hx
  | cons e older ih =>
    obtain ⟨hnew, hold⟩ := nodup_cons.1 hn
    cases mem_cons.1 hx with
    | inl he =>
      subst he
      rw [live_cons_of_stays hg, live_of_not_mem hnew]
    | inr hx =>
      have hne : key e ≠ key x := fun heq => hnew (heq ▸ mem_map_of_mem hx)
      rw [live_cons_of_ne hne, ih hold hx]

/-- A chain is dropped records, and then the chain of the nearest one that stays. -/
theorem climb_live (h : Linked key parent es) (hn : (es.map key).Nodup) : ∀ {k : κ}, k ∈ es.map key →
      ∃ g, climb key parent k es = g ++ climbFrom key parent (live key parent gone es k) es ∧
        ∀ x ∈ g, gone x = true := by
  induction es with
  | nil => intro k hk; simp at hk
  | cons e older ih =>
    intro k hk
    obtain ⟨hnew, hold⟩ := nodup_cons.1 hn
    have hskip : ∀ {k : κ}, k ∈ older.map key →
        climbFrom key parent (live key parent gone older k) (e :: older) =
          climbFrom key parent (live key parent gone older k) older := by
      intro k hk
      cases hl : live key parent gone older k with
      | none => rfl
      | some q =>
        obtain ⟨x, hx, hxq, _⟩ := live_mem h.2 hold hk hl
        have hne : key e ≠ q := fun heq => hnew (heq ▸ hxq ▸ mem_map_of_mem hx)
        exact climb_cons_of_ne hne older
    by_cases hek : key e = k
    · cases hg : gone e with
      | false =>
        rw [live_cons_of_stays hg, live_of_not_mem (hek ▸ hnew)]
        exact ⟨[], rfl, by simp⟩
      | true =>
        rw [climb_cons_self hek, live_cons_of_gone hek hg]
        cases hp : parent e with
        | none => exact ⟨[e], rfl, by simpa using hg⟩
        | some p =>
          obtain ⟨y, hy, hyk⟩ := h.1 p hp
          have hmem : p ∈ older.map key := hyk ▸ mem_map_of_mem hy
          obtain ⟨g, hgl, hall⟩ := ih h.2 hold hmem
          refine ⟨e :: g, ?_, ?_⟩
          · show e :: climb key parent p older = _
            rw [bind_some, hskip hmem, hgl]
            rfl
          · intro x hx
            cases mem_cons.1 hx with
            | inl he => rw [he]; exact hg
            | inr hx => exact hall x hx
    · have hmem : k ∈ older.map key := by
        cases mem_cons.1 hk with
        | inl he => exact absurd he.symm hek
        | inr hk => exact hk
      rw [climb_cons_of_ne hek, live_cons_of_ne hek, hskip hmem]
      exact ih h.2 hold hmem

section Relink

variable {f : α → α}

theorem relinked_older {e : α} {older : List α} (h : Linked key parent (e :: older))
    (hn : ((e :: older).map key).Nodup)
    (hf : ∀ x ∈ e :: older, parent (f x) = (parent x).bind (live key parent gone (e :: older))) :
    ∀ x ∈ e :: older, parent (f x) = (parent x).bind (live key parent gone older) := by
  intro x hx
  rw [hf x hx]
  cases hp : parent x with
  | none => rfl
  | some p =>
    have hne : key e ≠ p := by
      obtain ⟨y, hy, hk⟩ : ∃ y ∈ older, key y = p := by
        cases mem_cons.1 hx with
        | inl he => exact h.1 p (he ▸ hp)
        | inr hx => exact parent_mem_of_linked h.2 hx hp
      exact fun heq => (nodup_cons.1 hn).1 (heq ▸ hk ▸ mem_map_of_mem hy)
    exact live_cons_of_ne hne older

/-- **The chains without the dropped records.** -/
theorem climb_relinked (hkey : ∀ x, key (f x) = key x) {es : List α} (h : Linked key parent es)
    (hn : (es.map key).Nodup) (hf : ∀ x ∈ es, parent (f x) = (parent x).bind (live key parent gone es)) :
    ∀ k, climbFrom key parent (live key parent gone es k) ((es.filter fun x => !gone x).map f) =
      ((climb key parent k es).filter fun x => !gone x).map f := by
  induction es with
  | nil => intro k; rfl
  | cons e older ih =>
    intro k
    have hf' := relinked_older h hn hf
    obtain ⟨hnew, hold⟩ := nodup_cons.1 hn
    have ih := ih h.2 hold fun x hx => hf' x (mem_cons_of_mem e hx)
    have hparent : climbFrom key parent (parent (f e)) ((older.filter fun x => !gone x).map f) =
        ((climbFrom key parent (parent e) older).filter fun x => !gone x).map f := by
      rw [hf' e (by simp)]
      cases parent e with
      | none => rfl
      | some p => exact ih p
    -- a record newer than all of a chain is skipped
    have hskip : ∀ {q : κ}, key e ≠ q →
        climbFrom key parent (some q) (((e :: older).filter fun x => !gone x).map f) =
          climbFrom key parent (some q) ((older.filter fun x => !gone x).map f) := by
      intro q hq
      cases hg : gone e with
      | true => simp [hg]
      | false =>
        have hfe : key (f e) ≠ q := by rw [hkey]; exact hq
        simp only [filter_cons, hg, Bool.not_false, if_true, map_cons]
        exact climb_cons_of_ne hfe _
    have hlive : ∀ {k : κ}, key e ≠ k → live key parent gone older k ≠ some (key e) := by
      intro k hne hq
      by_cases hk : k ∈ older.map key
      · obtain ⟨x, hx, hxk, _⟩ := live_mem h.2 hold hk hq
        exact hnew (hxk ▸ mem_map_of_mem hx)
      · rw [live_of_not_mem hk, Option.some.injEq] at hq
        exact hne hq.symm
    have hskip' : ∀ {o : Option κ}, o ≠ some (key e) →
        climbFrom key parent o (((e :: older).filter fun x => !gone x).map f) =
          climbFrom key parent o ((older.filter fun x => !gone x).map f) := by
      intro o ho
      cases o with
      | none => rfl
      | some q => exact hskip fun heq => ho (by rw [heq])
    by_cases hk : key e = k
    · rw [climb_cons_self hk]
      show _ = ((e :: climbFrom key parent (parent e) older).filter fun x => !gone x).map f
      cases hg : gone e with
      | true =>
        rw [live_cons_of_gone hk hg, ← hf' e (by simp), hskip', hparent]
        · simp [hg]
        · rw [hf' e (by simp)]
          intro hq
          obtain ⟨p, hp, hq⟩ := bind_eq_some_iff.1 hq
          obtain ⟨y, hy, hyk⟩ := h.1 p hp
          exact hlive (fun heq => hnew (heq ▸ hyk ▸ mem_map_of_mem hy)) hq
      | false =>
        rw [live_cons_of_stays hg, live_of_not_mem (hk ▸ hnew)]
        simp only [filter_cons, hg, Bool.not_false, if_true, map_cons, ← hparent]
        exact climb_cons_self ((hkey e).trans hk) _
    · rw [live_cons_of_ne hk, climb_cons_of_ne hk, hskip' (hlive hk)]
      exact ih k

theorem linked_relinked (hkey : ∀ x, key (f x) = key x) {es : List α} (h : Linked key parent es)
    (hn : (es.map key).Nodup) (hf : ∀ x ∈ es, parent (f x) = (parent x).bind (live key parent gone es)) :
    Linked key parent ((es.filter fun x => !gone x).map f) := by
  induction es with
  | nil => trivial
  | cons e older ih =>
    have hf' := relinked_older h hn hf
    have hold := (nodup_cons.1 hn).2
    have ih := ih h.2 hold fun x hx => hf' x (mem_cons_of_mem e hx)
    cases hg : gone e with
    | true => simpa [hg] using ih
    | false =>
      simp only [filter_cons, hg, Bool.not_false, if_true, map_cons]
      refine ⟨fun q hq => ?_, ih⟩
      rw [hf' e (by simp)] at hq
      obtain ⟨p, hp, hq⟩ := bind_eq_some_iff.1 hq
      obtain ⟨y, hy, hyk⟩ := h.1 p hp
      obtain ⟨x, hx, hxk, hxg⟩ := live_mem h.2 hold (hyk ▸ mem_map_of_mem hy) hq
      refine ⟨f x, mem_map_of_mem (mem_filter.2 ⟨hx, by simp [hxg]⟩), ?_⟩
      rw [hkey, hxk]

end Relink

end Climb

end ParentChain
end RePrime
