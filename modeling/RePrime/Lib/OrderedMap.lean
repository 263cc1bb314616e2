import Mathlib.Data.List.Induction
import Mathlib.Data.List.Nodup

/-!
# RePrime.Lib.OrderedMap

A map that remembers the order in which its keys were first set, as a JavaScript `Map` does:
setting a key that is present keeps its place, deleting it and setting it again moves it to the
end. The keys are distinct by construction.

* `get?_set`, `get?_delete`, `get?_empty`: what a lookup sees.
* `has_iff_get?`, `mem_keys_set`: presence.
* `set_of_not_has`, `delete_set`: a fresh key goes to the end, and deleting it undoes that.
* `ofList`: the map of a list of entries.
* `inheritedNames`: what a lookup in a JavaScript object finds besides its own keys.
* `put`: assignment of a value that may be missing.
-/

namespace RePrime

open List

structure OrderedMap (κ α : Type) where
  entries : List (κ × α)
  nodup : (entries.map Prod.fst).Nodup

namespace OrderedMap

variable {κ α : Type} [DecidableEq κ]

def empty : OrderedMap κ α := ⟨[], nodup_nil⟩

def keys (m : OrderedMap κ α) : List κ := m.entries.map Prod.fst

def get? (m : OrderedMap κ α) (k : κ) : Option α := m.entries.lookup k

def has (m : OrderedMap κ α) (k : κ) : Bool := decide (k ∈ m.keys)

def size (m : OrderedMap κ α) : Nat := m.entries.length

/-- Replace the value of a key that is present. -/
def replace (k : κ) (v : α) (l : List (κ × α)) : List (κ × α) :=
  l.map fun p => if p.1 = k then (k, v) else p

theorem map_fst_replace (k : κ) (v : α) (l : List (κ × α)) : (replace k v l).map Prod.fst = l.map Prod.fst := by
  simp only [replace, map_map]
  refine map_congr_left fun p _ => ?_
  by_cases hp : p.1 = k <;> simp [hp]

def set (m : OrderedMap κ α) (k : κ) (v : α) : OrderedMap κ α :=
  if h : k ∈ m.keys then ⟨replace k v m.entries, by rw [map_fst_replace]; exact m.nodup⟩
  else ⟨m.entries ++ [(k, v)], by
    have hk : k ∉ m.entries.map Prod.fst := h
    rw [map_append, nodup_append]
    refine ⟨m.nodup, by simp, ?_⟩
    intro a ha b hb hab
    simp only [map_cons, map_nil, mem_singleton] at hb
    exact hk (by rw [← hb, ← hab]; exact ha)⟩

def delete (m : OrderedMap κ α) (k : κ) : OrderedMap κ α :=
  ⟨m.entries.filter fun p => decide (p.1 ≠ k), m.nodup.sublist ((filter_sublist).map Prod.fst)⟩

/-! ## Lookups -/

variable {m : OrderedMap κ α}

omit [DecidableEq κ] in
theorem ext_entries {n : OrderedMap κ α} (h : m.entries = n.entries) : m = n := by
  cases m; cases n; cases h; rfl

@[simp] theorem get?_empty (k : κ) : (empty : OrderedMap κ α).get? k = none := rfl

omit [DecidableEq κ] in
@[simp] theorem keys_empty : (empty : OrderedMap κ α).keys = [] := rfl

variable {k : κ} {l : List (κ × α)}

theorem lookup_eq_none : l.lookup k = none ↔ k ∉ l.map Prod.fst := by
  induction l with
  | nil => simp
  | cons p l ih =>
    obtain ⟨a, b⟩ := p
    by_cases h : k = a
    · simp [h]
    · simp [lookup_cons, h, beq_eq_false_iff_ne.2 h, ih]

theorem get?_eq_none : m.get? k = none ↔ k ∉ m.keys := lookup_eq_none

theorem has_iff_get? : m.has k = true ↔ ∃ v, m.get? k = some v := by
  rw [has, decide_eq_true_iff, ← Option.ne_none_iff_exists', ne_eq, get?_eq_none, not_not]

theorem has_eq_false_iff : m.has k = false ↔ m.get? k = none := by
  rw [has, decide_eq_false_iff_not, get?_eq_none]

variable {v : α}

theorem mem_of_lookup (h : l.lookup k = some v) : (k, v) ∈ l := by
  induction l with
  | nil => simp at h
  | cons p l ih =>
    obtain ⟨a, b⟩ := p
    by_cases hk : k = a
    · subst hk
      simp only [lookup_cons, beq_self_eq_true, Option.some.injEq] at h
      simp [h]
    · simp only [lookup_cons, beq_eq_false_iff_ne.2 hk] at h
      exact mem_cons_of_mem _ (ih h)

theorem mem_values_of_lookup (h : l.lookup k = some v) :
    v ∈ l.map Prod.snd := mem_map_of_mem (f := Prod.snd) (mem_of_lookup h)

theorem mem_entries_of_get? (h : m.get? k = some v) : (k, v) ∈ m.entries := mem_of_lookup h

theorem lookup_of_mem (hn : (l.map Prod.fst).Nodup) (h : (k, v) ∈ l) : l.lookup k = some v := by
  induction l with
  | nil => cases h
  | cons e l ih =>
    rw [map_cons, nodup_cons] at hn
    rw [lookup_cons]
    cases mem_cons.1 h with
    | inl he =>
      rw [← he, beq_self_eq_true]
    | inr hl =>
      have hne : k ≠ e.1 := fun h => hn.1 (h ▸ mem_map_of_mem (f := Prod.fst) hl)
      rw [beq_eq_false_iff_ne.2 hne]
      exact ih hn.2 hl

theorem get?_of_mem_entries (h : (k, v) ∈ m.entries) : m.get? k = some v := lookup_of_mem m.nodup h

theorem lookup_replace (k j : κ) (v : α) (l : List (κ × α)) :
    (replace k v l).lookup j = if j = k ∧ k ∈ l.map Prod.fst then some v else l.lookup j := by
  induction l with
  | nil => simp [replace]
  | cons p l ih =>
    obtain ⟨a, b⟩ := p
    simp only [replace, map_cons] at ih ⊢
    by_cases ha : a = k
    · subst ha
      by_cases hj : j = a
      · subst hj; simp
      · simp only [if_pos, lookup_cons, beq_eq_false_iff_ne.2 hj, ih, hj, false_and, if_false]
    · by_cases hj : j = a
      · subst hj; simp [ha]
      · simp only [if_neg ha, lookup_cons, beq_eq_false_iff_ne.2 hj, ih, mem_cons, Ne.symm ha, false_or]

theorem get?_set (m : OrderedMap κ α) (k j : κ) (v : α) :
    (m.set k v).get? j = if j = k then some v else m.get? j := by
  unfold set get?
  by_cases h : k ∈ m.keys
  · have hk : k ∈ m.entries.map Prod.fst := h
    rw [dif_pos h, lookup_replace]
    simp only [hk, and_true]
  · have hk : m.entries.lookup k = none := lookup_eq_none.2 h
    rw [dif_neg h, lookup_append]
    by_cases hj : j = k
    · subst hj; simp [hk]
    · simp [lookup_cons, beq_eq_false_iff_ne.2 hj, hj]

theorem lookup_filter_ne (k j : κ) (l : List (κ × α)) :
    (l.filter fun p => decide (p.1 ≠ k)).lookup j = if j = k then none else l.lookup j := by
  induction l with
  | nil => simp
  | cons p l ih =>
    obtain ⟨a, b⟩ := p
    by_cases ha : a = k
    · subst ha
      rw [filter_cons_of_neg (by simp), ih]
      by_cases hj : j = a
      · simp [hj]
      · simp [hj, lookup_cons, beq_eq_false_iff_ne.2 hj]
    · rw [filter_cons_of_pos (by simpa using ha)]
      by_cases hj : j = a
      · subst hj; simp [ha]
      · simp only [lookup_cons, beq_eq_false_iff_ne.2 hj, ih]

theorem get?_delete (m : OrderedMap κ α) (k j : κ) :
    (m.delete k).get? j = if j = k then none else m.get? j := lookup_filter_ne k j m.entries

theorem set_of_not_has (h : m.has k = false) (v : α) : (m.set k v).entries = m.entries ++ [(k, v)] := by
  have hk : k ∉ m.keys := by simpa [has] using h
  rw [set, dif_neg hk]

theorem set_of_has (h : m.has k = true) (v : α) : (m.set k v).entries = replace k v m.entries := by
  have hk : k ∈ m.keys := by simpa [has] using h
  rw [set, dif_pos hk]

theorem delete_set (h : m.has k = false) (v : α) : (m.set k v).delete k = m := by
  have hk : k ∉ m.keys := of_decide_eq_false h
  have hall : m.entries.filter (fun p => decide (p.1 ≠ k)) = m.entries := by
    refine filter_eq_self.2 fun p hp => decide_eq_true fun he => hk ?_
    exact he ▸ mem_map_of_mem hp
  refine ext_entries ?_
  show (m.set k v).entries.filter (fun p => decide (p.1 ≠ k)) = m.entries
  rw [set_of_not_has h, filter_append, hall]
  simp

theorem mem_keys_set {j : κ} : j ∈ (m.set k v).keys ↔ j = k ∨ j ∈ m.keys := by
  rw [← not_iff_not, ← get?_eq_none, get?_set]
  by_cases h : j = k <;> simp [h, get?_eq_none]

theorem mem_entries_set {e : κ × α} (h : e ∈ (m.set k v).entries) : e = (k, v) ∨ e ∈ m.entries := by
  cases hk : m.has k with
  | false =>
    rw [set_of_not_has hk, mem_append, mem_singleton] at h
    exact h.symm
  | true =>
    rw [set_of_has hk, replace] at h
    obtain ⟨p, hp, rfl⟩ := mem_map.1 h
    by_cases he : p.1 = k
    · rw [if_pos he]
      exact .inl rfl
    · rw [if_neg he]
      exact .inr hp

theorem set_set (m : OrderedMap κ α) (k : κ) (v w : α) : (m.set k v).set k w = m.set k w := by
  refine ext_entries ?_
  have hhas : (m.set k v).has k = true := decide_eq_true (mem_keys_set.2 (.inl rfl))
  rw [set_of_has hhas]
  cases hk : m.has k with
  | false =>
    have hnot : k ∉ m.entries.map Prod.fst := of_decide_eq_false hk
    have hsame : replace k w m.entries = m.entries := by
      refine (map_congr_left fun p hp => if_neg fun he => hnot ?_).trans (map_id' _)
      exact he ▸ mem_map_of_mem hp
    rw [set_of_not_has hk, set_of_not_has hk, replace, map_append]
    rw [replace] at hsame
    rw [hsame]
    simp
  | true =>
    rw [set_of_has hk, set_of_has hk, replace, replace, replace, map_map]
    refine map_congr_left fun p _ => ?_
    by_cases hp : p.1 = k
    · simp [hp]
    · simp [hp]

theorem nodup_values_set (h : (m.entries.map Prod.snd).Nodup)
    (hv : v ∉ m.entries.map Prod.snd) (k : κ) : ((m.set k v).entries.map Prod.snd).Nodup := by
  cases hk : m.has k with
  | false =>
    rw [set_of_not_has hk, map_append, nodup_append']
    exact ⟨h, nodup_singleton v, disjoint_singleton.2 hv⟩
  | true =>
    rw [set_of_has hk, replace, map_map, List.Nodup, pairwise_map]
    have hkeys : m.entries.Pairwise fun p q => p.1 ≠ q.1 := pairwise_map.1 m.nodup
    have hvalues : m.entries.Pairwise fun p q => p.2 ≠ q.2 := pairwise_map.1 h
    refine (hkeys.and hvalues).imp_of_mem ?_
    intro p q hp hq hpq
    have hvp : v ≠ p.2 := fun he => hv (he ▸ mem_map_of_mem hp)
    have hvq : v ≠ q.2 := fun he => hv (he ▸ mem_map_of_mem hq)
    by_cases hpk : p.1 = k
    · have hqk : q.1 ≠ k := fun he => hpq.1 (hpk.trans he.symm)
      simpa [hpk, hqk] using hvq
    · by_cases hqk : q.1 = k
      · simpa [hpk, hqk] using hvp.symm
      · simpa [hpk, hqk] using hpq.2

/-! ## A map from a list of entries -/

/-- Later entries win. -/
def ofList (l : List (κ × α)) : OrderedMap κ α := l.foldl (fun m e => m.set e.1 e.2) empty

theorem ofList_concat (l : List (κ × α)) (e : κ × α) : ofList (l ++ [e]) = (ofList l).set e.1 e.2 := by
  rw [ofList, foldl_append]
  rfl

theorem mem_of_get?_ofList (h : (ofList l).get? k = some v) : (k, v) ∈ l := by
  induction l using reverseRecOn with
  | nil => cases h
  | append_singleton l e ih =>
    rw [ofList_concat, get?_set] at h
    by_cases hk : k = e.1
    · rw [if_pos hk] at h
      cases h
      subst hk
      exact mem_append_right _ mem_cons_self
    · rw [if_neg hk] at h
      exact mem_append_left _ (ih h)

theorem get?_ofList_eq_none : (ofList l).get? k = none ↔ ∀ e ∈ l, e.1 ≠ k := by
  induction l using reverseRecOn with
  | nil => exact iff_of_true rfl (by simp)
  | append_singleton l e ih =>
    rw [ofList_concat, get?_set]
    by_cases hk : k = e.1
    · rw [if_pos hk]
      exact iff_of_false (by simp) fun h => h e (mem_append_right _ mem_cons_self) hk.symm
    · rw [if_neg hk, ih, forall_mem_append]
      exact (and_iff_left (by simpa using Ne.symm hk)).symm

theorem mem_of_mem_entries_ofList {e : κ × α} (h : e ∈ (ofList l).entries) : e ∈ l := by
  induction l using reverseRecOn with
  | nil => cases h
  | append_singleton l p ih =>
    rw [ofList_concat] at h
    cases mem_entries_set h with
    | inl h => exact mem_append_right _ (mem_singleton.2 h)
    | inr h => exact mem_append_left _ (ih h)

theorem get?_ofList_of_mem (h : (k, v) ∈ l) (hone : ∀ e ∈ l, e.1 = k → e.2 = v) : (ofList l).get? k = some v := by
  cases hg : (ofList l).get? k with
  | none => exact absurd rfl (get?_ofList_eq_none.1 hg _ h)
  | some v' => exact congrArg some (hone _ (mem_of_get?_ofList hg) rfl)

theorem get?_ofList_entries (m : OrderedMap κ α) (k : κ) : (ofList m.entries).get? k = m.get? k := by
  cases hm : m.get? k with
  | none =>
    rw [get?_ofList_eq_none]
    intro e he hk
    rw [← hk, get?_of_mem_entries he] at hm
    cases hm
  | some v =>
    refine get?_ofList_of_mem (mem_entries_of_get? hm) ?_
    intro e he hk
    have h := get?_of_mem_entries he
    rw [hk, hm] at h
    exact (Option.some.inj h).symm

/-! ## Objects used as maps -/

/-- The functions that every JavaScript object has from its prototype: a lookup of one of these names in an object
that does not have it finds the function. -/
def inheritedNames : List String :=
  ["constructor", "hasOwnProperty", "isPrototypeOf", "propertyIsEnumerable", "toLocaleString", "toString",
    "valueOf", "__defineGetter__", "__defineSetter__", "__lookupGetter__", "__lookupSetter__"]

/-! ## Optional values -/

/-- Assign a value that may be missing: the key goes when it is. -/
def put (m : OrderedMap κ α) (k : κ) : Option α → OrderedMap κ α
  | some v => m.set k v
  | none => m.delete k

theorem get?_put (m : OrderedMap κ α) (k j : κ) (o : Option α) :
    (m.put k o).get? j = if j = k then o else m.get? j := by
  cases o with
  | none => exact get?_delete m k j
  | some v => exact get?_set m k j v

theorem get?_foldl_put (g : κ → Option α) (l : List κ) (m : OrderedMap κ α) (j : κ) :
    (l.foldl (fun m k => m.put k (g k)) m).get? j = if j ∈ l then g j else m.get? j := by
  induction l generalizing m with
  | nil => simp
  | cons k l ih =>
    rw [foldl_cons, ih, get?_put]
    by_cases hl : j ∈ l
    · rw [if_pos hl, if_pos (mem_cons_of_mem _ hl)]
    · rw [if_neg hl]
      by_cases hk : j = k
      · rw [if_pos hk, if_pos (hk ▸ mem_cons_self), hk]
      · rw [if_neg hk, if_neg (by simp [hk, hl])]

end OrderedMap
end RePrime
