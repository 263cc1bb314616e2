import RePrime.Compact.Prepare
import RePrime.Session.WalkEnds

/-!
# RePrime.Compact.BranchPath

The entries that are left behind when the leaf moves to another place of the session tree.

* `collectEntriesForBranchSummary`: back from the old leaf to the deepest entry that the way to the
  target goes through too.
* `collectEntriesForBranchSummary_spec`: that entry, and the entries below it, for every tree.
-/

namespace RePrime
namespace Compact

open Session ParentChain List

structure CollectEntriesResult where
  entries : List SessionEntry
  commonAncestorId : Option String

/-- `while (current && current !== commonAncestorId)`; `none` is a loop that never ends. -/
def collectFrom (byId : Index) (commonAncestorId : Option String) : Nat → Option String →
    Option (List SessionEntry)
  | 0, _ => none
  | n + 1, current =>
    match current with
    | none => some []
    | some id =>
      if id = "" ∨ some id = commonAncestorId then some []
      else
        match byId.get? id with
        | none => some []
        | some entry => (collectFrom byId commonAncestorId n entry.parentId).map (entry :: ·)

/-- The newest entry on the way to the target whose id is on the old path. -/
def commonAncestor (oldPath targetPath : List SessionEntry) : Option String :=
  (targetPath.reverse.find? fun e => (oldPath.map SessionEntry.id).contains e.id).map SessionEntry.id

/-- The outer `none` is a walk that never ends. -/
def collectEntriesForBranchSummary (sm : SessionManager) (oldLeafId : Option String) (targetId : String) :
    Option CollectEntriesResult :=
  match oldLeafId with
  | none => some { entries := [], commonAncestorId := none }
  | some oldId =>
    if oldId = "" then some { entries := [], commonAncestorId := none }
    else
      match getBranch sm oldId, getBranch sm targetId with
      | some oldPath, some targetPath =>
        let commonAncestorId := commonAncestor oldPath targetPath
        (collectFrom sm.byId commonAncestorId (sm.byId.size + 2) (some oldId)).map fun entries =>
          { entries := entries.reverse, commonAncestorId }
      | _, _ => none

/-! ## Session trees -/

/-- Entries stored under their ids, with parent links that lead to a root. -/
structure SessionTree (byId : Index) : Prop where
  keyed : ∀ id e, byId.get? id = some e → e.id = id ∧ id ≠ ""
  rooted : ∀ id e, byId.get? id = some e → Acyclic (parentEntry byId) e

theorem sessionTree_of_wellFormed {sm : SessionManager} (h : WellFormed sm) : SessionTree sm.byId where
  keyed id e he := by
    rw [h.index, get?_indexById] at he
    have hmem := mem_of_find he
    rw [mem_reverse] at hmem
    have hid := key_of_find he
    exact ⟨hid, hid ▸ h.ids_ne e hmem⟩
  rooted id e he := by
    rw [h.index] at he ⊢
    rw [← pathTo_isSome_iff, pathTo_indexById h.ordered he]
    rfl

/-- `a` is `e` or an ancestor of it. -/
def Ancestor (byId : Index) (a e : SessionEntry) : Prop :=
  Relation.ReflTransGen (Follows (parentEntry byId)) e a

variable {e : SessionEntry}

theorem parentId_of_parent {p : String} (h : e.parent = some p) : e.parentId = some p ∧ p ≠ "" := by
  unfold SessionEntry.parent at h
  cases hp : e.parentId with
  | none =>
    rw [hp] at h
    cases h
  | some q =>
    simp only [hp] at h
    split at h
    · cases h
    · rename_i hne
      cases h
      exact ⟨rfl, hne⟩

theorem parent_of_parentId {p : String} (h : e.parentId = some p) (hp : p ≠ "") : e.parent = some p := by
  rw [SessionEntry.parent, h]
  exact if_neg hp

variable {byId : Index}

theorem SessionTree.parent_stored (h : SessionTree byId) {b : SessionEntry} (hb : parentEntry byId e = some b) :
    e.parentId = some b.id ∧ byId.get? b.id = some b := by
  obtain ⟨p, hp, hget⟩ := Option.bind_eq_some_iff.1 hb
  obtain ⟨rfl, -⟩ := h.keyed p b hget
  exact ⟨(parentId_of_parent hp).1, hget⟩

theorem collectFrom_root (h : parentEntry byId e = none)
    (common : Option String) (n : Nat) : collectFrom byId common (n + 1) e.parentId = some [] := by
  cases hp : e.parentId with
  | none => rfl
  | some p =>
    by_cases hstop : p = "" ∨ some p = common
    · simp only [collectFrom, if_pos hstop]
    · have hget : byId.get? p = none := by
        rw [parentEntry, parent_of_parentId hp fun hne => hstop (.inl hne)] at h
        exact h
      simp only [collectFrom, if_neg hstop, hget]

/-- The loop takes what comes before the common ancestor on the walk. -/
theorem collectFrom_walk (h : SessionTree byId) {common : Option String}
    {front rest : List SessionEntry} (hfront : ∀ x ∈ front, some x.id ≠ common)
    (hrest : common = rest.head?.map SessionEntry.id) {n : Nat} :
    ∀ {e : SessionEntry} {fuel : Nat}, byId.get? e.id = some e →
      walk (parentEntry byId) n e = some (front ++ rest) → front.length < fuel →
      collectFrom byId common fuel (some e.id) = some front := by
  induction front generalizing n with
  | nil =>
    intro e fuel he hw hfuel
    obtain ⟨tail, rfl⟩ := walk_head hw
    obtain ⟨fuel, rfl⟩ : ∃ k, fuel = k + 1 := ⟨fuel - 1, by rw [length_nil] at hfuel; omega⟩
    exact if_pos (.inr hrest.symm)
  | cons y front ih =>
    intro e fuel he hw hfuel
    obtain ⟨tail, htail⟩ := walk_head hw
    obtain ⟨rfl, -⟩ := List.cons.inj htail
    rw [length_cons] at hfuel
    obtain ⟨fuel, rfl⟩ : ∃ k, fuel = k + 2 := ⟨fuel - 2, by omega⟩
    have hgo : ¬(y.id = "" ∨ some y.id = common) := by
      rintro (hempty | hcommon)
      · exact (h.keyed y.id y he).2 hempty
      · exact hfront y mem_cons_self hcommon
    simp only [collectFrom, if_neg hgo, he]
    cases n with
    | zero => simp at hw
    | succ n =>
      cases hb : parentEntry byId y with
      | none =>
        rw [walk_of_none hb] at hw
        have hnil : front ++ rest = [] := (List.cons.inj (Option.some.inj hw)).2.symm
        rw [(append_eq_nil_iff.1 hnil).1]
        exact congrArg (Option.map _) (collectFrom_root hb common fuel)
      | some b =>
        obtain ⟨hparent, hstored⟩ := h.parent_stored hb
        rw [walk_of_some hb] at hw
        obtain ⟨q, hq, heq⟩ := Option.map_eq_some_iff.1 hw
        obtain ⟨-, rfl⟩ := List.cons.inj heq
        have hloop := ih (fun x hx => hfront x (mem_cons_of_mem y hx)) hstored hq
          (show front.length < fuel + 1 by omega)
        rw [hparent]
        exact congrArg (Option.map _) hloop

/-! ## What is left behind -/

/-- `r` holds the path to `old` below the deepest common ancestor of `old` and `target`, or all of it
when they have none. -/
inductive LeftBehind (byId : Index) (old target : SessionEntry) (r : CollectEntriesResult) : Prop
  | below (c : SessionEntry) (above : List SessionEntry) (named : r.commonAncestorId = some c.id)
      (ofOld : Ancestor byId c old) (ofTarget : Ancestor byId c target)
      (deepest : ∀ x, Ancestor byId x old → Ancestor byId x target → Ancestor byId x c)
      (toAncestor : pathTo byId c = some above) (toOld : pathTo byId old = some (above ++ r.entries))
  | apart (named : r.commonAncestorId = none)
      (none : ∀ x, Ancestor byId x old → ¬Ancestor byId x target)
      (toOld : pathTo byId old = some r.entries)

theorem stored_of_ancestor (h : SessionTree byId) {x : SessionEntry}
    (he : byId.get? e.id = some e) (hx : Ancestor byId x e) : byId.get? x.id = some x := by
  cases Relation.reflTransGen_iff_eq_or_transGen.1 hx with
  | inl heq =>
    rw [heq]
    exact he
  | inr hx =>
    obtain ⟨b, -, hbx⟩ := Relation.TransGen.tail'_iff.1 hx
    exact (h.parent_stored hbx).2

theorem exists_walk (h : SessionTree byId) (he : byId.get? e.id = some e) :
    ∃ p, walk (parentEntry byId) (byId.size + 1) e = some p ∧ pathTo byId e = some p.reverse := by
  obtain ⟨path, hpath⟩ := Option.isSome_iff_exists.1 ((pathTo_isSome_iff byId e).2 (h.rooted _ e he))
  have hw := hpath
  rw [pathTo] at hw
  obtain ⟨p, hp, rfl⟩ := Option.map_eq_some_iff.1 hw
  exact ⟨p, hp, hpath⟩

theorem contains_id_iff {p : List SessionEntry} (hp : ∀ x ∈ p, byId.get? x.id = some x)
    {x : SessionEntry} (hx : byId.get? x.id = some x) :
    (p.reverse.map SessionEntry.id).contains x.id = true ↔ x ∈ p := by
  rw [contains_iff_mem, mem_map]
  constructor
  · rintro ⟨y, hy, hid⟩
    have hy := mem_reverse.1 hy
    have hstored := hp y hy
    rw [hid, hx] at hstored
    exact Option.some.inj hstored ▸ hy
  · exact fun hx => ⟨x, mem_reverse.2 hx, rfl⟩

theorem collect_leftBehind {sm : SessionManager} (h : SessionTree sm.byId) {old target : SessionEntry}
    (hold : sm.byId.get? old.id = some old) (htarget : sm.byId.get? target.id = some target) :
    ∃ r, collectEntriesForBranchSummary sm (some old.id) target.id = some r ∧ LeftBehind sm.byId old target r := by
  obtain ⟨p, hp, hpath⟩ := exists_walk h hold
  obtain ⟨q, hq, hqpath⟩ := exists_walk h htarget
  have hpstored : ∀ x ∈ p, sm.byId.get? x.id = some x :=
    fun x hx => stored_of_ancestor h hold ((mem_walk_iff hp).1 hx)
  have hqstored : ∀ x ∈ q, sm.byId.get? x.id = some x :=
    fun x hx => stored_of_ancestor h htarget ((mem_walk_iff hq).1 hx)
  have hcollect : collectEntriesForBranchSummary sm (some old.id) target.id =
      (collectFrom sm.byId (commonAncestor p.reverse q.reverse) (sm.byId.size + 2) (some old.id)).map
        fun entries =>
          { entries := entries.reverse, commonAncestorId := commonAncestor p.reverse q.reverse } := by
    have hne : ¬old.id = "" := (h.keyed old.id old hold).2
    simp only [collectEntriesForBranchSummary, if_neg hne, getBranch, hold, htarget, hpath, hqpath]
  have hon : ∀ x ∈ q, (p.reverse.map SessionEntry.id).contains x.id = true ↔ x ∈ p :=
    fun x hx => contains_id_iff hpstored (hqstored x hx)
  have hlength : p.length ≤ sm.byId.size + 1 := walk_length hp
  rw [hcollect, commonAncestor, reverse_reverse]
  cases hc : q.find? fun e => (p.reverse.map SessionEntry.id).contains e.id with
  | none =>
    have happart : ∀ x ∈ q, x ∉ p := by
      intro x hx hxp
      exact find?_eq_none.1 hc x hx ((hon x hx).2 hxp)
    have hloop := @collectFrom_walk sm.byId h none p [] (by simp) rfl _ old (sm.byId.size + 2) hold
      (by rw [append_nil]; exact hp) (by omega)
    refine ⟨{ entries := p.reverse, commonAncestorId := none }, ?_, .apart rfl ?_ hpath⟩
    · rw [Option.map_none, hloop]
      rfl
    · exact fun x hxo hxt => happart x ((mem_walk_iff hq).2 hxt) ((mem_walk_iff hp).2 hxo)
  | some c =>
    obtain ⟨front, rest, hrest, rfl, hnot, hboth⟩ := walks_meet hp hq hon hc
    have hcp : c ∈ front ++ c :: rest := mem_append_right _ mem_cons_self
    have hfront : ∀ x ∈ front, some x.id ≠ some c.id := by
      intro x hx hid
      have hstored := hpstored x (mem_append_left _ hx)
      rw [Option.some.inj hid, hpstored c hcp] at hstored
      exact hnot (Option.some.inj hstored ▸ hx)
    rw [length_append] at hlength
    have hloop := collectFrom_walk h hfront rfl hold hp
      (show front.length < sm.byId.size + 2 by omega)
    refine ⟨{ entries := front.reverse, commonAncestorId := some c.id }, ?_,
      .below c (c :: rest).reverse rfl ((mem_walk_iff hp).1 hcp)
        ((mem_walk_iff hq).1 (mem_of_find?_eq_some hc)) ?_ (pathTo_of_walk hrest) ?_⟩
    · rw [Option.map_some]
      rw [hloop]
      rfl
    · intro x hxo hxt
      exact (mem_walk_iff hrest).1 (hboth x ((mem_walk_iff hp).2 hxo) ((mem_walk_iff hq).2 hxt))
    · rw [hpath, reverse_append]

/-- The entries for the summary of a branch that is left: the path from the deepest common ancestor to
the old leaf. When the target is the old leaf or above it, that ancestor is the target; when the old
leaf is above the target, nothing is left behind. -/
theorem collectEntriesForBranchSummary_spec {sm : SessionManager} (h : SessionTree sm.byId)
    {oldId targetId : String} {old target : SessionEntry} (hold : sm.byId.get? oldId = some old)
    (htarget : sm.byId.get? targetId = some target) :
    ∃ r, collectEntriesForBranchSummary sm (some oldId) targetId = some r ∧ LeftBehind sm.byId old target r ∧
      (Ancestor sm.byId target old → r.commonAncestorId = some targetId) ∧
      (Ancestor sm.byId old target → r.commonAncestorId = some oldId ∧ r.entries = []) := by
  obtain ⟨rfl, -⟩ := h.keyed oldId old hold
  obtain ⟨rfl, -⟩ := h.keyed targetId target htarget
  obtain ⟨r, hr, hleft⟩ := collect_leftBehind h hold htarget
  refine ⟨r, hr, hleft, fun hanc => ?_, fun hanc => ?_⟩
  · cases hleft with
    | below c above named ofOld ofTarget deepest toAncestor toOld =>
      rw [named, (h.rooted _ target htarget).antisymm ofTarget (deepest target hanc .refl)]
    | apart named none toOld => exact absurd .refl (none target hanc)
  · cases hleft with
    | below c above named ofOld ofTarget deepest toAncestor toOld =>
      obtain rfl := (h.rooted _ old hold).antisymm ofOld (deepest old .refl hanc)
      refine ⟨named, ?_⟩
      rw [toAncestor, Option.some.injEq, self_eq_append_right] at toOld
      exact toOld
    | apart named none toOld => exact absurd hanc (none old .refl)

/-! ## A fork -/

def forkHead : SessionHeader :=
  { version := some currentVersion, id := "s", timestamp := "2026-01-01T00:00:00.000Z", cwd := "/repo"
    parentSession := none, rlmDepth := none, git := none }

/-- Two branches behind one entry. -/
def forkEntries : List SessionEntry :=
  [pathEntry "a" none (.message (userMessage "one")),
    pathEntry "b" (some "a") (.message (userMessage "two")),
    pathEntry "c" (some "b") (.message (assistantMessage "three")),
    pathEntry "d" (some "a") (.message (userMessage "four"))]

theorem sound_forkEntries : Sound forkEntries where
  nodup := by decide
  linked := by simp [forkEntries, Linked, pathEntry, SessionEntry.parent]
  ids_ne := by decide

theorem collectEntriesForBranchSummary_forkEntries :
    ∃ r old target, collectEntriesForBranchSummary (memoryOf forkHead forkEntries) (some "c") "d" = some r ∧
      LeftBehind (memoryOf forkHead forkEntries).byId old target r ∧
      r.commonAncestorId = some "a" ∧ r.entries.map SessionEntry.id = ["b", "c"] := by
  obtain ⟨r, hr, hleft, -, -⟩ := @collectEntriesForBranchSummary_spec (memoryOf forkHead forkEntries)
    (sessionTree_of_wellFormed (wellFormed_memoryOf forkHead sound_forkEntries)) "c" "d" _ _ rfl rfl
  refine ⟨r, _, _, hr, hleft, ?_⟩
  cases hr
  exact ⟨rfl, rfl⟩

end Compact
end RePrime
